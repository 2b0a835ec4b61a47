import Gat.Model.LexicalTree
import Gat.ToMathlib.SortedMap
import Mathlib.Data.Prod.Lex

/-! # Ownership and routing configuration

A mount owns its target and everything below it, so the targets of an effective configuration do not overlap. A
route chooses the remote of a subtree, and the longest of the routes around a path wins, so their paths differ.
-/

namespace Gat

abbrev MountName := Str

abbrev RouteName := Str

abbrev RemoteName := Str

structure MountConfig where
  target : GatPath

structure MountsConfig where
  byName : SortedMap MountName MountConfig

/-- The mount that owns a path, and what it owns. -/
structure MountOwner where
  name : MountName
  target : GatPath
deriving DecidableEq

structure RouteConfig where
  path : GatPath
  remote : RemoteName

structure RoutesConfig where
  byName : SortedMap RouteName RouteConfig

/-- A route with the path that has matched and the remote that it selects. -/
structure RouteMatch where
  name : RouteName
  route : GatPath
  remote : RemoteName
deriving DecidableEq

/-- Configured remotes with their endpoint templates. -/
structure RemotesConfig where
  byName : SortedMap RemoteName Str
  default : Option RemoteName

structure Config where
  mounts : MountsConfig
  routes : RoutesConfig
  remotes : RemotesConfig

inductive ConfigError where
  | mountTargetOverlap (name : Option MountName) (target : Str) (otherName : MountName) (otherTarget : Str)
  | reservedRouteName
  | routeConflict (firstName secondName : RouteName) (path : Str)
deriving DecidableEq

/-- The name of the listed row for the default remote. -/
def RESERVED_DEFAULT_ROUTE_NAME : RouteName := ascii "*"

/-- `max_by_key`, which takes the last of equal ones. -/
def maxByKey {α : Type} (key : α → ℕ) (items : List α) : Option α :=
  items.foldl (fun best item =>
    match best with
    | some other => if key other ≤ key item then some item else best
    | none => some item) none

namespace MountsConfig

variable (mounts : MountsConfig)

/-- Find the owner by a scan of all mounts. -/
def ownerOf (path : GatPath) : Option MountOwner :=
  (mounts.byName.entries.find? fun entry => path.isOrUnder entry.2.target).map fun entry => ⟨entry.1, entry.2.target⟩

/-- Scan mounts in the order of their targets; the candidates are those whose target begins the current one. -/
def scanTargets : List (MountName × MountConfig) → List (MountName × MountConfig) → Except ConfigError Unit
  | [], _ => .ok ()
  | mount :: rest, candidates =>
    let begins := candidates.dropWhile fun prior => !decide (prior.2.target.text <+: mount.2.target.text)
    match begins.head? with
    | some other =>
      if mount.2.target.isOrUnder other.2.target then
        .error (.mountTargetOverlap (some mount.1) mount.2.target.text other.1 other.2.target.text)
      else scanTargets rest (mount :: begins)
    | none => scanTargets rest (mount :: begins)

def orderedTargets : List (MountName × MountConfig) :=
  mounts.byName.entries.mergeSort fun first second =>
    toLex (first.2.target, first.1) ≤ toLex (second.2.target, second.1)

def validateEffective : Except ConfigError Unit := scanTargets mounts.orderedTargets []

/-- Check a proposed target against every other mount; the mount that moves there is left out. -/
def checkTarget (target : GatPath) (excludeName : Option MountName) : Except ConfigError Unit :=
  mounts.byName.entries.forM fun other =>
    if some other.1 = excludeName then .ok ()
    else if target.isOrUnder other.2.target ∨ other.2.target.isOrUnder target then
      .error (.mountTargetOverlap excludeName target.text other.1 other.2.target.text)
    else .ok ()

end MountsConfig

namespace RoutesConfig

variable (routes : RoutesConfig)

/-- Choose the longest of all routes around a path. -/
def routeFor (path : GatPath) : Option RouteMatch :=
  (maxByKey (fun entry => entry.2.path.text.length)
    (routes.byName.entries.filter fun entry => path.isOrUnder entry.2.path)).map
    fun entry => ⟨entry.1, entry.2.path, entry.2.remote⟩

/-- Record the path of each route; a path that is already there belongs to another route. -/
def scanPaths : List (RouteName × RouteConfig) → SortedMap Str RouteName → Except ConfigError Unit
  | [], _ => .ok ()
  | route :: rest, seen =>
    match seen.get? route.2.path.text with
    | some other => .error (.routeConflict other route.1 route.2.path.text)
    | none => scanPaths rest (seen.insert route.2.path.text route.1)

def validateEffective : Except ConfigError Unit :=
  if (routes.byName.get? RESERVED_DEFAULT_ROUTE_NAME).isSome then .error .reservedRouteName
  else scanPaths routes.byName.entries .empty

end RoutesConfig

end Gat

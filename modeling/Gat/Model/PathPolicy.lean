import Gat.Model.Config
import Mathlib

/-! # Compiled path policy

Ownership and routing are compiled to indexes by prefix, which a lookup probes along the ancestors of its path. A
remote and a route are named by identities from ranges that no other operation gets.
-/

namespace Gat

/-! ## Identities -/

def USIZE_MAX : ℕ := 2 ^ 64 - 1

inductive RemoteIdentityError where
  | foreignOwner
  | exhausted
deriving DecidableEq

/-- Identities of one catalog or policy. -/
structure IdentityRange where
  start : ℕ
  len : ℕ
deriving DecidableEq

namespace IdentityRange

/-- Take a range from the counter of the process, and leave the counter behind it. -/
def allocate (next len : ℕ) : Except RemoteIdentityError (IdentityRange × ℕ) :=
  if next + max len 1 ≤ USIZE_MAX then .ok (⟨next, len⟩, next + max len 1) else .error .exhausted

def id (range : IdentityRange) (index : ℕ) : ℕ := range.start + index

def index (range : IdentityRange) (id : ℕ) : Except RemoteIdentityError ℕ :=
  if range.start ≤ id ∧ id - range.start < range.len then .ok (id - range.start) else .error .foreignOwner

end IdentityRange

structure RemoteId where
  id : ℕ
deriving DecidableEq

structure RouteId where
  id : ℕ
deriving DecidableEq

/-! ## The remote catalog -/

structure RemoteSpec where
  name : Str
  url : Str

inductive RemoteCatalogError where
  | identity (source : RemoteIdentityError)
  | unknownDefault (name : Str)
deriving DecidableEq

structure RemoteCatalog where
  identities : IdentityRange
  specs : List RemoteSpec
  byName : SortedMap Str RemoteId
  default : Option RemoteId

namespace RemoteCatalog

/-- Name every configured remote by its position. -/
def fromConfig (next : ℕ) (remotes : RemotesConfig) : Except RemoteCatalogError (RemoteCatalog × ℕ) := do
  let specs := remotes.byName.entries.map fun entry => (⟨entry.1, entry.2⟩ : RemoteSpec)
  let (identities, next) ← (IdentityRange.allocate next specs.length).mapError RemoteCatalogError.identity
  let byName := specs.zipIdx.foldl (fun index spec => index.insert spec.1.name ⟨identities.id spec.2⟩) SortedMap.empty
  match remotes.default with
  | some name =>
    match byName.get? name with
    | some id => return (⟨identities, specs, byName, some id⟩, next)
    | none => throw (.unknownDefault name)
  | none => return (⟨identities, specs, byName, none⟩, next)

variable (catalog : RemoteCatalog)

def idOf (name : RemoteName) : Option RemoteId := catalog.byName.get? name

def remoteName (id : RemoteId) : Except RemoteIdentityError RemoteName := do
  let index ← catalog.identities.index id.id
  match catalog.specs[index]? with
  | some spec => return spec.name
  | none => throw .foreignOwner

end RemoteCatalog

/-! ## Prefix indexes -/

/-- The byte position of the last occurrence. -/
def Str.rfind (text : Str) (byte : UInt8) : Option ℕ :=
  (text.reverse.findIdx? (· = byte)).map fun fromEnd => text.length - 1 - fromEnd

theorem Str.rfind_lt {text : Str} {byte : UInt8} {index : ℕ} (found : text.rfind byte = some index) : index < text.length := by
  obtain ⟨fromEnd, isEnd, rfl⟩ := Option.map_eq_some_iff.mp found
  have bound := (List.findIdx?_eq_some_iff_findIdx_eq.mp isEnd).1
  rw [List.length_reverse] at bound
  omega

/-- The text before the last separator. -/
def parentPrefix (path : Str) : Option Str := (path.rfind Byte.slash).map path.take

theorem length_parentPrefix {path parent : Str} (found : parentPrefix path = some parent) : parent.length < path.length := by
  obtain ⟨index, last, rfl⟩ := Option.map_eq_some_iff.mp found
  have bound := Str.rfind_lt last
  rw [List.length_take]
  omega

set_option linter.unusedVariables false in
/-- A path and its ancestors, from the path up. -/
def ancestorPrefixes (path : Str) : List Str :=
  match found : parentPrefix path with
  | some parent => path :: ancestorPrefixes parent
  | none => [path]
termination_by path.length
decreasing_by exact length_parentPrefix found

/-- Values by path. -/
structure PathPrefixMap (τ : Type) where
  entries : SortedMap GatPath τ

namespace PathPrefixMap

variable {τ : Type} (map : PathPrefixMap τ)

/-- Collect pairs into an index; a later pair replaces an earlier one with its path. -/
def collect (pairs : List (GatPath × τ)) : PathPrefixMap τ :=
  ⟨pairs.foldl (fun entries pair => entries.insert pair.1 pair.2) .empty⟩

/-- Look up the text of a path. -/
def getKeyValue (key : Str) : Option (GatPath × τ) := map.entries.entries.find? fun entry => entry.1.text = key

/-- The first indexed ancestor on the way up. -/
def longestPrefix (path : GatPath) : Option (GatPath × τ) :=
  if map.entries.entries = [] then none else (ancestorPrefixes path.text).findSome? map.getKeyValue

end PathPrefixMap

/-! ## The policy -/

inductive PathPolicyError where
  | config (source : ConfigError)
  | identity (source : RemoteIdentityError)
  | unknownRouteRemote (routeName routePath remote : Str)
  | unknownDefault (name : Str)
deriving DecidableEq

structure MountOwnership where
  mounts : PathPrefixMap MountName

namespace MountOwnership

def new (mounts : MountsConfig) : Except PathPolicyError MountOwnership := do
  mounts.validateEffective.mapError PathPolicyError.config
  return ⟨PathPrefixMap.collect (mounts.byName.entries.map fun entry => (entry.2.target, entry.1))⟩

def ownerForPath (ownership : MountOwnership) (path : GatPath) : Option MountOwner :=
  (ownership.mounts.longestPrefix path).map fun found => ⟨found.2, found.1⟩

end MountOwnership

structure RouteDescriptor where
  name : RouteName
  path : GatPath
deriving DecidableEq

structure CompiledRoute where
  id : RouteId
  remoteId : RemoteId
deriving DecidableEq

structure EffectivePathPolicy where
  routeIdentities : IdentityRange
  mounts : MountOwnership
  routes : PathPrefixMap CompiledRoute
  routeDescriptors : List RouteDescriptor
  defaultRemoteId : Option RemoteId

/-- The remote of a path, and the route that has selected it. -/
structure ResolvedRemote where
  id : RemoteId
  route : Option RouteId
deriving DecidableEq

structure UnknownRemoteOverrideError where
  name : Str
deriving DecidableEq

namespace EffectivePathPolicy

/-- Compile routes one after another. -/
def compileRoutes (catalog : RemoteCatalog) (identities : IdentityRange) :
    List (RouteName × RouteConfig) → SortedMap GatPath CompiledRoute → List RouteDescriptor →
      Except PathPolicyError (SortedMap GatPath CompiledRoute × List RouteDescriptor)
  | [], routes, descriptors => .ok (routes, descriptors)
  | (name, route) :: rest, routes, descriptors =>
    match catalog.idOf route.remote with
    | none => .error (.unknownRouteRemote name route.path.text route.remote)
    | some remoteId =>
      let id : RouteId := ⟨identities.id descriptors.length⟩
      compileRoutes catalog identities rest (routes.insert route.path ⟨id, remoteId⟩) (descriptors ++ [⟨name, route.path⟩])

def compileDefault (catalog : RemoteCatalog) : Option RemoteName → Except PathPolicyError (Option RemoteId)
  | none => .ok none
  | some name =>
    match catalog.idOf name with
    | some id => .ok (some id)
    | none => .error (.unknownDefault name)

def fromConfig (next : ℕ) (config : Config) (catalog : RemoteCatalog) : Except PathPolicyError (EffectivePathPolicy × ℕ) := do
  config.routes.validateEffective.mapError PathPolicyError.config
  let (identities, next) ← (IdentityRange.allocate next config.routes.byName.entries.length).mapError PathPolicyError.identity
  let mounts ← MountOwnership.new config.mounts
  let (routes, descriptors) ← compileRoutes catalog identities config.routes.byName.entries .empty []
  let defaultRemoteId ← compileDefault catalog config.remotes.default
  return (⟨identities, mounts, ⟨routes⟩, descriptors, defaultRemoteId⟩, next)

variable (policy : EffectivePathPolicy)

def ownerForPath (path : GatPath) : Option MountOwner := policy.mounts.ownerForPath path

/-- The name of the route that has selected a remote. -/
def routeName (remote : ResolvedRemote) : Except RemoteIdentityError (Option RouteName) :=
  match remote.route with
  | none => .ok none
  | some route => do
    let index ← policy.routeIdentities.index route.id
    match policy.routeDescriptors[index]? with
    | some descriptor => return some descriptor.name
    | none => throw .foreignOwner

/-- An explicit remote wins, then the longest route around the path, then the default remote. -/
def resolvedRemoteForPath (catalog : RemoteCatalog) (explicit : Option RemoteName) (path : GatPath) :
    Except UnknownRemoteOverrideError (Option ResolvedRemote) :=
  match explicit with
  | some name =>
    match catalog.idOf name with
    | some id => .ok (some ⟨id, none⟩)
    | none => .error ⟨name⟩
  | none =>
    match policy.routes.longestPrefix path with
    | some found => .ok (some ⟨found.2.remoteId, some found.2.id⟩)
    | none => .ok (policy.defaultRemoteId.map fun id => ⟨id, none⟩)

end EffectivePathPolicy

end Gat

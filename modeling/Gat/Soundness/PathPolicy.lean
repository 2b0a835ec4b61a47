import Gat.Proofs.Config
import Gat.Proofs.PathPolicy
import Gat.ToMathlib.Fallible

/-! # The compiled policy is the configured one

Compilation indexes every mount and every route of an accepted configuration. The longest indexed name around a path
is then the one owner that the configuration has, or the route that its maximum chooses.
-/

namespace Gat

open AncestorFree

/-! ## The catalog -/

/-- A catalog knows exactly the configured names, and the identity that it gives to one stands for it. -/
theorem RemoteCatalog.idOf_spec {next after : ℕ} {remotes : RemotesConfig} {catalog : RemoteCatalog}
    (accepted : fromConfig next remotes = .ok (catalog, after)) (name : RemoteName) :
    ((catalog.idOf name).isSome ↔ (remotes.byName.get? name).isSome) ∧
      ∀ id, catalog.idOf name = some id → catalog.remoteName id = .ok name := by
  let specs := remotes.byName.entries.map fun entry => (⟨entry.1, entry.2⟩ : RemoteSpec)
  let pairs := specs.zipIdx.map fun spec => (spec.1.name, (⟨next + spec.2⟩ : RemoteId))
  have distinct : (pairs.map Prod.fst).Nodup := by
    have names : pairs.map Prod.fst = remotes.byName.entries.map Prod.fst := by
      have listed : specs.zipIdx.map (fun spec => spec.1.name) = specs.map RemoteSpec.name := by
        conv_rhs => rw [← List.zipIdx_map_fst 0 specs, List.map_map]
        rfl
      rw [List.map_map]
      exact listed.trans (List.map_map ..)
    exact names ▸ List.pairwise_map.mpr (remotes.byName.sorted.imp ne_of_lt)
  obtain ⟨identities, isSpecs, isIndex⟩ : catalog.identities = ⟨next, specs.length⟩ ∧ catalog.specs = specs ∧
      catalog.byName = pairs.foldl (fun index pair => index.insert pair.1 pair.2) .empty := by
    unfold fromConfig at accepted
    change (((IdentityRange.allocate next specs.length).mapError RemoteCatalogError.identity) >>= _) = _ at accepted
    cases allocated : IdentityRange.allocate next specs.length with
    | error failure => simp [allocated, Except.mapError, bind, Except.bind] at accepted
    | ok range =>
      rw [allocated] at accepted
      simp only [Except.mapError, bind, Except.bind, pure, Except.pure, throw, throwThe, MonadExceptOf.throw] at accepted
      unfold IdentityRange.allocate at allocated
      split_ifs at allocated
      cases allocated
      have indexed : specs.zipIdx.foldl (fun index spec => index.insert spec.1.name (⟨next + spec.2⟩ : RemoteId)) SortedMap.empty =
          pairs.foldl (fun index pair => index.insert pair.1 pair.2) .empty := by rw [List.foldl_map]
      split at accepted
      · split at accepted
        · cases accepted
          exact ⟨rfl, rfl, indexed⟩
        · cases accepted
      · cases accepted
        exact ⟨rfl, rfl, indexed⟩
  have known {id : RemoteId} : catalog.idOf name = some id ↔ ∃ index, (specs[index]?).map RemoteSpec.name = some name ∧ id = ⟨next + index⟩ := by
    rw [idOf, isIndex, SortedMap.get?_foldl_insert_eq_some_iff distinct, List.mem_map]
    constructor
    · rintro ⟨spec, member, same⟩
      cases same
      exact ⟨spec.2, by rw [List.mem_zipIdx_iff_getElem?.mp member]; rfl, rfl⟩
    · rintro ⟨index, listed, rfl⟩
      obtain ⟨spec, isSpec, rfl⟩ := Option.map_eq_some_iff.mp listed
      exact ⟨(spec, index), List.mem_zipIdx_iff_getElem?.mpr isSpec, rfl⟩
  refine ⟨?_, fun id isId => ?_⟩
  · rw [Option.isSome_iff_exists, Option.isSome_iff_exists]
    constructor
    · rintro ⟨id, isId⟩
      obtain ⟨index, listed, -⟩ := known.mp isId
      obtain ⟨spec, isSpec, rfl⟩ := Option.map_eq_some_iff.mp listed
      obtain ⟨entry, member, rfl⟩ := List.mem_map.mp (List.mem_of_getElem? isSpec)
      exact ⟨entry.2, SortedMap.get?_of_mem member⟩
    · rintro ⟨url, bound⟩
      have listed : (⟨name, url⟩ : RemoteSpec) ∈ specs := List.mem_map_of_mem (SortedMap.get?_eq_some_iff.mp bound)
      obtain ⟨index, isIndex⟩ := List.getElem?_of_mem listed
      exact ⟨⟨next + index⟩, known.mpr ⟨index, by rw [isIndex]; rfl, rfl⟩⟩
  · obtain ⟨index, listed, rfl⟩ := known.mp isId
    obtain ⟨spec, isSpec, rfl⟩ := Option.map_eq_some_iff.mp listed
    have bound : index < specs.length := (List.getElem?_eq_some_iff.mp isSpec).1
    unfold remoteName IdentityRange.index
    rw [identities, if_pos ⟨Nat.le_add_right _ _, by rw [Nat.add_sub_cancel_left]; exact bound⟩, isSpecs, Nat.add_sub_cancel_left]
    simp only [bind, Except.bind, isSpec]
    rfl

/-! ## Compilation -/

namespace EffectivePathPolicy

variable {catalog : RemoteCatalog} {identities : IdentityRange}

/-- What the route at a position is compiled to. -/
def compiledRoute (catalog : RemoteCatalog) (identities : IdentityRange) (route : (RouteName × RouteConfig) × ℕ) : Option (GatPath × CompiledRoute) :=
  (catalog.idOf route.1.2.remote).map fun remoteId => (route.1.2.path, ⟨⟨identities.id route.2⟩, remoteId⟩)

/-- Compiling routes inserts them one after another under consecutive identities. -/
theorem compileRoutes_eq_ok {rest : List (RouteName × RouteConfig)} {routes compiled : SortedMap GatPath CompiledRoute}
    {descriptors named : List RouteDescriptor}
    (done : compileRoutes catalog identities rest routes descriptors = .ok (compiled, named)) :
    named = descriptors ++ rest.map (fun route => ⟨route.1, route.2.path⟩) ∧
      ∃ pairs, (rest.zipIdx descriptors.length).mapM (compiledRoute catalog identities) = some pairs ∧
        compiled = pairs.foldl (fun entries pair => entries.insert pair.1 pair.2) routes := by
  induction rest generalizing routes descriptors with
  | nil =>
    cases done
    exact ⟨(List.append_nil _).symm, [], rfl, rfl⟩
  | cons route rest ih =>
    obtain ⟨name, route⟩ := route
    rw [compileRoutes] at done
    cases known : catalog.idOf route.remote with
    | none => simp [known] at done
    | some remoteId =>
      simp only [known] at done
      obtain ⟨descriptions, pairs, later, inserted⟩ := ih done
      rw [List.length_append, List.length_singleton] at later
      refine ⟨by rw [descriptions, List.append_assoc]; rfl, (route.path, ⟨⟨identities.id descriptors.length⟩, remoteId⟩) :: pairs, ?_, inserted⟩
      rw [List.zipIdx_cons, List.mapM_cons, later, compiledRoute, known]
      rfl

/-- An accepted policy with what each of its parts is compiled from. -/
structure Compiled (config : Config) (catalog : RemoteCatalog) (policy : EffectivePathPolicy) : Prop where
  mounts : config.mounts.validateEffective = .ok ()
  routes : config.routes.validateEffective = .ok ()
  mountIndex : policy.mounts.mounts = PathPrefixMap.collect (config.mounts.byName.entries.map fun entry => (entry.2.target, entry.1))
  count : policy.routeIdentities.len = config.routes.byName.entries.length
  descriptors : policy.routeDescriptors = config.routes.byName.entries.map fun entry => ⟨entry.1, entry.2.path⟩
  routeIndex : ∃ pairs, config.routes.byName.entries.zipIdx.mapM (compiledRoute catalog policy.routeIdentities) = some pairs ∧
    policy.routes = PathPrefixMap.collect pairs
  fallback : compileDefault catalog config.remotes.default = .ok policy.defaultRemoteId

theorem compiled_of_fromConfig {next after : ℕ} {config : Config} {policy : EffectivePathPolicy}
    (accepted : fromConfig next config catalog = .ok (policy, after)) : Compiled config catalog policy := by
  unfold fromConfig MountOwnership.new at accepted
  simp only [bind, Except.bind, pure, Except.pure] at accepted
  cases routesValid : config.routes.validateEffective with
  | error failure => simp [routesValid, Except.mapError] at accepted
  | ok valid =>
    cases allocated : IdentityRange.allocate next config.routes.byName.entries.length with
    | error failure => simp [routesValid, allocated, Except.mapError] at accepted
    | ok range =>
      cases mountsValid : config.mounts.validateEffective with
      | error failure => simp [routesValid, allocated, mountsValid, Except.mapError] at accepted
      | ok apart =>
        simp only [routesValid, allocated, mountsValid, Except.mapError] at accepted
        cases compiling : compileRoutes catalog range.1 config.routes.byName.entries .empty [] with
        | error failure => simp [compiling] at accepted
        | ok compiled =>
          simp only [compiling] at accepted
          cases fallback : compileDefault catalog config.remotes.default with
          | error failure => simp [fallback] at accepted
          | ok defaultRemoteId =>
            simp only [fallback] at accepted
            cases accepted
            obtain ⟨descriptions, pairs, each, inserted⟩ := compileRoutes_eq_ok compiling
            refine ⟨mountsValid, routesValid, rfl, ?_, descriptions, ⟨pairs, each, congrArg PathPrefixMap.mk inserted⟩, fallback⟩
            unfold IdentityRange.allocate at allocated
            split_ifs at allocated
            cases allocated
            rfl

theorem compileDefault_eq_ok {default : Option RemoteName} {id : Option RemoteId} (compiled : compileDefault catalog default = .ok id) :
    id = default.bind catalog.idOf := by
  cases default with
  | none =>
    cases compiled
    rfl
  | some name =>
    rw [compileDefault] at compiled
    rw [Option.bind_some]
    cases known : catalog.idOf name with
    | none => simp [known] at compiled
    | some remote =>
      simp only [known] at compiled
      cases compiled
      rfl

namespace Compiled

variable {config : Config} {policy : EffectivePathPolicy} (compiled : Compiled config catalog policy)

include compiled

theorem nodup_targets : ((config.mounts.byName.entries.map fun entry => (entry.2.target, entry.1)).map Prod.fst).Nodup := by
  rw [List.map_map]
  refine List.Nodup.map_on (fun first isFirst second isSecond same => ?_) ?_
  · exact MountsConfig.apart_of_validateEffective compiled.mounts isFirst isSecond (Or.inl (congrArg GatPath.text same).symm)
  · exact config.mounts.byName.sorted.imp fun below same => absurd (same ▸ below) (lt_irrefl _)

/-- The mount index has exactly the configured mounts. -/
theorem mem_mounts {target : GatPath} {name : MountName} :
    (target, name) ∈ policy.mounts.mounts.entries.entries ↔ ∃ mount, (name, mount) ∈ config.mounts.byName.entries ∧ mount.target = target := by
  rw [compiled.mountIndex, PathPrefixMap.mem_collect compiled.nodup_targets, List.mem_map]
  constructor
  · rintro ⟨entry, member, same⟩
    cases same
    exact ⟨entry.2, member, rfl⟩
  · rintro ⟨mount, member, rfl⟩
    exact ⟨_, member, rfl⟩

/-- The routes are indexed under their own paths. -/
theorem exists_pairs : ∃ pairs, List.Forall₂ (fun route pair => compiledRoute catalog policy.routeIdentities route = some pair)
    config.routes.byName.entries.zipIdx pairs ∧ policy.routes = PathPrefixMap.collect pairs ∧ (pairs.map Prod.fst).Nodup := by
  obtain ⟨pairs, each, inserted⟩ := compiled.routeIndex
  have related := Option.mapM_eq_some_iff.mp each
  have paths : List.Forall₂ Eq (config.routes.byName.entries.zipIdx.map fun route => route.1.2.path) (pairs.map Prod.fst) := by
    refine List.forall₂_map_left_iff.mpr (List.forall₂_map_right_iff.mpr (related.imp fun route pair isPair => ?_))
    obtain ⟨remoteId, -, rfl⟩ := Option.map_eq_some_iff.mp isPair
    rfl
  have configured : config.routes.byName.entries.zipIdx.map (fun route => route.1.2.path) =
      config.routes.byName.entries.map fun entry => entry.2.path := by
    conv_rhs => rw [← List.zipIdx_map_fst 0 config.routes.byName.entries, List.map_map]
    rfl
  have same := List.forall₂_eq_eq_eq (α := GatPath) ▸ paths
  exact ⟨pairs, related, inserted, same ▸ configured ▸ RoutesConfig.distinct_of_validateEffective compiled.routes⟩

/-- The route index has exactly the configured routes, each with the remote that it names. -/
theorem mem_routes {path : GatPath} {route : CompiledRoute} :
    (path, route) ∈ policy.routes.entries.entries ↔ ∃ index name configured, config.routes.byName.entries[index]? = some (name, configured) ∧
      configured.path = path ∧ route.id = ⟨policy.routeIdentities.id index⟩ ∧ catalog.idOf configured.remote = some route.remoteId := by
  obtain ⟨pairs, related, inserted, distinct⟩ := compiled.exists_pairs
  rw [inserted, PathPrefixMap.mem_collect distinct]
  constructor
  · intro member
    obtain ⟨⟨entry, index⟩, inside, isPair⟩ := List.exists_of_forall₂ related.flip member
    obtain ⟨remoteId, known, same⟩ := Option.map_eq_some_iff.mp isPair
    cases same
    exact ⟨index, entry.1, entry.2, List.mem_zipIdx_iff_getElem?.mp inside, rfl, rfl, known⟩
  · rintro ⟨index, name, configured, listed, rfl, isId, known⟩
    obtain ⟨pair, member, isPair⟩ := List.exists_of_forall₂ related (List.mem_zipIdx_iff_getElem?.mpr listed : ((name, configured), index) ∈ _)
    obtain ⟨remoteId, sameRemote, rfl⟩ := Option.map_eq_some_iff.mp isPair
    cases known.symm.trans sameRemote
    obtain ⟨id, remote⟩ := route
    cases isId
    exact member

/-- A configured route is indexed with a remote. -/
theorem exists_indexed {index : ℕ} {entry : RouteName × RouteConfig} (listed : config.routes.byName.entries[index]? = some entry) :
    ∃ remoteId, catalog.idOf entry.2.remote = some remoteId ∧
      (entry.2.path, (⟨⟨policy.routeIdentities.id index⟩, remoteId⟩ : CompiledRoute)) ∈ policy.routes.entries.entries := by
  obtain ⟨pairs, related, -⟩ := compiled.exists_pairs
  obtain ⟨pair, -, isPair⟩ := List.exists_of_forall₂ related (List.mem_zipIdx_iff_getElem?.mpr listed : (entry, index) ∈ _)
  obtain ⟨remoteId, known, -⟩ := Option.map_eq_some_iff.mp isPair
  exact ⟨remoteId, known, compiled.mem_routes.mpr ⟨index, entry.1, entry.2, listed, rfl, rfl, known⟩⟩

/-- The name behind the identity of a route. -/
theorem routeName_eq {index : ℕ} {name : RouteName} {configured : RouteConfig}
    (listed : config.routes.byName.entries[index]? = some (name, configured)) (remote : RemoteId) :
    policy.routeName ⟨remote, some ⟨policy.routeIdentities.id index⟩⟩ = .ok (some name) := by
  have bound : index < config.routes.byName.entries.length := (List.getElem?_eq_some_iff.mp listed).1
  have own : policy.routeIdentities.index (policy.routeIdentities.id index) = .ok index := by
    rw [IdentityRange.index, if_pos, IdentityRange.id, Nat.add_sub_cancel_left]
    rw [compiled.count, IdentityRange.id, Nat.add_sub_cancel_left]
    exact ⟨Nat.le_add_right _ _, bound⟩
  unfold routeName
  simp only [own, bind, Except.bind, compiled.descriptors, List.getElem?_map, listed]
  rfl

/-- The compiled owner of a path is the configured one. -/
theorem ownerForPath_eq (path : GatPath) : policy.ownerForPath path = config.mounts.ownerOf path := by
  unfold ownerForPath MountOwnership.ownerForPath MountsConfig.ownerOf
  cases found : policy.mounts.mounts.longestPrefix path with
  | none =>
    rw [List.find?_eq_none.mpr fun entry member => ?_]
    · rfl
    · exact fun under => PathPrefixMap.longestPrefix_eq_none_iff.mp found (entry.2.target, entry.1)
        (compiled.mem_mounts.mpr ⟨entry.2, member, rfl⟩) (GatPath.isOrUnder_iff.mp under)
  | some owner =>
    obtain ⟨target, name⟩ := owner
    obtain ⟨member, under, -⟩ := PathPrefixMap.longestPrefix_spec found
    obtain ⟨mount, listed, rfl⟩ := compiled.mem_mounts.mp member
    cases scanned : config.mounts.byName.entries.find? fun entry => path.isOrUnder entry.2.target with
    | none => exact absurd (GatPath.isOrUnder_iff.mpr under) (List.find?_eq_none.mp scanned (name, mount) listed)
    | some entry =>
      -- both targets are around the path, so one of them owns the other
      have inside := List.mem_of_find?_eq_some scanned
      have around : GatPath.Under entry.2.target path := GatPath.isOrUnder_iff.mp (by simpa using List.find?_some scanned)
      have same : (name, mount) = entry := by
        rcases IsWithin.nested under around with first | second
        · exact MountsConfig.apart_of_validateEffective compiled.mounts listed inside first
        · exact (MountsConfig.apart_of_validateEffective compiled.mounts inside listed second).symm
      rw [← same]
      rfl

/-- The route of the longest path around a path is the one that the index finds. -/
theorem longestPrefix_routes (path : GatPath) :
    match config.routes.routeFor path with
    | some chosen => ∃ index configured route, config.routes.byName.entries[index]? = some (chosen.name, configured) ∧
        configured.path = chosen.route ∧ catalog.idOf chosen.remote = some route.remoteId ∧ route.id = ⟨policy.routeIdentities.id index⟩ ∧
        policy.routes.longestPrefix path = some (chosen.route, route)
    | none => policy.routes.longestPrefix path = none := by
  unfold RoutesConfig.routeFor
  cases chosen : maxByKey (fun entry => entry.2.path.text.length) (config.routes.byName.entries.filter fun entry => path.isOrUnder entry.2.path) with
  | none =>
    refine PathPrefixMap.longestPrefix_eq_none_iff.mpr fun entry member under => ?_
    obtain ⟨index, name, configured, listed, same, -⟩ := compiled.mem_routes.mp member
    have inside : (name, configured) ∈ config.routes.byName.entries.filter fun entry => path.isOrUnder entry.2.path :=
      List.mem_filter.mpr ⟨List.mem_of_getElem? listed, GatPath.isOrUnder_iff.mpr (same ▸ under)⟩
    rw [maxByKey_eq_none_iff.mp chosen] at inside
    cases inside
  | some entry =>
    obtain ⟨inside, longest⟩ := maxByKey_spec chosen
    obtain ⟨listed, around⟩ := List.mem_filter.mp inside
    have under := GatPath.isOrUnder_iff.mp around
    obtain ⟨index, isIndex⟩ := List.getElem?_of_mem listed
    obtain ⟨remoteId, known, indexed⟩ := compiled.exists_indexed isIndex
    refine ⟨index, entry.2, ⟨⟨policy.routeIdentities.id index⟩, remoteId⟩, isIndex, rfl, known, rfl, ?_⟩
    cases found : policy.routes.longestPrefix path with
    | none => exact absurd under (PathPrefixMap.longestPrefix_eq_none_iff.mp found _ indexed)
    | some other =>
      obtain ⟨member, otherUnder, otherLongest⟩ := PathPrefixMap.longestPrefix_spec found
      obtain ⟨otherIndex, name, configured, otherListed, same, -⟩ := compiled.mem_routes.mp member
      have atMost := longest (name, configured)
        (List.mem_filter.mpr ⟨List.mem_of_getElem? otherListed, GatPath.isOrUnder_iff.mpr (same ▸ otherUnder)⟩)
      have atLeast := otherLongest _ indexed under
      have samePath : other.1 = entry.2.path := by
        refine GatPath.ext (IsWithin.eq_of_length under otherUnder ?_).symm
        rw [← same] at atLeast ⊢
        exact le_antisymm atLeast atMost
      have bound := SortedMap.get?_of_mem member
      rw [samePath, SortedMap.get?_of_mem indexed] at bound
      rw [Prod.ext samePath (Option.some.inj bound).symm]

end Compiled

end EffectivePathPolicy

/-- An accepted configuration is compiled without loss, and every lookup of the policy answers what the configuration does. -/
theorem path_policy_refines_config {next after : ℕ} {config : Config} {catalog : RemoteCatalog} {policy : EffectivePathPolicy}
    (accepted : EffectivePathPolicy.fromConfig next config catalog = .ok (policy, after)) :
    (∀ path, policy.ownerForPath path = config.mounts.ownerOf path) ∧
      (∀ path, match config.routes.routeFor path with
        | some chosen => ∃ remote route, policy.resolvedRemoteForPath catalog none path = .ok (some ⟨remote, some route⟩) ∧
            catalog.idOf chosen.remote = some remote ∧ policy.routeName ⟨remote, some route⟩ = .ok (some chosen.name) ∧
            (∃ configured, config.routes.byName.get? chosen.name = some configured ∧ configured.path = chosen.route ∧ configured.remote = chosen.remote) ∧
            path.isOrUnder chosen.route ∧
            ∀ name other, config.routes.byName.get? name = some other → path.isOrUnder other.path → name ≠ chosen.name →
              other.path.text.length < chosen.route.text.length
        | none => (∀ name other, config.routes.byName.get? name = some other → ¬path.isOrUnder other.path) ∧
            policy.resolvedRemoteForPath catalog none path =
              .ok ((config.remotes.default.bind catalog.idOf).map fun remote => ⟨remote, none⟩) ∧
            (config.remotes.default.isSome → (config.remotes.default.bind catalog.idOf).isSome)) ∧
      (∀ name mount, config.mounts.byName.get? name = some mount → policy.mounts.mounts.entries.get? mount.target = some name) ∧
      (∀ name route, config.routes.byName.get? name = some route → ∃ compiled, policy.routes.entries.get? route.path = some compiled ∧
        catalog.idOf route.remote = some compiled.remoteId ∧ policy.routeName ⟨compiled.remoteId, some compiled.id⟩ = .ok (some name)) ∧
      policy.mounts.mounts.entries.entries.length = config.mounts.byName.entries.length ∧
      policy.routes.entries.entries.length = config.routes.byName.entries.length ∧
      ∀ path : GatPath, (fun found => found.bind parentPrefix)^[path.text.count Byte.slash + 1] (some path.text) = none := by
  have compiled := EffectivePathPolicy.compiled_of_fromConfig accepted
  refine ⟨compiled.ownerForPath_eq, fun path => ?_, fun name mount configured => ?_, fun name route configured => ?_, ?_, ?_, fun path =>
    iterate_parentPrefix path.text⟩
  · have matched := compiled.longestPrefix_routes path
    unfold EffectivePathPolicy.resolvedRemoteForPath
    cases chosen : config.routes.routeFor path with
    | some route =>
      simp only [chosen] at matched
      obtain ⟨index, configured, indexed, listed, samePath, known, isId, found⟩ := matched
      have bound := SortedMap.get?_of_mem (List.mem_of_getElem? listed)
      obtain ⟨entry, isBest, isRoute⟩ := Option.map_eq_some_iff.mp chosen
      obtain ⟨inside, longest⟩ := maxByKey_spec isBest
      obtain ⟨member, around⟩ := List.mem_filter.mp inside
      have sameEntry := SortedMap.get?_of_mem member
      subst isRoute
      cases bound.symm.trans sameEntry
      refine ⟨indexed.remoteId, indexed.id, by simp only [found], known, isId ▸ compiled.routeName_eq listed _,
        ⟨entry.2, bound, rfl, rfl⟩, around, fun name other isOther otherAround different => ?_⟩
      have otherMember := SortedMap.get?_eq_some_iff.mp isOther
      refine lt_of_le_of_ne (longest (name, other) (List.mem_filter.mpr ⟨otherMember, otherAround⟩)) fun same => different ?_
      have samePath : other.path = entry.2.path :=
        GatPath.ext (IsWithin.eq_of_length (GatPath.isOrUnder_iff.mp otherAround) (GatPath.isOrUnder_iff.mp around) same)
      exact congrArg Prod.fst (List.inj_on_of_nodup_map (RoutesConfig.distinct_of_validateEffective compiled.routes) otherMember member samePath)
    | none =>
      simp only [chosen] at matched
      simp only [matched]
      refine ⟨fun name other configured around => ?_, ?_, fun isDefault => ?_⟩
      · have inside : (name, other) ∈ config.routes.byName.entries.filter fun entry => path.isOrUnder entry.2.path :=
          List.mem_filter.mpr ⟨SortedMap.get?_eq_some_iff.mp configured, around⟩
        rw [maxByKey_eq_none_iff.mp (Option.map_eq_none_iff.mp chosen)] at inside
        cases inside
      · rw [EffectivePathPolicy.compileDefault_eq_ok compiled.fallback]
      · obtain ⟨name, isName⟩ := Option.isSome_iff_exists.mp isDefault
        have fallback := compiled.fallback
        rw [isName, EffectivePathPolicy.compileDefault] at fallback
        rw [isName, Option.bind_some]
        cases known : catalog.idOf name with
        | none => simp [known] at fallback
        | some id => rfl
  · exact SortedMap.get?_eq_some_iff.mpr (compiled.mem_mounts.mpr ⟨mount, SortedMap.get?_eq_some_iff.mp configured, rfl⟩)
  · obtain ⟨index, listed⟩ := List.getElem?_of_mem (SortedMap.get?_eq_some_iff.mp configured)
    obtain ⟨remoteId, known, indexed⟩ := compiled.exists_indexed listed
    exact ⟨_, SortedMap.get?_of_mem indexed, known, compiled.routeName_eq listed remoteId⟩
  · rw [compiled.mountIndex, (PathPrefixMap.perm_collect compiled.nodup_targets).length_eq, List.length_map]
  · obtain ⟨pairs, related, inserted, distinct⟩ := compiled.exists_pairs
    rw [inserted, (PathPrefixMap.perm_collect distinct).length_eq, ← related.length_eq, List.length_zipIdx]

namespace PathPolicyExample

def vendor : GatPath := ⟨ascii "vendor", by decide, by decide⟩

def models : GatPath := ⟨ascii "vendor/models", by decide, by decide⟩

/-- A mount below a route, and a longer route for the mount. -/
def config : Config where
  mounts := ⟨⟨[(ascii "m", ⟨models⟩)], List.pairwise_singleton _ _⟩⟩
  routes := ⟨⟨[(ascii "a", ⟨models, ascii "bulk"⟩), (ascii "b", ⟨vendor, ascii "origin"⟩)], by decide⟩⟩
  remotes := ⟨⟨[(ascii "bulk", ascii "file:///b"), (ascii "origin", ascii "file:///o")], by decide⟩, some (ascii "origin")⟩

def catalog : RemoteCatalog :=
  ⟨⟨0, 2⟩, [⟨ascii "bulk", ascii "file:///b"⟩, ⟨ascii "origin", ascii "file:///o"⟩],
    ⟨[(ascii "bulk", ⟨0⟩), (ascii "origin", ⟨1⟩)], by decide⟩, some ⟨1⟩⟩

def policy : EffectivePathPolicy where
  routeIdentities := ⟨2, 2⟩
  mounts := ⟨⟨⟨[(models, ascii "m")], List.pairwise_singleton _ _⟩⟩⟩
  routes := ⟨⟨[(vendor, ⟨⟨3⟩, ⟨1⟩⟩), (models, ⟨⟨2⟩, ⟨0⟩⟩)], by decide⟩⟩
  routeDescriptors := [⟨ascii "a", models⟩, ⟨ascii "b", vendor⟩]
  defaultRemoteId := some ⟨1⟩

theorem accepted : EffectivePathPolicy.fromConfig 2 config catalog = .ok (policy, 4) := by
  have targets : config.mounts.validateEffective = .ok () := by
    simp [MountsConfig.validateEffective, MountsConfig.orderedTargets, config, MountsConfig.scanTargets]
  unfold EffectivePathPolicy.fromConfig MountOwnership.new
  rw [targets]
  rfl

/-- The compiled policy owns and routes as its configuration does. -/
theorem path_policy_refines_config_vendor : policy.ownerForPath models = config.mounts.ownerOf models ∧
    RemoteCatalog.fromConfig 0 config.remotes = .ok (catalog, 2) :=
  ⟨(path_policy_refines_config accepted).1 models, rfl⟩

end PathPolicyExample

end Gat

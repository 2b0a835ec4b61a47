import Gat.Model.Config
import Gat.Proofs.LexicalTree

/-! # What the scans of a configuration accept

The targets are scanned in ascending order with the earlier targets that begin the current one on a stack. As long as no
target overlaps another, only the top of the stack can own the current one.
-/

namespace Gat

open AncestorFree

/-! ## Mount targets -/

namespace MountsConfig

/-- Targets of earlier mounts, ascending and apart, with those that can begin a later target on the stack. -/
structure Scanned (earlier : List (MountName × MountConfig)) (candidates : List (MountName × MountConfig)) : Prop where
  ascending : (earlier.map fun mount => mount.2.target).Pairwise (· < ·)
  apart : Separated Byte.slash (earlier.map fun mount => mount.2.target.text)
  newest : candidates.head? = earlier.getLast?
  stack : ∀ path : Str, (∀ mount ∈ earlier, mount.2.target.text < path) →
    PrefixStack (earlier.map fun mount => mount.2.target.text) path
      ((candidates.map fun mount => mount.2.target.text).dropWhile fun name => !decide (name <+: path))

theorem scanned_nil : Scanned [] [] :=
  ⟨List.Pairwise.nil, separated_nil, rfl, fun path _ => PrefixStack.nil path⟩

variable {earlier candidates rest : List (MountName × MountConfig)} {mount : MountName × MountConfig}

/-- The candidates that begin the target of a mount. -/
abbrev beginning (candidates : List (MountName × MountConfig)) (mount : MountName × MountConfig) : List (MountName × MountConfig) :=
  candidates.dropWhile fun prior => !decide (prior.2.target.text <+: mount.2.target.text)

/-- A target that passes is above every earlier one. -/
theorem Scanned.lt_target (scanned : Scanned earlier candidates) (ordered : ∀ prior ∈ earlier, prior.2.target ≤ mount.2.target)
    (passes : ∀ other, (beginning candidates mount).head? = some other → ¬GatPath.Under other.2.target mount.2.target) :
    ∀ prior ∈ earlier, prior.2.target < mount.2.target := by
  intro prior member
  refine lt_of_le_of_ne (ordered prior member) fun same => ?_
  -- an equal target is the newest one, which stays on the stack
  have nonempty := List.ne_nil_of_mem member
  have newest := scanned.newest
  rw [List.getLast?_eq_some_getLast nonempty] at newest
  have below := List.key_le_getLast (List.pairwise_map.mp scanned.ascending) nonempty prior member
  have equal : (earlier.getLast nonempty).2.target = mount.2.target :=
    le_antisymm (ordered _ (List.getLast_mem nonempty)) (same ▸ below)
  refine passes (earlier.getLast nonempty) ?_ (equal ▸ isWithin_self _)
  obtain ⟨others, rfl⟩ : ∃ others, candidates = earlier.getLast nonempty :: others := by
    cases candidates with
    | nil => cases newest
    | cons head others => exact ⟨others, by rw [Option.some.inj newest]⟩
  rw [beginning, List.dropWhile_cons_of_neg]
  · rfl
  · simp [equal]

theorem Scanned.push (scanned : Scanned earlier candidates) (ordered : ∀ prior ∈ earlier, prior.2.target ≤ mount.2.target)
    (passes : ∀ other, (beginning candidates mount).head? = some other → ¬GatPath.Under other.2.target mount.2.target) :
    Scanned (earlier ++ [mount]) (mount :: beginning candidates mount) := by
  have later := scanned.lt_target ordered passes
  have chain := scanned.stack mount.2.target.text later
  have names : (candidates.map fun mount => mount.2.target.text).dropWhile (fun name => !decide (name <+: mount.2.target.text)) =
      (beginning candidates mount).map fun mount => mount.2.target.text := List.dropWhile_map ..
  rw [names] at chain
  have largest : ∀ name ∈ earlier.map (fun mount => mount.2.target.text), name < mount.2.target.text := by
    intro name member
    obtain ⟨prior, inside, rfl⟩ := List.mem_map.mp member
    exact later prior inside
  have free : ∀ name ∈ earlier.map (fun mount => mount.2.target.text), ¬IsAncestor Byte.slash name mount.2.target.text := by
    by_contra conflict
    push Not at conflict
    obtain ⟨top, isTop, continues⟩ := (chain.exists_ancestor_iff scanned.apart).mp conflict
    rw [List.head?_map, Option.map_eq_some_iff] at isTop
    obtain ⟨other, isHead, rfl⟩ := isTop
    have onStack := (chain.mem_iff other.2.target.text).mp (List.mem_map_of_mem (List.mem_of_mem_head? isHead))
    exact passes other isHead (Or.inr (isAncestor_iff.mpr ⟨onStack.2, continues⟩))
  refine ⟨?_, ?_, ?_, fun path above => ?_⟩
  · rw [List.map_append, List.pairwise_append]
    refine ⟨scanned.ascending, List.pairwise_singleton _ _, fun target member other single => ?_⟩
    obtain ⟨prior, inside, rfl⟩ := List.mem_map.mp member
    obtain rfl := List.mem_singleton.mp single
    exact later prior inside
  · rw [List.map_append]
    exact (separated_concat_iff largest).mpr ⟨scanned.apart, free⟩
  · rw [List.head?_cons, List.getLast?_concat]
  · rw [List.map_append, List.map_cons]
    refine (chain.push largest).advance_of_isPrefix ?_ (above mount (List.mem_append_right _ (List.mem_singleton_self _)))
    intro name member
    rcases List.mem_append.mp member with prior | same
    · exact (largest name prior).le
    · exact (List.mem_singleton.mp same).le

/-- A scan that accepts has seen targets that are apart. -/
theorem scanned_of_scanTargets (scanned : Scanned earlier candidates)
    (ordered : (earlier ++ rest).Pairwise fun first second => first.2.target ≤ second.2.target)
    (accepted : scanTargets rest candidates = .ok ()) : ∃ candidates, Scanned (earlier ++ rest) candidates := by
  induction rest generalizing earlier candidates with
  | nil =>
    rw [List.append_nil]
    exact ⟨candidates, scanned⟩
  | cons mount rest ih =>
    have below : ∀ prior ∈ earlier, prior.2.target ≤ mount.2.target := fun prior member =>
      (List.pairwise_append.mp ordered).2.2 prior member mount List.mem_cons_self
    obtain ⟨passes, later⟩ : (∀ other, (beginning candidates mount).head? = some other → ¬GatPath.Under other.2.target mount.2.target) ∧
        scanTargets rest (mount :: beginning candidates mount) = .ok () := by
      rw [scanTargets] at accepted
      cases top : (beginning candidates mount).head? with
      | none =>
        simp only [top] at accepted
        exact ⟨nofun, accepted⟩
      | some other =>
        simp only [top] at accepted
        split_ifs at accepted with overlaps
        refine ⟨fun found same => ?_, accepted⟩
        cases same
        exact fun under => overlaps (GatPath.isOrUnder_iff.mpr under)
    rw [List.append_cons] at ordered ⊢
    exact ih (scanned.push below passes) ordered later

/-- The targets of an accepted configuration do not overlap. -/
theorem apart_of_validateEffective {mounts : MountsConfig} (accepted : mounts.validateEffective = .ok ())
    {first second : MountName × MountConfig} (isFirst : first ∈ mounts.byName.entries) (isSecond : second ∈ mounts.byName.entries)
    (under : GatPath.Under first.2.target second.2.target) : first = second := by
  have sorted := @List.pairwise_mergeSort _ (fun first second : MountName × MountConfig =>
    decide (toLex (first.2.target, first.1) ≤ toLex (second.2.target, second.1)))
    (fun _ _ _ first second => decide_eq_true ((of_decide_eq_true first).trans (of_decide_eq_true second)))
    (fun first second => by simpa using le_total (toLex (first.2.target, first.1)) (toLex (second.2.target, second.1))) mounts.byName.entries
  have ordered : (([] : List (MountName × MountConfig)) ++ mounts.orderedTargets).Pairwise fun first second => first.2.target ≤ second.2.target :=
    sorted.imp fun below => (Prod.Lex.le_iff'.mp (of_decide_eq_true below)).1
  obtain ⟨candidates, scanned⟩ := scanned_of_scanTargets scanned_nil ordered accepted
  rw [List.nil_append] at scanned
  have listed {mount : MountName × MountConfig} (member : mount ∈ mounts.byName.entries) : mount ∈ mounts.orderedTargets :=
    List.mem_mergeSort.mpr member
  rcases under with same | above
  · have distinct := (List.pairwise_map.mp scanned.ascending).imp fun below => ne_of_lt below
    exact List.inj_on_of_nodup_map (List.pairwise_map.mpr distinct) (listed isFirst) (listed isSecond) (GatPath.ext same).symm
  · exact absurd above (scanned.apart _ (List.mem_map_of_mem (listed isFirst)) _ (List.mem_map_of_mem (listed isSecond)))

end MountsConfig

/-! ## Routes -/

namespace RoutesConfig

theorem distinct_of_scanPaths {rest : List (RouteName × RouteConfig)} {seen : SortedMap Str RouteName}
    (accepted : scanPaths rest seen = .ok ()) :
    (rest.map fun route => route.2.path).Nodup ∧ ∀ route ∈ rest, seen.get? route.2.path.text = none := by
  induction rest generalizing seen with
  | nil => exact ⟨List.nodup_nil, nofun⟩
  | cons route rest ih =>
    rw [scanPaths] at accepted
    cases known : seen.get? route.2.path.text with
    | some other => simp [known] at accepted
    | none =>
      simp only [known] at accepted
      obtain ⟨distinct, fresh⟩ := ih accepted
      simp only [SortedMap.get?_insert] at fresh
      refine ⟨List.nodup_cons.mpr ⟨fun member => ?_, distinct⟩, List.forall_mem_cons.mpr ⟨known, fun other member => ?_⟩⟩
      · obtain ⟨other, inside, same⟩ := List.mem_map.mp member
        have unseen := fresh other inside
        rw [if_pos (congrArg GatPath.text same).symm] at unseen
        cases unseen
      · have unseen := fresh other member
        split_ifs at unseen
        exact unseen

/-- The routes of an accepted configuration have different paths. -/
theorem distinct_of_validateEffective {routes : RoutesConfig} (accepted : routes.validateEffective = .ok ()) :
    (routes.byName.entries.map fun route => route.2.path).Nodup := by
  unfold validateEffective at accepted
  split_ifs at accepted
  exact (distinct_of_scanPaths accepted).1

end RoutesConfig

/-! ## The largest key -/

section MaxByKey

variable {α : Type} {key : α → ℕ}

private theorem foldl_maxByKey (items : List α) (start : Option α) :
    let found := items.foldl (fun best item =>
      match best with
      | some other => if key other ≤ key item then some item else best
      | none => some item) start
    (found = none → start.toList ++ items = []) ∧
      ∀ best, found = some best → best ∈ start.toList ++ items ∧ ∀ item ∈ start.toList ++ items, key item ≤ key best := by
  induction items generalizing start with
  | nil =>
    cases start with
    | none => exact ⟨fun _ => rfl, nofun⟩
    | some other =>
      refine ⟨nofun, ?_⟩
      rintro best ⟨⟩
      simp
  | cons item items ih =>
    cases start with
    | none => exact ih (some item)
    | some other =>
      rw [List.foldl_cons]
      dsimp only
      split_ifs with larger
      · obtain ⟨missing, found⟩ := ih (some item)
        refine ⟨fun ended => absurd (missing ended) (List.cons_ne_nil _ _), fun best isBest => ?_⟩
        obtain ⟨member, bound⟩ := found best isBest
        exact ⟨List.mem_cons_of_mem other member, List.forall_mem_cons.mpr ⟨larger.trans (bound item List.mem_cons_self), bound⟩⟩
      · obtain ⟨missing, found⟩ := ih (some other)
        refine ⟨fun ended => absurd (missing ended) (List.cons_ne_nil _ _), fun best isBest => ?_⟩
        obtain ⟨member, bound⟩ := found best isBest
        have first := bound other List.mem_cons_self
        refine ⟨(List.Sublist.cons_cons other (List.sublist_cons_self item items)).subset member, ?_⟩
        refine List.forall_mem_cons.mpr ⟨first, List.forall_mem_cons.mpr ⟨by omega, fun later inside => ?_⟩⟩
        exact bound later (List.mem_cons_of_mem other inside)

/-- `max_by_key` finds an item with the largest key. -/
theorem maxByKey_spec {items : List α} {best : α} (found : maxByKey key items = some best) :
    best ∈ items ∧ ∀ item ∈ items, key item ≤ key best :=
  (foldl_maxByKey items none).2 best found

theorem maxByKey_eq_none_iff {items : List α} : maxByKey key items = none ↔ items = [] :=
  ⟨(foldl_maxByKey items none).1, fun empty => by rw [empty]; rfl⟩

end MaxByKey

end Gat

import Mathlib.Data.Finset.Image
import Mathlib.Data.Finset.Union
import Mathlib.Data.List.Infix
import Mathlib.Tactic.Common

/-! # Directory trees

A tree gives nodes to paths, which are lists of names below a root directory; every other node lies in a directory. The
operations are those of a file system without links: each fails in the documented way, or changes exactly what it names.
-/

/-- What a path names. -/
inductive FileTree.Node (Content : Type*) where
  | directory
  | leaf (content : Content)
deriving DecidableEq

inductive FileTree.Failure where
  | notFound
  | notDirectory
  | isDirectory
  | notEmpty
  | alreadyExists
  | invalid
deriving DecidableEq, Repr

/-- A finite tree. -/
structure FileTree (Name Content : Type*) where
  node : List Name → Option (FileTree.Node Content)
  domain : Finset (List Name)
  mem_domain : ∀ path, path ∈ domain ↔ (node path).isSome
  root : node [] = some .directory
  above : ∀ path name, (node (path ++ [name])).isSome → node path = some .directory

namespace FileTree

variable {Name Content : Type*}

/-- A tree is determined by its nodes. -/
theorem ext {left right : FileTree Name Content} (same : ∀ path, left.node path = right.node path) : left = right := by
  have nodes : left.node = right.node := funext same
  have domains : left.domain = right.domain := by
    ext path
    rw [left.mem_domain, right.mem_domain, nodes]
  cases left
  cases right
  cases nodes
  cases domains
  rfl

/-- Everything above a node is a directory. -/
theorem directory_above (tree : FileTree Name Content) {path below : List Name} (above : path <+: below) (other : path ≠ below)
    (exists_ : (tree.node below).isSome) : tree.node path = some .directory := by
  obtain ⟨rest, rfl⟩ := above
  induction rest using List.reverseRecOn with
  | nil => simp at other
  | append_singleton rest name ih =>
    rw [← List.append_assoc] at exists_
    have parent := tree.above _ _ exists_
    by_cases here : rest = []
    · rwa [here, List.append_nil] at parent
    · exact ih (by simpa using here) (by rw [parent]; rfl)

/-- Below what is not a directory there is nothing. -/
theorem node_below_eq_none (tree : FileTree Name Content) {path below : List Name} (above : path <+: below) (other : path ≠ below)
    (plain : tree.node path ≠ some .directory) : tree.node below = none := by
  rw [← Option.not_isSome_iff_eq_none]
  exact fun exists_ => plain (tree.directory_above above other exists_)

/-- Below nothing there is nothing. -/
theorem none_below (tree : FileTree Name Content) {path below : List Name} (above : path <+: below) (missing : tree.node path = none) :
    tree.node below = none := by
  by_cases here : path = below
  · rwa [← here]
  · apply tree.node_below_eq_none above here
    rw [missing]
    simp

/-- Something lies strictly below the path. -/
def Occupied (tree : FileTree Name Content) (path : List Name) : Prop := ∃ below ∈ tree.domain, path <+: below ∧ path ≠ below

theorem occupied_iff (tree : FileTree Name Content) {path : List Name} : tree.Occupied path ↔ ∃ name, (tree.node (path ++ [name])).isSome := by
  constructor
  · rintro ⟨below, listed, ⟨rest, rfl⟩, other⟩
    rw [tree.mem_domain] at listed
    cases rest with
    | nil => simp at other
    | cons name rest =>
      refine ⟨name, ?_⟩
      by_cases here : rest = []
      · rwa [here] at listed
      · have above : path ++ [name] <+: path ++ name :: rest := ⟨rest, by simp⟩
        rw [tree.directory_above above (by simpa using Ne.symm here) listed]
        rfl
  · rintro ⟨name, exists_⟩
    exact ⟨path ++ [name], (tree.mem_domain _).mpr exists_, List.prefix_append _ _, by simp⟩

theorem ne_nil_of_leaf (tree : FileTree Name Content) {path : List Name} {content : Content} (found : tree.node path = some (.leaf content)) : path ≠ [] := by
  rintro rfl
  rw [tree.root] at found
  cases found

theorem not_occupied_of_leaf (tree : FileTree Name Content) {path : List Name} {content : Content} (found : tree.node path = some (.leaf content)) : ¬tree.Occupied path := by
  rintro ⟨below, listed, above, other⟩
  have nothing := tree.node_below_eq_none above other (by rw [found]; simp)
  rw [tree.mem_domain, nothing] at listed
  cases listed

section Operations

variable [DecidableEq Name]

/-- The tree with the given nodes, all of which are among the bound. -/
def ofNode (node : List Name → Option (Node Content)) (bound : Finset (List Name)) (bounded : ∀ path, (node path).isSome → path ∈ bound)
    (root : node [] = some .directory) (above : ∀ path name, (node (path ++ [name])).isSome → node path = some .directory) :
    FileTree Name Content where
  node := node
  domain := bound.filter fun path => (node path).isSome
  mem_domain path := by
    rw [Finset.mem_filter]
    exact ⟨And.right, fun exists_ => ⟨bounded path exists_, exists_⟩⟩
  root := root
  above := above

/-- A root without anything below it. -/
def empty : FileTree Name Content :=
  ofNode (fun path => if path = [] then some .directory else none) {[]}
    (fun path exists_ => by
      split_ifs at exists_ with root
      · exact Finset.mem_singleton.mpr root
      · cases exists_)
    rfl
    (fun path name exists_ => by simp at exists_)

/-- What a list of entries has at a path. -/
def entryAt (entries : List (List Name × Node Content)) (path : List Name) : Option (Node Content) :=
  (entries.find? fun entry => entry.1 = path).map Prod.snd

theorem isSome_entryAt {entries : List (List Name × Node Content)} {path : List Name} :
    (entryAt entries path).isSome ↔ ∃ entry ∈ entries, entry.1 = path := by
  simp [entryAt]

/-- A tree that is listed entry by entry, each in a listed directory. -/
def ofEntries (entries : List (List Name × Node Content)) (root : entryAt entries [] = some .directory)
    (above : ∀ entry ∈ entries, entry.1 ≠ [] → entryAt entries entry.1.dropLast = some .directory) : FileTree Name Content :=
  ofNode (entryAt entries) (entries.map Prod.fst).toFinset
    (fun path exists_ => by
      obtain ⟨entry, member, rfl⟩ := isSome_entryAt.mp exists_
      exact List.mem_toFinset.mpr (List.mem_map_of_mem member))
    root
    (fun path name exists_ => by
      obtain ⟨entry, member, same⟩ := isSome_entryAt.mp exists_
      have parent := above entry member (by rw [same]; simp)
      rwa [same, List.dropLast_concat] at parent)

variable (tree : FileTree Name Content)

/-- A leaf stands in the way to the path. -/
def obstructed (path : List Name) : Bool :=
  path.inits.any fun beginning =>
    match tree.node beginning with
    | some (.leaf _) => true
    | _ => false

/-- `lstat`. -/
def lookup (path : List Name) : Except Failure (Node Content) :=
  match tree.node path with
  | some node => .ok node
  | none => .error (if tree.obstructed path then .notDirectory else .notFound)

instance (path : List Name) : Decidable (tree.Occupied path) := inferInstanceAs (Decidable (∃ below ∈ _, _ ∧ _))

omit [DecidableEq Name] in
theorem lookup_eq_ok_iff {path : List Name} {node : Node Content} : tree.lookup path = .ok node ↔ tree.node path = some node := by
  unfold lookup
  cases tree.node path <;> simp

/-- The tree without one node, below which there is nothing. -/
def without (path : List Name) (inside : path ≠ []) (bare : ¬tree.Occupied path) : FileTree Name Content :=
  ofNode (fun other => if other = path then none else tree.node other) tree.domain
    (fun other exists_ => by
      split_ifs at exists_
      · cases exists_
      · exact (tree.mem_domain other).mpr exists_)
    (by rw [if_neg (Ne.symm inside), tree.root])
    (fun other name exists_ => by
      split_ifs at exists_ with here
      · cases exists_
      · have parent := tree.above other name exists_
        rw [if_neg, parent]
        rintro rfl
        exact bare (tree.occupied_iff.mpr ⟨name, exists_⟩))

/-- `unlink`. -/
def removeFile (path : List Name) : Except Failure (FileTree Name Content) :=
  match found : tree.node path with
  | some (.leaf _) => .ok (tree.without path (tree.ne_nil_of_leaf found) (tree.not_occupied_of_leaf found))
  | some .directory => .error .isDirectory
  | none => .error (if tree.obstructed path then .notDirectory else .notFound)

/-- `rmdir`. -/
def removeDirectory (path : List Name) : Except Failure (FileTree Name Content) :=
  match tree.node path with
  | some (.leaf _) => .error .notDirectory
  | some .directory =>
    if inside : path = [] then .error .invalid
    else if bare : tree.Occupied path then .error .notEmpty
    else .ok (tree.without path inside bare)
  | none => .error (if tree.obstructed path then .notDirectory else .notFound)

/-- The tree with one node more. -/
def withNode (path : List Name) (node : Node Content) (inside : path ≠ []) (parent : tree.node path.dropLast = some .directory)
    (fresh : tree.node path = none) : FileTree Name Content :=
  ofNode (fun other => if other = path then some node else tree.node other) (insert path tree.domain)
    (fun other exists_ => by
      split_ifs at exists_ with here
      · exact here ▸ Finset.mem_insert_self _ _
      · exact Finset.mem_insert_of_mem ((tree.mem_domain other).mpr exists_))
    (by rw [if_neg (Ne.symm inside), tree.root])
    (fun other name exists_ => by
      have above : tree.node other = some .directory := by
        split_ifs at exists_ with here
        · rw [← parent, ← here, List.dropLast_concat]
        · exact tree.above other name exists_
      rw [if_neg, above]
      rintro rfl
      rw [above] at fresh
      cases fresh)

/-- `mkdir`. -/
def makeDirectory (path : List Name) : Except Failure (FileTree Name Content) :=
  match fresh : tree.node path with
  | some _ => .error .alreadyExists
  | none =>
    match parent : tree.node path.dropLast with
    | some .directory => .ok (tree.withNode path .directory (by rintro rfl; simp [tree.root] at fresh) parent fresh)
    | some (.leaf _) => .error .notDirectory
    | none => .error (if tree.obstructed path then .notDirectory else .notFound)

/-- The nodes after a subtree has moved; nothing stays at its old place. -/
def movedNode (src dst path : List Name) : Option (Node Content) :=
  if dst <+: path then tree.node (src ++ path.drop dst.length)
  else if src <+: path then none
  else tree.node path

/-- The conditions under which a subtree moves. -/
structure Movable (src dst : List Name) : Prop where
  apart : ¬src <+: dst
  inside : dst ≠ []
  parent : tree.node dst.dropLast = some .directory

/-- The tree with a subtree moved over what was at its new place. -/
def moved (src dst : List Name) (movable : tree.Movable src dst) : FileTree Name Content :=
  ofNode (tree.movedNode src dst) (tree.domain ∪ tree.domain.image fun path => dst ++ path.drop src.length)
    (fun path exists_ => by
      unfold movedNode at exists_
      split_ifs at exists_ with there gone
      · obtain ⟨rest, rfl⟩ := there
        rw [List.drop_left] at exists_
        refine Finset.mem_union_right _ (Finset.mem_image.mpr ⟨src ++ rest, (tree.mem_domain _).mpr exists_, ?_⟩)
        rw [List.drop_left]
      · cases exists_
      · exact Finset.mem_union_left _ ((tree.mem_domain path).mpr exists_))
    (by
      have root : src ≠ [] := by
        rintro rfl
        exact movable.apart List.nil_prefix
      rw [movedNode, if_neg (by simpa using movable.inside), if_neg (by simpa using root), tree.root])
    (fun path name exists_ => by
      unfold movedNode at exists_ ⊢
      split_ifs at exists_ with there gone
      · by_cases inside : dst <+: path
        · obtain ⟨rest, rfl⟩ := inside
          rw [if_pos (List.prefix_append _ _), List.drop_left]
          rw [List.append_assoc, List.drop_left, ← List.append_assoc] at exists_
          exact tree.above _ name exists_
        · obtain rfl : dst = path ++ [name] := (List.prefix_concat_iff.mp there).resolve_right inside
          have parent := movable.parent
          rw [List.dropLast_concat] at parent
          rw [if_neg inside, if_neg (fun above => movable.apart (above.trans (List.prefix_append _ _))), parent]
      · cases exists_
      · rw [if_neg (fun above => there (above.trans (List.prefix_append _ _))),
          if_neg (fun above => gone (above.trans (List.prefix_append _ _))), tree.above path name exists_])

/-- `rename`: a leaf replaces a leaf, and a directory an empty directory. -/
def rename (src dst : List Name) : Except Failure (FileTree Name Content) :=
  match tree.lookup src with
  | .error failure => .error failure
  | .ok node =>
    if src = dst then .ok tree
    else if apart : src <+: dst then .error .invalid
    else if inside : dst = [] then .error .invalid
    else
      match parent : tree.node dst.dropLast with
      | none => .error (if tree.obstructed dst then .notDirectory else .notFound)
      | some (.leaf _) => .error .notDirectory
      | some .directory =>
        match node, tree.node dst with
        | .leaf _, some .directory => .error .isDirectory
        | .directory, some (.leaf _) => .error .notDirectory
        | _, _ => if tree.Occupied dst then .error .notEmpty else .ok (tree.moved src dst ⟨apart, inside, parent⟩)

/-! ## What the operations do -/

/-- Two trees differ at most in one path, at which the second has the given node. -/
def Sets (node : Option (Node Content)) (path : List Name) (before after : FileTree Name Content) : Prop :=
  ∀ other, after.node other = if other = path then node else before.node other

/-- A tree without some paths. -/
def Without (gone : List Name → Prop) (before after : FileTree Name Content) : Prop :=
  ∀ path, (gone path → after.node path = none) ∧ (¬gone path → after.node path = before.node path)

omit [DecidableEq Name] in
theorem Without.none {before : FileTree Name Content} : Without (fun _ => False) before before := fun _ => ⟨False.elim, fun _ => rfl⟩

omit [DecidableEq Name] in
theorem Without.congr {gone gone' : List Name → Prop} {before after : FileTree Name Content} (without : Without gone before after)
    (same : ∀ path, gone' path ↔ gone path) : Without gone' before after :=
  fun path => ⟨fun goes => (without path).1 ((same path).mp goes), fun stays => (without path).2 fun goes => stays ((same path).mpr goes)⟩

/-- One path more. -/
theorem Without.step {gone : List Name → Prop} {before now after : FileTree Name Content} {path : List Name} (without : Without gone before now)
    (step : Sets Option.none path now after) : Without (fun other => gone other ∨ other = path) before after := by
  intro other
  rw [step other]
  constructor
  · rintro (goes | same)
    · rw [(without other).1 goes, ite_self]
    · rw [if_pos same]
  · intro stays
    rw [not_or] at stays
    rw [if_neg stays.2, (without other).2 stays.1]

theorem removeFile_cases (path : List Name) :
    (∃ content after, tree.node path = some (.leaf content) ∧ tree.removeFile path = .ok after ∧ Sets none path tree after) ∨
      (tree.node path = none ∧ (tree.removeFile path = .error .notFound ∨ tree.removeFile path = .error .notDirectory)) ∨
      tree.node path = some .directory ∧ tree.removeFile path = .error .isDirectory := by
  unfold removeFile
  split
  · next content found => exact Or.inl ⟨content, _, found, rfl, fun other => rfl⟩
  · next found => exact Or.inr (Or.inr ⟨found, rfl⟩)
  · next found =>
    refine Or.inr (Or.inl ⟨found, ?_⟩)
    split_ifs
    · exact Or.inr rfl
    · exact Or.inl rfl

theorem removeDirectory_cases {path : List Name} (inside : path ≠ []) :
    (∃ after, tree.node path = some .directory ∧ ¬tree.Occupied path ∧ tree.removeDirectory path = .ok after ∧ Sets none path tree after) ∨
      (tree.node path = some .directory ∧ tree.Occupied path ∧ tree.removeDirectory path = .error .notEmpty) ∨
      tree.node path ≠ some .directory ∧ (tree.removeDirectory path = .error .notFound ∨ tree.removeDirectory path = .error .notDirectory) := by
  unfold removeDirectory
  split
  · next content found => exact Or.inr (Or.inr ⟨by simp [found], Or.inr rfl⟩)
  · next found =>
    rw [dif_neg inside]
    split_ifs with bare
    · exact Or.inr (Or.inl ⟨found, bare, rfl⟩)
    · exact Or.inl ⟨_, found, bare, rfl, fun other => rfl⟩
  · next found =>
    refine Or.inr (Or.inr ⟨by simp [found], ?_⟩)
    split_ifs
    · exact Or.inr rfl
    · exact Or.inl rfl

theorem makeDirectory_cases (path : List Name) :
    (∃ failure, tree.makeDirectory path = .error failure) ∨
      ∃ after, tree.node path = none ∧ tree.makeDirectory path = .ok after ∧ Sets (some .directory) path tree after := by
  unfold makeDirectory
  split
  · exact Or.inl ⟨_, rfl⟩
  · next fresh =>
    split
    · exact Or.inr ⟨_, fresh, rfl, fun other => rfl⟩
    · exact Or.inl ⟨_, rfl⟩
    · exact Or.inl ⟨_, rfl⟩

/-- A renaming fails, does nothing, or moves a subtree to a place that it may take. -/
theorem rename_cases (src dst : List Name) :
    (∃ failure, tree.rename src dst = .error failure) ∨ (src = dst ∧ (tree.node src).isSome ∧ tree.rename src dst = .ok tree) ∨
      ∃ after, src ≠ dst ∧ tree.Movable src dst ∧ ¬tree.Occupied dst ∧ (tree.node src).isSome ∧ tree.rename src dst = .ok after ∧
        after.node = tree.movedNode src dst := by
  unfold rename
  cases found : tree.lookup src with
  | error failure => exact Or.inl ⟨failure, rfl⟩
  | ok node =>
    dsimp only
    have exists_ : (tree.node src).isSome := by
      rw [lookup_eq_ok_iff] at found
      rw [found]
      rfl
    by_cases same : src = dst
    · exact Or.inr (Or.inl ⟨same, exists_, if_pos same⟩)
    rw [if_neg same]
    by_cases apart : src <+: dst
    · rw [dif_pos apart]
      exact Or.inl ⟨_, rfl⟩
    rw [dif_neg apart]
    by_cases inside : dst = []
    · rw [dif_pos inside]
      exact Or.inl ⟨_, rfl⟩
    rw [dif_neg inside]
    split
    · exact Or.inl ⟨_, rfl⟩
    · exact Or.inl ⟨_, rfl⟩
    · next parent =>
      split
      · exact Or.inl ⟨_, rfl⟩
      · exact Or.inl ⟨_, rfl⟩
      · split_ifs with occupied
        · exact Or.inl ⟨_, rfl⟩
        · exact Or.inr (Or.inr ⟨_, same, ⟨apart, inside, parent⟩, occupied, exists_, rfl, rfl⟩)

/-- Moving back what was moved to a vacant place restores the tree. -/
theorem movedNode_back {before after : FileTree Name Content} {src dst : List Name} (moved : after.node = before.movedNode src dst)
    (vacant : ∀ path, dst <+: path → before.node path = none) : after.movedNode dst src = before.node := by
  funext path
  unfold movedNode
  by_cases there : src <+: path
  · obtain ⟨rest, rfl⟩ := there
    rw [if_pos (List.prefix_append _ _), List.drop_left, moved, movedNode, if_pos (List.prefix_append _ _), List.drop_left]
  · rw [if_neg there]
    split_ifs with gone
    · exact (vacant path gone).symm
    · rw [moved, movedNode, if_neg gone, if_neg there]

end Operations

end FileTree

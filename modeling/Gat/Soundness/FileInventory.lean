import Mathlib.Algebra.GroupWithZero.Nat
import Gat.Model.FileInventory
import Gat.Proofs.CacheSweep

/-! # The inventory is exact

Between two steps of a scan the objects that are stored split into those already listed and those ahead of the scan: below a
name that an open directory has not given yet. Names that the scan skips have no stored object below them.
-/

namespace Gat

/-! ## Keys -/

theorem parseLeaf_eq_some_iff {fanout : ObjectFanout} {name : Str} {oid : Oid} :
    fanout.parseLeaf name = some oid ↔ fanout.spelled <+: name ∧ name = oid.encodeHex := by
  rw [← toStr_parseLeaf_eq_some_iff]
  constructor
  · intro parsed
    have same : name = oid.encodeHex := by
      unfold ObjectFanout.parseLeaf at parsed
      split_ifs at parsed
      exact decodeHash_eq_some_iff.mp parsed
    have valid : Utf8.Valid name := same ▸ valid_of_hexSpells (hexSpells_encodeHex oid)
    exact Option.bind_eq_some_iff.mpr ⟨name, FileName.toStr_eq_some_iff.mpr ⟨valid, rfl⟩, parsed⟩
  · intro parsed
    obtain ⟨text, isText, parsed⟩ := Option.bind_eq_some_iff.mp parsed
    obtain ⟨-, rfl⟩ := FileName.toStr_eq_some_iff.mp isText
    exact parsed

theorem toStr_parseFanoutSegment (name : FileName) : name.toStr.bind parseFanoutSegment = parseFanoutSegment name :=
  Option.ext fun _ => toStr_parseFanoutSegment_eq_some_iff.trans parseFanoutSegment_eq_some_iff.symm

theorem toStr_parseLeaf (fanout : ObjectFanout) (name : FileName) : name.toStr.bind fanout.parseLeaf = fanout.parseLeaf name :=
  Option.ext fun _ => toStr_parseLeaf_eq_some_iff.trans parseLeaf_eq_some_iff.symm

theorem fromSegments_parseLeaf_iff {l1 l2 name : Str} {oid : Oid} :
    ((ObjectFanout.fromSegments l1 l2).bind fun fanout => fanout.parseLeaf name) = some oid ↔ (l1, l2, name) = objectKey oid := by
  rw [← canonicalOid_eq_some_iff]
  simp only [canonicalOid, ObjectFanout.fromSegments, toStr_parseFanoutSegment, toStr_parseLeaf, Option.bind_eq_bind, Option.bind_assoc,
    Option.bind_some]

/-- The directories and the name of an object. -/
def objectPath (oid : Oid) : TreePath := [OBJECT_HASH_NAMESPACE, (objectKey oid).1, (objectKey oid).2.1, (objectKey oid).2.2]

/-- The key is the path of the object. -/
theorem objectKeyOid_eq (oid : Oid) : objectKeyOid oid = [Byte.slash].intercalate (objectPath oid) := by
  have whole : (oid.bytes.flatMap fun byte : UInt8 => [hexDigit (byte >>> 4), hexDigit (byte &&& 0xF)]) = oid.encodeHex := rfl
  have width := oid.encodeHex_length
  unfold objectKeyOid objectPath objectKey
  rw [whole]
  match oid.encodeHex, width with
  | first :: second :: third :: fourth :: rest, width =>
    have rest : rest.length = 60 := by simpa using width
    have namespaceBytes : OBJECT_HASH_NAMESPACE = [0x62, 0x6c, 0x61, 0x6b, 0x65, 0x33] := by decide
    simp [namespaceBytes, writeAt, rest, List.replicate_succ, List.intercalate, List.intersperse]

theorem slash_notMem_encodeHex (oid : Oid) : Byte.slash ∉ oid.encodeHex := by
  have table : Byte.slash ∉ HEX_DIGITS := by decide
  exact fun member => table ((hexSpells_encodeHex oid).mem_hexDigits _ member)

theorem objectPath_components (oid : Oid) : ∀ component ∈ objectPath oid, Byte.slash ∉ component := by
  have plain := slash_notMem_encodeHex oid
  simp only [objectPath, objectKey, List.mem_cons, List.not_mem_nil, or_false]
  rintro component (rfl | rfl | rfl | rfl)
  · decide
  · exact fun member => plain (List.mem_of_mem_take member)
  · exact fun member => plain (List.mem_of_mem_drop (List.mem_of_mem_take member))
  · exact plain

theorem objectKeyOid_splitOn (oid : Oid) : (objectKeyOid oid).splitOn Byte.slash = objectPath oid := by
  rw [objectKeyOid_eq]
  exact List.splitOn_intercalate _ (objectPath_components oid) (List.cons_ne_nil _ _)

theorem objectKeyOid_below (oid : Oid) : objectKeyOid oid = OBJECT_HASH_NAMESPACE ++ ([Byte.slash] ++ [Byte.slash].intercalate (objectPath oid).tail) := by
  rw [objectKeyOid_eq]
  rfl

theorem parseObjectKey_eq_some_iff {key : Str} {oid : Oid} : parseObjectKey key = some oid ↔ key = objectKeyOid oid := by
  unfold parseObjectKey
  rw [objectKeyOid_below]
  constructor
  · intro parsed
    obtain ⟨rest, isRest, found⟩ := Option.bind_eq_some_iff.mp parsed
    obtain ⟨below, isBelow, found⟩ := Option.bind_eq_some_iff.mp found
    rw [Str.stripPrefix_eq_some_iff.mp isRest, Str.stripPrefix_eq_some_iff.mp isBelow]
    split at found
    · next l1 l2 hex components =>
      have same : [Byte.slash].intercalate (below.splitOn Byte.slash) = below := List.intercalate_splitOn _
      have key : (objectPath oid).tail = [l1, l2, hex] := by
        rw [objectPath, ← fromSegments_parseLeaf_iff.mp found]
        rfl
      rw [key, ← components, same]
    · cases found
  · intro same
    have components : ([Byte.slash].intercalate (objectPath oid).tail).splitOn Byte.slash = (objectPath oid).tail :=
      List.splitOn_intercalate _ (fun component member => objectPath_components oid component (List.mem_of_mem_tail member)) (List.cons_ne_nil _ _)
    rw [same, Str.stripPrefix_eq_some_iff.mpr rfl, Option.bind_eq_bind, Option.bind_some, Str.stripPrefix_eq_some_iff.mpr rfl,
      Option.bind_eq_bind, Option.bind_some, components]
    exact fromSegments_parseLeaf_iff.mpr rfl

theorem objectPath_injective {one other : Oid} (same : objectPath one = objectPath other) : one = other := by
  have key : objectKeyOid one = objectKeyOid other := by rw [objectKeyOid_eq, objectKeyOid_eq, same]
  have parsed := parseObjectKey_eq_some_iff.mpr key
  rw [parseObjectKey_eq_some_iff.mpr rfl] at parsed
  exact Option.some.inj parsed

/-! ## Objects below a path -/

/-- A regular file is where the object belongs, below directories. -/
def StoredObject (tree : WorktreeTree) (oid : Oid) : Prop := ∃ bytes, tree.node (objectPath oid) = some (.leaf (.file bytes))

/-- A stored object at or below a path. -/
def Under (tree : WorktreeTree) (path : TreePath) (oid : Oid) : Prop := StoredObject tree oid ∧ path <+: objectPath oid

/-- A directory level at its place. -/
inductive LevelAt : ScanLevel → TreePath → Prop
  | top : LevelAt .objectNamespace [OBJECT_HASH_NAMESPACE]
  | first (byte : UInt8) : LevelAt (.first byte) [OBJECT_HASH_NAMESPACE, spellByte byte]
  | objects (byte second : UInt8) : LevelAt (.objects (ObjectFanout.new byte second)) [OBJECT_HASH_NAMESPACE, spellByte byte, spellByte second]

variable {tree : WorktreeTree} {path : TreePath} {name : FileName} {level : ScanLevel} {oid : Oid}

/-- Every object has two directories that spell a byte. -/
theorem objectKey_spelled (oid : Oid) : ∃ first second, (objectKey oid).1 = spellByte first ∧ (objectKey oid).2.1 = spellByte second := by
  obtain ⟨fanout, isFanout, -⟩ := Option.bind_eq_some_iff.mp (fromSegments_parseLeaf_iff.mpr (rfl : _ = objectKey oid))
  obtain ⟨first, isFirst, isFanout⟩ := Option.bind_eq_some_iff.mp isFanout
  obtain ⟨second, isSecond, -⟩ := Option.bind_eq_some_iff.mp isFanout
  exact ⟨first, second, parseFanoutSegment_eq_some_iff.mp isFirst, parseFanoutSegment_eq_some_iff.mp isSecond⟩

theorem objectPath_toStr (oid : Oid) : ∀ component ∈ objectPath oid, FileName.toStr component = some component := by
  have plain := encodeHex_ascii oid
  simp only [objectPath, objectKey, List.mem_cons, List.not_mem_nil, or_false]
  rintro component (rfl | rfl | rfl | rfl)
  · exact FileName.toStr_eq_some_iff.mpr ⟨.of_ascii (Utf8.forall_mem_of_all (by decide)), rfl⟩
  · exact FileName.toStr_eq_some_iff.mpr ⟨.of_ascii fun byte member => plain byte (List.mem_of_mem_take member), rfl⟩
  · exact FileName.toStr_eq_some_iff.mpr ⟨.of_ascii fun byte member => plain byte (List.mem_of_mem_drop (List.mem_of_mem_take member)), rfl⟩
  · exact FileName.toStr_eq_some_iff.mpr ⟨.of_ascii plain, rfl⟩

/-- The nodes on the way to a stored object. -/
theorem Under.node (under : Under tree path oid) : (tree.node path).isSome ∧ (path ≠ objectPath oid → tree.node path = some .directory) := by
  obtain ⟨⟨bytes, found⟩, above⟩ := under
  have exists_ : (tree.node (objectPath oid)).isSome := by rw [found]; rfl
  by_cases here : path = objectPath oid
  · exact ⟨here ▸ exists_, fun other => absurd here other⟩
  · have directory := tree.directory_above above here exists_
    exact ⟨by rw [directory]; rfl, fun _ => directory⟩

/-- A name above the objects that spells no byte, or names no directory, has nothing below it. -/
theorem not_under {oid : Oid} {kind : FileTree.Node WorktreeLeaf} (found : tree.node path = some kind) (short : path.length < 4)
    (skipped : kind ≠ .directory) : ¬Under tree path oid := by
  intro under
  have directory := under.node.2 (by
    rintro rfl
    exact absurd short (by simp [objectPath]))
  rw [found] at directory
  exact skipped (Option.some.inj directory)

/-- What the scan makes of an entry, in terms of the objects at or below it. -/
theorem visit_spec (here : LevelAt level path) {kind : FileTree.Node WorktreeLeaf} (found : tree.node (path ++ [name]) = some kind) :
    match level.visit kind name with
    | .skip => ∀ oid, ¬Under tree (path ++ [name]) oid
    | .descend level => LevelAt level (path ++ [name])
    | .object oid => StoredObject tree oid ∧ path ++ [name] = objectPath oid := by
  cases here with
  | top =>
    cases kind with
    | leaf content => exact fun oid => not_under found (by simp) nofun
    | directory =>
      dsimp only [ScanLevel.visit]
      cases parsed : parseFanoutSegment name with
      | some byte =>
        rw [parseFanoutSegment_eq_some_iff.mp parsed]
        exact .first byte
      | none =>
        rintro oid ⟨-, above⟩
        obtain ⟨first, second, isFirst, -⟩ := objectKey_spelled oid
        have same : name = (objectKey oid).1 := by simpa [objectPath] using above
        rw [same, parseFanoutSegment_eq_some_iff.mpr isFirst] at parsed
        cases parsed
  | first byte =>
    cases kind with
    | leaf content => exact fun oid => not_under found (by simp) nofun
    | directory =>
      dsimp only [ScanLevel.visit]
      cases parsed : parseFanoutSegment name with
      | some second =>
        rw [parseFanoutSegment_eq_some_iff.mp parsed]
        exact .objects byte second
      | none =>
        rintro oid ⟨-, above⟩
        obtain ⟨first, second, -, isSecond⟩ := objectKey_spelled oid
        have same : name = (objectKey oid).2.1 := by
          simp only [objectPath, List.cons_append, List.nil_append, List.cons_prefix_cons] at above
          exact above.2.2.1
        rw [same, parseFanoutSegment_eq_some_iff.mpr isSecond] at parsed
        cases parsed
  | objects byte second =>
    have whole (oid : Oid) (above : [OBJECT_HASH_NAMESPACE, spellByte byte, spellByte second] ++ [name] <+: objectPath oid) :
        (ObjectFanout.new byte second).parseLeaf name = some oid ∧ [OBJECT_HASH_NAMESPACE, spellByte byte, spellByte second] ++ [name] = objectPath oid := by
      have same := above.eq_of_length (by rfl)
      refine ⟨parseLeaf_eq_some_iff.mpr ?_, same⟩
      simp only [objectPath, List.cons_append, List.nil_append, List.cons.injEq, and_true] at same
      obtain ⟨-, isFirst, isSecond, isName⟩ := same
      rw [isName]
      exact ⟨fanout_prefix_iff.mpr ⟨isFirst, isSecond⟩, rfl⟩
    have plain (other : ∀ bytes, kind ≠ .leaf (.file bytes)) (oid : Oid) : ¬Under tree ([OBJECT_HASH_NAMESPACE, spellByte byte, spellByte second] ++ [name]) oid := by
      rintro ⟨⟨bytes, stored⟩, above⟩
      rw [← (whole oid above).2, found] at stored
      exact other bytes (Option.some.inj stored)
    match kind with
    | .directory => exact plain nofun
    | .leaf (.symlink target) => exact plain nofun
    | .leaf .other => exact plain nofun
    | .leaf (.file bytes) =>
      dsimp only [ScanLevel.visit]
      cases parsed : (ObjectFanout.new byte second).parseLeaf name with
      | some oid =>
        obtain ⟨below, isName⟩ := parseLeaf_eq_some_iff.mp parsed
        have place : [OBJECT_HASH_NAMESPACE, spellByte byte, spellByte second] ++ [name] = objectPath oid := by
          rw [isName] at below ⊢
          obtain ⟨isFirst, isSecond⟩ := fanout_prefix_iff.mp below
          rw [isFirst, isSecond]
          rfl
        exact ⟨⟨bytes, place ▸ found⟩, place⟩
      | none =>
        rintro oid ⟨-, above⟩
        rw [(whole oid above).1] at parsed
        cases parsed

/-! ## Objects ahead of a scan -/

/-- The open directories of a scan: every one is at its level, and the ones above have gone past the way to it. -/
inductive OpenStack : List OpenDirectory → Prop
  | nil : OpenStack []
  | cons {path : TreePath} {remaining : List FileName} {level : ScanLevel} {below : List OpenDirectory} (here : LevelAt level path)
    (nodup : remaining.Nodup) (passed : ∀ lower ∈ below, ∃ name, lower.path ++ [name] <+: path ∧ name ∉ lower.remaining) (open_ : OpenStack below) :
    OpenStack (⟨path, remaining, level⟩ :: below)

def Ahead (tree : WorktreeTree) (stack : List OpenDirectory) (oid : Oid) : Prop :=
  ∃ directory ∈ stack, ∃ name ∈ directory.remaining, Under tree (directory.path ++ [name]) oid

/-- A part of a scan lists objects: those that are no longer ahead. -/
structure ScanProgress (tree : WorktreeTree) (before after : List OpenDirectory) (listed : List Oid) : Prop where
  nodup : listed.Nodup
  split : ∀ oid, Ahead tree before oid ↔ oid ∈ listed ∨ Ahead tree after oid
  fresh : ∀ oid ∈ listed, ¬Ahead tree after oid

namespace ScanProgress

variable {before now after : List OpenDirectory} {first second : List Oid}

theorem of_iff (same : ∀ oid, Ahead tree before oid ↔ Ahead tree after oid) : ScanProgress tree before after [] where
  nodup := List.nodup_nil
  split oid := by simp [same oid]
  fresh := nofun

theorem trans (one : ScanProgress tree before now first) (two : ScanProgress tree now after second) :
    ScanProgress tree before after (first ++ second) where
  nodup := by
    refine List.nodup_append.mpr ⟨one.nodup, two.nodup, ?_⟩
    rintro oid inFirst _ inSecond rfl
    exact one.fresh oid inFirst ((two.split oid).mpr (Or.inl inSecond))
  split oid := by rw [one.split oid, two.split oid, List.mem_append, or_assoc]
  fresh oid member ahead := by
    rcases List.mem_append.mp member with inFirst | inSecond
    · exact one.fresh oid inFirst ((two.split oid).mpr (Or.inr ahead))
    · exact two.fresh oid inSecond ahead

end ScanProgress

variable {remaining : List FileName} {below : List OpenDirectory}

theorem ahead_read : Ahead tree (⟨path, name :: remaining, level⟩ :: below) oid ↔
    Under tree (path ++ [name]) oid ∨ Ahead tree (⟨path, remaining, level⟩ :: below) oid := by
  simp only [Ahead, List.mem_cons, exists_eq_or_imp, or_assoc]

/-- Opening a directory neither adds nor removes an object. -/
theorem under_iff_names (streams : DirectoryStreams tree) (short : path.length < 4) :
    Under tree path oid ↔ ∃ name ∈ streams.names path, Under tree (path ++ [name]) oid := by
  constructor
  · rintro ⟨stored, rest, whole⟩
    match rest with
    | [] =>
      rw [List.append_nil] at whole
      rw [whole] at short
      exact absurd short (by simp [objectPath])
    | name :: rest =>
      have under : Under tree (path ++ [name]) oid := ⟨stored, rest, by rw [List.append_assoc]; exact whole⟩
      exact ⟨name, (streams.mem_iff path name).mpr under.node.1, under⟩
  · rintro ⟨name, -, stored, above⟩
    exact ⟨stored, (List.prefix_append path [name]).trans above⟩

theorem LevelAt.short (here : LevelAt level path) : path.length < 4 := by
  cases here <;> simp

theorem ahead_push (streams : DirectoryStreams tree) (short : path.length < 4) :
    Ahead tree (⟨path, streams.names path, level⟩ :: below) oid ↔ Under tree path oid ∨ Ahead tree below oid := by
  rw [under_iff_names streams short]
  simp only [Ahead, List.mem_cons, exists_eq_or_imp]

namespace OpenStack

theorem pop (open_ : OpenStack (⟨path, remaining, level⟩ :: below)) : OpenStack below := by
  cases open_ with
  | cons _ _ _ open_ => exact open_

theorem level_at (open_ : OpenStack (⟨path, remaining, level⟩ :: below)) : LevelAt level path := by
  cases open_ with
  | cons here _ _ _ => exact here

theorem read (open_ : OpenStack (⟨path, name :: remaining, level⟩ :: below)) : OpenStack (⟨path, remaining, level⟩ :: below) := by
  cases open_ with
  | cons here nodup passed open_ => exact .cons here (List.nodup_cons.mp nodup).2 passed open_

/-- The directory of the entry just read is opened. -/
theorem push (open_ : OpenStack (⟨path, name :: remaining, level⟩ :: below)) (streams : DirectoryStreams tree) {deeper : ScanLevel}
    (here : LevelAt deeper (path ++ [name])) :
    OpenStack (⟨path ++ [name], streams.names (path ++ [name]), deeper⟩ :: ⟨path, remaining, level⟩ :: below) := by
  refine .cons here (streams.nodup _) ?_ open_.read
  cases open_ with
  | cons _ nodup passed _ =>
    intro lower member
    rcases List.mem_cons.mp member with rfl | member
    · exact ⟨name, List.prefix_rfl, (List.nodup_cons.mp nodup).1⟩
    · obtain ⟨other, above, past⟩ := passed lower member
      exact ⟨other, above.trans (List.prefix_append path [name]), past⟩

/-- An object below the entry just read is not ahead elsewhere. -/
theorem not_ahead (open_ : OpenStack (⟨path, name :: remaining, level⟩ :: below)) (under : Under tree (path ++ [name]) oid) :
    ¬Ahead tree (⟨path, remaining, level⟩ :: below) oid := by
  have next {way : TreePath} {one other : FileName} (first : way ++ [one] <+: objectPath oid) (second : way ++ [other] <+: objectPath oid) :
      one = other := by
    have same := (List.prefix_of_prefix_length_le first second (by simp)).eq_of_length (by simp)
    simpa using same
  rintro ⟨directory, member, other, given_, elsewhere⟩
  cases open_ with
  | cons _ nodup passed _ =>
    rcases List.mem_cons.mp member with rfl | member
    · rw [next elsewhere.2 under.2] at given_
      exact (List.nodup_cons.mp nodup).1 given_
    · obtain ⟨way, above, past⟩ := passed directory member
      rw [next elsewhere.2 ((above.trans (List.prefix_append path [name])).trans under.2)] at given_
      exact past given_

end OpenStack

/-- An entry without objects. -/
theorem ScanProgress.skip (nothing : ∀ oid, ¬Under tree (path ++ [name]) oid) :
    ScanProgress tree (⟨path, name :: remaining, level⟩ :: below) (⟨path, remaining, level⟩ :: below) [] :=
  .of_iff fun oid => by rw [ahead_read, or_iff_right (nothing oid)]

/-- A directory that may hold objects. -/
theorem ScanProgress.descend (streams : DirectoryStreams tree) {deeper : ScanLevel} (here : LevelAt deeper (path ++ [name])) :
    ScanProgress tree (⟨path, name :: remaining, level⟩ :: below)
      (⟨path ++ [name], streams.names (path ++ [name]), deeper⟩ :: ⟨path, remaining, level⟩ :: below) [] :=
  .of_iff fun oid => by rw [ahead_read, ahead_push streams here.short]

/-- An object. -/
theorem ScanProgress.object (open_ : OpenStack (⟨path, name :: remaining, level⟩ :: below)) (stored : StoredObject tree oid)
    (place : path ++ [name] = objectPath oid) :
    ScanProgress tree (⟨path, name :: remaining, level⟩ :: below) (⟨path, remaining, level⟩ :: below) [oid] where
  nodup := List.nodup_singleton oid
  split other := by
    rw [ahead_read, List.mem_singleton]
    refine or_congr_left ⟨fun under => ?_, ?_⟩
    · rw [Under, place] at under
      exact (objectPath_injective (under.2.eq_of_length rfl)).symm
    · rintro rfl
      exact ⟨stored, place ▸ List.prefix_rfl⟩
  fresh other member := by
    rw [List.mem_singleton.mp member]
    exact open_.not_ahead ⟨stored, place ▸ List.prefix_rfl⟩

/-! ## One call -/

/-- What a call has done when its loop ends without an error: it has listed objects, and the result shows them. -/
structure Listed (tree : WorktreeTree) (bound : ℕ) (before : List OpenDirectory) (objects : List Oid) (visited : ℕ) (scanned : ScanOutcome)
    (listed : List Oid) : Prop where
  progress : ScanProgress tree before scanned.stack listed
  spent : visited + listed.length ≤ scanned.visited
  result : scanned.result = .ok (some (objects ++ listed)) ∧ (scanned.visited = bound ∨ scanned.visited ≠ 0) ∨
    scanned.result = .ok none ∧ scanned.stack = [] ∧ scanned.visited = 0

/-- How a call ends. -/
structure LoopEnd (tree : WorktreeTree) (bound : ℕ) (before : List OpenDirectory) (objects : List Oid) (visited : ℕ) (scanned : ScanOutcome) : Prop where
  open_ : OpenStack scanned.stack
  within : scanned.visited ≤ bound
  outcome : (∃ listed, Listed tree bound before objects visited scanned listed) ∨ ∃ error, scanned.result = .error error

namespace LoopEnd

variable {bound visited : ℕ} {before : List OpenDirectory} {objects : List Oid} {scanned : ScanOutcome}

/-- The loop after a step that may have listed an object. -/
theorem after {now : List OpenDirectory} {first : List Oid} {visited' : ℕ} (progress : ScanProgress tree before now first)
    (spent : visited + first.length ≤ visited') (ended : LoopEnd tree bound now (objects ++ first) visited' scanned) :
    LoopEnd tree bound before objects visited scanned := by
  refine ⟨ended.open_, ended.within, ended.outcome.imp_left ?_⟩
  rintro ⟨listed, rest⟩
  refine ⟨first ++ listed, progress.trans rest.progress, ?_, ?_⟩
  · have more := rest.spent
    rw [List.length_append]
    omega
  · rw [← List.append_assoc]
    exact rest.result

theorem after_nothing {now : List OpenDirectory} {visited' : ℕ} (progress : ScanProgress tree before now []) (spent : visited ≤ visited')
    (ended : LoopEnd tree bound now objects visited' scanned) : LoopEnd tree bound before objects visited scanned :=
  .after progress spent (by rwa [List.append_nil])

end LoopEnd

/-- The loop lists what is ahead, and keeps its directories open in order. -/
theorem scanLoop_spec (streams : DirectoryStreams tree) (bound : ℕ) (faults : ScanCall → Bool) (stack : List OpenDirectory) (objects : List Oid)
    (visited : ℕ) (within : visited ≤ bound) (open_ : OpenStack stack) :
    LoopEnd tree bound stack objects visited (scanLoop streams bound faults stack objects visited within) := by
  fun_induction scanLoop streams bound faults stack objects visited within with
  | case1 objects visited within =>
    refine ⟨.nil, within, Or.inl ⟨[], .of_iff fun _ => Iff.rfl, Nat.le_refl _, ?_⟩⟩
    by_cases none : visited = 0
    · exact Or.inr ⟨by simp [none], rfl, none⟩
    · exact Or.inl ⟨by simp [none], Or.inr none⟩
  | case2 objects directory below within =>
    exact ⟨open_, within, Or.inl ⟨[], .of_iff fun _ => Iff.rfl, Nat.le_refl _, Or.inl ⟨by simp, Or.inl rfl⟩⟩⟩
  | case3 objects visited within directory below => exact ⟨open_, within, Or.inr ⟨_, rfl⟩⟩
  | case4 objects visited within directory below _ _ done ih =>
    obtain ⟨path, remaining, level⟩ := directory
    obtain rfl : remaining = [] := done
    exact .after_nothing (.of_iff fun oid => by simp [Ahead]) (Nat.le_refl _) (ih open_.pop)
  | case5 objects visited within directory below _ _ name remaining rest stack noText ih =>
    obtain ⟨path, _, level⟩ := directory
    cases rest
    refine .after_nothing (.skip fun oid under => ?_) (Nat.le_succ _) (ih open_.read)
    have text := objectPath_toStr oid name (under.2.subset (by simp))
    rw [noText] at text
    cases text
  | case6 objects visited within directory below full _ name remaining rest path stack text isText _ =>
    obtain ⟨_, _, level⟩ := directory
    cases rest
    exact ⟨open_.read, Nat.lt_of_le_of_ne within full, Or.inr ⟨_, rfl⟩⟩
  | case7 objects visited within directory below _ _ name remaining rest path stack text isText _ missing ih =>
    obtain ⟨_, _, level⟩ := directory
    cases rest
    refine .after_nothing (.skip fun oid under => ?_) (Nat.le_succ _) (ih open_.read)
    have exists_ := under.node.1
    rw [missing] at exists_
    cases exists_
  | case8 objects visited within directory below _ _ name remaining rest path stack text isText _ kind found skipped ih =>
    obtain ⟨_, _, level⟩ := directory
    cases rest
    obtain ⟨-, rfl⟩ := FileName.toStr_eq_some_iff.mp isText
    have spec := visit_spec open_.level_at found
    rw [skipped] at spec
    exact .after_nothing (.skip spec) (Nat.le_succ _) (ih open_.read)
  | case9 objects visited within directory below _ _ name remaining rest path stack text isText _ kind found oid visits ih =>
    obtain ⟨_, _, level⟩ := directory
    cases rest
    obtain ⟨-, rfl⟩ := FileName.toStr_eq_some_iff.mp isText
    have spec := visit_spec open_.level_at found
    rw [visits] at spec
    exact .after (.object open_ spec.1 spec.2) (Nat.le_refl _) (ih open_.read)
  | case10 objects visited within directory below full _ name remaining rest path stack text isText _ kind found deeper descends _ =>
    obtain ⟨_, _, level⟩ := directory
    cases rest
    exact ⟨open_.read, Nat.lt_of_le_of_ne within full, Or.inr ⟨_, rfl⟩⟩
  | case11 objects visited within directory below _ _ name remaining rest path stack text isText _ kind found deeper descends _ ih =>
    obtain ⟨_, _, level⟩ := directory
    cases rest
    obtain ⟨-, rfl⟩ := FileName.toStr_eq_some_iff.mp isText
    have spec := visit_spec open_.level_at found
    rw [descends] at spec
    exact .after_nothing (.descend streams spec) (Nat.le_succ _) (ih (open_.push streams spec))

/-! ## Runs of calls -/

/-- The objects that a scan has still to list. -/
def ScanState.Ahead (tree : WorktreeTree) : ScanState → Oid → Prop
  | .pending => StoredObject tree
  | .active stack => Gat.Ahead tree stack

def ScanState.Open : ScanState → Prop
  | .pending => True
  | .active stack => OpenStack stack

theorem activate_spec (streams : DirectoryStreams tree) {faults : ScanCall → Bool} {scan : ScanState} {stack : List OpenDirectory} (open_ : scan.Open)
    (activated : activate streams faults scan = .ok stack) : OpenStack stack ∧ ∀ oid, scan.Ahead tree oid ↔ Ahead tree stack oid := by
  cases scan with
  | active stack =>
    cases activated
    exact ⟨open_, fun _ => Iff.rfl⟩
  | pending =>
    have whole (oid : Oid) : Under tree [OBJECT_HASH_NAMESPACE] oid ↔ StoredObject tree oid := and_iff_left (by simp [objectPath])
    change readNamespace streams faults = .ok stack at activated
    unfold readNamespace at activated
    by_cases fault : faults .inspectNamespace
    · rw [if_pos fault] at activated
      cases activated
    rw [if_neg fault] at activated
    split at activated
    · next missing =>
      cases activated
      refine ⟨.nil, fun oid => iff_of_false (fun stored => ?_) nofun⟩
      have exists_ := ((whole oid).mpr stored).node.1
      rw [missing] at exists_
      cases exists_
    · cases activated
    · split_ifs at activated
      cases activated
      refine ⟨.cons .top (streams.nodup _) nofun .nil, fun oid => ?_⟩
      rw [ahead_push streams (by simp), whole oid, or_iff_left]
      · rfl
      · rintro ⟨directory, member, -⟩
        cases member

/-- One call: what is listed was ahead, and what is ahead stays so. -/
theorem nextBatch_spec (streams : DirectoryStreams tree) (bound : ℕ) (faults : ScanCall → Bool) {scan : ScanState} (open_ : scan.Open) :
    (nextBatch streams bound faults scan).1.1.Open ∧ (nextBatch streams bound faults scan).1.2 ≤ bound ∧
      match nextBatch streams bound faults scan with
      | ((after, visited), .ok (some batch)) => (visited = bound ∨ visited ≠ 0) ∧ batch.Nodup ∧
          (∀ oid, scan.Ahead tree oid ↔ oid ∈ batch ∨ after.Ahead tree oid) ∧ ∀ oid ∈ batch, ¬after.Ahead tree oid
      | ((after, _), .ok none) => after = .active [] ∧ ∀ oid, ¬scan.Ahead tree oid
      | (_, .error _) => True := by
  unfold nextBatch
  cases activated : activate streams faults scan with
  | error error => exact ⟨open_, Nat.zero_le bound, trivial⟩
  | ok stack =>
    obtain ⟨open_, same⟩ := activate_spec streams open_ activated
    have ended := scanLoop_spec streams bound faults stack [] 0 (Nat.zero_le bound) open_
    dsimp only
    generalize scanLoop streams bound faults stack [] 0 (Nat.zero_le bound) = scanned at ended
    obtain ⟨after, visited, result⟩ := scanned
    refine ⟨ended.open_, ended.within, ?_⟩
    rcases ended.outcome with ⟨listed, progress, spent, ⟨done, effort⟩ | ⟨done, empty, idle⟩⟩ | ⟨error, failed⟩
    · obtain rfl : result = .ok (some listed) := done
      exact ⟨effort, progress.nodup, fun oid => by rw [same oid, progress.split oid]; rfl, progress.fresh⟩
    · obtain rfl : result = .ok none := done
      obtain rfl : after = [] := empty
      obtain rfl : visited = 0 := idle
      refine ⟨rfl, fun oid ahead => ?_⟩
      have nothing : listed = [] := List.length_eq_zero_iff.mp (by have few : 0 + listed.length ≤ 0 := spent; omega)
      rw [same oid, progress.split oid, nothing] at ahead
      rcases ahead with member | ⟨directory, member, -⟩
      · cases member
      · cases member
    · obtain rfl : result = .error error := failed
      trivial

/-- Calls that all succeed until one returns `None`, with what they list. -/
inductive Drains (streams : DirectoryStreams tree) (bound : ℕ) : ScanState → List (List Oid) → Prop
  | done {scan after : ScanState} {faults : ScanCall → Bool} {visited : ℕ} (call : nextBatch streams bound faults scan = ((after, visited), .ok none)) :
    Drains streams bound scan []
  | more {scan after : ScanState} {faults : ScanCall → Bool} {visited : ℕ} {batch : List Oid} {batches : List (List Oid)}
    (call : nextBatch streams bound faults scan = ((after, visited), .ok (some batch))) (drains : Drains streams bound after batches) :
    Drains streams bound scan (batch :: batches)

/-- The states of a scan after any calls, failed ones included. -/
inductive ReachedScan (streams : DirectoryStreams tree) (bound : ℕ) : ScanState → Prop
  | start : ReachedScan streams bound .pending
  | call {scan : ScanState} (reached : ReachedScan streams bound scan) (faults : ScanCall → Bool) :
    ReachedScan streams bound (nextBatch streams bound faults scan).1.1

theorem Drains.exact (streams : DirectoryStreams tree) {bound : ℕ} {scan : ScanState} {batches : List (List Oid)} (drains : Drains streams bound scan batches)
    (open_ : scan.Open) : batches.flatten.Nodup ∧ ∀ oid, oid ∈ batches.flatten ↔ scan.Ahead tree oid := by
  induction drains with
  | @done scan after faults visited call =>
    have spec := nextBatch_spec streams bound faults open_
    rw [call] at spec
    exact ⟨List.nodup_nil, fun oid => iff_of_false nofun (spec.2.2.2 oid)⟩
  | @more scan after faults visited batch batches call drains ih =>
    have spec := nextBatch_spec streams bound faults open_
    rw [call] at spec
    obtain ⟨open_, -, -, nodup, split, fresh⟩ := spec
    obtain ⟨later, all⟩ := ih open_
    rw [List.flatten_cons]
    refine ⟨List.nodup_append.mpr ⟨nodup, later, ?_⟩, fun oid => ?_⟩
    · rintro oid listed _ again rfl
      exact fresh oid listed ((all oid).mp again)
    · rw [List.mem_append, all oid, split oid]

theorem ReachedScan.open_ (streams : DirectoryStreams tree) {bound : ℕ} {scan : ScanState} (reached : ReachedScan streams bound scan) : scan.Open := by
  induction reached with
  | start => trivial
  | call reached faults ih => exact (nextBatch_spec streams bound faults ih).1

/-- An exhausted scan stays so. -/
theorem nextBatch_exhausted (streams : DirectoryStreams tree) (bound : ℕ) (faults : ScanCall → Bool) :
    nextBatch streams bound faults (.active []) = ((.active [], 0), .ok none) := by
  rw [nextBatch, activate]
  dsimp only
  rw [scanLoop, if_neg (by simp)]

/-- The batches of a scan that runs to its end list every stored object once and nothing else. No call visits more entries than its
bound, and one that returns a batch has visited some; a namespace that cannot be opened is opened again by the next call; after the
end every call says so. Keys and objects correspond. -/
theorem file_inventory_exact (streams : DirectoryStreams tree) (bound : ℕ) (positive : 0 < bound) :
    (∀ batches, Drains streams bound .pending batches →
      batches.flatten.Nodup ∧
        ∀ oid, oid ∈ batches.flatten ↔ ∃ bytes, tree.node ((objectKeyOid oid).splitOn Byte.slash) = some (.leaf (.file bytes))) ∧
    (∀ scan, ReachedScan streams bound scan → ∀ faults,
      match nextBatch streams bound faults scan with
      | ((_, visited), .ok (some _)) => 0 < visited ∧ visited ≤ bound
      | ((after, visited), .ok none) => visited ≤ bound ∧ ∀ later, nextBatch streams bound later after = ((after, 0), .ok none)
      | ((_, visited), .error _) => visited ≤ bound) ∧
    (∀ faults error, activate streams faults .pending = .error error → nextBatch streams bound faults .pending = ((.pending, 0), .error error)) ∧
    ∀ key oid, parseObjectKey key = some oid ↔ key = objectKeyOid oid := by
  refine ⟨fun batches drains => ?_, fun scan reached faults => ?_, fun faults error failed => ?_, fun key oid => parseObjectKey_eq_some_iff⟩
  · obtain ⟨nodup, all⟩ := drains.exact streams trivial
    refine ⟨nodup, fun oid => ?_⟩
    rw [all oid, objectKeyOid_splitOn]
    rfl
  · obtain ⟨-, within, spec⟩ := nextBatch_spec streams bound faults (reached.open_ streams)
    generalize nextBatch streams bound faults scan = called at within spec ⊢
    obtain ⟨⟨after, visited⟩, error | batch | none⟩ := called
    · exact within
    · obtain ⟨rfl, -⟩ := spec
      exact ⟨within, fun later => nextBatch_exhausted streams bound later⟩
    · refine ⟨?_, within⟩
      rcases spec.1 with full | some
      · rw [full]
        exact positive
      · exact Nat.pos_of_ne_zero some
  · rw [nextBatch, failed]

/-! ## A scan comes to its end -/

/-- How deep the directories below one of a level are read. -/
def ScanLevel.height : ScanLevel → ℕ
  | .objectNamespace => 2
  | .first _ => 1
  | .objects _ => 0

/-- The entries of a directory that are left with all that is below them, down to a height. -/
def entriesLeft (streams : DirectoryStreams tree) : ℕ → TreePath → List FileName → ℕ
  | 0, _, names => names.length
  | height + 1, path, names => (names.map fun name => entriesLeft streams height (path ++ [name]) (streams.names (path ++ [name])) + 1).sum

/-- The entries that a stack has still to visit. -/
def stackLeft (streams : DirectoryStreams tree) (stack : List OpenDirectory) : ℕ :=
  (stack.map fun directory => entriesLeft streams directory.level.height directory.path directory.remaining).sum

/-- Reading an entry leaves one less, also when it is not descended into. -/
theorem entriesLeft_lt (streams : DirectoryStreams tree) (height : ℕ) (path : TreePath) (name : FileName) (names : List FileName) :
    entriesLeft streams height path names < entriesLeft streams height path (name :: names) := by
  cases height with
  | zero => exact Nat.lt_succ_self _
  | succ height =>
    rw [entriesLeft, entriesLeft, List.map_cons, List.sum_cons]
    omega

/-- A directory that is descended into is one of the entries. -/
theorem height_of_descend {level deeper : ScanLevel} {kind : FileTree.Node WorktreeLeaf} {name : Str}
    (descends : level.visit kind name = .descend deeper) : level.height = deeper.height + 1 := by
  unfold ScanLevel.visit at descends
  split at descends <;> first | cases descends | (split at descends <;> cases descends <;> rfl)

/-- A loop without errors gives a result, and every entry it visits is one less to visit. -/
theorem scanLoop_left (streams : DirectoryStreams tree) {bound : ℕ} {faults : ScanCall → Bool} (quiet : ∀ call, faults call = false)
    (stack : List OpenDirectory) (objects : List Oid) (visited : ℕ) (within : visited ≤ bound) :
    stackLeft streams (scanLoop streams bound faults stack objects visited within).stack +
        (scanLoop streams bound faults stack objects visited within).visited ≤ stackLeft streams stack + visited ∧
      ∃ listed, (scanLoop streams bound faults stack objects visited within).result = .ok listed := by
  have read {path : TreePath} {name : FileName} {names : List FileName} {level : ScanLevel} {below after : List OpenDirectory} {visited total : ℕ}
      (rest : stackLeft streams after + total ≤ stackLeft streams (⟨path, names, level⟩ :: below) + (visited + 1)) :
      stackLeft streams after + total ≤ stackLeft streams (⟨path, name :: names, level⟩ :: below) + visited := by
    have less := entriesLeft_lt streams level.height path name names
    simp only [stackLeft, List.map_cons, List.sum_cons] at rest ⊢
    omega
  fun_induction scanLoop streams bound faults stack objects visited within with
  | case1 => exact ⟨le_rfl, _, rfl⟩
  | case2 => exact ⟨le_rfl, _, rfl⟩
  | case3 objects visited within directory below _ fault => cases (quiet _).symm.trans fault
  | case4 objects visited within directory below _ _ done ih =>
    refine ⟨ih.1.trans ?_, ih.2⟩
    simp only [stackLeft, List.map_cons, List.sum_cons]
    omega
  | case5 objects visited within directory below _ _ name remaining rest stack noText ih =>
    obtain ⟨path, _, level⟩ := directory
    cases rest
    exact ⟨read ih.1, ih.2⟩
  | case6 objects visited within directory below full _ name remaining rest path stack text isText fault => cases (quiet _).symm.trans fault
  | case7 objects visited within directory below _ _ name remaining rest path stack text isText _ missing ih =>
    obtain ⟨_, _, level⟩ := directory
    cases rest
    exact ⟨read ih.1, ih.2⟩
  | case8 objects visited within directory below _ _ name remaining rest path stack text isText _ kind found skipped ih =>
    obtain ⟨_, _, level⟩ := directory
    cases rest
    exact ⟨read ih.1, ih.2⟩
  | case9 objects visited within directory below _ _ name remaining rest path stack text isText _ kind found oid visits ih =>
    obtain ⟨_, _, level⟩ := directory
    cases rest
    exact ⟨read ih.1, ih.2⟩
  | case10 objects visited within directory below full _ name remaining rest path stack text isText _ kind found deeper descends fault =>
    cases (quiet _).symm.trans fault
  | case11 objects visited within directory below _ _ name remaining rest path stack text isText _ kind found deeper descends _ ih =>
    obtain ⟨_, _, level⟩ := directory
    cases rest
    refine ⟨ih.1.trans ?_, ih.2⟩
    simp only [path, stack, stackLeft, List.map_cons, List.sum_cons, height_of_descend descends, entriesLeft]
    omega

/-- A scan that can be read on comes to its end when no call fails. -/
theorem Drains.of_activated (streams : DirectoryStreams tree) {bound : ℕ} (positive : 0 < bound) {scan : ScanState} (open_ : scan.Open)
    {stack : List OpenDirectory} (activated : activate streams (fun _ => false) scan = .ok stack) : ∃ batches, Drains streams bound scan batches := by
  induction left : stackLeft streams stack using Nat.strong_induction_on generalizing scan stack with
  | _ left_ ih =>
    obtain ⟨fewer, listed, result⟩ := scanLoop_left streams (fun _ => rfl) stack [] 0 (Nat.zero_le bound)
    have spec := nextBatch_spec streams bound (fun _ => false) open_
    have call : nextBatch streams bound (fun _ => false) scan =
        ((.active (scanLoop streams bound (fun _ => false) stack [] 0 (Nat.zero_le bound)).stack,
          (scanLoop streams bound (fun _ => false) stack [] 0 (Nat.zero_le bound)).visited), .ok listed) := by
      rw [nextBatch, activated, ← result]
    rw [call] at spec
    obtain ⟨opened, -, spec⟩ := spec
    cases listed with
    | none => exact ⟨[], .done call⟩
    | some batch =>
      have some_ : 0 < (scanLoop streams bound (fun _ => false) stack [] 0 (Nat.zero_le bound)).visited := by
        rcases spec.1 with full | some_
        · rw [full]
          exact positive
        · exact Nat.pos_of_ne_zero some_
      obtain ⟨batches, drains⟩ := ih _ (by omega) opened rfl rfl
      exact ⟨batch :: batches, .more call drains⟩

/-- Calls without errors come to the end of a namespace that is a directory or missing. -/
theorem Drains.exists_of_faultless (streams : DirectoryStreams tree) {bound : ℕ} (positive : 0 < bound)
    (noLeaf : ∀ leaf, tree.node [OBJECT_HASH_NAMESPACE] ≠ some (.leaf leaf)) : ∃ batches, Drains streams bound .pending batches := by
  have activated : ∃ stack, activate streams (fun _ => false) .pending = .ok stack := by
    change ∃ stack, readNamespace streams (fun _ => false) = .ok stack
    unfold readNamespace
    cases found : tree.node [OBJECT_HASH_NAMESPACE] with
    | none => exact ⟨_, rfl⟩
    | some kind =>
      cases kind with
      | directory => exact ⟨_, rfl⟩
      | leaf leaf => exact absurd found (noLeaf leaf)
  obtain ⟨stack, activated⟩ := activated
  exact Drains.of_activated streams positive trivial activated

/-! ## A namespace with stray names -/

section Listed

variable {entries : List (TreePath × FileTree.Node WorktreeLeaf)}

theorem listedName_eq_some_iff {path place : TreePath} {name : FileName} :
    (if place.dropLast = path then place.getLast? else none) = some name ↔ place = path ++ [name] := by
  constructor
  · intro found
    split_ifs at found with parent
    obtain ⟨above, rfl⟩ := List.getLast?_eq_some_iff.mp found
    rw [List.dropLast_concat] at parent
    rw [parent]
  · rintro rfl
    rw [List.dropLast_concat, if_pos rfl, List.getLast?_concat]

/-- Reading yields the names in the order of the list. -/
def DirectoryStreams.ofEntries (distinct : (entries.map Prod.fst).Nodup) (root : FileTree.entryAt entries [] = some .directory)
    (above : ∀ entry ∈ entries, entry.1 ≠ [] → FileTree.entryAt entries entry.1.dropLast = some .directory) :
    DirectoryStreams (FileTree.ofEntries entries root above) where
  names path := (entries.map Prod.fst).filterMap fun place => if place.dropLast = path then place.getLast? else none
  nodup path := by
    refine distinct.filterMap fun place other name found again => ?_
    rw [listedName_eq_some_iff.mp found, listedName_eq_some_iff.mp again]
  mem_iff path name := by
    change _ ↔ (FileTree.entryAt entries (path ++ [name])).isSome
    rw [FileTree.isSome_entryAt, ← List.mem_map, List.mem_filterMap]
    simp only [listedName_eq_some_iff, exists_eq_right]

end Listed

namespace StrayNames

/-- The object lies beside a link under the name of another object, and there are a file and a directory with names of their own. -/
def entries : List (TreePath × FileTree.Node WorktreeLeaf) :=
  [([], .directory), ([OBJECT_HASH_NAMESPACE], .directory), ([OBJECT_HASH_NAMESPACE, ascii "README"], .leaf (.file [])),
    ([OBJECT_HASH_NAMESPACE, ascii "00"], .directory), ([OBJECT_HASH_NAMESPACE, ascii "00", ascii "tmp"], .directory),
    ([OBJECT_HASH_NAMESPACE, ascii "00", ascii "00"], .directory),
    ([OBJECT_HASH_NAMESPACE, ascii "00", ascii "00", List.replicate 62 0x30 ++ ascii "01"], .leaf (.symlink [])),
    (objectPath (.filled 0), .leaf (.file []))]

theorem distinct : (entries.map Prod.fst).Nodup := by decide +kernel

theorem root : FileTree.entryAt entries [] = some .directory := rfl

theorem above : ∀ entry ∈ entries, entry.1 ≠ [] → FileTree.entryAt entries entry.1.dropLast = some .directory := by decide +kernel

def streams : DirectoryStreams (FileTree.ofEntries entries root above) := .ofEntries distinct root above

end StrayNames

open StrayNames in
/-- One entry a call, the scan comes to its end with the one object. -/
theorem file_inventory_exact_strays : ∃ batches, Drains streams 1 .pending batches ∧ batches.flatten = [.filled 0] := by
  obtain ⟨batches, drains⟩ := Drains.exists_of_faultless streams Nat.one_pos fun leaf found => by cases found
  obtain ⟨nodup, lists⟩ := (file_inventory_exact streams 1 Nat.one_pos).1 batches drains
  refine ⟨batches, drains, List.perm_singleton.mp ((List.perm_ext_iff_of_nodup nodup (List.nodup_singleton _)).mpr fun oid => ?_)⟩
  rw [lists oid, objectKeyOid_splitOn, List.mem_singleton]
  constructor
  · rintro ⟨bytes, found⟩
    have only : ∀ entry ∈ entries, entry.1.length = 4 → entry.2 = .leaf (.symlink []) ∨ entry.1 = objectPath (.filled 0) := by decide +kernel
    obtain ⟨entry, first, isFile⟩ := Option.map_eq_some_iff.mp found
    have place : entry.1 = objectPath oid := by simpa using List.find?_some first
    rcases only entry (List.mem_of_find?_eq_some first) (by rw [place]; rfl) with link | same
    · cases link.symm.trans isFile
    · exact objectPath_injective (place.symm.trans same)
  · rintro rfl
    exact ⟨[], by decide +kernel⟩

end Gat

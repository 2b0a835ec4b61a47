import Gat.Model.CacheSweep
import Gat.Proofs.LockCodec

/-! # What a sweep unlinks

The canonical names are exactly the keys of objects, so that every object has one place in the cache. Every level of the
sweep spares what is not to be deleted, wherever it stops, and a sweep that runs to its end has deleted all of the rest.
-/

namespace Gat

/-! ## Canonical names -/

/-- The object that a place in the cache is canonical for. -/
def canonicalOid (key : FileName × FileName × FileName) : Option Oid := do
  let first ← key.1.toStr.bind parseFanoutSegment
  let second ← key.2.1.toStr.bind parseFanoutSegment
  key.2.2.toStr.bind (ObjectFanout.new first second).parseLeaf

theorem FileName.toStr_eq_some_iff {name text : Str} : FileName.toStr name = some text ↔ Utf8.Valid name ∧ name = text := by
  unfold FileName.toStr
  split_ifs with valid <;> simp [valid]

theorem parseFanoutSegment_eq_some_iff {segment : Str} {byte : UInt8} : parseFanoutSegment segment = some byte ↔ segment = spellByte byte := by
  match segment with
  | [high, low] => exact nibbles_eq_some_iff
  | [] | [_] | _ :: _ :: _ :: _ => exact iff_of_false nofun nofun

theorem toStr_parseFanoutSegment_eq_some_iff {name : FileName} {byte : UInt8} :
    name.toStr.bind parseFanoutSegment = some byte ↔ name = spellByte byte := by
  rw [Option.bind_eq_some_iff]
  constructor
  · rintro ⟨text, isText, parsed⟩
    obtain ⟨-, rfl⟩ := FileName.toStr_eq_some_iff.mp isText
    exact parseFanoutSegment_eq_some_iff.mp parsed
  · rintro rfl
    exact ⟨_, FileName.toStr_eq_some_iff.mpr ⟨valid_of_hexSpells (hexSpells_spellByte byte), rfl⟩, parseFanoutSegment_eq_some_iff.mpr rfl⟩

theorem toStr_parseLeaf_eq_some_iff {fanout : ObjectFanout} {name : FileName} {oid : Oid} :
    name.toStr.bind fanout.parseLeaf = some oid ↔ fanout.spelled <+: name ∧ name = oid.encodeHex := by
  rw [Option.bind_eq_some_iff]
  constructor
  · rintro ⟨text, isText, parsed⟩
    obtain ⟨-, rfl⟩ := FileName.toStr_eq_some_iff.mp isText
    unfold ObjectFanout.parseLeaf at parsed
    split_ifs at parsed with width below
    exact ⟨below, decodeHash_eq_some_iff.mp parsed⟩
  · rintro ⟨below, rfl⟩
    refine ⟨_, FileName.toStr_eq_some_iff.mpr ⟨valid_of_hexSpells (hexSpells_encodeHex oid), rfl⟩, ?_⟩
    unfold ObjectFanout.parseLeaf
    rw [dif_pos oid.encodeHex_length, if_pos below]
    exact decodeHash_eq_some_iff.mpr rfl

/-- The first two bytes of an object id. -/
theorem Oid.exists_bytes (oid : Oid) : ∃ first second rest, oid.bytes = first :: second :: rest := by
  match shape : oid.bytes, oid.width with
  | first :: second :: rest, _ => exact ⟨first, second, rest, rfl⟩
  | [_], width => simp at width
  | [], width => simp at width

theorem fanout_prefix_iff {oid : Oid} {first second : UInt8} :
    (ObjectFanout.new first second).spelled <+: oid.encodeHex ↔
      spellByte first = oid.encodeHex.take 2 ∧ spellByte second = (oid.encodeHex.drop 2).take 2 := by
  obtain ⟨byte, other, rest, shape⟩ := oid.exists_bytes
  have spelled : oid.encodeHex = spellByte byte ++ (spellByte other ++ rest.flatMap spellByte) := by
    rw [Oid.encodeHex, shape]
    rfl
  have fanout : (ObjectFanout.new first second).spelled = spellByte first ++ spellByte second := rfl
  rw [fanout, spelled]
  simp [spellByte, and_assoc]

/-- Every object has one canonical place. -/
theorem canonicalOid_eq_some_iff {key : FileName × FileName × FileName} {oid : Oid} : canonicalOid key = some oid ↔ key = objectKey oid := by
  obtain ⟨l1, l2, name⟩ := key
  unfold canonicalOid objectKey
  constructor
  · intro canonical
    obtain ⟨first, isFirst, canonical⟩ := Option.bind_eq_some_iff.mp canonical
    obtain ⟨second, isSecond, isLeaf⟩ := Option.bind_eq_some_iff.mp canonical
    obtain ⟨below, rfl⟩ := toStr_parseLeaf_eq_some_iff.mp isLeaf
    obtain ⟨here, there⟩ := fanout_prefix_iff.mp below
    obtain rfl := toStr_parseFanoutSegment_eq_some_iff.mp isFirst
    obtain rfl := toStr_parseFanoutSegment_eq_some_iff.mp isSecond
    rw [here, there]
  · intro same
    cases same
    obtain ⟨byte, other, rest, shape⟩ := oid.exists_bytes
    have spelled : oid.encodeHex = spellByte byte ++ (spellByte other ++ rest.flatMap spellByte) := by
      rw [Oid.encodeHex, shape]
      rfl
    have first : oid.encodeHex.take 2 = spellByte byte := by rw [spelled]; rfl
    have second : (oid.encodeHex.drop 2).take 2 = spellByte other := by rw [spelled]; rfl
    refine Option.bind_eq_some_iff.mpr ⟨byte, toStr_parseFanoutSegment_eq_some_iff.mpr first, ?_⟩
    refine Option.bind_eq_some_iff.mpr ⟨other, toStr_parseFanoutSegment_eq_some_iff.mpr second, ?_⟩
    exact toStr_parseLeaf_eq_some_iff.mpr ⟨fanout_prefix_iff.mpr ⟨first.symm, second.symm⟩, rfl⟩

theorem objectKey_injective : Function.Injective objectKey := fun _ _ same =>
  Option.some.inj ((canonicalOid_eq_some_iff.mpr rfl).symm.trans (canonicalOid_eq_some_iff.mpr same))

/-! ## The files of a cache -/

/-- Two directories and a name. -/
abbrev CachePlace := FileName × FileName × FileName

def CacheNode.below {α : Type} : CacheNode α → CacheDirectory α
  | other => []
  | directory entries => entries

def fanoutFiles (l1 : FileName) (entry : FileName × CacheNode CacheLeaf) : List (CachePlace × CacheLeaf) :=
  entry.2.below.flatMap fun leaf => [((l1, entry.1, leaf.1), leaf.2)]

def entryFiles (entry : FileName × CacheNode (CacheNode CacheLeaf)) : List (CachePlace × CacheLeaf) :=
  entry.2.below.flatMap (fanoutFiles entry.1)

/-- Everything three levels below the namespace. -/
def cacheFiles (cache : Option CacheNamespace) : List (CachePlace × CacheLeaf) := (cache.getD []).flatMap entryFiles

/-! ## What every level spares -/

section Spares

variable {β σ : Type}

/-- What is not doomed stays, wherever the sweep stops, and nothing comes. A sweep that ends has settled everything and
left exactly what is not doomed. -/
structure Spares (doomed : β → Bool) (settled : β → Prop) (before after : List β) (status : Except σ Unit) : Prop where
  retained : (before.filter fun item => !doomed item).Sublist after
  shrunk : after.Sublist before
  complete : status = .ok () → (∀ item ∈ before, settled item) ∧ after = before.filter fun item => !doomed item

namespace Spares

variable {doomed : β → Bool} {settled : β → Prop} {before after before' after' : List β} {status : Except σ Unit} {error : σ}

theorem stopped (items : List β) : Spares doomed settled items items (Except.error error) :=
  ⟨List.filter_sublist, List.Sublist.refl items, nofun⟩

theorem untouched {items : List β} (each : ∀ item ∈ items, doomed item = false ∧ settled item) : Spares doomed settled items items status := by
  have whole : (items.filter fun item => !doomed item) = items := by
    refine List.filter_eq_self.mpr fun item member => ?_
    rw [(each item member).1]
    rfl
  exact ⟨List.filter_sublist, List.Sublist.refl items, fun _ => ⟨fun item member => (each item member).2, whole.symm⟩⟩

theorem removed {item : β} (isDoomed : doomed item = true) (isSettled : settled item) : Spares doomed settled [item] [] status where
  retained := by simp [isDoomed]
  shrunk := List.nil_sublist _
  complete _ := ⟨by simpa using isSettled, by simp [isDoomed]⟩

theorem of_status {σ' : Type} {status' : Except σ' Unit} (spares : Spares doomed settled before after status)
    (ended : status' = .ok () → status = .ok ()) : Spares doomed settled before after status' :=
  ⟨spares.retained, spares.shrunk, fun done => spares.complete (ended done)⟩

theorem append (first : Spares doomed settled before after (Except.ok () : Except σ Unit)) (second : Spares doomed settled before' after' status) :
    Spares doomed settled (before ++ before') (after ++ after') status where
  retained := by
    rw [List.filter_append]
    exact first.retained.append second.retained
  shrunk := first.shrunk.append second.shrunk
  complete ended := by
    obtain ⟨settledFirst, rfl⟩ := first.complete rfl
    obtain ⟨settledSecond, rfl⟩ := second.complete ended
    refine ⟨fun item member => ?_, (List.filter_append ..).symm⟩
    exact (List.mem_append.mp member).elim (settledFirst item) (settledSecond item)

theorem append_of_failed (first : Spares doomed settled before after (Except.error error)) (second : Spares doomed settled before' after' status) :
    Spares doomed settled (before ++ before') (after ++ after') (Except.error error) where
  retained := by
    rw [List.filter_append]
    exact first.retained.append second.retained
  shrunk := first.shrunk.append second.shrunk
  complete := nofun

end Spares

/-- A loop spares what each of its steps spares. -/
theorem sweepEntries_spares {ε α : Type} {doomed : β → Bool} {settled : β → Prop} (files : FileName × α → List β)
    {visit : FileName × α → Swept ε α} (entries : CacheDirectory α)
    (each : ∀ entry ∈ entries, Spares doomed settled (files entry) ((visit entry).entries.flatMap files) (visit entry).status) :
    Spares doomed settled (entries.flatMap files) ((sweepEntries visit entries).entries.flatMap files) (sweepEntries visit entries).status := by
  induction entries with
  | nil => exact .untouched nofun
  | cons entry entries ih =>
    rw [List.forall_mem_cons] at each
    have first := each.1
    rw [sweepEntries, List.flatMap_cons]
    dsimp only
    rcases status : (visit entry).status with error | ⟨⟩
    · rw [status] at first
      dsimp only [Swept.failed]
      rw [List.flatMap_append]
      have rest : Spares doomed settled (entries.flatMap files) (entries.flatMap files) (Except.error error) := .stopped _
      exact first.append_of_failed rest
    · rw [status] at first
      dsimp only
      rw [List.flatMap_append]
      exact first.append (ih each.2)

end Spares

section Levels

variable {ε : Type}

/-- What the decisions give up. -/
def doomed (dryRun : Bool) (decide : Oid → Except ε CacheSweepDecision) (file : CachePlace × CacheLeaf) : Bool :=
  !dryRun && (canonicalOid file.1).any fun oid =>
    match decide oid with
    | .ok .delete => true
    | _ => false

/-- A canonical name has been decided on. -/
def Decided (decide : Oid → Except ε CacheSweepDecision) (file : CachePlace × CacheLeaf) : Prop :=
  ∀ oid, canonicalOid file.1 = some oid → ∃ decision, decide oid = .ok decision

variable {faults : SweepFaults} {dryRun : Bool} {decide : Oid → Except ε CacheSweepDecision}

theorem canonicalOid_leaf {l1 l2 name : FileName} {first second : UInt8} (isFirst : l1.toStr.bind parseFanoutSegment = some first)
    (isSecond : l2.toStr.bind parseFanoutSegment = some second) :
    canonicalOid (l1, l2, name) = name.toStr.bind (ObjectFanout.new first second).parseLeaf := by
  unfold canonicalOid
  dsimp only
  rw [isFirst, isSecond]
  rfl

theorem sweepLeaf_spares {l1 l2 : FileName} {first second : UInt8} (isFirst : l1.toStr.bind parseFanoutSegment = some first)
    (isSecond : l2.toStr.bind parseFanoutSegment = some second) (entry : FileName × CacheLeaf) :
    Spares (doomed dryRun decide) (Decided decide) [((l1, l2, entry.1), entry.2)]
      ((sweepLeaf faults dryRun decide (ObjectFanout.new first second) entry).entries.flatMap fun leaf => [((l1, l2, leaf.1), leaf.2)])
      (sweepLeaf faults dryRun decide (ObjectFanout.new first second) entry).status := by
  have canonical : canonicalOid (l1, l2, entry.1) = _ := canonicalOid_leaf isFirst isSecond
  unfold sweepLeaf
  cases named : entry.1.toStr.bind (ObjectFanout.new first second).parseLeaf with
  | none =>
    rw [named] at canonical
    refine .untouched (List.forall_mem_singleton.mpr ⟨by simp [doomed, canonical], fun oid isOid => ?_⟩)
    rw [canonical] at isOid
    cases isOid
  | some oid =>
    rw [named] at canonical
    have settled : ∀ {decision}, decide oid = .ok decision → Decided decide ((l1, l2, entry.1), entry.2) := by
      intro decision decided other isOther
      rw [canonical] at isOther
      cases isOther
      exact ⟨decision, decided⟩
    dsimp only
    cases decided : decide oid with
    | error error => exact .stopped _
    | ok decision =>
      cases decision with
      | keep => exact .untouched (List.forall_mem_singleton.mpr ⟨by simp [doomed, canonical, decided], settled decided⟩)
      | uncertain => exact .untouched (List.forall_mem_singleton.mpr ⟨by simp [doomed, canonical, decided], settled decided⟩)
      | delete =>
        dsimp only
        split_ifs with dry
        · exact .untouched (List.forall_mem_singleton.mpr ⟨by simp [doomed, dry], settled decided⟩)
        · have gone : doomed dryRun decide ((l1, l2, entry.1), entry.2) = true := by
            simpa [doomed, canonical, decided] using dry
          unfold sweepRemove
          split_ifs
          · exact .stopped _
          · exact .stopped _
          · exact .removed gone (settled decided)
          · exact .removed gone (settled decided)

/-- A directory spares what the loop over its entries spares. -/
theorem sweepDirectory_spares {α β : Type} {doomed : β → Bool} {settled : β → Prop} {path : List FileName}
    {visit : FileName × α → Swept ε α} (files : FileName → FileName × α → List β) (entry : FileName × CacheNode α)
    (each : ∀ inner, Spares doomed settled (files entry.1 inner) ((visit inner).entries.flatMap (files entry.1)) (visit inner).status) :
    Spares doomed settled (entry.2.below.flatMap (files entry.1))
      ((sweepDirectory faults dryRun path visit entry).entries.flatMap fun entry => entry.2.below.flatMap (files entry.1))
      (sweepDirectory faults dryRun path visit entry).status := by
  obtain ⟨name, node⟩ := entry
  have whole : ∀ node : CacheNode α, ([(name, node)].flatMap fun entry : FileName × CacheNode α => entry.2.below.flatMap (files entry.1)) =
      node.below.flatMap (files name) := fun node => by simp
  unfold sweepDirectory
  by_cases noStat : faults.stat path
  · rw [if_pos noStat, Swept.failed, whole]
    exact .stopped _
  rw [if_neg noStat]
  cases node with
  | other => exact .untouched nofun
  | directory entries =>
    dsimp only
    by_cases noRead : faults.read path
    · rw [if_pos noRead, Swept.failed, whole]
      exact .stopped _
    rw [if_neg noRead]
    have loop : Spares _ _ _ _ (sweepEntries visit entries).status := sweepEntries_spares (files name) entries fun inner _ => each inner
    cases status : (sweepEntries visit entries).status with
    | error error =>
      rw [status] at loop
      dsimp only [Swept.failed]
      rw [whole]
      exact loop
    | ok _ =>
      rw [status] at loop
      dsimp only
      unfold removeDirIfEmpty
      split_ifs with dry kept tolerated failing
      · dsimp only [Swept.left]
        rw [whole]
        exact loop
      · dsimp only [Swept.left]
        rw [whole]
        exact loop
      · dsimp only [Swept.left]
        rw [whole]
        exact loop
      · dsimp only [Swept.failed]
        rw [whole]
        exact loop.of_status nofun
      · rw [not_not.mp tolerated] at loop
        exact loop

theorem not_doomed_of_noncanonical {file : CachePlace × CacheLeaf} (noncanonical : canonicalOid file.1 = none) :
    doomed dryRun decide file = false ∧ Decided decide file := by
  refine ⟨by simp [doomed, noncanonical], fun oid isOid => ?_⟩
  rw [noncanonical] at isOid
  cases isOid

theorem sweepFanout_spares {l1 : FileName} {first : UInt8} (isFirst : l1.toStr.bind parseFanoutSegment = some first)
    (entry : FileName × CacheNode CacheLeaf) :
    Spares (doomed dryRun decide) (Decided decide) (fanoutFiles l1 entry)
      ((sweepFanout faults dryRun decide l1 first entry).entries.flatMap (fanoutFiles l1)) (sweepFanout faults dryRun decide l1 first entry).status := by
  unfold sweepFanout
  cases named : entry.1.toStr.bind parseFanoutSegment with
  | none =>
    dsimp only [Swept.left]
    rw [List.flatMap_singleton]
    refine .untouched fun file member => not_doomed_of_noncanonical ?_
    obtain ⟨leaf, -, same⟩ := List.mem_flatMap.mp member
    obtain rfl := List.mem_singleton.mp same
    unfold canonicalOid
    dsimp only
    rw [isFirst, named]
    rfl
  | some second =>
    exact sweepDirectory_spares (fun l2 leaf => [((l1, l2, leaf.1), leaf.2)]) entry fun leaf => sweepLeaf_spares isFirst named leaf

theorem sweepEntry_spares (entry : FileName × CacheNode (CacheNode CacheLeaf)) :
    Spares (doomed dryRun decide) (Decided decide) (entryFiles entry) ((sweepEntry faults dryRun decide entry).entries.flatMap entryFiles)
      (sweepEntry faults dryRun decide entry).status := by
  unfold sweepEntry
  cases named : entry.1.toStr.bind parseFanoutSegment with
  | none =>
    dsimp only [Swept.left]
    rw [List.flatMap_singleton]
    refine .untouched fun file member => not_doomed_of_noncanonical ?_
    obtain ⟨inner, -, listed⟩ := List.mem_flatMap.mp member
    obtain ⟨leaf, -, same⟩ := List.mem_flatMap.mp listed
    obtain rfl := List.mem_singleton.mp same
    unfold canonicalOid
    dsimp only
    rw [named]
    rfl
  | some first => exact sweepDirectory_spares fanoutFiles entry fun inner => sweepFanout_spares named inner

theorem sweepResult_ok {α : Type} {flushed : Except CacheEnumerationError Unit} {stats total : CacheSweepStats} {parts : List (Swept ε α)}
    (ended : sweepResult flushed stats parts = .ok total) : (forM parts Swept.status : Except (SweepError ε) Unit) = .ok () := by
  induction parts generalizing stats with
  | nil => rfl
  | cons part parts ih =>
    rw [List.forM_cons]
    unfold sweepResult at ended
    cases status : part.status with
    | error error =>
      rw [status] at ended
      cases ended
    | ok _ =>
      rw [status] at ended
      exact ih ended

/-- Every part runs to its own end, also beside one that fails. -/
theorem sweepParts_spares (entries : CacheNamespace) :
    Spares (doomed dryRun decide) (Decided decide) (entries.flatMap entryFiles)
      (((entries.map (sweepEntry faults dryRun decide)).flatMap Swept.entries).flatMap entryFiles)
      (forM (entries.map (sweepEntry faults dryRun decide)) Swept.status : Except (SweepError ε) Unit) := by
  induction entries with
  | nil => exact .untouched nofun
  | cons entry entries ih =>
    have first : Spares _ _ _ _ (sweepEntry faults dryRun decide entry).status := sweepEntry_spares entry
    rw [List.map_cons, List.flatMap_cons, List.flatMap_cons, List.flatMap_append, List.forM_cons]
    cases status : (sweepEntry faults dryRun decide entry).status with
    | error error =>
      rw [status] at first
      exact first.append_of_failed ih
    | ok _ =>
      rw [status] at first
      exact first.append ih

variable (faults dryRun decide) in
/-- The whole sweep. -/
theorem sweepObjects_spares (cache : Option CacheNamespace) :
    Spares (doomed dryRun decide) (Decided decide) (cacheFiles cache) (cacheFiles (sweepObjects faults dryRun decide cache).1)
      ((sweepObjects faults dryRun decide cache).2.map fun _ => ()) := by
  unfold sweepObjects
  cases cache with
  | none => exact .untouched nofun
  | some entries =>
    dsimp only
    by_cases unreadable : faults.readNamespace
    · rw [if_pos unreadable]
      exact .stopped _
    rw [if_neg unreadable]
    dsimp only [cacheFiles, Option.getD_some]
    generalize (if faults.flush then Except.error CacheEnumerationError.proof else .ok () : Except CacheEnumerationError Unit) = flushed
    refine (sweepParts_spares entries).of_status fun ended => ?_
    cases result : sweepResult flushed .zero (entries.map (sweepEntry faults dryRun decide)) with
    | error error =>
      rw [result] at ended
      cases ended
    | ok total => exact sweepResult_ok result

/-- A dry run leaves every file. -/
theorem sweepObjects_dryRun (cache : Option CacheNamespace) : cacheFiles (sweepObjects faults true decide cache).1 = cacheFiles cache := by
  have spares := sweepObjects_spares faults true decide cache
  have retained := spares.retained
  rw [List.filter_eq_self.mpr fun file _ => (rfl : (!doomed true decide file) = true)] at retained
  exact List.Sublist.antisymm spares.shrunk retained

/-! ## What is no directory -/

/-- Something at an upper level that is no directory. -/
def HasOther (cache : Option CacheNamespace) : List FileName → Prop
  | [l1] => (l1, CacheNode.other) ∈ cache.getD []
  | [l1, l2] => ∃ inner, (l1, CacheNode.directory inner) ∈ cache.getD [] ∧ (l2, CacheNode.other) ∈ inner
  | _ => False

/-- An entry is visited, or is left alone because the loop has stopped before it. -/
theorem mem_sweepEntries {α : Type} {visit : FileName × α → Swept ε α} {entries : CacheDirectory α} {entry : FileName × α}
    (member : entry ∈ entries) :
    entry ∈ (sweepEntries visit entries).entries ∨ ∀ kept ∈ (visit entry).entries, kept ∈ (sweepEntries visit entries).entries := by
  induction entries with
  | nil => cases member
  | cons head rest ih =>
    rw [sweepEntries]
    dsimp only
    rcases List.mem_cons.mp member with rfl | later
    · right
      intro kept isKept
      cases (visit entry).status <;> exact List.mem_append_left _ isKept
    · cases (visit head).status with
      | error error => exact Or.inl (List.mem_append_right _ later)
      | ok _ =>
        refine (ih later).imp (List.mem_append_right _) fun stays kept isKept => ?_
        exact List.mem_append_right _ (stays kept isKept)

theorem sweepDirectory_other {α : Type} {path : List FileName} {visit : FileName × α → Swept ε α} {name : FileName} :
    (name, CacheNode.other) ∈ (sweepDirectory faults dryRun path visit (name, .other)).entries := by
  unfold sweepDirectory
  split_ifs <;> exact List.mem_singleton_self _

theorem sweepFanout_other {l1 l2 : FileName} {first : UInt8} :
    (l2, CacheNode.other) ∈ (sweepFanout faults dryRun decide l1 first (l2, .other)).entries := by
  unfold sweepFanout
  cases (l2, CacheNode.other).1.toStr.bind parseFanoutSegment with
  | none => exact List.mem_singleton_self _
  | some second => exact sweepDirectory_other

/-- A directory with something that stays in it stays. -/
theorem sweepDirectory_retains {α : Type} {path : List FileName} {visit : FileName × α → Swept ε α} {name : FileName}
    {entries : CacheDirectory α} {entry : FileName × α} (member : entry ∈ entries) (stays : entry ∈ (visit entry).entries) :
    ∃ inner, (name, CacheNode.directory inner) ∈ (sweepDirectory faults dryRun path visit (name, .directory entries)).entries ∧ entry ∈ inner := by
  have here : entry ∈ (sweepEntries visit entries).entries := (mem_sweepEntries member).elim id fun all => all entry stays
  have filled : (sweepEntries visit entries).entries ≠ [] := List.ne_nil_of_mem here
  unfold sweepDirectory
  by_cases noStat : faults.stat path
  · rw [if_pos noStat]
    exact ⟨entries, List.mem_singleton_self _, member⟩
  rw [if_neg noStat]
  dsimp only
  by_cases noRead : faults.read path
  · rw [if_pos noRead]
    exact ⟨entries, List.mem_singleton_self _, member⟩
  rw [if_neg noRead]
  refine ⟨(sweepEntries visit entries).entries, ?_, here⟩
  cases (sweepEntries visit entries).status with
  | error error => exact List.mem_singleton_self _
  | ok _ =>
    dsimp only
    unfold removeDirIfEmpty
    split_ifs <;> exact List.mem_singleton_self _

/-- What is no directory has no place above the objects, and stays. -/
theorem sweepObjects_hasOther {cache : Option CacheNamespace} {path : List FileName} (other : HasOther cache path) :
    HasOther (sweepObjects faults dryRun decide cache).1 path := by
  unfold sweepObjects
  cases cache with
  | none => exact other
  | some entries =>
    dsimp only
    by_cases unreadable : faults.readNamespace
    · rw [if_pos unreadable]
      exact other
    rw [if_neg unreadable]
    dsimp only
    match path, other with
    | [l1], listed =>
      refine List.mem_flatMap.mpr ⟨_, List.mem_map_of_mem listed, ?_⟩
      unfold sweepEntry
      cases (l1, CacheNode.other).1.toStr.bind parseFanoutSegment with
      | none => exact List.mem_singleton_self _
      | some first => exact sweepDirectory_other
    | [l1, l2], ⟨inner, listed, isOther⟩ =>
      obtain ⟨after, retained, there⟩ :
          ∃ after, (l1, CacheNode.directory after) ∈ (sweepEntry faults dryRun decide (l1, .directory inner)).entries ∧ (l2, .other) ∈ after := by
        unfold sweepEntry
        cases (l1, CacheNode.directory inner).1.toStr.bind parseFanoutSegment with
        | none => exact ⟨inner, List.mem_singleton_self _, isOther⟩
        | some first => exact sweepDirectory_retains isOther sweepFanout_other
      exact ⟨after, List.mem_flatMap.mpr ⟨_, List.mem_map_of_mem listed, retained⟩, there⟩

/-! ## A dry run counts what a sweep deletes -/

/-- A sweep that ends has counted what is gone, and the dry run beside it ends with the same counts. -/
structure Tallies {α β : Type} (files : FileName × α → List β) (before : List β) (real dry : Swept ε α) : Prop where
  counted : real.status = .ok () → before.length = (real.entries.flatMap files).length + real.stats.deleted
  forecast : real.status = .ok () → dry.status = .ok () ∧ dry.stats = real.stats

theorem sweepEntries_tallies {α β : Type} {files : FileName × α → List β} {real dry : FileName × α → Swept ε α} (entries : CacheDirectory α)
    (each : ∀ entry ∈ entries, Tallies files (files entry) (real entry) (dry entry)) :
    Tallies files (entries.flatMap files) (sweepEntries real entries) (sweepEntries dry entries) := by
  induction entries with
  | nil => exact ⟨fun _ => rfl, fun _ => ⟨rfl, rfl⟩⟩
  | cons entry entries ih =>
    rw [List.forall_mem_cons] at each
    have first := each.1
    have rest := ih each.2
    rw [sweepEntries, sweepEntries]
    dsimp only
    cases status : (real entry).status with
    | error error => exact ⟨nofun, nofun⟩
    | ok _ =>
      obtain ⟨ended, same⟩ := first.forecast status
      rw [ended]
      refine ⟨fun done => ?_, fun done => ⟨(rest.forecast done).1, ?_⟩⟩
      · have here := first.counted status
        have later := rest.counted done
        simp only [List.flatMap_cons, List.flatMap_append, List.length_append, CacheSweepStats.add]
        omega
      · rw [same, (rest.forecast done).2]

theorem sweepLeaf_tallies (fanout : ObjectFanout) (l1 l2 : FileName) (entry : FileName × CacheLeaf) :
    Tallies (fun leaf : FileName × CacheLeaf => [((l1, l2, leaf.1), leaf.2)]) [((l1, l2, entry.1), entry.2)]
      (sweepLeaf faults false decide fanout entry) (sweepLeaf faults true decide fanout entry) := by
  unfold sweepLeaf
  cases entry.1.toStr.bind fanout.parseLeaf with
  | none => exact ⟨fun _ => rfl, fun _ => ⟨rfl, rfl⟩⟩
  | some oid =>
    dsimp only
    cases decide oid with
    | error error => exact ⟨nofun, nofun⟩
    | ok decision =>
      cases decision with
      | keep => exact ⟨fun _ => rfl, fun _ => ⟨rfl, rfl⟩⟩
      | uncertain => exact ⟨fun _ => rfl, fun _ => ⟨rfl, rfl⟩⟩
      | delete =>
        dsimp only
        rw [if_neg Bool.false_ne_true, if_pos rfl]
        unfold sweepRemove
        split_ifs
        · exact ⟨nofun, nofun⟩
        · exact ⟨nofun, nofun⟩
        · exact ⟨nofun, nofun⟩
        · exact ⟨fun _ => rfl, fun _ => ⟨rfl, rfl⟩⟩

theorem sweepDirectory_tallies {α β : Type} {path : List FileName} {real dry : FileName × α → Swept ε α}
    (files : FileName → FileName × α → List β) (entry : FileName × CacheNode α)
    (each : ∀ inner, Tallies (files entry.1) (files entry.1 inner) (real inner) (dry inner)) :
    Tallies (fun entry : FileName × CacheNode α => entry.2.below.flatMap (files entry.1)) (entry.2.below.flatMap (files entry.1))
      (sweepDirectory faults false path real entry) (sweepDirectory faults true path dry entry) := by
  obtain ⟨name, node⟩ := entry
  unfold sweepDirectory
  by_cases noStat : faults.stat path
  · rw [if_pos noStat]
    exact ⟨nofun, nofun⟩
  rw [if_neg noStat, if_neg noStat]
  cases node with
  | other => exact ⟨fun _ => rfl, fun _ => ⟨rfl, rfl⟩⟩
  | directory entries =>
    dsimp only
    by_cases noRead : faults.read path
    · rw [if_pos noRead]
      exact ⟨nofun, nofun⟩
    rw [if_neg noRead, if_neg noRead]
    have loop := sweepEntries_tallies entries fun inner _ => each inner
    cases status : (sweepEntries real entries).status with
    | error error => exact ⟨nofun, nofun⟩
    | ok _ =>
      have counted := loop.counted status
      obtain ⟨ended, same⟩ := loop.forecast status
      rw [ended]
      dsimp only
      rw [if_neg Bool.false_ne_true, if_pos rfl]
      unfold removeDirIfEmpty
      split_ifs with kept tolerated failing
      · exact ⟨fun _ => by simpa [CacheNode.below, Swept.left] using counted, fun _ => ⟨rfl, same⟩⟩
      · exact ⟨fun _ => by simpa [CacheNode.below, Swept.left] using counted, fun _ => ⟨rfl, same⟩⟩
      · exact ⟨nofun, nofun⟩
      · rw [not_not.mp tolerated] at counted
        exact ⟨fun _ => counted, fun _ => ⟨rfl, same⟩⟩

theorem sweepFanout_tallies (l1 : FileName) (first : UInt8) (entry : FileName × CacheNode CacheLeaf) :
    Tallies (fanoutFiles l1) (fanoutFiles l1 entry) (sweepFanout faults false decide l1 first entry)
      (sweepFanout faults true decide l1 first entry) := by
  unfold sweepFanout
  cases entry.1.toStr.bind parseFanoutSegment with
  | none => exact ⟨fun _ => by simp [Swept.left, CacheSweepStats.zero], fun _ => ⟨rfl, rfl⟩⟩
  | some second => exact sweepDirectory_tallies (fun l2 leaf => [((l1, l2, leaf.1), leaf.2)]) entry fun leaf => sweepLeaf_tallies _ _ _ leaf

variable (faults decide) in
theorem sweepEntry_tallies (entry : FileName × CacheNode (CacheNode CacheLeaf)) :
    Tallies entryFiles (entryFiles entry) (sweepEntry faults false decide entry) (sweepEntry faults true decide entry) := by
  unfold sweepEntry
  cases entry.1.toStr.bind parseFanoutSegment with
  | none => exact ⟨fun _ => by simp [Swept.left, CacheSweepStats.zero], fun _ => ⟨rfl, rfl⟩⟩
  | some first => exact sweepDirectory_tallies fanoutFiles entry fun inner => sweepFanout_tallies _ _ inner

/-- A dry run reports the counts of the sweep, and the sweep has counted the files that are gone. -/
theorem sweepObjects_tallies {cache : Option CacheNamespace} {stats : CacheSweepStats}
    (done : (sweepObjects faults false decide cache).2 = .ok stats) :
    (cacheFiles cache).length = (cacheFiles (sweepObjects faults false decide cache).1).length + stats.deleted ∧
      (sweepObjects faults true decide cache).2 = .ok stats := by
  cases cache with
  | none =>
    unfold sweepObjects at done ⊢
    dsimp only at done ⊢
    split_ifs at done with unreadable
    cases done
    rw [if_neg unreadable]
    exact ⟨rfl, rfl⟩
  | some entries =>
    unfold sweepObjects at done ⊢
    dsimp only at done ⊢
    by_cases unreadable : faults.readNamespace
    · rw [if_pos unreadable] at done
      cases done
    rw [if_neg unreadable] at done ⊢
    rw [if_neg unreadable]
    dsimp only [cacheFiles, Option.getD_some] at done ⊢
    generalize (if faults.flush then Except.error CacheEnumerationError.proof else .ok () : Except CacheEnumerationError Unit) = flushed at done ⊢
    have parts : ∀ start, sweepResult flushed start (entries.map (sweepEntry faults false decide)) = .ok stats →
        start.deleted + (entries.flatMap entryFiles).length =
            (((entries.map (sweepEntry faults false decide)).flatMap Swept.entries).flatMap entryFiles).length + stats.deleted ∧
          sweepResult flushed start (entries.map (sweepEntry faults true decide)) = .ok stats := by
      clear done
      induction entries with
      | nil =>
        intro start done
        rw [List.map_nil] at done
        rw [List.map_nil, List.map_nil]
        refine ⟨?_, done⟩
        rcases flushed with error | _
        · cases done
        · cases done
          simp
      | cons entry entries ih =>
        intro start done
        have first : Tallies _ _ _ _ := sweepEntry_tallies faults decide entry
        rw [List.map_cons, sweepResult] at done
        cases status : (sweepEntry faults false decide entry).status with
        | error error =>
          rw [status] at done
          cases done
        | ok _ =>
          rw [status] at done
          obtain ⟨ended, same⟩ := first.forecast status
          obtain ⟨counted, later⟩ := ih _ done
          have here := first.counted status
          rw [List.map_cons, List.map_cons, sweepResult, ended, same]
          refine ⟨?_, later⟩
          simp only [List.flatMap_cons, List.flatMap_append, List.length_append, CacheSweepStats.add] at counted ⊢
          omega
    obtain ⟨counted, forecast⟩ := parts .zero done
    exact ⟨by simpa [CacheSweepStats.zero] using counted, forecast⟩

/-! ## A sweep without faults -/

theorem sweepEntries_ok {α : Type} {visit : FileName × α → Swept ε α} {entries : CacheDirectory α}
    (each : ∀ entry ∈ entries, (visit entry).status = .ok ()) : (sweepEntries visit entries).status = .ok () := by
  induction entries with
  | nil => rfl
  | cons entry entries ih =>
    rw [List.forall_mem_cons] at each
    rw [sweepEntries]
    dsimp only
    rw [each.1]
    exact ih each.2

theorem sweepDirectory_ok {α : Type} {path : List FileName} {visit : FileName × α → Swept ε α} {entry : FileName × CacheNode α}
    (each : ∀ inner ∈ entry.2.below, (visit inner).status = .ok ()) : (sweepDirectory .none dryRun path visit entry).status = .ok () := by
  obtain ⟨name, node⟩ := entry
  unfold sweepDirectory
  cases node with
  | other => rfl
  | directory entries =>
    have loop := sweepEntries_ok each
    have noStat : ¬SweepFaults.none.stat path = true := Bool.false_ne_true
    have noRead : ¬SweepFaults.none.read path = true := Bool.false_ne_true
    rw [if_neg noStat]
    dsimp only [CacheNode.below] at loop ⊢
    rw [if_neg noRead, loop]
    dsimp only
    unfold removeDirIfEmpty
    split_ifs with dry kept tolerated failing
    · rfl
    · rfl
    · rfl
    · cases failing
    · rfl

theorem sweepRemove_ok {entry : FileName × CacheLeaf} {oid : Oid} (notDirectory : entry.2 ≠ .directory) :
    (sweepRemove .none entry oid : Swept ε CacheLeaf).status = .ok () := by
  have prepared : ¬SweepFaults.none.prepare oid = true := Bool.false_ne_true
  have unlinked : ¬(SweepFaults.none.unlink oid = true ∨ entry.2 = .directory) := fun either => either.elim Bool.false_ne_true notDirectory
  have recorded : ¬SweepFaults.none.record oid = true := Bool.false_ne_true
  rw [sweepRemove, if_neg prepared, if_neg unlinked, if_neg recorded]
  rfl

/-- Nothing in the cache keeps a sweep from its end: every canonical name is decided on and can be unlinked. -/
theorem sweepObjects_ok {cache : Option CacheNamespace}
    (each : ∀ file ∈ cacheFiles cache, ∀ oid, canonicalOid file.1 = some oid → (∃ decision, decide oid = .ok decision) ∧ file.2 ≠ .directory) :
    ∃ stats, (sweepObjects .none dryRun decide cache).2 = .ok stats := by
  cases cache with
  | none => exact ⟨.zero, rfl⟩
  | some entries =>
    have parts : ∀ entry ∈ entries, (sweepEntry .none dryRun decide entry).status = .ok () := by
      intro entry member
      unfold sweepEntry
      cases isFirst : entry.1.toStr.bind parseFanoutSegment with
      | none => rfl
      | some first =>
        refine sweepDirectory_ok fun inner isInner => ?_
        unfold sweepFanout
        cases isSecond : inner.1.toStr.bind parseFanoutSegment with
        | none => rfl
        | some second =>
          refine sweepDirectory_ok fun leaf isLeaf => ?_
          have listed : ((entry.1, inner.1, leaf.1), leaf.2) ∈ cacheFiles (some entries) :=
            List.mem_flatMap.mpr ⟨entry, member, List.mem_flatMap.mpr ⟨inner, isInner,
              List.mem_flatMap.mpr ⟨leaf, isLeaf, List.mem_singleton_self _⟩⟩⟩
          unfold sweepLeaf
          cases named : leaf.1.toStr.bind (ObjectFanout.new first second).parseLeaf with
          | none => rfl
          | some oid =>
            obtain ⟨⟨decision, decided⟩, notDirectory⟩ :=
              each _ listed oid ((canonicalOid_leaf isFirst isSecond).trans named)
            dsimp only
            rw [decided]
            cases decision with
            | keep => rfl
            | uncertain => rfl
            | delete =>
              dsimp only
              split_ifs
              · rfl
              · exact sweepRemove_ok notDirectory
    have total : ∀ stats, ∃ total, sweepResult (.ok ()) stats (entries.map (sweepEntry .none dryRun decide)) = .ok total := by
      induction entries with
      | nil => exact fun stats => ⟨stats, rfl⟩
      | cons entry entries ih =>
        intro stats
        rw [List.forall_mem_cons] at parts
        rw [List.map_cons, sweepResult, parts.1]
        refine ih (fun file member => each file ?_) parts.2 _
        exact List.mem_append_right _ member
    exact total .zero

end Levels

end Gat

import Gat.Model.ExcludeSync
import Gat.Soundness.ExcludeBody

/-! # One operation on the exclude file

An operation that returns derives its mutation from a reading of a file that stood there, and replaces that file or
leaves it. An install shows the body in the first pair of the file, unless the terminator that it puts behind the text of
the user completes a pair in that text.
-/

open List

namespace Gat

open ManagedBlock

/-! ## Framed inputs -/

theorem length_toLeBytes (value : ℕ) : (toLeBytes value).length = 8 := by simp [toLeBytes]

theorem toLeBytes_inj {first second : ℕ} (small : first < 2 ^ 64) (small' : second < 2 ^ 64) (same : toLeBytes first = toLeBytes second) :
    first = second := by
  have digit (place : ℕ) (inside : place < 8) : first / 256 ^ place % 256 = second / 256 ^ place % 256 := by
    have bytes := congrArg (fun list => list[place]?) same
    simp only [toLeBytes, getElem?_map, getElem?_range inside, Option.map_some, Option.some.injEq] at bytes
    simpa using congrArg UInt8.toNat bytes
  have d0 := digit 0 (by decide)
  have d1 := digit 1 (by decide)
  have d2 := digit 2 (by decide)
  have d3 := digit 3 (by decide)
  have d4 := digit 4 (by decide)
  have d5 := digit 5 (by decide)
  have d6 := digit 6 (by decide)
  have d7 := digit 7 (by decide)
  norm_num at d0 d1 d2 d3 d4 d5 d6 d7
  omega

/-- Texts of the address space. -/
def Addressable (patterns : List GitIgnorePattern) : Prop := ∀ pattern ∈ patterns, pattern.text.length < 2 ^ 63

theorem GitIgnorePattern.ext_text {first second : GitIgnorePattern} (same : first.text = second.text) : first = second := by
  cases first
  cases second
  cases same
  rfl

theorem frames_inj {first second : List GitIgnorePattern} (small : Addressable first) (small' : Addressable second)
    (same : (first.flatMap fun pattern => toLeBytes pattern.text.length ++ pattern.text) =
      second.flatMap fun pattern => toLeBytes pattern.text.length ++ pattern.text) : first = second := by
  induction first generalizing second with
  | nil =>
    cases second with
    | nil => rfl
    | cons pattern second =>
      have lengths := congrArg length same
      simp [length_toLeBytes] at lengths
      omega
  | cons pattern first ih =>
    cases second with
    | nil =>
      have lengths := congrArg length same
      simp [length_toLeBytes] at lengths
    | cons pattern' second =>
      rw [flatMap_cons, flatMap_cons, append_assoc, append_assoc] at same
      obtain ⟨frames, same⟩ := append_inj same ((length_toLeBytes _).trans (length_toLeBytes _).symm)
      have bound := small pattern mem_cons_self
      have bound' := small' pattern' mem_cons_self
      have lengths := toLeBytes_inj (bound.trans (by decide)) (bound'.trans (by decide)) frames
      obtain ⟨texts, same⟩ := append_inj same lengths
      rw [GitIgnorePattern.ext_text texts, ih (fun _ member => small _ (mem_cons_of_mem _ member)) (fun _ member => small' _ (mem_cons_of_mem _ member)) same]

/-- The input of a fingerprint determines the desired identity and the patterns. -/
theorem fingerprintInput_inj {desired desired' : List.Vector UInt8 32} {patterns patterns' : List GitIgnorePattern} (small : Addressable patterns)
    (small' : Addressable patterns') (same : fingerprintInput desired patterns = fingerprintInput desired' patterns') :
    desired = desired' ∧ patterns = patterns' := by
  unfold fingerprintInput at same
  rw [append_assoc, append_assoc] at same
  obtain ⟨identities, frames⟩ := append_inj (append_cancel_left same) (desired.toList_length.trans desired'.toList_length.symm)
  exact ⟨List.Vector.eq _ _ identities, frames_inj small small' frames⟩

/-! ## Readings -/

/-- The files that stand at the path while an operation runs. -/
inductive Stands (race : ℕ → InfoExcludeLeaf → InfoExcludeLeaf) : ℕ → InfoExcludeLeaf → InfoExcludeLeaf → Prop
  | here (remaining : ℕ) (leaf : InfoExcludeLeaf) : Stands race remaining leaf leaf
  | raced {remaining : ℕ} {leaf after : InfoExcludeLeaf} (later : Stands race remaining (race remaining leaf) after) :
    Stands race (remaining + 1) leaf after

/-- What an operation that returns did to the file that it read last. -/
inductive Mutated (fs : ExcludeFs) (dryRun : Bool) (seen : InfoExcludeLeaf) : InfoExcludeMutation → InfoExcludeLeaf → InfoExcludeUpdate → Prop
  | unchanged : Mutated fs dryRun seen .unchanged seen ⟨false, none⟩
  | dry (mutation : InfoExcludeMutation) (isDry : dryRun = true) : Mutated fs dryRun seen mutation seen ⟨true, none⟩
  | replaced {contents : Str} {stat : StatProof} (written : fs.written = some stat) :
    Mutated fs dryRun seen (.replace contents) (.regular contents stat) ⟨true, some stat⟩
  | removed : Mutated fs dryRun seen .remove .missing ⟨true, none⟩

/-- The text of the attempt that goes through to the replacement. -/
def replacedText (fs : ExcludeFs) (derive' : Str → Outcome InfoExcludeError InfoExcludeMutation) : ℕ → InfoExcludeLeaf → Option Str
  | 0, _ => none
  | remaining + 1, leaf =>
    match acquire leaf with
    | .error _ => none
    | .ok source =>
      match derive' source.contents with
      | .error _ => none
      | .ok mutation =>
        if mutation = .unchanged then none
        else if source.isCurrent (fs.race remaining leaf) then fs.written.map fun _ => source.contents
        else replacedText fs derive' remaining (fs.race remaining leaf)

section Mutate

variable {fs : ExcludeFs} {dryRun : Bool} {derive' : Str → Outcome InfoExcludeError InfoExcludeMutation}

theorem isCurrent_of_acquire {leaf : InfoExcludeLeaf} {source : ExcludeSource} (read : acquire leaf = .ok source) : source.isCurrent leaf = true := by
  cases leaf with
  | missing =>
    cases read
    rfl
  | regular contents stat =>
    cases read
    exact decide_eq_true rfl
  | unreadable stat => cases read
  | special => cases read

/-- An attempt that changes text replaces it unless another program was faster. -/
theorem replacedText_succ {remaining : ℕ} {leaf : InfoExcludeLeaf} {source : ExcludeSource} {mutation : InfoExcludeMutation}
    (read : acquire leaf = .ok source) (derived : derive' source.contents = .ok mutation) (changes : mutation ≠ .unchanged) :
    replacedText fs derive' (remaining + 1) leaf =
      if source.isCurrent (fs.race remaining leaf) then fs.written.map fun _ => source.contents
      else replacedText fs derive' remaining (fs.race remaining leaf) := by
  rw [replacedText, read]
  dsimp only
  rw [derived]
  exact if_neg changes

/-- An operation that returns derives what it did from a file that stood there and still stands when it is replaced. -/
theorem mutateFrom_ok {remaining : ℕ} {leaf after : InfoExcludeLeaf} {update : InfoExcludeUpdate}
    (done : mutateFrom fs dryRun derive' remaining leaf = (after, .ok update)) :
    ∃ seen current source mutation, Stands fs.race remaining leaf seen ∧ Stands fs.race remaining leaf current ∧ acquire seen = .ok source ∧
      source.isCurrent current = true ∧ derive' source.contents = .ok mutation ∧ Mutated fs dryRun seen mutation after update ∧
      ∀ contents, mutation = .replace contents → dryRun = false → replacedText fs derive' remaining leaf = some source.contents := by
  induction remaining generalizing leaf with
  | zero => cases done
  | succ remaining ih =>
    rw [mutateFrom] at done
    cases read : acquire leaf with
    | error fault =>
      rw [read] at done
      cases done
    | ok source =>
      rw [read] at done
      dsimp only at done
      cases derived : derive' source.contents with
      | error fault =>
        rw [derived] at done
        cases done
      | ok mutation =>
        rw [derived] at done
        dsimp only at done
        have own := isCurrent_of_acquire read
        have stands : Stands fs.race (remaining + 1) leaf (fs.race remaining leaf) := .raced (.here _ _)
        by_cases same : mutation = .unchanged
        · rw [if_pos same] at done
          cases done
          subst same
          exact ⟨_, _, source, _, .here _ _, .here _ _, read, own, derived, .unchanged, fun _ replaces => by cases replaces⟩
        rw [if_neg same] at done
        by_cases dry : dryRun = true
        · rw [if_pos dry] at done
          cases done
          exact ⟨_, _, source, mutation, .here _ _, .here _ _, read, own, derived, .dry mutation dry, fun _ _ wet => by cases wet.symm.trans dry⟩
        rw [if_neg dry] at done
        by_cases stale : (!source.isCurrent (fs.race remaining leaf)) = true
        · rw [if_pos stale] at done
          by_cases last : remaining = 0
          · rw [if_pos last] at done
            cases done
          · rw [if_neg last] at done
            obtain ⟨seen, current, other, mutation', earlier, later, read', fresh, derived', mutated, replaced⟩ := ih done
            refine ⟨seen, current, other, mutation', .raced earlier, .raced later, read', fresh, derived', mutated, fun contents replaces wet => ?_⟩
            have unfresh : ¬source.isCurrent (fs.race remaining leaf) = true := by simpa using stale
            rw [replacedText_succ read derived same, if_neg unfresh]
            exact replaced contents replaces wet
        rw [if_neg stale] at done
        have fresh : source.isCurrent (fs.race remaining leaf) = true := by simpa using stale
        cases mutation with
        | unchanged => cases done
        | replace contents =>
          dsimp only at done
          cases written : fs.written with
          | none =>
            rw [written] at done
            cases done
          | some stat =>
            rw [written] at done
            cases done
            refine ⟨leaf, _, source, _, .here _ _, stands, read, fresh, derived, .replaced written, fun _ _ _ => ?_⟩
            rw [replacedText_succ read derived same, if_pos fresh, written]
            rfl
        | remove =>
          dsimp only at done
          by_cases removes : fs.removes = true
          · rw [if_pos removes] at done
            cases done
            exact ⟨leaf, _, source, _, .here _ _, stands, read, fresh, derived, .removed, fun _ replaces => by cases replaces⟩
          · rw [if_neg removes] at done
            cases done

end Mutate

/-! ## Installs -/

theorem markers_exclude : Markers BEGIN END :=
  ⟨Utf8.Valid.of_ascii (Utf8.forall_mem_of_all (by decide)), Utf8.Valid.of_ascii (Utf8.forall_mem_of_all (by decide)),
    ⟨by decide, by decide⟩, ⟨by decide, by decide⟩, by decide, by decide, by decide⟩

/-- The terminator that an install puts behind the text completes a pair in it. -/
def Completes (existing : Str) : Prop := ¬HasPair BEGIN END existing ∧ HasPair BEGIN END (existing ++ separator existing)

/-- Text in which an install completes a pair is never found up to date. -/
theorem Completes.upsert_ne {existing : Str} (completes : Completes existing) (body : Str) :
    (upsert BEGIN END existing body : Outcome InfoExcludeError Str) ≠ .ok existing := by
  rw [upsert_of_unpaired markers_exclude.distinct completes.1 body]
  intro same
  have longer := List.self_eq_append_right.mp (Except.ok.inj same).symm
  have bare : separator existing = [] := (List.append_eq_nil_iff.mp longer).1
  refine completes.1 ?_
  have paired := completes.2
  rwa [bare, List.append_nil] at paired

/-- The text before and after the block: what stands around the first pair, or the whole text with a terminator behind it. -/
def Outside (existing front rest : Str) : Prop :=
  (∃ before opening inner closing after, ManagedBlock.FirstPair BEGIN END (existing.splitInclusive Byte.lineFeed) before opening inner closing after ∧
    front = before.flatten ∧ rest = after.flatten) ∨
  ¬HasPair BEGIN END existing ∧ rest = [] ∧ ∃ added, (added = [] ∨ ∃ eol : Eol, added = eol.asStr) ∧ front = existing ++ added

/-- The first pair of a text encloses the body in some style, and the text around it is that of the file before. -/
def Shows (body existing contents : Str) : Prop :=
  ∃ before opening inner closing after, ManagedBlock.FirstPair BEGIN END (contents.splitInclusive Byte.lineFeed) before opening inner closing after ∧
    (∃ eol : Eol, inner.flatten = eol.convert body) ∧ Outside existing before.flatten after.flatten

section Install

variable {body existing : Str} (contained : BlockBody BEGIN END body)
include contained

/-- A block behind closed text without a pair shows the body. -/
theorem shows_block {front rest : Str} (closed : Closed Byte.lineFeed front) (unpaired : ¬HasPair BEGIN END front) (eol : Eol)
    (outside : Outside existing front rest) : Shows body existing (front ++ (block BEGIN END body eol ++ rest)) := by
  refine ⟨_, _, _, _, _, firstPair_block markers_exclude contained closed unpaired eol rest, ⟨eol, flatten_splitInclusive _ _⟩, ?_⟩
  rw [flatten_splitInclusive, flatten_splitInclusive]
  exact outside

/-- An install shows its body, unless it completes a pair of the user. -/
theorem upsert_shows (harmless : ¬Completes existing) :
    ∃ updated, (upsert BEGIN END existing body : Outcome InfoExcludeError Str) = .ok updated ∧ Shows body existing updated := by
  by_cases paired : HasPair BEGIN END existing
  · obtain ⟨before, opening, inner, closing, after, pair⟩ := paired.exists_firstPair markers_exclude.distinct
    obtain ⟨terminated, -, -⟩ := pair.framed
    have lines : before.flatten.splitInclusive Byte.lineFeed = before := by
      have cut := (Pieces.append terminated .nil).splitInclusive_flatten
      rwa [append_nil] at cut
    have unpaired : ¬HasPair BEGIN END before.flatten := by
      rw [HasPair, lines]
      exact pair.earlier
    refine ⟨_, pair.upsert_eq markers_exclude body, shows_block contained (closed_of_terminated terminated) unpaired _ (.inl ?_)⟩
    exact ⟨before, opening, inner, closing, after, pair, rfl, rfl⟩
  · have unpaired : ¬HasPair BEGIN END (existing ++ separator existing) := fun completed => harmless ⟨paired, completed⟩
    have shows := shows_block contained (closed_append_separator existing) unpaired (Eol.detect existing) <| .inr ⟨paired, rfl, separator existing, ?_, rfl⟩
    · refine ⟨_, upsert_of_unpaired markers_exclude.distinct paired body, ?_⟩
      rwa [append_nil, append_assoc] at shows
    · unfold separator
      split_ifs
      · exact .inl rfl
      · exact .inr ⟨_, rfl⟩

end Install

end Gat

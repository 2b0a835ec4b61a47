import Gat.ToMathlib.AncestorFree
import Mathlib.Data.UInt
import Mathlib.Tactic.Common

/-! # Ignore files

One line of an ignore file is a comment, or a pattern with an optional negation, which is for directories alone when it
ends in a separator. A pattern with another separator is matched against the whole path and any other pattern against the
last component. A path is ignored with every directory above it.

A pattern whose bytes all stand for themselves, escaped where they have to be, ignores the one path that they spell and
what is below it.
-/

namespace GitIgnore

open AncestorFree

/-! ## Bytes with a meaning -/

def space : UInt8 := 0x20

def negation : UInt8 := 0x21

def comment : UInt8 := 0x23

def asterisk : UInt8 := 0x2A

def dash : UInt8 := 0x2D

def separator : UInt8 := 0x2F

def colon : UInt8 := 0x3A

def question : UInt8 := 0x3F

def bracket : UInt8 := 0x5B

def escape : UInt8 := 0x5C

def closing : UInt8 := 0x5D

def caret : UInt8 := 0x5E

def carriage : UInt8 := 0x0D

/-! ## Classes -/

/-- What stands between brackets, a single byte as a range of one. -/
inductive Member where
  | range (low high : UInt8)
  | named (name : List UInt8)
deriving DecidableEq, Repr

/-- The named classes, all of them of ASCII characters. -/
def classes : List (String × (Char → Bool)) :=
  [("alnum", Char.isAlphanum), ("alpha", Char.isAlpha), ("blank", fun char => char = ' ' || char = '\t'),
    ("cntrl", fun char => char.toNat < 0x20 || char.toNat = 0x7F), ("digit", Char.isDigit),
    ("graph", fun char => 0x21 ≤ char.toNat && char.toNat ≤ 0x7E), ("lower", Char.isLower),
    ("print", fun char => 0x20 ≤ char.toNat && char.toNat ≤ 0x7E),
    ("punct", fun char => 0x21 ≤ char.toNat && char.toNat ≤ 0x7E && !char.isAlphanum),
    ("space", fun char => char.toNat = 0x20 || (0x09 ≤ char.toNat && char.toNat ≤ 0x0D)), ("upper", Char.isUpper),
    ("xdigit", fun char => char.isDigit || ('a' ≤ char && char ≤ 'f') || ('A' ≤ char && char ≤ 'F'))]

def classOf (name : List UInt8) : Option (Char → Bool) := (classes.find? fun known => known.1.toUTF8.toList = name).map Prod.snd

def Member.admits : Member → UInt8 → Bool
  | .range low high, byte => low ≤ byte && byte ≤ high
  | .named name, byte => (classOf name).any fun holds => byte < 0x80 && holds (Char.ofNat byte.toNat)

/-- The next letter of a class with its escape. -/
def letter : List UInt8 → Option (UInt8 × List UInt8)
  | [] => none
  | byte :: rest => if byte = escape then rest.head?.map fun escaped => (escaped, rest.tail) else some (byte, rest)

/-- The end of a range; a dash before the closing bracket is a letter. -/
def rangeEnd : List UInt8 → Option (UInt8 × List UInt8)
  | [] => none
  | byte :: rest => if byte = dash ∧ rest.head? ≠ some closing then letter rest else none

/-- The name of a named class with its delimiters taken off. -/
def className (text : List UInt8) : Option (List UInt8 × List UInt8) :=
  if [bracket, colon].isPrefixOf text then
    let name := (text.drop 2).takeWhile (· ≠ closing)
    if name.getLast? = some colon then some (name.dropLast, text.drop (name.length + 3)) else none
  else none

theorem length_letter {text rest : List UInt8} {byte : UInt8} (found : letter text = some (byte, rest)) : rest.length < text.length := by
  cases text with
  | nil => cases found
  | cons first text =>
    rw [letter] at found
    split_ifs at found
    · cases text with
      | nil => cases found
      | cons escaped text =>
        cases found
        exact Nat.lt_succ_of_lt (Nat.lt_succ_self _)
    · cases found
      exact Nat.lt_succ_self _

theorem length_rangeEnd {text rest : List UInt8} {byte : UInt8} (found : rangeEnd text = some (byte, rest)) : rest.length < text.length := by
  cases text with
  | nil => cases found
  | cons first text =>
    rw [rangeEnd] at found
    split_ifs at found
    exact Nat.lt_succ_of_lt (length_letter found)

theorem length_className {text rest name : List UInt8} (found : className text = some (name, rest)) : rest.length < text.length := by
  unfold className at found
  dsimp only at found
  split_ifs at found with opened
  · obtain ⟨-, rfl⟩ := Prod.mk.inj (Option.some.inj found)
    have long : 2 ≤ text.length := (List.isPrefixOf_iff_prefix.mp opened).length_le
    rw [List.length_drop]
    omega

/-- The members of a class up to its closing bracket, which is a letter in the first place. -/
def members (first : Bool) (text : List UInt8) : Option (List Member × List UInt8) :=
  if !first && text.head? = some closing then some ([], text.tail)
  else
    match _ : className text with
    | some (name, rest) =>
      if (classOf name).isSome then (members false rest).map fun found => (.named name :: found.1, found.2) else none
    | none =>
      match _ : letter text with
      | none => none
      | some (low, rest) =>
        match _ : rangeEnd rest with
        | some (high, rest) => (members false rest).map fun found => (.range low low :: .range low high :: found.1, found.2)
        | none => (members false rest).map fun found => (.range low low :: found.1, found.2)
termination_by text.length
decreasing_by
  · exact length_className ‹_›
  · exact (length_rangeEnd ‹_›).trans (length_letter ‹_›)
  · exact length_letter ‹_›

theorem length_members {first : Bool} {text rest : List UInt8} {found : List Member} (parsed : members first text = some (found, rest)) :
    rest.length < text.length := by
  fun_induction members first text generalizing found with
  | case1 first text closed =>
    cases parsed
    cases text with
    | nil => simp at closed
    | cons byte text => exact Nat.lt_succ_self _
  | case2 first text unclosed name rest' named known ih =>
    obtain ⟨⟨more, after⟩, inside, same⟩ := Option.map_eq_some_iff.mp parsed
    cases same
    exact (ih inside).trans (length_className named)
  | case3 => cases parsed
  | case4 => cases parsed
  | case5 first text unclosed unnamed low rest' one high rest'' range ih =>
    obtain ⟨⟨more, after⟩, inside, same⟩ := Option.map_eq_some_iff.mp parsed
    cases same
    exact (ih inside).trans ((length_rangeEnd range).trans (length_letter one))
  | case6 first text unclosed unnamed low rest' one single ih =>
    obtain ⟨⟨more, after⟩, inside, same⟩ := Option.map_eq_some_iff.mp parsed
    cases same
    exact (ih inside).trans (length_letter one)

/-! ## Patterns -/

inductive Token where
  | byte (value : UInt8)
  | any
  | oneOf (negated : Bool) (members : List Member)
  | star
  | directories
  | everything
deriving DecidableEq, Repr

/-- A class behind its opening bracket. -/
def classToken (text : List UInt8) : Option (Token × List UInt8) :=
  if text.head? = some negation ∨ text.head? = some caret then (members true text.tail).map fun found => (.oneOf true found.1, found.2)
  else (members true text).map fun found => (.oneOf false found.1, found.2)

theorem length_classToken {text rest : List UInt8} {token : Token} (found : classToken text = some (token, rest)) :
    rest.length < text.length := by
  unfold classToken at found
  split_ifs at found
  · obtain ⟨⟨more, after⟩, parsed, same⟩ := Option.map_eq_some_iff.mp found
    cases same
    exact (length_members parsed).trans_le (by rw [List.length_tail]; exact Nat.sub_le _ _)
  · obtain ⟨⟨more, after⟩, parsed, same⟩ := Option.map_eq_some_iff.mp found
    cases same
    exact length_members parsed

/-- A run of stars; where a component starts, two of them before a separator or the end stand for components. -/
def starToken (start : Bool) (text : List UInt8) : Token × Bool × List UInt8 :=
  let rest := text.dropWhile (· = asterisk)
  if start ∧ text.head? = some asterisk ∧ rest = [] then (.everything, false, [])
  else if start ∧ text.head? = some asterisk ∧ rest.head? = some separator then (.directories, true, rest.tail)
  else (.star, false, rest)

theorem length_starToken (start : Bool) (text : List UInt8) : (starToken start text).2.2.length ≤ text.length := by
  have rest := (List.dropWhile_sublist (fun byte : UInt8 => decide (byte = asterisk)) (l := text)).length_le
  unfold starToken
  dsimp only
  split_ifs
  · exact Nat.zero_le _
  · rw [List.length_tail]
    exact (Nat.sub_le _ _).trans rest
  · exact rest

/-- The next token, whether a component starts behind it, and the rest; none for a dangling escape or an unclosed class. -/
def nextToken (start : Bool) (byte : UInt8) (text : List UInt8) : Option (Token × Bool × List UInt8) :=
  if byte = escape then text.head?.map fun escaped => (.byte escaped, escaped = separator, text.tail)
  else if byte = question then some (.any, false, text)
  else if byte = bracket then (classToken text).map fun found => (found.1, false, found.2)
  else if byte = asterisk then some (starToken start text)
  else some (.byte byte, byte = separator, text)

theorem length_nextToken {start next : Bool} {byte : UInt8} {text rest : List UInt8} {token : Token}
    (found : nextToken start byte text = some (token, next, rest)) : rest.length < (byte :: text).length := by
  refine Nat.lt_succ_of_le ?_
  unfold nextToken at found
  split_ifs at found
  · obtain ⟨escaped, -, same⟩ := Option.map_eq_some_iff.mp found
    cases same
    rw [List.length_tail]
    exact Nat.sub_le _ _
  · cases found
    exact le_rfl
  · obtain ⟨⟨class', after⟩, parsed, same⟩ := Option.map_eq_some_iff.mp found
    cases same
    exact (length_classToken parsed).le
  · obtain rfl : (starToken start text).2.2 = rest := congrArg (fun found => found.2.2) (Option.some.inj found)
    exact length_starToken start text
  · cases found
    exact le_rfl

/-- The tokens of a pattern. -/
def tokens (start : Bool) (text : List UInt8) : Option (List Token) :=
  match text with
  | [] => some []
  | byte :: text =>
    match _ : nextToken start byte text with
    | none => none
    | some (token, next, rest) => (tokens next rest).map (token :: ·)
termination_by text.length
decreasing_by exact length_nextToken ‹_›

/-- The bytes that a token for one byte stands for. -/
def Token.admits : Token → UInt8 → Bool
  | .byte value, other => other = value
  | .any, other => other ≠ separator
  | .oneOf negated members, other => other ≠ separator && (members.any (·.admits other) != negated)
  | .star, _ => false
  | .directories, _ => false
  | .everything, _ => false

/-- A pattern against a text. -/
def accepts : List Token → List UInt8 → Bool
  | [], text => text = []
  | .star :: tokens, text =>
    (List.range (text.length + 1)).any fun count => separator ∉ text.take count && accepts tokens (text.drop count)
  | .directories :: tokens, text =>
    (List.range (text.length + 1)).any fun count =>
      (count = 0 || (text.take count).getLast? = some separator) && accepts tokens (text.drop count)
  | .everything :: _, _ => true
  | _ :: _, [] => false
  | token :: tokens, byte :: text => token.admits byte && accepts tokens text

/-! ## Lines -/

/-- Trailing spaces are not part of a pattern, unless they are escaped. -/
def trimSpaces : List UInt8 → List UInt8
  | [] => []
  | [byte] => if byte = space then [] else [byte]
  | byte :: next :: rest =>
    if byte = escape then byte :: next :: trimSpaces rest
    else if byte = space ∧ (next :: rest).all (· = space) then []
    else byte :: trimSpaces (next :: rest)

structure Rule where
  negated : Bool
  directoryOnly : Bool
  anchored : Bool
  tokens : Option (List Token)

/-- The rule of a pattern without its negation. -/
def Rule.ofPattern (negated : Bool) (text : List UInt8) : Rule :=
  let directoryOnly : Bool := text.getLast? = some separator
  let pattern := if directoryOnly then text.dropLast else text
  ⟨negated, directoryOnly, separator ∈ pattern, GitIgnore.tokens true (if pattern.head? = some separator then pattern.tail else pattern)⟩

/-- One line of an ignore file without its terminator. -/
def parse (line : List UInt8) : Option Rule :=
  let text := trimSpaces line
  if text = [] ∨ text.head? = some comment then none
  else if text.head? = some negation then some (.ofPattern true text.tail)
  else some (.ofPattern false text)

/-- The last component of a path. -/
def basename (path : List UInt8) : List UInt8 := (path.reverse.takeWhile (· ≠ separator)).reverse

namespace Rule

def matchesPath (rule : Rule) (path : List UInt8) (isDir : Bool) : Bool :=
  (!rule.directoryOnly || isDir) && rule.tokens.any fun tokens => accepts tokens (if rule.anchored then path else basename path)

end Rule

/-- A line ignores a file that it matches, and every file below a directory that it matches. -/
def Ignores (line path : List UInt8) : Prop :=
  ∃ rule, parse line = some rule ∧ rule.negated = false ∧
    (rule.matchesPath path false = true ∨ ∃ directory, IsAncestor separator directory path ∧ rule.matchesPath directory true = true)

theorem head?_trimSpaces {line : List UInt8} (some' : trimSpaces line ≠ []) : (trimSpaces line).head? = line.head? := by
  fun_induction trimSpaces line with
  | case1 => rfl
  | case2 => exact absurd rfl some'
  | case3 => rfl
  | case4 => rfl
  | case5 => exact absurd rfl some'
  | case6 => rfl

/-- Only a line that begins with the negation is negative. -/
theorem negated_of_parse {line : List UInt8} {rule : Rule} (parsed : parse line = some rule) (positive : line.head? ≠ some negation) :
    rule.negated = false := by
  unfold parse at parsed
  dsimp only at parsed
  split_ifs at parsed with skipped negated
  · rw [head?_trimSpaces fun none' => skipped (.inl none')] at negated
    exact absurd negated positive
  · cases parsed
    rfl

theorem parse_of_comment {line : List UInt8} (comments : line.head? = some comment) : parse line = none := by
  refine if_pos ?_
  by_cases none' : trimSpaces line = []
  · exact .inl none'
  · exact .inr ((head?_trimSpaces none').trans comments)

/-- The last line of a list that matches decides. -/
def decides (lines : List (List UInt8)) (path : List UInt8) (isDir : Bool) : Option Rule :=
  lines.reverse.findSome? fun line => (parse line).filter fun rule => rule.matchesPath path isDir

/-- Among positive lines it makes no difference which one decides. -/
theorem decides_of_positive {lines : List (List UInt8)} (positive : ∀ line ∈ lines, line.head? ≠ some negation) (path : List UInt8) (isDir : Bool) :
    (decides lines path isDir).map Rule.negated = some false ∧ (∃ line ∈ lines, ∃ rule, parse line = some rule ∧ rule.matchesPath path isDir = true) ∨
      decides lines path isDir = none ∧ ¬∃ line ∈ lines, ∃ rule, parse line = some rule ∧ rule.matchesPath path isDir = true := by
  cases found : decides lines path isDir with
  | none =>
    refine .inr ⟨rfl, ?_⟩
    rintro ⟨line, member, rule, parsed, hit⟩
    have missed := List.findSome?_eq_none_iff.mp found line (List.mem_reverse.mpr member)
    rw [parsed, Option.filter_some, if_pos hit] at missed
    cases missed
  | some rule =>
    obtain ⟨line, member, hit⟩ := List.exists_of_findSome?_eq_some found
    obtain ⟨parsed, hit⟩ := Option.filter_eq_some_iff.mp hit
    have member := List.mem_reverse.mp member
    exact .inl ⟨congrArg some (negated_of_parse parsed (positive line member)), line, member, rule, parsed, hit⟩

/-! ## Spelled texts -/

/-- A pattern whose every byte stands for itself, escaped or as the only letter of a class. A space does not stand bare at the end,
and a carriage return only in a class, since what reads lines takes both off. -/
inductive Spells : List UInt8 → List UInt8 → Prop
  | nil : Spells [] []
  | plain {byte : UInt8} {pattern text : List UInt8} (ordinary : byte ∉ [escape, question, bracket, asterisk, carriage])
    (kept : byte = space → ∃ other ∈ pattern, other ≠ space) (rest : Spells pattern text) : Spells (byte :: pattern) (byte :: text)
  | escaped {byte : UInt8} {pattern text : List UInt8} (solid : byte ≠ carriage) (rest : Spells pattern text) :
    Spells (escape :: byte :: pattern) (byte :: text)
  | oneOf {byte : UInt8} {pattern text : List UInt8} (ordinary : byte ∉ [escape, separator, closing, negation, caret])
    (rest : Spells pattern text) : Spells (bracket :: byte :: closing :: pattern) (byte :: text)

namespace Spells

variable {pattern text path : List UInt8}

theorem append {after suffix' : List UInt8} (spells : Spells pattern text) (rest : Spells after suffix') :
    Spells (pattern ++ after) (text ++ suffix') := by
  induction spells with
  | nil => exact rest
  | plain ordinary kept _ ih =>
    refine .plain ordinary (fun same => ?_) ih
    obtain ⟨other, member, solid⟩ := kept same
    exact ⟨other, List.mem_append_left _ member, solid⟩
  | escaped solid _ ih => exact .escaped solid ih
  | oneOf ordinary _ ih => exact .oneOf ordinary ih

theorem eq_nil_iff (spells : Spells pattern text) : pattern = [] ↔ text = [] := by
  cases spells <;> simp

/-- Only the end of a class differs from the end of what it spells. -/
theorem getLast?_ne (spells : Spells pattern text) (open' : text.getLast? ≠ some separator) : pattern.getLast? ≠ some separator := by
  induction spells with
  | nil => exact nofun
  | @plain byte pattern text _ _ rest ih =>
    cases pattern with
    | nil =>
      obtain rfl := rest.eq_nil_iff.mp rfl
      exact open'
    | cons first pattern =>
      cases text with
      | nil => cases rest
      | cons second text =>
        rw [List.getLast?_cons_cons] at open' ⊢
        exact ih open'
  | @escaped byte pattern text solid rest ih =>
    cases pattern with
    | nil =>
      obtain rfl := rest.eq_nil_iff.mp rfl
      exact open'
    | cons first pattern =>
      cases text with
      | nil => cases rest
      | cons second text =>
        rw [List.getLast?_cons_cons] at open' ⊢
        exact ih open'
  | @oneOf byte pattern text _ rest ih =>
    cases pattern with
    | nil =>
      rw [List.getLast?_cons_cons, List.getLast?_cons_cons]
      decide
    | cons first pattern =>
      cases text with
      | nil => cases rest
      | cons second text =>
        rw [List.getLast?_cons_cons] at open'
        exact ih open'

/-- A pattern holds what it spells and the bytes that escape it. -/
theorem subset (spells : Spells pattern text) : pattern ⊆ text ++ [escape, bracket, closing] := by
  induction spells with
  | nil => exact List.nil_subset _
  | plain _ _ _ ih =>
    exact List.cons_subset.mpr ⟨List.mem_cons_self, fun _ member => List.mem_cons_of_mem _ (ih member)⟩
  | escaped _ _ ih =>
    refine List.cons_subset.mpr ⟨List.mem_append_right _ (by simp), List.cons_subset.mpr ⟨List.mem_cons_self, ?_⟩⟩
    exact fun _ member => List.mem_cons_of_mem _ (ih member)
  | oneOf _ _ ih =>
    refine List.cons_subset.mpr ⟨List.mem_append_right _ (by simp), List.cons_subset.mpr ⟨List.mem_cons_self, ?_⟩⟩
    refine List.cons_subset.mpr ⟨List.mem_append_right _ (by simp), ?_⟩
    exact fun _ member => List.mem_cons_of_mem _ (ih member)

/-- What reads lines does not take off a carriage return. -/
theorem getLast?_ne_carriage (spells : Spells pattern text) : pattern.getLast? ≠ some carriage := by
  have behind {byte : UInt8} {rest : List UInt8} (solid : byte ≠ carriage) (ih : rest.getLast? ≠ some carriage) :
      (byte :: rest).getLast? ≠ some carriage := by
    cases rest with
    | nil => exact fun same => solid (Option.some.inj same)
    | cons next rest =>
      rw [List.getLast?_cons_cons]
      exact ih
  induction spells with
  | nil => exact nofun
  | plain ordinary _ _ ih => exact behind (by rintro rfl; simp at ordinary) ih
  | escaped solid _ ih =>
    rw [List.getLast?_cons_cons]
    exact behind solid ih
  | oneOf _ _ ih =>
    rw [List.getLast?_cons_cons, List.getLast?_cons_cons]
    exact behind (by decide) ih

/-! ### Trimming -/

theorem trimSpaces_cons {byte : UInt8} {rest : List UInt8} (unescaped : byte ≠ escape) (kept : byte = space → ∃ other ∈ rest, other ≠ space) :
    trimSpaces (byte :: rest) = byte :: trimSpaces rest := by
  cases rest with
  | nil =>
    have solid : byte ≠ space := fun same => by simpa using kept same
    rw [trimSpaces, trimSpaces, if_neg solid]
  | cons next rest =>
    have solid : ¬(byte = space ∧ (next :: rest).all (· = space) = true) := by
      rintro ⟨same, all⟩
      obtain ⟨other, member, differs⟩ := kept same
      exact differs (by simpa using List.all_eq_true.mp all other member)
    rw [trimSpaces, if_neg unescaped, if_neg solid]

theorem trimSpaces_eq (spells : Spells pattern text) : trimSpaces pattern = pattern := by
  induction spells with
  | nil => rfl
  | plain ordinary kept _ ih => rw [trimSpaces_cons (by rintro rfl; simp at ordinary) kept, ih]
  | escaped _ _ ih => rw [trimSpaces, if_pos rfl, ih]
  | oneOf ordinary _ ih =>
    rw [trimSpaces_cons (by decide) (fun same => absurd same (by decide)),
      trimSpaces_cons (by rintro rfl; simp at ordinary) fun _ => ⟨closing, List.mem_cons_self, by decide⟩,
      trimSpaces_cons (by decide) (fun same => absurd same (by decide)), ih]

/-! ### Matching -/

theorem members_single {byte : UInt8} (ordinary : byte ∉ [escape, separator, closing, negation, caret]) (rest : List UInt8) :
    members true (byte :: closing :: rest) = some ([.range byte byte], rest) := by
  have closed : members false (closing :: rest) = some ([], rest) := by
    rw [members]
    rfl
  have unnamed : className (byte :: closing :: rest) = none := by
    unfold className
    exact if_neg (by simp [List.isPrefixOf, colon, closing])
  have one : letter (byte :: closing :: rest) = some (byte, closing :: rest) := by
    rw [letter, if_neg]
    rintro rfl
    simp at ordinary
  have single : rangeEnd (closing :: rest) = none := by
    rw [rangeEnd, if_neg fun same => absurd same.1 (by decide)]
  rw [members]
  simp only [Bool.not_true, Bool.false_and, Bool.false_eq_true, if_false]
  split
  · next named => exact absurd (unnamed.symm.trans named) nofun
  · split
    · next missing => exact absurd (one.symm.trans missing) nofun
    · next low after found =>
      obtain ⟨rfl, rfl⟩ := Prod.mk.inj (Option.some.inj (one.symm.trans found))
      split
      · next ranged => exact absurd (single.symm.trans ranged) nofun
      · rw [closed]
        rfl

theorem tokens_cons {start next : Bool} {byte : UInt8} {rest after : List UInt8} {token : Token}
    (found : nextToken start byte rest = some (token, next, after)) : tokens start (byte :: rest) = (tokens next after).map (token :: ·) := by
  rw [tokens]
  split
  · next missing => exact absurd (found.symm.trans missing) nofun
  · next other =>
    obtain ⟨rfl, rfl, rfl⟩ : token = _ ∧ next = _ ∧ after = _ := by simpa using found.symm.trans other
    rfl

theorem accepts_cons {token : Token} {byte : UInt8} (single : ∀ other, token.admits other = true ↔ other = byte) (list : List Token) :
    accepts (token :: list) path = true ↔ ∃ rest, path = byte :: rest ∧ accepts list rest = true := by
  have one := (single byte).mpr rfl
  cases token with
  | star => cases one
  | directories => cases one
  | everything => cases one
  | _ =>
    cases path with
    | nil => simp [accepts]
    | cons other rest =>
      rw [accepts]
      · rw [Bool.and_eq_true, single]
        simp
      all_goals simp

/-- A spelled pattern accepts what it spells and nothing else. -/
theorem accepts_iff (spells : Spells pattern text) (start : Bool) :
    ∃ list, tokens start pattern = some list ∧ ∀ path, accepts list path = true ↔ path = text := by
  -- each constructor spells one byte with one token
  have step {start next : Bool} {byte first : UInt8} {rest after text : List UInt8} {token : Token}
      (found : nextToken start first rest = some (token, next, after)) (single : ∀ other, token.admits other = true ↔ other = byte)
      (ih : ∀ start, ∃ list, tokens start after = some list ∧ ∀ path, accepts list path = true ↔ path = text) :
      ∃ list, tokens start (first :: rest) = some list ∧ ∀ path, accepts list path = true ↔ path = byte :: text := by
    obtain ⟨list, parsed, exact'⟩ := ih next
    refine ⟨token :: list, by rw [tokens_cons found, parsed]; rfl, fun path => ?_⟩
    rw [accepts_cons single]
    simp only [exact', exists_eq_right]
  induction spells generalizing start with
  | nil => exact ⟨[], by rw [tokens], fun path => by simp [accepts]⟩
  | @plain byte pattern text ordinary kept rest ih =>
    refine @step start (byte = separator) byte byte pattern pattern text (.byte byte) ?_ (fun other => by simp [Token.admits]) ih
    simp only [List.mem_cons, List.not_mem_nil, or_false, not_or] at ordinary
    obtain ⟨unescaped, noQuestion, noBracket, noStar, -⟩ := ordinary
    rw [nextToken, if_neg unescaped, if_neg noQuestion, if_neg noBracket, if_neg noStar]
  | @escaped byte pattern text solid rest ih =>
    exact @step start (byte = separator) byte escape (byte :: pattern) pattern text (.byte byte) rfl (fun other => by simp [Token.admits]) ih
  | @oneOf byte pattern text ordinary rest ih =>
    refine @step start false byte bracket (byte :: closing :: pattern) pattern text (.oneOf false [.range byte byte]) ?_ (fun other => ?_) ih
    · have positive : ¬((byte :: closing :: pattern).head? = some negation ∨ (byte :: closing :: pattern).head? = some caret) := by
        rintro (same | same) <;> cases same <;> simp at ordinary
      rw [nextToken, if_neg (by decide), if_neg (by decide), if_pos rfl, classToken, if_neg positive, members_single ordinary]
      rfl
    · have apart : byte ≠ separator := by
        rintro rfl
        simp at ordinary
      simp only [Token.admits, Member.admits, List.any_cons, List.any_nil, Bool.or_false, Bool.bne_false, Bool.and_eq_true, decide_eq_true_eq]
      constructor
      · rintro ⟨-, lower, upper⟩
        exact UInt8.le_antisymm upper lower
      · rintro rfl
        exact ⟨apart, UInt8.le_refl _, UInt8.le_refl _⟩

/-! ### Rules -/

theorem plain_separator (spells : Spells pattern text) : Spells (separator :: pattern) (separator :: text) :=
  .plain (by decide) (fun same => absurd same (by decide)) spells

/-- An anchored rule that spells a path ignores the path and everything below it. -/
theorem ignores_iff (spells : Spells pattern text) (open' : text.getLast? ≠ some separator) (some' : text ≠ []) :
    Ignores (separator :: pattern) path ↔ path = text ∨ IsAncestor separator text path := by
  obtain ⟨list, parsed, exact'⟩ := spells.accepts_iff true
  have last : (separator :: pattern).getLast? ≠ some separator := by
    cases pattern with
    | nil => exact absurd (spells.eq_nil_iff.mp rfl) some'
    | cons first pattern =>
      rw [List.getLast?_cons_cons]
      exact spells.getLast?_ne open'
  have rule : parse (separator :: pattern) = some ⟨false, false, true, some list⟩ := by
    rw [parse, spells.plain_separator.trimSpaces_eq, if_neg (by simp [separator, comment]), if_neg (by simp [separator, negation]), Rule.ofPattern]
    simp [last, parsed]
  have hit (path : List UInt8) (isDir : Bool) : Rule.matchesPath ⟨false, false, true, some list⟩ path isDir = true ↔ path = text := by
    simp [Rule.matchesPath, exact']
  unfold Ignores
  rw [rule]
  simp only [Option.some.injEq, exists_eq_left', true_and, hit, exists_eq_right]

/-- An anchored directory rule that spells a directory ignores everything below it. -/
theorem ignores_directory_iff (spells : Spells pattern text) :
    Ignores (separator :: (pattern ++ [separator])) path ↔ IsAncestor separator text path := by
  obtain ⟨list, parsed, exact'⟩ := spells.accepts_iff true
  have whole : Spells (pattern ++ [separator]) (text ++ [separator]) := spells.append (.plain (by decide) (fun same => absurd same (by decide)) .nil)
  have last : (separator :: (pattern ++ [separator])).getLast? = some separator := by rw [← List.cons_append, List.getLast?_concat]
  have rule : parse (separator :: (pattern ++ [separator])) = some ⟨false, true, true, some list⟩ := by
    rw [parse, whole.plain_separator.trimSpaces_eq, if_neg (by simp [separator, comment]), if_neg (by simp [separator, negation]), Rule.ofPattern,
      ← List.cons_append, List.dropLast_concat]
    simp [last, parsed]
  have hit (path : List UInt8) (isDir : Bool) : Rule.matchesPath ⟨false, true, true, some list⟩ path isDir = true ↔ isDir = true ∧ path = text := by
    simp [Rule.matchesPath, exact']
  unfold Ignores
  rw [rule]
  simp only [Option.some.injEq, exists_eq_left', true_and, hit, Bool.false_eq_true, false_and, false_or, exists_eq_right]

end Spells

end GitIgnore

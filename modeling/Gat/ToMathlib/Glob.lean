import Mathlib.Data.List.Basic
import Mathlib.Tactic.Common

/-! # Glob patterns over components

A pattern is a sequence of tokens, each of which stands for one character, for a run within a component or for whole
components. Character classes are taken apart from the pattern but not interpreted: which characters a class admits is a
parameter. A pattern that matches a text below a directory has a beginning that matches the directory.
-/

namespace Glob

inductive Token where
  | char (letter : Char)
  | anyChar
  | within (letters : List Char)
  | except (letters : List Char)
  | sequence
  | recursive
deriving DecidableEq, Repr

/-- The characters with a meaning of their own. -/
def metas : List Char := ['*', '?', '[']

/-- The tokens of a pattern; `start` says that a component starts here, where alone `**` may stand. A class is closed by the
first bracket behind its first letter. -/
inductive Parses : Bool → List Char → List Token → Prop
  | nil {start : Bool} : Parses start [] []
  | char {start : Bool} {letter : Char} {text : List Char} {tokens : List Token} (plain : letter ∉ metas)
    (rest : Parses (letter = '/') text tokens) : Parses start (letter :: text) (.char letter :: tokens)
  | anyChar {start : Bool} {text : List Char} {tokens : List Token} (rest : Parses false text tokens) :
    Parses start ('?' :: text) (.anyChar :: tokens)
  | sequence {start : Bool} {text : List Char} {tokens : List Token} (single : text.head? ≠ some '*') (rest : Parses false text tokens) :
    Parses start ('*' :: text) (.sequence :: tokens)
  | recursive {text : List Char} {tokens : List Token} (rest : Parses true text tokens) :
    Parses true ('*' :: '*' :: '/' :: text) (.recursive :: tokens)
  | last : Parses true ['*', '*'] [.recursive]
  | within {start : Bool} {first : Char} {more text : List Char} {tokens : List Token} (positive : first ≠ '!') (inside : ']' ∉ more)
    (rest : Parses false text tokens) : Parses start ('[' :: first :: (more ++ ']' :: text)) (.within (first :: more) :: tokens)
  | except {start : Bool} {first : Char} {more text : List Char} {tokens : List Token} (inside : ']' ∉ more)
    (rest : Parses false text tokens) : Parses start ('[' :: '!' :: first :: (more ++ ']' :: text)) (.except (first :: more) :: tokens)

/-- Whole components, each with its separator. -/
def Components (span : List Char) : Prop := span = [] ∨ span.getLast? = some '/'

instance (span : List Char) : Decidable (Components span) := inferInstanceAs (Decidable (_ ∨ _))

section Matching

variable (inClass : List Char → Char → Bool)

/-- The characters that a token for one character stands for; only a literal stands for a separator. -/
def Token.admits : Token → Char → Bool
  | .char letter, other => other = letter
  | .anyChar, other => other ≠ '/'
  | .within letters, other => other ≠ '/' && inClass letters other
  | .except letters, other => other ≠ '/' && !inClass letters other
  | .sequence, _ => false
  | .recursive, _ => false

/-- The texts that tokens stand for. -/
inductive Matches : List Token → List Char → Prop
  | nil : Matches [] []
  | one {token : Token} {letter : Char} {tokens : List Token} {text : List Char} (admits : token.admits inClass letter = true)
    (rest : Matches tokens text) : Matches (token :: tokens) (letter :: text)
  | sequence {run text : List Char} {tokens : List Token} (inside : '/' ∉ run) (rest : Matches tokens text) :
    Matches (.sequence :: tokens) (run ++ text)
  | recursive {span text : List Char} {tokens : List Token} (whole : Components span) (rest : Matches tokens text) :
    Matches (.recursive :: tokens) (span ++ text)
  | last (text : List Char) : Matches [.recursive] text

end Matching

variable {inClass : List Char → Char → Bool} {start : Bool} {text : List Char} {tokens : List Token}

theorem Parses.of_nil (parses : Parses start [] tokens) : tokens = [] := by
  cases parses
  rfl

/-! ## Directories above a match -/

/-- A directory is matched by what stands before a separator of the pattern, or by the whole pattern when it ends with `**`. -/
def Covers (inClass : List Char → Char → Bool) (start : Bool) (text : List Char) (tokens : List Token) (directory : List Char) : Prop :=
  (∃ before after first, text = before ++ '/' :: after ∧ Parses start before first ∧ Matches inClass first directory) ∨
    ∃ before, text = before ++ ['*', '*'] ∧ (before = [] ∧ start = true ∨ before.getLast? = some '/') ∧ Matches inClass tokens directory

/-- One token more before a pattern, and what it matches before the directory. -/
theorem Covers.cons {next : Bool} {directory : List Char} {token : Token} (covers : Covers inClass next text tokens directory) (taken run : List Char)
    (parse : ∀ before after first, text = before ++ '/' :: after → Parses next before first → Parses start (taken ++ before) (token :: first))
    (hit : ∀ first, Matches inClass first directory → Matches inClass (token :: first) (run ++ directory))
    (closed : next = true → taken.getLast? = some '/') : Covers inClass start (taken ++ text) (token :: tokens) (run ++ directory) := by
  rcases covers with ⟨before, after, first, split, parses, covered⟩ | ⟨before, split, opens, covered⟩
  · exact Or.inl ⟨taken ++ before, after, token :: first, by rw [split, List.append_assoc], parse before after first split parses, hit first covered⟩
  · refine Or.inr ⟨taken ++ before, by rw [split, List.append_assoc], Or.inr ?_, hit tokens covered⟩
    rw [List.getLast?_append]
    rcases opens with ⟨rfl, started⟩ | opens
    · rw [List.getLast?_nil, Option.none_or, closed started]
    · rw [opens, Option.some_or]

/-- A token for one character takes the first character of the directory, unless it is the separator behind it. -/
theorem Covers.one {next : Bool} {directory below rest : List Char} {letter : Char} {token : Token} (taken : List Char)
    (ih : ∀ {directory below : List Char}, Matches inClass tokens (directory ++ '/' :: below) → Covers inClass next text tokens directory)
    (parse : ∀ before after first, text = before ++ '/' :: after → Parses next before first → Parses start (taken ++ before) (token :: first))
    (closed : next = true → taken.getLast? = some '/') (same : letter :: rest = directory ++ '/' :: below)
    (admits : token.admits inClass letter = true) (inside : letter = '/' → directory ≠ []) (hit : Matches inClass tokens rest) :
    Covers inClass start (taken ++ text) (token :: tokens) directory := by
  cases directory with
  | nil => exact absurd rfl (inside (List.cons.inj same).1)
  | cons head directory =>
    obtain ⟨rfl, rfl⟩ := List.cons.inj same
    exact (ih hit).cons taken [letter] parse (fun first covered => Matches.one admits covered) closed

/-- The directory above a matched text is covered by the pattern. -/
theorem Parses.covers (parses : Parses start text tokens) {directory below : List Char}
    (hit : Matches inClass tokens (directory ++ '/' :: below)) : Covers inClass start text tokens directory := by
  induction parses generalizing directory below with
  | nil =>
    generalize whole : directory ++ '/' :: below = path at hit
    cases hit
    simp at whole
  | @char start letter text tokens plain rest ih =>
    generalize whole : directory ++ '/' :: below = path at hit
    cases hit with
    | @one _ other _ path admits hit =>
      obtain rfl : other = letter := by simpa [Token.admits] using admits
      by_cases separator : other = '/' ∧ directory = []
      · obtain ⟨rfl, rfl⟩ := separator
        exact Or.inl ⟨[], text, [], rfl, .nil, .nil⟩
      · have closed : decide (other = '/') = true → [other].getLast? = some '/' := by simp
        exact Covers.one [other] ih (fun before after first _ parses => .char plain parses) closed whole.symm admits
          (fun same none => separator ⟨same, none⟩) hit
  | @anyChar start text tokens rest ih =>
    generalize whole : directory ++ '/' :: below = path at hit
    cases hit with
    | @one _ other _ path admits hit =>
      have inside : other ≠ '/' := by simpa [Token.admits] using admits
      exact Covers.one ['?'] ih (fun before after first _ parses => .anyChar parses) nofun whole.symm admits
        (fun same => absurd same inside) hit
  | @sequence start text tokens single rest ih =>
    generalize whole : directory ++ '/' :: below = path at hit
    cases hit with
    | one admits hit => cases admits
    | @sequence run path _ inside hit =>
      obtain ⟨part, rfl, rfl⟩ : ∃ part, directory = run ++ part ∧ path = part ++ '/' :: below := by
        rcases List.append_eq_append_iff.mp whole with ⟨part, ran, below⟩ | beyond
        · cases part with
          | nil => exact ⟨[], by simpa using ran.symm, by simpa using below.symm⟩
          | cons head part =>
            obtain ⟨rfl, -⟩ := List.cons.inj below
            exact absurd (by simp [ran]) inside
        · exact beyond
      refine (ih hit).cons ['*'] run (fun before after first split parses => .sequence ?_ parses) (fun first covered => .sequence inside covered) nofun
      cases before with
      | nil => nofun
      | cons head before => rwa [split] at single
  | recursive rest ih => exact Or.inl ⟨['*', '*'], _, [.recursive], rfl, .last, .last directory⟩
  | last => exact Or.inr ⟨[], rfl, Or.inl ⟨rfl, rfl⟩, .last directory⟩
  | @within start first more text tokens positive closed rest ih =>
    generalize whole : directory ++ '/' :: below = path at hit
    cases hit with
    | @one _ other _ path admits hit =>
      have inside : other ≠ '/' := by
        rintro rfl
        simp [Token.admits] at admits
      have parts (text : List Char) : '[' :: first :: (more ++ ']' :: text) = ('[' :: first :: (more ++ [']'])) ++ text := by simp
      rw [parts]
      exact Covers.one _ ih (fun before after _ _ parses => parts before ▸ .within positive closed parses) nofun whole.symm admits
        (fun same => absurd same inside) hit
  | @except start first more text tokens closed rest ih =>
    generalize whole : directory ++ '/' :: below = path at hit
    cases hit with
    | @one _ other _ path admits hit =>
      have inside : other ≠ '/' := by
        rintro rfl
        simp [Token.admits] at admits
      have parts (text : List Char) : '[' :: '!' :: first :: (more ++ ']' :: text) = ('[' :: '!' :: first :: (more ++ [']'])) ++ text := by simp
      rw [parts]
      exact Covers.one _ ih (fun before after _ _ parses => parts before ▸ .except closed parses) nofun whole.symm admits
        (fun same => absurd same inside) hit

/-! ## Fixed beginnings -/

/-- Letters before the first metacharacter stand for themselves. -/
theorem Parses.literals {letters after : List Char} (parses : Parses start (letters ++ after) tokens) (plain : ∀ letter ∈ letters, letter ∉ metas) :
    ∃ next rest, Parses next after rest ∧ tokens = letters.map .char ++ rest := by
  induction letters generalizing start tokens with
  | nil => exact ⟨start, tokens, parses, rfl⟩
  | cons letter letters ih =>
    rw [List.forall_mem_cons] at plain
    generalize whole : letter :: letters ++ after = text at parses
    cases parses with
    | nil => cases whole
    | char _ parses =>
      obtain ⟨rfl, rfl⟩ := List.cons.inj whole
      obtain ⟨next, rest, parsed, rfl⟩ := ih parses plain.2
      exact ⟨next, rest, parsed, rfl⟩
    | _ => exact absurd (by rw [(List.cons.inj whole).1]; decide) plain.1

theorem Matches.of_nil {path : List Char} (hit : Matches inClass [] path) : path = [] := by
  cases hit
  rfl

theorem Matches.literals {letters path : List Char} (hit : Matches inClass (letters.map .char ++ tokens) path) :
    ∃ rest, path = letters ++ rest ∧ Matches inClass tokens rest := by
  induction letters generalizing path with
  | nil => exact ⟨path, rfl, hit⟩
  | cons letter letters ih =>
    cases hit with
    | @one _ other _ path admits hit =>
      obtain rfl : other = letter := by simpa [Token.admits] using admits
      obtain ⟨rest, rfl, covered⟩ := ih hit
      exact ⟨rest, rfl, covered⟩

/-- A matched text begins with the letters before the first metacharacter, and is these letters when none follows. -/
theorem Parses.fixed {letters after path : List Char} (parses : Parses start (letters ++ after) tokens)
    (plain : ∀ letter ∈ letters, letter ∉ metas) (hit : Matches inClass tokens path) :
    letters <+: path ∧ (after = [] → path = letters) := by
  obtain ⟨next, rest, parsed, rfl⟩ := parses.literals plain
  obtain ⟨tail, rfl, covered⟩ := hit.literals
  refine ⟨List.prefix_append _ _, ?_⟩
  rintro rfl
  obtain rfl := parsed.of_nil
  rw [covered.of_nil, List.append_nil]

/-! ## A parser -/

/-- The text before the first closing bracket and the text behind it. -/
def classEnd : List Char → Option (List Char × List Char)
  | [] => none
  | letter :: text => if letter = ']' then some ([], text) else (classEnd text).map fun (more, after) => (letter :: more, after)

/-- The letters of a class, of which the first may be a bracket, and the text behind the class. -/
def classLetters : List Char → Option (List Char × List Char)
  | [] => none
  | first :: rest => (classEnd rest).map fun (more, after) => (first :: more, after)

/-- The first token, whether a component starts behind it, and the rest of the pattern. -/
def nextToken (start : Bool) : List Char → Option (Token × Bool × List Char)
  | [] => none
  | letter :: text =>
    if letter = '?' then some (.anyChar, false, text)
    else if letter = '*' then
      if text.head? ≠ some '*' then some (.sequence, false, text)
      else if start ∧ text = ['*'] then some (.recursive, false, [])
      else if start ∧ text[1]? = some '/' then some (.recursive, true, text.drop 2)
      else none
    else if letter = '[' then
      if text.head? = some '!' then (classLetters (text.drop 1)).map fun (letters, after) => (.except letters, false, after)
      else (classLetters text).map fun (letters, after) => (.within letters, false, after)
    else some (.char letter, letter = '/', text)

/-- The tokens of a pattern. Every token takes a character, so the length of the pattern is fuel enough. -/
def tokenize : ℕ → Bool → List Char → Option (List Token)
  | _, _, [] => some []
  | 0, _, _ :: _ => none
  | fuel + 1, start, letter :: text => do
    let (token, next, rest) ← nextToken start (letter :: text)
    return token :: (← tokenize fuel next rest)

theorem classEnd_eq_some_iff {more after : List Char} : classEnd text = some (more, after) ↔ ']' ∉ more ∧ text = more ++ ']' :: after := by
  induction text generalizing more with
  | nil => simp [classEnd]
  | cons letter text ih =>
    rw [classEnd]
    split_ifs with closes
    · cases more with
      | nil => simp [closes]
      | cons first more =>
        refine iff_of_false (by simp) ?_
        rintro ⟨inside, whole⟩
        obtain ⟨same, -⟩ := List.cons.inj whole
        exact inside (by rw [← closes, same]; exact List.mem_cons_self)
    · cases more with
      | nil => simp [closes]
      | cons first more =>
        simp only [Option.map_eq_some_iff, Prod.mk.injEq, Prod.exists, List.cons.injEq, List.mem_cons, not_or, List.cons_append]
        constructor
        · rintro ⟨_, _, found, ⟨rfl, rfl⟩, rfl⟩
          obtain ⟨inside, rfl⟩ := ih.mp found
          exact ⟨⟨Ne.symm closes, inside⟩, rfl, rfl⟩
        · rintro ⟨⟨_, inside⟩, rfl, rfl⟩
          exact ⟨more, after, ih.mpr ⟨inside, rfl⟩, ⟨rfl, rfl⟩, rfl⟩

theorem classLetters_eq_some_iff {letters after : List Char} :
    classLetters text = some (letters, after) ↔ ∃ first more, letters = first :: more ∧ ']' ∉ more ∧ text = first :: (more ++ ']' :: after) := by
  cases text with
  | nil => simp [classLetters]
  | cons first rest =>
    simp only [classLetters, Option.map_eq_some_iff, Prod.mk.injEq, Prod.exists, List.cons.injEq]
    constructor
    · rintro ⟨more, _, found, rfl, rfl⟩
      obtain ⟨inside, rfl⟩ := classEnd_eq_some_iff.mp found
      exact ⟨first, more, rfl, inside, rfl, rfl⟩
    · rintro ⟨_, more, rfl, inside, rfl, rfl⟩
      exact ⟨more, after, classEnd_eq_some_iff.mpr ⟨inside, rfl⟩, rfl, rfl⟩

/-- The first token is one of the grammar. -/
theorem Parses.cons {token : Token} {next : Bool} {rest : List Char} (first : nextToken start text = some (token, next, rest))
    (parses : Parses next rest tokens) : Parses start text (token :: tokens) := by
  cases text with
  | nil => cases first
  | cons letter text =>
    rw [nextToken] at first
    split_ifs at first with any many single alone opens class' negated
    · cases first
      exact any ▸ .anyChar parses
    · cases first
      exact many ▸ .sequence single parses
    · cases first
      obtain ⟨rfl, rfl⟩ := alone
      exact parses.of_nil ▸ many ▸ .last
    · cases first
      obtain ⟨rfl, slash⟩ := opens
      match text, single, slash with
      | '*' :: '/' :: text, _, _ => exact many ▸ .recursive parses
      | [], _, slash => cases slash
      | other :: _ :: text, single, slash =>
        obtain rfl : other = '*' := by simpa using single
        obtain rfl := Option.some.inj slash
        exact many ▸ .recursive parses
    · obtain ⟨⟨letters, after⟩, found, same⟩ := Option.map_eq_some_iff.mp first
      cases same
      obtain ⟨head, more, rfl, inside, rest'⟩ := classLetters_eq_some_iff.mp found
      cases text with
      | nil => cases negated
      | cons mark text =>
        obtain rfl := Option.some.inj negated
        obtain rfl : text = head :: (more ++ ']' :: rest) := rest'
        exact class' ▸ .except inside parses
    · obtain ⟨⟨letters, after⟩, found, same⟩ := Option.map_eq_some_iff.mp first
      cases same
      obtain ⟨head, more, rfl, inside, rfl⟩ := classLetters_eq_some_iff.mp found
      exact class' ▸ .within (fun same => negated (by rw [same]; rfl)) inside parses
    · cases first
      exact .char (by simp [metas, any, many, class']) parses

theorem length_nextToken {token : Token} {next : Bool} {rest : List Char} (first : nextToken start text = some (token, next, rest)) :
    rest.length < text.length := by
  have class' {letters after text : List Char} (found : classLetters text = some (letters, after)) : after.length < text.length := by
    obtain ⟨head, more, -, -, rfl⟩ := classLetters_eq_some_iff.mp found
    simp
    omega
  cases text with
  | nil => cases first
  | cons letter text =>
    rw [nextToken] at first
    split_ifs at first
    · cases first
      simp
    · cases first
      simp
    · cases first
      simp
    · cases first
      rw [List.length_drop, List.length_cons]
      omega
    · obtain ⟨⟨letters, after⟩, found, same⟩ := Option.map_eq_some_iff.mp first
      cases same
      have shorter := class' found
      simp at shorter ⊢
      omega
    · obtain ⟨⟨letters, after⟩, found, same⟩ := Option.map_eq_some_iff.mp first
      cases same
      have shorter := class' found
      simp
      omega
    · cases first
      simp

/-- A pattern that parses is empty or begins with its first token. -/
theorem Parses.uncons (parses : Parses start text tokens) :
    text = [] ∧ tokens = [] ∨ ∃ token next rest later, nextToken start text = some (token, next, rest) ∧
      tokens = token :: later ∧ Parses next rest later := by
  cases parses with
  | nil => exact Or.inl ⟨rfl, rfl⟩
  | @char _ letter text tokens plain parses =>
    simp only [metas, List.mem_cons, not_or] at plain
    refine Or.inr ⟨_, _, text, tokens, ?_, rfl, parses⟩
    rw [nextToken, if_neg plain.2.1, if_neg plain.1, if_neg plain.2.2.1]
  | @anyChar _ text tokens parses => exact Or.inr ⟨_, _, text, tokens, rfl, rfl, parses⟩
  | @sequence _ text tokens single parses =>
    refine Or.inr ⟨_, _, text, tokens, ?_, rfl, parses⟩
    rw [nextToken, if_neg (by decide), if_pos rfl, if_pos single]
  | @recursive text tokens parses =>
    refine Or.inr ⟨_, _, text, tokens, ?_, rfl, parses⟩
    simp [nextToken]
  | last => exact Or.inr ⟨_, _, [], [], rfl, rfl, .nil⟩
  | @within _ first more text tokens positive inside parses =>
    have found : classLetters (first :: (more ++ ']' :: text)) = some (first :: more, text) :=
      classLetters_eq_some_iff.mpr ⟨first, more, rfl, inside, rfl⟩
    refine Or.inr ⟨_, _, text, tokens, ?_, rfl, parses⟩
    simp [nextToken, positive, found]
  | @except _ first more text tokens inside parses =>
    have found : classLetters (first :: (more ++ ']' :: text)) = some (first :: more, text) :=
      classLetters_eq_some_iff.mpr ⟨first, more, rfl, inside, rfl⟩
    refine Or.inr ⟨_, _, text, tokens, ?_, rfl, parses⟩
    simp [nextToken, found]

theorem tokenize_eq_some_iff {fuel : ℕ} (enough : text.length ≤ fuel) : tokenize fuel start text = some tokens ↔ Parses start text tokens := by
  induction fuel generalizing start text tokens with
  | zero =>
    obtain rfl := List.length_eq_zero_iff.mp (Nat.le_zero.mp enough)
    exact ⟨fun parsed => Option.some.inj parsed ▸ .nil, fun parses => by rw [parses.of_nil]; rfl⟩
  | succ fuel ih =>
    cases text with
    | nil => exact ⟨fun parsed => Option.some.inj parsed ▸ .nil, fun parses => by rw [parses.of_nil]; rfl⟩
    | cons letter text =>
      rw [tokenize]
      constructor
      · intro parsed
        obtain ⟨⟨token, next, rest⟩, first, parsed⟩ := Option.bind_eq_some_iff.mp parsed
        obtain ⟨later, tail, same⟩ := Option.bind_eq_some_iff.mp parsed
        obtain rfl := Option.some.inj same
        have shorter := length_nextToken first
        exact .cons first ((ih (by omega)).mp tail)
      · intro parses
        rcases parses.uncons with ⟨empty, -⟩ | ⟨token, next, rest, later, first, rfl, parsed⟩
        · cases empty
        · have shorter := length_nextToken first
          have tail : tokenize fuel next rest = some later := (ih (by omega)).mpr parsed
          simp [first, tail]

/-! ## A matcher -/

/-- Decide a match: a run is tried at every length. -/
def accepts (inClass : List Char → Char → Bool) : List Token → List Char → Bool
  | [], path => path = []
  | .sequence :: tokens, path => (List.range (path.length + 1)).any fun taken => '/' ∉ path.take taken && accepts inClass tokens (path.drop taken)
  | .recursive :: tokens, path =>
    tokens = [] || (List.range (path.length + 1)).any fun taken => Components (path.take taken) && accepts inClass tokens (path.drop taken)
  | token :: tokens, letter :: path => token.admits inClass letter && accepts inClass tokens path
  | _ :: _, [] => false

/-- A cut of a list is one at a length of its beginning. -/
theorem any_range_take_drop (decides : List Char → List Char → Bool) {path : List Char} :
    ((List.range (path.length + 1)).any fun taken => decides (path.take taken) (path.drop taken)) = true ↔
      ∃ run rest, path = run ++ rest ∧ decides run rest = true := by
  rw [List.any_eq_true]
  constructor
  · rintro ⟨taken, -, decided⟩
    exact ⟨_, _, (List.take_append_drop taken path).symm, decided⟩
  · rintro ⟨run, rest, rfl, decided⟩
    refine ⟨run.length, List.mem_range.mpr (Nat.lt_succ_of_le (by rw [List.length_append]; exact Nat.le_add_right _ _)), ?_⟩
    rwa [List.take_left, List.drop_left]

theorem accepts_cons_iff {token : Token} {path : List Char} (single : token ≠ .sequence ∧ token ≠ .recursive) :
    accepts inClass (token :: tokens) path = true ↔
      ∃ letter rest, path = letter :: rest ∧ token.admits inClass letter = true ∧ accepts inClass tokens rest = true := by
  cases path with
  | nil => cases token <;> simp_all [accepts]
  | cons letter rest =>
    have unfolded : accepts inClass (token :: tokens) (letter :: rest) = (token.admits inClass letter && accepts inClass tokens rest) := by
      cases token <;> simp_all [accepts]
    rw [unfolded, Bool.and_eq_true]
    constructor
    · intro accepted
      exact ⟨letter, rest, rfl, accepted⟩
    · rintro ⟨_, _, same, accepted⟩
      cases same
      exact accepted

theorem accepts_iff {path : List Char} : accepts inClass tokens path = true ↔ Matches inClass tokens path := by
  induction tokens generalizing path with
  | nil =>
    constructor
    · intro empty
      obtain rfl : path = [] := by simpa [accepts] using empty
      exact .nil
    · intro hit
      simp [accepts, hit.of_nil]
  | cons token tokens ih =>
    by_cases single : token ≠ .sequence ∧ token ≠ .recursive
    · rw [accepts_cons_iff single]
      constructor
      · rintro ⟨letter, rest, rfl, admits, accepted⟩
        exact .one admits (ih.mp accepted)
      · intro hit
        cases hit with
        | @one _ letter _ rest admits hit => exact ⟨letter, rest, rfl, admits, ih.mpr hit⟩
        | sequence => exact absurd rfl single.1
        | recursive | last => exact absurd rfl single.2
    · rw [not_and_or, not_ne_iff, not_ne_iff] at single
      rcases single with rfl | rfl
      · rw [accepts, any_range_take_drop fun run rest => '/' ∉ run && accepts inClass tokens rest]
        constructor
        · rintro ⟨run, rest, rfl, accepted⟩
          obtain ⟨inside, accepted⟩ := Bool.and_eq_true_iff.mp accepted
          exact .sequence (of_decide_eq_true inside) (ih.mp accepted)
        · intro hit
          cases hit with
          | one admits => cases admits
          | @sequence run rest _ inside hit => exact ⟨run, rest, rfl, by simp [inside, ih.mpr hit]⟩
      · rw [accepts, Bool.or_eq_true, any_range_take_drop fun span rest => Components span && accepts inClass tokens rest]
        constructor
        · rintro (alone | ⟨span, rest, rfl, accepted⟩)
          · obtain rfl := of_decide_eq_true alone
            exact .last path
          · obtain ⟨whole, accepted⟩ := Bool.and_eq_true_iff.mp accepted
            exact .recursive (of_decide_eq_true whole) (ih.mp accepted)
        · intro hit
          cases hit with
          | one admits => cases admits
          | @recursive span rest _ whole hit => exact Or.inr ⟨span, rest, rfl, by simp [whole, ih.mpr hit]⟩
          | last => exact Or.inl (by simp)

/-- The letters of a class, where a dash between two letters stands for all letters from one to the other. -/
def inLetters : List Char → Char → Bool
  | first :: '-' :: last :: letters, letter => first ≤ letter && letter ≤ last || inLetters letters letter
  | first :: letters, letter => first = letter || inLetters letters letter
  | [], _ => false

end Glob

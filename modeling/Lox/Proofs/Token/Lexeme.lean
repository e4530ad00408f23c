import Lox.Token.Lexer

/-!
# What tokens and comments are

The words of the language by what they look like, and how a source text is made of them: each token
is a stretch of text that spells it and that cannot be made longer, and between tokens there are
only blanks and comments.  Where no token can be read, a stretch of text is invalid: a character
that begins no token, a string without an end or a block comment without one.

    Tiles before text tokens      the tokens are those of `text`, which stands behind `before`

A token tells what its text is, and nothing else (`Spells.unique`), and in one place of a text
there is no more than one lexeme (`Lexeme.unique`).  Nothing here reads anything: these are the
rules that reading is compared with.
-/

namespace Lox

/-- The place behind a text: how many bytes it has, on which line it ends, and behind how many
characters there. -/
def Position.behind (text : List Char) : Position where
  byte := (String.ofList text).utf8ByteSize
  line := 1 + text.count '\n'
  column := 1 + (text.reverse.takeWhile (· ≠ '\n')).length

/-- Nothing comes, or a new line. -/
def NewLine (tail : List Char) : Prop := ∀ ch, tail.head? = some ch → ch = '\n'

namespace Token

/-! ## Comments -/

/-- The text begins with the opening or the closing delimiter of block comments. -/
def StartsDelimiter (text : List Char) : Prop :=
  ∃ rest, text = '/' :: '*' :: rest ∨ text = '*' :: '/' :: rest

/-- What can stand in a block comment up to its end: nested comments, and characters with which no
delimiter begins. -/
inductive InComment : List Char → Prop
  | nil : InComment []
  | char {c : Char} {text : List Char} :
      ¬StartsDelimiter (c :: text ++ ['*', '/']) → InComment text → InComment (c :: text)
  | nested {inner text : List Char} :
      InComment inner → InComment text →
      InComment ('/' :: '*' :: inner ++ '*' :: '/' :: text)

/-- What can stand between tokens, in front of `rest`. -/
inductive Gap (rest : List Char) : List Char → Prop
  | nil : Gap rest []
  | blank {c : Char} {gap : List Char} :
      Text.isBlank c = true → Gap rest gap → Gap rest (c :: gap)
  /-- A line comment ends in front of the end of its line. -/
  | line {body gap : List Char} :
      '\n' ∉ body → NewLine (gap ++ rest) → Gap rest gap → Gap rest ('/' :: '/' :: body ++ gap)
  | block {inner gap : List Char} :
      InComment inner → Gap rest gap → Gap rest ('/' :: '*' :: inner ++ '*' :: '/' :: gap)

/-- A comment begins with the text, or would begin if it had an end. -/
def StartsComment (text : List Char) : Prop :=
  ∃ rest, text = '/' :: '/' :: rest ∨ text = '/' :: '*' :: rest

/-! ## Lexemes -/

/-- The text is a token of the kind. -/
inductive Spells : List Char → Kind → Prop
  | symbol (s : Symbol) : Spells s.text.toList (.symbol s)
  | keyword (k : Keyword) : Spells k.text.toList (.keyword k)
  | name {c : Char} {cs : List Char} :
      isNameStart c = true → (∀ d ∈ cs, isNameChar d = true) →
      (∀ k : Keyword, k.text.toList ≠ c :: cs) →
      Spells (c :: cs) (.identifier (String.ofList (c :: cs)))
  | integer {digits : List Char} :
      digits ≠ [] → (∀ d ∈ digits, d.isDigit = true) →
      Spells digits (.number (Number.ofDigits digits 0))
  | decimal {whole fraction : List Char} :
      whole ≠ [] → (∀ d ∈ whole, d.isDigit = true) →
      fraction ≠ [] → (∀ d ∈ fraction, d.isDigit = true) →
      Spells (whole ++ '.' :: fraction)
        (.number (Number.ofDigits (whole ++ fraction) fraction.length))
  | string {body : List Char} :
      '"' ∉ body → Spells ('"' :: body ++ ['"']) (.string (String.ofList body))

/-- In front of `rest` the text is a token that cannot be made longer, or else it is invalid. -/
inductive Lexeme (rest : List Char) : List Char → Kind → Prop
  | token {text : List Char} {kind : Kind} :
      Spells text kind →
      (∀ more rest' kind', more ≠ [] → rest = more ++ rest' → ¬Spells (text ++ more) kind') →
      ¬StartsComment (text ++ rest) → Lexeme rest text kind
  | character {c : Char} :
      Text.isBlank c = false → (∀ cs kind, ¬Spells (c :: cs) kind) →
      Lexeme rest [c] (.invalid (.unexpectedCharacter c))
  | string {body : List Char} :
      '"' ∉ body → rest = [] → Lexeme rest ('"' :: body) (.invalid .unterminatedString)
  | comment {body : List Char} :
      (∀ inner behind, InComment inner → body ≠ inner ++ '*' :: '/' :: behind) → rest = [] →
      Lexeme rest ('/' :: '*' :: body) (.invalid .unterminatedComment)

/-- The tokens of a text that stands behind another one.  The last one is its end. -/
inductive Tiles : List Char → List Char → List Token → Prop
  | endOfFile {before gap : List Char} :
      Gap [] gap →
      Tiles before gap [⟨.endOfFile, ⟨.behind (before ++ gap), .behind (before ++ gap)⟩⟩]
  | lexeme {before gap text rest : List Char} {kind : Kind} {tokens : List Token} :
      Gap (text ++ rest) gap → Lexeme rest text kind →
      Tiles (before ++ gap ++ text) rest tokens →
      Tiles before (gap ++ text ++ rest)
        (⟨kind, ⟨.behind (before ++ gap), .behind (before ++ gap ++ text)⟩⟩ :: tokens)

/-! ## What a token begins with -/

theorem isNameChar_of_isNameStart {c : Char} (h : isNameStart c = true) : isNameChar c = true := by
  simp only [isNameStart, isNameChar, Char.isAlphanum, Bool.or_eq_true] at *
  rcases h with h | h <;> simp [h]

theorem isAlpha_iff {c : Char} :
    c.isAlpha = true ↔ (65 ≤ c.toNat ∧ c.toNat ≤ 90) ∨ (97 ≤ c.toNat ∧ c.toNat ≤ 122) := by
  have hupper : c.isUpper = decide (65 ≤ c.toNat ∧ c.toNat ≤ 90) := rfl
  have hlower : c.isLower = (decide (97 ≤ c.toNat) && decide (c.toNat ≤ 122)) := rfl
  show (c.isUpper || c.isLower) = true ↔ _
  rw [hupper, hlower, Bool.or_eq_true, Bool.and_eq_true, decide_eq_true_eq, decide_eq_true_eq,
    decide_eq_true_eq]

theorem isDigit_iff {c : Char} : c.isDigit = true ↔ 48 ≤ c.toNat ∧ c.toNat ≤ 57 := by
  have hdigit : c.isDigit = (decide (48 ≤ c.toNat) && decide (c.toNat ≤ 57)) := rfl
  rw [hdigit, Bool.and_eq_true, decide_eq_true_eq, decide_eq_true_eq]

theorem isNameStart_of_isDigit {c : Char} (h : c.isDigit = true) : isNameStart c = false := by
  rw [← Bool.not_eq_true, isNameStart, Bool.or_eq_true, isAlpha_iff, beq_iff_eq]
  rw [isDigit_iff] at h
  rintro (hs | rfl)
  · omega
  · revert h
    decide

theorem classes_of_quote : isNameStart '"' = false ∧ Char.isDigit '"' = false := by decide

/-- A symbol begins with the character. -/
def isSymbolStart (c : Char) : Bool := "()\x7b\x7d[]+-*/%.,;?:!=<>".toList.contains c

theorem of_isSymbolStart {c : Char} (h : isSymbolStart c = true) :
    c.isDigit = false ∧ isNameStart c = false ∧ Text.isBlank c = false ∧ c ≠ '"' := by
  have hall : ("()\x7b\x7d[]+-*/%.,;?:!=<>".toList.all fun c =>
      !c.isDigit && !isNameStart c && !Text.isBlank c && c != '"') = true := by decide
  have hc := List.all_eq_true.1 hall c (List.contains_iff_mem.1 h)
  simpa [and_assoc] using hc

theorem toList_symbol (s : Symbol) :
    ∃ c cs, s.text.toList = c :: cs ∧ isSymbolStart c = true := by
  cases s <;> exact ⟨_, _, rfl, by decide⟩

theorem toList_keyword (k : Keyword) : ∃ c cs, k.text.toList = c :: cs ∧
    isNameStart c = true ∧ ∀ d ∈ cs, isNameChar d = true := by
  cases k <;> exact ⟨_, _, rfl, by decide, List.all_eq_true.1 (by decide)⟩

/-- What a text that begins with a letter is: a keyword or a name. -/
inductive SpellsName (text : List Char) : Kind → Prop
  | keyword {k : Keyword} : k.text.toList = text → SpellsName text (.keyword k)
  | name : (∀ k : Keyword, k.text.toList ≠ text) →
      SpellsName text (.identifier (String.ofList text))

/-- What a text that begins with a digit is. -/
inductive SpellsNumber (text : List Char) : Kind → Prop
  | integer : (∀ d ∈ text, d.isDigit = true) →
      SpellsNumber text (.number (Number.ofDigits text 0))
  | decimal {whole fraction : List Char} : text = whole ++ '.' :: fraction →
      (∀ d ∈ whole, d.isDigit = true) → (∀ d ∈ fraction, d.isDigit = true) → fraction ≠ [] →
      SpellsNumber text (.number (Number.ofDigits (whole ++ fraction) fraction.length))

/-- Which kind of token a text is depends on what it begins with. -/
inductive Begins (c : Char) (cs : List Char) : Kind → Prop
  | symbol {s : Symbol} : isSymbolStart c = true → s.text.toList = c :: cs → Begins c cs (.symbol s)
  | name {kind : Kind} : isNameStart c = true → (∀ d ∈ cs, isNameChar d = true) →
      SpellsName (c :: cs) kind → Begins c cs kind
  | number {kind : Kind} : c.isDigit = true → SpellsNumber (c :: cs) kind → Begins c cs kind
  | string {body : List Char} : c = '"' → cs = body ++ ['"'] → '"' ∉ body →
      Begins c cs (.string (String.ofList body))

variable {text rest : List Char} {kind kind' : Kind} {c : Char} {cs : List Char}

theorem Spells.exists_cons (h : Spells text kind) : ∃ c cs, text = c :: cs ∧ Begins c cs kind := by
  cases h with
  | symbol s =>
    obtain ⟨c, cs, heq, hc⟩ := toList_symbol s
    exact ⟨c, cs, heq, .symbol hc heq⟩
  | keyword k =>
    obtain ⟨c, cs, heq, hc, hcs⟩ := toList_keyword k
    exact ⟨c, cs, heq, .name hc hcs (.keyword heq)⟩
  | name hc hcs hk => exact ⟨_, _, rfl, .name hc hcs (.name hk)⟩
  | integer hne hd =>
    obtain ⟨c, cs, rfl⟩ := List.exists_cons_of_ne_nil hne
    exact ⟨c, cs, rfl, .number (hd c List.mem_cons_self) (.integer hd)⟩
  | decimal hw hwd hf hfd =>
    obtain ⟨c, cs, rfl⟩ := List.exists_cons_of_ne_nil hw
    exact ⟨c, _, rfl, .number (hwd c List.mem_cons_self) (.decimal rfl hwd hfd hf)⟩
  | string hb => exact ⟨_, _, rfl, .string rfl rfl hb⟩

theorem Spells.begins (h : Spells (c :: cs) kind) : Begins c cs kind := by
  obtain ⟨c', cs', heq, hb⟩ := h.exists_cons
  cases heq
  exact hb

/-- Reads the kind of character off the kind of token, and so its text. -/
theorem Begins.of_symbolStart (h : Begins c cs kind) (hc : isSymbolStart c = true) :
    ∃ s, kind = .symbol s ∧ s.text.toList = c :: cs := by
  obtain ⟨hd, hn, -, hq⟩ := of_isSymbolStart hc
  cases h with
  | symbol _ heq => exact ⟨_, rfl, heq⟩
  | name hc' => rw [hn] at hc'; cases hc'
  | number hc' => rw [hd] at hc'; cases hc'
  | string hc' => exact absurd hc' hq

theorem Begins.of_nameStart (h : Begins c cs kind) (hc : isNameStart c = true) :
    (∀ d ∈ cs, isNameChar d = true) ∧ SpellsName (c :: cs) kind := by
  cases h with
  | symbol hc' => rw [(of_isSymbolStart hc').2.1] at hc; cases hc
  | name _ hcs hs => exact ⟨hcs, hs⟩
  | number hc' => rw [isNameStart_of_isDigit hc'] at hc; cases hc
  | string hc' => subst hc'; rw [classes_of_quote.1] at hc; cases hc

theorem Begins.of_digit (h : Begins c cs kind) (hc : c.isDigit = true) :
    SpellsNumber (c :: cs) kind := by
  cases h with
  | symbol hc' => rw [(of_isSymbolStart hc').1] at hc; cases hc
  | name hc' => rw [isNameStart_of_isDigit hc] at hc'; cases hc'
  | number _ hs => exact hs
  | string hc' => subst hc'; rw [classes_of_quote.2] at hc; cases hc

theorem Begins.of_quote (h : Begins '"' cs kind) :
    ∃ body, cs = body ++ ['"'] ∧ '"' ∉ body ∧ kind = .string (String.ofList body) := by
  cases h with
  | symbol hc' => exact absurd rfl (of_isSymbolStart hc').2.2.2
  | name hc' => rw [classes_of_quote.1] at hc'; cases hc'
  | number hc' => rw [classes_of_quote.2] at hc'; cases hc'
  | string _ heq hb => exact ⟨_, heq, hb, rfl⟩

/-! ## What a token tells -/

theorem symbol_eq_of_text {s t : Symbol} (h : s.text.toList = t.text.toList) : s = t := by
  cases s <;> cases t <;> first | rfl | exact absurd h (by decide)

theorem keyword_eq_of_text {k l : Keyword} (h : k.text.toList = l.text.toList) : k = l := by
  have hk := Keyword.ofText?_text k
  rw [String.toList_inj.1 h, Keyword.ofText?_text] at hk
  exact (Option.some.inj hk).symm

theorem SpellsName.unique (h : SpellsName text kind) (h' : SpellsName text kind') :
    kind = kind' := by
  cases h with
  | keyword hk =>
    cases h' with
    | keyword hk' => rw [keyword_eq_of_text (hk.trans hk'.symm)]
    | name hn => exact absurd hk (hn _)
  | name hn =>
    cases h' with
    | keyword hk => exact absurd hk (hn _)
    | name => rfl

/-- What is behind the digits that a text begins with is told by the text. -/
theorem digits_unique {xs ys us vs : List Char} {a b : Char} (h : xs ++ a :: us = ys ++ b :: vs)
    (hx : ∀ d ∈ xs, d.isDigit = true) (hy : ∀ d ∈ ys, d.isDigit = true)
    (ha : a.isDigit = false) (hb : b.isDigit = false) : xs = ys ∧ a = b ∧ us = vs := by
  have htake := congrArg (List.takeWhile Char.isDigit) h
  have hdrop := congrArg (List.dropWhile Char.isDigit) h
  rw [List.takeWhile_append_of_pos hx, List.takeWhile_append_of_pos hy] at htake
  rw [List.dropWhile_append_of_pos hx, List.dropWhile_append_of_pos hy] at hdrop
  simpa [ha, hb] using And.intro htake hdrop

theorem isDigit_point : Char.isDigit '.' = false := by decide

theorem SpellsNumber.unique (h : SpellsNumber text kind) (h' : SpellsNumber text kind') :
    kind = kind' := by
  have hpoint {whole fraction : List Char} :
      ¬∀ d ∈ whole ++ '.' :: fraction, Char.isDigit d = true := fun hd => by
    have hpoint := hd '.' (by simp)
    rw [isDigit_point] at hpoint
    cases hpoint
  cases h with
  | integer hd =>
    cases h' with
    | integer => rfl
    | decimal heq => exact absurd (heq ▸ hd) hpoint
  | decimal heq hw =>
    subst heq
    cases h' with
    | integer hd => exact absurd hd hpoint
    | decimal heq hw' =>
      obtain ⟨rfl, -, rfl⟩ := digits_unique heq hw hw' isDigit_point isDigit_point
      rfl

/-- The kind of a token, with all that it carries, is told by its text. -/
theorem Spells.unique (h : Spells text kind) (h' : Spells text kind') : kind = kind' := by
  obtain ⟨c, cs, rfl, hb⟩ := h.exists_cons
  have hb' := h'.begins
  cases hb with
  | symbol hc heq =>
    obtain ⟨s, rfl, heq'⟩ := hb'.of_symbolStart hc
    rw [symbol_eq_of_text (heq.trans heq'.symm)]
  | name hc _ hs => exact hs.unique (hb'.of_nameStart hc).2
  | number hc hs => exact hs.unique (hb'.of_digit hc)
  | string hc heq =>
    subst hc
    obtain ⟨body, heq', -, rfl⟩ := hb'.of_quote
    rw [List.append_cancel_right (heq.symm.trans heq')]

/-! ## What a lexeme begins with -/

theorem isBlank_of_isNameChar {c : Char} (h : isNameChar c = true) : Text.isBlank c = false := by
  rw [← Bool.not_eq_true]
  intro hb
  rw [isNameChar, Char.isAlphanum, Bool.or_eq_true, Bool.or_eq_true, isAlpha_iff, isDigit_iff,
    beq_iff_eq] at h
  simp only [Text.isBlank, Text.blankRanges, List.any_cons, List.any_nil, Bool.or_false,
    Bool.or_eq_true, Bool.and_eq_true, decide_eq_true_eq] at hb
  rcases h with (h | h) | rfl
  · omega
  · omega
  · revert hb
    decide

theorem Begins.not_blank (h : Begins c cs kind) : Text.isBlank c = false := by
  cases h with
  | symbol hc => exact (of_isSymbolStart hc).2.2.1
  | name hc => exact isBlank_of_isNameChar (isNameChar_of_isNameStart hc)
  | number hc => exact isBlank_of_isNameChar (by simp [isNameChar, Char.isAlphanum, hc])
  | string hc => subst hc; decide

theorem Lexeme.exists_cons (h : Lexeme rest text kind) :
    ∃ c cs, text = c :: cs ∧ Text.isBlank c = false := by
  cases h with
  | token hs =>
    obtain ⟨c, cs, rfl, hb⟩ := hs.exists_cons
    exact ⟨c, cs, rfl, hb.not_blank⟩
  | character hc => exact ⟨_, _, rfl, hc⟩
  | string => exact ⟨_, _, rfl, by decide⟩
  | comment => exact ⟨_, _, rfl, by decide⟩

theorem spells_slash : Spells ['/'] (.symbol .slash) := .symbol .slash

theorem spells_quotes : Spells ['"', '"'] (.string (String.ofList [])) := .string List.not_mem_nil

/-- A lexeme is no line comment. -/
theorem Lexeme.not_line (h : Lexeme rest text kind) {more : List Char} :
    text ++ rest ≠ '/' :: '/' :: more := by
  intro heq
  cases h with
  | token _ _ hc => exact hc ⟨more, .inl heq⟩
  | character _ hc => exact hc [] _ ((List.cons.inj heq).1 ▸ spells_slash)
  | string => exact absurd (List.cons.inj heq).1 (by decide)
  | comment => exact absurd (List.cons.inj (List.cons.inj heq).2).1 (by decide)

/-- A lexeme is no block comment with an end. -/
theorem Lexeme.not_block (h : Lexeme rest text kind) {inner more : List Char}
    (hi : InComment inner) : text ++ rest ≠ '/' :: '*' :: inner ++ '*' :: '/' :: more := by
  intro heq
  cases h with
  | token _ _ hc => exact hc ⟨_, .inr heq⟩
  | character _ hc => exact hc [] _ ((List.cons.inj heq).1 ▸ spells_slash)
  | string => exact absurd (List.cons.inj heq).1 (by decide)
  | comment hc hrest =>
    subst hrest
    rw [List.append_nil] at heq
    exact hc inner more hi (List.cons.inj (List.cons.inj heq).2).2

/-! ## One lexeme in one place -/

variable {text' rest' body : List Char}

theorem Lexeme.of_character (h : Lexeme rest text kind) (heq : text ++ rest = c :: cs)
    (hc : ∀ cs kind, ¬Spells (c :: cs) kind) :
    text = [c] ∧ rest = cs ∧ kind = .invalid (.unexpectedCharacter c) := by
  cases h with
  | token hs =>
    obtain ⟨d, ds, rfl, -⟩ := hs.exists_cons
    exact absurd hs ((List.cons.inj heq).1 ▸ hc ds kind)
  | character =>
    obtain ⟨rfl, rfl⟩ := List.cons.inj heq
    exact ⟨rfl, rfl, rfl⟩
  | string => exact absurd spells_quotes ((List.cons.inj heq).1 ▸ hc _ _)
  | comment => exact absurd spells_slash ((List.cons.inj heq).1 ▸ hc _ _)

theorem Lexeme.of_string (h : Lexeme rest text kind) (heq : text ++ rest = '"' :: body)
    (hb : '"' ∉ body) :
    text = '"' :: body ∧ rest = [] ∧ kind = .invalid .unterminatedString := by
  cases h with
  | token hs =>
    obtain ⟨d, ds, rfl, -⟩ := hs.exists_cons
    obtain ⟨rfl, rfl⟩ := List.cons.inj heq
    obtain ⟨inner, rfl, -⟩ := hs.begins.of_quote
    exact absurd (by simp) hb
  | character _ hc =>
    exact absurd spells_quotes ((List.cons.inj heq).1 ▸ hc _ _)
  | string _ hrest =>
    subst hrest
    rw [List.append_nil] at heq
    exact ⟨heq, rfl, rfl⟩
  | comment => exact absurd (List.cons.inj heq).1 (by decide)

theorem Lexeme.of_comment (h : Lexeme rest text kind) (heq : text ++ rest = '/' :: '*' :: body) :
    text = '/' :: '*' :: body ∧ rest = [] ∧ kind = .invalid .unterminatedComment := by
  cases h with
  | token _ _ hc => exact absurd ⟨body, .inr heq⟩ hc
  | character _ hc => exact absurd spells_slash ((List.cons.inj heq).1 ▸ hc _ _)
  | string => exact absurd (List.cons.inj heq).1 (by decide)
  | comment _ hrest =>
    subst hrest
    rw [List.append_nil] at heq
    exact ⟨heq, rfl, rfl⟩

/-- In front of the same text there are not two lexemes. -/
theorem Lexeme.unique (h : Lexeme rest text kind) (h' : Lexeme rest' text' kind')
    (heq : text ++ rest = text' ++ rest') : text = text' ∧ rest = rest' ∧ kind = kind' := by
  cases h' with
  | character _ hc => exact h.of_character heq hc
  | string hb hrest =>
    subst hrest
    rw [List.append_nil] at heq
    exact h.of_string heq hb
  | comment _ hrest =>
    subst hrest
    rw [List.append_nil] at heq
    exact h.of_comment heq
  | token hs' hlong' hc' =>
    have h' := Lexeme.token hs' hlong' hc'
    cases h with
    | character _ hc =>
      obtain ⟨rfl, rfl, rfl⟩ := h'.of_character heq.symm hc
      exact ⟨rfl, rfl, rfl⟩
    | string hb hrest =>
      subst hrest
      rw [List.append_nil] at heq
      obtain ⟨rfl, rfl, rfl⟩ := h'.of_string heq.symm hb
      exact ⟨rfl, rfl, rfl⟩
    | comment _ hrest =>
      subst hrest
      rw [List.append_nil] at heq
      obtain ⟨rfl, rfl, rfl⟩ := h'.of_comment heq.symm
      exact ⟨rfl, rfl, rfl⟩
    | token hs hlong _ =>
      rcases List.append_eq_append_iff.1 heq with ⟨more, rfl, hrest⟩ | ⟨more, rfl, hrest⟩
      · cases more with
        | nil =>
          rw [List.append_nil] at hs' ⊢
          exact ⟨rfl, hrest, hs.unique hs'⟩
        | cons d ds => exact absurd hs' (hlong _ _ _ (List.cons_ne_nil d ds) hrest)
      · cases more with
        | nil =>
          rw [List.append_nil] at hs ⊢
          exact ⟨rfl, hrest.symm, hs.unique hs'⟩
        | cons d ds => exact absurd hs (hlong' _ _ _ (List.cons_ne_nil d ds) hrest)

/-! ## What a lexeme tells -/

theorem Lexeme.kind_of_string (h : Lexeme rest ('"' :: body) kind) (hb : '"' ∉ body) :
    kind = .invalid .unterminatedString := by
  cases h with
  | token hs =>
    obtain ⟨inner, rfl, -⟩ := hs.begins.of_quote
    exact absurd (by simp) hb
  | character _ hc => exact absurd spells_quotes (hc _ _)
  | string => rfl

theorem Lexeme.kind_of_comment (h : Lexeme rest ('/' :: '*' :: body) kind) :
    kind = .invalid .unterminatedComment := by
  cases h with
  | token _ _ hc => exact absurd ⟨body ++ rest, .inr rfl⟩ hc
  | comment => rfl

/-- The same text is the same lexeme, whatever comes behind it. -/
theorem Lexeme.kind_eq (h : Lexeme rest text kind) (h' : Lexeme rest' text kind') :
    kind = kind' := by
  cases h with
  | token hs hlong hc =>
    cases h' with
    | token hs' => exact hs.unique hs'
    | character _ hc' => exact absurd hs (hc' _ _)
    | string hb => exact (Lexeme.token hs hlong hc).kind_of_string hb
    | comment => exact (Lexeme.token hs hlong hc).kind_of_comment
  | character _ hc => exact (h'.of_character rfl hc).2.2.symm
  | string hb => exact (h'.kind_of_string hb).symm
  | comment => exact h'.kind_of_comment.symm

end Token

end Lox

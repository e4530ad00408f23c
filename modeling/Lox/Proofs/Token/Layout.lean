import Mathlib.Data.List.Forall2
import Lox.Proofs.Token.Tiling

/-!
# Layout

Texts that are made of the same tokens in the same order are read as these tokens, whatever stands
between them, as long as it begins with a blank.  For no token but a string, which tells its end
itself, goes on with a blank or a semicolon, nor does a comment begin with one:

    Lexeme (inside ++ after) text kind → after' is empty or begins with a break →
      Lexeme (inside ++ after') text kind                               (Lexeme.before_break)

Of what stands between tokens, blanks and comments that have an end are so in front of any text.
-/

namespace Lox

namespace Token

variable {text rest inside after after' more : List Char} {kind kind' : Kind}

/-! ## What no token goes on with -/

def isBreak (c : Char) : Bool := Text.isBlank c || c == ';'

theorem isBreak_of_isBlank {c : Char} (h : Text.isBlank c = true) : isBreak c = true := by
  rw [isBreak, h, Bool.true_or]

theorem isBreak_of_isNameChar {c : Char} (h : isNameChar c = true) : isBreak c = false := by
  rw [isBreak, isBlank_of_isNameChar h, Bool.false_or, beq_eq_false_iff_ne]
  rintro rfl
  exact absurd h (by decide)

theorem isBreak_of_mem_tail_symbol (s : Symbol) {c : Char} (h : c ∈ s.text.toList.tail) :
    isBreak c = false := by
  have hall : (s.text.toList.tail.all fun c => !isBreak c) = true := by cases s <;> decide
  simpa using List.all_eq_true.1 hall c h

theorem SpellsNumber.isBreak (h : SpellsNumber text kind) {c : Char} (hc : c ∈ text) :
    isBreak c = false := by
  have hdigit {c : Char} (h : c.isDigit = true) : Token.isBreak c = false :=
    isBreak_of_isNameChar (isNameChar_of_isDigit h)
  cases h with
  | integer hd => exact hdigit (hd c hc)
  | decimal heq hw hf =>
    subst heq
    rcases List.mem_append.1 hc with hc | hc
    · exact hdigit (hw c hc)
    · rcases List.mem_cons.1 hc with rfl | hc
      · decide
      · exact hdigit (hf c hc)

/-- A token that can be made longer is not made so by a break. -/
theorem Spells.isBreak (h : Spells text kind) (h' : Spells (text ++ more) kind') {d : Char}
    (hd : d ∈ more) : isBreak d = false := by
  obtain ⟨c, cs, rfl, hb⟩ := h.exists_cons
  have hb' : Begins c (cs ++ more) kind' := h'.begins
  cases hb with
  | symbol hc =>
    obtain ⟨s, -, heq⟩ := hb'.of_symbolStart hc
    refine isBreak_of_mem_tail_symbol s ?_
    rw [heq]
    exact List.mem_append_right cs hd
  | name hc =>
    exact isBreak_of_isNameChar ((hb'.of_nameStart hc).1 d (List.mem_append_right cs hd))
  | number hc =>
    exact (hb'.of_digit hc).isBreak (List.mem_cons_of_mem c (List.mem_append_right cs hd))
  | @string body hc heq =>
    subst hc heq
    -- behind the closing quote there is nothing more of a string
    obtain ⟨body', heq, hquote, -⟩ := hb'.of_quote
    obtain rfl | ⟨most, e, rfl⟩ := more.eq_nil_or_concat
    · cases hd
    · rw [List.concat_eq_append, ← List.append_assoc] at heq
      have hbody : body ++ ['"'] ++ most = body' := (List.append_inj' heq rfl).1
      exact absurd (by simp [← hbody]) hquote

/-- A valid lexeme is one wherever what comes behind it ends in front of a break or of the end. -/
theorem Lexeme.before_break (h : Lexeme (inside ++ after) text kind)
    (hv : ∀ e, kind ≠ .invalid e) (hb : ∀ c ∈ after'.head?, isBreak c = true) :
    Lexeme (inside ++ after') text kind := by
  cases h with
  | character | string | comment => exact absurd rfl (hv _)
  | token hs hlong hc =>
    refine .token hs (fun more rest' kind' hne heq hs' => ?_) ?_
    · rcases List.append_eq_append_iff.1 heq with ⟨front, rfl, hafter⟩ | ⟨back, rfl, -⟩
      · cases front with
        | nil => exact hlong _ after kind' hne (by rw [List.append_nil]) hs'
        | cons d front =>
          have hbreak := hb d (by rw [hafter]; rfl)
          rw [hs.isBreak hs' (by simp)] at hbreak
          cases hbreak
      · exact hlong more (back ++ after) kind' hne (List.append_assoc _ _ _) hs'
    · rw [← List.append_assoc] at hc ⊢
      obtain ⟨c, cs, rfl, -⟩ := hs.exists_cons
      rw [List.cons_append] at hc ⊢
      cases hin : cs ++ inside with
      | cons d ds =>
        rw [hin] at hc
        rintro ⟨rest', heq⟩
        exact hc ⟨ds ++ after, heq.imp (fun heq => by simp_all) fun heq => by simp_all⟩
      | nil =>
        rintro ⟨rest', heq | heq⟩
        all_goals
          obtain rfl := (List.cons.inj heq).2
          exact absurd (hb _ rfl) (by decide)

/-! ## Fillers -/

/-- What may stand anywhere between tokens: blanks and comments that have an end of their own. -/
inductive Filler : List Char → Prop
  | nil : Filler []
  | blank {c : Char} {gap : List Char} : Text.isBlank c = true → Filler gap → Filler (c :: gap)
  | line {body gap : List Char} : '\n' ∉ body → Filler gap →
      Filler ('/' :: '/' :: body ++ '\n' :: gap)
  | block {inner gap : List Char} : InComment inner → Filler gap →
      Filler ('/' :: '*' :: inner ++ '*' :: '/' :: gap)

/-- A filler that keeps two tokens apart. -/
inductive Separator : List Char → Prop
  | blank {c : Char} {gap : List Char} : Text.isBlank c = true → Filler gap → Separator (c :: gap)

theorem Filler.gap {gap : List Char} (h : Filler gap) (rest : List Char) : Gap rest gap := by
  induction h with
  | nil => exact .nil
  | blank hc _ ih => exact .blank hc ih
  | line hb _ ih => exact .line hb (by rintro _ ⟨⟩; rfl) (.blank (by decide) ih)
  | block hi _ ih => exact .block hi ih

theorem Separator.filler {gap : List Char} (h : Separator gap) : Filler gap := by
  obtain ⟨hc, hgap⟩ := h
  exact .blank hc hgap

/-- The texts in a row, a separator in front of each; behind the last there may be one more. -/
inductive Spaced : List (List Char) → List Char → Prop
  | nil : Spaced [] []
  | trailing {gap : List Char} : Separator gap → Spaced [] gap
  | cons {gap text rest : List Char} {texts : List (List Char)} : Separator gap →
      Spaced texts rest → Spaced (text :: texts) (gap ++ text ++ rest)

/-- A text in which these texts stand in a row, kept apart and with any filler in front. -/
inductive LaidOut : List (List Char) → List Char → Prop
  | nil {gap : List Char} : Filler gap → LaidOut [] gap
  | cons {gap text rest : List Char} {texts : List (List Char)} : Filler gap →
      Spaced texts rest → LaidOut (text :: texts) (gap ++ text ++ rest)

/-! ## Tokens that are laid out -/

theorem Spaced.isBreak {texts : List (List Char)} (h : Spaced texts rest) :
    ∀ c ∈ rest.head?, isBreak c = true := by
  cases h with
  | nil => exact nofun
  | trailing hgap =>
    obtain ⟨hc, -⟩ := hgap
    rintro _ ⟨⟩
    exact isBreak_of_isBlank hc
  | cons hgap =>
    obtain ⟨hc, -⟩ := hgap
    rintro _ ⟨⟩
    exact isBreak_of_isBlank hc

/-- The text is a valid token of the kind, in front of some text. -/
def IsLexeme (text : List Char) (kind : Kind) : Prop :=
  (∃ rest, Lexeme rest text kind) ∧ ∀ e, kind ≠ .invalid e

theorem IsLexeme.lexeme (h : IsLexeme text kind) (hb : ∀ c ∈ rest.head?, isBreak c = true) :
    Lexeme rest text kind := by
  obtain ⟨⟨after, h⟩, hv⟩ := h
  have hinside : Lexeme ([] ++ after) text kind := h
  exact hinside.before_break hv hb

variable {texts : List (List Char)} {kinds : List Kind}

theorem Spaced.tiles (h : Spaced texts rest) (ht : List.Forall₂ IsLexeme texts kinds)
    (before : List Char) :
    ∃ tokens, Tiles before rest tokens ∧ tokens.map Token.kind = kinds ++ [.endOfFile] := by
  induction h generalizing kinds before with
  | nil =>
    cases ht
    exact ⟨_, .endOfFile .nil, rfl⟩
  | trailing hgap =>
    cases ht
    exact ⟨_, .endOfFile (hgap.filler.gap []), rfl⟩
  | @cons gap text rest texts hgap hrest ih =>
    cases ht with
    | @cons _ kind _ kinds htext ht =>
      obtain ⟨tokens, htiles, hkinds⟩ := ih ht (before ++ gap ++ text)
      exact ⟨_, .lexeme (hgap.filler.gap _) (htext.lexeme hrest.isBreak) htiles,
        congrArg (kind :: ·) hkinds⟩

theorem LaidOut.tiles (h : LaidOut texts rest) (ht : List.Forall₂ IsLexeme texts kinds) :
    ∃ tokens, Tiles [] rest tokens ∧ tokens.map Token.kind = kinds ++ [.endOfFile] := by
  cases h with
  | nil hgap =>
    cases ht
    exact ⟨_, .endOfFile (hgap.gap []), rfl⟩
  | @cons gap text rest texts hgap hrest =>
    cases ht with
    | @cons _ kind _ kinds htext ht =>
      obtain ⟨tokens, htiles, hkinds⟩ := hrest.tiles ht ([] ++ gap ++ text)
      exact ⟨_, .lexeme (hgap.gap _) (htext.lexeme hrest.isBreak) htiles,
        congrArg (kind :: ·) hkinds⟩

/-- The last token is the end of the text, and no other. -/
theorem Tiles.exists_append {before : List Char} {tokens : List Token}
    (h : Tiles before text tokens) :
    ∃ ts e, tokens = ts ++ [e] ∧ e.kind = .endOfFile ∧ ∀ t ∈ ts, t.kind ≠ .endOfFile := by
  induction h with
  | endOfFile => exact ⟨[], _, rfl, rfl, nofun⟩
  | lexeme _ hl _ ih =>
    obtain ⟨ts, e, rfl, he, hts⟩ := ih
    exact ⟨_ :: ts, e, rfl, he, List.forall_mem_cons.2 ⟨hl.ne_endOfFile, hts⟩⟩

theorem isLexeme_of_text? {source text : String} {t : Token} (ht : t ∈ ofSource source)
    (hv : ∀ e, t.kind ≠ .invalid e) (he : t.kind ≠ .endOfFile)
    (htext : t.span.text? source = some text) : IsLexeme text.toList t.kind := by
  obtain ⟨before, word, after, hsplit, hc⟩ := (tiles_ofSource source).covers ht
  obtain rfl := Option.some.inj ((hc.text? hsplit).symm.trans htext)
  rw [String.toList_ofList]
  rcases hc.kind with ⟨-, -, heof⟩ | ⟨-, hl⟩
  · exact absurd heof he
  · exact ⟨⟨after, hl⟩, hv⟩

/-- However the texts of the tokens of a source are laid out, they are read as the same tokens. -/
theorem kinds_of_laidOut {source source' : String}
    (hv : ∀ t ∈ ofSource source, ∀ e, t.kind ≠ .invalid e) {texts : List String}
    (htexts : (ofSource source).dropLast.map (·.span.text? source) = texts.map some)
    (h : LaidOut (texts.map String.toList) source'.toList) :
    (ofSource source').map Token.kind = (ofSource source).map Token.kind := by
  obtain ⟨ts, e, hts, he, hne⟩ := (tiles_ofSource source).exists_append
  rw [hts, List.dropLast_concat] at htexts
  have hlexemes : List.Forall₂ IsLexeme (texts.map String.toList) (ts.map Token.kind) := by
    have hmem : ∀ t ∈ ts, t ∈ ofSource source := fun t ht => hts ▸ List.mem_append_left _ ht
    clear hts h
    induction ts generalizing texts with
    | nil => cases texts <;> simp_all
    | cons t ts ih =>
      cases texts with
      | nil => cases htexts
      | cons text texts =>
        obtain ⟨htext, htexts⟩ := List.cons.inj htexts
        obtain ⟨hnt, hne⟩ := List.forall_mem_cons.1 hne
        obtain ⟨ht, hmem⟩ := List.forall_mem_cons.1 hmem
        exact .cons (isLexeme_of_text? ht (hv t ht) hnt htext) (ih htexts hne hmem)
  obtain ⟨tokens, htiles, hkinds⟩ := h.tiles hlexemes
  have htokens : tokens = ofSource source' := htiles.eq_allFrom
  rw [← htokens, hkinds, hts, List.map_append, List.map_singleton, he]

end Token

end Lox

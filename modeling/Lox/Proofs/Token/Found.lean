import Mathlib.Data.List.Induction
import Lox.Proofs.Token.Lexeme
import Lox.Proofs.Token.Next

/-!
# What is read in one place

From a place in front of no blank `lexOne` reads a lexeme or a comment, whatever the text:

    Lexeme rest text kind →
      lexOne ⟨text ++ rest, p⟩ = (some kind, ⟨rest, p.advanceBy text⟩)            (lexOne_lexeme)

For each beginning of a word there is a lemma about the text alone, that what is taken there cannot
be made longer, and one about the function that takes it.
-/

namespace Lox

/-! ## Places -/

namespace Position

theorem column_advanceBy (text : List Char) :
    (start.advanceBy text).column = 1 + (text.reverse.takeWhile (· ≠ '\n')).length := by
  induction text using List.reverseRecOn with
  | nil => rfl
  | append_singleton text c ih =>
    rw [advanceBy_append, List.reverse_append]
    show ((start.advanceBy text).advance c).column = 1 + ((c :: text.reverse).takeWhile _).length
    unfold advance
    by_cases hc : c = '\n'
    · simp [hc]
    · rw [if_neg hc, List.takeWhile_cons_of_pos (by simpa using hc), List.length_cons, ih]
      rfl

/-- A cursor that has taken a text is behind it. -/
theorem advanceBy_eq_behind (text : List Char) : start.advanceBy text = .behind text := by
  have hbyte := byte_advanceBy start text
  have hline := line_advanceBy start text
  have hcolumn := column_advanceBy text
  generalize start.advanceBy text = p at *
  cases p
  cases hbyte.trans (Nat.zero_add _)
  cases hline
  cases hcolumn
  rfl

theorem behind_append (before text : List Char) :
    (behind before).advanceBy text = behind (before ++ text) := by
  rw [← advanceBy_eq_behind, ← advanceBy_eq_behind, advanceBy_append]

end Position

/-- Between the two cursors lies the text. -/
structure Cursor.Takes (c : Cursor) (text : List Char) (u : Cursor) : Prop where
  rest : c.rest = text ++ u.rest
  position : u.position = c.position.advanceBy text

namespace Cursor.Takes

variable {c u v : Cursor} {text more : List Char} {ch : Char} {rest : List Char}

theorem refl (c : Cursor) : c.Takes [] c := ⟨rfl, rfl⟩

theorem trans (h : c.Takes text u) (h' : u.Takes more v) : c.Takes (text ++ more) v where
  rest := by rw [h.rest, h'.rest, List.append_assoc]
  position := by rw [h'.position, h.position, Position.advanceBy_append]

theorem next (h : c.rest = ch :: rest) : c.Takes [ch] c.next := by
  obtain ⟨_, position⟩ := c
  subst h
  exact ⟨rfl, rfl⟩

theorem takeWhile (c : Cursor) (p : Char → Bool) :
    c.Takes (c.rest.takeWhile p) (c.takeWhile p) :=
  ⟨List.takeWhile_append_dropWhile.symm, rfl⟩

/-- The cursor behind a text that has been taken. -/
theorem eq_mk {p : Position} (h : Takes ⟨text ++ rest, p⟩ text u) :
    u = ⟨rest, p.advanceBy text⟩ := by
  obtain ⟨_, _⟩ := u
  obtain ⟨hrest, rfl⟩ := h
  rw [List.append_cancel_left hrest]

end Cursor.Takes

namespace Token

/-! ## Block comments -/

/-- A text with so many more closing delimiters than opening ones, up to the last of them and one
more. -/
inductive Closing : Nat → List Char → Prop
  | last {inner : List Char} : InComment inner → Closing 0 (inner ++ ['*', '/'])
  | more {depth : Nat} {inner text : List Char} :
      InComment inner → Closing depth text → Closing (depth + 1) (inner ++ '*' :: '/' :: text)

theorem Closing.exists_inner {depth : Nat} {text : List Char} (h : Closing depth text) :
    ∃ inner behind, InComment inner ∧ text = inner ++ '*' :: '/' :: behind ∧
      ∀ {inner'}, InComment inner' → Closing depth (inner' ++ '*' :: '/' :: behind) := by
  cases h with
  | last hi => exact ⟨_, [], hi, rfl, .last⟩
  | more hi ht => exact ⟨_, _, hi, rfl, fun hi' => .more hi' ht⟩

theorem startsDelimiter_iff {c d : Char} {text : List Char} :
    StartsDelimiter (c :: d :: text) ↔ c = '/' ∧ d = '*' ∨ c = '*' ∧ d = '/' := by
  simp [StartsDelimiter, exists_or]

theorem Closing.char {depth : Nat} {c : Char} {text : List Char}
    (hc : ¬StartsDelimiter (c :: text)) (h : Closing depth text) : Closing depth (c :: text) := by
  obtain ⟨inner, behind, hi, rfl, hclosing⟩ := h.exists_inner
  refine hclosing (.char (fun hd => hc ?_) hi)
  -- whether a delimiter begins is told by two characters
  cases inner with
  | nil => exact startsDelimiter_iff.2 (startsDelimiter_iff.1 hd)
  | cons => exact startsDelimiter_iff.2 (startsDelimiter_iff.1 hd)

theorem Closing.nested {depth : Nat} {inner text : List Char} (hi : InComment inner)
    (h : Closing depth text) : Closing depth ('/' :: '*' :: inner ++ '*' :: '/' :: text) := by
  obtain ⟨inner', behind, hi', rfl, hclosing⟩ := h.exists_inner
  simpa using hclosing (.nested hi hi')

theorem skipComment_closing {depth : Nat} {cs : List Char} {p : Position} {u : Cursor}
    (h : skipComment depth cs p = (true, u)) :
    ∃ text, Cursor.Takes ⟨cs, p⟩ text u ∧ Closing depth text := by
  fun_induction skipComment depth cs p with
  | case1 depth rest p ih =>
    obtain ⟨text, ht, hclosing⟩ := ih h
    cases hclosing with
    | @more _ inner text hi hclosing =>
      refine ⟨'/' :: '*' :: inner ++ '*' :: '/' :: text, ⟨?_, ht.position⟩, hclosing.nested hi⟩
      exact congrArg ('/' :: '*' :: ·) ht.rest
  | case2 rest p =>
    cases h
    exact ⟨['*', '/'], ⟨rfl, rfl⟩, .last .nil⟩
  | case3 depth rest p ih =>
    obtain ⟨text, ht, hclosing⟩ := ih h
    exact ⟨'*' :: '/' :: text, ⟨congrArg ('*' :: '/' :: ·) ht.rest, ht.position⟩,
      .more .nil hclosing⟩
  | case4 depth ch rest p h₁ h₂ h₃ ih =>
    obtain ⟨text, ht, hclosing⟩ := ih h
    refine ⟨ch :: text, ⟨congrArg (ch :: ·) ht.rest, ht.position⟩, hclosing.char ?_⟩
    rintro ⟨more, hd | hd⟩
    · obtain ⟨rfl, rfl⟩ := List.cons.inj hd
      exact h₁ _ rfl ht.rest
    · obtain ⟨rfl, rfl⟩ := List.cons.inj hd
      cases depth with
      | zero => exact h₂ _ rfl rfl ht.rest
      | succ depth => exact h₃ _ _ rfl rfl ht.rest
  | case5 => cases h

/-- What a comment has inside is skipped up to its end. -/
theorem skipComment_inComment {inner : List Char} (hi : InComment inner) (depth : Nat)
    (rest : List Char) (p : Position) :
    skipComment depth (inner ++ '*' :: '/' :: rest) p =
      skipComment depth ('*' :: '/' :: rest) (p.advanceBy inner) := by
  induction hi generalizing depth rest p with
  | nil => rfl
  | @char c text hc hi ih =>
    have hstarts : ¬StartsDelimiter (c :: text ++ '*' :: '/' :: rest) := fun hd => hc (by
      cases text with
      | nil => exact startsDelimiter_iff.2 (startsDelimiter_iff.1 hd)
      | cons => exact startsDelimiter_iff.2 (startsDelimiter_iff.1 hd))
    rw [List.cons_append, skipComment, ih]
    · rfl
    · exact fun more hch hmore => hstarts ⟨more, .inl (by rw [List.cons_append, hch, hmore])⟩
    · exact fun more _ hch hmore => hstarts ⟨more, .inr (by rw [List.cons_append, hch, hmore])⟩
    · exact fun _ more _ hch hmore => hstarts ⟨more, .inr (by rw [List.cons_append, hch, hmore])⟩
  | @nested inner text hi ht ih ih' =>
    have hopen :
        skipComment depth ('/' :: '*' :: inner ++ '*' :: '/' :: text ++ '*' :: '/' :: rest) p =
        skipComment (depth + 1) (inner ++ '*' :: '/' :: (text ++ '*' :: '/' :: rest))
          ((p.advance '/').advance '*') := by
      simp [skipComment]
    rw [hopen, ih, skipComment, ih']
    congr 1
    simp [Position.advanceBy]

theorem skipComment_block {inner : List Char} (hi : InComment inner) (rest : List Char)
    (p : Position) : skipComment 0 (inner ++ '*' :: '/' :: rest) p =
      (true, ⟨rest, p.advanceBy (inner ++ ['*', '/'])⟩) := by
  rw [skipComment_inComment hi, Position.advanceBy_append]
  rfl

/-- A comment without an end is skipped to the end of the text. -/
theorem skipComment_open {depth : Nat} {cs : List Char} {p : Position} {u : Cursor}
    (h : skipComment depth cs p = (false, u)) : u = ⟨[], p.advanceBy cs⟩ := by
  fun_induction skipComment depth cs p with
  | case1 _ _ _ ih => exact ih h
  | case2 => cases h
  | case3 _ _ _ ih => exact ih h
  | case4 _ _ _ _ _ _ _ ih => exact ih h
  | case5 => cases h; rfl

/-! ## One lexeme or comment -/

/-- What is read from the cursor on, in front of no blank: a lexeme, or a comment. -/
inductive Found (c : Cursor) : Option Kind × Cursor → Prop
  | lexeme {text : List Char} {kind : Kind} {u : Cursor} :
      c.Takes text u → Lexeme u.rest text kind → Found c (some kind, u)
  | line {body : List Char} {u : Cursor} :
      c.Takes ('/' :: '/' :: body) u → '\n' ∉ body → NewLine u.rest → Found c (none, u)
  | block {inner : List Char} {u : Cursor} :
      c.Takes ('/' :: '*' :: inner ++ ['*', '/']) u → InComment inner → Found c (none, u)

/-! ### Symbols -/

/-- The second character of a symbol that has one, behind its first. -/
def Lengthens (c d : Char) : Prop :=
  d = '=' ∧ (c = '!' ∨ c = '=' ∨ c = '<' ∨ c = '>') ∨ d = '>' ∧ c = '<'

theorem lengthens_of_symbol {t : Symbol} {c d : Char} (h : t.text.toList = [c, d]) :
    Lengthens c d := by
  cases t <;> simp [Symbol.text] at h <;> obtain ⟨rfl, rfl⟩ := h <;> simp [Lengthens]

theorem eq_nil_of_slash {s : Symbol} {cs : List Char} (h : s.text.toList = '/' :: cs) :
    cs = [] := by
  cases s <;> simp [Symbol.text] at h
  exact h

theorem length_symbol_le (t : Symbol) : t.text.toList.length ≤ 2 := by
  cases t <;> decide

variable {c u : Cursor} {ch : Char} {rest : List Char}

/-- A symbol is a lexeme if no longer symbol and no comment begins where it does. -/
theorem lexeme_symbol {s : Symbol}
    (hlong : ∀ c d, s.text.toList = [c] → rest.head? = some d → ¬Lengthens c d)
    (hslash : s.text.toList = ['/'] → ∀ d, rest.head? = some d → d ≠ '/' ∧ d ≠ '*') :
    Lexeme rest s.text.toList (.symbol s) := by
  obtain ⟨c, cs, hs, hc⟩ := toList_symbol s
  refine .token (.symbol s) (fun more rest' kind' hne hrest hspells => ?_) ?_
  · obtain ⟨d, more, rfl⟩ := List.exists_cons_of_ne_nil hne
    rw [hs] at hspells
    obtain ⟨t, -, ht⟩ := hspells.begins.of_symbolStart hc
    have hle : (c :: (cs ++ d :: more)).length ≤ 2 := ht ▸ length_symbol_le t
    rw [List.length_cons, List.length_append, List.length_cons] at hle
    obtain rfl : cs = [] := List.length_eq_zero_iff.1 (by omega)
    obtain rfl : more = [] := List.length_eq_zero_iff.1 (by omega)
    exact hlong c d hs (by rw [hrest]; rfl) (lengthens_of_symbol ht)
  · rintro ⟨more, hmore⟩
    rw [hs] at hmore hslash
    have hfirst : c = '/' := by
      rcases hmore with hmore | hmore
      · exact (List.cons.inj hmore).1
      · exact (List.cons.inj hmore).1
    subst hfirst
    obtain rfl := eq_nil_of_slash hs
    rcases hmore with hmore | hmore
    · exact (hslash rfl '/' (congrArg List.head? (List.cons.inj hmore).2)).1 rfl
    · exact (hslash rfl '*' (congrArg List.head? (List.cons.inj hmore).2)).2 rfl

theorem found_symbol {s : Symbol} (ht : c.Takes s.text.toList u)
    (hlong : ∀ c d, s.text.toList = [c] → u.rest.head? = some d → ¬Lengthens c d)
    (hslash : s.text.toList = ['/'] → ∀ d, u.rest.head? = some d → d ≠ '/' ∧ d ≠ '*') :
    Found c (some (.symbol s), u) :=
  .lexeme ht (lexeme_symbol hlong hslash)

theorem takeIf_eq (target : Char) (c : Cursor) :
    (∃ rest, c.rest = target :: rest ∧ c.takeIf target = (true, c.next)) ∨
      (∀ d, c.rest.head? = some d → d ≠ target) ∧ c.takeIf target = (false, c) := by
  unfold Cursor.takeIf
  cases hr : c.rest with
  | nil => exact .inr ⟨(fun d hd => by cases hd), rfl⟩
  | cons d rest =>
    by_cases hd : d = target
    · exact .inl ⟨rest, by rw [hd], if_pos hd⟩
    · exact .inr ⟨fun e he => by cases he; exact hd, if_neg hd⟩

theorem lexEqual_found {short long : Symbol} (hr : c.rest = ch :: rest)
    (hshort : short.text.toList = [ch]) (hlong : long.text.toList = [ch, '='])
    (hless : ch = '<' → ∀ d, rest.head? = some d → d ≠ '>') (hslash : ch ≠ '/') :
    Found c (some (lexEqual short long c.next).1, (lexEqual short long c.next).2) := by
  have hnext := Cursor.Takes.next hr
  have hrest : c.next.rest = rest := (List.cons.inj (hr.symm.trans hnext.rest)).2.symm
  unfold lexEqual
  obtain ⟨more, hmore, htake⟩ | ⟨hother, htake⟩ := takeIf_eq '=' c.next
  · rw [htake]
    refine found_symbol (hlong ▸ hnext.trans (.next hmore)) ?_ ?_
    · exact fun _ _ h => by rw [hlong] at h; cases h
    · exact fun h => by rw [hlong] at h; cases h
  · rw [htake]
    refine found_symbol (hshort ▸ hnext) (fun d e hd he => ?_) fun h => ?_
    · rw [hshort] at hd
      cases hd
      rintro (⟨rfl, -⟩ | ⟨rfl, rfl⟩)
      · exact hother _ he rfl
      · exact hless rfl _ (hrest ▸ he) rfl
    · rw [hshort] at h
      cases h
      exact absurd rfl hslash

/-! ### Strings, numbers and names -/

theorem head?_dropWhile {p : Char → Bool} {cs : List Char} {d : Char}
    (h : (cs.dropWhile p).head? = some d) : p d = false := by
  have := List.head?_dropWhile_not p cs
  rw [h] at this
  simpa using this

theorem lexeme_string {body : List Char} (hb : '"' ∉ body) :
    Lexeme rest ('"' :: body ++ ['"']) (.string (String.ofList body)) := by
  refine .token (.string hb) (fun more rest' kind' hne _ hspells => ?_) ?_
  · rw [List.cons_append, List.cons_append] at hspells
    obtain ⟨body', heq, hnot, -⟩ := hspells.begins.of_quote
    -- its last quote is behind the first that there is
    have hlast := congrArg List.dropLast heq
    rw [List.dropLast_append_of_ne_nil hne, List.dropLast_concat] at hlast
    exact hnot (hlast ▸ by simp)
  · rintro ⟨_, h | h⟩
    · exact absurd (List.cons.inj h).1 (by decide)
    · exact absurd (List.cons.inj h).1 (by decide)

theorem lexString_found (hr : c.rest = '"' :: rest) :
    Found c (some (lexString c.next).1, (lexString c.next).2) := by
  have hnext := Cursor.Takes.next hr
  have htake := Cursor.Takes.takeWhile c.next (fun d => !d == '"')
  have hbody : '"' ∉ c.next.rest.takeWhile (fun d => !d == '"') := fun hq => by
    have := List.all_eq_true.1 List.all_takeWhile _ hq
    simp at this
  unfold lexString Cursor.takeUntil
  dsimp only
  split
  · next hrest => exact .lexeme (hnext.trans htake) (.string hbody hrest)
  · next d more hrest =>
    obtain rfl : d = '"' := by
      have := head?_dropWhile (congrArg List.head? hrest :
        (c.next.rest.dropWhile fun d => !d == '"').head? = some d)
      simpa using this
    exact .lexeme ((hnext.trans htake).trans (.next hrest)) (lexeme_string hbody)

/-- No comment begins with a digit or a letter. -/
theorem not_startsComment {text : List Char} (h : isNameChar ch = true) :
    ¬StartsComment (ch :: text) := by
  rintro ⟨more, hmore⟩
  have : ch = '/' := by
    rcases hmore with hmore | hmore
    · exact (List.cons.inj hmore).1
    · exact (List.cons.inj hmore).1
  subst this
  revert h
  decide

theorem isNameChar_of_isDigit {d : Char} (h : d.isDigit = true) : isNameChar d = true := by
  simp [isNameChar, Char.isAlphanum, h]

/-- Digits are a lexeme if no digit comes, and no point with a digit behind it. -/
theorem lexeme_integer {digits : List Char} (hne : digits ≠ [])
    (hd : ∀ d ∈ digits, d.isDigit = true) (hrest : ∀ d, rest.head? = some d → d.isDigit = false)
    (hpoint : ∀ d more, rest = '.' :: d :: more → d.isDigit = false) :
    Lexeme rest digits (.number (Number.ofDigits digits 0)) := by
  obtain ⟨d, ds, rfl⟩ := List.exists_cons_of_ne_nil hne
  have hfirst := hd d List.mem_cons_self
  refine .token (.integer hne hd) (fun more rest' kind' hmore heq hspells => ?_)
    (not_startsComment (isNameChar_of_isDigit hfirst))
  obtain ⟨e, more, rfl⟩ := List.exists_cons_of_ne_nil hmore
  have he : e.isDigit = false := hrest e (by rw [heq]; rfl)
  cases hspells.begins.of_digit hfirst with
  | integer hall =>
    rw [hall e (by simp)] at he
    cases he
  | @decimal whole fraction hsplit hwhole hfraction hne' =>
    obtain ⟨-, rfl, rfl⟩ := digits_unique hsplit hd hwhole he isDigit_point
    obtain ⟨f, fs, rfl⟩ := List.exists_cons_of_ne_nil hne'
    have hf := hpoint f (fs ++ rest') heq
    rw [hfraction f List.mem_cons_self] at hf
    cases hf

/-- Digits around a point are a lexeme if no digit comes. -/
theorem lexeme_decimal {whole fraction : List Char} (hw : whole ≠ [])
    (hwd : ∀ d ∈ whole, d.isDigit = true) (hf : fraction ≠ [])
    (hfd : ∀ d ∈ fraction, d.isDigit = true)
    (hrest : ∀ d, rest.head? = some d → d.isDigit = false) :
    Lexeme rest (whole ++ '.' :: fraction)
      (.number (Number.ofDigits (whole ++ fraction) fraction.length)) := by
  obtain ⟨d, ds, rfl⟩ := List.exists_cons_of_ne_nil hw
  have hfirst := hwd d List.mem_cons_self
  refine .token (.decimal hw hwd hf hfd) (fun more rest' kind' hmore heq hspells => ?_)
    (not_startsComment (isNameChar_of_isDigit hfirst))
  obtain ⟨e, more, rfl⟩ := List.exists_cons_of_ne_nil hmore
  have he : e.isDigit = false := hrest e (by rw [heq]; rfl)
  rw [List.append_assoc, List.cons_append, List.cons_append] at hspells
  cases hspells.begins.of_digit hfirst with
  | integer hall =>
    rw [hall e (by simp)] at he
    cases he
  | decimal hsplit hwhole hfraction =>
    obtain ⟨-, -, rfl⟩ := digits_unique hsplit hwd hwhole isDigit_point isDigit_point
    rw [hfraction e (by simp)] at he
    cases he

/-- A number goes on as long as there are digits; a point belongs to it only before a digit. -/
theorem lexNumber_found (hr : c.rest = ch :: rest) (hd : ch.isDigit = true) :
    Found c (some (lexNumber c).1, (lexNumber c).2) := by
  have htake := Cursor.Takes.takeWhile c Char.isDigit
  have hwhole : ∀ d ∈ c.rest.takeWhile Char.isDigit, d.isDigit = true :=
    List.all_eq_true.1 List.all_takeWhile
  have hne : c.rest.takeWhile Char.isDigit ≠ [] := by
    rw [hr, List.takeWhile_cons_of_pos hd]
    exact List.cons_ne_nil _ _
  have hhead : ∀ d, (c.takeWhile Char.isDigit).rest.head? = some d → d.isDigit = false :=
    fun d => head?_dropWhile
  unfold lexNumber
  dsimp only
  split
  · next d more hrest =>
    split
    · next hdigit =>
      have hpoint := Cursor.Takes.next hrest
      have hmore : (c.takeWhile Char.isDigit).next.rest = d :: more :=
        (List.cons.inj (hrest.symm.trans hpoint.rest)).2.symm
      have hfraction := Cursor.Takes.takeWhile (c.takeWhile Char.isDigit).next Char.isDigit
      have htext := (htake.trans hpoint).trans hfraction
      rw [List.append_assoc] at htext
      refine .lexeme htext (lexeme_decimal hne hwhole ?_ (List.all_eq_true.1 List.all_takeWhile)
        fun e => head?_dropWhile)
      rw [hmore, List.takeWhile_cons_of_pos hdigit]
      exact List.cons_ne_nil _ _
    · next hdigit =>
      refine .lexeme htake (lexeme_integer hne hwhole hhead fun e es he => ?_)
      rw [hrest] at he
      cases he
      exact Bool.not_eq_true _ ▸ hdigit
  · next hother =>
    refine .lexeme htake (lexeme_integer hne hwhole hhead fun e es he => ?_)
    exact absurd he (hother e es)

/-- A name or keyword is a lexeme if no letter or digit comes. -/
theorem lexeme_name {kind : Kind} {cs : List Char} (hs : Spells (ch :: cs) kind)
    (hc : isNameStart ch = true) (hrest : ∀ d, rest.head? = some d → isNameChar d = false) :
    Lexeme rest (ch :: cs) kind := by
  refine .token hs (fun more rest' kind' hmore heq hspells => ?_)
    (not_startsComment (isNameChar_of_isNameStart hc))
  obtain ⟨e, more, rfl⟩ := List.exists_cons_of_ne_nil hmore
  have he : isNameChar e = false := hrest e (by rw [heq]; rfl)
  rw [List.cons_append] at hspells
  rw [(hspells.begins.of_nameStart hc).1 e (by simp)] at he
  cases he

theorem lexName_found (hr : c.rest = ch :: rest) (hc : isNameStart ch = true) :
    Found c (some (lexName c).1, (lexName c).2) := by
  have htake := Cursor.Takes.takeWhile c isNameChar
  have htext : c.rest.takeWhile isNameChar = ch :: rest.takeWhile isNameChar := by
    rw [hr, List.takeWhile_cons_of_pos (isNameChar_of_isNameStart hc)]
  have hhead : ∀ d, (c.takeWhile isNameChar).rest.head? = some d → isNameChar d = false :=
    fun d => head?_dropWhile
  unfold lexName
  dsimp only
  rw [htext] at htake ⊢
  split
  · next k hk =>
    have hspelled : k.text.toList = ch :: rest.takeWhile isNameChar := by
      have hfound := List.find?_some hk
      rw [eq_of_beq hfound, String.toList_ofList]
    exact .lexeme htake (lexeme_name (hspelled ▸ .keyword k) hc hhead)
  · next hk =>
    have hall := List.all_eq_true.1 (List.all_takeWhile (p := isNameChar) (l := rest))
    refine .lexeme htake (lexeme_name (.name hc hall ?_) hc hhead)
    intro k hspelled
    rw [← hspelled, String.ofList_toList, Keyword.ofText?_text] at hk
    cases hk

/-! ### Slashes -/

/-- A slash begins a comment on the line, a comment up to its end or to that of the text, or is a
token by itself. -/
theorem lexSlash_found (hr : c.rest = '/' :: rest) : Found c (lexSlash c.next) := by
  have hnext := Cursor.Takes.next hr
  unfold lexSlash
  split
  · next more hmore =>
    have htake := Cursor.Takes.takeWhile c.next fun d => !d == '\n'
    rw [hmore, List.takeWhile_cons_of_pos (by decide)] at htake
    refine .line (hnext.trans htake) (fun hbody => ?_) fun d hd => ?_
    · have := List.all_eq_true.1 List.all_takeWhile _ hbody
      simp at this
    · have := head?_dropWhile hd
      simpa using this
  · next more hmore =>
    have hopened := hnext.trans (.next hmore)
    split
    · next u hskip =>
      obtain ⟨text, htext, hclosing⟩ := skipComment_closing hskip
      cases hclosing with
      | @last inner hi =>
        have hcomment : c.Takes ('/' :: '*' :: inner ++ ['*', '/']) u := hopened.trans htext
        exact .block hcomment hi
    · next u hskip =>
      have hu := skipComment_open hskip
      have hbody : c.next.next.Takes c.next.next.rest u := by
        rw [hu]
        exact ⟨(List.append_nil _).symm, rfl⟩
      refine .lexeme (hopened.trans hbody) (.comment (fun inner behind hi heq => ?_) (by rw [hu]))
      have hrest : c.next.next.rest = inner ++ '*' :: '/' :: behind := heq
      rw [hrest, skipComment_block hi] at hskip
      cases hskip
  · next hline hblock =>
    refine found_symbol (s := .slash) hnext (fun d e hd _ => ?_) fun _ d hd => ?_
    · cases hd
      rintro (⟨-, h | h | h | h⟩ | ⟨-, h⟩) <;> revert h <;> decide
    · obtain ⟨more, hmore⟩ := List.head?_eq_some_iff.1 hd
      exact ⟨fun h => hline more (h ▸ hmore), fun h => hblock more (h ▸ hmore)⟩

/-! ### Anything -/

theorem of_symbolOfChar? {s : Symbol} (h : symbolOfChar? ch = some s) :
    s.text.toList = [ch] ∧ (∀ d, ¬Lengthens ch d) ∧ ch ≠ '/' := by
  unfold symbolOfChar? at h
  split at h <;> cases h <;> exact ⟨rfl, by simp [Lengthens], by decide⟩

theorem symbolStart_cases (h : isSymbolStart ch = true) :
    ch = '/' ∨ ch = '=' ∨ ch = '>' ∨ ch = '!' ∨ ch = '<' ∨ symbolOfChar? ch ≠ none := by
  have hall : ("()\x7b\x7d[]+-*/%.,;?:!=<>".toList.all fun c =>
      c == '/' || c == '=' || c == '>' || c == '!' || c == '<' || (symbolOfChar? c).isSome) =
        true := by decide
  have hc := List.all_eq_true.1 hall ch (List.contains_iff_mem.1 h)
  simpa [Option.isSome_iff_ne_none, or_assoc] using hc

/-- From a character that is not blank on, a lexeme or a comment is found, the longest there is. -/
theorem lexOne_found (hr : c.rest = ch :: rest) (hblank : Text.isBlank ch = false) :
    Found c (lexOne c) := by
  have hnext := Cursor.Takes.next hr
  have hrest : c.next.rest = rest := (List.cons.inj (hr.symm.trans hnext.rest)).2.symm
  unfold lexOne
  rw [hr]
  dsimp only
  split
  · next h => subst h; exact lexSlash_found hr
  next hslash =>
  split
  · next h => subst h; exact lexEqual_found hr rfl rfl (fun h => absurd h (by decide)) (by decide)
  next hequal =>
  split
  · next h => subst h; exact lexEqual_found hr rfl rfl (fun h => absurd h (by decide)) (by decide)
  next hgreater =>
  split
  · next h => subst h; exact lexEqual_found hr rfl rfl (fun h => absurd h (by decide)) (by decide)
  next hbang =>
  split
  · next h =>
    subst h
    obtain ⟨more, hmore, htake⟩ | ⟨hother, htake⟩ := takeIf_eq '>' c.next
    · rw [htake]
      refine found_symbol (s := .diamond) (hnext.trans (.next hmore)) ?_ ?_
      · exact fun _ _ h => by cases h
      · exact fun h => by cases h
    · rw [htake]
      exact lexEqual_found hr rfl rfl (fun _ => hrest ▸ hother) (by decide)
  next hless =>
  split
  · next h => subst h; exact lexString_found hr
  next hquote =>
  split
  · next h => exact lexNumber_found hr h
  next hdigit =>
  split
  · next h => exact lexName_found hr h
  next hname =>
  split
  · next s hs =>
    obtain ⟨htext, hlong, hne⟩ := of_symbolOfChar? hs
    refine found_symbol (htext ▸ hnext) (fun d e hd _ => ?_) fun h => ?_
    · rw [htext] at hd
      cases hd
      exact hlong e
    · rw [htext] at h
      cases h
      exact absurd rfl hne
  · next hnone =>
    refine .lexeme hnext (.character hblank fun cs kind hs => ?_)
    cases hs.begins with
    | symbol hc =>
      rcases symbolStart_cases hc with h | h | h | h | h | h
      · exact hslash h
      · exact hequal h
      · exact hgreater h
      · exact hbang h
      · exact hless h
      · exact h hnone
    | name hc => exact hname hc
    | number hc => exact hdigit hc
    | string hc => exact hquote hc

/-- In front of a lexeme no comment is found. -/
theorem lexOne_lexeme {text : List Char} {kind : Kind} (h : Lexeme rest text kind) (p : Position) :
    lexOne ⟨text ++ rest, p⟩ = (some kind, ⟨rest, p.advanceBy text⟩) := by
  obtain ⟨ch, cs, rfl, hblank⟩ := h.exists_cons
  have hfound := lexOne_found (c := ⟨ch :: cs ++ rest, p⟩) rfl hblank
  generalize lexOne ⟨ch :: cs ++ rest, p⟩ = r at hfound
  cases hfound with
  | lexeme ht hl =>
    obtain ⟨rfl, -, rfl⟩ := hl.unique h ht.rest.symm
    rw [ht.eq_mk]
  | line ht => exact absurd ht.rest h.not_line
  | @block inner u ht hi =>
    have hrest : ch :: cs ++ rest = '/' :: '*' :: inner ++ '*' :: '/' :: u.rest := by
      simpa using ht.rest
    exact absurd hrest (h.not_block hi)

theorem lexOne_line {body : List Char} (hb : '\n' ∉ body) (hn : NewLine rest) (p : Position) :
    lexOne ⟨'/' :: '/' :: body ++ rest, p⟩ = (none, ⟨rest, p.advanceBy ('/' :: '/' :: body)⟩) := by
  have hbody : ∀ d ∈ body, (!d == '\n') = true := fun d hd => by
    have hne : d ≠ '\n' := fun h => hb (h ▸ hd)
    simpa using hne
  have htake : rest.takeWhile (fun d => !d == '\n') = [] ∧
      rest.dropWhile (fun d => !d == '\n') = rest := by
    cases rest with
    | nil => exact ⟨rfl, rfl⟩
    | cons d rest => simp [hn d rfl]
  show (none, (⟨'/' :: (body ++ rest), p.advance '/'⟩ : Cursor).takeUntil (· == '\n')) = _
  unfold Cursor.takeUntil Cursor.takeWhile
  rw [List.takeWhile_cons_of_pos (by decide), List.dropWhile_cons_of_pos (by decide),
    List.takeWhile_append_of_pos hbody, List.dropWhile_append_of_pos hbody, htake.1, htake.2,
    List.append_nil]
  rfl

theorem lexOne_block {inner : List Char} (hi : InComment inner) (p : Position) :
    lexOne ⟨'/' :: '*' :: inner ++ '*' :: '/' :: rest, p⟩ =
      (none, ⟨rest, p.advanceBy ('/' :: '*' :: inner ++ ['*', '/'])⟩) := by
  have hskip := skipComment_block hi rest ((p.advance '/').advance '*')
  show lexSlash ⟨'*' :: (inner ++ '*' :: '/' :: rest), p.advance '/'⟩ = _
  unfold lexSlash
  dsimp only [Cursor.next]
  rw [hskip]
  rfl

end Token

end Lox

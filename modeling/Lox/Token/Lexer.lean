import Lox.Source.Cursor
import Lox.Text.Blank
import Lox.Number.Double
import Lox.Token.Basic

/-!
# Reading tokens

`Token.next` skips blanks and comments and reads one token; the end of the text is a token of its
own, read again and again.  `Token.ofSource` is all tokens of a text, the end included.  Text that
is no token does not stop the reading: it becomes an invalid token, and the next one is read right
after it.

    (Token.next c).1.kind ≠ .endOfFile →
      (Token.next c).2.rest.length < c.rest.length         (length_next_lt)
-/

namespace Lox

namespace Token

/-! ## Characters -/

/-- Whether a name or keyword can begin with the character.  Letters are those of ASCII. -/
def isNameStart (c : Char) : Bool := c.isAlpha || c == '_'

def isNameChar (c : Char) : Bool := c.isAlphanum || c == '_'

/-- The symbols that no longer symbol or comment begins with. -/
def symbolOfChar? : Char → Option Symbol
  | '(' => some .leftParen
  | ')' => some .rightParen
  | '\x7b' => some .leftBrace
  | '\x7d' => some .rightBrace
  | '[' => some .leftBracket
  | ']' => some .rightBracket
  | '+' => some .plus
  | '-' => some .minus
  | '*' => some .star
  | '%' => some .percent
  | '.' => some .dot
  | ',' => some .comma
  | ';' => some .semicolon
  | '?' => some .question
  | ':' => some .colon
  | _ => none

/-! ## One token

Each function gets the cursor after the characters that decided for it. -/

/-- One of two symbols, the second if an equals sign follows. -/
def lexEqual (short long : Symbol) (c : Cursor) : Kind × Cursor :=
  match c.takeIf '=' with
  | (true, c) => (.symbol long, c)
  | (false, c) => (.symbol short, c)

/-- The text up to the next quote; it may span lines and has no escapes. -/
def lexString (c : Cursor) : Kind × Cursor :=
  let stop := c.takeUntil (· == '"')
  match stop.rest with
  | [] => (.invalid .unterminatedString, stop)
  | _ :: _ => (.string (String.ofList (c.rest.takeWhile (· != '"'))), stop.next)

/-- Digits, and if a point and a digit follow, these and all further digits. -/
def lexNumber (c : Cursor) : Kind × Cursor :=
  let whole := c.rest.takeWhile Char.isDigit
  let stop := c.takeWhile Char.isDigit
  match stop.rest with
  | '.' :: d :: _ =>
    if d.isDigit then
      let fraction := stop.next.rest.takeWhile Char.isDigit
      (.number (Number.ofDigits (whole ++ fraction) fraction.length),
        stop.next.takeWhile Char.isDigit)
    else (.number (Number.ofDigits whole 0), stop)
  | _ => (.number (Number.ofDigits whole 0), stop)

/-- A keyword or a name. -/
def lexName (c : Cursor) : Kind × Cursor :=
  let text := String.ofList (c.rest.takeWhile isNameChar)
  match Keyword.ofText? text with
  | some k => (.keyword k, c.takeWhile isNameChar)
  | none => (.identifier text, c.takeWhile isNameChar)

/-- The text after the end of a block comment inside which `depth` more are open, and whether it
has an end: comments nest. -/
def skipComment : Nat → List Char → Position → Bool × Cursor
  | depth, '/' :: '*' :: rest, p => skipComment (depth + 1) rest ((p.advance '/').advance '*')
  | 0, '*' :: '/' :: rest, p => (true, ⟨rest, (p.advance '*').advance '/'⟩)
  | depth + 1, '*' :: '/' :: rest, p => skipComment depth rest ((p.advance '*').advance '/')
  | depth, c :: rest, p => skipComment depth rest (p.advance c)
  | _, [], p => (false, ⟨[], p⟩)

/-- A division sign, or else a comment, which is no token unless it is a block with no end. -/
def lexSlash (c : Cursor) : Option Kind × Cursor :=
  match c.rest with
  | '/' :: _ => (none, c.takeUntil (· == '\n'))
  | '*' :: _ =>
    match skipComment 0 c.next.rest c.next.position with
    | (true, c) => (none, c)
    | (false, c) => (some (.invalid .unterminatedComment), c)
  | _ => (some (.symbol .slash), c)

/-- What begins with the next character: a token, or a comment. -/
def lexOne (c : Cursor) : Option Kind × Cursor :=
  match c.rest with
  | [] => (some .endOfFile, c)
  | ch :: _ =>
    let some' (r : Kind × Cursor) : Option Kind × Cursor := (some r.1, r.2)
    if ch = '/' then lexSlash c.next
    else if ch = '=' then some' (lexEqual .equal .equalEqual c.next)
    else if ch = '>' then some' (lexEqual .greater .greaterEqual c.next)
    else if ch = '!' then some' (lexEqual .bang .bangEqual c.next)
    else if ch = '<' then
      match c.next.takeIf '>' with
      | (true, c) => (some (.symbol .diamond), c)
      | (false, c) => some' (lexEqual .less .lessEqual c)
    else if ch = '"' then some' (lexString c.next)
    else if ch.isDigit then some' (lexNumber c)
    else if isNameStart ch then some' (lexName c)
    else match symbolOfChar? ch with
      | some s => (some (.symbol s), c.next)
      | none => (some (.invalid (.unexpectedCharacter ch)), c.next)

/-! ## Lemmas: reading moves forward -/

theorem lexEqual_suffix (short long : Symbol) (c : Cursor) :
    (lexEqual short long c).2.rest <:+ c.rest := by
  have h := Cursor.takeIf_suffix '=' c
  unfold lexEqual
  split <;> simp_all

theorem lexString_suffix (c : Cursor) : (lexString c).2.rest <:+ c.rest := by
  have h : (c.takeUntil (· == '"')).rest <:+ c.rest := Cursor.takeWhile_suffix _ c
  unfold lexString
  simp only
  split
  · exact h
  · exact (Cursor.next_suffix _).trans h

theorem skipComment_suffix (depth : Nat) (cs : List Char) (p : Position) :
    (skipComment depth cs p).2.rest <:+ cs := by
  fun_induction skipComment depth cs p with
  | case1 _ _ _ ih => exact ih.trans ((List.suffix_cons _ _).trans (List.suffix_cons _ _))
  | case2 => exact (List.suffix_cons _ _).trans (List.suffix_cons _ _)
  | case3 _ _ _ ih => exact ih.trans ((List.suffix_cons _ _).trans (List.suffix_cons _ _))
  | case4 _ _ _ _ _ _ _ ih => exact ih.trans (List.suffix_cons _ _)
  | case5 => exact List.suffix_refl _

theorem lexSlash_suffix (c : Cursor) : (lexSlash c).2.rest <:+ c.rest := by
  have h := skipComment_suffix 0 c.next.rest c.next.position
  unfold lexSlash
  split
  · exact Cursor.takeWhile_suffix _ c
  · split
    · next hs => rw [hs] at h; exact h.trans (Cursor.next_suffix c)
    · next hs => rw [hs] at h; exact h.trans (Cursor.next_suffix c)
  · exact List.suffix_refl _

theorem length_next_lt_of_cons {c : Cursor} {ch : Char} {rest : List Char}
    (h : c.rest = ch :: rest) : c.next.rest.length < c.rest.length := by
  simp [Cursor.next, h]

theorem length_lt_of_suffix_next {c : Cursor} {ch : Char} {rest cs : List Char}
    (h : c.rest = ch :: rest) (hs : cs <:+ c.next.rest) : cs.length < c.rest.length :=
  Nat.lt_of_le_of_lt hs.length_le (length_next_lt_of_cons h)

theorem length_takeWhile_lt {c : Cursor} {ch : Char} {rest : List Char} {p : Char → Bool}
    (h : c.rest = ch :: rest) (hp : p ch = true) :
    (c.takeWhile p).rest.length < c.rest.length := by
  simp only [Cursor.takeWhile, h, List.dropWhile_cons, hp, if_true, List.length_cons]
  exact Nat.lt_succ_of_le (List.dropWhile_suffix p).length_le

theorem length_lexNumber_lt {c : Cursor} {ch : Char} {rest : List Char}
    (h : c.rest = ch :: rest) (hd : ch.isDigit = true) :
    (lexNumber c).2.rest.length < c.rest.length := by
  have hw := length_takeWhile_lt h hd
  unfold lexNumber
  simp only
  split
  · split
    · exact Nat.lt_of_le_of_lt
        ((Cursor.takeWhile_suffix _ _).trans (Cursor.next_suffix _)).length_le hw
    · exact hw
  · exact hw

theorem length_lexName_lt {c : Cursor} {ch : Char} {rest : List Char}
    (h : c.rest = ch :: rest) (hn : isNameStart ch = true) :
    (lexName c).2.rest.length < c.rest.length := by
  have hc : isNameChar ch = true := by
    simp only [isNameStart, isNameChar, Char.isAlphanum, Bool.or_eq_true] at *
    rcases hn with hn | hn <;> simp [hn]
  unfold lexName
  simp only
  split <;> exact length_takeWhile_lt h hc

/-- Except at the end of the text something is read. -/
theorem length_lexOne_lt {c : Cursor} {ch : Char} {rest : List Char} (h : c.rest = ch :: rest) :
    (lexOne c).2.rest.length < c.rest.length := by
  have next := length_next_lt_of_cons h
  unfold lexOne
  split
  · next he => simp [he] at h
  next ch' rest' h' =>
  simp only
  split
  · exact length_lt_of_suffix_next h (lexSlash_suffix _)
  split
  · exact length_lt_of_suffix_next h (lexEqual_suffix _ _ _)
  split
  · exact length_lt_of_suffix_next h (lexEqual_suffix _ _ _)
  split
  · exact length_lt_of_suffix_next h (lexEqual_suffix _ _ _)
  split
  · have hs := Cursor.takeIf_suffix '>' c.next
    split
    · next hc => rw [hc] at hs; exact length_lt_of_suffix_next h hs
    · next hc =>
      rw [hc] at hs
      exact length_lt_of_suffix_next h ((lexEqual_suffix _ _ _).trans hs)
  split
  · exact length_lt_of_suffix_next h (lexString_suffix _)
  split
  · next hd => exact length_lexNumber_lt h' hd
  split
  · next hn => exact length_lexName_lt h' hn
  split <;> exact next

theorem lexOne_eq_none_cons {c : Cursor} (h : (lexOne c).1 = none) :
    ∃ ch rest, c.rest = ch :: rest := by
  cases hr : c.rest with
  | nil => simp [lexOne, hr] at h
  | cons ch rest => exact ⟨ch, rest, rfl⟩

/-! ## Tokens of a text -/

/-- Skipping a comment moves forward. -/
theorem length_lt_of_lexOne_none {c stop : Cursor} {p : Char → Bool}
    (h : lexOne (c.takeWhile p) = (none, stop)) : stop.rest.length < c.rest.length := by
  obtain ⟨ch, rest, hr⟩ := lexOne_eq_none_cons (c := c.takeWhile p) (by rw [h])
  have := length_lexOne_lt hr
  rw [h] at this
  exact Nat.lt_of_lt_of_le this (Cursor.takeWhile_suffix p c).length_le

/-- The next token and the cursor after it. -/
def next (c : Cursor) : Token × Cursor :=
  let start := c.takeWhile Text.isBlank
  match h : lexOne start with
  | (some kind, stop) => (⟨kind, ⟨start.position, stop.position⟩⟩, stop)
  | (none, stop) =>
    have := length_lt_of_lexOne_none h
    next stop
termination_by c.rest.length

theorem length_next_lt (c : Cursor) (h : (next c).1.kind ≠ .endOfFile) :
    (next c).2.rest.length < c.rest.length := by
  fun_induction next c with
  | case1 c start kind stop hk =>
    cases hr : start.rest with
    | nil => simp [lexOne, hr] at hk; simp [← hk.1] at h
    | cons ch rest =>
      have := length_lexOne_lt hr
      rw [hk] at this
      exact Nat.lt_of_lt_of_le this (Cursor.takeWhile_suffix _ c).length_le
  | case2 c start stop hk _ ih => exact Nat.lt_trans (ih h) (length_lt_of_lexOne_none hk)

theorem isEndOfFile_iff (k : Kind) : k.isEndOfFile = true ↔ k = .endOfFile := by
  cases k <;> simp [Kind.isEndOfFile]

theorem length_lt_of_next {c stop : Cursor} {t : Token} (h : next c = (t, stop))
    (ht : ¬t.kind.isEndOfFile = true) : stop.rest.length < c.rest.length := by
  have := length_next_lt c (by rw [h]; exact fun hk => ht ((isEndOfFile_iff _).2 hk))
  rwa [h] at this

/-- All tokens from the cursor on; the last is the end of the text, and no other. -/
def allFrom (c : Cursor) : List Token :=
  match h : next c with
  | (t, stop) =>
    if ht : t.kind.isEndOfFile then [t]
    else
      have := length_lt_of_next h ht
      t :: allFrom stop
termination_by c.rest.length

/-- All tokens of a source text. -/
def ofSource (source : String) : List Token := allFrom (Cursor.ofString source)

end Token

end Lox

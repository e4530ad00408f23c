import Lox.Source.Span

/-!
# Cursors

A cursor stands at a position of a source text, in front of what has not been taken yet.  Taking
characters moves it forward and peeking leaves it where it is.  What it has left is always a suffix
of what it had.
-/

namespace Lox

/-- A place in a source text, and the text from there on. -/
structure Cursor where
  rest : List Char
  position : Position
deriving DecidableEq, Repr

namespace Cursor

/-- The cursor in front of the whole text. -/
def ofString (source : String) : Cursor := ⟨source.toList, .start⟩

/-! ## Looking -/

def isAtEnd (c : Cursor) : Bool := c.rest.isEmpty

/-- The byte offset of the next character, or of the end of the text. -/
def offset (c : Cursor) : Nat := c.position.byte

/-- The next character and its byte offset. -/
def peek (c : Cursor) : Option (Nat × Char) :=
  match c.rest with
  | [] => none
  | ch :: _ => some (c.position.byte, ch)

/-- The character after the next one and its byte offset. -/
def peekNext (c : Cursor) : Option (Nat × Char) :=
  match c.rest with
  | ch :: next :: _ => some (c.position.byte + ch.utf8Size, next)
  | _ => none

/-! ## Moving -/

/-- The cursor after the next character; at the end it stays. -/
def next (c : Cursor) : Cursor :=
  match c.rest with
  | [] => c
  | ch :: rest => ⟨rest, c.position.advance ch⟩

/-- Takes the next character. -/
def take (c : Cursor) : Option (Nat × Char) × Cursor := (c.peek, c.next)

/-- Takes the next character if it is `target`. -/
def takeIf (target : Char) (c : Cursor) : Bool × Cursor :=
  match c.rest with
  | ch :: _ => if ch = target then (true, c.next) else (false, c)
  | [] => (false, c)

/-- Takes the next two characters if they are `first` and `second`, else neither. -/
def takeIfPair (first second : Char) (c : Cursor) : Bool × Cursor :=
  match c.rest with
  | ch :: ch' :: _ => if ch = first ∧ ch' = second then (true, c.next.next) else (false, c)
  | _ => (false, c)

/-- Takes characters as long as they satisfy `p`. -/
def takeWhile (p : Char → Bool) (c : Cursor) : Cursor :=
  ⟨c.rest.dropWhile p, c.position.advanceBy (c.rest.takeWhile p)⟩

/-- Takes characters up to the first that satisfies `p`. -/
def takeUntil (p : Char → Bool) (c : Cursor) : Cursor := c.takeWhile fun ch => !p ch

/-! ## Lemmas -/

theorem next_suffix (c : Cursor) : c.next.rest <:+ c.rest := by
  unfold next
  split
  · exact List.suffix_refl _
  · next h => rw [h]; exact List.suffix_cons _ _

theorem takeIf_suffix (target : Char) (c : Cursor) : (c.takeIf target).2.rest <:+ c.rest := by
  unfold takeIf
  split
  · split
    · exact next_suffix c
    · exact List.suffix_refl _
  · exact List.suffix_refl _

theorem takeWhile_suffix (p : Char → Bool) (c : Cursor) : (c.takeWhile p).rest <:+ c.rest :=
  List.dropWhile_suffix p

end Cursor

end Lox

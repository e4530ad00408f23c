/-!
# Positions and spans

A position is a place between two characters of a source text; a span is the text between two of
them.  Positions are compared by byte, then line, then column, so the smallest span covering two
others takes the lesser start and the greater end.  `Span.text?` cuts the source at byte offsets
and answers nothing where an offset falls inside a character.
-/

namespace Lox

/-! ## Positions -/

/-- A place in a source text: bytes count from 0 in UTF-8, lines and columns from 1, and a column
is a number of characters.  The place that is nowhere has all three zero. -/
structure Position where
  byte : Nat
  line : Nat
  column : Nat
deriving DecidableEq, Repr

namespace Position

/-- The place before the first character. -/
def start : Position := ⟨0, 1, 1⟩

/-- The place after the character `c`.  Only a line feed begins a new line. -/
def advance (p : Position) (c : Char) : Position :=
  if c = '\n' then ⟨p.byte + c.utf8Size, p.line + 1, 1⟩
  else ⟨p.byte + c.utf8Size, p.line, p.column + 1⟩

/-- The place after all of `cs`. -/
def advanceBy (p : Position) (cs : List Char) : Position :=
  cs.foldl advance p

/-- Earlier in byte order; equal bytes are told apart by line, then by column. -/
instance : LE Position where
  le a b := a.byte < b.byte ∨
    (a.byte = b.byte ∧ (a.line < b.line ∨ (a.line = b.line ∧ a.column ≤ b.column)))

instance (a b : Position) : Decidable (a ≤ b) :=
  inferInstanceAs (Decidable (a.byte < b.byte ∨
    (a.byte = b.byte ∧ (a.line < b.line ∨ (a.line = b.line ∧ a.column ≤ b.column)))))

instance : Min Position := minOfLe

instance : Max Position := maxOfLe

/-- How a position is shown to a reader. -/
def text (p : Position) : String :=
  toString p.line ++ ":" ++ toString p.column

theorem le_def (a b : Position) : a ≤ b ↔ a.byte < b.byte ∨
    (a.byte = b.byte ∧ (a.line < b.line ∨ (a.line = b.line ∧ a.column ≤ b.column))) :=
  Iff.rfl

theorem le_refl (a : Position) : a ≤ a := by
  rw [le_def]; omega

theorem le_trans {a b c : Position} (hab : a ≤ b) (hbc : b ≤ c) : a ≤ c := by
  rw [le_def] at *; omega

theorem le_total (a b : Position) : a ≤ b ∨ b ≤ a := by
  rw [le_def, le_def]; omega

theorem le_antisymm {a b : Position} (hab : a ≤ b) (hba : b ≤ a) : a = b := by
  rw [le_def] at *
  cases a; cases b
  simp only [mk.injEq] at *
  omega

end Position

/-! ## Spans -/

/-- The source text from `start` up to, and without, `stop`. -/
structure Span where
  start : Position
  stop : Position
deriving DecidableEq, Repr

namespace Span

/-- The span of what stands in no source text. -/
def nowhere : Span := ⟨⟨0, 0, 0⟩, ⟨0, 0, 0⟩⟩

/-- The span from byte `a` to byte `b` of an ASCII text of one line. -/
def onLine (a b : Nat) : Span := ⟨⟨a, 1, a + 1⟩, ⟨b, 1, b + 1⟩⟩

/-- The smallest span that covers both. -/
def extend (a b : Span) : Span := ⟨min a.start b.start, max a.stop b.stop⟩

/-- The first `n` bytes of a span that begins with ASCII text, or all of it if it is shorter. -/
def head (s : Span) (n : Nat) : Span :=
  ⟨s.start, min { s.start with byte := s.start.byte + n, column := s.start.column + n } s.stop⟩

/-- The line that messages about the span name. -/
def line (s : Span) : Nat := s.start.line

def isEmpty (s : Span) : Bool := s.start.byte == s.stop.byte

/-! ## Cutting a text at byte offsets -/

/-- The text cut after `n` bytes, if that many are there and none of its characters is split. -/
def splitBytes? : Nat → List Char → Option (List Char × List Char)
  | 0, cs => some ([], cs)
  | _ + 1, [] => none
  | n + 1, c :: cs =>
    if c.utf8Size ≤ n + 1 then
      (splitBytes? (n + 1 - c.utf8Size) cs).map fun (front, rest) => (c :: front, rest)
    else none

/-- The text under the span, if its ends are in order and fall between characters of `source`. -/
def text? (s : Span) (source : String) : Option String :=
  if s.start.byte ≤ s.stop.byte then do
    let (_, rest) ← splitBytes? s.start.byte source.toList
    let (front, _) ← splitBytes? (s.stop.byte - s.start.byte) rest
    some (String.ofList front)
  else none

end Span

end Lox

/-!
# Output

The bytes that a program has printed, and how many more it may print.  A text that is too long for
the room that is left is printed as far as it fits.
-/

namespace Lox

structure Output where
  written : ByteArray
  /-- How many bytes there is room for, if not for any number. -/
  room : Option Nat

namespace Output

/-- Why no more can be printed when there is no room. -/
def limitReached : String := "output limit reached"

/-- Nothing printed yet, with room for `limit` bytes. -/
def empty (limit : Option Nat) : Output := ⟨ByteArray.empty, limit⟩

/-- Prints a text or as much of it as there is room for, and tells whether that was all. -/
def write (o : Output) (text : String) : Bool × Output :=
  match o.room with
  | none => (true, { o with written := o.written ++ text.toUTF8 })
  | some room =>
    let bytes := text.toUTF8
    if bytes.size ≤ room then
      (true, { written := o.written ++ bytes, room := some (room - bytes.size) })
    else (false, { written := o.written ++ bytes.extract 0 room, room := some 0 })

/-- The bytes of a text, where a character at the end may be cut: it is shown as a replacement
character. -/
def decode (bytes : ByteArray) : String :=
  -- a character has at most four bytes, so one of four cuts is between characters
  let cuts := (List.range 4).filterMap fun n =>
    if n ≤ bytes.size then
      (String.fromUTF8? (bytes.extract 0 (bytes.size - n))).map fun text =>
        if n = 0 then text else text ++ "\uFFFD"
    else none
  cuts.headD ""

/-- The text printed from byte `start` on. -/
def textFrom (o : Output) (start : Nat) : String :=
  decode (o.written.extract start o.written.size)

end Output

end Lox

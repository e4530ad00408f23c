import Lox.Number.Text
import Lox.Heap.Basic

/-!
# How values are written

The text of a value, as `print` and `str` give it.  An array is written with its elements, except
that where it is an element of itself, at any depth, it is written as `[...]`: while an array is
being written it is on a list of such arrays, and it is taken off behind its last element.
-/

namespace Lox.Heap

/-- The text of a value that holds no others. -/
def textOfAtom (h : Heap) : Value → String
  | .number x => Number.Style.value.text x
  | .boolean b => if b then "true" else "false"
  | .string s => s
  | .nil => "nil"
  | .array _ => "[...]"
  | .native _ => "<native fn>"
  | .function f => "<fn " ++ f.name ++ ">"
  | .klass c => "<class " ++ h.className c ++ ">"
  | .object i =>
    match h.instances[i.index]? with
    | some o => "<" ++ h.className o.klass ++ " instance>"
    | none => "< instance>"
  | .trait t =>
    match h.traits[t.index]? with
    | some k => "<trait " ++ k.name ++ ">"
    | none => "<trait >"

/-- Writing something while arrays are being written, the innermost first.  Nothing comes of it if
too many arrays lie one in another. -/
abbrev Writing := StateT (List ArrayId) Option

/-- Writes a value, for at most `depth` more arrays one in another. -/
def write (h : Heap) : Nat → Value → Writing String
  | depth, .array a => do
    if a ∈ (← get) then return h.textOfAtom (.array a)
    match depth with
    | 0 => failure
    | depth + 1 =>
      modify (a :: ·)
      let texts ← (h.elements a).toList.mapM (h.write depth)
      modify List.tail
      return "[" ++ ", ".intercalate texts ++ "]"
  | _, v => return h.textOfAtom v

/-- The text of a value.  No more arrays than there are can lie one in another before one of them
comes again. -/
def text (h : Heap) (v : Value) : String :=
  match h.write (h.arrays.size + 1) v [] with
  | some (text, _) => text
  | none => ""

end Lox.Heap

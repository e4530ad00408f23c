import Lox.Number.Double
import Lox.Value.Basic
import Lox.Value.Error

/-!
# Operators on values

What the operators of the language compute.  Only numbers are calculated with and compared by size,
except that strings can be added; any two values can be compared for equality.  What comes out could
be written as a literal:

    op.apply a b = .ok v → ∃ l, v = .ofLiteral l                          (BinaryOp.exists_ofLiteral)
-/

namespace Lox

/-- The result of an operation that knows no source. -/
abbrev Operation := Except RuntimeErrorKind

/-- An operation on numbers alone. -/
def onNumbers (op : BinaryOp) (f : Float → Float → Value) : Value → Value → Operation Value
  | .number a, .number b => .ok (f a b)
  | _, _ => .error (.operandsNotNumbers op)

theorem onNumbers_eq_ok {op : BinaryOp} {f : Float → Float → Value} {a b v : Value}
    (hv : onNumbers op f a b = .ok v) : ∃ x y, v = f x y := by
  unfold onNumbers at hv
  split at hv
  · next x y =>
    cases hv
    exact ⟨x, y, rfl⟩
  · cases hv

namespace BinaryOp

/-- Dividing by zero, of either sign, is an error; what is left by zero is not a number. -/
def apply : BinaryOp → Value → Value → Operation Value
  | add, .number a, .number b => .ok (.number (a + b))
  | add, .string a, .string b => .ok (.string (a ++ b))
  | add, _, _ => .error .illegalAddition
  | subtract, a, b => onNumbers subtract (fun a b => .number (a - b)) a b
  | multiply, a, b => onNumbers multiply (fun a b => .number (a * b)) a b
  | divide, .number a, .number b =>
    if b == 0 then .error .divisionByZero else .ok (.number (a / b))
  | divide, _, _ => .error (.operandsNotNumbers divide)
  | remainder, a, b => onNumbers remainder (fun a b => .number (Number.remainder a b)) a b
  | equal, a, b => .ok (.boolean (a.same b))
  | notEqual, a, b => .ok (.boolean !(a.same b))
  | greater, a, b => onNumbers greater (fun a b => .boolean (a > b)) a b
  | greaterEqual, a, b => onNumbers greaterEqual (fun a b => .boolean (a ≥ b)) a b
  | less, a, b => onNumbers less (fun a b => .boolean (a < b)) a b
  | lessEqual, a, b => onNumbers lessEqual (fun a b => .boolean (a ≤ b)) a b

theorem exists_ofLiteral {op : BinaryOp} {a b v : Value} (hv : op.apply a b = .ok v) :
    ∃ l, v = .ofLiteral l := by
  cases op with
  | add =>
    cases a <;> cases b <;> cases hv
    · exact ⟨.number _, rfl⟩
    · exact ⟨.string _, rfl⟩
  | divide =>
    cases a <;> cases b
    case number.number x y =>
      rw [apply] at hv
      split at hv
      · cases hv
      · cases hv
        exact ⟨.number _, rfl⟩
    all_goals cases hv
  | subtract | multiply | remainder =>
    obtain ⟨x, y, rfl⟩ := onNumbers_eq_ok hv
    exact ⟨.number _, rfl⟩
  | equal | notEqual =>
    cases hv
    exact ⟨.boolean _, rfl⟩
  | greater | greaterEqual | less | lessEqual =>
    obtain ⟨x, y, rfl⟩ := onNumbers_eq_ok hv
    exact ⟨.boolean _, rfl⟩

end BinaryOp

namespace UnaryOp

def apply : UnaryOp → Value → Operation Value
  | negate, .number x => .ok (.number (-x))
  | negate, _ => .error (.operandNotNumber negate)
  | not, v => .ok (.boolean !v.isTruthy)

theorem exists_ofLiteral {op : UnaryOp} {a v : Value} (hv : op.apply a = .ok v) :
    ∃ l, v = .ofLiteral l := by
  cases op with
  | negate =>
    cases a <;> cases hv
    exact ⟨.number _, rfl⟩
  | not =>
    cases hv
    exact ⟨.boolean _, rfl⟩

end UnaryOp

/-- Whether the logical operator takes its left operand as the result. -/
def LogicalOp.isDecidedBy : LogicalOp → Value → Bool
  | and, v => !v.isTruthy
  | or, v => v.isTruthy

/-- The position that a value means in an array of `size` elements: a whole number from 0 on and
less than `size`. -/
def Value.position? (size : Nat) : Value → Operation Nat
  | number x =>
    match Number.Double.ofFloat? x with
    | none => .error .nonIntegerIndex
    | some d =>
      match d.whole? with
      | none => .error .nonIntegerIndex
      | some n =>
        if d.negative ∧ n ≠ 0 then .error .negativeIndex
        else if size ≤ n then .error .indexOutOfBounds
        else .ok n
  | _ => .error .nonIntegerIndex

end Lox

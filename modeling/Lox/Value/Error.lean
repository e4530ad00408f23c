import Lox.Syntax.Error
import Lox.Syntax.Tree

/-!
# Errors of running programs

What can go wrong when a program runs, each with the span of the part that it went wrong in.
-/

namespace Lox

inductive RuntimeErrorKind
  | operandsNotNumbers (op : BinaryOp)
  | illegalAddition
  | operandNotNumber (op : UnaryOp)
  | divisionByZero
  | undefinedVariable (name : String)
  | undefinedProperty (name : String)
  | notAnInstance
  | notCallable
  | wrongArity (expected actual : Nat)
  | notAClass
  | notATrait (name : String)
  | emptyGetter
  | getterWithoutReturn
  | notAnArray
  | nonIntegerIndex
  | negativeIndex
  | indexOutOfBounds
  | expectedArray
  /-- Printing failed, for what reason its destination gives. -/
  | outputFailed (reason : String)
deriving DecidableEq, Repr

def RuntimeErrorKind.message : RuntimeErrorKind → String
  | operandsNotNumbers _ => "Both operands should be numbers."
  | illegalAddition => "Both operands should be numbers or strings."
  | operandNotNumber _ => "Operand must be a number."
  | divisionByZero => "Division by zero is prohibited."
  | undefinedVariable name => "Undefined variable '" ++ name ++ "'."
  | undefinedProperty name => "Undefined property '" ++ name ++ "'."
  | notAnInstance => "Only instances have properties."
  | notCallable => "Non callable object, can only call functions and classes."
  | wrongArity expected actual =>
    "Expected " ++ toString expected ++ " arguments, but got " ++ toString actual ++ "."
  | notAClass => "Superclass must be a class."
  | notATrait name => "'" ++ name ++ "' is not a trait."
  | emptyGetter => "Class getters should not have empty bodies."
  | getterWithoutReturn => "Class getters should return value explicitly."
  | notAnArray => "Only arrays can be indexed."
  | nonIntegerIndex => "Array indices should be an integer."
  | negativeIndex => "Array indices should be positive."
  | indexOutOfBounds => "Array index is out of bounds."
  | expectedArray => "Expected an array argument."
  | outputFailed reason => "Failed to write output: " ++ reason

structure RuntimeError where
  span : Span
  kind : RuntimeErrorKind
deriving DecidableEq, Repr

namespace RuntimeError

def message (e : RuntimeError) : String := e.kind.message

def text (e : RuntimeError) : String := "[line " ++ toString e.span.line ++ "] " ++ e.message

end RuntimeError

end Lox

import Lox.Syntax.Tree

/-!
# Values

What programs compute with.  Numbers, booleans, strings and `nil` are what they are; arrays,
classes, instances and traits are places in the heap, so that two of them are the same value if
they are the same place.  A function carries its own identity: it never changes, but two functions
made from one text are different values.
-/

namespace Lox

/-! ## Places in the heap -/

structure FrameId where
  index : Nat
deriving DecidableEq, Repr

structure ArrayId where
  index : Nat
deriving DecidableEq, Repr

structure ClassId where
  index : Nat
deriving DecidableEq, Repr

structure InstanceId where
  index : Nat
deriving DecidableEq, Repr

structure TraitId where
  index : Nat
deriving DecidableEq, Repr

/-! ## Functions -/

/-- What a function was declared as. -/
inductive FunctionKind
  | function | method | staticMethod | initializer
deriving DecidableEq, Repr

/-- A function of a running program: its text and the frame it was made in. -/
structure Closure where
  identity : Nat
  function : Function
  frame : FrameId
  kind : FunctionKind

namespace Closure

def name (f : Closure) : String := f.function.name.name

def arity (f : Closure) : Nat := f.function.arity

/-- Whether the function runs when it is accessed as a member. -/
def isGetter (f : Closure) : Bool := f.kind != .function && f.function.isGetter

end Closure

/-- The functions that every program starts with. -/
inductive Native
  | clock | str | append | len
deriving DecidableEq, Repr

namespace Native

def all : List Native := [clock, str, append, len]

def name : Native → String
  | clock => "clock"
  | str => "str"
  | append => "append"
  | len => "len"

def arity : Native → Nat
  | clock => 0
  | str => 1
  | append => 2
  | len => 1

end Native

/-! ## Values -/

inductive Value
  | number (x : Float)
  | boolean (b : Bool)
  | string (s : String)
  | nil
  | array (id : ArrayId)
  | native (f : Native)
  | function (f : Closure)
  | klass (id : ClassId)
  /-- An instance of a class. -/
  | object (id : InstanceId)
  | trait (id : TraitId)

namespace Value

def ofLiteral : Literal → Value
  | .number x => number x
  | .boolean b => boolean b
  | .string s => string s
  | .nil => nil

/-- All values but `nil` and `false` count as true. -/
def isTruthy : Value → Bool
  | nil | boolean false => false
  | _ => true

/-- Whether two values are the same: numbers by the rules for doubles, where no number at all
differs from itself, strings by their text, and what lives in the heap by its place. -/
def same : Value → Value → Bool
  | number a, number b => a == b
  | boolean a, boolean b => a == b
  | string a, string b => a == b
  | nil, nil => true
  | array a, array b => a == b
  | native a, native b => a == b
  | function a, function b => a.identity == b.identity
  | klass a, klass b => a == b
  | object a, object b => a == b
  | trait a, trait b => a == b
  | _, _ => false

end Value

end Lox

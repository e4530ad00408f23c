import Lox.Source.Span

/-!
# Syntax trees

The tree of a program.  Every expression has an identity (`ExprId`), by which what is known about
its names is recorded; expressions and statements know the text they were read from.
-/

namespace Lox

/-! ## Operators and literals -/

inductive BinaryOp
  | add | subtract | multiply | divide | remainder
  | equal | notEqual | greater | greaterEqual | less | lessEqual
deriving DecidableEq, Repr

inductive UnaryOp
  | negate | not
deriving DecidableEq, Repr

inductive LogicalOp
  | and | or
deriving DecidableEq, Repr

def BinaryOp.text : BinaryOp → String
  | add => "+"
  | subtract => "-"
  | multiply => "*"
  | divide => "/"
  | remainder => "%"
  | equal => "=="
  | notEqual => "!="
  | greater => ">"
  | greaterEqual => ">="
  | less => "<"
  | lessEqual => "<="

def UnaryOp.text : UnaryOp → String
  | negate => "-"
  | not => "!"

def LogicalOp.text : LogicalOp → String
  | and => "and"
  | or => "or"

inductive Literal
  | number (x : Float)
  | boolean (b : Bool)
  | string (s : String)
  | nil
deriving Repr

/-! ## Names -/

/-- A name where it stands in the source. -/
structure Identifier where
  name : String
  span : Span
deriving DecidableEq, Repr

/-- The identity of an expression. -/
abbrev ExprId := Nat

/-- A name that is looked up: the superclass or a trait of a class. -/
structure Reference where
  id : ExprId
  name : Identifier
deriving DecidableEq, Repr

namespace Name

/-- The method that sets up a new instance. -/
def init : String := "init"

/-- The instance that a method was called on. -/
def this : String := "this"

/-- The class that a class extends. -/
def super : String := "super"

/-- What functions without a name are called. -/
def lambda : String := "lambda"

end Name

/-! ## Expressions and statements -/

mutual

structure Expr where
  id : ExprId
  span : Span
  node : Expr.Node

inductive Expr.Node
  | literal (value : Literal)
  | group (inner : Expr)
  | binary (op : BinaryOp) (left right : Expr)
  | unary (op : UnaryOp) (operand : Expr)
  | logical (op : LogicalOp) (left right : Expr)
  | ternary (condition yes no : Expr)
  | variable (name : Identifier)
  | assign (name : Identifier) (value : Expr)
  | call (callee : Expr) (args : List Expr)
  | get (object : Expr) (property : Identifier)
  | set (object : Expr) (property : Identifier) (value : Expr)
  | array (elements : List Expr)
  | index (array position : Expr)
  | indexSet (array position value : Expr)
  | lambda (function : Function)
  | this
  | super (method : Identifier)

/-- A function as written.  A getter is a member with no parameter list. -/
structure Function where
  name : Identifier
  params : List Identifier
  body : List Stmt
  isGetter : Bool
  span : Span

structure Stmt where
  span : Span
  node : Stmt.Node

inductive Stmt.Node
  | expression (e : Expr)
  | print (e : Expr)
  | varDecl (name : Identifier) (init : Option Expr)
  | block (body : List Stmt)
  | ifElse (condition : Expr) (yes : Stmt) (no : Option Stmt)
  | while (condition : Expr) (body : Stmt)
  | for (init : Option Stmt) (condition step : Option Expr) (body : Stmt)
  | break
  | continue
  | funDecl (function : Function)
  | return (value : Option Expr)
  | classDecl (name : Identifier) (superclass : Option Reference) (traits : List Reference)
      (methods statics : List Function)
  | traitDecl (name : Identifier) (methods statics : List Function)

end

/-- A program and the first identity that none of its expressions has. -/
structure Tree where
  body : List Stmt
  nextId : ExprId

namespace Function

def arity (f : Function) : Nat := f.params.length

/-- Whether a `return` stands directly in the body, not inside another statement. -/
def returnsDirectly (f : Function) : Bool :=
  f.body.any fun s => match s.node with
    | .return _ => true
    | _ => false

end Function

end Lox

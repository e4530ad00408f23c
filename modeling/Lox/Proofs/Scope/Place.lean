import Lox.Scope.Resolution

/-!
# Places in a program

Where a part of a program stands: which scopes are open around it, what opened each of them, and
which names each has declared by then.  `Inside` goes from a part to the parts right inside it and
says how the place changes on the way; `Occurs body π n` is any number of such steps from the
whole program.  Nothing here walks or runs anything: these are the rules of lexical scope that
resolving and running are compared with.

    π.distance? name = some i → ∃ o, π.openings[i]? = some o ∧ name ∈ o.names
                                                            (exists_opening_of_distance?)
-/

namespace Lox

/-- The operands of an expression, in the order of evaluation. -/
def Expr.Node.operands : Expr.Node → List Expr
  | .group e | .unary _ e | .assign _ e | .get e _ => [e]
  | .binary _ a b | .logical _ a b | .index a b | .set a _ b => [a, b]
  | .ternary a b c | .indexSet a b c => [a, b, c]
  | .call callee args => callee :: args
  | .array elements => elements
  | _ => []

namespace Lexical

open Resolution (Context FunctionContext ClassContext)

/-! ## Openings -/

/-- What opens a scope. -/
inductive Site
  /-- A block or `for`, or the superclass of a class. -/
  | stmt (s : Stmt)
  /-- A function, for its parameters and its body. -/
  | call (f : Function)
  /-- An instance member, for the `this` around it. -/
  | receiver (f : Function)

/-- An open scope and the names that it has declared so far. -/
structure Opening where
  site : Site
  /-- The names whose declarations lie behind. -/
  ready : List String
  /-- The local in whose initializer the place lies. -/
  pending : Option String

namespace Opening

def names (o : Opening) : List String := o.ready ++ o.pending.toList

/-- Behind the declaration of a name. -/
def declare (name : String) (o : Opening) : Opening :=
  { o with ready := o.ready ++ [name], pending := none }

/-- In the initializer of a local. -/
def initializing (name : String) (o : Opening) : Opening := { o with pending := some name }

end Opening

/-! ## Places -/

structure Place where
  /-- The open scopes, innermost first. -/
  openings : List Opening
  context : Context

namespace Place

/-- The place of a whole program. -/
def program : Place := ⟨[], .topLevel⟩

/-- Changes the innermost scope, if one is open. -/
def modifyInnermost (f : Opening → Opening) (π : Place) : Place :=
  { π with openings := π.openings.modifyHead f }

def declare (name : String) (π : Place) : Place := π.modifyInnermost (·.declare name)

def initializing (name : String) (π : Place) : Place := π.modifyInnermost (·.initializing name)

/-- In a scope of its own. -/
def enter (site : Site) (names : List String) (π : Place) : Place :=
  { π with openings := ⟨site, names, none⟩ :: π.openings }

def inLoop (π : Place) : Place := { π with context := π.context.enterLoop }

/-- In the body of a function. -/
def inFunction (kind : FunctionContext) (f : Function) (π : Place) : Place :=
  { openings := ⟨.call f, f.params.map Identifier.name, none⟩ :: π.openings
    context := π.context.enterFunction kind }

/-- Among the members of the class that the statement `s` declares. -/
def inClass (s : Stmt) (name : Identifier) (superclass : Option Reference) (π : Place) : Place :=
  match superclass with
  | none => { π.declare name.name with context := π.context.enterClass .plain }
  | some _ =>
    { π.declare name.name with context := π.context.enterClass .subclass }.enter
      (.stmt s) [Name.super]

/-- Among the members of a trait. -/
def inTrait (name : Identifier) (π : Place) : Place :=
  { π.declare name.name with context := π.context.enterClass .trait }

/-- Around the member `f` of instances, where `this` is known. -/
def inReceiver (f : Function) (π : Place) : Place := π.enter (.receiver f) [Name.this]

/-- Behind a statement. -/
def after (s : Stmt) (π : Place) : Place :=
  match s.node with
  | .varDecl name _ | .classDecl name _ _ _ _ | .traitDecl name _ _ => π.declare name.name
  | .funDecl f => π.declare f.name.name
  | _ => π

/-- Behind the first clause of a `for`. -/
def afterClause (init : Option Stmt) (π : Place) : Place :=
  match init with
  | some s => π.after s
  | none => π

/-- How many scopes out the innermost one that has declared a name is. -/
def distance? (name : String) (π : Place) : Option Nat :=
  π.openings.findIdx? fun o => name ∈ o.names

end Place

/-! ## Parts of a program -/

/-- A part of a program. -/
inductive Node
  | stmts (body : List Stmt)
  | stmt (s : Stmt)
  | expr (e : Expr)
  | function (kind : FunctionContext) (f : Function)
  /-- A use of a name, by the identity of its expression, and whether it reads. -/
  | use (id : ExprId) (name : String) (reads : Bool)

/-- What an instance member is to its body. -/
def methodContext (f : Function) : FunctionContext :=
  if f.name.name = Name.init then .initializer else .method

/-- The parts right inside a part, and their places. -/
inductive Inside : Place → Node → Place → Node → Prop
  | first {π : Place} {s : Stmt} {ss : List Stmt} : Inside π (.stmts (s :: ss)) π (.stmt s)
  | rest {π : Place} {s : Stmt} {ss : List Stmt} :
      Inside π (.stmts (s :: ss)) (π.after s) (.stmts ss)
  | operand {π : Place} {id : ExprId} {span : Span} {node : Expr.Node} {e : Expr} :
      e ∈ node.operands → Inside π (.expr ⟨id, span, node⟩) π (.expr e)
  | lambda {π : Place} {id : ExprId} {span : Span} {f : Function} :
      Inside π (.expr ⟨id, span, .lambda f⟩) π (.function .function f)
  | variable {π : Place} {id : ExprId} {span : Span} {name : Identifier} :
      Inside π (.expr ⟨id, span, .variable name⟩) π (.use id name.name true)
  | assign {π : Place} {id : ExprId} {span : Span} {name : Identifier} {value : Expr} :
      Inside π (.expr ⟨id, span, .assign name value⟩) π (.use id name.name false)
  | this {π : Place} {id : ExprId} {span : Span} :
      Inside π (.expr ⟨id, span, .this⟩) π (.use id Name.this true)
  | super {π : Place} {id : ExprId} {span : Span} {name : Identifier} :
      Inside π (.expr ⟨id, span, .super name⟩) π (.use id Name.super true)
  | body {π : Place} {kind : FunctionContext} {f : Function} :
      Inside π (.function kind f) (π.inFunction kind f) (.stmts f.body)
  | expression {π : Place} {span : Span} {e : Expr} :
      Inside π (.stmt ⟨span, .expression e⟩) π (.expr e)
  | print {π : Place} {span : Span} {e : Expr} : Inside π (.stmt ⟨span, .print e⟩) π (.expr e)
  | initializer {π : Place} {span : Span} {name : Identifier} {e : Expr} :
      Inside π (.stmt ⟨span, .varDecl name (some e)⟩) (π.initializing name.name) (.expr e)
  | block {π : Place} {span : Span} {body : List Stmt} :
      Inside π (.stmt ⟨span, .block body⟩)
        (π.enter (.stmt ⟨span, .block body⟩) []) (.stmts body)
  | ifCondition {π : Place} {span : Span} {condition : Expr} {yes : Stmt} {no : Option Stmt} :
      Inside π (.stmt ⟨span, .ifElse condition yes no⟩) π (.expr condition)
  | ifYes {π : Place} {span : Span} {condition : Expr} {yes : Stmt} {no : Option Stmt} :
      Inside π (.stmt ⟨span, .ifElse condition yes no⟩) π (.stmt yes)
  | ifNo {π : Place} {span : Span} {condition : Expr} {yes no : Stmt} :
      Inside π (.stmt ⟨span, .ifElse condition yes (some no)⟩) π (.stmt no)
  | whileCondition {π : Place} {span : Span} {condition : Expr} {body : Stmt} :
      Inside π (.stmt ⟨span, .while condition body⟩) π (.expr condition)
  | whileBody {π : Place} {span : Span} {condition : Expr} {body : Stmt} :
      Inside π (.stmt ⟨span, .while condition body⟩) π.inLoop (.stmt body)
  | forInit {π : Place} {span : Span} {init : Stmt} {condition step : Option Expr}
      {body : Stmt} :
      Inside π (.stmt ⟨span, .for (some init) condition step body⟩)
        (π.enter (.stmt ⟨span, .for (some init) condition step body⟩) []) (.stmt init)
  | forCondition {π : Place} {span : Span} {init : Option Stmt} {condition : Expr}
      {step : Option Expr} {body : Stmt} :
      Inside π (.stmt ⟨span, .for init (some condition) step body⟩)
        ((π.enter (.stmt ⟨span, .for init (some condition) step body⟩) []).afterClause init)
        (.expr condition)
  | forStep {π : Place} {span : Span} {init : Option Stmt} {condition : Option Expr}
      {step : Expr} {body : Stmt} :
      Inside π (.stmt ⟨span, .for init condition (some step) body⟩)
        ((π.enter (.stmt ⟨span, .for init condition (some step) body⟩) []).afterClause init)
        (.expr step)
  | forBody {π : Place} {span : Span} {init : Option Stmt} {condition step : Option Expr}
      {body : Stmt} :
      Inside π (.stmt ⟨span, .for init condition step body⟩)
        ((π.enter (.stmt ⟨span, .for init condition step body⟩) []).afterClause init).inLoop
        (.stmt body)
  | funDecl {π : Place} {span : Span} {f : Function} :
      Inside π (.stmt ⟨span, .funDecl f⟩) (π.declare f.name.name) (.function .function f)
  | returnValue {π : Place} {span : Span} {e : Expr} :
      Inside π (.stmt ⟨span, .return (some e)⟩) π (.expr e)
  | superclass {π : Place} {span : Span} {name : Identifier} {r : Reference}
      {traits : List Reference} {ms ss : List Function} :
      Inside π (.stmt ⟨span, .classDecl name (some r) traits ms ss⟩) (π.declare name.name)
        (.use r.id r.name.name true)
  | trait {π : Place} {span : Span} {name : Identifier} {superclass : Option Reference}
      {traits : List Reference} {ms ss : List Function} {r : Reference} :
      r ∈ traits →
      Inside π (.stmt ⟨span, .classDecl name superclass traits ms ss⟩) (π.declare name.name)
        (.use r.id r.name.name true)
  | method {π : Place} {span : Span} {name : Identifier} {superclass : Option Reference}
      {traits : List Reference} {ms ss : List Function} {f : Function} :
      f ∈ ms →
      Inside π (.stmt ⟨span, .classDecl name superclass traits ms ss⟩)
        ((π.inClass ⟨span, .classDecl name superclass traits ms ss⟩ name superclass).inReceiver f)
        (.function (methodContext f) f)
  | static {π : Place} {span : Span} {name : Identifier} {superclass : Option Reference}
      {traits : List Reference} {ms ss : List Function} {f : Function} :
      f ∈ ss →
      Inside π (.stmt ⟨span, .classDecl name superclass traits ms ss⟩)
        (π.inClass ⟨span, .classDecl name superclass traits ms ss⟩ name superclass)
        (.function .staticMethod f)
  | traitMethod {π : Place} {span : Span} {name : Identifier} {ms ss : List Function}
      {f : Function} :
      f ∈ ms →
      Inside π (.stmt ⟨span, .traitDecl name ms ss⟩) ((π.inTrait name).inReceiver f)
        (.function (methodContext f) f)
  | traitStatic {π : Place} {span : Span} {name : Identifier} {ms ss : List Function}
      {f : Function} :
      f ∈ ss →
      Inside π (.stmt ⟨span, .traitDecl name ms ss⟩) (π.inTrait name) (.function .staticMethod f)

/-- The parts of a program at any depth, and their places. -/
inductive Occurs (body : List Stmt) : Place → Node → Prop
  | program : Occurs body .program (.stmts body)
  | inside {π π' : Place} {n n' : Node} :
      Occurs body π n → Inside π n π' n' → Occurs body π' n'

/-! ## Lemmas -/

theorem Place.exists_opening_of_distance? {π : Place} {name : String} {i : Nat}
    (h : π.distance? name = some i) :
    ∃ o, π.openings[i]? = some o ∧ name ∈ o.names := by
  obtain ⟨hi, hname, -⟩ := List.findIdx?_eq_some_iff_getElem.1 h
  exact ⟨π.openings[i], List.getElem?_eq_getElem hi, by simpa using hname⟩

theorem Place.distance?_eq_none_iff {π : Place} {name : String} :
    π.distance? name = none ↔ ∀ o ∈ π.openings, name ∉ o.names := by
  simp [Place.distance?]

end Lexical

end Lox

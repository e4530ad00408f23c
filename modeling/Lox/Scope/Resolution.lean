import Lox.Table
import Lox.Syntax.Tree
import Lox.Scope.Error

/-!
# Which scope a name means

Names are resolved before a program runs.  Walking through the program with the stack of open
scopes, each use of a local is recorded with its distance: how many scopes out the innermost one
lies that has declared the name by then.  A name that no open scope has declared is global and is
looked up when the program runs.  On the way the rules of `ScopeErrorKind` are checked, up to the
first that is broken, and locals that nothing reads are collected as each scope closes.

A step works in a context, what encloses it, and leaves the context and the number of scopes as it
found them, also when it ends in an error.  All it may do to the scopes is to declare names in the
innermost one and to mark variables as defined or read.
-/

namespace Lox

/-- The distance of every use of a local, and the warnings. -/
structure Resolution where
  distances : List (ExprId × Nat)
  warnings : List Warning

namespace Resolution

/-! ## Scopes -/

/-- How far a variable has come. -/
inductive Status
  /-- Its initializer is being walked through. -/
  | declared
  | defined
  | read
deriving DecidableEq, Repr

structure Variable where
  status : Status
  span : Span
  /-- Whether to warn if nothing reads it. -/
  warns : Bool
deriving DecidableEq, Repr

/-- The variables declared so far between two braces, or in a function or `for`. -/
abbrev Scope := Table Variable

namespace Variable

def define (v : Variable) : Variable :=
  if v.status = .declared then { v with status := .defined } else v

def markRead (v : Variable) : Variable := { v with status := .read }

/-- The receiver in a method, or the superclass in a class: not written by the program. -/
def implicit : Variable := ⟨.read, .nowhere, false⟩

end Variable

/-- The warnings that a scope leaves, by source position. -/
def unused (scope : Scope) : List Warning :=
  let warnings := scope.entries.filterMap fun (name, v) =>
    if v.warns && v.status != .read then some ⟨v.span, name⟩ else none
  warnings.mergeSort fun a b => a.span.start ≤ b.span.start

/-- How many scopes out the innermost one with `name` is. -/
def distance? (name : String) (scopes : List Scope) : Option Nat :=
  scopes.findIdx? (·.contains name)

/-! ## Contexts -/

/-- The innermost function around a place. -/
inductive FunctionContext
  | none | function | method | staticMethod | initializer
deriving DecidableEq, Repr

/-- The innermost class or trait around a place. -/
inductive ClassContext
  | none | plain | subclass | trait
deriving DecidableEq, Repr

/-- What encloses a place. -/
structure Context where
  function : FunctionContext
  owner : ClassContext
  /-- Whether the innermost member is static; other functions do not change it. -/
  inStatic : Bool
  /-- How many loops of the innermost function are open. -/
  loops : Nat
deriving DecidableEq, Repr

namespace Context

def topLevel : Context := ⟨.none, .none, false, 0⟩

def enterLoop (c : Context) : Context := { c with loops := c.loops + 1 }

def enterClass (kind : ClassContext) (c : Context) : Context := { c with owner := kind }

def enterFunction (kind : FunctionContext) (c : Context) : Context :=
  { c with
    function := kind
    inStatic := match kind with
      | .staticMethod => true
      | .method | .initializer => false
      | .function | .none => c.inStatic
    loops := 0 }

end Context

/-- A kind of region with a context of its own.  Only what changes at its beginning is put back at
its end; the rest of the context is as the walk through the region leaves it. -/
structure Region where
  enter : Context → Context
  leave : (before after : Context) → Context
  leave_enter : ∀ c, leave c (enter c) = c

namespace Region

/-- The body of a loop. -/
def loop : Region where
  enter := Context.enterLoop
  leave _ after := { after with loops := after.loops - 1 }
  leave_enter _ := rfl

/-- The members of a class or trait. -/
def members (kind : ClassContext) : Region where
  enter := Context.enterClass kind
  leave before after := { after with owner := before.owner }
  leave_enter _ := rfl

/-- The parameters and the body of a function. -/
def function (kind : FunctionContext) : Region where
  enter := Context.enterFunction kind
  leave before after :=
    { after with function := before.function, inStatic := before.inStatic, loops := before.loops }
  leave_enter _ := rfl

end Region

/-! ## State -/

structure State where
  /-- The open scopes, innermost first. -/
  scopes : List Scope
  /-- The uses of locals so far, the last first. -/
  distances : List (ExprId × Nat)
  /-- The warnings so far, in order. -/
  warnings : List Warning
  context : Context

/-- A walk through a part of a program. -/
abbrev Walk := EStateM ScopeError State

def fail (span : Span) (kind : ScopeErrorKind) : Walk Unit := throw ⟨span, kind⟩

/-- Works in a region. -/
def within (region : Region) (walk : Walk Unit) : Walk Unit := fun s =>
  match walk { s with context := region.enter s.context } with
  | .ok _ t => .ok () { t with context := region.leave s.context t.context }
  | .error e t => .error e { t with context := region.leave s.context t.context }

/-- Closes the innermost scope. -/
def State.closeScope (s : State) : State :=
  match s.scopes with
  | [] => s
  | scope :: scopes => { s with scopes := scopes, warnings := s.warnings ++ unused scope }

/-- Works in a scope of its own. -/
def inScope (scope : Scope) (walk : Walk Unit) : Walk Unit := fun s =>
  match walk { s with scopes := scope :: s.scopes } with
  | .ok _ t => .ok () t.closeScope
  | .error e t => .error e t.closeScope

/-- Changes the innermost scope, if one is open. -/
def State.modifyInnermost (f : Scope → Scope) (s : State) : State :=
  match s.scopes with
  | [] => s
  | scope :: scopes => { s with scopes := f scope :: scopes }

/-- Declares a local.  A scope declares no name twice; globals are not declared. -/
def declare (name : Identifier) (warns : Bool) : Walk Unit := do
  match (← get).scopes with
  | [] => return
  | scope :: _ =>
    if scope.contains name.name then fail name.span (.redeclared name.name)
    else modify (·.modifyInnermost (·.insert name.name ⟨.declared, name.span, warns⟩))

/-- Makes a declared local readable. -/
def define (name : String) : Walk Unit :=
  modify (·.modifyInnermost (·.modify name Variable.define))

/-- Declares a local that is readable at once. -/
def introduce (name : Identifier) (warns : Bool) : Walk Unit := do
  declare name warns
  define name.name

/-- Whether the innermost scope is inside the initializer of its own `name`. -/
def State.isInitializing (s : State) (name : String) : Bool :=
  match s.scopes with
  | [] => false
  | scope :: _ =>
    match scope.find? name with
    | some v => v.status == .declared
    | none => false

/-- Records the distance of a local, and whether this use reads it; not of a global. -/
def State.use (s : State) (id : ExprId) (name : String) (reads : Bool) : State :=
  match distance? name s.scopes with
  | some hops =>
    { s with
      distances := (id, hops) :: s.distances
      scopes :=
        if reads then s.scopes.modify hops (·.modify name Variable.markRead) else s.scopes }
  | none => s

/-- A name that is read. -/
def readName (id : ExprId) (name : Identifier) : Walk Unit := do
  if (← get).isInitializing name.name then
    fail name.span (.readInOwnInitializer name.name)
  else modify (·.use id name.name true)

def reference (r : Reference) : Walk Unit := readName r.id r.name

/-- `this` belongs into an instance member of a class or trait. -/
def receiver (id : ExprId) (span : Span) : Walk Unit := do
  let s ← get
  if s.context.owner = .none then fail span .thisOutsideClass
  else if s.context.inStatic ∨ (distance? Name.this s.scopes).isNone then
    fail span .thisInStaticMethod
  else modify (·.use id Name.this true)

/-- `super` belongs into a class that has a superclass. -/
def superclass (id : ExprId) (span : Span) : Walk Unit := do
  let keyword := span.head Name.super.utf8ByteSize
  match (← get).context.owner with
  | .none => fail keyword .superOutsideClass
  | .plain => fail keyword .superWithoutSuperclass
  | .trait => fail keyword .superInTrait
  | .subclass => modify (·.use id Name.super true)

/-- `break` and `continue` belong into a loop. -/
def loopControl (span : Span) (keyword : Keyword) : Walk Unit := do
  if (← get).context.loops = 0 then
    fail (span.head keyword.text.utf8ByteSize) (.loopControlOutsideLoop keyword)

/-- `return` belongs into a function. -/
def returnAt (span : Span) : Walk Unit := do
  if (← get).context.function = .none then
    fail (span.head Keyword.return.text.utf8ByteSize) .topLevelReturn

/-- A `return` with a value does not belong into an initializer. -/
def returnValueAt (span : Span) : Walk Unit := do
  if (← get).context.function = .initializer then
    fail (span.head Keyword.return.text.utf8ByteSize) .valueFromInitializer

/-! ## The walk -/

/-- The scope around a member: it has `this` if the member is one of instances. -/
def receiverScope : Scope := Table.ofPairs [(Name.this, .implicit)]

/-- The scope around the members of a class with a superclass. -/
def superclassScope : Scope := Table.ofPairs [(Name.super, .implicit)]

mutual

def expr : Expr → Walk Unit
  | ⟨id, span, node⟩ =>
    match node with
    | .literal _ => pure ()
    | .group e | .unary _ e => expr e
    | .binary _ left right | .logical _ left right => do expr left; expr right
    | .ternary condition yes no => do expr condition; expr yes; expr no
    | .variable name => readName id name
    | .assign name value => do expr value; modify (·.use id name.name false)
    | .call callee args => do expr callee; exprs args
    | .get object _ => expr object
    | .set object _ value => do expr value; expr object
    | .array elements => exprs elements
    | .index array position => do expr array; expr position
    | .indexSet array position value => do expr array; expr position; expr value
    | .lambda f => function .function f
    | .this => receiver id span
    | .super _ => superclass id span

def exprs : List Expr → Walk Unit
  | [] => pure ()
  | e :: es => do expr e; exprs es

/-- A function: its parameters and its body share a scope. -/
def function (kind : FunctionContext) : Function → Walk Unit
  | ⟨_, params, body, _, _⟩ =>
    within (.function kind) <| inScope ∅ do
      params.forM (introduce · false)
      stmts body

def methods : List Function → Walk Unit
  | [] => pure ()
  | f :: fs => do
    inScope receiverScope <|
      function (if f.name.name = Name.init then .initializer else .method) f
    methods fs

def staticMethods : List Function → Walk Unit
  | [] => pure ()
  | f :: fs => do function .staticMethod f; staticMethods fs

def stmts : List Stmt → Walk Unit
  | [] => pure ()
  | s :: ss => do stmt s; stmts ss

def stmt : Stmt → Walk Unit
  | ⟨span, node⟩ =>
    match node with
    | .expression e | .print e => expr e
    | .varDecl name init => do
      declare name true
      match init with
      | some e => expr e
      | none => pure ()
      define name.name
    | .block body => inScope ∅ (stmts body)
    | .ifElse condition yes no => do
      expr condition
      stmt yes
      match no with
      | some s => stmt s
      | none => pure ()
    | .while condition body => do
      expr condition
      within .loop (stmt body)
    | .for init condition step body =>
      inScope ∅ do
        match init with
        | some s => stmt s
        | none => pure ()
        match condition with
        | some e => expr e
        | none => pure ()
        match step with
        | some e => expr e
        | none => pure ()
        within .loop (stmt body)
    | .break => loopControl span .break
    | .continue => loopControl span .continue
    | .funDecl f => do
      introduce f.name true
      function .function f
    | .return value => do
      returnAt span
      match value with
      | some e => do returnValueAt span; expr e
      | none => pure ()
    | .classDecl name none traits ms ss => do
      introduce name true
      traits.forM reference
      within (.members .plain) do methods ms; staticMethods ss
    | .classDecl name (some super) traits ms ss => do
      introduce name true
      if super.name.name = name.name then fail super.name.span .inheritFromSelf
      reference super
      traits.forM reference
      within (.members .subclass) <|
        inScope superclassScope do methods ms; staticMethods ss
    | .traitDecl name ms ss => do
      introduce name true
      within (.members .trait) do methods ms; staticMethods ss

end

/-- The resolution of a program, or the first rule that it breaks. -/
def ofProgram (body : List Stmt) : Except ScopeError Resolution :=
  match stmts body ⟨[], [], [], .topLevel⟩ with
  | .ok _ s => .ok ⟨s.distances, s.warnings⟩
  | .error e _ => .error e

end Resolution

end Lox

import Lox.Heap.Render
import Lox.Machine.Basic
import Lox.Value.Operation

/-!
# Running programs

What expressions and statements do on a machine.  Operands are evaluated from left to right before
anything is asked of their values.  Blocks, calls and `for` statements run in a frame of their own,
and the frame around them is the current one again when they end, in whatever way.

All steps take fuel: for their parts, for the calls that they make and for the turns of a loop.
Running out of it is an outcome of its own, never a value or an error of the program.
-/

namespace Lox

namespace Eval

/-! ## Lists -/

/-- The values of expressions, from left to right. -/
def exprs (expr : Expr → Eval Value) : List Expr → Eval (List Value)
  | [] => pure []
  | e :: es => do
    let v ← expr e
    let vs ← exprs expr es
    return v :: vs

/-- Statements in order, up to the first that leaves them. -/
def stmts (stmt : Stmt → Eval Signal) : List Stmt → Eval Signal
  | [] => pure .next
  | s :: ss => do
    match ← stmt s with
    | .next => stmts stmt ss
    | signal => return signal

/-- Turns of a loop, with `step` after each, as long as `test` holds; for at most `fuel` turns.
`break` ends the loop and `continue` the turn. -/
def loop (test : Eval Bool) (turn : Eval Signal) (step : Eval Unit) : Nat → Eval Signal
  | 0 => outOfFuel
  | fuel + 1 => do
    if ← test then
      match ← turn with
      | .break => return .next
      | .return v => return .return v
      | .next | .continue =>
        step
        loop test turn step fuel
    else return .next

/-! ## Calls -/

/-- Calls a native with as many values as it takes. -/
def callNative : Native → List Value → Span → Eval Value
  | .clock, [], _ => modifyGet fun m => (.number (m.time 0), m.tick)
  | .str, [v], _ => return .string ((← get).heap.text v)
  | .append, [.array a, v], _ => do
    change (·.pushElement a v)
    return .array a
  | .append, [_, _], span => fail span .expectedArray
  | .len, [.array a], _ => return .number (Float.ofNat ((← get).heap.elements a).size)
  | .len, [_], span => fail span .expectedArray
  | f, args, span => fail span (.wrongArity f.arity args.length)

/-- A new instance of a class, set up by the `init` that the class has or inherits. -/
def instantiate (apply : Closure → List Value → Eval Value) (c : ClassId) (args : List Value) :
    Eval Value := do
  let object := Value.object (← make (·.newInstance c))
  match (← get).heap.method? c Name.init with
  | some init => discard <| apply (← make (·.bind init object)) args
  | none => pure ()
  return object

/-- Calls a value, which has to take that many arguments. -/
def callValue (apply : Closure → List Value → Eval Value) (callee : Value) (args : List Value)
    (span : Span) : Eval Value := do
  match (← get).heap.arity? callee with
  | none => fail span .notCallable
  | some arity =>
    if arity ≠ args.length then fail span (.wrongArity arity args.length)
    match callee with
    | .native f => callNative f args span
    | .function f => apply f args
    | .klass c => instantiate apply c args
    | _ => fail span .notCallable

/-! ## Members -/

/-- The member of an instance or a class, a method bound to its instance. -/
def property (target : Value) (name : Identifier) : Eval Value := do
  match target with
  | .object i =>
    match (← get).heap.member? i name.name with
    | some (.field v) => return v
    | some (.method f) => return .function (← make (·.bind f target))
    | none => fail name.span (.undefinedProperty name.name)
  | .klass c =>
    match (← get).heap.static? c name.name with
    | some v => return v
    | none => fail name.span (.undefinedProperty name.name)
  | _ => fail name.span .notAnInstance

/-- Writes a field of an instance or a class. -/
def setProperty (target : Value) (name : Identifier) (v : Value) : Eval Unit :=
  match target with
  | .object i => change (·.setField i name.name v)
  | .klass c => change (·.setStatic c name.name v)
  | _ => fail name.span .notAnInstance

/-- The instance that a method with `super` at distance `hops` was called on: its frame lies just
inside that of `super`. -/
def receiver? (m : Machine) : Nat → Option Value
  | 0 => none
  | hops + 1 =>
    match m.heap.getAt? hops m.frame Name.this with
    | some (.object i) => some (.object i)
    | _ => none

/-- A member by way of `super`: the superclass's method bound to the instance at hand, else its
static member. -/
def superProperty (id : ExprId) (name : Identifier) (span : Span) : Eval Value := do
  let m ← get
  match m.distances[id]? with
  | none => fail span (.undefinedVariable Name.super)
  | some hops =>
    match m.heap.getAt? hops m.frame Name.super with
    | none => fail span (.undefinedVariable Name.super)
    | some (.klass c) =>
      match receiver? m hops, m.heap.method? c name.name with
      | some receiver, some f => return .function (← make (·.bind f receiver))
      | _, _ =>
        match m.heap.static? c name.name with
        | some v => return v
        | none => fail name.span (.undefinedProperty name.name)
    | some _ => fail span .notAClass

/-- What access to a member gives: a getter is run, and has to return a value. -/
def access (apply : Closure → List Value → Eval Value) : Value → Eval Value
  | .function f =>
    if f.isGetter then
      if f.function.body.isEmpty then fail f.function.name.span .emptyGetter
      else if f.function.returnsDirectly then apply f []
      else fail f.function.name.span .getterWithoutReturn
    else return .function f
  | v => return v

/-! ## Elements -/

/-- The array and the position that two values mean. -/
def elementAt (array position : Value) (span : Span) : Eval (ArrayId × Nat) := do
  match array with
  | .array a => return (a, ← located span (position.position? ((← get).heap.elements a).size))
  | _ => fail span .notAnArray

def element (array position : Value) (span : Span) : Eval Value := do
  let (a, i) ← elementAt array position span
  match ((← get).heap.elements a)[i]? with
  | some v => return v
  | none => fail span .indexOutOfBounds

def setElement (array position v : Value) (span : Span) : Eval Unit := do
  let (a, i) ← elementAt array position span
  change (·.setElement a i v)

/-! ## Declarations -/

/-- A function made in the current frame. -/
def closure (f : Function) (kind : FunctionKind) : Eval Closure := do
  let frame := (← get).frame
  make (·.newClosure f frame kind)

def superclassOf (r : Reference) : Eval ClassId := do
  match ← lookup r.id r.name.name r.name.span with
  | .klass c => return c
  | _ => fail r.name.span .notAClass

def traitOf (r : Reference) : Eval TraitId := do
  match ← lookup r.id r.name.name r.name.span with
  | .trait t => return t
  | _ => fail r.name.span (.notATrait r.name.name)

def methodKind (f : Function) : FunctionKind :=
  if f.name.name = Name.init then .initializer else .method

/-- Functions made in the current frame, by their names. -/
def closures (kind : Function → FunctionKind) (fs : List Function) : Eval (Table Closure) := do
  let frame := (← get).frame
  make (·.newClosures frame kind fs)

/-- Moves on to a new frame that has the class as `super`, if there is one. -/
def enterSuper : Option ClassId → Eval Unit
  | some c => do
    let outer := (← get).frame
    moveTo (← make (·.newFrame outer (.ofPairs [(Name.super, .klass c)])))
  | none => pure ()

/-- Declares a class.  Its name is there, as `nil`, before its superclass is looked up; with a
superclass, its members are made in a frame of their own that has `super`. -/
def declareClass (name : Identifier) (superclass : Option Reference) (traits : List Reference)
    (methods statics : List Function) : Eval Unit := do
  define name.name .nil
  let superclass ← match superclass with
    | some r => some <$> superclassOf r
    | none => pure none
  let traits ← traits.mapM traitOf
  let outer := (← get).frame
  enterSuper superclass
  let methods ← closures methodKind methods
  let statics ← closures (fun _ => .staticMethod) statics
  moveTo outer
  let c ← make fun h =>
    let methods := h.compose traits Trait.methods methods
    let statics := h.compose traits Trait.statics statics
    h.newClass ⟨name.name, superclass, methods, statics, ∅⟩
  assignNearest name (.klass c)

def declareTrait (name : Identifier) (methods statics : List Function) : Eval Unit := do
  let frame := (← get).frame
  let methods ← make (·.newClosures frame methodKind methods)
  let statics ← make (·.newClosures frame (fun _ => .staticMethod) statics)
  define name.name (.trait (← make (·.newTrait ⟨name.name, methods, statics⟩)))

/-! ## Expressions, calls and statements -/

mutual

def expr : Nat → Expr → Eval Value
  | 0, _ => outOfFuel
  | fuel + 1, e => do
    match e.node with
    | .literal value => return .ofLiteral value
    | .group inner => expr fuel inner
    | .binary op left right =>
      let a ← expr fuel left
      let b ← expr fuel right
      located e.span (op.apply a b)
    | .unary op operand =>
      let v ← expr fuel operand
      located e.span (op.apply v)
    | .logical op left right =>
      let v ← expr fuel left
      if op.isDecidedBy v then return v else expr fuel right
    | .ternary condition yes no =>
      if (← expr fuel condition).isTruthy then expr fuel yes else expr fuel no
    | .variable name => lookup e.id name.name name.span
    | .assign name value =>
      let v ← expr fuel value
      assign e.id name v
      return v
    | .call callee args =>
      let f ← expr fuel callee
      let args ← exprs (expr fuel) args
      callValue (apply fuel) f args e.span
    | .get object name =>
      let target ← expr fuel object
      access (apply fuel) (← property target name)
    | .set object name value =>
      let target ← expr fuel object
      let v ← expr fuel value
      setProperty target name v
      return v
    | .array elements =>
      let vs ← exprs (expr fuel) elements
      return .array (← make (·.newArray vs))
    | .index array position =>
      let a ← expr fuel array
      let i ← expr fuel position
      element a i e.span
    | .indexSet array position value =>
      let a ← expr fuel array
      let i ← expr fuel position
      let v ← expr fuel value
      setElement a i v e.span
      return v
    | .lambda f => return .function (← closure f .function)
    | .this => lookup e.id Name.this e.span
    | .super name => access (apply fuel) (← superProperty e.id name e.span)

/-- Runs a function on as many arguments as it has parameters.  An initializer gives its instance,
whatever it is left by. -/
def apply : Nat → Closure → List Value → Eval Value
  | 0, _, _ => outOfFuel
  | fuel + 1, f, args => do
    let params := f.function.params.map Identifier.name
    let frame ← make (·.newFrame f.frame (.ofPairs (params.zip args)))
    let signal ← inFrame frame (stmts (stmt fuel) f.function.body)
    if f.kind = .initializer then
      match (← get).heap.getAt? 0 f.frame Name.this with
      | some v => return v
      | none => fail f.function.span (.undefinedVariable Name.this)
    else
      match signal with
      | .return v => return v
      | _ => return .nil

def stmt : Nat → Stmt → Eval Signal
  | 0, _ => outOfFuel
  | fuel + 1, s => do
    match s.node with
    | .expression e =>
      discard (expr fuel e)
      return .next
    | .print e =>
      let v ← expr fuel e
      printLine ((← get).heap.text v) s.span
      return .next
    | .varDecl name init =>
      let v ← match init with
        | some e => expr fuel e
        | none => pure .nil
      define name.name v
      return .next
    | .block body => inNewFrame (stmts (stmt fuel) body)
    | .ifElse condition yes no =>
      if (← expr fuel condition).isTruthy then stmt fuel yes
      else
        match no with
        | some s => stmt fuel s
        | none => return .next
    | .while condition body =>
      loop (return (← expr fuel condition).isTruthy) (stmt fuel body) (pure ()) fuel
    | .for init condition step body =>
      inNewFrame do
        match init with
        | some s => discard (stmt fuel s)
        | none => pure ()
        let test := match condition with
          | some e => return (← expr fuel e).isTruthy
          | none => pure true
        let after := match step with
          | some e => discard (expr fuel e)
          | none => pure ()
        loop test (stmt fuel body) after fuel
    | .break => return .break
    | .continue => return .continue
    | .funDecl f =>
      define f.name.name (.function (← closure f .function))
      return .next
    | .return value =>
      match value with
      | some e => return .return (← expr fuel e)
      | none => return .return .nil
    | .classDecl name superclass traits methods statics =>
      declareClass name superclass traits methods statics
      return .next
    | .traitDecl name methods statics =>
      declareTrait name methods statics
      return .next

end

/-- Calls a value as the expression at `span` would. -/
def call (fuel : Nat) (callee : Value) (args : List Value) (span : Span) : Eval Value :=
  callValue (apply fuel) callee args span

/-- The statements of a program.  At the top level nothing is there to be left. -/
def program (fuel : Nat) : List Stmt → Eval Unit
  | [] => pure ()
  | s :: ss => do
    discard (stmt fuel s)
    program fuel ss

end Eval

end Lox

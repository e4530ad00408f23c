import Lox.Proofs.Scope.Place
import Lox.Proofs.Sequence
import Lox.Machine.Eval

/-!
# What a run comes by

A run evaluates parts of programs, calls functions and looks names up.  Each of these is a task, on
a machine and with some fuel; `Calls` goes from a task to those that it is made of, at the machines
that it evaluates them on, and `Visits` goes on to everything that a run comes by.

    Visits c₀ stack c      the run of `c₀` comes by `c`, in the course of what `stack` has, innermost first

Scopes are opened by blocks, `for` statements and calls, which run in the new frame, and besides
by binding a method and by declaring a class that has a superclass.
-/

namespace Lox

/-! ## Operands -/

/-- Whether an expression evaluates all its operands before it does anything else. -/
def Expr.Node.isStrict : Expr.Node → Bool
  | .logical _ _ _ | .ternary _ _ _ => false
  | _ => true

/-- The machine in a new frame. -/
def Machine.enter (m : Machine) (outer : FrameId) (bindings : Table Value) : Machine :=
  { m with heap := (m.heap.newFrame outer bindings).2, frame := ⟨m.heap.frames.size⟩ }

namespace Eval

/-- What an expression does with the values of its operands. -/
def act (fuel : Nat) (id : ExprId) (span : Span) : Expr.Node → List Value → Eval Value
  | .literal value, _ => return .ofLiteral value
  | .group _, [v] => return v
  | .binary op _ _, [a, b] => located span (op.apply a b)
  | .unary op _, [v] => located span (op.apply v)
  | .variable name, _ => lookup id name.name name.span
  | .assign name _, [v] => do
    assign id name v
    return v
  | .call _ _, f :: args => callValue (apply fuel) f args span
  | .get _ name, [target] => do access (apply fuel) (← property target name)
  | .set _ name _, [target, v] => do
    setProperty target name v
    return v
  | .array _, vs => return .array (← make (·.newArray vs))
  | .index _ _, [a, i] => element a i span
  | .indexSet _ _ _, [a, i, v] => do
    setElement a i v span
    return v
  | .lambda f, _ => return .function (← closure f .function)
  | .this, _ => lookup id Name.this span
  | .super name, _ => do access (apply fuel) (← superProperty id name span)
  | _, _ => outOfFuel

theorem expr_of_isStrict (fuel : Nat) (id : ExprId) (span : Span) {node : Expr.Node}
    (h : node.isStrict = true) :
    expr (fuel + 1) ⟨id, span, node⟩ =
      exprs (expr fuel) node.operands >>= act fuel id span node := by
  cases node with
  | logical | ternary => cases h
  | array elements => rfl
  | _ => simp [expr, Expr.Node.operands, exprs, act]

/-- The variables that a function's frame begins with. -/
def arguments (f : Closure) (args : List Value) : Table Value :=
  .ofPairs ((f.function.params.map Identifier.name).zip args)

/-- The first clause of a `for`. -/
def firstClause (fuel : Nat) : Option Stmt → Eval Unit
  | some s => discard (stmt fuel s)
  | none => pure ()

/-- Whether a loop goes on; one without a condition does. -/
def test (fuel : Nat) : Option Expr → Eval Bool
  | some e => return (← expr fuel e).isTruthy
  | none => pure true

/-- What comes after a turn of a loop. -/
def after (fuel : Nat) : Option Expr → Eval Unit
  | some e => discard (expr fuel e)
  | none => pure ()

/-- Turns of a loop by its parts. -/
def turns (fuel : Nat) (condition : Option Expr) (body : Stmt) (step : Option Expr) (k : Nat) :
    Eval Signal :=
  loop (test fuel condition) (stmt fuel body) (after fuel step) k

theorem stmt_while (fuel : Nat) (span : Span) (condition : Expr) (body : Stmt) :
    stmt (fuel + 1) ⟨span, .while condition body⟩ =
      turns fuel (some condition) body none fuel := rfl

theorem stmt_for (fuel : Nat) (span : Span) (init : Option Stmt) (condition step : Option Expr)
    (body : Stmt) :
    stmt (fuel + 1) ⟨span, .for init condition step body⟩ =
      inNewFrame (do firstClause fuel init; turns fuel condition body step fuel) := by
  cases init <;> cases condition <;> cases step <;> rfl

/-- The class of a superclass that is named. -/
def namedSuperclass : Option Reference → Eval (Option ClassId)
  | some r => some <$> superclassOf r
  | none => pure none

/-- What a class declaration does first: its name is there, and its superclass and its traits are
looked up. -/
def classHeader (name : Identifier) (superclass : Option Reference) (traits : List Reference) :
    Eval (Option ClassId × List TraitId) := do
  define name.name .nil
  let superclass ← namedSuperclass superclass
  let traits ← traits.mapM traitOf
  return (superclass, traits)

/-- The frame that the members of a class are made in. -/
def classFrame (superclass : Option ClassId) : Eval FrameId := do
  let outer := (← get).frame
  match superclass with
  | some c => make (·.newFrame outer (.ofPairs [(Name.super, .klass c)]))
  | none => pure outer

/-- Makes the members of a class, and the class. -/
def classMembers (name : Identifier) (superclass : Option ClassId) (traits : List TraitId)
    (methods statics : List Function) (frame : FrameId) : Eval Unit := do
  let methods ← make (·.newClosures frame methodKind methods)
  let statics ← make (·.newClosures frame (fun _ => .staticMethod) statics)
  let c ← make fun h =>
    let methods := h.compose traits Trait.methods methods
    let statics := h.compose traits Trait.statics statics
    h.newClass ⟨name.name, superclass, methods, statics, ∅⟩
  assignNearest name (.klass c)

theorem declareClass_eq (name : Identifier) (superclass : Option Reference)
    (traits : List Reference) (methods statics : List Function) :
    declareClass name superclass traits methods statics = (do
      let (c, ts) ← classHeader name superclass traits
      let frame ← classFrame c
      classMembers name c ts methods statics frame) := by
  have hmembers (c : Option ClassId) (ts : List TraitId) : (do
      let outer := (← get).frame
      enterSuper c
      let methods ← closures methodKind methods
      let statics ← closures (fun _ => .staticMethod) statics
      moveTo outer
      let c' ← make fun h => h.newClass ⟨name.name, c, h.compose ts Trait.methods methods,
        h.compose ts Trait.statics statics, ∅⟩
      assignNearest name (.klass c')) = (do
      let frame ← classFrame c
      classMembers name c ts methods statics frame) := by
    -- the members are made in the frame that has been entered, and it is left behind them
    cases c <;> rfl
  cases superclass with
  | none =>
    simp only [declareClass, classHeader, namedSuperclass, bind_assoc, pure_bind, ← hmembers]
  | some r =>
    simp only [declareClass, classHeader, namedSuperclass, map_eq_pure_bind, bind_assoc, pure_bind,
      ← hmembers]

end Eval

namespace Run

open Lexical (Site)

/-! ## Tasks -/

inductive Task
  | program (body : List Stmt)
  | stmts (body : List Stmt)
  | stmt (s : Stmt)
  /-- At most so many turns of a loop. -/
  | loop (condition : Option Expr) (body : Stmt) (step : Option Expr) (turns : Nat)
  | exprs (es : List Expr)
  | expr (e : Expr)
  /-- What an expression does with the values of its operands. -/
  | act (id : ExprId) (span : Span) (node : Expr.Node) (operands : List Value)
  /-- A name is looked up, to be read or to be overwritten. -/
  | use (id : ExprId) (name : String) (reads : Bool)
  /-- The members of a class are made, the superclass of which has been found. -/
  | members (s : Stmt)
  | call (callee : Value) (args : List Value) (span : Span)
  | apply (f : Closure) (args : List Value)
  | bind (f : Closure) (receiver : Value)
  /-- A member is accessed, and a getter run. -/
  | access (member : Value)

structure Config where
  fuel : Nat
  task : Task
  machine : Machine

/-- The tasks that a task is made of. -/
inductive Calls : Config → Config → Prop
  -- sequences
  | programFirst {n : Nat} {s : Stmt} {ss : List Stmt} {m : Machine} :
      Calls ⟨n, .program (s :: ss), m⟩ ⟨n, .stmt s, m⟩
  | programRest {n : Nat} {s : Stmt} {ss : List Stmt} {signal : Signal} {m m' : Machine} :
      Eval.stmt n s m = .ok signal m' → Calls ⟨n, .program (s :: ss), m⟩ ⟨n, .program ss, m'⟩
  | stmtsFirst {n : Nat} {s : Stmt} {ss : List Stmt} {m : Machine} :
      Calls ⟨n, .stmts (s :: ss), m⟩ ⟨n, .stmt s, m⟩
  | stmtsRest {n : Nat} {s : Stmt} {ss : List Stmt} {m m' : Machine} :
      Eval.stmt n s m = .ok .next m' → Calls ⟨n, .stmts (s :: ss), m⟩ ⟨n, .stmts ss, m'⟩
  | exprsFirst {n : Nat} {e : Expr} {es : List Expr} {m : Machine} :
      Calls ⟨n, .exprs (e :: es), m⟩ ⟨n, .expr e, m⟩
  | exprsRest {n : Nat} {e : Expr} {es : List Expr} {v : Value} {m m' : Machine} :
      Eval.expr n e m = .ok v m' → Calls ⟨n, .exprs (e :: es), m⟩ ⟨n, .exprs es, m'⟩
  -- statements
  | expression {n : Nat} {span : Span} {e : Expr} {m : Machine} :
      Calls ⟨n + 1, .stmt ⟨span, .expression e⟩, m⟩ ⟨n, .expr e, m⟩
  | print {n : Nat} {span : Span} {e : Expr} {m : Machine} :
      Calls ⟨n + 1, .stmt ⟨span, .print e⟩, m⟩ ⟨n, .expr e, m⟩
  | initializer {n : Nat} {span : Span} {name : Identifier} {e : Expr} {m : Machine} :
      Calls ⟨n + 1, .stmt ⟨span, .varDecl name (some e)⟩, m⟩ ⟨n, .expr e, m⟩
  | block {n : Nat} {span : Span} {body : List Stmt} {m : Machine} :
      Calls ⟨n + 1, .stmt ⟨span, .block body⟩, m⟩ ⟨n, .stmts body, m.enter m.frame ∅⟩
  | ifCondition {n : Nat} {span : Span} {condition : Expr} {yes : Stmt} {no : Option Stmt}
      {m : Machine} :
      Calls ⟨n + 1, .stmt ⟨span, .ifElse condition yes no⟩, m⟩ ⟨n, .expr condition, m⟩
  | ifYes {n : Nat} {span : Span} {condition : Expr} {yes : Stmt} {no : Option Stmt} {v : Value}
      {m m' : Machine} :
      Eval.expr n condition m = .ok v m' → v.isTruthy = true →
      Calls ⟨n + 1, .stmt ⟨span, .ifElse condition yes no⟩, m⟩ ⟨n, .stmt yes, m'⟩
  | ifNo {n : Nat} {span : Span} {condition : Expr} {yes no : Stmt} {v : Value}
      {m m' : Machine} :
      Eval.expr n condition m = .ok v m' → v.isTruthy = false →
      Calls ⟨n + 1, .stmt ⟨span, .ifElse condition yes (some no)⟩, m⟩ ⟨n, .stmt no, m'⟩
  | while {n : Nat} {span : Span} {condition : Expr} {body : Stmt} {m : Machine} :
      Calls ⟨n + 1, .stmt ⟨span, .while condition body⟩, m⟩
        ⟨n, .loop (some condition) body none n, m⟩
  | forInit {n : Nat} {span : Span} {init : Stmt} {condition step : Option Expr} {body : Stmt}
      {m : Machine} :
      Calls ⟨n + 1, .stmt ⟨span, .for (some init) condition step body⟩, m⟩
        ⟨n, .stmt init, m.enter m.frame ∅⟩
  | for {n : Nat} {span : Span} {init : Option Stmt} {condition step : Option Expr} {body : Stmt}
      {m m' : Machine} :
      Eval.firstClause n init (m.enter m.frame ∅) = .ok () m' →
      Calls ⟨n + 1, .stmt ⟨span, .for init condition step body⟩, m⟩
        ⟨n, .loop condition body step n, m'⟩
  | returnValue {n : Nat} {span : Span} {e : Expr} {m : Machine} :
      Calls ⟨n + 1, .stmt ⟨span, .return (some e)⟩, m⟩ ⟨n, .expr e, m⟩
  | classReference {n : Nat} {span : Span} {name : Identifier} {superclass : Option Reference}
      {traits : List Reference} {methods statics : List Function} {r : Reference} {m : Machine} :
      r ∈ superclass.toList ++ traits →
      Calls ⟨n + 1, .stmt ⟨span, .classDecl name superclass traits methods statics⟩, m⟩
        ⟨n, .use r.id r.name.name true, { m with heap := m.heap.define m.frame name.name .nil }⟩
  | members {n : Nat} {span : Span} {name : Identifier} {r : Reference} {traits : List Reference}
      {methods statics : List Function} {found : Option ClassId × List TraitId}
      {m m' : Machine} :
      Eval.classHeader name (some r) traits m = .ok found m' →
      Calls ⟨n + 1, .stmt ⟨span, .classDecl name (some r) traits methods statics⟩, m⟩
        ⟨n, .members ⟨span, .classDecl name (some r) traits methods statics⟩, m'⟩
  -- loops
  | condition {n k : Nat} {condition : Expr} {body : Stmt} {step : Option Expr} {m : Machine} :
      Calls ⟨n, .loop (some condition) body step (k + 1), m⟩ ⟨n, .expr condition, m⟩
  | turn {n k : Nat} {condition : Option Expr} {body : Stmt} {step : Option Expr}
      {m m' : Machine} :
      Eval.test n condition m = .ok true m' →
      Calls ⟨n, .loop condition body step (k + 1), m⟩ ⟨n, .stmt body, m'⟩
  | step {n k : Nat} {condition : Option Expr} {body : Stmt} {step : Expr} {signal : Signal}
      {m m' m'' : Machine} :
      Eval.test n condition m = .ok true m' → Eval.stmt n body m' = .ok signal m'' →
      signal = .next ∨ signal = .continue →
      Calls ⟨n, .loop condition body (some step) (k + 1), m⟩ ⟨n, .expr step, m''⟩
  | turns {n k : Nat} {condition : Option Expr} {body : Stmt} {step : Option Expr}
      {signal : Signal} {m m' m'' m₃ : Machine} :
      Eval.test n condition m = .ok true m' → Eval.stmt n body m' = .ok signal m'' →
      signal = .next ∨ signal = .continue → Eval.after n step m'' = .ok () m₃ →
      Calls ⟨n, .loop condition body step (k + 1), m⟩ ⟨n, .loop condition body step k, m₃⟩
  -- expressions
  | operands {n : Nat} {id : ExprId} {span : Span} {node : Expr.Node} {m : Machine} :
      node.isStrict = true →
      Calls ⟨n + 1, .expr ⟨id, span, node⟩, m⟩ ⟨n, .exprs node.operands, m⟩
  | act {n : Nat} {id : ExprId} {span : Span} {node : Expr.Node} {vs : List Value}
      {m m' : Machine} :
      node.isStrict = true → Eval.exprs (Eval.expr n) node.operands m = .ok vs m' →
      Calls ⟨n + 1, .expr ⟨id, span, node⟩, m⟩ ⟨n, .act id span node vs, m'⟩
  | logicalLeft {n : Nat} {id : ExprId} {span : Span} {op : LogicalOp} {left right : Expr}
      {m : Machine} :
      Calls ⟨n + 1, .expr ⟨id, span, .logical op left right⟩, m⟩ ⟨n, .expr left, m⟩
  | logicalRight {n : Nat} {id : ExprId} {span : Span} {op : LogicalOp} {left right : Expr}
      {v : Value} {m m' : Machine} :
      Eval.expr n left m = .ok v m' → op.isDecidedBy v = false →
      Calls ⟨n + 1, .expr ⟨id, span, .logical op left right⟩, m⟩ ⟨n, .expr right, m'⟩
  | ternaryCondition {n : Nat} {id : ExprId} {span : Span} {condition yes no : Expr}
      {m : Machine} :
      Calls ⟨n + 1, .expr ⟨id, span, .ternary condition yes no⟩, m⟩ ⟨n, .expr condition, m⟩
  | ternaryYes {n : Nat} {id : ExprId} {span : Span} {condition yes no : Expr} {v : Value}
      {m m' : Machine} :
      Eval.expr n condition m = .ok v m' → v.isTruthy = true →
      Calls ⟨n + 1, .expr ⟨id, span, .ternary condition yes no⟩, m⟩ ⟨n, .expr yes, m'⟩
  | ternaryNo {n : Nat} {id : ExprId} {span : Span} {condition yes no : Expr} {v : Value}
      {m m' : Machine} :
      Eval.expr n condition m = .ok v m' → v.isTruthy = false →
      Calls ⟨n + 1, .expr ⟨id, span, .ternary condition yes no⟩, m⟩ ⟨n, .expr no, m'⟩
  -- names
  | variable {n : Nat} {id : ExprId} {span : Span} {name : Identifier} {vs : List Value}
      {m : Machine} :
      Calls ⟨n, .act id span (.variable name) vs, m⟩ ⟨n, .use id name.name true, m⟩
  | assign {n : Nat} {id : ExprId} {span : Span} {name : Identifier} {value : Expr}
      {vs : List Value} {m : Machine} :
      Calls ⟨n, .act id span (.assign name value) vs, m⟩ ⟨n, .use id name.name false, m⟩
  | this {n : Nat} {id : ExprId} {span : Span} {vs : List Value} {m : Machine} :
      Calls ⟨n, .act id span .this vs, m⟩ ⟨n, .use id Name.this true, m⟩
  | super {n : Nat} {id : ExprId} {span : Span} {name : Identifier} {vs : List Value}
      {m : Machine} :
      Calls ⟨n, .act id span (.super name) vs, m⟩ ⟨n, .use id Name.super true, m⟩
  -- members
  | bindMember {n : Nat} {id : ExprId} {span : Span} {object : Expr} {name : Identifier}
      {i : InstanceId} {f : Closure} {m : Machine} :
      m.heap.member? i name.name = some (.method f) →
      Calls ⟨n, .act id span (.get object name) [.object i], m⟩ ⟨n, .bind f (.object i), m⟩
  | access {n : Nat} {id : ExprId} {span : Span} {object : Expr} {name : Identifier}
      {target v : Value} {m m' : Machine} :
      Eval.property target name m = .ok v m' →
      Calls ⟨n, .act id span (.get object name) [target], m⟩ ⟨n, .access v, m'⟩
  | bindSuper {n : Nat} {id : ExprId} {span : Span} {name : Identifier} {vs : List Value}
      {hops : Nat} {c : ClassId} {receiver : Value} {f : Closure} {m : Machine} :
      m.distances[id]? = some hops →
      m.heap.getAt? hops m.frame Name.super = some (.klass c) →
      Eval.receiver? m hops = some receiver → m.heap.method? c name.name = some f →
      Calls ⟨n, .act id span (.super name) vs, m⟩ ⟨n, .bind f receiver, m⟩
  | accessSuper {n : Nat} {id : ExprId} {span : Span} {name : Identifier} {vs : List Value}
      {v : Value} {m m' : Machine} :
      Eval.superProperty id name span m = .ok v m' →
      Calls ⟨n, .act id span (.super name) vs, m⟩ ⟨n, .access v, m'⟩
  | getter {n : Nat} {f : Closure} {m : Machine} :
      f.isGetter = true → f.function.returnsDirectly = true →
      Calls ⟨n, .access (.function f), m⟩ ⟨n, .apply f [], m⟩
  -- calls
  | call {n : Nat} {id : ExprId} {span : Span} {callee : Expr} {es : List Expr} {f : Value}
      {args : List Value} {m : Machine} :
      Calls ⟨n, .act id span (.call callee es) (f :: args), m⟩ ⟨n, .call f args span, m⟩
  | apply {n : Nat} {f : Closure} {args : List Value} {span : Span} {m : Machine} :
      f.arity = args.length → Calls ⟨n, .call (.function f) args span, m⟩ ⟨n, .apply f args, m⟩
  | bindInit {n : Nat} {c : ClassId} {args : List Value} {span : Span} {f : Closure}
      {m m' : Machine} :
      m' = { m with heap := (m.heap.newInstance c).2 } →
      m'.heap.method? c Name.init = some f → f.arity = args.length →
      Calls ⟨n, .call (.klass c) args span, m⟩
        ⟨n, .bind f (.object (m.heap.newInstance c).1), m'⟩
  | applyInit {n : Nat} {c : ClassId} {args : List Value} {span : Span} {f g : Closure}
      {h : Heap} {m m' : Machine} :
      m' = { m with heap := (m.heap.newInstance c).2 } →
      m'.heap.method? c Name.init = some f → f.arity = args.length →
      m'.heap.bind f (.object (m.heap.newInstance c).1) = (g, h) →
      Calls ⟨n, .call (.klass c) args span, m⟩ ⟨n, .apply g args, { m' with heap := h }⟩
  | body {n : Nat} {f : Closure} {args : List Value} {m : Machine} :
      Calls ⟨n + 1, .apply f args, m⟩ ⟨n, .stmts f.function.body,
        m.enter f.frame (Eval.arguments f args)⟩

/-- The run of `c₀` comes by a task in the course of others, the innermost first. -/
inductive Visits (c₀ : Config) : List Config → Config → Prop
  | start : Visits c₀ [] c₀
  | call {stack : List Config} {c c' : Config} :
      Visits c₀ stack c → Calls c c' → Visits c₀ (c :: stack) c'

theorem Visits.trans {c d c' : Config} {stack stack' : List Config} (h : Visits c stack d)
    (h' : Visits d stack' c') : Visits c (stack' ++ stack) c' := by
  induction h' with
  | start => exact h
  | call _ hcall ih => exact ih.call hcall

theorem Visits.prepend {c d c' : Config} {stack : List Config} (hcall : Calls c d)
    (h : Visits d stack c') : Visits c (stack ++ [c]) c' :=
  (Visits.start.call hcall).trans h

theorem Visits.start_mem {c c' : Config} {stack : List Config} (h : Visits c stack c') :
    c ∈ c' :: stack := by
  induction h with
  | start => exact List.mem_cons_self
  | call _ _ ih => exact List.mem_cons_of_mem _ ih

/-! ## Tasks as evaluations -/

open Eval in
/-- What a task does, but for what comes of it. -/
def Config.eval (c : Config) : Eval Unit :=
  match c.task with
  | .program ss => program c.fuel ss
  | .stmts ss => discard (stmts (stmt c.fuel) ss)
  | .stmt s => discard (stmt c.fuel s)
  | .loop condition body step k => discard (turns c.fuel condition body step k)
  | .exprs es => discard (exprs (expr c.fuel) es)
  | .expr e => discard (expr c.fuel e)
  | .act id span node vs => discard (act c.fuel id span node vs)
  | .call callee args span => discard (call c.fuel callee args span)
  | .apply f args => discard (apply c.fuel f args)
  | .access v => discard (access (apply c.fuel) v)
  | .use _ _ _ | .members _ | .bind _ _ => pure ()

/-- How many more tasks with as much fuel can come of a task. -/
def Task.depth : Task → Nat
  | .program ss | .stmts ss => ss.length + 1
  | .exprs es => es.length + 1
  | .loop _ _ _ turns => turns + 1
  | .act _ _ _ _ => 2
  | .call _ _ _ | .access _ => 1
  | .stmt _ | .expr _ | .use _ _ _ | .members _ | .apply _ _ | .bind _ _ => 0

theorem Calls.depth {c d : Config} (h : Calls c d) :
    d.fuel < c.fuel ∨ d.fuel = c.fuel ∧ d.task.depth < c.task.depth := by
  cases h <;> simp [Task.depth]

/-- No task is made of others without end. -/
theorem wellFounded_calls : WellFounded fun d c => Calls c d := by
  let size (c : Config) : Nat × Nat := (c.fuel, c.task.depth)
  refine Subrelation.wf (fun {d c} h => ?_)
    (InvImage.wf size (Prod.lex Nat.lt_wfRel Nat.lt_wfRel).wf)
  obtain hlt | ⟨heq, hlt⟩ := h.depth
  · exact .left _ _ hlt
  · exact .right' _ (Nat.le_of_eq heq) hlt

/-! ## Frames -/

namespace Config

/-- What opens a scope in a frame that the task makes, and the frame around that. -/
def opening? (c : Config) : Option (Site × FrameId) :=
  match c.task, c.fuel with
  | .stmt ⟨span, .block body⟩, _ + 1 => some (.stmt ⟨span, .block body⟩, c.machine.frame)
  | .stmt ⟨span, .for init condition step body⟩, _ + 1 =>
    some (.stmt ⟨span, .for init condition step body⟩, c.machine.frame)
  | .apply f _, _ + 1 => some (.call f.function, f.frame)
  | .bind f _, _ => some (.receiver f.function, f.frame)
  | .members s, _ => some (.stmt s, c.machine.frame)
  | _, _ => none

/-- The next frame that is made. -/
def nextFrame (c : Config) : FrameId := ⟨c.machine.heap.frames.size⟩

/-- The task makes the frame `g` inside the frame `outer` when it opens the scope of `site`. -/
def Makes (c : Config) (site : Site) (g outer : FrameId) : Prop :=
  c.opening? = some (site, outer) ∧ g = c.nextFrame

/-- The task begins the declaration of a variable in a frame, with its initializer. -/
def Begins (c : Config) (name : String) (g : FrameId) : Prop :=
  ∃ span x e, c.task = .stmt ⟨span, .varDecl x (some e)⟩ ∧ x.name = name ∧ c.machine.frame = g

/-- The statement ends in an error. -/
def Fails (c : Config) : Prop :=
  ∃ s e m, c.task = .stmt s ∧ Eval.stmt c.fuel s c.machine = .error e m

/-- The frame that the task runs its parts in, if it makes one for them. -/
def entered? (c : Config) : Option FrameId :=
  match c.task with
  | .stmt ⟨_, .block _⟩ | .stmt ⟨_, .for _ _ _ _⟩ | .apply _ _ => some c.nextFrame
  | _ => none

/-- The frame that the innermost of the tasks runs its parts in. -/
def frameOf : List Config → FrameId
  | [] => Heap.globals
  | c :: stack => c.entered?.getD (frameOf stack)

end Config

end Run

end Lox

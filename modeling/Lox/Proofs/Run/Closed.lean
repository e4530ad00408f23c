import Lox.Proofs.Run.Task

/-!
# What all evaluations have

Evaluations are made of a few operations: a result or a stop, something read from the machine, a
change of the heap, a look at the clock, a body in another frame and, in one place, a line of
output.  A property that these have, and that a sequence has if its parts have it, all evaluations
have.

    Closed P → (∀ text span, P _ (printLine text span)) → ∀ fuel s, P _ (stmt fuel s)   (closedAt)

Among these properties are all that the machine keeps step by step, such as the distances that it
has been told of.
-/

namespace Lox

namespace Run

variable {α : Type}

/-- The machine that an evaluation leaves, however it ends. -/
def machineOf : EStateM.Result Stop Machine α → Machine
  | .ok _ m => m
  | .error _ m => m

/-- A result with another machine. -/
def mapMachine (g : Machine → Machine) :
    EStateM.Result Stop Machine α → EStateM.Result Stop Machine α
  | .ok a m => .ok a (g m)
  | .error stop m => .error stop (g m)

theorem machineOf_mapMachine (g : Machine → Machine) (r : EStateM.Result Stop Machine α) :
    machineOf (mapMachine g r) = g (machineOf r) := by
  cases r <;> rfl

end Run

namespace Eval

open Run

variable {α β : Type}

/-- What is read neither from the output nor from the clock. -/
def Reads {τ : Type} (f : Machine → τ) : Prop :=
  ∀ m output time, f { m with output := output, time := time } = f m

/-- A change of the heap that gives something. -/
def changing (g : Machine → α × Heap) : Eval α :=
  modifyGet fun m => ((g m).1, { m with heap := (g m).2 })

/-- What a function gives that has been left by a signal. -/
def resultOf (f : Closure) (signal : Signal) : Eval Value := do
  if f.kind = .initializer then
    match (← get).heap.getAt? 0 f.frame Name.this with
    | some v => return v
    | none => fail f.function.span (.undefinedVariable Name.this)
  else
    match signal with
    | .return v => return v
    | _ => return .nil

theorem apply_eq_resultOf (fuel : Nat) (f : Closure) (args : List Value) :
    apply (fuel + 1) f args =
      make (·.newFrame f.frame (arguments f args)) >>= fun frame =>
        inFrame frame (stmts (stmt fuel) f.function.body) >>= resultOf f := rfl

/-- A property that the operations have but for printing, and sequences of what has it. -/
structure Closed (P : (α : Type) → Eval α → Prop) : Prop where
  pure : ∀ {α : Type} (a : α), P α (Pure.pure a)
  throw : ∀ {α : Type} (stop : Stop), P α (throw stop)
  bind : ∀ {α β : Type} {x : Eval α} {f : α → Eval β},
    P α x → (∀ a, P β (f a)) → P β (x >>= f)
  read : ∀ {α : Type} {f : Machine → Eval α}, Reads f → (∀ m, P α (f m)) → P α (get >>= f)
  change : ∀ {α : Type} {g : Machine → α × Heap}, Reads g → P α (changing g)
  clock : P Value (modifyGet fun m => (.number (m.time 0), m.tick))
  inFrame : ∀ {α : Type} (frame : FrameId) {x : Eval α}, P α x → P α (inFrame frame x)

namespace Closed

variable {P : (α : Type) → Eval α → Prop}

theorem ite {p : Prop} [Decidable p] {x y : Eval α} (hx : P α x) (hy : P α y) :
    P α (if p then x else y) := by
  split
  · exact hx
  · exact hy

variable (hP : Closed P)

include hP

/-! ## Operations -/

theorem map {x : Eval α} (hx : P α x) (f : α → β) : P β (f <$> x) := by
  rw [map_eq_pure_bind]
  exact hP.bind hx fun a => hP.pure (f a)

theorem discard {x : Eval α} (hx : P α x) : P Unit (discard x) := hP.map hx _

theorem fail (span : Span) (kind : RuntimeErrorKind) : P α (fail span kind) := hP.throw _

theorem outOfFuel : P α outOfFuel := hP.throw _

theorem located (span : Span) (r : Except RuntimeErrorKind α) : P α (located span r) := by
  cases r with
  | ok a => exact hP.pure a
  | error kind => exact hP.fail span kind

theorem make (g : Heap → α × Heap) : P α (make g) :=
  hP.change (g := fun m => g m.heap) fun _ _ _ => rfl

theorem heap (g : Heap → Heap) : P Unit (Eval.change g) :=
  hP.change (g := fun m => ((), g m.heap)) fun _ _ _ => rfl

theorem define (name : String) (v : Value) : P Unit (define name v) :=
  hP.change (g := fun m => ((), m.heap.define m.frame name v)) fun _ _ _ => rfl

theorem lookup (id : ExprId) (name : String) (span : Span) : P Value (lookup id name span) :=
  hP.read (fun _ _ _ => rfl) fun m => hP.located span (m.lookup id name)

theorem assigned (name : Identifier) {write : Machine → Bool × Heap} (hw : Reads write) :
    P Unit (assigned name write) := by
  refine hP.bind (hP.change hw) fun found => ?_
  cases found with
  | true => exact hP.pure _
  | false => exact hP.fail _ _

theorem assign (id : ExprId) (name : Identifier) (v : Value) : P Unit (assign id name v) :=
  hP.assigned name fun _ _ _ => rfl

theorem assignNearest (name : Identifier) (v : Value) : P Unit (assignNearest name v) :=
  hP.assigned name fun _ _ _ => rfl

theorem inNewFrame {x : Eval α} (hx : P α x) : P α (inNewFrame x) :=
  hP.read (fun _ _ _ => rfl) fun m => hP.bind (hP.make (·.newFrame m.frame ∅)) fun frame =>
    hP.inFrame frame hx

theorem callNative (f : Native) (args : List Value) (span : Span) :
    P Value (callNative f args span) := by
  unfold Eval.callNative
  split
  · exact hP.clock
  · exact hP.read (fun _ _ _ => rfl) fun _ => hP.pure _
  · exact hP.bind (hP.heap _) fun _ => hP.pure _
  · exact hP.fail _ _
  · exact hP.read (fun _ _ _ => rfl) fun _ => hP.pure _
  · exact hP.fail _ _
  · exact hP.fail _ _

theorem property (target : Value) (name : Identifier) : P Value (property target name) := by
  unfold Eval.property
  split
  · refine hP.read (fun _ _ _ => rfl) fun m => ?_
    split
    · exact hP.pure _
    · exact hP.bind (hP.make _) fun _ => hP.pure _
    · exact hP.fail _ _
  · refine hP.read (fun _ _ _ => rfl) fun m => ?_
    split
    · exact hP.pure _
    · exact hP.fail _ _
  · exact hP.fail _ _

theorem setProperty (target : Value) (name : Identifier) (v : Value) :
    P Unit (setProperty target name v) := by
  unfold Eval.setProperty
  split
  · exact hP.heap _
  · exact hP.heap _
  · exact hP.fail _ _

theorem superProperty (id : ExprId) (name : Identifier) (span : Span) :
    P Value (superProperty id name span) := by
  refine hP.read (fun _ _ _ => rfl) fun m => ?_
  split
  · exact hP.fail _ _
  split
  · exact hP.fail _ _
  · split
    · exact hP.bind (hP.make _) fun _ => hP.pure _
    · split
      · exact hP.pure _
      · exact hP.fail _ _
  · exact hP.fail _ _

theorem elementAt (array position : Value) (span : Span) :
    P (ArrayId × Nat) (elementAt array position span) := by
  unfold Eval.elementAt
  split
  · exact hP.read (fun _ _ _ => rfl) fun _ => hP.bind (hP.located _ _) fun _ => hP.pure _
  · exact hP.fail _ _

theorem element (array position : Value) (span : Span) : P Value (element array position span) := by
  refine hP.bind (hP.elementAt array position span) fun found => ?_
  refine hP.read (fun _ _ _ => rfl) fun m => ?_
  split
  · exact hP.pure _
  · exact hP.fail _ _

theorem setElement (array position v : Value) (span : Span) :
    P Unit (setElement array position v span) :=
  hP.bind (hP.elementAt array position span) fun _ => hP.heap _

theorem closure (f : Function) (kind : FunctionKind) : P Closure (closure f kind) :=
  hP.read (fun _ _ _ => rfl) fun _ => hP.make _

/-! ## Declarations -/

theorem superclassOf (r : Reference) : P ClassId (superclassOf r) := by
  refine hP.bind (hP.lookup _ _ _) fun v => ?_
  cases v with
  | klass c => exact hP.pure c
  | _ => exact hP.fail _ _

theorem traitOf (r : Reference) : P TraitId (traitOf r) := by
  refine hP.bind (hP.lookup _ _ _) fun v => ?_
  cases v with
  | trait t => exact hP.pure t
  | _ => exact hP.fail _ _

theorem traitsOf (rs : List Reference) : P (List TraitId) (rs.mapM Eval.traitOf) := by
  induction rs with
  | nil => exact hP.pure []
  | cons r rs ih =>
    rw [List.mapM_cons]
    exact hP.bind (hP.traitOf r) fun t => hP.bind ih fun ts => hP.pure (t :: ts)

theorem classHeader (name : Identifier) (superclass : Option Reference)
    (traits : List Reference) : P _ (classHeader name superclass traits) := by
  have hsuperclass : P _ (namedSuperclass superclass) := by
    cases superclass with
    | none => exact hP.pure none
    | some r => exact hP.map (hP.superclassOf r) some
  exact hP.bind (hP.define _ _) fun _ => hP.bind hsuperclass fun c =>
    hP.bind (hP.traitsOf traits) fun ts => hP.pure (c, ts)

theorem declareClass (name : Identifier) (superclass : Option Reference)
    (traits : List Reference) (methods statics : List Function) :
    P Unit (declareClass name superclass traits methods statics) := by
  have hframe (c : Option ClassId) : P FrameId (classFrame c) := by
    refine hP.read (fun _ _ _ => rfl) fun m => ?_
    cases c with
    | none => exact hP.pure _
    | some c => exact hP.make _
  have hmembers (c : Option ClassId) (ts : List TraitId) (frame : FrameId) :
      P Unit (classMembers name c ts methods statics frame) :=
    hP.bind (hP.make _) fun _ => hP.bind (hP.make _) fun _ => hP.bind (hP.make _) fun _ =>
      hP.assignNearest _ _
  rw [declareClass_eq]
  exact hP.bind (hP.classHeader name superclass traits) fun found =>
    hP.bind (hframe found.1) fun frame => hmembers found.1 found.2 frame

theorem declareTrait (name : Identifier) (methods statics : List Function) :
    P Unit (declareTrait name methods statics) :=
  hP.read (fun _ _ _ => rfl) fun _ => hP.bind (hP.make _) fun _ => hP.bind (hP.make _) fun _ =>
    hP.bind (hP.make _) fun _ => hP.define _ _

/-! ## Sequences, loops and calls -/

theorem exprs {expr : Expr → Eval Value} (he : ∀ e, P Value (expr e)) (es : List Expr) :
    P (List Value) (exprs expr es) := by
  induction es with
  | nil => exact hP.pure []
  | cons e es ih => exact hP.bind (he e) fun v => hP.bind ih fun vs => hP.pure (v :: vs)

theorem stmts {stmt : Stmt → Eval Signal} (hs : ∀ s, P Signal (stmt s)) (ss : List Stmt) :
    P Signal (stmts stmt ss) := by
  induction ss with
  | nil => exact hP.pure Signal.next
  | cons s ss ih =>
    refine hP.bind (hs s) fun signal => ?_
    cases signal with
    | next => exact ih
    | _ => exact hP.pure _

theorem loop {test : Eval Bool} {turn : Eval Signal} {step : Eval Unit} (htest : P Bool test)
    (hturn : P Signal turn) (hstep : P Unit step) (turns : Nat) :
    P Signal (loop test turn step turns) := by
  induction turns with
  | zero => exact hP.outOfFuel
  | succ turns ih =>
    refine hP.bind htest fun goesOn => Closed.ite ?_ (hP.pure Signal.next)
    refine hP.bind hturn fun signal => ?_
    cases signal with
    | next => exact hP.bind hstep fun _ => ih
    | «continue» => exact hP.bind hstep fun _ => ih
    | «break» => exact hP.pure Signal.next
    | «return» v => exact hP.pure (Signal.return v)

theorem resultOf (f : Closure) (signal : Signal) : P Value (resultOf f signal) := by
  refine Closed.ite (hP.read (fun _ _ _ => rfl) fun m => ?_) ?_
  · split
    · exact hP.pure _
    · exact hP.fail _ _
  · cases signal <;> exact hP.pure _

section Calls

variable {apply : Closure → List Value → Eval Value} (ha : ∀ f args, P Value (apply f args))

include ha

theorem instantiate (c : ClassId) (args : List Value) : P Value (instantiate apply c args) := by
  refine hP.bind (hP.make _) fun i => hP.read (fun _ _ _ => rfl) fun m => ?_
  split
  · exact hP.bind (hP.make _) fun f => hP.bind (hP.discard (ha f args)) fun _ => hP.pure _
  · exact hP.pure _

theorem callValue (callee : Value) (args : List Value) (span : Span) :
    P Value (callValue apply callee args span) := by
  refine hP.read (fun _ _ _ => rfl) fun m => ?_
  split
  · exact hP.fail _ _
  · refine Closed.ite (hP.bind (hP.fail _ _) fun _ => ?_) ?_
    all_goals
      split
      · exact hP.callNative _ _ _
      · exact ha _ _
      · exact hP.instantiate ha _ _
      · exact hP.fail _ _

theorem access (v : Value) : P Value (access apply v) := by
  cases v with
  | function f =>
    unfold Eval.access
    exact Closed.ite (Closed.ite (hP.fail _ _) (Closed.ite (ha f []) (hP.fail _ _))) (hP.pure _)
  | _ => exact hP.pure _

end Calls

end Closed

/-- Two properties at once. -/
theorem Closed.and {P Q : (α : Type) → Eval α → Prop} (hP : Closed P) (hQ : Closed Q) :
    Closed fun α x => P α x ∧ Q α x where
  pure a := ⟨hP.pure a, hQ.pure a⟩
  throw stop := ⟨hP.throw stop, hQ.throw stop⟩
  bind hx hf := ⟨hP.bind hx.1 fun a => (hf a).1, hQ.bind hx.2 fun a => (hf a).2⟩
  read hf h := ⟨hP.read hf fun m => (h m).1, hQ.read hf fun m => (h m).2⟩
  change hg := ⟨hP.change hg, hQ.change hg⟩
  clock := ⟨hP.clock, hQ.clock⟩
  inFrame frame _ hx := ⟨hP.inFrame frame hx.1, hQ.inFrame frame hx.2⟩

/-! ## Evaluation -/

/-- What is so of all evaluations with so much fuel. -/
structure ClosedAt (P : (α : Type) → Eval α → Prop) (fuel : Nat) : Prop where
  expr : ∀ e, P Value (expr fuel e)
  apply : ∀ f args, P Value (apply fuel f args)
  stmt : ∀ s, P Signal (stmt fuel s)

namespace ClosedAt

variable {P : (α : Type) → Eval α → Prop} (hP : Closed P) {fuel : Nat}

include hP

theorem act (ih : ClosedAt P fuel) (id : ExprId) (span : Span) (node : Expr.Node)
    (vs : List Value) : P Value (act fuel id span node vs) := by
  unfold Eval.act
  split
  · exact hP.pure _
  · exact hP.pure _
  · exact hP.located _ _
  · exact hP.located _ _
  · exact hP.lookup _ _ _
  · exact hP.bind (hP.assign _ _ _) fun _ => hP.pure _
  · exact hP.callValue ih.apply _ _ _
  · exact hP.bind (hP.property _ _) fun v => hP.access ih.apply v
  · exact hP.bind (hP.setProperty _ _ _) fun _ => hP.pure _
  · exact hP.bind (hP.make _) fun _ => hP.pure _
  · exact hP.element _ _ _
  · exact hP.bind (hP.setElement _ _ _ _) fun _ => hP.pure _
  · exact hP.bind (hP.closure _ _) fun _ => hP.pure _
  · exact hP.lookup _ _ _
  · exact hP.bind (hP.superProperty _ _ _) fun v => hP.access ih.apply v
  · exact hP.outOfFuel

theorem expr_succ (ih : ClosedAt P fuel) (e : Expr) : P Value (Eval.expr (fuel + 1) e) := by
  obtain ⟨id, span, node⟩ := e
  by_cases hstrict : node.isStrict = true
  · rw [expr_of_isStrict fuel id span hstrict]
    exact hP.bind (hP.exprs ih.expr _) fun vs => ih.act hP id span node vs
  · cases node with
    | logical op left right =>
      exact hP.bind (ih.expr left) fun v => Closed.ite (hP.pure v) (ih.expr right)
    | ternary condition yes no =>
      exact hP.bind (ih.expr condition) fun v => Closed.ite (ih.expr yes) (ih.expr no)
    | _ => exact absurd rfl hstrict

theorem apply_succ (ih : ClosedAt P fuel) (f : Closure) (args : List Value) :
    P Value (Eval.apply (fuel + 1) f args) := by
  rw [apply_eq_resultOf]
  exact hP.bind (hP.make _) fun frame =>
    hP.bind (hP.inFrame _ (hP.stmts ih.stmt _)) fun signal => hP.resultOf f signal

theorem firstClause (ih : ClosedAt P fuel) (init : Option Stmt) :
    P Unit (Eval.firstClause fuel init) := by
  cases init with
  | none => exact hP.pure ()
  | some s => exact hP.discard (ih.stmt s)

theorem test (ih : ClosedAt P fuel) (condition : Option Expr) :
    P Bool (Eval.test fuel condition) := by
  cases condition with
  | none => exact hP.pure true
  | some e => exact hP.bind (ih.expr e) fun v => hP.pure v.isTruthy

theorem after (ih : ClosedAt P fuel) (step : Option Expr) : P Unit (Eval.after fuel step) := by
  cases step with
  | none => exact hP.pure ()
  | some e => exact hP.discard (ih.expr e)

theorem turns (ih : ClosedAt P fuel) (condition : Option Expr) (body : Stmt)
    (step : Option Expr) (k : Nat) : P Signal (Eval.turns fuel condition body step k) :=
  hP.loop (ih.test hP condition) (ih.stmt body) (ih.after hP step) k

/-- What is closed under all that evaluations are put together from holds of statements too. -/
theorem stmt_succ (hprint : ∀ text span, P Unit (printLine text span)) (ih : ClosedAt P fuel)
    (s : Stmt) : P Signal (Eval.stmt (fuel + 1) s) := by
  obtain ⟨span, node⟩ := s
  cases node with
  | expression e => exact hP.bind (hP.discard (ih.expr e)) fun _ => hP.pure Signal.next
  | print e =>
    exact hP.bind (ih.expr e) fun v => hP.read (fun _ _ _ => rfl) fun m =>
      hP.bind (hprint _ _) fun _ => hP.pure Signal.next
  | varDecl name init =>
    cases init with
    | none =>
      exact hP.bind (hP.pure Value.nil) fun v => hP.bind (hP.define _ _) fun _ =>
        hP.pure Signal.next
    | some e =>
      exact hP.bind (ih.expr e) fun v => hP.bind (hP.define _ _) fun _ => hP.pure Signal.next
  | block body => exact hP.inNewFrame (hP.stmts ih.stmt body)
  | ifElse condition yes no =>
    refine hP.bind (ih.expr condition) fun v => Closed.ite (ih.stmt yes) ?_
    cases no with
    | none => exact hP.pure Signal.next
    | some s => exact ih.stmt s
  | «while» condition body =>
    rw [stmt_while]
    exact ih.turns hP (some condition) body none fuel
  | «for» init condition step body =>
    rw [stmt_for]
    exact hP.inNewFrame (hP.bind (ih.firstClause hP init) fun _ =>
      ih.turns hP condition body step fuel)
  | «break» => exact hP.pure Signal.break
  | «continue» => exact hP.pure Signal.continue
  | funDecl f =>
    exact hP.bind (hP.closure f .function) fun c =>
      hP.bind (hP.define _ _) fun _ => hP.pure Signal.next
  | «return» value =>
    cases value with
    | none => exact hP.pure (Signal.return .nil)
    | some e => exact hP.bind (ih.expr e) fun v => hP.pure (Signal.return v)
  | classDecl name superclass traits methods statics =>
    exact hP.bind (hP.declareClass name superclass traits methods statics) fun _ =>
      hP.pure Signal.next
  | traitDecl name methods statics =>
    exact hP.bind (hP.declareTrait name methods statics) fun _ => hP.pure Signal.next

end ClosedAt

section

variable {P : (α : Type) → Eval α → Prop} (hP : Closed P)
  (hprint : ∀ text span, P Unit (printLine text span))

include hP hprint

/-- All evaluations have the property, by induction on the fuel that their parts get. -/
theorem closedAt (fuel : Nat) : ClosedAt P fuel := by
  induction fuel with
  | zero => exact ⟨fun _ => hP.outOfFuel, fun _ _ => hP.outOfFuel, fun _ => hP.outOfFuel⟩
  | succ fuel ih => exact ⟨ih.expr_succ hP, ih.apply_succ hP, ih.stmt_succ hP hprint⟩

theorem closed_program (fuel : Nat) (ss : List Stmt) : P Unit (program fuel ss) := by
  induction ss with
  | nil => exact hP.pure ()
  | cons s ss ih => exact hP.bind (hP.discard ((closedAt hP hprint fuel).stmt s)) fun _ => ih

end

/-! ## From machine to machine -/

/-- Wherever the evaluation is begun, `R` leads from the machine there to the one behind it. -/
def Keeps (R : Machine → Machine → Prop) (x : Eval α) : Prop := ∀ m, R m (machineOf (x m))

/-- What the operations keep but for printing, one after another. -/
structure Stable (R : Machine → Machine → Prop) : Prop where
  refl : ∀ m, R m m
  trans : ∀ {m m' m''}, R m m' → R m' m'' → R m m''
  heap : ∀ m h, R m { m with heap := h }
  tick : ∀ m, R m m.tick
  inFrame : ∀ {m m'} frame, R { m with frame := frame } m' → R m { m' with frame := m.frame }

theorem printLine_apply (text : String) (span : Span) (m : Machine) :
    printLine text span m =
      if (m.output.write (text ++ "\n")).1 then
        .ok () { m with output := (m.output.write (text ++ "\n")).2 }
      else .error (.error ⟨span, .outputFailed Output.limitReached⟩)
        { m with output := (m.output.write (text ++ "\n")).2 } := rfl

theorem inFrame_apply (frame : FrameId) (x : Eval α) (m : Machine) :
    inFrame frame x m =
      mapMachine (fun m' => { m' with frame := m.frame }) (x { m with frame := frame }) := by
  unfold inFrame
  cases x { m with frame := frame } <;> rfl

theorem closed_keeps {R : Machine → Machine → Prop} (hR : Stable R) :
    Closed fun _ x => Keeps R x where
  pure _ := hR.refl
  throw _ := hR.refl
  bind {α β x f} hx hf m := by
    have hfirst := hx m
    cases h : x m with
    | ok a m' =>
      rw [h] at hfirst
      rw [EStateM.bind_of_ok h]
      exact hR.trans hfirst (hf a m')
    | error stop m' =>
      rw [h] at hfirst
      rw [EStateM.bind_of_error h]
      exact hfirst
  read _ hf m := hf m m
  change _ m := hR.heap m _
  clock := hR.tick
  inFrame frame x hx m := by
    have hbody := hR.inFrame frame (hx { m with frame := frame })
    unfold Eval.inFrame
    cases h : x { m with frame := frame } with
    | ok a m' =>
      rw [h] at hbody
      exact hbody
    | error stop m' =>
      rw [h] at hbody
      exact hbody

theorem keeps_printLine {R : Machine → Machine → Prop}
    (hR : ∀ m text, R m { m with output := (m.output.write text).2 }) (text : String)
    (span : Span) : Keeps R (printLine text span) := by
  intro m
  rw [printLine_apply]
  split
  · exact hR m _
  · exact hR m _

theorem stable_distances : Stable fun m m' => m'.distances = m.distances where
  refl _ := rfl
  trans h h' := h'.trans h
  heap _ _ := rfl
  tick _ := rfl
  inFrame _ h := h

theorem program_keeps_distances (fuel : Nat) (ss : List Stmt) :
    Keeps (fun m m' => m'.distances = m.distances) (program fuel ss) :=
  closed_program (closed_keeps stable_distances) (keeps_printLine fun _ _ => rfl) fuel ss

end Eval

end Lox

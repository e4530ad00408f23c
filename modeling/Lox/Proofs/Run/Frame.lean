import Lox.Proofs.Run.Closed
import Lox.Proofs.Run.Name

/-!
# The current frame

Blocks, `for` statements, calls and the members of a class with a superclass are run in frames of
their own.  The frame that was current before is current again behind them, whether they end with a
value, with a signal or in an error, and from however deep inside:

    (machineOf (Eval.stmt fuel s m)).frame = m.frame                               (keepsFrameAt)

So between the runs of a session the current frame is that of the globals, and what a program says
outside all its scopes is about the globals.
-/

namespace Lox

namespace Eval

open Run

variable {α : Type}

/-- Wherever the evaluation is begun, the frame that is current there is current behind it. -/
def KeepsFrame (x : Eval α) : Prop := ∀ m, (machineOf (x m)).frame = m.frame

/-- What is run in a frame of its own may leave any frame current: the old one is put back. -/
theorem stable_frame : Stable fun m m' => m'.frame = m.frame where
  refl _ := rfl
  trans h h' := h'.trans h
  heap _ _ := rfl
  tick _ := rfl
  inFrame _ _ := rfl

theorem keepsFrameAt (fuel : Nat) : ClosedAt (fun _ x => KeepsFrame x) fuel :=
  closedAt (closed_keeps stable_frame) (keeps_printLine fun _ _ => rfl) fuel

theorem keepsFrame_callValue {apply : Closure → List Value → Eval Value}
    (ha : ∀ f args, KeepsFrame (apply f args)) (callee : Value) (args : List Value)
    (span : Span) : KeepsFrame (callValue apply callee args span) :=
  (closed_keeps stable_frame).callValue ha callee args span

theorem keepsFrame_program (fuel : Nat) (ss : List Stmt) : KeepsFrame (program fuel ss) :=
  closed_program (closed_keeps stable_frame) (keeps_printLine fun _ _ => rfl) fuel ss

theorem assigned_apply (name : Identifier) (write : Machine → Bool × Heap) (m : Machine) :
    assigned name write m =
      if (write m).1 then .ok () { m with heap := (write m).2 }
      else .error (.error ⟨name.span, .undefinedVariable name.name⟩)
        { m with heap := (write m).2 } := by
  unfold assigned
  cases hw : write m with
  | mk found heap =>
    rw [EStateM.bind_of_ok (by rw [EStateM.modifyGet_apply, hw])]
    cases found <;> rfl

end Eval

/-! ## Sessions -/

namespace Session

theorem frame_prepare (s : Session) (source : String) :
    (s.prepare source).2.machine.frame = s.machine.frame := by
  cases hp : s.prepare source with
  | mk result s' =>
    cases result with
    | ok p =>
      obtain ⟨tree, r, -, -, -, rfl⟩ := prepare_eq_ok hp
      rfl
    | error f => rw [(prepare_eq_error hp).1]

theorem machine_evaluate {α : Type} (s : Session) (e : Eval α) :
    (s.evaluate e).2.machine = Run.machineOf (e s.machine) := by
  unfold evaluate
  cases hr : e s.machine with
  | ok a m => simp only [hr, Run.machineOf]
  | error stop m => cases stop <;> simp only [hr, Run.machineOf]

theorem frame_execute (s : Session) (fuel : Nat) (p : Program) :
    (s.execute fuel p).2.machine.frame = s.machine.frame := by
  rw [execute, machine_evaluate]
  exact Eval.keepsFrame_program fuel p.body s.machine

theorem frame_run (s : Session) (fuel : Nat) (source : String) :
    (s.run fuel source).2.machine.frame = s.machine.frame := by
  have hprepare := s.frame_prepare source
  unfold run
  cases hp : s.prepare source with
  | mk result s' =>
    rw [hp] at hprepare
    cases result with
    | error f => exact hprepare
    | ok p =>
      have hexecute := s'.frame_execute fuel p
      cases he : s'.execute fuel p with
      | mk outcome s'' =>
        rw [he] at hexecute
        rw [← hprepare, ← hexecute]
        cases outcome <;> simp only [he]

end Session

namespace Run

open Lexical

theorem Config.frameOf_eq_globals {stack : List Config} (h : ∀ c ∈ stack, c.entered? = none) :
    Config.frameOf stack = Heap.globals := by
  induction stack with
  | nil => rfl
  | cons c stack ih =>
    obtain ⟨hc, hstack⟩ := List.forall_mem_cons.1 h
    rw [frameOf, hc]
    exact ih hstack

/-- A run does not begin with a task that opens a scope. -/
theorem Reached.opening?_eq_none {log : Log} (h : Reached log) :
    ∀ c ∈ log.runs, c.opening? = none := by
  induction h with
  | start => exact fun _ hc => absurd hc List.not_mem_nil
  | step _ hstep ih =>
    cases hstep with
    | prepared | rejected => exact ih
    | executed | evaluated | called => exact List.forall_mem_cons.2 ⟨rfl, ih⟩

/-- What opens a scope is done for another task. -/
theorem Reached.exists_parent {log : Log} {stack : List Config} {c : Config} (h : Reached log)
    (hv : log.Visited stack c) (ho : c.opening?.isSome) :
    ∃ parent outer, log.Visited outer parent ∧ Calls parent c := by
  cases stack with
  | nil =>
    obtain ⟨c₀, hc₀, hv⟩ := hv
    cases hv
    rw [h.opening?_eq_none _ hc₀] at ho
    cases ho
  | cons parent outer => exact ⟨parent, outer, hv.of_cons⟩

/-- Where a task opens a scope, the frame of the globals is there already. -/
theorem Reached.frames_pos {log : Log} {stack : List Config} {c : Config} (h : Reached log)
    (hv : log.Visited stack c) (ho : c.opening?.isSome) : 0 < c.machine.heap.frames.size := by
  obtain ⟨parent, outer, hparent, hcall⟩ := h.exists_parent hv ho
  obtain ⟨W, -, hready, -⟩ := h.visited hv
  obtain ⟨_, -, hfor, -⟩ := h.visited hparent
  obtain ⟨fuel, task, m⟩ := c
  cases task with
  | stmt s =>
    obtain ⟨π, hc, -⟩ := hready
    exact hc.sound.globals
  | apply f args => exact hready.2.1.globals
  | bind f receiver =>
    cases hcall with
    | bindMember | bindSuper =>
      obtain ⟨π, hc, -⟩ := hfor
      exact hc.sound.globals
    | bindInit hm =>
      subst hm
      exact hfor.2.1.globals
  | members s =>
    cases hcall with
    | members hheader =>
      obtain ⟨π, hc, hp⟩ := hfor
      exact ((World.classHeader_safe hc.sound hp.wellFormed.1 _ _ hc.chain).of_ok
        hheader).1.sound.globals
  | _ => cases ho

/-- No scope is open where the current frame is that of the globals. -/
theorem Reached.openings_eq_nil {log : Log} {stack : List Config} {h : Heap}
    (hreached : Reached log) {os : List Opening}
    (hc : (log.during stack).Chain h os Heap.globals) : os = [] := by
  cases os with
  | nil => rfl
  | cons o os =>
    obtain ⟨outer, ha, -⟩ := hc
    obtain ⟨c, ⟨stack', hv⟩, ⟨hopening, hglobals⟩, -⟩ := ha.made
    have hpos := hreached.frames_pos hv (Option.isSome_of_eq_some hopening)
    rw [Heap.globals, Config.nextFrame, FrameId.mk.injEq] at hglobals
    omega

/-- Where no scope is open, an assignment is to a global, or to nothing. -/
theorem assign_of_not_recorded {m : Machine} {id : ExprId} (hd : m.distances[id]? = none)
    (name : Identifier) (v : Value) :
    Eval.assign id name v m =
      if (m.heap.getIn? Heap.globals name.name).isSome then
        .ok () { m with heap := m.heap.define Heap.globals name.name v }
      else .error (.error ⟨name.span, .undefinedVariable name.name⟩) m := by
  simp only [Eval.assign, Eval.assigned_apply, hd, Heap.assign, Heap.owner?_globals]
  cases (m.heap.getIn? Heap.globals name.name).isSome <;> rfl

/-- Statements, expressions and calls put the current frame back, whatever they come to.  So it is
that of the globals behind everything that a session does, and what is run before a frame has been
entered defines, reads and assigns globals. -/
theorem Reached.frame_restored {log : Log} (h : Reached log) :
    (∀ fuel m, (∀ s, (machineOf (Eval.stmt fuel s m)).frame = m.frame) ∧
      (∀ e, (machineOf (Eval.expr fuel e m)).frame = m.frame) ∧
      (∀ f args, (machineOf (Eval.apply fuel f args m)).frame = m.frame) ∧
      ∀ f args span, (machineOf (Eval.call fuel f args span m)).frame = m.frame) ∧
    log.session.machine.frame = Heap.globals ∧
    (∀ source fuel, (log.session.prepare source).2.machine.frame = Heap.globals ∧
      (log.session.run fuel source).2.machine.frame = Heap.globals ∧
      ∀ p, (log.session.execute fuel p).2.machine.frame = Heap.globals) ∧
    ∀ stack c, log.Visited stack c → (∀ d ∈ stack, d.entered? = none) →
      c.machine.frame = Heap.globals ∧
      (∀ name v, Eval.define name v c.machine =
        .ok () { c.machine with heap := c.machine.heap.define Heap.globals name v }) ∧
      ∀ id name reads, c.task = .use id name reads →
        (∀ v, c.machine.lookup id name = .ok v ↔
          c.machine.heap.getIn? Heap.globals name = some v) ∧
        ∀ span v, Eval.assign id ⟨name, span⟩ v c.machine =
          if (c.machine.heap.getIn? Heap.globals name).isSome then
            .ok () { c.machine with heap := c.machine.heap.define Heap.globals name v }
          else .error (.error ⟨span, .undefinedVariable name⟩) c.machine := by
  have hglobals := h.sound.frame
  refine ⟨fun fuel m => ⟨fun s => (Eval.keepsFrameAt fuel).stmt s m,
    fun e => (Eval.keepsFrameAt fuel).expr e m,
    fun f args => (Eval.keepsFrameAt fuel).apply f args m,
    fun f args span => Eval.keepsFrame_callValue (Eval.keepsFrameAt fuel).apply f args span m⟩,
    hglobals, fun source fuel => ⟨?_, ?_, fun p => ?_⟩, fun stack c hv hstack => ?_⟩
  · rw [Session.frame_prepare, hglobals]
  · rw [Session.frame_run, hglobals]
  · rw [Session.frame_execute, hglobals]
  obtain ⟨W, hle, hready, hframe⟩ := h.visited hv
  rw [Config.frameOf_eq_globals hstack] at hframe
  refine ⟨hframe, fun name v => by rw [← hframe]; rfl, fun id name reads htask => ?_⟩
  have hnot : c.machine.distances[id]? = none := by
    obtain ⟨fuel, task, m⟩ := c
    subst htask
    obtain ⟨π, hc, hp⟩ := hready
    have hchain := (hle.later m.heap).chain hc.chain
    rw [hframe] at hchain
    rw [hc.sound.knows hp, Lexical.Place.distance?_eq_none_iff, h.openings_eq_nil hchain]
    exact fun o ho => absurd ho List.not_mem_nil
  exact ⟨fun v => lookup_global hnot, fun span v => assign_of_not_recorded hnot ⟨name, span⟩ v⟩

/-- An error in a block. -/
theorem frame_restored_block : ∃ log fuel p m stop m', Reached log ∧ p ∈ log.programs ∧
    ⟨fuel, .program p.body, m⟩ ∈ log.runs ∧
    Eval.program fuel p.body m = .error (.error stop) m' ∧
    log.session.machine.frame = Heap.globals := by
  let call : Expr := ⟨1, .onLine 2 7, .call ⟨0, .onLine 2 5, .literal .nil⟩ []⟩
  let body : List Stmt := [⟨.onLine 0 10, .block [⟨.onLine 2 8, .expression call⟩]⟩]
  have hparse : Tree.parse "{ nil(); }" 0 = .ok ⟨body, 2⟩ := by cbv
  have hresolve : Resolution.ofProgram body = .ok ⟨[], []⟩ := by cbv
  obtain ⟨log, hreached, hprograms, hrun⟩ :=
    (Reached.start none (fun _ => 0)).executes hparse hresolve 4
  have hfails : Eval.program 4 body ((Machine.start none (fun _ => 0)).learn []) =
      .error (.error ⟨.onLine 2 7, .notCallable⟩) _ := rfl
  exact ⟨log, _, _, _, _, _, hreached, hprograms ▸ List.mem_cons_self, hrun, hfails,
    hreached.frame_restored.2.1⟩

end Run

end Lox

import Lox.Proofs.Run.Sound

/-!
# What a run comes by

From a task that is ready to be run, each that it is made of is ready when its turn comes, and runs
in the frame that the task has entered, or else in that of the task itself.  A declaration is under
way while its initializer is run:

    W.Ready c → Calls c d →
      (W.Ready d ∨ (W.run c).Ready d) ∧ d.machine.frame = c.entered?.getD c.machine.frame
                                                                               (Ready.calls)

So a run comes by nothing that is not ready, and in the frame of the innermost call, block or `for`
that is under way.
-/

namespace Lox.Run.World

open Lexical

variable {W : World} {m m' : Machine} {π : Lexical.Place} {n : Nat}

/-- The task can be run: its parts are at their place, and its values are ones that programs may
come by. -/
def Ready (W : World) (c : Config) : Prop :=
  match c.task with
  | .program ss => W.Stands c .program ∧ W.Part .program (.stmts ss)
  | .stmts ss => ∃ π, W.Stands c π ∧ W.Part π (.stmts ss)
  | .stmt s => ∃ π, W.Stands c π ∧ W.Part π (.stmt s)
  | .loop condition body step _ => ∃ π, W.Stands c π ∧ (∀ e ∈ condition, W.Part π (.expr e)) ∧
      W.Part π.inLoop (.stmt body) ∧ ∀ e ∈ step, W.Part π (.expr e)
  | .exprs es => ∃ π, W.Stands c π ∧ ∀ e ∈ es, W.Part π (.expr e)
  | .expr e => ∃ π, W.Stands c π ∧ W.Part π (.expr e)
  | .act id span node vs => ∃ π, W.Stands c π ∧ W.Part π (.expr ⟨id, span, node⟩) ∧
      ∀ v ∈ vs, W.Ok c.machine.heap v
  | .use id name reads => ∃ π, W.Stands c π ∧ W.Part π (.use id name reads)
  | .call callee args _ => W.Covers c ∧ W.Sound c.machine ∧ W.Ok c.machine.heap callee ∧
      ∀ v ∈ args, W.Ok c.machine.heap v
  | .apply f args => W.Covers c ∧ W.Sound c.machine ∧ W.Callable c.machine.heap f ∧
      f.arity = args.length ∧ ∀ v ∈ args, W.Ok c.machine.heap v
  | .access v => W.Covers c ∧ W.Sound c.machine ∧ W.Ok c.machine.heap v
  | .bind _ _ | .members _ => True

/-! ## Steps -/

theorem reference_inside {span : Span} {name : Identifier} {superclass : Option Reference}
    {traits : List Reference} {methods statics : List Function} {r : Reference}
    (hr : r ∈ superclass.toList ++ traits) :
    Inside π (.stmt ⟨span, .classDecl name superclass traits methods statics⟩)
      (π.declare name.name) (.use r.id r.name.name true) := by
  rcases List.mem_append.1 hr with hr | hr
  · cases superclass with
    | none => cases hr
    | some s =>
      cases List.mem_singleton.1 hr
      exact .superclass
  · exact .trait hr

theorem Stands.calls_program {ss : List Stmt} {d : Config}
    (hc : W.Stands ⟨n, .program ss, m⟩ .program) (hp : W.Part .program (.stmts ss))
    (hcall : Calls ⟨n, .program ss, m⟩ d) : W.Ready d ∧ d.machine.frame = m.frame := by
  cases hcall with
  | programFirst => exact ⟨⟨_, hc.call .programFirst hc.refl, hp.inside .first⟩, rfl⟩
  | programRest h₁ =>
    obtain ⟨hs, -⟩ := ((soundAt W _).stmt (hc.call .programFirst hc.refl) (hp.inside .first)).of_ok h₁
    have hrest := hp.inside .rest
    rw [after_program] at hrest
    exact ⟨⟨hc.call (.programRest h₁) hs, hrest⟩, hs.frame⟩

theorem Stands.calls_stmts {ss : List Stmt} {d : Config} (hc : W.Stands ⟨n, .stmts ss, m⟩ π)
    (hp : W.Part π (.stmts ss)) (hcall : Calls ⟨n, .stmts ss, m⟩ d) :
    W.Ready d ∧ d.machine.frame = m.frame := by
  cases hcall with
  | stmtsFirst => exact ⟨⟨π, hc.call .stmtsFirst hc.refl, hp.inside .first⟩, rfl⟩
  | stmtsRest h₁ =>
    obtain ⟨hs, -, hnext⟩ :=
      ((soundAt W _).stmt (hc.call .stmtsFirst hc.refl) (hp.inside .first)).of_ok h₁
    exact ⟨⟨_, hc.callAt (.stmtsRest h₁) hs.sound (hs.frame ▸ hnext rfl), hp.inside .rest⟩, hs.frame⟩

theorem Stands.calls_exprs {es : List Expr} {d : Config} (hc : W.Stands ⟨n, .exprs es, m⟩ π)
    (hp : ∀ e ∈ es, W.Part π (.expr e)) (hcall : Calls ⟨n, .exprs es, m⟩ d) :
    W.Ready d ∧ d.machine.frame = m.frame := by
  cases hcall with
  | exprsFirst => exact ⟨⟨π, hc.call .exprsFirst hc.refl, hp _ List.mem_cons_self⟩, rfl⟩
  | exprsRest h₁ =>
    obtain ⟨he, hes⟩ := List.forall_mem_cons.1 hp
    obtain ⟨hs, -⟩ := ((soundAt W _).expr (hc.call .exprsFirst hc.refl) he).of_ok h₁
    exact ⟨⟨π, hc.call (.exprsRest h₁) hs, hes⟩, hs.frame⟩

/-- A declaration is under way from its initializer on. -/
theorem Stands.calls_stmt {s : Stmt} {d : Config} (hc : W.Stands ⟨n, .stmt s, m⟩ π)
    (hp : W.Part π (.stmt s)) (hcall : Calls ⟨n, .stmt s, m⟩ d) :
    (W.Ready d ∨ (W.run ⟨n, .stmt s, m⟩).Ready d) ∧
      d.machine.frame = (Config.entered? ⟨n, .stmt s, m⟩).getD m.frame := by
  cases hcall with
  | initializer => exact ⟨.inr ⟨_, hc.initializer, hp.inside .initializer⟩, rfl⟩
  | expression => exact ⟨.inl ⟨π, hc.call .expression hc.refl, hp.inside .expression⟩, rfl⟩
  | print => exact ⟨.inl ⟨π, hc.call .print hc.refl, hp.inside .print⟩, rfl⟩
  | block => exact ⟨.inl ⟨_, hc.enter .block rfl, hp.inside .block⟩, rfl⟩
  | ifCondition => exact ⟨.inl ⟨π, hc.call .ifCondition hc.refl, hp.inside .ifCondition⟩, rfl⟩
  | ifYes h₁ ht =>
    obtain ⟨hs, -⟩ :=
      ((soundAt W _).expr (hc.call .ifCondition hc.refl) (hp.inside .ifCondition)).of_ok h₁
    exact ⟨.inl ⟨π, hc.call (.ifYes h₁ ht) hs, hp.inside .ifYes⟩, hs.frame⟩
  | ifNo h₁ ht =>
    obtain ⟨hs, -⟩ :=
      ((soundAt W _).expr (hc.call .ifCondition hc.refl) (hp.inside .ifCondition)).of_ok h₁
    exact ⟨.inl ⟨π, hc.call (.ifNo h₁ ht) hs, hp.inside .ifNo⟩, hs.frame⟩
  | «while» =>
    exact ⟨.inl ⟨π, hc.call .while hc.refl, fun e he => by cases he; exact hp.inside .whileCondition,
      hp.inside .whileBody, fun e he => by cases he⟩, rfl⟩
  | forInit => exact ⟨.inl ⟨_, hc.enter .forInit rfl, hp.inside .forInit⟩, rfl⟩
  | «for» h₁ =>
    obtain ⟨hs, hchain⟩ := (firstClause_safe (soundAt W _) hc hp).of_ok h₁
    exact ⟨.inl ⟨_, hc.callAt (.for h₁) hs.sound (hs.frame ▸ hchain),
      fun e he => by cases he; exact hp.inside .forCondition, hp.inside .forBody,
      fun e he => by cases he; exact hp.inside .forStep⟩, hs.frame⟩
  | returnValue => exact ⟨.inl ⟨π, hc.call .returnValue hc.refl, hp.inside .returnValue⟩, rfl⟩
  | @classReference _ _ _ _ _ _ _ _ m hr =>
    have hs := define_step hc.sound m.frame hp.wellFormed.1
      (.of_ne (v := .nil) fun _ => Value.noConfusion)
    exact ⟨.inl ⟨_, hc.callAt (.classReference hr) hs.sound (hc.chain.define _ _),
      hp.inside (reference_inside hr)⟩, rfl⟩
  | members h₁ =>
    obtain ⟨hs, -⟩ := (classHeader_safe hc.sound hp.wellFormed.1 _ _ hc.chain).of_ok h₁
    exact ⟨.inl trivial, hs.frame⟩

theorem Stands.calls_loop {condition step : Option Expr} {body : Stmt} {k : Nat} {d : Config}
    (hc : W.Stands ⟨n, .loop condition body step k, m⟩ π)
    (hcondition : ∀ e ∈ condition, W.Part π (.expr e)) (hbody : W.Part π.inLoop (.stmt body))
    (hstep : ∀ e ∈ step, W.Part π (.expr e))
    (hcall : Calls ⟨n, .loop condition body step k, m⟩ d) :
    W.Ready d ∧ d.machine.frame = m.frame := by
  cases hcall with
  | condition => exact ⟨⟨π, hc.call .condition hc.refl, hcondition _ rfl⟩, rfl⟩
  | turn h₁ =>
    obtain ⟨hs, -⟩ := (test_safe (soundAt W _) hc hcondition).of_ok h₁
    exact ⟨⟨_, (hc.call (.turn h₁) hs).inLoop, hbody⟩, hs.frame⟩
  | step h₁ h₂ hsignal =>
    obtain ⟨hs, -⟩ := turn_step (soundAt W _) hc hcondition hbody h₁ h₂
    exact ⟨⟨π, hc.call (.step h₁ h₂ hsignal) hs, hstep _ rfl⟩, hs.frame⟩
  | turns h₁ h₂ hsignal h₃ =>
    obtain ⟨hs, -⟩ := turn_step (soundAt W _) hc hcondition hbody h₁ h₂
    obtain ⟨hs', -⟩ := (after_safe (soundAt W _) hc h₁ h₂ hsignal hs hstep).of_ok h₃
    exact ⟨⟨π, hc.call (.turns h₁ h₂ hsignal h₃) (hs.trans hs'), hcondition, hbody, hstep⟩,
      (hs.trans hs').frame⟩

theorem Stands.calls_expr {e : Expr} {d : Config} (hc : W.Stands ⟨n, .expr e, m⟩ π)
    (hp : W.Part π (.expr e)) (hcall : Calls ⟨n, .expr e, m⟩ d) :
    W.Ready d ∧ d.machine.frame = m.frame := by
  cases hcall with
  | operands hstrict =>
    exact ⟨⟨π, hc.call (.operands hstrict) hc.refl, fun e he => hp.inside (.operand he)⟩, rfl⟩
  | act hstrict h₁ =>
    obtain ⟨hs, hvs⟩ := (exprs_safe (soundAt W _) (hc.call (.operands hstrict) hc.refl)
      fun e he => hp.inside (.operand he)).of_ok h₁
    exact ⟨⟨π, hc.call (.act hstrict h₁) hs, hp, hvs⟩, hs.frame⟩
  | logicalLeft =>
    exact ⟨⟨π, hc.call .logicalLeft hc.refl, hp.inside (.operand List.mem_cons_self)⟩, rfl⟩
  | logicalRight h₁ hd =>
    obtain ⟨hs, -⟩ := ((soundAt W _).expr (hc.call .logicalLeft hc.refl)
      (hp.inside (.operand List.mem_cons_self))).of_ok h₁
    exact ⟨⟨π, hc.call (.logicalRight h₁ hd) hs,
      hp.inside (.operand (by simp [Expr.Node.operands]))⟩, hs.frame⟩
  | ternaryCondition =>
    exact ⟨⟨π, hc.call .ternaryCondition hc.refl, hp.inside (.operand List.mem_cons_self)⟩, rfl⟩
  | ternaryYes h₁ ht =>
    obtain ⟨hs, -⟩ := ((soundAt W _).expr (hc.call .ternaryCondition hc.refl)
      (hp.inside (.operand List.mem_cons_self))).of_ok h₁
    exact ⟨⟨π, hc.call (.ternaryYes h₁ ht) hs,
      hp.inside (.operand (by simp [Expr.Node.operands]))⟩, hs.frame⟩
  | ternaryNo h₁ ht =>
    obtain ⟨hs, -⟩ := ((soundAt W _).expr (hc.call .ternaryCondition hc.refl)
      (hp.inside (.operand List.mem_cons_self))).of_ok h₁
    exact ⟨⟨π, hc.call (.ternaryNo h₁ ht) hs,
      hp.inside (.operand (by simp [Expr.Node.operands]))⟩, hs.frame⟩

theorem Stands.calls_act {id : ExprId} {span : Span} {node : Expr.Node} {vs : List Value}
    {d : Config} (hc : W.Stands ⟨n, .act id span node vs, m⟩ π)
    (hp : W.Part π (.expr ⟨id, span, node⟩)) (hvs : ∀ v ∈ vs, W.Ok m.heap v)
    (hcall : Calls ⟨n, .act id span node vs, m⟩ d) :
    W.Ready d ∧ d.machine.frame = m.frame := by
  cases hcall with
  | «variable» => exact ⟨⟨π, hc.call .variable hc.refl, hp.inside .variable⟩, rfl⟩
  | assign => exact ⟨⟨π, hc.call .assign hc.refl, hp.inside .assign⟩, rfl⟩
  | this => exact ⟨⟨π, hc.call .this hc.refl, hp.inside .this⟩, rfl⟩
  | super => exact ⟨⟨π, hc.call .super hc.refl, hp.inside .super⟩, rfl⟩
  | bindMember => exact ⟨trivial, rfl⟩
  | access h₁ =>
    obtain ⟨hs, hv⟩ := (property_safe (n := _) (fun i f ht hf => by
      subst ht; exact hc.covers.call (.bindMember hf)) hc.sound).of_ok h₁
    exact ⟨⟨hc.covers.call (.access h₁), hs.sound, hv⟩, hs.frame⟩
  | bindSuper => exact ⟨trivial, rfl⟩
  | accessSuper h₁ =>
    obtain ⟨hs, hv⟩ := (superProperty_safe (n := _) (fun hops c receiver f hd hv hr hf =>
      hc.covers.call (.bindSuper hd hv hr hf)) hc.sound).of_ok h₁
    exact ⟨⟨hc.covers.call (.accessSuper h₁), hs.sound, hv⟩, hs.frame⟩
  | call =>
    obtain ⟨hf, hargs⟩ := List.forall_mem_cons.1 hvs
    exact ⟨⟨hc.covers.call .call, hc.sound, hf, hargs⟩, rfl⟩

theorem Ready.calls_access {v : Value} {d : Config} (h : W.Ready ⟨n, .access v, m⟩)
    (hcall : Calls ⟨n, .access v, m⟩ d) : W.Ready d ∧ d.machine.frame = m.frame := by
  cases hcall with
  | getter hg hr =>
    obtain ⟨hcovers, hm, hv⟩ := h
    have hf := ok_function_iff.1 hv
    exact ⟨⟨hcovers.call (.getter hg hr), hm, hf, arity_of_isGetter hf hg, by simp⟩, rfl⟩

theorem Ready.calls_apply {f : Closure} {args : List Value} {d : Config}
    (h : W.Ready ⟨n, .apply f args, m⟩) (hcall : Calls ⟨n, .apply f args, m⟩ d) :
    W.Ready d ∧ d.machine.frame = (Config.entered? ⟨n, .apply f args, m⟩).getD m.frame := by
  cases hcall with
  | body =>
    obtain ⟨hcovers, hm, hf, ha, hargs⟩ := h
    obtain ⟨π, hc, hp, -⟩ := stands_body hcovers hm hf ha hargs
    exact ⟨⟨π, hc, hp⟩, rfl⟩

theorem Ready.calls_call {callee : Value} {args : List Value} {span : Span} {d : Config}
    (h : W.Ready ⟨n, .call callee args span, m⟩) (hcall : Calls ⟨n, .call callee args span, m⟩ d) :
    W.Ready d ∧ d.machine.frame = m.frame := by
  cases hcall with
  | apply ha =>
    obtain ⟨hcovers, hm, hf, hargs⟩ := h
    exact ⟨⟨hcovers.call (.apply ha), hm, ok_function_iff.1 hf, ha, hargs⟩, rfl⟩
  | bindInit hm₁ =>
    subst hm₁
    exact ⟨trivial, rfl⟩
  | @applyInit _ c _ _ _ _ _ _ _ hm₁ hf ha hbind =>
    obtain ⟨hcovers, hm, -, hargs⟩ := h
    have hs₁ := newInstance_step hm c
    rw [← hm₁] at hs₁
    have hbound := bind_safe (hcovers.call (.bindInit hm₁ hf ha)) hs₁.sound
      (hs₁.sound.heap.method? hf) (.of_ne fun _ => Value.noConfusion)
    obtain ⟨rfl, rfl⟩ := Prod.ext_iff.1 hbind
    obtain ⟨hs₂, hg, hfunction⟩ := hbound.of_ok (make_eq_ok.2 ⟨rfl, rfl⟩)
    exact ⟨⟨hcovers.call (.applyInit hm₁ hf ha rfl), hs₂.sound, hg,
      (congrArg Function.arity hfunction).trans ha,
      fun v hv => (hargs v hv).mono (hs₁.trans hs₂).grown⟩, (hs₁.trans hs₂).frame⟩

theorem Ready.calls {c d : Config} (h : W.Ready c) (hcall : Calls c d) :
    (W.Ready d ∨ (W.run c).Ready d) ∧ d.machine.frame = c.entered?.getD c.machine.frame := by
  obtain ⟨n, task, m⟩ := c
  cases task with
  | program ss =>
    obtain ⟨hc, hp⟩ := h
    exact (hc.calls_program hp hcall).imp_left .inl
  | stmts ss =>
    obtain ⟨π, hc, hp⟩ := h
    exact (hc.calls_stmts hp hcall).imp_left .inl
  | stmt s =>
    obtain ⟨π, hc, hp⟩ := h
    exact hc.calls_stmt hp hcall
  | loop condition body step k =>
    obtain ⟨π, hc, hcondition, hbody, hstep⟩ := h
    exact (hc.calls_loop hcondition hbody hstep hcall).imp_left .inl
  | exprs es =>
    obtain ⟨π, hc, hp⟩ := h
    exact (hc.calls_exprs hp hcall).imp_left .inl
  | expr e =>
    obtain ⟨π, hc, hp⟩ := h
    exact (hc.calls_expr hp hcall).imp_left .inl
  | act id span node vs =>
    obtain ⟨π, hc, hp, hvs⟩ := h
    exact (hc.calls_act hp hvs hcall).imp_left .inl
  | call callee args span => exact (h.calls_call hcall).imp_left .inl
  | apply f args => exact (h.calls_apply hcall).imp_left .inl
  | access v => exact (h.calls_access hcall).imp_left .inl
  | use | members | bind => cases hcall

/-! ## Runs -/

/-- The same world, but that declarations among the tasks in `stack` may be under way. -/
structure Under (W : World) (stack : List Config) (W' : World) : Prop where
  programs : W'.programs = W.programs
  visited : W'.visited = W.visited
  running : ∀ d, W'.running d → W.running d ∨ d ∈ stack

/-- A run that is ready when it starts comes by nothing that is not. -/
theorem Ready.visits {c₀ c : Config} {stack : List Config} (h : W.Ready c₀)
    (hframe : c₀.machine.frame = Heap.globals) (hv : Visits c₀ stack c) :
    ∃ W', Under W stack W' ∧ W'.Ready c ∧ c.machine.frame = Config.frameOf stack := by
  induction hv with
  | start => exact ⟨W, ⟨rfl, rfl, fun _ => .inl⟩, h, hframe⟩
  | @call stack c d _ hcall ih =>
    obtain ⟨W', hw, hc, hf⟩ := ih
    obtain ⟨hd, hfd⟩ := hc.calls hcall
    have hframe : d.machine.frame = Config.frameOf (c :: stack) := by
      rw [hfd, hf]
      rfl
    have hunder : ∀ d, W'.running d → W.running d ∨ d ∈ c :: stack := fun d hd =>
      (hw.running d hd).imp_right (List.mem_cons_of_mem _)
    rcases hd with hd | hd
    · exact ⟨W', ⟨hw.programs, hw.visited, hunder⟩, hd, hframe⟩
    · refine ⟨W'.run c, ⟨hw.programs, hw.visited, ?_⟩, hd, hframe⟩
      rintro e (rfl | he)
      · exact .inr List.mem_cons_self
      · exact hunder e he

end Lox.Run.World

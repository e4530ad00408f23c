import Lox.Proofs.Run.Effect

/-!
# Soundness of runs

Running any part of an accepted program keeps the machine sound: values are ones that programs may
come by, a statement that is passed leaves the names that it declares behind, and one that is left
by a signal stands where that signal is allowed.  `SoundAt n` says so for evaluations with fuel `n`,
and each form is dealt with from its parts, in the order of evaluation:

    W.SoundAt n                                                                    (soundAt)
-/

namespace Lox.Run.World

open Lexical

variable {W : World} {m : Machine} {π π' : Lexical.Place} {n : Nat}

/-! ## Places that are run -/

/-- The task is run where the frames are those of the place. -/
structure Stands (W : World) (c : Config) (π : Lexical.Place) : Prop where
  covers : W.Covers c
  sound : W.Sound c.machine
  chain : W.Chain c.machine.heap π.openings c.machine.frame

theorem Stands.call {c d : Config} (hc : W.Stands c π) (h : Calls c d)
    (hs : W.Step c.machine d.machine) : W.Stands d π :=
  ⟨hc.covers.call h, hs.sound, hs.frame ▸ hc.chain.mono hs.grown⟩

theorem Stands.callAt {c d : Config} (hc : W.Stands c π) (h : Calls c d)
    (hs : W.Sound d.machine) (hchain : W.Chain d.machine.heap π'.openings d.machine.frame) :
    W.Stands d π' :=
  ⟨hc.covers.call h, hs, hchain⟩

theorem Stands.inLoop {c : Config} (hc : W.Stands c π) : W.Stands c π.inLoop :=
  ⟨hc.covers, hc.sound, hc.chain⟩

/-- The current frame has been made. -/
theorem Stands.index_lt {c : Config} (hc : W.Stands c π) :
    c.machine.frame.index < c.machine.heap.frames.size := by
  by_cases ho : π.openings = []
  · have hchain := hc.chain
    rw [ho] at hchain
    rw [show c.machine.frame = Heap.globals from hchain]
    exact hc.sound.globals
  · exact hc.chain.index_lt ho

theorem Stands.refl {c : Config} (hc : W.Stands c π) : W.Step c.machine c.machine := .refl hc.sound

theorem Sound.enter (hm : W.Sound m) {outer : FrameId} {bindings : Table Value}
    (hh : (m.enter outer bindings).heap.Holds (W.Ok (m.enter outer bindings).heap)
      (W.Method (m.enter outer bindings).heap)) : W.Sound (m.enter outer bindings) :=
  ⟨hm.knows, hh, Nat.lt_of_lt_of_le hm.globals (m.heap.extends_newFrame outer bindings).size⟩

theorem Part.wellFormed {node : Node} (hp : W.Part π node) : node.WellFormed := by
  obtain ⟨body, hb, ho⟩ := hp
  exact ho.wellFormed (W.accepted body hb).1

/-- What a statement may be left by. -/
def Leaves (W : World) (c : Resolution.Context) (h : Heap) : Signal → Prop
  | .next => True
  | .break | .continue => c.loops ≠ 0
  | .return v => c.function ≠ .none ∧ W.Ok h v

/-- Evaluations with so much fuel keep machines sound. -/
structure SoundAt (W : World) (n : Nat) : Prop where
  expr : ∀ {e : Expr} {m : Machine} {π : Lexical.Place}, W.Stands ⟨n, .expr e, m⟩ π →
    W.Part π (.expr e) → W.Safe (Eval.expr n e) m fun v h => W.Ok h v
  stmt : ∀ {s : Stmt} {m : Machine} {π : Lexical.Place}, W.Stands ⟨n, .stmt s, m⟩ π →
    W.Part π (.stmt s) → W.Safe (Eval.stmt n s) m fun signal h =>
      W.Leaves π.context h signal ∧ (signal = .next → W.Chain h (π.after s).openings m.frame)
  apply : ∀ {f : Closure} {args : List Value} {m : Machine}, W.Covers ⟨n, .apply f args, m⟩ →
    W.Sound m → W.Callable m.heap f → f.arity = args.length → (∀ v ∈ args, W.Ok m.heap v) →
    W.Safe (Eval.apply n f args) m fun v h => W.Ok h v

/-! ## Sequences -/

theorem exprs_safe (ih : W.SoundAt n) {es : List Expr} (hc : W.Stands ⟨n, .exprs es, m⟩ π)
    (hp : ∀ e ∈ es, W.Part π (.expr e)) :
    W.Safe (Eval.exprs (Eval.expr n) es) m fun vs h => ∀ v ∈ vs, W.Ok h v := by
  induction es generalizing m with
  | nil => exact .pure hc.sound fun _ hv => by cases hv
  | cons e es ihes =>
    obtain ⟨he, hes⟩ := List.forall_mem_cons.1 hp
    refine (ih.expr (hc.call .exprsFirst hc.refl) he).bind fun v m₁ h₁ hs₁ hv => ?_
    refine (ihes (hc.call (.exprsRest h₁) hs₁) hes).bind fun vs m₂ _ hs₂ hvs => ?_
    exact .pure hs₂.sound (List.forall_mem_cons.2 ⟨hv.mono hs₂.grown, hvs⟩)

theorem stmts_safe (ih : W.SoundAt n) {ss : List Stmt} (hc : W.Stands ⟨n, .stmts ss, m⟩ π)
    (hp : W.Part π (.stmts ss)) :
    W.Safe (Eval.stmts (Eval.stmt n) ss) m fun signal h => W.Leaves π.context h signal := by
  induction ss generalizing m π with
  | nil => exact .pure hc.sound trivial
  | cons s ss ihss =>
    refine (ih.stmt (hc.call .stmtsFirst hc.refl) (hp.inside .first)).bind
      fun signal m₁ h₁ hs₁ ⟨hl, hnext⟩ => ?_
    cases signal with
    | next =>
      have hc₁ : W.Stands ⟨n, .stmts ss, m₁⟩ (π.after s) :=
        hc.callAt (.stmtsRest h₁) hs₁.sound (hs₁.frame ▸ hnext rfl)
      have hrest := ihss hc₁ (hp.inside .rest)
      rwa [Lexical.Place.context_after] at hrest
    | «break» | «continue» | «return» v => exact .pure hs₁.sound hl

theorem after_program (s : Stmt) : Lexical.Place.program.after s = .program := by
  unfold Lexical.Place.after
  split <;> rfl

theorem program_safe (ih : W.SoundAt n) {ss : List Stmt}
    (hc : W.Stands ⟨n, .program ss, m⟩ .program) (hp : W.Part .program (.stmts ss)) :
    W.Safe (Eval.program n ss) m fun _ _ => True := by
  induction ss generalizing m with
  | nil => exact .pure hc.sound trivial
  | cons s ss ihss =>
    have hfirst := ih.stmt (hc.call .programFirst hc.refl) (hp.inside .first)
    refine Safe.bind (Q := fun _ _ => True) ?_ fun _ m₁ h₁ hs₁ _ => ?_
    · exact hfirst.discard (R := fun _ => True) fun _ _ _ _ _ => trivial
    · obtain ⟨signal, h₁, -⟩ := EStateM.map_eq_ok.1 h₁
      have hrest := hp.inside .rest
      rw [after_program] at hrest
      exact ihss (hc.call (.programRest h₁) hs₁) hrest

/-! ## Loops -/

theorem test_safe (ih : W.SoundAt n) {condition step : Option Expr} {body : Stmt} {k : Nat}
    (hc : W.Stands ⟨n, .loop condition body step (k + 1), m⟩ π)
    (hp : ∀ e ∈ condition, W.Part π (.expr e)) :
    W.Safe (Eval.test n condition) m fun _ _ => True := by
  cases condition with
  | none => exact .pure hc.sound trivial
  | some e =>
    exact (ih.expr (hc.call .condition hc.refl) (hp e rfl)).bind fun _ _ _ hs _ =>
      .pure hs.sound trivial

/-- What a turn of a loop does, with its test. -/
theorem turn_step (ih : W.SoundAt n) {condition step : Option Expr} {body : Stmt} {k : Nat}
    {m₁ m₂ : Machine} {signal : Signal}
    (hc : W.Stands ⟨n, .loop condition body step (k + 1), m⟩ π)
    (hcondition : ∀ e ∈ condition, W.Part π (.expr e)) (hbody : W.Part π.inLoop (.stmt body))
    (h₁ : Eval.test n condition m = .ok true m₁) (h₂ : Eval.stmt n body m₁ = .ok signal m₂) :
    W.Step m m₂ ∧ W.Leaves π.inLoop.context m₂.heap signal := by
  obtain ⟨hs₁, -⟩ := (test_safe ih hc hcondition).of_ok h₁
  obtain ⟨hs₂, hl, -⟩ := (ih.stmt (hc.call (.turn h₁) hs₁).inLoop hbody).of_ok h₂
  exact ⟨hs₁.trans hs₂, hl⟩

theorem after_safe (ih : W.SoundAt n) {condition step : Option Expr} {body : Stmt} {k : Nat}
    {m₁ m₂ : Machine} {signal : Signal}
    (hc : W.Stands ⟨n, .loop condition body step (k + 1), m⟩ π)
    (h₁ : Eval.test n condition m = .ok true m₁) (h₂ : Eval.stmt n body m₁ = .ok signal m₂)
    (hsignal : signal = .next ∨ signal = .continue) (hs : W.Step m m₂)
    (hstep : ∀ e ∈ step, W.Part π (.expr e)) : W.Safe (Eval.after n step) m₂ fun _ _ => True := by
  cases step with
  | none => exact .pure hs.sound trivial
  | some e =>
    exact (ih.expr (hc.call (.step h₁ h₂ hsignal) hs) (hstep e rfl)).discard
      (R := fun _ => True) fun _ _ _ _ _ => trivial

theorem loop_safe (ih : W.SoundAt n) {condition step : Option Expr} {body : Stmt} {k : Nat}
    (hc : W.Stands ⟨n, .loop condition body step k, m⟩ π)
    (hcondition : ∀ e ∈ condition, W.Part π (.expr e))
    (hbody : W.Part π.inLoop (.stmt body)) (hstep : ∀ e ∈ step, W.Part π (.expr e)) :
    W.Safe (Eval.turns n condition body step k) m fun signal h => W.Leaves π.context h signal := by
  induction k generalizing m with
  | zero => exact .throw hc.sound
  | succ k ihk =>
    refine (test_safe ih hc hcondition).bind fun go m₁ h₁ hs₁ _ => ?_
    cases go with
    | false => exact .pure hs₁.sound trivial
    | true =>
      refine (ih.stmt (hc.call (.turn h₁) hs₁).inLoop hbody).bind fun signal m₂ h₂ hs₂ hl => ?_
      have hs := hs₁.trans hs₂
      have hgo : signal = .next ∨ signal = .continue →
          W.Safe (do Eval.after n step; Eval.turns n condition body step k) m₂
            fun signal h => W.Leaves π.context h signal := fun hsignal =>
        (after_safe ih hc h₁ h₂ hsignal hs hstep).bind fun _ m₃ h₃ hs₃ _ =>
          ihk (hc.call (.turns h₁ h₂ hsignal h₃) (hs.trans hs₃))
      cases signal with
      | next => exact hgo (.inl rfl)
      | «continue» => exact hgo (.inr rfl)
      | «break» => exact .pure hs₂.sound trivial
      | «return» v => exact .pure hs₂.sound hl.1

/-! ## Calls -/

theorem Callable.wellFormed {h : Heap} {f : Closure} (hf : W.Callable h f) :
    f.function.WellFormed := by
  obtain ⟨π, hp, -⟩ := hf
  exact hp.wellFormed

theorem isSome_find?_arguments {f : Closure} {args : List Value} (ha : f.arity = args.length)
    {name : String} : ((Eval.arguments f args).find? name).isSome ↔
      name ∈ f.function.params.map Identifier.name := by
  unfold Eval.arguments
  rw [Table.isSome_find?_ofPairs, List.map_fst_zip]
  rw [List.length_map]
  exact Nat.le_of_eq ha

/-- What a function is called with is as it should be in the frame of the call. -/
theorem holds_call (hm : W.Sound m) {f : Closure} (hf : W.Callable m.heap f) {args : List Value}
    (ha : f.arity = args.length) (hargs : ∀ v ∈ args, W.Ok m.heap v) {h : Heap}
    (hh : h = (m.heap.newFrame f.frame (Eval.arguments f args)).2) :
    h.Holds (W.Ok h) (W.Method h) := by
  have he : m.heap.Extends h := hh ▸ m.heap.extends_newFrame f.frame _
  have hlater := hm.later he
  subst hh
  refine hlater.newFrame f.frame (.ofPairs fun p hp => ?_) fun v hv => ?_
  · exact (hargs p.2 (List.of_mem_zip hp).2).mono he
  · have hmem := (isSome_find?_arguments ha).1 (Option.isSome_of_eq_some hv)
    obtain ⟨p, hp, hname⟩ := List.mem_map.1 hmem
    exact absurd hname ((Function.wellFormed_iff.1 hf.wellFormed).1 p hp).ne_super

/-- The body of a function is run where its place is, in the frame of the call. -/
theorem stands_body {f : Closure} {args : List Value}
    (hc : W.Covers ⟨n + 1, .apply f args, m⟩) (hm : W.Sound m) (hf : W.Callable m.heap f)
    (ha : f.arity = args.length) (hargs : ∀ v ∈ args, W.Ok m.heap v) :
    ∃ π, W.Stands ⟨n, .stmts f.function.body, m.enter f.frame (Eval.arguments f args)⟩ π ∧
      W.Part π (.stmts f.function.body) ∧ π.context.loops = 0 := by
  have hheap := holds_call hm hf ha hargs rfl
  obtain ⟨π, hp, hchain⟩ := hf
  refine ⟨π.inFunction (contextOf f.kind) f.function, ⟨hc.call .body, hm.enter hheap, ?_⟩,
    hp.inside .body, rfl⟩
  exact hchain.newFrame (hc.made rfl) fun name hn => (isSome_find?_arguments ha).2 hn

theorem apply_safe (ih : W.SoundAt n) {f : Closure} {args : List Value}
    (hc : W.Covers ⟨n + 1, .apply f args, m⟩) (hm : W.Sound m) (hf : W.Callable m.heap f)
    (ha : f.arity = args.length) (hargs : ∀ v ∈ args, W.Ok m.heap v) :
    W.Safe (Eval.apply (n + 1) f args) m fun v h => W.Ok h v := by
  obtain ⟨π, hbody, hp, -⟩ := stands_body hc hm hf ha hargs
  have hmake : W.Safe (Eval.make (·.newFrame f.frame (Eval.arguments f args))) m fun g h =>
      g = ⟨m.heap.frames.size⟩ ∧ h = (m.heap.newFrame f.frame (Eval.arguments f args)).2 :=
    .make hm (m.heap.extends_newFrame _ _) (holds_call hm hf ha hargs rfl) ⟨rfl, rfl⟩
  unfold Eval.apply
  refine hmake.bind fun g m₁ h₁ hs₁ _ => ?_
  cases h₁
  refine (Safe.inFrame (stmts_safe ih hbody hp)).bind fun signal m₂ _ hs₂ hl => ?_
  split
  · refine Safe.get ?_
    cases hv : m₂.heap.getAt? 0 f.frame Name.this with
    | some v => exact .pure hs₂.sound (hs₂.sound.heap.getAt? hv)
    | none => exact .fail hs₂.sound
  · cases signal with
    | «return» v => exact .pure hs₂.sound hl.2
    | _ => exact .pure hs₂.sound (.of_ne fun _ => Value.noConfusion)

/-- A getter has no parameters. -/
theorem arity_of_isGetter {h : Heap} {f : Closure} (hf : W.Callable h f)
    (hg : f.isGetter = true) : f.arity = 0 := by
  have hgetter : f.function.isGetter = true := by
    unfold Closure.isGetter at hg
    exact (Bool.and_eq_true_iff.1 hg).2
  have hparams := (Function.wellFormed_iff.1 hf.wellFormed).2.1 hgetter
  rw [Closure.arity, Function.arity, hparams, List.length_nil]

theorem access_safe (ih : W.SoundAt n) {v : Value} (hc : W.Covers ⟨n, .access v, m⟩)
    (hm : W.Sound m) (hv : W.Ok m.heap v) :
    W.Safe (Eval.access (Eval.apply n) v) m fun v h => W.Ok h v := by
  unfold Eval.access
  split
  · next f =>
    have hf := ok_function_iff.1 hv
    split
    · next hg =>
      split
      · exact .fail hm
      · split
        · next hr =>
          exact ih.apply (hc.call (.getter hg hr)) hm hf (arity_of_isGetter hf hg) (by simp)
        · exact .fail hm
    · exact .pure hm hv
  · exact .pure hm hv

theorem instantiate_safe (ih : W.SoundAt n) {c : ClassId} {args : List Value} {span : Span}
    (hc : W.Covers ⟨n, .call (.klass c) args span, m⟩) (hm : W.Sound m)
    (ha : m.heap.arity? (.klass c) = some args.length) (hargs : ∀ v ∈ args, W.Ok m.heap v) :
    W.Safe (Eval.instantiate (Eval.apply n) c args) m fun v h => W.Ok h v := by
  have hmake : W.Safe (Eval.make (·.newInstance c)) m fun _ _ => True :=
    ⟨newInstance_step hm c, trivial⟩
  unfold Eval.instantiate
  refine hmake.bind fun i m₁ h₁ hs₁ _ => Safe.get ?_
  obtain ⟨rfl, hm₁⟩ := make_eq_ok.1 h₁
  split
  · next f hf =>
    have harity : f.arity = args.length := by
      have hsame : m₁.heap.method? c Name.init = m.heap.method? c Name.init :=
        Heap.method?_of_classes_eq (by rw [hm₁]; rfl) c Name.init
      simp only [Heap.arity?, ← hsame, hf, Option.some.injEq] at ha
      exact ha
    have hbound := bind_safe (hc.call (.bindInit hm₁ hf harity)) hs₁.sound
      (hs₁.sound.heap.method? hf) (.of_ne fun _ => Value.noConfusion)
    refine hbound.bind fun g m₂ h₂ hs₂ hg => ?_
    obtain ⟨hg, hfunction⟩ := hg
    obtain ⟨rfl, rfl⟩ := make_eq_ok.1 h₂
    have hbody := ih.apply (hc.call (.applyInit hm₁ hf harity rfl)) hs₂.sound hg
      ((congrArg Function.arity hfunction).trans harity)
      fun v hv => (hargs v hv).mono (hs₁.trans hs₂).grown
    exact (hbody.discard (R := fun _ => True) fun _ _ _ _ _ => trivial).bind fun _ _ _ hs _ =>
      .pure hs.sound (.of_ne fun _ => Value.noConfusion)
  · exact .pure hs₁.sound (.of_ne fun _ => Value.noConfusion)

theorem call_safe (ih : W.SoundAt n) {callee : Value} {args : List Value} {span : Span}
    (hc : W.Covers ⟨n, .call callee args span, m⟩) (hm : W.Sound m) (hcallee : W.Ok m.heap callee)
    (hargs : ∀ v ∈ args, W.Ok m.heap v) :
    W.Safe (Eval.callValue (Eval.apply n) callee args span) m fun v h => W.Ok h v := by
  unfold Eval.callValue
  refine Safe.get ?_
  cases ha : m.heap.arity? callee with
  | none => exact .fail hm
  | some arity =>
    cases callee with
    | native f => exact Safe.guarded hm fun _ => callNative_safe hm f hargs span
    | function f =>
      refine Safe.guarded hm fun hlength => ?_
      have harity : f.arity = args.length := by
        rw [← Decidable.not_not.1 hlength]
        exact Option.some.inj ha
      exact ih.apply (hc.call (.apply harity)) hm (ok_function_iff.1 hcallee) harity hargs
    | klass c =>
      refine Safe.guarded hm fun hlength => ?_
      rw [Decidable.not_not.1 hlength] at ha
      exact instantiate_safe ih hc hm ha hargs
    | _ => cases ha

/-! ## Expressions -/

/-- What an expression does once it has its operands keeps machines sound. -/
theorem act_safe (ih : W.SoundAt n) {id : ExprId} {span : Span} {node : Expr.Node}
    {vs : List Value} (hc : W.Stands ⟨n, .act id span node vs, m⟩ π)
    (hp : W.Part π (.expr ⟨id, span, node⟩)) (hvs : ∀ v ∈ vs, W.Ok m.heap v) :
    W.Safe (Eval.act n id span node vs) m fun v h => W.Ok h v := by
  have hm : W.Sound m := hc.sound
  unfold Eval.act
  split
  · next l => exact .pure hm (ok_ofLiteral l)
  · next v => exact .pure hm (hvs v (by simp))
  · exact .located hm fun _ => ok_of_binary
  · exact .located hm fun _ => ok_of_unary
  · exact lookup_safe hm _ _ _
  · next name value v =>
    have hname : name.Plain := hp.wellFormed.1
    have hv := hvs v (by simp)
    exact (assign_safe hm id hname hv).bind fun _ _ _ hs _ => .pure hs.sound (hv.mono hs.grown)
  · next f args =>
    obtain ⟨hf, hargs⟩ := List.forall_mem_cons.1 hvs
    exact call_safe ih (hc.covers.call .call) hm hf hargs
  · next name target =>
    refine (property_safe (n := n) (fun i f ht hf => ?_) hm).bind fun v m₁ h₁ hs₁ hv => ?_
    · subst ht
      exact hc.covers.call (.bindMember hf)
    · exact access_safe ih (hc.covers.call (.access h₁)) hs₁.sound hv
  · next name _ target v =>
    have hv := hvs v (by simp)
    exact (setProperty_safe hm target name hv).bind fun _ _ _ hs _ =>
      .pure hs.sound (hv.mono hs.grown)
  · exact (newArray_safe hm hvs).bind fun _ _ _ hs _ =>
      .pure hs.sound (.of_ne fun _ => Value.noConfusion)
  · exact element_safe hm _ _ _
  · next a i v =>
    have hv := hvs v (by simp)
    exact (setElement_safe hm a i hv span).bind fun _ _ _ hs _ => .pure hs.sound (hv.mono hs.grown)
  · next f =>
    exact (closure_safe hm (hp.inside .lambda) hc.chain).bind fun _ _ _ hs hg =>
      .pure hs.sound (ok_function_iff.2 hg)
  · exact lookup_safe hm _ _ _
  · next name =>
    refine (superProperty_safe (n := n) (fun hops c receiver f hd hv hr hf => ?_) hm).bind
      fun v m₁ h₁ hs₁ hv => ?_
    · exact hc.covers.call (.bindSuper hd hv hr hf)
    · exact access_safe ih (hc.covers.call (.accessSuper h₁)) hs₁.sound hv
  · exact .throw hm

theorem expr_safe (ih : W.SoundAt n) {e : Expr} (hc : W.Stands ⟨n + 1, .expr e, m⟩ π)
    (hp : W.Part π (.expr e)) : W.Safe (Eval.expr (n + 1) e) m fun v h => W.Ok h v := by
  obtain ⟨id, span, node⟩ := e
  by_cases hstrict : node.isStrict = true
  case pos =>
    rw [Eval.expr_of_isStrict n id span hstrict]
    refine (exprs_safe ih (hc.call (.operands hstrict) hc.refl) fun e he =>
      hp.inside (.operand he)).bind fun vs m₁ h₁ hs₁ hvs => ?_
    exact act_safe ih (hc.call (.act hstrict h₁) hs₁) hp hvs
  case neg =>
    cases node with
    | logical op left right =>
      have hleft := hp.inside (.operand (e := left) (by simp [Expr.Node.operands]))
      have hright := hp.inside (.operand (e := right) (by simp [Expr.Node.operands]))
      refine (ih.expr (hc.call .logicalLeft hc.refl) hleft).bind fun v m₁ h₁ hs₁ hv => ?_
      split
      · exact .pure hs₁.sound hv
      · next hd =>
        exact ih.expr (hc.call (.logicalRight h₁ (Bool.eq_false_iff.2 hd)) hs₁) hright
    | ternary condition yes no =>
      have hcondition := hp.inside (.operand (e := condition) (by simp [Expr.Node.operands]))
      have hyes := hp.inside (.operand (e := yes) (by simp [Expr.Node.operands]))
      have hno := hp.inside (.operand (e := no) (by simp [Expr.Node.operands]))
      refine (ih.expr (hc.call .ternaryCondition hc.refl) hcondition).bind fun v m₁ h₁ hs₁ _ => ?_
      split
      · next ht => exact ih.expr (hc.call (.ternaryYes h₁ ht) hs₁) hyes
      · next ht => exact ih.expr (hc.call (.ternaryNo h₁ (Bool.eq_false_iff.2 ht)) hs₁) hno
    | _ => exact absurd rfl hstrict

/-! ## Statements -/

/-- What a statement is left by, and what it leaves behind for the next one. -/
def Passes (W : World) (π : Lexical.Place) (s : Stmt) (frame : FrameId) (signal : Signal) (h : Heap) :
    Prop :=
  W.Leaves π.context h signal ∧ (signal = .next → W.Chain h (π.after s).openings frame)

/-- A new frame is that of the scope that the statement opens. -/
theorem Stands.scope {s : Stmt} (hc : W.Stands ⟨n + 1, .stmt s, m⟩ π)
    (ho : Config.opening? ⟨n + 1, .stmt s, m⟩ = some (.stmt s, m.frame)) :
    W.Sound (m.enter m.frame ∅) ∧ W.Chain (m.enter m.frame ∅).heap (π.enter (.stmt s) []).openings
      (m.enter m.frame ∅).frame := by
  have he := m.heap.extends_newFrame m.frame ∅
  refine ⟨hc.sound.enter ?_, hc.chain.newFrame (hc.covers.made ho) (by simp)⟩
  exact (hc.sound.later he).newFrame m.frame .empty fun v hv => by cases hv

theorem Stands.enter {s : Stmt} {task : Task} (hc : W.Stands ⟨n + 1, .stmt s, m⟩ π)
    (hcall : Calls ⟨n + 1, .stmt s, m⟩ ⟨n, task, m.enter m.frame ∅⟩)
    (ho : Config.opening? ⟨n + 1, .stmt s, m⟩ = some (.stmt s, m.frame)) :
    W.Stands ⟨n, task, m.enter m.frame ∅⟩ (π.enter (.stmt s) []) :=
  hc.callAt hcall (hc.scope ho).1 (hc.scope ho).2

theorem inNewFrame_safe {α : Type} {x : Eval α} {Q : α → Heap → Prop} (hm : W.Sound m)
    (hx : W.Safe x (m.enter m.frame ∅) Q) : W.Safe (Eval.inNewFrame x) m Q := by
  have he := m.heap.extends_newFrame m.frame ∅
  have hmake : W.Safe (Eval.make (·.newFrame m.frame ∅)) m fun _ _ => True :=
    .make hm he ((hm.later he).newFrame m.frame .empty fun v hv => by cases hv) trivial
  unfold Eval.inNewFrame
  refine Safe.get (hmake.bind fun g m₁ h₁ _ _ => ?_)
  obtain ⟨rfl, rfl⟩ := make_eq_ok.1 h₁
  exact Safe.inFrame hx

/-- In the initializer of a variable, its declaration is under way. -/
theorem Stands.initializer {span : Span} {name : Identifier} {e : Expr}
    (hc : W.Stands ⟨n + 1, .stmt ⟨span, .varDecl name (some e)⟩, m⟩ π) :
    (W.run ⟨n + 1, .stmt ⟨span, .varDecl name (some e)⟩, m⟩).Stands ⟨n, .expr e, m⟩
      (π.initializing name.name) := by
  have hl := Later.run (W := W) (h := m.heap) ⟨n + 1, .stmt ⟨span, .varDecl name (some e)⟩, m⟩
  exact ⟨hc.covers.call .initializer, hl.sound hc.sound fun _ => id,
    (hl.chain hc.chain).initializing
      ⟨_, hc.covers.visited, ⟨span, name, e, rfl, rfl, rfl⟩, .refl _, .inl (.inl rfl)⟩⟩

/-- The variable is there when its declaration ends well. -/
theorem varDecl_some_safe (ih : ∀ W : World, W.SoundAt n) {span : Span} {name : Identifier}
    {e : Expr} (hc : W.Stands ⟨n + 1, .stmt ⟨span, .varDecl name (some e)⟩, m⟩ π)
    (hp : W.Part π (.stmt ⟨span, .varDecl name (some e)⟩)) :
    W.Safe (Eval.stmt (n + 1) ⟨span, .varDecl name (some e)⟩) m
      (W.Passes π ⟨span, .varDecl name (some e)⟩ m.frame) := by
  have hwf : Stmt.WellFormed ⟨span, .varDecl name (some e)⟩ := hp.wellFormed
  have hname := (Stmt.wellFormed_varDecl.1 hwf).1
  have hinit := (ih (W.run _)).expr hc.initializer (hp.inside .initializer)
  show W.Safe (Eval.expr n e >>= fun v => do Eval.define name.name v; return Signal.next) m _
  unfold Safe
  cases hrun : Eval.expr n e m with
  | error stop m₁ =>
    have hs := hinit.of_error hrun
    have hfails : Config.Fails ⟨n + 1, .stmt ⟨span, .varDecl name (some e)⟩, m⟩ :=
      ⟨_, stop, m₁, rfl, EStateM.bind_of_error hrun _⟩
    rw [EStateM.bind_of_error hrun]
    have hl := Later.ended (W := W) (h := m₁.heap) (.inl hfails)
    exact ⟨hs.grown, hs.frame, hs.distances, hl.sound hs.sound fun _ => id⟩
  | ok v m₁ =>
    obtain ⟨hs₁, hv⟩ := hinit.of_ok hrun
    rw [EStateM.bind_of_ok hrun]
    show W.Step m { m₁ with heap := m₁.heap.define m₁.frame name.name v } ∧ _
    have he := m₁.heap.extends_define m₁.frame name.name v
    have hs := hs₁.trans (define_step hs₁.sound m₁.frame hname (hv.mono he))
    have hbound : ∀ x g, Config.Begins ⟨n + 1, .stmt ⟨span, .varDecl name (some e)⟩, m⟩ x g →
        ((m₁.heap.define m₁.frame name.name v).getIn? g x).isSome := by
      rintro x g ⟨_, _, _, ⟨⟩, rfl, rfl⟩
      have hlt := Nat.lt_of_lt_of_le hc.index_lt hs₁.grown.size
      rw [hs₁.frame, Heap.getIn?_define, if_pos ⟨rfl, rfl, hlt⟩]
      rfl
    have hl := Later.ended (W := W) (.inr hbound)
    refine ⟨⟨hs.grown, hs.frame, hs.distances, hl.sound hs.sound fun _ => id⟩, trivial,
      fun _ => ?_⟩
    have hchain := (hc.chain.mono hs₁.grown).define name.name v
    rw [← hs₁.frame] at hchain ⊢
    exact hchain

theorem varDecl_none_safe {span : Span} {name : Identifier}
    (hc : W.Stands ⟨n + 1, .stmt ⟨span, .varDecl name none⟩, m⟩ π)
    (hp : W.Part π (.stmt ⟨span, .varDecl name none⟩)) :
    W.Safe (Eval.stmt (n + 1) ⟨span, .varDecl name none⟩) m
      (W.Passes π ⟨span, .varDecl name none⟩ m.frame) := by
  have hwf : Stmt.WellFormed ⟨span, .varDecl name none⟩ := hp.wellFormed
  have hnil : W.Ok m.heap .nil := .of_ne fun _ => Value.noConfusion
  refine (define_safe hc.sound (Stmt.wellFormed_varDecl.1 hwf).1 hnil).bind
    fun _ m₁ _ hs₁ hh => .pure hs₁.sound ⟨trivial, fun _ => ?_⟩
  rw [hh]
  exact hc.chain.define name.name .nil

/-- The first clause of a `for` is never left by a signal. -/
theorem signal_of_isClause {s : Stmt} (hs : s.isClause = true) {n : Nat} {m m' : Machine}
    {signal : Signal} (h : Eval.stmt n s m = .ok signal m') : signal = .next := by
  obtain ⟨span, node⟩ := s
  cases n with
  | zero => cases h
  | succ n =>
    cases node with
    | expression e =>
      obtain ⟨_, _, -, h⟩ := EStateM.bind_eq_ok.1 h
      cases h
      rfl
    | varDecl name init =>
      cases init with
      | none =>
        obtain ⟨_, _, -, h⟩ := EStateM.bind_eq_ok.1 h
        cases h
        rfl
      | some e =>
        obtain ⟨_, _, -, h⟩ := EStateM.bind_eq_ok.1 h
        obtain ⟨_, _, -, h⟩ := EStateM.bind_eq_ok.1 h
        cases h
        rfl
    | _ => cases hs

theorem firstClause_safe (ih : W.SoundAt n) {span : Span} {init : Option Stmt}
    {condition step : Option Expr} {body : Stmt}
    (hc : W.Stands ⟨n + 1, .stmt ⟨span, .for init condition step body⟩, m⟩ π)
    (hp : W.Part π (.stmt ⟨span, .for init condition step body⟩)) :
    W.Safe (Eval.firstClause n init) (m.enter m.frame ∅) fun _ h =>
      W.Chain h ((π.enter (.stmt ⟨span, .for init condition step body⟩) []).afterClause
        init).openings (m.enter m.frame ∅).frame := by
  cases init with
  | none =>
    obtain ⟨hm, hchain⟩ := hc.scope rfl
    exact .pure hm hchain
  | some s =>
    have hwf : Stmt.WellFormed ⟨span, .for (some s) condition step body⟩ := hp.wellFormed
    have hclause := ((Stmt.wellFormed_for.1 hwf).1 s rfl).1
    refine (ih.stmt (hc.enter .forInit rfl) (hp.inside .forInit)).discard
      fun signal m₁ h₁ _ ⟨_, hnext⟩ => hnext (signal_of_isClause hclause h₁)

theorem for_safe (ih : W.SoundAt n) {span : Span} {init : Option Stmt}
    {condition step : Option Expr} {body : Stmt}
    (hc : W.Stands ⟨n + 1, .stmt ⟨span, .for init condition step body⟩, m⟩ π)
    (hp : W.Part π (.stmt ⟨span, .for init condition step body⟩)) :
    W.Safe (Eval.stmt (n + 1) ⟨span, .for init condition step body⟩) m fun signal h =>
      W.Passes π ⟨span, .for init condition step body⟩ m.frame signal h := by
  rw [Eval.stmt_for]
  refine Safe.mono (Q := fun signal h => W.Leaves π.context h signal) ?_
    fun signal m' _ hs hl => ⟨hl, fun _ => hc.chain.mono hs.grown⟩
  refine inNewFrame_safe hc.sound ((firstClause_safe ih hc hp).bind fun _ m₁ h₁ hs₁ hchain => ?_)
  have hloop : W.Stands ⟨n, .loop condition body step n, m₁⟩
      ((π.enter (.stmt ⟨span, .for init condition step body⟩) []).afterClause init) :=
    hc.callAt (.for h₁) hs₁.sound (hs₁.frame ▸ hchain)
  have hsafe := loop_safe ih hloop (fun e he => by cases he; exact hp.inside .forCondition)
    (hp.inside .forBody) (fun e he => by cases he; exact hp.inside .forStep)
  rwa [Lexical.Place.context_afterClause] at hsafe

theorem class_safe {span : Span} {name : Identifier} {superclass : Option Reference}
    {traits : List Reference} {methods statics : List Function}
    (hc : W.Stands ⟨n + 1, .stmt ⟨span, .classDecl name superclass traits methods statics⟩, m⟩ π)
    (hp : W.Part π (.stmt ⟨span, .classDecl name superclass traits methods statics⟩)) :
    W.Safe (Eval.declareClass name superclass traits methods statics) m fun _ h =>
      W.Chain h (π.declare name.name).openings m.frame := by
  have hname : name.Plain := hp.wellFormed.1
  rw [Eval.declareClass_eq]
  refine (classHeader_safe hc.sound hname superclass traits hc.chain).bind
    fun found m₁ h₁ hs₁ ⟨hfound, hchain⟩ => ?_
  rw [← hs₁.frame] at hchain
  have hmade : superclass.isSome → W.Made m₁.heap
      (.stmt ⟨span, .classDecl name superclass traits methods statics⟩) ⟨m₁.heap.frames.size⟩
      m₁.frame := by
    cases superclass with
    | none => exact fun h => by cases h
    | some r => exact fun _ => (hc.covers.call (.members h₁)).made rfl
  refine (classFrame_safe hs₁.sound hfound hchain hmade).bind fun g m₂ _ hs₂ hframe => ?_
  have hmembers := classMembers_safe hs₂.sound hname found.1 found.2
    (fun f hf => hp.inside (.method hf)) (fun f hf => hp.inside (.static hf)) hframe
  refine hmembers.mono fun _ m₃ _ hs₃ _ => ?_
  rw [← hs₁.frame]
  exact hchain.mono (hs₂.trans hs₃).grown

theorem Part.loops_ne_zero {span : Span} {node : Stmt.Node} (hp : W.Part π (.stmt ⟨span, node⟩))
    (hnode : node = .break ∨ node = .continue) : π.context.loops ≠ 0 := by
  obtain ⟨body, hb, ho⟩ := hp
  obtain ⟨hwf, r, hr⟩ := W.accepted body hb
  exact ho.loops_ne_zero hnode hwf hr

theorem Part.function_ne_none {span : Span} {value : Option Expr}
    (hp : W.Part π (.stmt ⟨span, .return value⟩)) : π.context.function ≠ .none := by
  obtain ⟨body, hb, ho⟩ := hp
  obtain ⟨hwf, r, hr⟩ := W.accepted body hb
  exact ho.function_ne_none hwf hr

/-- Statements keep machines sound, and leave what they declare for the next ones. -/
theorem stmt_safe (ih : ∀ W : World, W.SoundAt n) {s : Stmt} (hc : W.Stands ⟨n + 1, .stmt s, m⟩ π)
    (hp : W.Part π (.stmt s)) :
    W.Safe (Eval.stmt (n + 1) s) m (W.Passes π s m.frame) := by
  obtain ⟨span, node⟩ := s
  cases node with
  | expression e =>
    have he := ((ih W).expr (hc.call .expression hc.refl) (hp.inside .expression)).discard
      (R := fun _ => True) fun _ _ _ _ _ => trivial
    exact he.bind fun _ _ _ hs _ => .pure hs.sound ⟨trivial, fun _ => hc.chain.mono hs.grown⟩
  | print e =>
    refine ((ih W).expr (hc.call .print hc.refl) (hp.inside .print)).bind fun v m₁ _ hs₁ _ => ?_
    refine Safe.get ((printLine_safe hs₁.sound _ _).bind fun _ m₂ _ hs₂ _ => ?_)
    exact .pure hs₂.sound ⟨trivial, fun _ => hc.chain.mono (hs₁.trans hs₂).grown⟩
  | varDecl name init =>
    cases init with
    | none => exact varDecl_none_safe hc hp
    | some e => exact varDecl_some_safe ih hc hp
  | block body =>
    have hbody := stmts_safe (ih W) (hc.enter .block rfl) (hp.inside .block)
    exact (inNewFrame_safe hc.sound hbody).mono fun _ _ _ hs hl =>
      ⟨hl, fun _ => hc.chain.mono hs.grown⟩
  | ifElse condition yes no =>
    refine ((ih W).expr (hc.call .ifCondition hc.refl) (hp.inside .ifCondition)).bind
      fun v m₁ h₁ hs₁ _ => ?_
    have hstays : ∀ {m' : Machine}, W.Step m₁ m' → W.Chain m'.heap π.openings m.frame :=
      fun hs => hc.chain.mono (hs₁.trans hs).grown
    split
    · next ht =>
      exact ((ih W).stmt (hc.call (.ifYes h₁ ht) hs₁) (hp.inside .ifYes)).mono
        fun _ _ _ hs hl => ⟨hl.1, fun _ => hstays hs⟩
    · next ht =>
      cases no with
      | none => exact .pure hs₁.sound ⟨trivial, fun _ => hstays (.refl hs₁.sound)⟩
      | some s =>
        have hno := hc.call (.ifNo h₁ (Bool.eq_false_iff.2 ht)) hs₁
        exact ((ih W).stmt hno (hp.inside .ifNo)).mono fun _ _ _ hs hl => ⟨hl.1, fun _ => hstays hs⟩
  | «while» condition body =>
    rw [Eval.stmt_while]
    have hloop := loop_safe (ih W) (hc.call .while hc.refl)
      (fun e he => by cases he; exact hp.inside .whileCondition) (hp.inside .whileBody)
      (fun e he => by cases he)
    exact hloop.mono fun _ _ _ hs hl => ⟨hl, fun _ => hc.chain.mono hs.grown⟩
  | «for» init condition step body => exact for_safe (ih W) hc hp
  | «break» => exact .pure hc.sound ⟨hp.loops_ne_zero (.inl rfl), nofun⟩
  | «continue» => exact .pure hc.sound ⟨hp.loops_ne_zero (.inr rfl), nofun⟩
  | funDecl f =>
    have hname : f.name.Plain := hp.wellFormed.1
    have hdefine := defineFunction_safe hc.sound hname (hp.inside .funDecl) hc.chain
    exact hdefine.bind fun _ _ _ hs hchain => .pure hs.sound ⟨trivial, fun _ => hchain⟩
  | «return» value =>
    have hreturn := hp.function_ne_none
    cases value with
    | none => exact .pure hc.sound ⟨⟨hreturn, .of_ne fun _ => Value.noConfusion⟩, nofun⟩
    | some e =>
      exact ((ih W).expr (hc.call .returnValue hc.refl) (hp.inside .returnValue)).bind
        fun v _ _ hs hv => .pure hs.sound ⟨⟨hreturn, hv⟩, nofun⟩
  | classDecl name superclass traits methods statics =>
    exact (class_safe hc hp).bind fun _ _ _ hs hchain =>
      .pure hs.sound ⟨trivial, fun _ => hchain⟩
  | traitDecl name methods statics =>
    have hname : name.Plain := hp.wellFormed.1
    have htrait := declareTrait_safe hc.sound hname (fun f hf => hp.inside (.traitMethod hf))
      (fun f hf => hp.inside (.traitStatic hf)) hc.chain
    exact htrait.bind fun _ _ _ hs hchain => .pure hs.sound ⟨trivial, fun _ => hchain⟩

/-- Whatever the fuel, running a part of an accepted program keeps the machine sound. -/
theorem soundAt (W : World) (n : Nat) : W.SoundAt n := by
  induction n generalizing W with
  | zero =>
    exact ⟨fun hc _ => .throw hc.sound, fun hc _ => .throw hc.sound, fun _ hm _ _ _ => .throw hm⟩
  | succ n ih => exact ⟨expr_safe (ih W), stmt_safe ih, apply_safe (ih W)⟩

end Lox.Run.World

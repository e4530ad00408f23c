import Lox.Proofs.Run.Frame
import Lox.Proofs.Run.Limit

/-!
# Where output comes to its end

What a run prints goes past the end of the room in one of its tasks, in one of the tasks that this
is made of, and so on.  As no task is made of others without end, a print statement is found at
last, the line of which is the first that does not fit:

    Leads total x m y m'                 where `x` goes past the end, `y` does
    Calls (c.limited total) d            until then the tasks are the same    (Calls.of_limited)

Its error is what all that is under way ends in.
-/

namespace Lox

open Run

namespace Eval

variable {α β γ : Type} {total : Nat}

/-! ## Leading past the end -/

/-- The output goes past the end in `x`, and it does so in `y`, the error of which `x` ends in. -/
structure Leads (total : Nat) (x : Eval α) (m : Machine) (y : Eval β) (m' : Machine) : Prop where
  passes : Passes total y m'
  stops : ∀ {stop : Stop} {m'' : Machine}, y (m'.limited total) = .error stop m'' →
    ∃ frame, x (m.limited total) = .error stop { m'' with frame := frame }

theorem Passes.leads {x : Eval α} {m : Machine} (h : Passes total x m) : Leads total x m x m :=
  ⟨h, fun {_ m''} hstop => ⟨m''.frame, hstop⟩⟩

theorem Leads.trans {x : Eval α} {y : Eval β} {z : Eval γ} {m m' m'' : Machine}
    (h : Leads total x m y m') (h' : Leads total y m' z m'') : Leads total x m z m'' where
  passes := h'.passes
  stops hstop := by
    obtain ⟨_, hstop'⟩ := h'.stops hstop
    obtain ⟨frame, hstop''⟩ := h.stops hstop'
    exact ⟨frame, hstop''⟩

theorem Leads.discard {x : Eval α} {y : Eval β} {m m' : Machine} (h : Leads total x m y m') :
    Leads total x m (discard y) m' := by
  refine ⟨⟨h.passes.room, h.passes.fits, ?_⟩, fun {stop m''} hstop => h.stops ?_⟩
  · have hpasses := h.passes.passes
    show total < (machineOf (EStateM.map _ y m')).printed
    unfold EStateM.map
    cases hy : y m' <;> rwa [hy] at hpasses
  · have hstop : EStateM.map _ y (m'.limited total) = .error stop m'' := hstop
    unfold EStateM.map at hstop
    cases hy : y (m'.limited total) with
    | ok b m₁ => rw [hy] at hstop; cases hstop
    | error stop₁ m₁ => rw [hy] at hstop; cases hstop; rfl

/-- What is run is silent, or what comes behind it is not looked at. -/
def Silent (total : Nat) (x : Eval α) : Prop :=
  Follows total x ∧ Keeps (fun m m' => m'.output = m.output) x

theorem stable_output : Stable fun m m' => m'.output = m.output where
  refl _ := rfl
  trans h h' := h'.trans h
  heap _ _ := rfl
  tick _ := rfl
  inFrame _ h := h

theorem closed_silent (total : Nat) : Closed fun _ x => Silent total x :=
  (closed_follows total).and (closed_keeps stable_output)

theorem Silent.not_passes {x : Eval α} (hx : Silent total x) (m : Machine) :
    ¬ Passes total x m :=
  Eval.not_passes (hx.2 m)

namespace Passes

variable {x : Eval α} {m : Machine}

theorem bind {f : α → Eval β} (hx : Follows total x) (h : Passes total (x >>= f) m) :
    Leads total (x >>= f) m x m ∨
      ∃ a m', x m = .ok a m' ∧ Leads total (x >>= f) m (f a) m' := by
  obtain ⟨hroom, hfit, hpasses⟩ := h
  have hfirst (h : total < (machineOf (x m)).printed) : Leads total (x >>= f) m x m :=
    ⟨⟨hroom, hfit, h⟩, fun {_ m''} hstop => ⟨m''.frame, EStateM.bind_of_error hstop f⟩⟩
  have hgrows := hx.grows m
  have hsame := hx.same hroom
  cases hxm : x m with
  | ok a m' =>
    rw [hxm] at hfirst hgrows hsame
    rw [EStateM.bind_of_ok hxm] at hpasses
    by_cases hfit' : m'.printed ≤ total
    · refine .inr ⟨a, m', rfl, ⟨(hgrows hroom).1, hfit', hpasses⟩, fun {_ m''} hstop => ?_⟩
      rw [EStateM.bind_of_ok (hsame hfit')]
      exact ⟨m''.frame, hstop⟩
    · exact .inl (hfirst (Nat.lt_of_not_le hfit'))
  | error stop m' =>
    rw [hxm] at hfirst
    rw [EStateM.bind_of_error hxm] at hpasses
    exact .inl (hfirst hpasses)

/-- Behind something silent. -/
theorem behind {f : α → Eval β} (hx : Silent total x) (h : Passes total (x >>= f) m) :
    ∃ a m', x m = .ok a m' ∧ Leads total (x >>= f) m (f a) m' :=
  (h.bind hx.1).resolve_left fun hl => hx.not_passes m hl.passes

/-- Something silent is behind it. -/
theorem before {f : α → Eval β} (hx : Follows total x) (hf : ∀ a, Silent total (f a))
    (h : Passes total (x >>= f) m) : Leads total (x >>= f) m x m := by
  obtain h | ⟨a, m', -, h⟩ := h.bind hx
  · exact h
  · exact absurd h.passes ((hf a).not_passes m')

theorem map {f : α → β} (hx : Follows total x) (h : Passes total (f <$> x) m) :
    Leads total (f <$> x) m x m := by
  rw [map_eq_pure_bind] at h ⊢
  exact h.before hx fun a => (closed_silent total).pure (f a)

theorem read {f : Machine → Eval α} (hf : Reads f) (h : Passes total (get >>= f) m) :
    Leads total (get >>= f) m (f m) m := by
  refine ⟨⟨h.room, h.fits, h.passes⟩, fun {_ m''} hstop => ⟨m''.frame, ?_⟩⟩
  have heq : f (m.limited total) = f m := hf m _ m.time
  rw [EStateM.get_bind_apply, heq]
  exact hstop

theorem inFrame {frame : FrameId} (h : Passes total (inFrame frame x) m) :
    Leads total (Eval.inFrame frame x) m x { m with frame := frame } := by
  obtain ⟨hroom, hfit, hpasses⟩ := h
  rw [inFrame_apply, machineOf_mapMachine] at hpasses
  refine ⟨⟨hroom, hfit, hpasses⟩, fun {_ m''} hstop => ⟨m.frame, ?_⟩⟩
  have hstop : x { m.limited total with frame := frame } = _ := hstop
  rw [inFrame_apply, hstop]
  rfl

theorem inNewFrame (h : Passes total (inNewFrame x) m) :
    Leads total (Eval.inNewFrame x) m x (m.enter m.frame ∅) := by
  have hread := h.read fun _ _ _ => rfl
  obtain ⟨frame, m', hmake, hin⟩ := hread.passes.behind ((closed_silent total).make _)
  cases hmake
  exact hread.trans (hin.trans hin.passes.inFrame)

end Passes

end Eval

namespace Run

open Eval

/-! ## From a task to its parts -/

/-- The output goes past the end in one of the tasks that a task is made of. -/
def Descends (total : Nat) {α : Type} (x : Eval α) (m : Machine) (c : Config) : Prop :=
  ∃ d, Calls c d ∧ Leads total x m d.eval d.machine

section

variable {α β : Type} {total n : Nat} {m : Machine}

theorem Descends.of_leads {x : Eval α} {y : Eval β} {m' : Machine} {c : Config}
    (h : Leads total x m y m') (hd : Descends total y m' c) : Descends total x m c := by
  obtain ⟨d, hcall, hd⟩ := hd
  exact ⟨d, hcall, h.trans hd⟩

theorem not_passes_pure (a : α) : ¬ Passes total (pure a : Eval α) m :=
  ((closed_silent total).pure a).not_passes m

theorem descends_program {ss : List Stmt} (h : Passes total (program n ss) m) :
    Descends total (program n ss) m ⟨n, .program ss, m⟩ := by
  cases ss with
  | nil => exact absurd h (not_passes_pure ())
  | cons s ss =>
    have hfirst := (closed_follows total).discard ((followsAt total n).stmt s)
    obtain h | ⟨⟨⟩, m', hs, h⟩ := h.bind hfirst
    · exact ⟨_, .programFirst, h⟩
    · obtain ⟨signal, hs, -⟩ := EStateM.map_eq_ok.1 hs
      exact ⟨_, .programRest hs, h⟩

theorem descends_stmts {ss : List Stmt} (h : Passes total (stmts (stmt n) ss) m) :
    Descends total (stmts (stmt n) ss) m ⟨n, .stmts ss, m⟩ := by
  cases ss with
  | nil => exact absurd h (not_passes_pure Signal.next)
  | cons s ss =>
    obtain h | ⟨signal, m', hs, h⟩ := h.bind ((followsAt total n).stmt s)
    · exact ⟨_, .stmtsFirst, h.discard⟩
    · cases signal with
      | next => exact ⟨_, .stmtsRest hs, h.discard⟩
      | _ => exact absurd h.passes (not_passes_pure _)

theorem descends_exprs {es : List Expr} (h : Passes total (exprs (expr n) es) m) :
    Descends total (exprs (expr n) es) m ⟨n, .exprs es, m⟩ := by
  cases es with
  | nil => exact absurd h (not_passes_pure [])
  | cons e es =>
    obtain h | ⟨v, m', hv, h⟩ := h.bind ((followsAt total n).expr e)
    · exact ⟨_, .exprsFirst, h.discard⟩
    · have hrest := h.passes.before ((closed_follows total).exprs (followsAt total n).expr es)
        fun vs => (closed_silent total).pure (v :: vs)
      exact ⟨_, .exprsRest hv, (h.trans hrest).discard⟩

/-- Where a loop goes past the end, its condition, its body or its step does, in some turn. -/
theorem descends_loop {condition : Option Expr} {body : Stmt} {step : Option Expr} {k : Nat}
    (h : Passes total (turns n condition body step k) m) :
    Descends total (turns n condition body step k) m ⟨n, .loop condition body step k, m⟩ := by
  have hat := followsAt total n
  have hclosed := closed_follows total
  cases k with
  | zero => exact absurd h ((closed_silent total).outOfFuel.not_passes m)
  | succ k =>
    obtain h | ⟨goesOn, m₁, htest, h⟩ := h.bind (hat.test hclosed condition)
    · cases condition with
      | none => exact absurd h.passes (not_passes_pure true)
      | some e =>
        have htested := h.passes.before (hat.expr e) fun v => (closed_silent total).pure v.isTruthy
        exact ⟨_, .condition, (h.trans htested).discard⟩
    cases goesOn with
    | false => exact absurd h.passes (not_passes_pure Signal.next)
    | true =>
      obtain h' | ⟨signal, m₂, hturn, h'⟩ := h.passes.bind (hat.stmt body)
      · exact ⟨_, .turn htest, (h.trans h').discard⟩
      have hbehind (hsignal : signal = .next ∨ signal = .continue)
          (h₂ : Passes total (after n step >>= fun _ => turns n condition body step k) m₂)
          (hl : Leads total (turns n condition body step (k + 1)) m
            (after n step >>= fun _ => turns n condition body step k) m₂) :
          Descends total (turns n condition body step (k + 1)) m
            ⟨n, .loop condition body step (k + 1), m⟩ := by
        obtain h₃ | ⟨⟨⟩, m₃, hafter, h₃⟩ := h₂.bind (hat.after hclosed step)
        · cases step with
          | none => exact absurd h₃.passes (not_passes_pure ())
          | some e => exact ⟨_, .step htest hturn hsignal, hl.trans h₃⟩
        · exact ⟨_, .turns htest hturn hsignal hafter, (hl.trans h₃).discard⟩
      cases signal with
      | next => exact hbehind (.inl rfl) h'.passes (h.trans h')
      | «continue» => exact hbehind (.inr rfl) h'.passes (h.trans h')
      | _ => exact absurd h'.passes (not_passes_pure _)

theorem descends_access {v : Value} (h : Passes total (access (apply n) v) m) :
    Descends total (access (apply n) v) m ⟨n, .access v, m⟩ := by
  have hsilent := closed_silent total
  cases v with
  | function f =>
    have hnot := hsilent.pure (Value.function f) |>.not_passes m
    unfold access at h ⊢
    dsimp only at h ⊢
    by_cases hgetter : f.isGetter = true
    · rw [if_pos hgetter] at h ⊢
      by_cases hempty : f.function.body.isEmpty = true
      · rw [if_pos hempty] at h
        exact absurd h ((hsilent.fail _ _).not_passes m)
      rw [if_neg hempty] at h ⊢
      by_cases hreturns : f.function.returnsDirectly = true
      · rw [if_pos hreturns] at h ⊢
        exact ⟨_, .getter hgetter hreturns, h.leads.discard⟩
      · rw [if_neg hreturns] at h
        exact absurd h ((hsilent.fail _ _).not_passes m)
    · rw [if_neg hgetter] at h
      exact absurd h hnot
  | _ => exact absurd h (not_passes_pure _)

theorem descends_instantiate {c : ClassId} {args : List Value} {span : Span}
    (h : Passes total (instantiate (apply n) c args) m)
    (ha : m.heap.arity? (.klass c) = some args.length) :
    Descends total (instantiate (apply n) c args) m ⟨n, .call (.klass c) args span, m⟩ := by
  have hsilent := closed_silent total
  obtain ⟨i, m₁, hmake, h⟩ := h.behind (hsilent.make _)
  obtain ⟨rfl, hm₁⟩ := World.make_eq_ok.1 hmake
  replace h := h.trans (h.passes.read fun _ _ _ => rfl)
  cases hf : m₁.heap.method? c Name.init with
  | none =>
    have hnot := h.passes
    rw [hf] at hnot
    exact absurd hnot (not_passes_pure _)
  | some f =>
    have harity : f.arity = args.length := by
      have hsame : m₁.heap.method? c Name.init = m.heap.method? c Name.init :=
        Heap.method?_of_classes_eq (by rw [hm₁]; rfl) c Name.init
      simp only [Heap.arity?, ← hsame, hf, Option.some.injEq] at ha
      exact ha
    rw [hf] at h
    obtain ⟨g, m₂, hbind, h₂⟩ := h.passes.behind (hsilent.make _)
    obtain ⟨rfl, rfl⟩ := World.make_eq_ok.1 hbind
    have happly := h₂.passes.before
      ((closed_follows total).discard ((followsAt total n).apply _ args)) fun _ => hsilent.pure _
    exact ⟨_, .applyInit hm₁ hf harity rfl, (h.trans h₂).trans happly⟩

theorem descends_call {callee : Value} {args : List Value} {span : Span}
    (h : Passes total (call n callee args span) m) :
    Descends total (call n callee args span) m ⟨n, .call callee args span, m⟩ := by
  have hsilent := closed_silent total
  have hread : Leads total (call n callee args span) m _ m := h.read fun _ _ _ => rfl
  refine .of_leads hread ?_
  replace h := hread.passes
  cases ha : m.heap.arity? callee with
  | none =>
    rw [ha] at h
    exact absurd h ((hsilent.fail span .notCallable).not_passes m)
  | some arity =>
    rw [ha] at h
    dsimp only at h ⊢
    by_cases hlength : arity = args.length
    · subst hlength
      rw [if_neg (not_not.2 rfl)] at h ⊢
      cases callee with
      | native f => exact absurd h ((hsilent.callNative f args span).not_passes m)
      | function f =>
        have harity : f.arity = args.length := Option.some.inj ha
        exact ⟨_, .apply harity, h.leads.discard⟩
      | klass c => exact descends_instantiate h ha
      | _ => cases ha
    · rw [if_pos hlength] at h
      obtain ⟨_, _, hfails, -⟩ := h.behind (hsilent.fail span _)
      cases hfails

theorem descends_act {id : ExprId} {span : Span} {node : Expr.Node} {vs : List Value}
    (h : Passes total (act n id span node vs) m) :
    Descends total (act n id span node vs) m ⟨n, .act id span node vs, m⟩ := by
  have hsilent := closed_silent total
  unfold act at h ⊢
  split at h
  · exact absurd h (not_passes_pure _)
  · exact absurd h (not_passes_pure _)
  · exact absurd h ((hsilent.located _ _).not_passes m)
  · exact absurd h ((hsilent.located _ _).not_passes m)
  · exact absurd h ((hsilent.lookup _ _ _).not_passes m)
  · exact absurd h ((hsilent.bind (hsilent.assign _ _ _) fun _ => hsilent.pure _).not_passes m)
  · exact ⟨_, .call, h.leads.discard⟩
  · obtain ⟨v, m', hv, h⟩ := h.behind (hsilent.property _ _)
    exact ⟨_, .access hv, h.discard⟩
  · exact absurd h ((hsilent.bind (hsilent.setProperty _ _ _) fun _ => hsilent.pure _).not_passes m)
  · exact absurd h ((hsilent.bind (hsilent.make _) fun _ => hsilent.pure _).not_passes m)
  · exact absurd h ((hsilent.element _ _ _).not_passes m)
  · exact absurd h
      ((hsilent.bind (hsilent.setElement _ _ _ _) fun _ => hsilent.pure _).not_passes m)
  · exact absurd h ((hsilent.bind (hsilent.closure _ _) fun _ => hsilent.pure _).not_passes m)
  · exact absurd h ((hsilent.lookup _ _ _).not_passes m)
  · obtain ⟨v, m', hv, h⟩ := h.behind (hsilent.superProperty _ _ _)
    exact ⟨_, .accessSuper hv, h.discard⟩
  · exact absurd h (hsilent.outOfFuel.not_passes m)

/-- Where an expression goes past the end, one of its tasks does: expressions do not print
themselves. -/
theorem descends_expr {e : Expr} (h : Passes total (expr (n + 1) e) m) :
    Descends total (expr (n + 1) e) m ⟨n + 1, .expr e, m⟩ := by
  obtain ⟨id, span, node⟩ := e
  have hat := followsAt total n
  by_cases hstrict : node.isStrict = true
  · rw [expr_of_isStrict n id span hstrict] at h ⊢
    obtain h | ⟨vs, m', hvs, h⟩ := h.bind ((closed_follows total).exprs hat.expr _)
    · exact ⟨_, .operands hstrict, h.discard⟩
    · exact ⟨_, .act hstrict hvs, h.discard⟩
  · cases node with
    | logical op left right =>
      obtain h | ⟨v, m', hv, h⟩ := h.bind (hat.expr left)
      · exact ⟨_, .logicalLeft, h.discard⟩
      cases hd : op.isDecidedBy v with
      | true =>
        rw [hd] at h
        exact absurd h.passes (not_passes_pure v)
      | false =>
        rw [hd] at h
        exact ⟨_, .logicalRight hv hd, h.discard⟩
    | ternary condition yes no =>
      obtain h | ⟨v, m', hv, h⟩ := h.bind (hat.expr condition)
      · exact ⟨_, .ternaryCondition, h.discard⟩
      cases ht : v.isTruthy with
      | true =>
        rw [ht] at h
        exact ⟨_, .ternaryYes hv ht, h.discard⟩
      | false =>
        rw [ht] at h
        exact ⟨_, .ternaryNo hv ht, h.discard⟩
    | _ => exact absurd rfl hstrict

theorem descends_apply {f : Closure} {args : List Value}
    (h : Passes total (apply (n + 1) f args) m) :
    Descends total (apply (n + 1) f args) m ⟨n + 1, .apply f args, m⟩ := by
  have hsilent := closed_silent total
  have hclosed := closed_follows total
  rw [apply_eq_resultOf] at h ⊢
  obtain ⟨frame, m', hmake, h⟩ := h.behind (hsilent.make _)
  obtain ⟨rfl, rfl⟩ := World.make_eq_ok.1 hmake
  have hbody := h.passes.before (hclosed.inFrame _ (hclosed.stmts (followsAt total n).stmt _))
    (hsilent.resultOf f)
  exact ⟨_, .body, ((h.trans hbody).trans hbody.passes.inFrame).discard⟩

/-- A print statement gets a value the line of which does not fit, where all before it did. -/
structure Overflows (total n : Nat) (e : Expr) (m : Machine) (v : Value) (m' : Machine) :
    Prop where
  value : Eval.expr n e m = .ok v m'
  fits : m'.printed ≤ total
  passes : total < m'.printed + (m'.heap.text v ++ "\n").utf8ByteSize

theorem Overflows.room {e : Expr} {v : Value} {m' : Machine} (h : Overflows total n e m v m')
    (hroom : m.output.room = none) : m'.output.room = none := by
  have hgrows := (growsAt n).expr e m
  rw [h.value] at hgrows
  exact (hgrows hroom).1

theorem Overflows.size_lt {e : Expr} {v : Value} {m' : Machine} (h : Overflows total n e m v m') :
    total < (m'.output.written ++ (m'.heap.text v ++ "\n").toUTF8).size := by
  rw [ByteArray.size_append]
  exact h.passes

/-- Where there is no more room for it, the statement ends in an error. -/
theorem Overflows.stops {span : Span} {e : Expr} {v : Value} {m' : Machine}
    (h : Overflows total n e m v m') (hroom : m.output.room = none) :
    stmt (n + 1) ⟨span, .print e⟩ (m.limited total) =
      .error (.error ⟨span, .outputFailed Output.limitReached⟩)
        (m'.filled total (m'.heap.text v ++ "\n")) := by
  have hvalue := ((followsAt total n).expr e).same (m := m) hroom (by rw [h.value]; exact h.fits)
  rw [h.value] at hvalue
  have hline := printLine_limited (h.room hroom) h.fits (m'.heap.text v) span
  dsimp only at hline
  rw [if_neg (Nat.not_le_of_lt h.size_lt)] at hline
  have hstmt : stmt (n + 1) ⟨span, .print e⟩ = expr n e >>= fun v => get >>= fun m =>
    printLine (m.heap.text v) span >>= fun _ => pure Signal.next := rfl
  rw [hstmt, EStateM.bind_of_ok hvalue, EStateM.get_bind_apply]
  exact EStateM.bind_of_error hline _

/-- Where a statement goes past the end, one of its tasks does, unless it is the print statement
that has no room. -/
theorem descends_stmt {s : Stmt} (h : Passes total (stmt (n + 1) s) m) :
    Descends total (stmt (n + 1) s) m ⟨n + 1, .stmt s, m⟩ ∨
      ∃ span e v m', s = ⟨span, .print e⟩ ∧ Overflows total n e m v m' := by
  have hsilent := closed_silent total
  have hclosed := closed_follows total
  have hat := followsAt total n
  obtain ⟨span, node⟩ := s
  cases node with
  | expression e =>
    have hexpr := h.before (hclosed.discard (hat.expr e)) fun _ => hsilent.pure Signal.next
    exact .inl ⟨_, .expression, hexpr⟩
  | print e =>
    obtain h | ⟨v, m', hv, h⟩ := h.bind (hat.expr e)
    · exact .inl ⟨_, .print, h.discard⟩
    refine .inr ⟨span, e, v, m', rfl, hv, h.passes.fits, ?_⟩
    have hread := h.passes.read fun _ _ _ => rfl
    have hline := hread.passes.before (follows_printLine _ span) fun _ => hsilent.pure Signal.next
    have hpasses := hline.passes.passes
    rw [printLine_of_room_none h.passes.room] at hpasses
    have hsize : (m'.output.written ++ (m'.heap.text v ++ "\n").toUTF8).size =
      m'.printed + (m'.heap.text v ++ "\n").utf8ByteSize := ByteArray.size_append
    exact hsize ▸ hpasses
  | varDecl name init =>
    cases init with
    | none =>
      exact absurd h ((hsilent.bind (hsilent.define _ _) fun _ => hsilent.pure _).not_passes m)
    | some e =>
      have hexpr := h.before (hat.expr e) fun v =>
        hsilent.bind (hsilent.define name.name v) fun _ => hsilent.pure Signal.next
      exact .inl ⟨_, .initializer, hexpr.discard⟩
  | block body =>
    have hbody : Leads _ (stmt (n + 1) ⟨span, .block body⟩) _ _ _ := h.inNewFrame
    exact .inl ⟨_, .block, hbody.discard⟩
  | ifElse condition yes no =>
    obtain h | ⟨v, m', hv, h⟩ := h.bind (hat.expr condition)
    · exact .inl ⟨_, .ifCondition, h.discard⟩
    cases ht : v.isTruthy with
    | true =>
      rw [ht] at h
      exact .inl ⟨_, .ifYes hv ht, h.discard⟩
    | false =>
      rw [ht] at h
      cases no with
      | none => exact absurd h.passes (not_passes_pure _)
      | some no => exact .inl ⟨_, .ifNo hv ht, h.discard⟩
  | «while» condition body => exact .inl ⟨_, .while, h.leads.discard⟩
  | «for» init condition step body =>
    rw [stmt_for] at h ⊢
    have hin := h.inNewFrame
    obtain h' | ⟨⟨⟩, m', hfirst, h'⟩ := hin.passes.bind (hat.firstClause hclosed init)
    · cases init with
      | none => exact absurd h'.passes (not_passes_pure ())
      | some s => exact .inl ⟨_, .forInit, hin.trans h'⟩
    · exact .inl ⟨_, .for hfirst, (hin.trans h').discard⟩
  | «break» => exact absurd h (not_passes_pure _)
  | «continue» => exact absurd h (not_passes_pure _)
  | funDecl f =>
    exact absurd h ((hsilent.bind (hsilent.closure _ _) fun c =>
      hsilent.bind (hsilent.define _ _) fun _ => hsilent.pure _).not_passes m)
  | «return» value =>
    cases value with
    | none => exact absurd h (not_passes_pure _)
    | some e =>
      have hexpr := h.before (hat.expr e) fun v => hsilent.pure (Signal.return v)
      exact .inl ⟨_, .returnValue, hexpr.discard⟩
  | classDecl name superclass traits methods statics =>
    exact absurd h ((hsilent.bind (hsilent.declareClass name superclass traits methods statics)
      fun _ => hsilent.pure _).not_passes m)
  | traitDecl name methods statics =>
    exact absurd h ((hsilent.bind (hsilent.declareTrait name methods statics)
      fun _ => hsilent.pure _).not_passes m)

/-- Where the output goes past the end in a task, it does so in one of those that it is made of, or
the task is a print statement the line of which does not fit. -/
theorem Config.descends {c : Config} (h : Passes total c.eval c.machine) :
    Descends total c.eval c.machine c ∨
      ∃ n span e m v m', c = ⟨n + 1, .stmt ⟨span, .print e⟩, m⟩ ∧ Overflows total n e m v m' := by
  obtain ⟨n, task, m⟩ := c
  have hclosed := closed_follows total
  have hsilent := closed_silent total
  have hat := followsAt total n
  cases task with
  | program ss => exact .inl (descends_program h)
  | stmts ss =>
    have hl := h.map (hclosed.stmts hat.stmt ss)
    exact .inl (.of_leads hl (descends_stmts hl.passes))
  | stmt s =>
    have hl := h.map (hat.stmt s)
    cases n with
    | zero => exact absurd hl.passes (hsilent.outOfFuel.not_passes m)
    | succ n =>
      obtain hd | ⟨span, e, v, m', rfl, ho⟩ := descends_stmt hl.passes
      · exact .inl (.of_leads hl hd)
      · exact .inr ⟨n, span, e, m, v, m', rfl, ho⟩
  | loop condition body step k =>
    have hl := h.map (hat.turns hclosed condition body step k)
    exact .inl (.of_leads hl (descends_loop hl.passes))
  | exprs es =>
    have hl := h.map (hclosed.exprs hat.expr es)
    exact .inl (.of_leads hl (descends_exprs hl.passes))
  | expr e =>
    have hl := h.map (hat.expr e)
    cases n with
    | zero => exact absurd hl.passes (hsilent.outOfFuel.not_passes m)
    | succ n => exact .inl (.of_leads hl (descends_expr hl.passes))
  | act id span node vs =>
    have hl := h.map (hat.act hclosed id span node vs)
    exact .inl (.of_leads hl (descends_act hl.passes))
  | call callee args span =>
    have hl := h.map (hclosed.callValue hat.apply callee args span)
    exact .inl (.of_leads hl (descends_call hl.passes))
  | apply f args =>
    have hl := h.map (hat.apply f args)
    cases n with
    | zero => exact absurd hl.passes (hsilent.outOfFuel.not_passes m)
    | succ n => exact .inl (.of_leads hl (descends_apply hl.passes))
  | access v =>
    have hl := h.map (hclosed.access hat.apply v)
    exact .inl (.of_leads hl (descends_access hl.passes))
  | use | members | bind => exact absurd h (not_passes_pure ())

/-! ## The statement at which it happens -/

/-- With room for `total` bytes in all, a task ends in an error, the machine being as there. -/
def Config.StopsAt (total : Nat) (c : Config) (e : RuntimeError) (m : Machine) : Prop :=
  ∃ frame, c.eval (c.machine.limited total) = .error (.error e) { m with frame := frame }

/-- Where the output of a run goes past the end, the run comes to a print statement the line of
which does not fit.  All that is under way then ends in its error. -/
theorem exists_overflows {c : Config} (h : Passes total c.eval c.machine) :
    ∃ stack n span e m v m', Visits c stack ⟨n + 1, .stmt ⟨span, .print e⟩, m⟩ ∧
      Overflows total n e m v m' ∧ m.output.room = none ∧
      ∀ d ∈ ⟨n + 1, .stmt ⟨span, .print e⟩, m⟩ :: stack,
        d.StopsAt total ⟨span, .outputFailed Output.limitReached⟩
          (m'.filled total (m'.heap.text v ++ "\n")) := by
  induction c using wellFounded_calls.induction with
  | _ c ih =>
    obtain ⟨d, hcall, hleads⟩ | ⟨n, span, e, m, v, m', rfl, ho⟩ := c.descends h
    · obtain ⟨stack, n, span, e, m, v, m', hvisits, ho, hroom, hstops⟩ := ih d hcall hleads.passes
      refine ⟨stack ++ [c], n, span, e, m, v, m', hvisits.prepend hcall, ho, hroom, ?_⟩
      have hc : c.StopsAt total ⟨span, .outputFailed Output.limitReached⟩
          (m'.filled total (m'.heap.text v ++ "\n")) := by
        obtain ⟨frame, hstop⟩ := hstops d hvisits.start_mem
        obtain ⟨frame', hstop'⟩ := hleads.stops hstop
        exact ⟨frame', hstop'⟩
      intro c' hc'
      rw [← List.cons_append] at hc'
      obtain hc' | hc' := List.mem_append.1 hc'
      · exact hstops c' hc'
      · obtain rfl := List.mem_singleton.1 hc'
        exact hc
    · refine ⟨[], n, span, e, m, v, m', .start, ho, h.room, fun d hd => ⟨m'.frame, ?_⟩⟩
      obtain rfl := List.mem_singleton.1 hd
      exact EStateM.map_of_error (ho.stops h.room) _

end

/-! ## The same tasks until then -/

/-- The task, where there is room for `total` bytes in all. -/
def Config.limited (c : Config) (total : Nat) : Config := ⟨c.fuel, c.task, c.machine.limited total⟩

section

variable {total : Nat}

/-- A task of the run with less room is one of the run with room for all. -/
theorem Calls.of_limited {c d : Config} (hroom : c.machine.output.room = none)
    (hfit : c.machine.printed ≤ total) (h : Calls (c.limited total) d) :
    ∃ d₁, Calls c d₁ ∧ d = d₁.limited total ∧ d₁.machine.output.room = none ∧
      d₁.machine.printed ≤ total := by
  obtain ⟨n, task, m⟩ := c
  have hclosed := closed_follows total
  have hat := followsAt total n
  have hpart := followsAt total (n - 1)
  unfold Config.limited at h
  dsimp only at h hroom hfit
  cases h with
  | programFirst => exact ⟨_, .programFirst, rfl, hroom, hfit⟩
  | programRest hs =>
    obtain ⟨m₁, hs', hroom₁, hfit₁, rfl⟩ := (hat.stmt _).ok_of_limited hroom hfit hs
    exact ⟨_, .programRest hs', rfl, hroom₁, hfit₁⟩
  | stmtsFirst => exact ⟨_, .stmtsFirst, rfl, hroom, hfit⟩
  | stmtsRest hs =>
    obtain ⟨m₁, hs', hroom₁, hfit₁, rfl⟩ := (hat.stmt _).ok_of_limited hroom hfit hs
    exact ⟨_, .stmtsRest hs', rfl, hroom₁, hfit₁⟩
  | exprsFirst => exact ⟨_, .exprsFirst, rfl, hroom, hfit⟩
  | exprsRest hv =>
    obtain ⟨m₁, hv', hroom₁, hfit₁, rfl⟩ := (hat.expr _).ok_of_limited hroom hfit hv
    exact ⟨_, .exprsRest hv', rfl, hroom₁, hfit₁⟩
  | expression => exact ⟨_, .expression, rfl, hroom, hfit⟩
  | print => exact ⟨_, .print, rfl, hroom, hfit⟩
  | initializer => exact ⟨_, .initializer, rfl, hroom, hfit⟩
  | block => exact ⟨_, .block, rfl, hroom, hfit⟩
  | ifCondition => exact ⟨_, .ifCondition, rfl, hroom, hfit⟩
  | ifYes hv ht =>
    obtain ⟨m₁, hv', hroom₁, hfit₁, rfl⟩ := (hpart.expr _).ok_of_limited hroom hfit hv
    exact ⟨_, .ifYes hv' ht, rfl, hroom₁, hfit₁⟩
  | ifNo hv ht =>
    obtain ⟨m₁, hv', hroom₁, hfit₁, rfl⟩ := (hpart.expr _).ok_of_limited hroom hfit hv
    exact ⟨_, .ifNo hv' ht, rfl, hroom₁, hfit₁⟩
  | «while» => exact ⟨_, .while, rfl, hroom, hfit⟩
  | forInit => exact ⟨_, .forInit, rfl, hroom, hfit⟩
  | @«for» n _ init _ _ _ _ _ hfirst =>
    obtain ⟨m₁, hfirst', hroom₁, hfit₁, rfl⟩ :=
      (hpart.firstClause hclosed init).ok_of_limited (m := m.enter m.frame ∅) hroom hfit hfirst
    exact ⟨_, .for hfirst', rfl, hroom₁, hfit₁⟩
  | returnValue => exact ⟨_, .returnValue, rfl, hroom, hfit⟩
  | classReference hr => exact ⟨_, .classReference hr, rfl, hroom, hfit⟩
  | members hheader =>
    obtain ⟨m₁, hheader', hroom₁, hfit₁, rfl⟩ :=
      (hclosed.classHeader _ _ _).ok_of_limited hroom hfit hheader
    exact ⟨_, .members hheader', rfl, hroom₁, hfit₁⟩
  | condition => exact ⟨_, .condition, rfl, hroom, hfit⟩
  | turn htest =>
    obtain ⟨m₁, htest', hroom₁, hfit₁, rfl⟩ := (hat.test hclosed _).ok_of_limited hroom hfit htest
    exact ⟨_, .turn htest', rfl, hroom₁, hfit₁⟩
  | step htest hturn hsignal =>
    obtain ⟨m₁, htest', hroom₁, hfit₁, rfl⟩ := (hat.test hclosed _).ok_of_limited hroom hfit htest
    obtain ⟨m₂, hturn', hroom₂, hfit₂, rfl⟩ := (hat.stmt _).ok_of_limited hroom₁ hfit₁ hturn
    exact ⟨_, .step htest' hturn' hsignal, rfl, hroom₂, hfit₂⟩
  | turns htest hturn hsignal hafter =>
    obtain ⟨m₁, htest', hroom₁, hfit₁, rfl⟩ := (hat.test hclosed _).ok_of_limited hroom hfit htest
    obtain ⟨m₂, hturn', hroom₂, hfit₂, rfl⟩ := (hat.stmt _).ok_of_limited hroom₁ hfit₁ hturn
    obtain ⟨m₃, hafter', hroom₃, hfit₃, rfl⟩ :=
      (hat.after hclosed _).ok_of_limited hroom₂ hfit₂ hafter
    exact ⟨_, .turns htest' hturn' hsignal hafter', rfl, hroom₃, hfit₃⟩
  | operands hstrict => exact ⟨_, .operands hstrict, rfl, hroom, hfit⟩
  | act hstrict hvs =>
    obtain ⟨m₁, hvs', hroom₁, hfit₁, rfl⟩ :=
      (hclosed.exprs hpart.expr _).ok_of_limited hroom hfit hvs
    exact ⟨_, .act hstrict hvs', rfl, hroom₁, hfit₁⟩
  | logicalLeft => exact ⟨_, .logicalLeft, rfl, hroom, hfit⟩
  | logicalRight hv hd =>
    obtain ⟨m₁, hv', hroom₁, hfit₁, rfl⟩ := (hpart.expr _).ok_of_limited hroom hfit hv
    exact ⟨_, .logicalRight hv' hd, rfl, hroom₁, hfit₁⟩
  | ternaryCondition => exact ⟨_, .ternaryCondition, rfl, hroom, hfit⟩
  | ternaryYes hv ht =>
    obtain ⟨m₁, hv', hroom₁, hfit₁, rfl⟩ := (hpart.expr _).ok_of_limited hroom hfit hv
    exact ⟨_, .ternaryYes hv' ht, rfl, hroom₁, hfit₁⟩
  | ternaryNo hv ht =>
    obtain ⟨m₁, hv', hroom₁, hfit₁, rfl⟩ := (hpart.expr _).ok_of_limited hroom hfit hv
    exact ⟨_, .ternaryNo hv' ht, rfl, hroom₁, hfit₁⟩
  | «variable» => exact ⟨_, .variable, rfl, hroom, hfit⟩
  | assign => exact ⟨_, .assign, rfl, hroom, hfit⟩
  | this => exact ⟨_, .this, rfl, hroom, hfit⟩
  | super => exact ⟨_, .super, rfl, hroom, hfit⟩
  | bindMember hf => exact ⟨_, .bindMember hf, rfl, hroom, hfit⟩
  | access hv =>
    obtain ⟨m₁, hv', hroom₁, hfit₁, rfl⟩ := (hclosed.property _ _).ok_of_limited hroom hfit hv
    exact ⟨_, .access hv', rfl, hroom₁, hfit₁⟩
  | bindSuper hd hc hr hf => exact ⟨_, .bindSuper (m := m) hd hc hr hf, rfl, hroom, hfit⟩
  | accessSuper hv =>
    obtain ⟨m₁, hv', hroom₁, hfit₁, rfl⟩ :=
      (hclosed.superProperty _ _ _).ok_of_limited hroom hfit hv
    exact ⟨_, .accessSuper hv', rfl, hroom₁, hfit₁⟩
  | getter hgetter hreturns => exact ⟨_, .getter hgetter hreturns, rfl, hroom, hfit⟩
  | call => exact ⟨_, .call, rfl, hroom, hfit⟩
  | apply harity => exact ⟨_, .apply harity, rfl, hroom, hfit⟩
  | bindInit hm hf harity =>
    subst hm
    exact ⟨_, .bindInit (m := m) rfl hf harity, rfl, hroom, hfit⟩
  | applyInit hm hf harity hbind =>
    subst hm
    exact ⟨_, .applyInit (m := m) rfl hf harity hbind, rfl, hroom, hfit⟩
  | body => exact ⟨_, .body, rfl, hroom, hfit⟩

theorem visits_of_limited {c₀ c : Config} {stack : List Config}
    (hroom : c₀.machine.output.room = none) (hfit : c₀.machine.printed ≤ total)
    (h : Visits (c₀.limited total) stack c) :
    ∃ stack₁ c₁, Visits c₀ stack₁ c₁ ∧ stack = stack₁.map (·.limited total) ∧
      c = c₁.limited total ∧ c₁.machine.output.room = none ∧ c₁.machine.printed ≤ total := by
  induction h with
  | start => exact ⟨[], c₀, .start, rfl, rfl, hroom, hfit⟩
  | call _ hcall ih =>
    obtain ⟨stack₁, c₁, hvisits, rfl, rfl, hroom₁, hfit₁⟩ := ih
    obtain ⟨d, hcall₁, rfl, hroom₂, hfit₂⟩ := hcall.of_limited hroom₁ hfit₁
    exact ⟨c₁ :: stack₁, d, hvisits.call hcall₁, rfl, rfl, hroom₂, hfit₂⟩

end

end Run

/-! ## Sessions -/

namespace Session

/-- The session, where there is room for `total` bytes in all. -/
def limited (s : Session) (total : Nat) : Session := ⟨s.machine.limited total, s.nextId⟩

theorem prepare_limited {s t : Session} {source : String} {p : Program}
    (hp : s.prepare source = (.ok p, t)) (total : Nat) :
    (s.limited total).prepare source = (.ok p, t.limited total) := by
  obtain ⟨tree, r, htree, hr, -, -⟩ := prepare_eq_ok hp
  cases hp.symm.trans (prepare_of_parse htree hr)
  exact prepare_of_parse htree hr

theorem output_prepare {s t : Session} {source : String} {p : Program}
    (hp : s.prepare source = (.ok p, t)) : t.machine.output = s.machine.output := by
  obtain ⟨tree, r, -, -, -, rfl⟩ := prepare_eq_ok hp
  rfl

theorem execute_limited {s : Session} {fuel : Nat} {p : Program} {total : Nat}
    (h : Eval.program fuel p.body (s.machine.limited total) =
      Run.mapMachine (·.limited total) (Eval.program fuel p.body s.machine)) :
    (s.limited total).execute fuel p =
      ((s.execute fuel p).1, (s.execute fuel p).2.limited total) := by
  unfold execute evaluate limited
  dsimp only
  rw [h]
  cases Eval.program fuel p.body s.machine with
  | ok a m => rfl
  | error stop m => cases stop <;> rfl

theorem execute_of_error {s : Session} {fuel : Nat} {p : Program} {e : RuntimeError}
    {m : Machine} (h : Eval.program fuel p.body s.machine = .error (.error e) m) :
    s.execute fuel p = (.failed (.runtime e), ⟨m, s.nextId⟩) := by
  unfold execute evaluate
  dsimp only
  rw [h]

/-- An output with an end cuts a program's text off and changes nothing else.  A program that is
run with room for `limit` bytes prints what it prints with room for all, and ends in the same way,
if this fits.  Else it prints the part that fits, and ends in the error of the print statement whose
line, in whatever pieces it is written, is the first to go past the end; all that is under way there
ends in this error, the machine is as it was before the line but for the output, and nothing has
been evaluated but what is evaluated in either run, up to there. -/
theorem output_truncated {s t : Session} {source : String} {p : Program}
    (hroom : s.machine.output.room = none) (hp : s.prepare source = (.ok p, t))
    (fuel limit : Nat) :
    let total := s.machine.printed + limit
    let before := s.machine.output.written
    let c₀ : Run.Config := ⟨fuel, .program p.body, t.machine⟩
    (s.limited total).prepare source = (.ok p, t.limited total) ∧
    ∃ printed, (t.execute fuel p).2.machine.output.written = before ++ printed ∧
      (printed.size ≤ limit → (t.limited total).execute fuel p =
        ((t.execute fuel p).1, (t.execute fuel p).2.limited total)) ∧
      (limit < printed.size → ∃ stack n span e m v m',
        Run.Visits c₀ stack ⟨n + 1, .stmt ⟨span, .print e⟩, m⟩ ∧ Run.Overflows total n e m v m' ∧
        (t.limited total).execute fuel p =
          (.failed (.runtime ⟨span, .outputFailed Output.limitReached⟩),
          ⟨{ m' with
              frame := s.machine.frame
              output := ⟨before ++ printed.extract 0 limit, some 0⟩ }, t.nextId⟩) ∧
        (∀ texts, String.join texts = m'.heap.text v ++ "\n" →
          (m'.output.limited total).writeEach texts =
            (false, ⟨before ++ printed.extract 0 limit, some 0⟩)) ∧
        ∀ d ∈ stack, d.StopsAt total ⟨span, .outputFailed Output.limitReached⟩
          { m' with output := ⟨before ++ printed.extract 0 limit, some 0⟩ }) ∧
      ∀ stack c, Run.Visits (c₀.limited total) stack c →
        ∃ stack₁ c₁, Run.Visits c₀ stack₁ c₁ ∧ stack = stack₁.map (·.limited total) ∧
          c = c₁.limited total ∧ c₁.machine.printed ≤ total := by
  intro total before c₀
  have houtput := output_prepare hp
  have hroom' : t.machine.output.room = none := houtput ▸ hroom
  have hfit : t.machine.printed ≤ total := by
    unfold Machine.printed
    rw [houtput]
    exact Nat.le_add_right _ _
  have hfollows : Eval.Follows total (Eval.program fuel p.body) :=
    Eval.closed_program (Eval.closed_follows total) Eval.follows_printLine fuel p.body
  obtain ⟨hroom'', printed, hprinted⟩ := hfollows.grows t.machine hroom'
  rw [houtput] at hprinted
  have hmachine : (t.execute fuel p).2.machine =
      Run.machineOf (Eval.program fuel p.body t.machine) := machine_evaluate t _
  have hsize : (Run.machineOf (Eval.program fuel p.body t.machine)).printed =
      s.machine.printed + printed.size := by
    unfold Machine.printed
    rw [hprinted, ByteArray.size_append]
  refine ⟨prepare_limited hp total, printed, by rw [hmachine, hprinted], fun hle => ?_,
    fun hlt => ?_, fun stack c hv => ?_⟩
  · have hsame := hfollows.same hroom' (by rw [hsize]; exact Nat.add_le_add_left hle _)
    exact execute_limited hsame
  · have hpasses : Eval.Passes total c₀.eval c₀.machine :=
      ⟨hroom', hfit, by
        show total < (Run.machineOf (Eval.program fuel p.body t.machine)).printed
        rw [hsize]
        exact Nat.add_lt_add_left hlt _⟩
    obtain ⟨stack, n, span, e, m, v, m', hvisits, ho, hm, hstops⟩ := Run.exists_overflows hpasses
    have houtput' : (m'.filled total (m'.heap.text v ++ "\n")).output =
        ⟨before ++ printed.extract 0 limit, some 0⟩ := by
      obtain ⟨frame, hstop⟩ := hstops c₀ hvisits.start_mem
      obtain ⟨_, m₁, hfull⟩ := hfollows.full hpasses
      have heq := congrArg (fun r => (Run.machineOf r).output) (hstop.symm.trans hfull)
      have hcut : (before ++ printed).extract 0 total = before ++ printed.extract 0 limit :=
        Output.extract_append_size_add before printed limit
      rw [hprinted, hcut] at heq
      exact heq
    have hfilled : m'.filled total (m'.heap.text v ++ "\n") =
        { m' with output := ⟨before ++ printed.extract 0 limit, some 0⟩ } := by
      rw [← houtput']
      rfl
    rw [hfilled] at hstops
    refine ⟨stack, n, span, e, m, v, m', hvisits, ho, ?_, fun texts htexts => ?_,
      fun d hd => hstops d (List.mem_cons_of_mem _ hd)⟩
    · obtain ⟨frame, hstop⟩ := hstops c₀ hvisits.start_mem
      have hstop : Eval.program fuel p.body (t.machine.limited total) = _ := hstop
      have hframe := Eval.keepsFrame_program fuel p.body (t.machine.limited total)
      have hbefore : t.machine.frame = s.machine.frame := by
        rw [← s.frame_prepare source, hp]
      rw [hstop] at hframe
      obtain rfl : frame = s.machine.frame := hframe.trans hbefore
      exact execute_of_error hstop
    · have hwrite := Output.write_limited (ho.room hm) ho.fits (m'.heap.text v ++ "\n")
      rw [Output.write_of_room_none (ho.room hm), if_neg (Nat.not_le_of_lt ho.size_lt)] at hwrite
      rw [Output.writeEach_eq, htexts, hwrite]
      exact congrArg (Prod.mk false) houtput'
  · obtain ⟨stack₁, c₁, hvisits, hstack, hc, -, hfit₁⟩ := Run.visits_of_limited hroom' hfit hv
    exact ⟨stack₁, c₁, hvisits, hstack, hc, hfit₁⟩

/-- A line of five bytes and room for two. -/
theorem output_truncated_line : ∃ p t stack n span e m v m',
    (start none (fun _ => 0)).prepare "print true;" = (.ok p, t) ∧
    (start (some 2) 0).prepare "print true;" = (.ok p, t.limited 2) ∧
    Run.Visits ⟨3, .program p.body, t.machine⟩ stack ⟨n + 1, .stmt ⟨span, .print e⟩, m⟩ ∧
    Run.Overflows 2 n e m v m' ∧
    ((t.limited 2).execute 3 p).1 =
      .failed (.runtime ⟨span, .outputFailed Output.limitReached⟩) := by
  let body : List Stmt :=
    [⟨.onLine 0 11, .print ⟨0, .onLine 6 10, .literal (.boolean true)⟩⟩]
  have hparse : Tree.parse "print true;" 0 = .ok ⟨body, 1⟩ := by cbv
  have hresolve : Resolution.ofProgram body = .ok ⟨[], []⟩ := by cbv
  have hprepare := prepare_of_parse (s := start none (fun _ => 0)) hparse hresolve
  obtain ⟨hlimited, printed, hprinted, -, hfull, -⟩ :=
    output_truncated (s := start none (fun _ => 0)) rfl hprepare 3 2
  have hline : ByteArray.empty ++ printed = "true\n".toUTF8 := hprinted.symm.trans rfl
  have hsize : 2 < printed.size := by
    rw [← ByteArray.empty_append (b := printed), hline]
    decide
  obtain ⟨stack, n, span, e, m, v, m', hvisits, ho, hexecute, -⟩ := hfull hsize
  exact ⟨_, _, stack, n, span, e, m, v, m', hprepare, hlimited, hvisits, ho,
    congrArg Prod.fst hexecute⟩

end Session

end Lox

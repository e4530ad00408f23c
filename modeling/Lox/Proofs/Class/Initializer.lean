import Lox.Proofs.Class.Member

/-!
# Initializers

A call of a class makes an instance and runs the `init` that the class has on it, once.  All other
ways to run an initializer begin with a member of an instance or of a superclass, which is bound
to an instance first: so the frame around that of the call was made by binding, no program can write
the `this` in it, and the instance is read from there when the body has ended in whatever way.

    log.Visited stack ⟨n + 1, .apply f args, m⟩ → f.kind = .initializer →
      ∃ i, log.Bound f i ∧ m.heap.getIn? f.frame Name.this = some (.object i)   (Reached.exists_bound)
-/

namespace Lox

/-- A frame that has a variable has been made. -/
theorem Heap.index_lt_of_getIn? {h : Heap} {g : FrameId} {name : String} {v : Value}
    (hv : h.getIn? g name = some v) : g.index < h.frames.size := by
  refine Nat.lt_of_not_le fun hge => ?_
  rw [getIn?, Array.getElem?_eq_none hge] at hv
  cases hv

theorem Heap.method?_newInstance (h : Heap) (c k : ClassId) (name : String) :
    (h.newInstance c).2.method? k name = h.method? k name := by
  have hclasses : (h.newInstance c).2.classes = h.classes := rfl
  exact method?_of_classes_eq hclasses k name

/-- The initializer `f` bound to a new instance of the class `k`. -/
def Heap.bindNew (h : Heap) (k : ClassId) (f : Closure) : Closure × Heap :=
  (h.newInstance k).2.bind f (.object (h.newInstance k).1)

namespace Eval

open Run

variable {n : Nat} {k : ClassId} {args : List Value} {span : Span} {m m' : Machine} {v : Value}
  {f : Closure} {signal : Signal} {stop : Stop}

/-! ## Calls of classes -/

theorem call_klass_eq_ok (h : call n (.klass k) args span m = .ok v m') :
    m.heap.arity? (.klass k) = some args.length ∧ instantiate (apply n) k args m = .ok v m' := by
  have ha : m.heap.arity? (.klass k) = some args.length := by
    unfold call callValue at h
    rw [EStateM.get_bind_apply] at h
    cases harity : m.heap.arity? (.klass k) with
    | none =>
      rw [harity] at h
      cases h
    | some arity =>
      rw [harity] at h
      by_cases hne : arity ≠ args.length
      · dsimp only at h
        rw [if_pos hne] at h
        cases h
      · rw [not_not.1 hne]
  rw [call_of_arity ha] at h
  exact ⟨ha, h⟩

/-- A class without an initializer only makes the instance. -/
theorem instantiate_of_none (hnone : m.heap.method? k Name.init = none) :
    instantiate (apply n) k args m =
      .ok (.object (m.heap.newInstance k).1) { m with heap := (m.heap.newInstance k).2 } := by
  have hmethod := (m.heap.method?_newInstance k k Name.init).trans hnone
  unfold instantiate
  rw [EStateM.bind_of_ok (World.make_eq_ok.2 ⟨rfl, rfl⟩), EStateM.get_bind_apply]
  simp only [hmethod]
  rfl

/-- The initializer is bound to the instance and called, and what it gives is not asked for. -/
theorem instantiate_of_some (hf : m.heap.method? k Name.init = some f)
    (h : instantiate (apply n) k args m = .ok v m') :
    v = .object (m.heap.newInstance k).1 ∧ ∃ w,
      apply n (m.heap.bindNew k f).1 args { m with heap := (m.heap.bindNew k f).2 } = .ok w m' := by
  have hmethod := (m.heap.method?_newInstance k k Name.init).trans hf
  unfold instantiate at h
  rw [EStateM.bind_of_ok (World.make_eq_ok.2 ⟨rfl, rfl⟩), EStateM.get_bind_apply] at h
  simp only [hmethod] at h
  rw [EStateM.bind_of_ok (World.make_eq_ok.2 ⟨rfl, rfl⟩)] at h
  obtain ⟨_, _, hdiscard, hv⟩ := EStateM.bind_eq_ok.1 h
  cases hv
  obtain ⟨w, hw, -⟩ := EStateM.map_eq_ok.1 hdiscard
  exact ⟨rfl, w, hw⟩

/-! ## Calls of functions -/

theorem apply_of_ok
    (h : stmts (stmt n) f.function.body (m.enter f.frame (arguments f args)) = .ok signal m') :
    apply (n + 1) f args m = resultOf f signal { m' with frame := m.frame } := by
  rw [apply_eq_resultOf, EStateM.bind_of_ok (World.make_eq_ok.2 ⟨rfl, rfl⟩)]
  refine EStateM.bind_of_ok ?_ _
  rw [inFrame_apply]
  exact congrArg (mapMachine _) h

theorem apply_of_error
    (h : stmts (stmt n) f.function.body (m.enter f.frame (arguments f args)) = .error stop m') :
    apply (n + 1) f args m = .error stop { m' with frame := m.frame } := by
  rw [apply_eq_resultOf, EStateM.bind_of_ok (World.make_eq_ok.2 ⟨rfl, rfl⟩)]
  refine EStateM.bind_of_error ?_ _
  rw [inFrame_apply]
  exact congrArg (mapMachine _) h

/-- An initializer gives the `this` that its own frame is in, whatever it is left by. -/
theorem resultOf_initializer (hf : f.kind = .initializer) (signal : Signal)
    (hthis : m.heap.getIn? f.frame Name.this = some v) : resultOf f signal m = .ok v m := by
  unfold resultOf
  rw [if_pos hf, EStateM.get_bind_apply]
  simp only [Heap.getAt?, Heap.ancestor?, hthis]
  rfl

end Eval

namespace Run

open Lexical Eval

variable {log : Log} {stack : List Config} {n : Nat} {m m' : Machine} {f : Closure}
  {args : List Value} {k : ClassId} {span : Span} {v : Value}

/-! ## Bound functions -/

/-- Initializers are members of instances. -/
theorem exists_inReceiver {body : List Stmt} {π : Lexical.Place} {g : Function}
    (ho : Occurs body π (.function .initializer g)) : ∃ π₀ : Lexical.Place, π = π₀.inReceiver g := by
  generalize hnode : Node.function .initializer g = node at ho
  cases ho with
  | program => cases hnode
  | inside _ hi =>
    cases hi with
    | method | traitMethod =>
      obtain ⟨-, rfl⟩ := Node.function.inj hnode
      exact ⟨_, rfl⟩
    | _ => cases hnode

/-- The frame that the function carries was made when it was bound to the instance `i`. -/
def Log.Bound (log : Log) (f : Closure) (i : InstanceId) : Prop :=
  ∃ stack c f', log.Visited stack c ∧ c.task = .bind f' (.object i) ∧
    f'.function = f.function ∧ f.frame = c.nextFrame

/-- An initializer is not run unless it has been bound, and `this` is still what it was bound to. -/
theorem Reached.exists_bound (h : Reached log) (hv : log.Visited stack ⟨n, .apply f args, m⟩)
    (hf : f.kind = .initializer) :
    ∃ i, log.Bound f i ∧ m.heap.getIn? f.frame Name.this = some (.object i) := by
  obtain ⟨W, hle, ⟨-, -, ⟨π, ⟨body, -, ho⟩, hchain⟩, -⟩, -⟩ := h.visited hv
  rw [hf] at ho
  obtain ⟨π₀, rfl⟩ := exists_inReceiver ho
  have hlt := hchain.index_lt (List.cons_ne_nil _ _)
  obtain ⟨outer, ha, -⟩ := (hle.later m.heap).chain hchain
  obtain ⟨c, ⟨stack', hc⟩, hmakes, -⟩ := ha.made
  obtain ⟨f', i, htask, hfunction, hthis⟩ := h.this_of_receiver hc hmakes
  refine ⟨i, ⟨stack', c, f', hc, htask, hfunction, hmakes.2⟩, ?_⟩
  rw [← hthis, h.getIn?_eq Name.not_plain_this hv hlt]

/-- The statements of a body leave `this` as it is. -/
theorem Reached.this_behind {ss : List Stmt} (h : Reached log)
    (hv : log.Visited stack ⟨n, .stmts ss, m⟩) {g : FrameId}
    (hg : g.index < m.heap.frames.size) :
    (machineOf (stmts (stmt n) ss m)).heap.getIn? g Name.this = m.heap.getIn? g Name.this := by
  have hsettled : Settles Name.this (Config.eval ⟨n, .stmts ss, m⟩) ⟨n, .stmts ss, m⟩ :=
    settled fun stack' d hd => by
      obtain ⟨c₀, hc₀, hv⟩ := hv
      exact h.not_mem_writes Name.not_plain_this ⟨c₀, hc₀, hv.trans hd⟩
  exact hsettled.whole.of_discard.same g hg

/-- A run of an initializer that was bound to an instance ends as its body does, in an error or with
the instance. -/
theorem Reached.apply_initializer (h : Reached log)
    (hv : log.Visited stack ⟨n + 1, .apply f args, m⟩) (hf : f.kind = .initializer)
    {i : InstanceId} (hthis : m.heap.getIn? f.frame Name.this = some (.object i)) :
    (∀ signal m',
      stmts (stmt n) f.function.body (m.enter f.frame (arguments f args)) = .ok signal m' →
        apply (n + 1) f args m = .ok (.object i) { m' with frame := m.frame }) ∧
    ∀ stop m',
      stmts (stmt n) f.function.body (m.enter f.frame (arguments f args)) = .error stop m' →
        apply (n + 1) f args m = .error stop { m' with frame := m.frame } := by
  refine ⟨fun signal m' hbody => ?_, fun stop m' hbody => apply_of_error hbody⟩
  rw [apply_of_ok hbody]
  refine resultOf_initializer hf signal ?_
  -- the frame of the call comes behind that of `this`, and the body writes no `this`
  have hlt := Heap.index_lt_of_getIn? hthis
  have hframes : f.frame.index < (m.enter f.frame (arguments f args)).heap.frames.size := by
    simp only [Machine.enter, Heap.newFrame, Array.size_push]
    omega
  have hkept := h.this_behind (hv.call .body) hframes
  rw [hbody] at hkept
  refine hkept.trans (Eq.trans ?_ hthis)
  show (m.heap.newFrame _ _).2.getIn? _ _ = _
  rw [Heap.getIn?_newFrame, if_neg fun heq => ?_]
  rw [heq] at hlt
  exact Nat.lt_irrefl _ hlt

/-! ## New instances -/

/-- A call of the class `k` at `m` leaves the new instance `i` at `m'`, on which the initializer
that the class has was run once, and nothing if it has none. -/
structure Instantiates (n : Nat) (k : ClassId) (args : List Value) (span : Span) (m : Machine)
    (i : InstanceId) (m' : Machine) : Prop where
  new : ∀ (j : InstanceId) o, m.heap.instances[j.index]? = some o → i ≠ j
  made : ∃ fields, m'.heap.instances[i.index]? = some ⟨k, fields⟩
  without : m.heap.method? k Name.init = none →
    ∀ d, Calls ⟨n, .call (.klass k) args span, m⟩ d → ∀ g vs, d.task ≠ .apply g vs
  once : ∀ f, m.heap.method? k Name.init = some f →
    ∃ g h', BoundTo (m.heap.newInstance k).2 f i g h' ∧
      (∃ v, apply n g args { m with heap := h' } = .ok v m') ∧
      ∀ d, (Calls ⟨n, .call (.klass k) args span, m⟩ d ∧ ∃ g vs, d.task = .apply g vs) ↔
        d = ⟨n, .apply g args, { m with heap := h' }⟩

/-- The only function that a call of a class calls is the initializer of the class, bound to the new
instance. -/
theorem calls_klass_apply {d : Config} {g : Closure} {vs : List Value}
    (hd : Calls ⟨n, .call (.klass k) args span, m⟩ d) (htask : d.task = .apply g vs) :
    ∃ f, m.heap.method? k Name.init = some f ∧ d = ⟨n, .apply (m.heap.bindNew k f).1 args,
      { m with heap := (m.heap.bindNew k f).2 }⟩ := by
  cases hd with
  | bindInit => cases htask
  | applyInit hm hf ha hbind =>
    subst hm
    obtain ⟨rfl, rfl⟩ := Prod.ext_iff.1 hbind
    exact ⟨_, (m.heap.method?_newInstance k k Name.init).symm.trans hf, rfl⟩

theorem getElem?_newInstance (h : Heap) (k : ClassId) :
    (h.newInstance k).2.instances[(h.newInstance k).1.index]? = some ⟨k, ∅⟩ :=
  Array.getElem?_push_size

theorem calls_klass_of_some (hf : m.heap.method? k Name.init = some f)
    (ha : m.heap.arity? (.klass k) = some args.length) (n : Nat) (span : Span) :
    Calls ⟨n, .call (.klass k) args span, m⟩
      ⟨n, .apply (m.heap.bindNew k f).1 args, { m with heap := (m.heap.bindNew k f).2 }⟩ := by
  have hmethod := (m.heap.method?_newInstance k k Name.init).trans hf
  have harity := Option.some.inj ((Heap.arity?_of_newInstance hmethod).symm.trans ha)
  let m' : Machine := { m with heap := (m.heap.newInstance k).2 }
  exact @Calls.applyInit n k args span f _ _ m m' rfl hmethod harity rfl

/-- An instance is still one of its class after a call. -/
theorem Reached.instance_behind (h : Reached log) (hv : log.Visited stack ⟨n, .apply f args, m⟩)
    (hok : apply n f args m = .ok v m') {i : InstanceId} {o : Instance}
    (ho : m.heap.instances[i.index]? = some o) :
    ∃ fields, m'.heap.instances[i.index]? = some ⟨o.klass, fields⟩ := by
  obtain ⟨⟨es, -, hes⟩, -⟩ := (h.clean hv).ends
  rw [Config.last, Config.eval, machineOf_discard, hok] at hes
  obtain ⟨fields, hfields, -⟩ := Heap.exists_instance_edits ho es
  exact ⟨fields, hes ▸ hfields⟩

/-- A call of a class that goes right has made the instance first, and then run its initializer on
it. -/
theorem Reached.instantiates (h : Reached log)
    (hv : log.Visited stack ⟨n, .call (.klass k) args span, m⟩)
    (hok : Eval.call n (.klass k) args span m = .ok v m') :
    v = .object (m.heap.newInstance k).1 ∧
      Instantiates n k args span m (m.heap.newInstance k).1 m' := by
  obtain ⟨ha, hok⟩ := call_klass_eq_ok hok
  have hnew : ∀ (j : InstanceId) o, m.heap.instances[j.index]? = some o →
      (m.heap.newInstance k).1 ≠ j := by
    rintro j o hj rfl
    rw [show (m.heap.newInstance k).1.index = m.heap.instances.size from rfl,
      Array.getElem?_eq_none (Nat.le_refl _)] at hj
    cases hj
  cases hmethod : m.heap.method? k Name.init with
  | none =>
    rw [instantiate_of_none hmethod] at hok
    cases hok
    refine ⟨rfl, hnew, ⟨_, getElem?_newInstance m.heap k⟩, fun _ d hd g vs htask => ?_,
      fun f hf => ?_⟩
    · obtain ⟨f, hf, -⟩ := calls_klass_apply hd htask
      cases hmethod.symm.trans hf
    · cases hmethod.symm.trans hf
  | some f =>
    obtain ⟨rfl, w, hw⟩ := instantiate_of_some hmethod hok
    have hcall := calls_klass_of_some hmethod ha n span
    -- binding makes no instance
    obtain ⟨fields, hfields⟩ :=
      h.instance_behind (hv.call hcall) hw (getElem?_newInstance m.heap k)
    refine ⟨rfl, hnew, ⟨fields, hfields⟩, fun hnone => ?_, fun f' hf' => ?_⟩
    · cases hmethod.symm.trans hnone
    · cases hmethod.symm.trans hf'
      refine ⟨_, _, boundTo_bind _ f _, ⟨w, hw⟩, fun d => ⟨fun ⟨hd, g, vs, htask⟩ => ?_, ?_⟩⟩
      · obtain ⟨f', hf', rfl⟩ := calls_klass_apply hd htask
        cases hmethod.symm.trans hf'
        rfl
      · rintro rfl
        exact ⟨hcall, _, _, rfl⟩

/-! ## Runs -/

/-- Whatever has happened, a call of a class that goes right gives an instance of it that was not
there before, on which the call itself has run the initializer of the class, once.  And an
initializer is not run unless it has been bound to an instance, in whatever way it was come by:
`this` is that instance, and the run ends with it however the body is left, or in the error in which
the body ends.  So that `this` is not found is never one. -/
theorem Reached.initializers_give_instance (h : Reached log) :
    (∀ stack n k args span m v m', log.Visited stack ⟨n, .call (.klass k) args span, m⟩ →
      Eval.call n (.klass k) args span m = .ok v m' →
      ∃ i, v = .object i ∧ Instantiates n k args span m i m') ∧
    ∀ stack n f args m, log.Visited stack ⟨n + 1, .apply f args, m⟩ → f.kind = .initializer →
      ∃ i, log.Bound f i ∧ m.heap.getIn? f.frame Name.this = some (.object i) ∧
        (∀ signal m',
          stmts (stmt n) f.function.body (m.enter f.frame (arguments f args)) = .ok signal m' →
            apply (n + 1) f args m = .ok (.object i) { m' with frame := m.frame }) ∧
        ∀ stop m',
          stmts (stmt n) f.function.body (m.enter f.frame (arguments f args)) = .error stop m' →
            apply (n + 1) f args m = .error stop { m' with frame := m.frame } := by
  refine ⟨fun stack n k args span m v m' hv hok => ⟨_, h.instantiates hv hok⟩, ?_⟩
  intro stack n f args m hv hf
  obtain ⟨i, hbound, hthis⟩ := h.exists_bound hv hf
  exact ⟨i, hbound, hthis, h.apply_initializer hv hf hthis⟩

/-- The initializer in `class A{init(){return;}}`. -/
def returningInitializer : Function :=
  ⟨⟨"init", .onLine 8 12⟩, [], [⟨.onLine 15 22, .return none⟩], false, .onLine 8 23⟩

/-- `class A{init(){return;}}` -/
def initializerProgram : List Stmt :=
  [⟨.onLine 0 24, .classDecl ⟨"A", .onLine 6 7⟩ none [] [returningInitializer] []⟩]

/-- The machine when the host calls `A`. -/
def initializerMachine : Machine :=
  machineOf (Eval.program 2 initializerProgram ((Machine.start none (fun _ => 0)).learn []))

/-- A call of a class by the host, with an initializer that is left by `return`. -/
theorem initializers_give_instance_return : ∃ log stack n f m i m' m'', Reached log ∧
    log.Visited stack ⟨n + 1, .apply f [], m⟩ ∧ f.kind = .initializer ∧ log.Bound f i ∧
    apply (n + 1) f [] m = .ok (.object i) m' ∧
    Instantiates 3 ⟨0⟩ [] .nowhere initializerMachine i m'' := by
  have hparse : Tree.parse "class A{init(){return;}}" 0 = .ok ⟨initializerProgram, 0⟩ := by cbv
  have hresolve : Resolution.ofProgram initializerProgram = .ok ⟨[], []⟩ := by cbv
  have hinit : initializerMachine.heap.method? ⟨0⟩ Name.init =
      some ⟨0, returningInitializer, ⟨0⟩, .initializer⟩ := by cbv
  have hprepared := (Reached.start none (fun _ => 0)).step
    (.prepared (Session.prepare_of_parse hparse hresolve))
  obtain ⟨log₁, hexecuted, hsession⟩ := hprepared.execute List.mem_cons_self 2
  obtain ⟨log, hreached, hcall⟩ := hexecuted.call (f := .klass ⟨0⟩)
    (.inr fun _ => Value.noConfusion) (fun _ h => absurd h List.not_mem_nil) .nowhere 3
  have hmachine : log₁.session.machine = initializerMachine := by
    rw [hsession]
    exact Session.machine_evaluate _ _
  rw [hmachine] at hcall
  obtain ⟨v, hok⟩ := exists_eq_ok_of_succeeds
    (r := Eval.call 3 (.klass ⟨0⟩) [] .nowhere initializerMachine) (by cbv)
  obtain ⟨hcalls, hruns⟩ := hreached.initializers_give_instance
  obtain ⟨i, rfl, hmade⟩ := hcalls _ _ _ _ _ _ _ _ hcall hok
  obtain ⟨g, h', hbound, hw, honce⟩ := hmade.once _ hinit
  have happly := hcall.call ((honce _).2 rfl).1
  obtain ⟨j, hboundTo, hthis, hends, hfails⟩ := hruns _ 2 g [] _ happly hbound.kind
  cases hbound.this.symm.trans hthis
  cases hbody : stmts (stmt 2) g.function.body
      (Machine.enter { initializerMachine with heap := h' } g.frame (arguments g [])) with
  | ok signal m' =>
    exact ⟨log, _, 2, g, _, i, _, _, hreached, happly, hbound.kind, hboundTo, hends _ _ hbody,
      hmade⟩
  | error stop m' =>
    obtain ⟨w, hw⟩ := hw
    cases (hfails _ _ hbody).symm.trans hw

end Run

end Lox

import Lox.Proofs.Run.Frame

/-!
# What stays in a frame

A variable is changed by the tasks that write its name and by no others, whatever else is run in the
meantime.  So a name that no task writes keeps in each frame what it has there, from wherever in a
run to its end:

    (∀ stack d, Visits c stack d → name ∉ d.task.writes) → Calls c d →
      Since name d.last c.eval c.machine                                              (settled)

Programs cannot write `this` and `super`, so in all that has happened each frame has had the same
under these names since it was made.
-/

namespace Lox

/-! ## Heaps -/

namespace Heap

/-- The frames that there are have the same under the name. -/
structure Fixed (name : String) (h h' : Heap) : Prop where
  size : h.frames.size ≤ h'.frames.size
  same : ∀ g, g.index < h.frames.size → h'.getIn? g name = h.getIn? g name

namespace Fixed

variable {name : String} {h h' h'' : Heap}

theorem refl (h : Heap) : Fixed name h h := ⟨Nat.le_refl _, fun _ _ => rfl⟩

theorem trans (a : Fixed name h h') (b : Fixed name h' h'') : Fixed name h h'' where
  size := Nat.le_trans a.size b.size
  same g hg := (b.same g (Nat.lt_of_lt_of_le hg a.size)).trans (a.same g hg)

theorem of_frames_eq (hf : h'.frames = h.frames) : Fixed name h h' where
  size := Nat.le_of_eq (by rw [hf])
  same g _ := by rw [getIn?, getIn?, hf]

theorem newFrame (h : Heap) (outer : FrameId) (bindings : Table Value) :
    Fixed name h (h.newFrame outer bindings).2 where
  size := by simp [Heap.newFrame]
  same g hg := by rw [getIn?_newFrame, if_neg (Nat.ne_of_lt hg)]

theorem define (h : Heap) (f : FrameId) {other : String} (hne : other ≠ name) (v : Value) :
    Fixed name h (h.define f other v) where
  size := Nat.le_of_eq (h.size_frames_define f other v).symm
  same g _ := by rw [getIn?_define, if_neg fun ⟨_, heq, _⟩ => hne heq]

theorem assign (h : Heap) (f : FrameId) {other : String} (hne : other ≠ name) (v : Value) :
    Fixed name h (h.assign f other v).2 := by
  unfold Heap.assign
  split
  · exact define h _ hne v
  · exact refl h

theorem assignAt (h : Heap) (hops : Nat) (f : FrameId) {other : String} (hne : other ≠ name)
    (v : Value) : Fixed name h (h.assignAt hops f other v).2 := by
  unfold Heap.assignAt
  split
  · exact define h _ hne v
  · exact refl h

theorem bind (h : Heap) (f : Closure) (receiver : Value) : Fixed name h (h.bind f receiver).2 :=
  (newFrame h f.frame (.ofPairs [(Name.this, receiver)])).trans (of_frames_eq rfl)

theorem newClosures (h : Heap) (frame : FrameId) (kind : Function → FunctionKind)
    (fs : List Function) : Fixed name h (h.newClosures frame kind fs).2 := by
  obtain ⟨t, n, heq, -⟩ := h.exists_newClosures frame kind fs
  rw [heq]
  exact of_frames_eq rfl

end Fixed

end Heap

namespace Eval

open Run

variable {α β : Type} {name : String} {m₀ m : Machine}

theorem machineOf_discard (x : Eval α) (m : Machine) :
    machineOf (discard x m) = machineOf (x m) := by
  show machineOf (EStateM.map _ x m) = _
  unfold EStateM.map
  cases x m <;> rfl

/-- Behind the evaluation, which is begun at `m`, the frames have what they had at `m₀`. -/
def Since (name : String) (m₀ : Machine) (x : Eval α) (m : Machine) : Prop :=
  Heap.Fixed name m₀.heap (machineOf (x m)).heap

namespace Since

theorem self {x : Eval α} : Since name (machineOf (x m)) x m := .refl _

theorem pure (a : α) : Since name m (Pure.pure a) m := .refl _

theorem throw (stop : Stop) : Since name m (throw stop : Eval α) m := .refl _

theorem bind {x : Eval α} {f : α → Eval β} (hx : Since name m₀ x m)
    (hf : ∀ a m', x m = .ok a m' → Since name m' (f a) m') : Since name m₀ (x >>= f) m := by
  unfold Since at *
  cases h : x m with
  | ok a m' =>
    rw [h] at hx
    rw [EStateM.bind_of_ok h]
    exact hx.trans (hf a m' h)
  | error stop m' =>
    rw [h] at hx
    rwa [EStateM.bind_of_error h]

/-- From the point of a sequence that has been come to. -/
theorem behind {x : Eval α} {f : α → Eval β} {a : α} {m' : Machine} (hx : x m = .ok a m')
    (hf : Since name m₀ (f a) m') : Since name m₀ (x >>= f) m := by
  unfold Since
  rwa [EStateM.bind_of_ok hx]

theorem map {x : Eval α} (hx : Since name m₀ x m) (f : α → β) : Since name m₀ (f <$> x) m := by
  rw [map_eq_pure_bind]
  exact hx.bind fun a _ _ => .pure (f a)

theorem of_discard {x : Eval α} (hx : Since name m₀ (discard x) m) : Since name m₀ x m := by
  unfold Since at hx ⊢
  rwa [machineOf_discard] at hx

theorem inFrame {frame : FrameId} {x : Eval α} (hx : Since name m₀ x { m with frame := frame }) :
    Since name m₀ (inFrame frame x) m := by
  unfold Since
  rw [inFrame_apply, machineOf_mapMachine]
  exact hx

theorem make {f : Heap → α × Heap} (hf : Heap.Fixed name m.heap (f m.heap).2) :
    Since name m (make f) m := hf

theorem change {f : Heap → Heap} (hf : Heap.Fixed name m.heap (f m.heap)) :
    Since name m (change f) m := hf

theorem inNewFrame {x : Eval α} (hx : Since name m₀ x (m.enter m.frame ∅)) :
    Since name m₀ (inNewFrame x) m := by
  have hin : Since name m₀ (Eval.inFrame ⟨m.heap.frames.size⟩ x)
    { m with heap := (m.heap.newFrame m.frame ∅).2 } := .inFrame hx
  exact hin

theorem located (span : Span) (r : Except RuntimeErrorKind α) :
    Since name m (located span r) m := by
  cases r with
  | ok a => exact .pure a
  | error kind => exact .throw _

theorem define {other : String} (hne : other ≠ name) (v : Value) :
    Since name m (define other v) m := Heap.Fixed.define m.heap m.frame hne v

theorem assigned (x : Identifier) {write : Machine → Bool × Heap}
    (hw : Heap.Fixed name m.heap (write m).2) : Since name m (assigned x write) m := by
  refine bind (x := modifyGet fun m => ((write m).1, { m with heap := (write m).2 })) hw ?_
  intro found m' _
  cases found with
  | true => exact .pure _
  | false => exact .throw _

theorem assign (id : ExprId) {x : Identifier} (hne : x.name ≠ name) (v : Value) :
    Since name m (assign id x v) m := by
  refine assigned x ?_
  cases m.distances[id]? with
  | some hops => exact .assignAt m.heap hops m.frame hne v
  | none => exact .assign m.heap Heap.globals hne v

theorem lookup (id : ExprId) (x : String) (span : Span) : Since name m (lookup id x span) m :=
  located span (m.lookup id x)

theorem callNative (f : Native) (args : List Value) (span : Span) :
    Since name m (callNative f args span) m := by
  unfold Eval.callNative
  split
  · exact .refl _
  · exact .refl _
  · exact .of_frames_eq rfl
  · exact .throw _
  · exact .refl _
  · exact .throw _
  · exact .throw _

theorem property (target : Value) (x : Identifier) : Since name m (property target x) m := by
  unfold Eval.property
  split
  · refine .behind (EStateM.get_apply m) ?_
    split
    · exact .pure _
    · exact bind (.make (.bind _ _ _)) fun _ _ _ => .pure _
    · exact .throw _
  · refine .behind (EStateM.get_apply m) ?_
    split
    · exact .pure _
    · exact .throw _
  · exact .throw _

theorem setProperty (target : Value) (x : Identifier) (v : Value) :
    Since name m (setProperty target x v) m := by
  unfold Eval.setProperty
  split
  · exact .of_frames_eq rfl
  · exact .of_frames_eq rfl
  · exact .throw _

theorem superProperty (id : ExprId) (x : Identifier) (span : Span) :
    Since name m (superProperty id x span) m := by
  refine .behind (EStateM.get_apply m) ?_
  split
  · exact .throw _
  split
  · exact .throw _
  · split
    · exact bind (.make (.bind _ _ _)) fun _ _ _ => .pure _
    · split
      · exact .pure _
      · exact .throw _
  · exact .throw _

theorem elementAt (array position : Value) (span : Span) :
    Since name m (elementAt array position span) m := by
  unfold Eval.elementAt
  split
  · exact .behind (EStateM.get_apply m) (bind (located _ _) fun _ _ _ => .pure _)
  · exact .throw _

theorem element (array position : Value) (span : Span) :
    Since name m (element array position span) m := by
  refine bind (elementAt array position span) fun found m' _ => ?_
  refine .behind (EStateM.get_apply m') ?_
  split
  · exact .pure _
  · exact .throw _

theorem setElement (array position v : Value) (span : Span) :
    Since name m (setElement array position v span) m :=
  bind (elementAt array position span) fun _ _ _ => .change (.of_frames_eq rfl)

theorem closure (f : Function) (kind : FunctionKind) : Since name m (closure f kind) m :=
  .behind (EStateM.get_apply m) (.make (.of_frames_eq rfl))

theorem superclassOf (r : Reference) : Since name m (superclassOf r) m := by
  refine bind (lookup _ _ _) fun v _ _ => ?_
  cases v with
  | klass c => exact .pure c
  | _ => exact .throw _

theorem traitOf (r : Reference) : Since name m (traitOf r) m := by
  refine bind (lookup _ _ _) fun v _ _ => ?_
  cases v with
  | trait t => exact .pure t
  | _ => exact .throw _

theorem traitsOf (rs : List Reference) : Since name m (rs.mapM Eval.traitOf) m := by
  induction rs generalizing m with
  | nil => exact .pure _
  | cons r rs ih =>
    rw [List.mapM_cons]
    exact bind (traitOf r) fun t _ _ => bind ih fun ts _ _ => .pure (t :: ts)

/-- What a class declaration looks up, once its name is there. -/
theorem references (superclass : Option Reference) (traits : List Reference) :
    Since name m (do
      let superclass ← namedSuperclass superclass
      let traits ← traits.mapM Eval.traitOf
      return (superclass, traits)) m := by
  refine bind ?_ fun c _ _ => bind (traitsOf traits) fun ts _ _ => .pure (c, ts)
  cases superclass with
  | none => exact .pure none
  | some r => exact map (superclassOf r) some

theorem classHeader {x : Identifier} (hne : x.name ≠ name) (superclass : Option Reference)
    (traits : List Reference) : Since name m (classHeader x superclass traits) m :=
  bind (define hne _) fun _ _ _ => references superclass traits

theorem classFrame (c : Option ClassId) : Since name m (classFrame c) m := by
  refine .behind (EStateM.get_apply m) ?_
  cases c with
  | none => exact .pure _
  | some c => exact .make (.newFrame _ _ _)

theorem classMembers {x : Identifier} (hne : x.name ≠ name) (c : Option ClassId)
    (ts : List TraitId) (methods statics : List Function) (frame : FrameId) :
    Since name m (classMembers x c ts methods statics frame) m :=
  bind (.make (.newClosures _ _ _ _)) fun _ _ _ => bind (.make (.newClosures _ _ _ _)) fun _ _ _ =>
    bind (.make (.of_frames_eq rfl)) fun _ m' _ => assigned x (.assign m'.heap m'.frame hne _)

/-- What a class declaration does behind its header. -/
theorem members {x : Identifier} (hne : x.name ≠ name) (c : Option ClassId) (ts : List TraitId)
    (methods statics : List Function) :
    Since name m (do
      let frame ← Eval.classFrame c
      Eval.classMembers x c ts methods statics frame) m :=
  bind (classFrame c) fun frame _ _ => classMembers hne c ts methods statics frame

theorem declareClass {x : Identifier} (hne : x.name ≠ name) (superclass : Option Reference)
    (traits : List Reference) (methods statics : List Function) :
    Since name m (declareClass x superclass traits methods statics) m := by
  rw [declareClass_eq]
  exact bind (classHeader hne superclass traits) fun found _ _ =>
    members hne found.1 found.2 methods statics

theorem declareTrait {x : Identifier} (hne : x.name ≠ name) (methods statics : List Function) :
    Since name m (declareTrait x methods statics) m :=
  .behind (EStateM.get_apply m) (bind (.make (.newClosures _ _ _ _)) fun _ _ _ =>
    bind (.make (.newClosures _ _ _ _)) fun _ _ _ => bind (.make (.of_frames_eq rfl)) fun _ _ _ =>
      define hne _)

theorem resultOf (f : Closure) (signal : Signal) : Since name m (resultOf f signal) m := by
  unfold Eval.resultOf
  split
  · refine .behind (EStateM.get_apply m) ?_
    split
    · exact .pure _
    · exact .throw _
  · cases signal <;> exact .pure _

theorem printLine (text : String) (span : Span) : Since name m (printLine text span) m := by
  unfold Since
  rw [printLine_apply]
  split <;> exact .refl _

end Since

/-- What a call does with as many arguments as are taken. -/
def called (fuel : Nat) (callee : Value) (args : List Value) (span : Span) : Eval Value :=
  match callee with
  | .native f => callNative f args span
  | .function f => apply fuel f args
  | .klass c => instantiate (apply fuel) c args
  | _ => fail span .notCallable

/-- What comes behind a turn of a loop. -/
def goOn (step : Eval Unit) (rest : Eval Signal) : Signal → Eval Signal
  | .break => return .next
  | .return v => return .return v
  | .next | .continue => step >>= fun _ => rest

theorem loop_succ (test : Eval Bool) (turn : Eval Signal) (step : Eval Unit) (k : Nat) :
    loop test turn step (k + 1) = test >>= fun goesOn =>
      if goesOn then turn >>= goOn step (loop test turn step k) else pure .next := rfl

end Eval

namespace Run

open Eval

/-! ## Tasks -/

/-- The names that a task itself defines or assigns. -/
def Task.writes : Task → List String
  | .stmt ⟨_, .varDecl x _⟩ | .stmt ⟨_, .classDecl x _ _ _ _⟩ | .stmt ⟨_, .traitDecl x _ _⟩ => [x.name]
  | .stmt ⟨_, .funDecl f⟩ => [f.name.name]
  | .act _ _ (.assign x _) _ => [x.name]
  | _ => []

/-- The machine behind the task. -/
def Config.last (c : Config) : Machine := machineOf (c.eval c.machine)

/-- Behind the task, the frames have what they had before it, and what they had behind each task
that it is made of. -/
structure Settles (name : String) {α : Type} (x : Eval α) (c : Config) : Prop where
  whole : Since name c.machine x c.machine
  parts : ∀ {d}, Calls c d → Since name d.last x c.machine

section

variable {α : Type} {name : String} {n : Nat} {m : Machine} {c : Config}

theorem Settles.discard {x : Eval α} (h : Settles name x c) : Settles name (discard x) c :=
  ⟨h.whole.map _, fun hd => (h.parts hd).map _⟩

theorem settles_program {ss : List Stmt}
    (ih : ∀ {d}, Calls ⟨n, .program ss, m⟩ d → Settles name d.eval d) :
    Settles name (program n ss) ⟨n, .program ss, m⟩ := by
  cases ss with
  | nil => exact ⟨.pure (), fun hd => by cases hd⟩
  | cons s ss =>
    have hrest (u : Unit) (m' : Machine) (hs : discard (stmt n s) m = .ok u m') :
        Since name m' (program n ss) m' := by
      obtain ⟨signal, hs, -⟩ := EStateM.map_eq_ok.1 hs
      exact (ih (.programRest hs)).whole
    refine ⟨(ih .programFirst).whole.bind hrest, fun hd => ?_⟩
    cases hd with
    | programFirst => exact Since.self.bind hrest
    | programRest hs => exact .behind (EStateM.map_of_ok hs _) .self

theorem settles_stmts {ss : List Stmt}
    (ih : ∀ {d}, Calls ⟨n, .stmts ss, m⟩ d → Settles name d.eval d) :
    Settles name (stmts (stmt n) ss) ⟨n, .stmts ss, m⟩ := by
  cases ss with
  | nil => exact ⟨.pure _, fun hd => by cases hd⟩
  | cons s ss =>
    have hseq {m₀ : Machine} (hs : Since name m₀ (stmt n s) m) :
        Since name m₀ (stmts (stmt n) (s :: ss)) m := by
      refine hs.bind fun signal m' hs => ?_
      cases signal with
      | next => exact (ih (.stmtsRest hs)).whole.of_discard
      | _ => exact .pure _
    refine ⟨hseq (ih .stmtsFirst).whole.of_discard, fun hd => ?_⟩
    cases hd with
    | stmtsFirst => exact hseq Since.self.of_discard
    | stmtsRest hs => exact .behind hs Since.self.of_discard

theorem settles_exprs {es : List Expr}
    (ih : ∀ {d}, Calls ⟨n, .exprs es, m⟩ d → Settles name d.eval d) :
    Settles name (exprs (expr n) es) ⟨n, .exprs es, m⟩ := by
  cases es with
  | nil => exact ⟨.pure _, fun hd => by cases hd⟩
  | cons e es =>
    have hseq {m₀ : Machine} (he : Since name m₀ (expr n e) m) :
        Since name m₀ (exprs (expr n) (e :: es)) m :=
      he.bind fun v m' hv => (ih (.exprsRest hv)).whole.of_discard.bind fun vs _ _ =>
        .pure (v :: vs)
    refine ⟨hseq (ih .exprsFirst).whole.of_discard, fun hd => ?_⟩
    cases hd with
    | exprsFirst => exact hseq Since.self.of_discard
    | exprsRest hv => exact .behind hv (Since.self.of_discard.bind fun vs _ _ => .pure _)

/-- A loop leaves the variable as its turns do; it is itself made of a turn and the turns behind
it. -/
theorem settles_loop {condition : Option Expr} {body : Stmt} {step : Option Expr} {k : Nat}
    (ih : ∀ {d}, Calls ⟨n, .loop condition body step k, m⟩ d → Settles name d.eval d) :
    Settles name (turns n condition body step k) ⟨n, .loop condition body step k, m⟩ := by
  cases k with
  | zero => exact ⟨.throw _, fun hd => by cases hd⟩
  | succ k =>
    have hstep {m₀ m₁ m₂ : Machine} {signal : Signal} (htest : test n condition m = .ok true m₁)
        (hturn : stmt n body m₁ = .ok signal m₂) (hsignal : signal = .next ∨ signal = .continue)
        (hafter : Since name m₀ (after n step) m₂) :
        Since name m₀ (goOn (after n step) (turns n condition body step k) signal) m₂ := by
      have hseq := hafter.bind fun u m₃ hafter =>
        (ih (.turns htest hturn hsignal hafter)).whole.of_discard
      obtain rfl | rfl := hsignal <;> exact hseq
    have hturn {m₀ m₁ : Machine} (htest : test n condition m = .ok true m₁)
        (hbody : Since name m₀ (stmt n body) m₁) :
        Since name m₀ (stmt n body >>= goOn (after n step) (turns n condition body step k)) m₁ := by
      refine hbody.bind fun signal m₂ hturn => ?_
      have hafter (hsignal : signal = .next ∨ signal = .continue) :
          Since name m₂ (after n step) m₂ := by
        cases step with
        | none => exact .pure ()
        | some e => exact (ih (.step htest hturn hsignal)).whole
      cases signal with
      | next => exact hstep htest hturn (.inl rfl) (hafter (.inl rfl))
      | «continue» => exact hstep htest hturn (.inr rfl) (hafter (.inr rfl))
      | _ => exact .pure _
    have hseq {m₀ : Machine} (htest : Since name m₀ (test n condition) m) :
        Since name m₀ (turns n condition body step (k + 1)) m := by
      refine htest.bind fun goesOn m₁ htest => ?_
      cases goesOn with
      | true => exact hturn htest (ih (.turn htest)).whole.of_discard
      | false => exact .pure _
    refine ⟨hseq ?_, fun hd => ?_⟩
    · cases condition with
      | none => exact .pure true
      | some e => exact (ih .condition).whole.of_discard.bind fun v _ _ => .pure v.isTruthy
    cases hd with
    | condition => exact hseq (Since.self.of_discard.bind fun v _ _ => .pure v.isTruthy)
    | turn htest => exact .behind htest (hturn htest Since.self.of_discard)
    | step htest hbody hsignal => exact .behind htest (.behind hbody (hstep htest hbody hsignal .self))
    | turns htest hbody hsignal hafter =>
      refine .behind htest (.behind hbody ?_)
      obtain rfl | rfl := hsignal <;> exact .behind hafter Since.self.of_discard

theorem access_getter {f : Closure} (hg : f.isGetter = true)
    (hr : f.function.returnsDirectly = true) : access (apply n) (.function f) = apply n f [] := by
  have hbody : ¬f.function.body.isEmpty = true := by
    intro hempty
    rw [Function.returnsDirectly, List.isEmpty_iff.1 hempty] at hr
    cases hr
  unfold access
  dsimp only
  rw [if_pos hg, if_neg hbody, if_pos hr]

theorem settles_access {v : Value} (ih : ∀ {d}, Calls ⟨n, .access v, m⟩ d → Settles name d.eval d) :
    Settles name (access (apply n) v) ⟨n, .access v, m⟩ := by
  refine ⟨?_, fun hd => ?_⟩
  · cases v with
    | function f =>
      unfold access
      dsimp only
      by_cases hgetter : f.isGetter = true
      · rw [if_pos hgetter]
        split
        · exact .throw _
        · split
          · next hreturns => exact (ih (.getter hgetter hreturns)).whole.of_discard
          · exact .throw _
      · rw [if_neg hgetter]
        exact .pure _
    | _ => exact .pure _
  · cases hd with
    | @getter _ f _ hgetter hreturns =>
      rw [access_getter hgetter hreturns]
      exact Since.self.of_discard

theorem settles_instantiate {k : ClassId} {args : List Value} {span : Span}
    (ih : ∀ {d}, Calls ⟨n, .call (.klass k) args span, m⟩ d → Settles name d.eval d)
    (ha : m.heap.arity? (.klass k) = some args.length) :
    Settles name (instantiate (apply n) k args) ⟨n, .call (.klass k) args span, m⟩ := by
  have harity {m₁ : Machine} (hm₁ : m₁ = { m with heap := (m.heap.newInstance k).2 }) {f : Closure}
      (hf : m₁.heap.method? k Name.init = some f) : f.arity = args.length := by
    subst hm₁
    exact Option.some.inj ((Heap.arity?_of_newInstance hf).symm.trans ha)
  have hwhole : Since name m (instantiate (apply n) k args) m := by
    refine .bind (.make (.of_frames_eq rfl)) fun i m₁ hmake => .behind (EStateM.get_apply m₁) ?_
    obtain ⟨rfl, hm₁⟩ := World.make_eq_ok.1 hmake
    split
    · next f hf =>
      refine .bind (.make (.bind _ _ _)) fun g m₂ hbind => ?_
      obtain ⟨rfl, rfl⟩ := World.make_eq_ok.1 hbind
      exact (ih (.applyInit hm₁ hf (harity hm₁ hf) rfl)).whole.bind fun _ _ _ => .pure _
    · exact .pure _
  refine ⟨hwhole, fun hd => ?_⟩
  cases hd with
  | bindInit hm₁ =>
    subst hm₁
    have hframes : Heap.Fixed name (m.heap.newInstance k).2 m.heap := .of_frames_eq rfl
    exact hframes.trans hwhole
  | @applyInit _ _ _ _ f g h _ m₁ hm₁ hf ha' hbind =>
    refine .behind (World.make_eq_ok.2 ⟨rfl, hm₁⟩) (.behind (EStateM.get_apply m₁) ?_)
    split
    · next f' hf' =>
      cases hf.symm.trans hf'
      obtain ⟨rfl, rfl⟩ := Prod.ext_iff.1 hbind
      exact .behind (World.make_eq_ok.2 ⟨rfl, rfl⟩) (Since.self.bind fun _ _ _ => .pure _)
    · next hf' => cases hf.symm.trans hf'

theorem call_of_arity {callee : Value} {args : List Value} {span : Span}
    (ha : m.heap.arity? callee = some args.length) :
    call n callee args span m = called n callee args span m := by
  unfold call callValue
  rw [EStateM.get_bind_apply, ha]
  dsimp only
  rw [if_neg (not_not.2 rfl)]
  rfl

/-- A call leaves the variable as the body of what is called does. -/
theorem settles_call {callee : Value} {args : List Value} {span : Span}
    (ih : ∀ {d}, Calls ⟨n, .call callee args span, m⟩ d → Settles name d.eval d) :
    Settles name (call n callee args span) ⟨n, .call callee args span, m⟩ := by
  have hwhole : Since name m (call n callee args span) m := by
    cases ha : m.heap.arity? callee with
    | none =>
      refine .behind (EStateM.get_apply m) ?_
      rw [ha]
      exact .throw _
    | some arity =>
      by_cases hlength : arity = args.length
      · subst hlength
        rw [Since, call_of_arity ha]
        cases callee with
        | native f => exact Since.callNative f args span
        | function f => exact (ih (.apply (Option.some.inj ha))).whole.of_discard
        | klass k => exact (settles_instantiate ih ha).whole
        | _ => cases ha
      · refine .behind (EStateM.get_apply m) ?_
        rw [ha]
        dsimp only
        rw [if_pos hlength]
        exact (Since.throw _).bind fun _ _ hfails => by cases hfails
  have hklass {k : ClassId} (hk : callee = .klass k)
      (ha : m.heap.arity? (.klass k) = some args.length) {d : Config}
      (hd : Calls ⟨n, .call callee args span, m⟩ d) :
      Since name d.last (call n callee args span) m := by
    subst hk
    rw [Since, call_of_arity ha]
    exact (settles_instantiate ih ha).parts hd
  refine ⟨hwhole, fun hd => ?_⟩
  cases hd with
  | apply ha =>
    have harity : m.heap.arity? (.function _) = some args.length := congrArg some ha
    rw [Since, call_of_arity harity]
    exact Since.self.of_discard
  | bindInit hm₁ hf ha =>
    subst hm₁
    exact hklass rfl ((Heap.arity?_of_newInstance hf).trans (congrArg some ha)) (.bindInit rfl hf ha)
  | applyInit hm₁ hf ha hbind =>
    subst hm₁
    exact hklass rfl ((Heap.arity?_of_newInstance hf).trans (congrArg some ha))
      (.applyInit rfl hf ha hbind)

theorem settles_act {id : ExprId} {span : Span} {node : Expr.Node} {vs : List Value}
    (hw : name ∉ Task.writes (.act id span node vs))
    (ih : ∀ {d}, Calls ⟨n, .act id span node vs, m⟩ d → Settles name d.eval d) :
    Settles name (act n id span node vs) ⟨n, .act id span node vs, m⟩ := by
  have hwhole : Since name m (act n id span node vs) m := by
    unfold act
    split
    · exact .pure _
    · exact .pure _
    · exact .located _ _
    · exact .located _ _
    · exact .lookup _ _ _
    · next x _ v =>
      have hne : x.name ≠ name := fun heq => hw (List.mem_singleton.2 heq.symm)
      exact (Since.assign id hne v).bind fun _ _ _ => .pure _
    · exact (ih .call).whole.of_discard
    · exact (Since.property _ _).bind fun v _ hv => (ih (.access hv)).whole.of_discard
    · exact (Since.setProperty _ _ _).bind fun _ _ _ => .pure _
    · exact .bind (.make (.of_frames_eq rfl)) fun _ _ _ => .pure _
    · exact .element _ _ _
    · exact (Since.setElement _ _ _ _).bind fun _ _ _ => .pure _
    · exact (Since.closure _ _).bind fun _ _ _ => .pure _
    · exact .lookup _ _ _
    · exact (Since.superProperty _ _ _).bind fun v _ hv => (ih (.accessSuper hv)).whole.of_discard
    · exact .throw _
  refine ⟨hwhole, fun hd => ?_⟩
  cases hd with
  | «variable» | assign | this | super | bindMember | bindSuper => exact hwhole
  | call => exact Since.self.of_discard
  | access hv => exact .behind hv Since.self.of_discard
  | accessSuper hv => exact .behind hv Since.self.of_discard

/-- An expression leaves the variable as its operands and its own action do. -/
theorem settles_expr {e : Expr}
    (ih : ∀ {d}, Calls ⟨n, .expr e, m⟩ d → Settles name d.eval d) :
    Settles name (expr n e) ⟨n, .expr e, m⟩ := by
  cases n with
  | zero => exact ⟨.throw _, fun hd => by cases hd⟩
  | succ n =>
    obtain ⟨id, span, node⟩ := e
    by_cases hstrict : node.isStrict = true
    · rw [expr_of_isStrict n id span hstrict]
      have hact (vs : List Value) (m' : Machine)
          (hvs : exprs (expr n) node.operands m = .ok vs m') :
          Since name m' (act n id span node vs) m' :=
        (ih (.act hstrict hvs)).whole.of_discard
      refine ⟨(ih (.operands hstrict)).whole.of_discard.bind hact, fun hd => ?_⟩
      cases hd with
      | operands => exact Since.self.of_discard.bind hact
      | act _ hvs => exact .behind hvs Since.self.of_discard
      | _ => cases hstrict
    · cases node with
      | logical op left right =>
        have hseq {m₀ : Machine} (hleft : Since name m₀ (expr n left) m) :
            Since name m₀ (expr (n + 1) ⟨id, span, .logical op left right⟩) m := by
          refine hleft.bind fun v m' hv => ?_
          cases hd : op.isDecidedBy v with
          | true => exact .pure v
          | false => exact (ih (.logicalRight hv hd)).whole.of_discard
        refine ⟨hseq (ih .logicalLeft).whole.of_discard, fun hd => ?_⟩
        cases hd with
        | operands h => exact absurd h hstrict
        | act h => exact absurd h hstrict
        | logicalLeft => exact hseq Since.self.of_discard
        | logicalRight hv hd =>
          refine .behind hv ?_
          rw [hd]
          exact Since.self.of_discard
      | ternary condition yes no =>
        have hseq {m₀ : Machine} (hcondition : Since name m₀ (expr n condition) m) :
            Since name m₀ (expr (n + 1) ⟨id, span, .ternary condition yes no⟩) m := by
          refine hcondition.bind fun v m' hv => ?_
          cases ht : v.isTruthy with
          | true => exact (ih (.ternaryYes hv ht)).whole.of_discard
          | false => exact (ih (.ternaryNo hv ht)).whole.of_discard
        refine ⟨hseq (ih .ternaryCondition).whole.of_discard, fun hd => ?_⟩
        cases hd with
        | operands h => exact absurd h hstrict
        | act h => exact absurd h hstrict
        | ternaryCondition => exact hseq Since.self.of_discard
        | ternaryYes hv ht =>
          refine .behind hv ?_
          rw [ht]
          exact Since.self.of_discard
        | ternaryNo hv ht =>
          refine .behind hv ?_
          rw [ht]
          exact Since.self.of_discard
      | _ => exact absurd rfl hstrict

theorem settles_apply {f : Closure} {args : List Value}
    (ih : ∀ {d}, Calls ⟨n, .apply f args, m⟩ d → Settles name d.eval d) :
    Settles name (apply n f args) ⟨n, .apply f args, m⟩ := by
  cases n with
  | zero => exact ⟨.throw _, fun hd => by cases hd⟩
  | succ n =>
    have hseq {m₀ : Machine} (hbody : Since name m₀ (stmts (stmt n) f.function.body)
          (m.enter f.frame (arguments f args))) :
        Since name m₀ (inFrame ⟨m.heap.frames.size⟩ (stmts (stmt n) f.function.body) >>= resultOf f)
          { m with heap := (m.heap.newFrame f.frame (arguments f args)).2 } :=
      .bind (.inFrame hbody) fun signal _ _ => .resultOf f signal
    have hframe : Heap.Fixed name m.heap (m.heap.newFrame f.frame (arguments f args)).2 :=
      .newFrame m.heap f.frame (arguments f args)
    have hmade := World.make_eq_ok (m := m) (f := (·.newFrame f.frame (arguments f args))).2
      ⟨rfl, rfl⟩
    rw [apply_eq_resultOf]
    refine ⟨.behind hmade (hseq (hframe.trans (ih .body).whole.of_discard)), fun hd => ?_⟩
    cases hd with
    | body => exact .behind hmade (hseq Since.self.of_discard)

/-- A statement that does not write the variable itself leaves it as the tasks that it is made of
have left it. -/
theorem settles_stmt {s : Stmt} (hw : name ∉ Task.writes (.stmt s))
    (ih : ∀ {d}, Calls ⟨n, .stmt s, m⟩ d → Settles name d.eval d) :
    Settles name (stmt n s) ⟨n, .stmt s, m⟩ := by
  cases n with
  | zero => exact ⟨.throw _, fun hd => by cases hd⟩
  | succ n =>
  obtain ⟨span, node⟩ := s
  cases node with
  | expression e =>
    have hseq {m₀ : Machine} (he : Since name m₀ (discard (expr n e)) m) :
        Since name m₀ (stmt (n + 1) ⟨span, .expression e⟩) m :=
      he.bind fun _ _ _ => .pure Signal.next
    exact ⟨hseq (ih .expression).whole, fun hd => by cases hd; exact hseq .self⟩
  | print e =>
    have hseq {m₀ : Machine} (he : Since name m₀ (expr n e) m) :
        Since name m₀ (stmt (n + 1) ⟨span, .print e⟩) m :=
      he.bind fun _ m' _ => .behind (EStateM.get_apply m')
        ((Since.printLine _ _).bind fun _ _ _ => .pure Signal.next)
    exact ⟨hseq (ih .print).whole.of_discard, fun hd => by
      cases hd; exact hseq Since.self.of_discard⟩
  | varDecl x init =>
    have hne : x.name ≠ name := fun heq => hw (List.mem_singleton.2 heq.symm)
    have hdefine (v : Value) (m' : Machine) :
        Since name m' (define x.name v >>= fun _ => pure Signal.next) m' :=
      (Since.define hne v).bind fun _ _ _ => .pure _
    cases init with
    | none => exact ⟨hdefine .nil m, fun hd => by cases hd⟩
    | some e =>
      have hseq {m₀ : Machine} (he : Since name m₀ (expr n e) m) :
          Since name m₀ (stmt (n + 1) ⟨span, .varDecl x (some e)⟩) m :=
        he.bind fun v m' _ => hdefine v m'
      exact ⟨hseq (ih .initializer).whole.of_discard, fun hd => by
        cases hd; exact hseq Since.self.of_discard⟩
  | block body =>
    have hframe : Heap.Fixed name m.heap (m.heap.newFrame m.frame ∅).2 :=
      .newFrame m.heap m.frame ∅
    refine ⟨.inNewFrame (hframe.trans (ih .block).whole.of_discard), fun hd => ?_⟩
    cases hd with
    | block => exact .inNewFrame Since.self.of_discard
  | ifElse condition yes no =>
    have hseq {m₀ : Machine} (hcondition : Since name m₀ (expr n condition) m) :
        Since name m₀ (stmt (n + 1) ⟨span, .ifElse condition yes no⟩) m := by
      refine hcondition.bind fun v m' hv => ?_
      cases ht : v.isTruthy with
      | true => exact (ih (.ifYes hv ht)).whole.of_discard
      | false =>
        cases no with
        | none => exact .pure _
        | some no => exact (ih (.ifNo hv ht)).whole.of_discard
    refine ⟨hseq (ih .ifCondition).whole.of_discard, fun hd => ?_⟩
    cases hd with
    | ifCondition => exact hseq Since.self.of_discard
    | ifYes hv ht =>
      refine .behind hv ?_
      rw [ht]
      exact Since.self.of_discard
    | ifNo hv ht =>
      refine .behind hv ?_
      rw [ht]
      exact Since.self.of_discard
  | «while» condition body =>
    exact ⟨(ih .while).whole.of_discard, fun hd => by cases hd; exact Since.self.of_discard⟩
  | «for» init condition step body =>
    rw [stmt_for]
    have hframe : Heap.Fixed name m.heap (m.heap.newFrame m.frame ∅).2 :=
      .newFrame m.heap m.frame ∅
    have hseq {m₀ : Machine} (hfirst : Since name m₀ (firstClause n init) (m.enter m.frame ∅)) :
        Since name m₀ (inNewFrame do firstClause n init; turns n condition body step n) m :=
      .inNewFrame (hfirst.bind fun _ _ hfirst => (ih (.for hfirst)).whole.of_discard)
    refine ⟨hseq ?_, fun hd => ?_⟩
    · cases init with
      | none => exact hframe
      | some s => exact hframe.trans (ih .forInit).whole
    cases hd with
    | forInit => exact hseq .self
    | «for» hfirst => exact .inNewFrame (.behind hfirst Since.self.of_discard)
  | «break» => exact ⟨.pure _, fun hd => by cases hd⟩
  | «continue» => exact ⟨.pure _, fun hd => by cases hd⟩
  | funDecl f =>
    have hne : f.name.name ≠ name := fun heq => hw (List.mem_singleton.2 heq.symm)
    exact ⟨(Since.closure f .function).bind fun c _ _ => (Since.define hne _).bind fun _ _ _ =>
      .pure _, fun hd => by cases hd⟩
  | «return» value =>
    cases value with
    | none => exact ⟨.pure _, fun hd => by cases hd⟩
    | some e =>
      have hseq {m₀ : Machine} (he : Since name m₀ (expr n e) m) :
          Since name m₀ (stmt (n + 1) ⟨span, .return (some e)⟩) m :=
        he.bind fun v _ _ => .pure (Signal.return v)
      exact ⟨hseq (ih .returnValue).whole.of_discard, fun hd => by
        cases hd; exact hseq Since.self.of_discard⟩
  | classDecl x superclass traits methods statics =>
    have hne : x.name ≠ name := fun heq => hw (List.mem_singleton.2 heq.symm)
    refine ⟨(Since.declareClass hne superclass traits methods statics).bind fun _ _ _ => .pure _,
      fun hd => ?_⟩
    have heq : stmt (n + 1) ⟨span, .classDecl x superclass traits methods statics⟩ =
      declareClass x superclass traits methods statics >>= fun _ => pure Signal.next := rfl
    rw [heq, declareClass_eq]
    cases hd with
    | classReference hr =>
      exact .bind (.bind (.behind rfl (.references superclass traits)) fun found m' _ =>
        .members hne found.1 found.2 methods statics) fun _ _ _ => .pure _
    | @members _ _ _ _ _ _ _ found _ _ hheader =>
      exact .bind (.behind hheader (.members hne found.1 found.2 methods statics)) fun _ _ _ =>
        .pure _
  | traitDecl x methods statics =>
    have hne : x.name ≠ name := fun heq => hw (List.mem_singleton.2 heq.symm)
    exact ⟨(Since.declareTrait hne methods statics).bind fun _ _ _ => .pure _,
      fun hd => by cases hd⟩

/-- No task that a task comes by writes the name: so what is in a frame under it stays there, from
wherever in the run of the task to its end. -/
theorem settled {c : Config} (hw : ∀ stack d, Visits c stack d → name ∉ d.task.writes) :
    Settles name c.eval c := by
  induction c using wellFounded_calls.induction with
  | _ c ih =>
    replace ih {d : Config} (hd : Calls c d) : Settles name d.eval d :=
      ih d hd fun stack e he => hw _ e (he.prepend hd)
    obtain ⟨n, task, m⟩ := c
    have hown := hw _ _ .start
    cases task with
    | program ss => exact settles_program ih
    | stmts ss => exact (settles_stmts ih).discard
    | stmt s => exact (settles_stmt hown ih).discard
    | loop condition body step k => exact (settles_loop ih).discard
    | exprs es => exact (settles_exprs ih).discard
    | expr e => exact (settles_expr ih).discard
    | act id span node vs => exact (settles_act hown ih).discard
    | call callee args span => exact (settles_call ih).discard
    | apply f args => exact (settles_apply ih).discard
    | access v => exact (settles_access ih).discard
    | use | members | bind => exact ⟨.pure (), fun hd => by cases hd⟩

/-- What a run comes by settles before it. -/
theorem Visits.fixed {c₀ c : Config} {stack : List Config} (hv : Visits c₀ stack c)
    (hw : ∀ stack d, Visits c₀ stack d → name ∉ d.task.writes) :
    Heap.Fixed name c.last.heap c₀.last.heap := by
  induction hv with
  | start => exact .refl _
  | call hv hcall ih =>
    exact .trans ((settled fun _ d hd => hw _ d (hv.trans hd)).parts hcall) ih

end

/-! ## Sessions -/

/-- The names that a task writes are no keywords. -/
theorem World.Ready.plain_of_mem_writes {W : World} {c : Config} (h : W.Ready c) {name : String}
    (hname : name ∈ c.task.writes) : Name.Plain name := by
  obtain ⟨n, task, m⟩ := c
  cases task with
  | stmt s =>
    obtain ⟨π, -, hp⟩ := h
    have hwf : s.WellFormed := hp.wellFormed
    obtain ⟨span, node⟩ := s
    cases node with
    | varDecl =>
      cases List.mem_singleton.1 hname
      exact (Stmt.wellFormed_varDecl.1 hwf).1
    | classDecl | traitDecl | funDecl =>
      cases List.mem_singleton.1 hname
      exact hwf.1
    | _ => cases hname
  | act id span node vs =>
    obtain ⟨π, -, hp, -⟩ := h
    have hwf : Expr.WellFormed ⟨id, span, node⟩ := hp.wellFormed
    cases node with
    | assign =>
      cases List.mem_singleton.1 hname
      exact hwf.1
    | _ => cases hname
  | _ => cases hname

theorem Reached.not_mem_writes {log : Log} (h : Reached log) {name : String}
    (hn : ¬Name.Plain name) {stack : List Config} {c : Config} (hv : log.Visited stack c) :
    name ∉ c.task.writes := by
  obtain ⟨W, -, hready, -⟩ := h.visited hv
  exact fun hname => hn (hready.plain_of_mem_writes hname)

/-- One more run leaves what is in the frames, if it does not write the name. -/
theorem Log.fixed_ran {log : Log} {fuel : Nat} {task : Task} {s : Session} {values : List Value}
    {name : String} (hlast : s.machine = Config.last ⟨fuel, task, log.session.machine⟩)
    (hold : ∀ stack c, log.Visited stack c →
      Heap.Fixed name c.last.heap log.session.machine.heap)
    (hw : ∀ stack c, (log.ran fuel task s values).Visited stack c → name ∉ c.task.writes)
    {stack : List Config} {c : Config} (hv : (log.ran fuel task s values).Visited stack c) :
    Heap.Fixed name c.last.heap s.machine.heap := by
  have hrun (stack : List Config) (d : Config)
      (hd : Visits ⟨fuel, task, log.session.machine⟩ stack d) : name ∉ d.task.writes :=
    hw stack d ⟨_, List.mem_cons_self, hd⟩
  rw [hlast]
  obtain ⟨c₀, hc₀, hv⟩ := hv
  rcases List.mem_cons.1 hc₀ with rfl | hc₀
  · exact hv.fixed hrun
  · exact (hold stack c ⟨c₀, hc₀, hv⟩).trans (settled hrun).whole

/-- A name that no program can write is in each frame what it was when the frame was made. -/
theorem Reached.fixed {log : Log} (h : Reached log) {name : String} (hn : ¬Name.Plain name)
    {stack : List Config} {c : Config} (hv : log.Visited stack c) :
    Heap.Fixed name c.last.heap log.session.machine.heap := by
  induction h generalizing stack c with
  | start => obtain ⟨_, hc₀, -⟩ := hv; cases hc₀
  | @step log log' h hstep ih =>
    have hwrites {stack : List Config} {c : Config} (hv : log'.Visited stack c) :
        name ∉ c.task.writes := (h.step hstep).not_mem_writes hn hv
    cases hstep with
    | prepared hp =>
      obtain ⟨tree, r, -, -, -, rfl⟩ := Session.prepare_eq_ok hp
      exact ih hv
    | rejected hp =>
      obtain ⟨hm, -⟩ := Session.prepare_eq_error hp
      exact hm ▸ ih hv
    | @executed p fuel outcome s hp he =>
      have hlast := log.session.machine_evaluate (Eval.program fuel p.body)
      rw [show log.session.evaluate _ = (outcome, s) from he] at hlast
      exact Log.fixed_ran hlast (fun _ _ => ih) (fun _ _ => hwrites) hv
    | @evaluated p span e fuel outcome s hp hmem he =>
      have hlast := log.session.machine_evaluate (Eval.expr fuel e)
      rw [he, ← Eval.machineOf_discard] at hlast
      exact Log.fixed_ran hlast (fun _ _ => ih) (fun _ _ => hwrites) hv
    | @called f args span fuel outcome s hf hargs he =>
      have hlast := log.session.machine_evaluate (Eval.call fuel f args span)
      rw [he, ← Eval.machineOf_discard] at hlast
      exact Log.fixed_ran hlast (fun _ _ => ih) (fun _ _ => hwrites) hv

/-- So it is there in the end what it is wherever a task is begun. -/
theorem Reached.getIn?_eq {log : Log} (h : Reached log) {name : String} (hn : ¬Name.Plain name)
    {stack : List Config} {c : Config} (hv : log.Visited stack c) {g : FrameId}
    (hg : g.index < c.machine.heap.frames.size) :
    log.session.machine.heap.getIn? g name = c.machine.heap.getIn? g name := by
  have hsettled : Settles name c.eval c := settled fun stack' d hd => by
    obtain ⟨c₀, hc₀, hv⟩ := hv
    exact h.not_mem_writes hn ⟨c₀, hc₀, hv.trans hd⟩
  exact (hsettled.whole.trans (h.fixed hn hv)).same g hg

end Run

end Lox

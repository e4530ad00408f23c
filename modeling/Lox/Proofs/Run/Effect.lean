import Lox.Proofs.Run.World

/-!
# What the operations of a machine keep

Evaluations are put together from operations on the machine.  Each keeps it sound, and its value is
one that programs may come by:

    W.Sound m → W.Safe (Eval.lookup id name span) m fun v h => W.Ok h v         (lookup_safe)

The frames in which `this` and `super` are known are made here, for methods that are bound and for
the members of classes that have a superclass.
-/

namespace Lox.Run.World

open Lexical

variable {W : World} {m m' m'' : Machine} {α β : Type}

/-! ## Steps -/

theorem Step.refl (hm : W.Sound m) : W.Step m m := ⟨.refl _, rfl, rfl, hm⟩

theorem Step.trans (a : W.Step m m') (b : W.Step m' m'') : W.Step m m'' :=
  ⟨a.grown.trans b.grown, b.frame.trans a.frame, b.distances.trans a.distances, b.sound⟩

/-- A larger heap, as it should be. -/
theorem Step.heap (hm : W.Sound m) {h : Heap} (he : m.heap.Extends h)
    (hh : h.Holds (W.Ok h) (W.Method h)) : W.Step m { m with heap := h } :=
  ⟨he, rfl, rfl, ⟨hm.knows, hh, Nat.lt_of_lt_of_le hm.globals he.size⟩⟩

/-- What the heap of a sound machine holds is all right in a larger heap. -/
theorem Sound.later (hm : W.Sound m) {h : Heap} (he : m.heap.Extends h) :
    m.heap.Holds (W.Ok h) (W.Method h) :=
  (Later.of_extends he).holds hm.heap

/-! ## Sequences -/

namespace Safe

variable {x : Eval α} {f : α → Eval β} {Q Q' : α → Heap → Prop} {R : β → Heap → Prop}

theorem of_ok (hx : W.Safe x m Q) {a : α} (h : x m = .ok a m') :
    W.Step m m' ∧ Q a m'.heap := by
  unfold Safe at hx
  rwa [h] at hx

theorem of_error (hx : W.Safe x m Q) {e : Stop} (h : x m = .error e m') : W.Step m m' := by
  unfold Safe at hx
  rwa [h] at hx

theorem pure {a : α} (hm : W.Sound m) (ha : Q a m.heap) : W.Safe (pure a) m Q :=
  ⟨.refl hm, ha⟩

theorem throw {e : Stop} (hm : W.Sound m) : W.Safe (throw e) m Q := Step.refl hm

theorem fail {span : Span} {kind : RuntimeErrorKind} (hm : W.Sound m) :
    W.Safe (Eval.fail span kind) m Q := Step.refl hm

theorem bind (hx : W.Safe x m Q)
    (hf : ∀ a m', x m = .ok a m' → W.Step m m' → Q a m'.heap → W.Safe (f a) m' R) :
    W.Safe (x >>= f) m R := by
  unfold Safe
  cases h : x m with
  | error e m' =>
    rw [EStateM.bind_of_error h]
    exact hx.of_error h
  | ok a m' =>
    rw [EStateM.bind_of_ok h]
    obtain ⟨hs, hq⟩ := hx.of_ok h
    have hy := hf a m' h hs hq
    cases hfa : f a m' with
    | error e m'' => exact hs.trans (hy.of_error hfa)
    | ok b m'' =>
      obtain ⟨hs', hr⟩ := hy.of_ok hfa
      exact ⟨hs.trans hs', hr⟩

theorem mono (hx : W.Safe x m Q)
    (hq : ∀ a m', x m = .ok a m' → W.Step m m' → Q a m'.heap → Q' a m'.heap) : W.Safe x m Q' := by
  unfold Safe
  cases h : x m with
  | error e m' => exact hx.of_error h
  | ok a m' =>
    obtain ⟨hs, ha⟩ := hx.of_ok h
    exact ⟨hs, hq a m' h hs ha⟩

theorem map (hx : W.Safe x m Q) {g : α → β}
    (hq : ∀ a m', x m = .ok a m' → W.Step m m' → Q a m'.heap → R (g a) m'.heap) :
    W.Safe (g <$> x) m R := by
  rw [map_eq_pure_bind]
  exact hx.bind fun a m' h hs ha => .pure hs.sound (hq a m' h hs ha)

theorem discard (hx : W.Safe x m Q) {R : Heap → Prop}
    (hq : ∀ a m', x m = .ok a m' → W.Step m m' → Q a m'.heap → R m'.heap) :
    W.Safe (discard x) m fun _ h => R h := hx.map hq

theorem get {k : Machine → Eval β} (hk : W.Safe (k m) m R) : W.Safe (get >>= k) m R := hk

/-- What comes behind a check is only run if the check has been passed. -/
theorem guarded {p : Prop} [Decidable p] {span : Span} {kind : RuntimeErrorKind} (hm : W.Sound m)
    (hx : ¬p → W.Safe x m Q) :
    W.Safe (if p then Eval.fail span kind >>= fun _ : PUnit => x else x) m Q := by
  split
  · exact (fail (α := PUnit) (Q := fun _ _ => True) hm).bind fun _ _ h _ _ => by cases h
  · next hp => exact hx hp

theorem located {span : Span} {r : Except RuntimeErrorKind α} (hm : W.Sound m)
    (ha : ∀ a, r = .ok a → Q a m.heap) : W.Safe (Eval.located span r) m Q := by
  cases r with
  | ok a => exact .pure hm (ha a rfl)
  | error kind => exact .fail hm

theorem make {f : Heap → α × Heap} (hm : W.Sound m) (he : m.heap.Extends (f m.heap).2)
    (hh : (f m.heap).2.Holds (W.Ok (f m.heap).2) (W.Method (f m.heap).2))
    (hq : Q (f m.heap).1 (f m.heap).2) : W.Safe (Eval.make f) m Q :=
  ⟨.heap hm he hh, hq⟩

theorem change {f : Heap → Heap} (hm : W.Sound m) (he : m.heap.Extends (f m.heap))
    (hh : (f m.heap).Holds (W.Ok (f m.heap)) (W.Method (f m.heap))) {Q : Unit → Heap → Prop}
    (hq : Q () (f m.heap)) : W.Safe (Eval.change f) m Q :=
  ⟨.heap hm he hh, hq⟩

/-- The frame around what runs in a frame of its own is the current one again. -/
theorem inFrame {g : FrameId} (hx : W.Safe x { m with frame := g } Q) :
    W.Safe (Eval.inFrame g x) m Q := by
  unfold Safe Eval.inFrame
  cases h : x { m with frame := g } with
  | ok a m' =>
    obtain ⟨hs, hq⟩ := hx.of_ok h
    exact ⟨⟨hs.grown, rfl, hs.distances, hs.sound.knows, hs.sound.heap,
      hs.sound.globals⟩, hq⟩
  | error e m' =>
    have hs := hx.of_error h
    exact ⟨hs.grown, rfl, hs.distances, hs.sound.knows, hs.sound.heap,
      hs.sound.globals⟩

end Safe

/-! ## Variables -/

theorem lookup_ok (hm : W.Sound m) {id : ExprId} {name : String} {v : Value}
    (h : m.lookup id name = .ok v) : W.Ok m.heap v := by
  obtain ⟨g, hv⟩ := Machine.exists_getIn?_of_lookup h
  exact hm.heap.bindings g name v hv

theorem lookup_safe (hm : W.Sound m) (id : ExprId) (name : String) (span : Span) :
    W.Safe (Eval.lookup id name span) m fun v h => W.Ok h v :=
  Safe.get (.located hm fun _ hv => lookup_ok hm hv)

/-- A variable that a program can name is given a value. -/
theorem define_step (hm : W.Sound m) (f : FrameId) {name : String} (hn : Name.Plain name)
    {v : Value} (hv : W.Ok (m.heap.define f name v) v) :
    W.Step m { m with heap := m.heap.define f name v } :=
  .heap hm (m.heap.extends_define f name v)
    ((hm.later (m.heap.extends_define f name v)).define f hv fun h => absurd h hn.ne_super)

theorem define_safe (hm : W.Sound m) {name : String} (hn : Name.Plain name) {v : Value}
    (hv : W.Ok m.heap v) :
    W.Safe (Eval.define name v) m fun _ h => h = m.heap.define m.frame name v :=
  ⟨define_step hm m.frame hn (hv.mono (m.heap.extends_define _ _ _)), rfl⟩

theorem assigned_safe {name : Identifier} {write : Machine → Bool × Heap}
    (h : W.Step m { m with heap := (write m).2 }) :
    W.Safe (Eval.assigned name write) m fun _ _ => True := by
  have hw : W.Safe (modifyGet fun m => ((write m).1, { m with heap := (write m).2 })) m
      fun _ _ => True := ⟨h, trivial⟩
  refine hw.bind fun found m' _ hs _ => ?_
  cases found with
  | false => exact .fail hs.sound
  | true => exact .pure hs.sound trivial

theorem assign_safe (hm : W.Sound m) (id : ExprId) {name : Identifier} (hn : name.Plain)
    {v : Value} (hv : W.Ok m.heap v) :
    W.Safe (Eval.assign id name v) m fun _ _ => True := by
  refine assigned_safe ?_
  cases m.distances[id]? with
  | some hops =>
    have he := m.heap.extends_assignAt hops m.frame name.name v
    exact .heap hm he ((hm.later he).assignAt _ _ (hv.mono he) fun h => absurd h hn.ne_super)
  | none =>
    have he := m.heap.extends_assign Heap.globals name.name v
    exact .heap hm he ((hm.later he).assign _ (hv.mono he) fun h => absurd h hn.ne_super)

theorem assignNearest_safe (hm : W.Sound m) {name : Identifier} (hn : name.Plain)
    {v : Value} (hv : W.Ok m.heap v) :
    W.Safe (Eval.assignNearest name v) m fun _ _ => True := by
  have he := m.heap.extends_assign m.frame name.name v
  exact assigned_safe
    (.heap hm he ((hm.later he).assign _ (hv.mono he) fun h => absurd h hn.ne_super))

/-! ## Operators, output, natives and arrays -/

theorem ok_of_binary {op : BinaryOp} {a b v : Value} {h : Heap} (hv : op.apply a b = .ok v) :
    W.Ok h v := by
  obtain ⟨l, rfl⟩ := BinaryOp.exists_ofLiteral hv
  exact ok_ofLiteral l

theorem ok_of_unary {op : UnaryOp} {a v : Value} {h : Heap} (hv : op.apply a = .ok v) :
    W.Ok h v := by
  obtain ⟨l, rfl⟩ := UnaryOp.exists_ofLiteral hv
  exact ok_ofLiteral l

theorem printLine_safe (hm : W.Sound m) (text : String) (span : Span) :
    W.Safe (Eval.printLine text span) m fun _ _ => True := by
  have hs : ∀ output, W.Step m { m with output := output } := fun output =>
    ⟨.refl _, rfl, rfl, hm.knows, hm.heap, hm.globals⟩
  unfold Safe Eval.printLine
  obtain ⟨all, output⟩ := m.output.write (text ++ "\n")
  cases all with
  | true => exact ⟨hs output, trivial⟩
  | false => exact hs output

theorem newArray_safe (hm : W.Sound m) {vs : List Value} (hvs : ∀ v ∈ vs, W.Ok m.heap v) :
    W.Safe (Eval.make (·.newArray vs)) m fun _ _ => True := by
  have he : m.heap.Extends (m.heap.newArray vs).2 := .of_frames_eq rfl
  exact .make hm he ((hm.later he).newArray fun v hv => (hvs v hv).mono he) trivial

theorem callNative_safe (hm : W.Sound m) (f : Native) {args : List Value}
    (ha : ∀ v ∈ args, W.Ok m.heap v) (span : Span) :
    W.Safe (Eval.callNative f args span) m fun v h => W.Ok h v := by
  unfold Eval.callNative
  split
  · exact ⟨⟨.refl _, rfl, rfl, hm.knows, hm.heap, hm.globals⟩, .of_ne fun _ => Value.noConfusion⟩
  · exact Safe.get (.pure hm (.of_ne fun _ => Value.noConfusion))
  · next a v =>
    have he : m.heap.Extends (m.heap.pushElement a v) := .of_frames_eq rfl
    have hv := ha v (by simp)
    refine Safe.bind (Q := fun _ _ => True)
      (.change hm he ((hm.later he).pushElement a (hv.mono he)) trivial) fun _ _ _ hs _ => ?_
    exact .pure hs.sound (.of_ne fun _ => Value.noConfusion)
  · exact .fail hm
  · exact Safe.get (.pure hm (.of_ne fun _ => Value.noConfusion))
  · exact .fail hm
  · exact .fail hm

theorem elementAt_safe (hm : W.Sound m) (array position : Value) (span : Span) :
    W.Safe (Eval.elementAt array position span) m fun _ _ => True := by
  unfold Eval.elementAt
  split
  · refine Safe.get (Safe.bind (Q := fun _ _ => True) (.located hm fun _ _ => trivial) ?_)
    exact fun _ _ _ hs _ => .pure hs.sound trivial
  · exact .fail hm

theorem element_safe (hm : W.Sound m) (array position : Value) (span : Span) :
    W.Safe (Eval.element array position span) m fun v h => W.Ok h v := by
  refine (elementAt_safe hm array position span).bind fun ⟨a, i⟩ m' _ hs _ => ?_
  show W.Safe (get >>= _) m' _
  refine Safe.get ?_
  cases hv : (m'.heap.elements a)[i]? with
  | some v => exact .pure hs.sound (hs.sound.heap.mem_elements (Array.mem_of_getElem? hv))
  | none => exact .fail hs.sound

theorem setElement_safe (hm : W.Sound m) (array position : Value) {v : Value}
    (hv : W.Ok m.heap v) (span : Span) :
    W.Safe (Eval.setElement array position v span) m fun _ _ => True := by
  refine (elementAt_safe hm array position span).bind fun ⟨a, i⟩ m' _ hs _ => ?_
  have he : m'.heap.Extends (m'.heap.setElement a i v) := .of_frames_eq rfl
  exact Safe.change hs.sound he
    ((hs.sound.later he).setElement a i (hv.mono (hs.grown.trans he))) trivial

/-! ## Members -/

theorem make_eq_ok {f : Heap → α × Heap} {a : α} :
    Eval.make f m = .ok a m' ↔ a = (f m.heap).1 ∧ m' = { m with heap := (f m.heap).2 } := by
  constructor
  · rintro ⟨⟩; exact ⟨rfl, rfl⟩
  · rintro ⟨rfl, rfl⟩; rfl

theorem newInstance_step (hm : W.Sound m) (c : ClassId) :
    W.Step m { m with heap := (m.heap.newInstance c).2 } := by
  have he : m.heap.Extends (m.heap.newInstance c).2 := .of_frames_eq rfl
  exact .heap hm he ((hm.later he).newInstance c)

/-- Binding a method makes the frame in which `this` is known to it. -/
theorem bind_safe {n : Nat} {f : Closure} {receiver : Value}
    (hc : W.Covers ⟨n, .bind f receiver, m⟩) (hm : W.Sound m) (hf : W.Method m.heap f)
    (hr : W.Ok m.heap receiver) :
    W.Safe (Eval.make (·.bind f receiver)) m fun g h =>
      W.Callable h g ∧ g.function = f.function := by
  obtain ⟨π, hp, hchain⟩ := hf
  have he := m.heap.extends_newFrame f.frame (.ofPairs [(Name.this, receiver)])
  have hthis : ∀ v ∈ [(Name.this, receiver)], W.Ok (m.heap.newFrame f.frame
      (.ofPairs [(Name.this, receiver)])).2 v.2 := by
    intro v hv
    cases List.mem_singleton.1 hv
    exact hr.mono he
  have hheap := (hm.later he).newFrame f.frame (.ofPairs hthis) fun v hv => by cases hv
  have he' : (m.heap.newFrame f.frame (.ofPairs [(Name.this, receiver)])).2.Extends
      (m.heap.bind f receiver).2 := .of_frames_eq rfl
  refine .make hm (he.trans he') ?_ ⟨⟨π.inReceiver f.function, hp, ?_⟩, rfl⟩
  · exact ((Later.of_extends he').holds hheap).withClosures _
  · refine (hchain.newFrame (hc.made rfl) fun name hn => ?_).mono he'
    cases List.mem_singleton.1 hn
    rfl

theorem property_safe {n : Nat} {target : Value} {name : Identifier}
    (hc : ∀ i f, target = .object i → m.heap.member? i name.name = some (.method f) →
      W.Covers ⟨n, .bind f target, m⟩)
    (hm : W.Sound m) : W.Safe (Eval.property target name) m fun v h => W.Ok h v := by
  unfold Eval.property
  split
  · next i =>
    refine Safe.get ?_
    cases hv : m.heap.member? i name.name with
    | none => exact .fail hm
    | some member =>
      cases member with
      | field v => exact .pure hm (hm.heap.field hv)
      | method f =>
        have hbound := bind_safe (hc i f rfl hv) hm (hm.heap.method hv)
          (.of_ne fun _ => Value.noConfusion)
        exact hbound.bind fun g m' _ hs hg => .pure hs.sound (ok_function_iff.2 hg.1)
  · next c =>
    refine Safe.get ?_
    cases hv : m.heap.static? c name.name with
    | none => exact .fail hm
    | some v => exact .pure hm (hm.heap.static? hv)
  · exact .fail hm

theorem setProperty_safe (hm : W.Sound m) (target : Value) (name : Identifier) {v : Value}
    (hv : W.Ok m.heap v) : W.Safe (Eval.setProperty target name v) m fun _ _ => True := by
  unfold Eval.setProperty
  split
  · next i =>
    have he : m.heap.Extends (m.heap.setField i name.name v) := .of_frames_eq rfl
    exact .change hm he ((hm.later he).setField i (hv.mono he)) trivial
  · next c =>
    have he : m.heap.Extends (m.heap.setStatic c name.name v) := .of_frames_eq rfl
    exact .change hm he ((hm.later he).setStatic c (hv.mono he)) trivial
  · exact .fail hm

theorem receiver?_eq_some {hops : Nat} {v : Value} (h : Eval.receiver? m hops = some v) :
    ∃ i, v = .object i := by
  cases hops with
  | zero => cases h
  | succ hops =>
    rw [Eval.receiver?] at h
    split at h
    · cases h; exact ⟨_, rfl⟩
    · cases h

theorem superProperty_safe {n : Nat} {id : ExprId} {name : Identifier} {span : Span}
    (hc : ∀ hops c receiver f, m.distances[id]? = some hops →
      m.heap.getAt? hops m.frame Name.super = some (.klass c) →
      Eval.receiver? m hops = some receiver → m.heap.method? c name.name = some f →
      W.Covers ⟨n, .bind f receiver, m⟩)
    (hm : W.Sound m) : W.Safe (Eval.superProperty id name span) m fun v h => W.Ok h v := by
  have hstatic (c : ClassId) {x : Eval Value}
      (hsome : ∀ v, m.heap.static? c name.name = some v → x = pure v)
      (hnone : m.heap.static? c name.name = none →
        x = Eval.fail name.span (.undefinedProperty name.name)) :
      W.Safe x m fun v h => W.Ok h v := by
    cases hv : m.heap.static? c name.name with
    | none => rw [hnone hv]; exact .fail hm
    | some v => rw [hsome v hv]; exact .pure hm (hm.heap.static? hv)
  refine Safe.get ?_
  cases hd : m.distances[id]? with
  | none => exact .fail hm
  | some hops =>
    cases hv : m.heap.getAt? hops m.frame Name.super with
    | none => simp only [hv]; exact .fail hm
    | some v =>
      cases v with
      | klass c =>
        simp only [hv]
        cases hr : Eval.receiver? m hops with
        | none => exact hstatic c (fun v hs => by rw [hs]) fun hs => by rw [hs]
        | some receiver =>
          cases hf : m.heap.method? c name.name with
          | none => exact hstatic c (fun v hs => by rw [hs]) fun hs => by rw [hs]
          | some f =>
            obtain ⟨i, rfl⟩ := receiver?_eq_some hr
            have hbound := bind_safe (hc hops c _ f hd hv hr hf) hm (hm.heap.method? hf)
              (.of_ne fun _ => Value.noConfusion)
            exact hbound.bind fun g m' _ hs hg => .pure hs.sound (ok_function_iff.2 hg.1)
      | _ => simp only [hv]; exact .fail hm

/-! ## Functions -/

theorem closure_safe (hm : W.Sound m) {f : Function} {π : Lexical.Place}
    (hp : W.Part π (.function .function f)) (hc : W.Chain m.heap π.openings m.frame) :
    W.Safe (Eval.closure f .function) m fun g h => W.Callable h g := by
  have he : m.heap.Extends (m.heap.newClosure f m.frame .function).2 := .of_frames_eq rfl
  exact Safe.get (.make hm he ((hm.later he).withClosures _) ⟨π, hp, hc.mono he⟩)

/-- A function that is declared has its own name in its frame when it can be called. -/
theorem defineFunction_safe (hm : W.Sound m) {f : Function} {π : Lexical.Place} (hn : f.name.Plain)
    (hp : W.Part (π.declare f.name.name) (.function .function f))
    (hc : W.Chain m.heap π.openings m.frame) :
    W.Safe (do Eval.define f.name.name (.function (← Eval.closure f .function))) m fun _ h =>
      W.Chain h (π.declare f.name.name).openings m.frame := by
  have he : m.heap.Extends (m.heap.newClosure f m.frame .function).2 := .of_frames_eq rfl
  have hchain := (hc.mono he).define f.name.name
    (.function (m.heap.newClosure f m.frame .function).1)
  have hs : W.Step m { m with heap := (m.heap.newClosure f m.frame .function).2 } :=
    .heap hm he ((hm.later he).withClosures _)
  exact ⟨hs.trans (define_step hs.sound m.frame hn (ok_function_iff.2 ⟨_, hp, hchain⟩)), hchain⟩

theorem newClosures_safe (hm : W.Sound m) (frame : FrameId) (kind : Function → FunctionKind)
    (fs : List Function) :
    W.Safe (Eval.make (·.newClosures frame kind fs)) m fun t _ =>
      t.All fun c => c.function ∈ fs ∧ c.frame = frame ∧ c.kind = kind c.function := by
  obtain ⟨t, k, hk, ht⟩ := m.heap.exists_newClosures frame kind fs
  have he : m.heap.Extends (m.heap.newClosures frame kind fs).2 := .of_frames_eq (by rw [hk])
  have hh := (hm.later he).withClosures k
  refine .make hm he ?_ ?_
  · rw [hk] at hh ⊢
    exact hh
  · rw [hk]
    exact ht

variable {h : Heap} {frame : FrameId} {π : Lexical.Place} {fs : List Function} {t : Table Closure}

theorem methods_all (hp : ∀ f ∈ fs, W.Part (π.inReceiver f) (.function (methodContext f) f))
    (hc : W.Chain h π.openings frame)
    (ht : t.All fun c => c.function ∈ fs ∧ c.frame = frame ∧ c.kind = Eval.methodKind c.function) :
    t.All (W.Method h) := by
  refine ht.mono fun c ⟨hf, hframe, hkind⟩ => ⟨π, ?_, hframe ▸ hc⟩
  rw [hkind, contextOf_methodKind]
  exact hp _ hf

theorem statics_all (hp : ∀ f ∈ fs, W.Part π (.function .staticMethod f))
    (hc : W.Chain h π.openings frame)
    (ht : t.All fun c => c.function ∈ fs ∧ c.frame = frame ∧ c.kind = .staticMethod) :
    t.All fun f => W.Ok h (.function f) := by
  refine ht.mono fun c ⟨hf, hframe, hkind⟩ => ok_function_iff.2 ⟨π, ?_, hframe ▸ hc⟩
  rw [hkind]
  exact hp _ hf

/-! ## Classes and traits -/

theorem superclassOf_safe (hm : W.Sound m) (r : Reference) :
    W.Safe (Eval.superclassOf r) m fun _ _ => True := by
  refine (lookup_safe hm r.id r.name.name r.name.span).bind fun v m' _ hs _ => ?_
  cases v with
  | klass c => exact .pure hs.sound trivial
  | _ => exact .fail hs.sound

theorem traitOf_safe (hm : W.Sound m) (r : Reference) :
    W.Safe (Eval.traitOf r) m fun _ _ => True := by
  refine (lookup_safe hm r.id r.name.name r.name.span).bind fun v m' _ hs _ => ?_
  cases v with
  | trait t => exact .pure hs.sound trivial
  | _ => exact .fail hs.sound

theorem traitsOf_safe (hm : W.Sound m) (rs : List Reference) :
    W.Safe (rs.mapM Eval.traitOf) m fun _ _ => True := by
  induction rs generalizing m with
  | nil => exact .pure hm trivial
  | cons r rs ih =>
    rw [List.mapM_cons]
    refine (traitOf_safe hm r).bind fun t m' _ hs _ => ?_
    exact (ih hs.sound).bind fun ts m'' _ hs' _ => .pure hs'.sound trivial

/-- Looking up the superclass and the traits of a class, its name is known. -/
theorem classHeader_safe (hm : W.Sound m) {name : Identifier} (hn : name.Plain)
    (superclass : Option Reference) (traits : List Reference)
    (hc : W.Chain m.heap π.openings m.frame) :
    W.Safe (Eval.classHeader name superclass traits) m fun found h =>
      found.1.isSome = superclass.isSome ∧ W.Chain h (π.declare name.name).openings m.frame := by
  have hnil : W.Ok m.heap .nil := .of_ne fun _ => Value.noConfusion
  refine (define_safe hm hn hnil).bind fun _ m₁ _ hs₁ hh₁ => ?_
  have hc₁ := hc.define name.name .nil
  rw [← hh₁] at hc₁
  have hfound : W.Safe (Eval.namedSuperclass superclass) m₁ fun c _ =>
      c.isSome = superclass.isSome := by
    cases superclass with
    | none => exact .pure hs₁.sound rfl
    | some r => exact (superclassOf_safe hs₁.sound r).map fun _ _ _ _ _ => rfl
  refine hfound.bind fun c m₂ _ hs₂ hc₂ => ?_
  refine (traitsOf_safe hs₂.sound traits).bind fun ts m₃ _ hs₃ _ => ?_
  exact .pure hs₃.sound ⟨hc₂, hc₁.mono (hs₂.trans hs₃).grown⟩

/-- The members of a class are made in the frame of its place. -/
theorem classFrame_safe (hm : W.Sound m) {s : Stmt} {name : Identifier}
    {superclass : Option Reference} {found : Option ClassId}
    (hf : found.isSome = superclass.isSome)
    (hc : W.Chain m.heap (π.declare name.name).openings m.frame)
    (hmade : superclass.isSome → W.Made m.heap (.stmt s) ⟨m.heap.frames.size⟩ m.frame) :
    W.Safe (Eval.classFrame found) m fun g h =>
      W.Chain h (π.inClass s name superclass).openings g := by
  cases superclass with
  | none =>
    cases found with
    | some c => cases hf
    | none => exact Safe.get (.pure hm hc)
  | some r =>
    cases found with
    | none => cases hf
    | some c =>
      have he := m.heap.extends_newFrame m.frame (.ofPairs [(Name.super, .klass c)])
      refine Safe.get (.make hm he ?_ (hc.newFrame (hmade rfl) fun name hn => ?_))
      · refine (hm.later he).newFrame m.frame (.ofPairs fun v hv => ?_) fun v hv => ?_
        · cases List.mem_singleton.1 hv
          exact .of_ne fun _ => Value.noConfusion
        · exact ⟨c, (Option.some.inj hv).symm⟩
      · cases List.mem_singleton.1 hn
        rfl

theorem classMembers_safe (hm : W.Sound m) {name : Identifier} (hn : name.Plain)
    (superclass : Option ClassId) (traits : List TraitId) {methods statics : List Function}
    (hmethods : ∀ f ∈ methods, W.Part (π.inReceiver f) (.function (methodContext f) f))
    (hstatics : ∀ f ∈ statics, W.Part π (.function .staticMethod f))
    (hc : W.Chain m.heap π.openings frame) :
    W.Safe (Eval.classMembers name superclass traits methods statics frame) m fun _ _ => True := by
  refine (newClosures_safe hm frame _ methods).bind fun ms m₁ _ hs₁ hms => ?_
  refine (newClosures_safe hs₁.sound frame _ statics).bind fun ss m₂ _ hs₂ hss => ?_
  have hs := hs₁.trans hs₂
  have hm₂ := hs₂.sound.heap
  have he : m₂.heap.Extends (m₂.heap.newClass ⟨name.name, superclass,
      m₂.heap.compose traits Trait.methods ms, m₂.heap.compose traits Trait.statics ss, ∅⟩).2 :=
    .of_frames_eq rfl
  have hlater := hs₂.sound.later he
  have hc₂ := hc.mono (hs.grown.trans he)
  refine Safe.bind (Q := fun _ _ => True) (.make hs₂.sound he (hlater.newClass ⟨?_, ?_, .empty⟩)
    trivial) fun c m₃ _ hs₃ _ => ?_
  · exact Heap.all_compose (fun k hk => (hlater.traits k hk).methods) (methods_all hmethods hc₂ hms)
  · exact Heap.all_compose (fun k hk => (hlater.traits k hk).statics) (statics_all hstatics hc₂ hss)
  · exact assignNearest_safe hs₃.sound hn (.of_ne fun _ => Value.noConfusion)

/-- The name of a trait is in its frame when its members can be called. -/
theorem declareTrait_safe (hm : W.Sound m) {name : Identifier} (hn : name.Plain)
    {methods statics : List Function}
    (hmethods : ∀ f ∈ methods,
      W.Part ((π.inTrait name).inReceiver f) (.function (methodContext f) f))
    (hstatics : ∀ f ∈ statics, W.Part (π.inTrait name) (.function .staticMethod f))
    (hc : W.Chain m.heap π.openings m.frame) :
    W.Safe (Eval.declareTrait name methods statics) m fun _ h =>
      W.Chain h (π.declare name.name).openings m.frame := by
  obtain ⟨ms, k₁, hk₁, hms⟩ := m.heap.exists_newClosures m.frame Eval.methodKind methods
  obtain ⟨ss, k₂, hk₂, hss⟩ := { m.heap with closures := k₁ }.exists_newClosures m.frame
    (fun _ => .staticMethod) statics
  have hrun : Eval.declareTrait name methods statics m = .ok () { m with
      heap := ({ m.heap with closures := k₂ }.newTrait ⟨name.name, ms, ss⟩).2.define m.frame
        name.name (.trait ⟨m.heap.traits.size⟩) } := by
    have h₁ : Eval.make (·.newClosures m.frame Eval.methodKind methods) m =
        .ok ms { m with heap := { m.heap with closures := k₁ } } := make_eq_ok.2 (by simp [hk₁])
    rw [Eval.declareTrait, EStateM.get_bind_apply, EStateM.bind_of_ok h₁,
      EStateM.bind_of_ok (make_eq_ok.2 ⟨(congrArg Prod.fst hk₂).symm, rfl⟩), hk₂]
    rfl
  -- the name is defined first and the trait made then, which comes to the same
  have hd : W.Step m { m with heap := m.heap.define m.frame name.name (.trait ⟨m.heap.traits.size⟩) } :=
    define_step hm m.frame hn (.of_ne fun _ => Value.noConfusion)
  have hc' := hc.define name.name (.trait ⟨m.heap.traits.size⟩)
  have he : (m.heap.define m.frame name.name (.trait ⟨m.heap.traits.size⟩)).Extends
      (({ m.heap with closures := k₂ }.newTrait ⟨name.name, ms, ss⟩).2.define m.frame
        name.name (.trait ⟨m.heap.traits.size⟩)) := .of_frames_eq rfl
  have hs := hd.trans (.heap hd.sound he
    (((hd.sound.later he).newTrait ⟨methods_all hmethods (hc'.mono he) hms,
      statics_all hstatics (hc'.mono he) hss⟩).withClosures k₂))
  unfold Safe
  rw [hrun]
  exact ⟨hs, hc'.mono he⟩

end Lox.Run.World

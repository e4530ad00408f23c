import Lox.Proofs.Alike.Heap
import Lox.Proofs.Run.Task

/-!
# Runs that are alike

On machines that are alike, trees that are alike do the same: they end alike, in a value, in a
signal or in an error of the same kind, and leave machines that are alike, with the same output.
What the machines know of the names decides which identities are alike: those that stand for a local
at the same distance, or for no local both.

    s.Alike L s' → Agree L (Signal.Alike L) (stmt fuel s) (stmt fuel s')           (AgreeAt.stmt)
-/

namespace Lox

variable {L L' : Likeness} {α β α' β' : Type}

/-! ## Machines and results -/

structure Machine.Alike (L : Likeness) (m m' : Machine) : Prop where
  heap : m.heap.Alike L m'.heap
  frame : m.frame = m'.frame
  distances : ∀ id id', L.id id id' → m'.distances[id']? = m.distances[id]?
  output : m.output = m'.output
  time : m.time = m'.time

/-- Errors of one kind, in places that are alike. -/
structure RuntimeError.Alike (L : Likeness) (e e' : RuntimeError) : Prop where
  span : L.span e.span e'.span
  kind : e.kind = e'.kind

inductive Stop.Alike (L : Likeness) : Stop → Stop → Prop
  | error {e e' : RuntimeError} : e.Alike L e' → Stop.Alike L (.error e) (.error e')
  | outOfFuel : Stop.Alike L .outOfFuel .outOfFuel

inductive Signal.Alike (L : Likeness) : Signal → Signal → Prop
  | next : Signal.Alike L .next .next
  | break : Signal.Alike L .break .break
  | continue : Signal.Alike L .continue .continue
  | return {v v' : Value} : v.Alike L v' → Signal.Alike L (.return v) (.return v')

/-- Both end well with related results, or both are stopped by the same. -/
inductive Run.Ends (L : Likeness) (R : α → α' → Prop) :
    EStateM.Result Stop Machine α → EStateM.Result Stop Machine α' → Prop
  | ok {a : α} {a' : α'} {m m' : Machine} : R a a' → m.Alike L m' → Ends L R (.ok a m) (.ok a' m')
  | error {stop stop' : Stop} {m m' : Machine} : stop.Alike L stop' → m.Alike L m' →
      Ends L R (.error stop m) (.error stop' m')

/-- Related results of an operation, or one error. -/
inductive Run.Answers (R : α → α' → Prop) : Operation α → Operation α' → Prop
  | ok {a : α} {a' : α'} : R a a' → Answers R (.ok a) (.ok a')
  | error (kind : RuntimeErrorKind) : Answers R (.error kind) (.error kind)

theorem Machine.Alike.lookup {m m' : Machine} (hm : m.Alike L m') {id id' : ExprId}
    (hid : L.id id id') (name : String) :
    Run.Answers (Value.Alike L) (m.lookup id name) (m'.lookup id' name) := by
  unfold Machine.lookup
  rw [hm.distances id id' hid, ← hm.frame]
  cases m.distances[id]? with
  | none =>
    have hv := hm.heap.get? Heap.globals name
    dsimp only
    generalize m.heap.get? Heap.globals name = o at hv
    generalize m'.heap.get? Heap.globals name = o' at hv
    cases hv with
    | none => exact .error _
    | some hv => exact .ok hv
  | some hops =>
    have hv := hm.heap.getAt? hops m.frame name
    dsimp only
    generalize m.heap.getAt? hops m.frame name = o at hv
    generalize m'.heap.getAt? hops m.frame name = o' at hv
    cases hv with
    | none => exact .error _
    | some hv => exact .ok hv

namespace Eval

open Run

/-- From machines that are alike, both end alike. -/
def Agree (L : Likeness) (R : α → α' → Prop) (x : Eval α) (x' : Eval α') : Prop :=
  ∀ m m', m.Alike L m' → Ends L R (x m) (x' m')

namespace Agree

variable {R : α → α' → Prop} {S : β → β' → Prop} {x : Eval α} {x' : Eval α'}
  {f : α → Eval β} {f' : α' → Eval β'}

theorem pure {a : α} {a' : α'} (h : R a a') : Agree L R (Pure.pure a) (Pure.pure a') :=
  fun _ _ hm => .ok h hm

theorem throw {stop stop' : Stop} (h : stop.Alike L stop') :
    Agree L R (throw stop) (throw stop') := fun _ _ hm => .error h hm

theorem get : Agree L (Machine.Alike L) get get := fun _ _ hm => .ok hm hm

theorem bind (hx : Agree L R x x') (hf : ∀ a a', R a a' → Agree L S (f a) (f' a')) :
    Agree L S (x >>= f) (x' >>= f') := by
  intro m m' hm
  have h := hx m m' hm
  generalize hr : x m = r at h
  generalize hr' : x' m' = r' at h
  cases h with
  | ok ha hm =>
    rw [EStateM.bind_of_ok hr, EStateM.bind_of_ok hr']
    exact hf _ _ ha _ _ hm
  | error hs hm =>
    rw [EStateM.bind_of_error hr, EStateM.bind_of_error hr']
    exact .error hs hm

theorem map (hx : Agree L R x x') {g : α → β} {g' : α' → β'}
    (hg : ∀ a a', R a a' → S (g a) (g' a')) :
    Agree L S (g <$> x) (g' <$> x') := by
  rw [map_eq_pure_bind, map_eq_pure_bind]
  exact hx.bind fun a a' ha => .pure (hg a a' ha)

theorem discard (hx : Agree L R x x') : Agree L Eq (discard x) (discard x') :=
  hx.map fun _ _ _ => rfl

theorem ite {p p' : Prop} [Decidable p] [Decidable p'] {y : Eval α} {y' : Eval α'} (hp : p ↔ p')
    (hx : Agree L R x x') (hy : Agree L R y y') :
    Agree L R (if p then x else y) (if p' then x' else y') := by
  by_cases h : p
  · rwa [if_pos h, if_pos (hp.1 h)]
  · rwa [if_neg h, if_neg fun h' => h (hp.2 h')]

theorem inFrame (frame : FrameId) (hx : Agree L R x x') :
    Agree L R (inFrame frame x) (inFrame frame x') := by
  intro m m' hm
  have h := hx { m with frame := frame } { m' with frame := frame } { hm with frame := rfl }
  unfold Eval.inFrame
  dsimp only
  generalize x { m with frame := frame } = r at h
  generalize x' { m' with frame := frame } = r' at h
  cases h with
  | ok ha hr => exact .ok ha { hr with frame := hm.frame }
  | error hs hr => exact .error hs { hr with frame := hm.frame }

end Agree

/-! ## Operations -/

variable {R : α → α → Prop}

theorem agree_fail {span span' : Span} (hspan : L.span span span') (kind : RuntimeErrorKind) :
    Agree L R (fail span kind) (fail span' kind) := .throw (.error ⟨hspan, rfl⟩)

theorem agree_outOfFuel : Agree L R outOfFuel outOfFuel := .throw .outOfFuel

theorem agree_located {span span' : Span} (hspan : L.span span span') {r r' : Operation α}
    (h : Answers R r r') : Agree L R (located span r) (located span' r') := by
  cases h with
  | ok ha => exact .pure ha
  | error kind => exact agree_fail hspan kind

theorem agree_make {g g' : Heap → α × Heap}
    (hg : ∀ h h' : Heap, h.Alike L h' → Heap.Made L R (g h) (g' h')) :
    Agree L R (make g) (make g') := by
  intro m m' hm
  obtain ⟨ha, hh⟩ := hg _ _ hm.heap
  exact .ok ha { hm with heap := hh }

theorem agree_change {g g' : Heap → Heap}
    (hg : ∀ h h' : Heap, h.Alike L h' → (g h).Alike L (g' h')) :
    Agree L Eq (change g) (change g') :=
  fun _ _ hm => .ok rfl { hm with heap := hg _ _ hm.heap }

theorem agree_define (name : String) {v v' : Value} (hv : v.Alike L v') :
    Agree L Eq (define name v) (define name v') := by
  intro m m' hm
  refine .ok rfl { hm with heap := ?_ }
  show (m.heap.define m.frame name v).Alike L (m'.heap.define m'.frame name v')
  rw [← hm.frame]
  exact hm.heap.define _ _ hv

theorem agree_lookup {id id' : ExprId} (hid : L.id id id') (name : String) {span span' : Span}
    (hspan : L.span span span') :
    Agree L (Value.Alike L) (lookup id name span) (lookup id' name span') :=
  Agree.get.bind fun _ _ hm => agree_located hspan (hm.lookup hid name)

theorem agree_assigned {name name' : Identifier} (hn : name.Alike L name')
    {write write' : Machine → Bool × Heap}
    (hw : ∀ m m', m.Alike L m' → Heap.Made L Eq (write m) (write' m')) :
    Agree L Eq (assigned name write) (assigned name' write') := by
  refine Agree.bind (R := Eq) (fun m m' hm => ?_) fun found found' hfound => ?_
  · exact .ok (hw m m' hm).1 { hm with heap := (hw m m' hm).2 }
  subst hfound
  cases found with
  | true => exact .pure rfl
  | false =>
    rw [← hn.name]
    exact agree_fail hn.span _

theorem agree_assign {id id' : ExprId} (hid : L.id id id') {name name' : Identifier}
    (hn : name.Alike L name') {v v' : Value} (hv : v.Alike L v') :
    Agree L Eq (assign id name v) (assign id' name' v') := by
  refine agree_assigned hn fun m m' hm => ?_
  rw [hm.distances id id' hid, ← hm.frame, ← hn.name]
  cases m.distances[id]? with
  | none => exact hm.heap.assign _ _ hv
  | some hops => exact hm.heap.assignAt _ _ _ hv

theorem agree_assignNearest {name name' : Identifier} (hn : name.Alike L name') {v v' : Value}
    (hv : v.Alike L v') : Agree L Eq (assignNearest name v) (assignNearest name' v') := by
  refine agree_assigned hn fun m m' hm => ?_
  rw [← hm.frame, ← hn.name]
  exact hm.heap.assign _ _ hv

theorem agree_printLine (text : String) {span span' : Span} (hspan : L.span span span') :
    Agree L Eq (printLine text span) (printLine text span') := by
  intro m m' hm
  unfold printLine
  rw [← hm.output]
  obtain ⟨all, output⟩ := m.output.write (text ++ "\n")
  cases all with
  | true => exact .ok rfl { hm with output := rfl }
  | false => exact .error (.error ⟨hspan, rfl⟩) { hm with output := rfl }

theorem agree_inNewFrame {R : α → α' → Prop} {x : Eval α} {x' : Eval α'} (hx : Agree L R x x') :
    Agree L R (inNewFrame x) (inNewFrame x') := by
  refine Agree.get.bind fun m m' hm => ?_
  rw [← hm.frame]
  refine (agree_make fun h h' hh => hh.newFrame m.frame .empty).bind fun frame frame' hframe => ?_
  subst hframe
  exact hx.inFrame frame

theorem agree_binary (op : BinaryOp) {span span' : Span} (hspan : L.span span span')
    {v v' w w' : Value} (hv : v.Alike L v') (hw : w.Alike L w') :
    Agree L (Value.Alike L) (located span (op.apply v w)) (located span' (op.apply v' w')) := by
  refine agree_located hspan ?_
  rw [op.apply_eq hv.like hw.like]
  cases h : op.apply v' w' with
  | ok r => exact .ok (.same (op.isFunction_apply h))
  | error kind => exact .error kind

theorem agree_unary (op : UnaryOp) {span span' : Span} (hspan : L.span span span') {v v' : Value}
    (hv : v.Alike L v') :
    Agree L (Value.Alike L) (located span (op.apply v)) (located span' (op.apply v')) := by
  refine agree_located hspan ?_
  rw [op.apply_eq hv.like]
  cases h : op.apply v' with
  | ok r => exact .ok (.same (op.isFunction_apply h))
  | error kind => exact .error kind

/-! ## Calls -/

/-- Natives tell functions apart only by what looks the same of them from outside. -/
theorem agree_callNative (f : Native) {args args' : List Value}
    (hargs : List.Forall₂ (Value.Alike L) args args') {span span' : Span}
    (hspan : L.span span span') :
    Agree L (Value.Alike L) (callNative f args span) (callNative f args' span') := by
  by_cases hlength : args.length = f.arity
  case neg =>
    rw [callNative_of_length_ne hlength, callNative_of_length_ne (hargs.length_eq ▸ hlength),
      hargs.length_eq]
    exact agree_fail hspan _
  cases f with
  | clock =>
    obtain rfl := List.eq_nil_of_length_eq_zero hlength
    cases hargs
    intro m m' hm
    refine .ok ?_ { hm with time := congrArg (fun time n => time (n + 1)) hm.time }
    rw [hm.time]
    exact .same rfl
  | str =>
    obtain ⟨v, rfl⟩ := List.length_eq_one_iff.1 hlength
    obtain - | ⟨hv, ⟨⟩⟩ := hargs
    refine Agree.get.bind fun m m' hm => ?_
    rw [hm.heap.text hv]
    exact .pure (.same rfl)
  | append =>
    obtain ⟨a, v, rfl⟩ := List.length_eq_two.1 hlength
    obtain - | ⟨ha, - | ⟨hv, ⟨⟩⟩⟩ := hargs
    cases ha with
    | function hf => exact agree_fail hspan _
    | same ha =>
      cases a with
      | array a =>
        exact (agree_change fun h h' hh => hh.pushElement a hv).bind fun _ _ _ =>
          .pure (.same rfl)
      | _ => exact agree_fail hspan _
  | len =>
    obtain ⟨a, rfl⟩ := List.length_eq_one_iff.1 hlength
    obtain - | ⟨ha, ⟨⟩⟩ := hargs
    cases ha with
    | function hf => exact agree_fail hspan _
    | same ha =>
      cases a with
      | array a =>
        refine Agree.get.bind fun m m' hm => ?_
        rw [(hm.heap.elements a).size_eq]
        exact .pure (.same rfl)
      | _ => exact agree_fail hspan _

section Calls

variable {apply apply' : Closure → List Value → Eval Value}
  (happly : ∀ f f' args args', Closure.Alike L f f' → List.Forall₂ (Value.Alike L) args args' →
    Agree L (Value.Alike L) (apply f args) (apply' f' args'))

include happly

theorem agree_instantiate (c : ClassId) {args args' : List Value}
    (hargs : List.Forall₂ (Value.Alike L) args args') :
    Agree L (Value.Alike L) (instantiate apply c args) (instantiate apply' c args') := by
  refine (agree_make fun h h' hh => hh.newInstance c).bind fun i i' hi => ?_
  subst hi
  refine Agree.get.bind fun m m' hm => ?_
  have hinit := hm.heap.method? c Name.init
  generalize m.heap.method? c Name.init = o at hinit
  generalize m'.heap.method? c Name.init = o' at hinit
  cases hinit with
  | none => exact .pure (.same rfl)
  | some hf =>
    refine (agree_make fun h h' hh => hh.bind hf (.same rfl)).bind fun f f' hf => ?_
    exact (happly _ _ _ _ hf hargs).discard.bind fun _ _ _ => .pure (.same rfl)

theorem agree_callValue {callee callee' : Value} (hcallee : callee.Alike L callee')
    {args args' : List Value} (hargs : List.Forall₂ (Value.Alike L) args args')
    {span span' : Span} (hspan : L.span span span') :
    Agree L (Value.Alike L) (callValue apply callee args span)
      (callValue apply' callee' args' span') := by
  refine Agree.get.bind fun m m' hm => ?_
  rw [hm.heap.arity?_eq hcallee, ← hargs.length_eq]
  cases m'.heap.arity? callee' with
  | none => exact agree_fail hspan _
  | some arity =>
    refine .ite Iff.rfl ((agree_fail (R := Eq) hspan _).bind fun _ _ _ => ?_) ?_
    all_goals
      cases hcallee with
      | function hf => exact happly _ _ _ _ hf hargs
      | same hv =>
        cases callee with
        | native f => exact agree_callNative f hargs hspan
        | klass c => exact agree_instantiate happly c hargs
        | function f => cases hv
        | _ => exact agree_fail hspan _

theorem agree_access {v v' : Value} (hv : v.Alike L v') :
    Agree L (Value.Alike L) (access apply v) (access apply' v') := by
  cases hv with
  | @function f f' hf =>
    unfold access
    dsimp only
    rw [hf.isGetter, hf.function.isEmpty, hf.function.returnsDirectly]
    exact .ite Iff.rfl
      (.ite Iff.rfl (agree_fail hf.function.name.span _)
        (.ite Iff.rfl (happly _ _ _ _ hf .nil) (agree_fail hf.function.name.span _)))
      (.pure (.function hf))
  | same hv =>
    cases v with
    | function f => cases hv
    | _ => exact .pure (.same rfl)

end Calls

/-! ## Members and elements -/

theorem agree_property {target target' : Value} (htarget : target.Alike L target')
    {name name' : Identifier} (hn : name.Alike L name') :
    Agree L (Value.Alike L) (property target name) (property target' name') := by
  cases htarget with
  | function hf => exact agree_fail hn.span _
  | same hv =>
    cases target with
    | object i =>
      refine Agree.get.bind fun m m' hm => ?_
      have hmember := hm.heap.member? i name.name
      rw [← hn.name]
      generalize m.heap.member? i name.name = o at hmember
      generalize m'.heap.member? i name.name = o' at hmember
      cases hmember with
      | none => exact agree_fail hn.span _
      | some hmember =>
        cases hmember with
        | field hv => exact .pure hv
        | method hf =>
          exact (agree_make fun h h' hh => hh.bind hf (.same rfl)).bind fun _ _ hf =>
            .pure (.function hf)
    | klass c =>
      refine Agree.get.bind fun m m' hm => ?_
      have hmember := hm.heap.static? c name.name
      rw [← hn.name]
      generalize m.heap.static? c name.name = o at hmember
      generalize m'.heap.static? c name.name = o' at hmember
      cases hmember with
      | none => exact agree_fail hn.span _
      | some hv => exact .pure hv
    | _ => exact agree_fail hn.span _

theorem agree_setProperty {target target' : Value} (htarget : target.Alike L target')
    {name name' : Identifier} (hn : name.Alike L name') {v v' : Value} (hv : v.Alike L v') :
    Agree L Eq (setProperty target name v) (setProperty target' name' v') := by
  cases htarget with
  | function hf => exact agree_fail hn.span _
  | same ht =>
    cases target with
    | object i =>
      rw [setProperty, setProperty, ← hn.name]
      exact agree_change fun h h' hh => hh.setField i _ hv
    | klass c =>
      rw [setProperty, setProperty, ← hn.name]
      exact agree_change fun h h' hh => hh.setStatic c _ hv
    | _ => exact agree_fail hn.span _

theorem agree_elementAt {array array' position position' : Value} (ha : array.Alike L array')
    (hp : position.Alike L position') {span span' : Span} (hspan : L.span span span') :
    Agree L Eq (elementAt array position span) (elementAt array' position' span') := by
  cases ha with
  | function hf => exact agree_fail hspan _
  | same ha =>
    cases array with
    | array a =>
      refine Agree.get.bind fun m m' hm => ?_
      rw [(hm.heap.elements a).size_eq, hp.like.position?_eq]
      refine (agree_located (R := Eq) hspan ?_).bind fun i i' hi => .pure (congrArg _ hi)
      cases position'.position? (m'.heap.elements a).size with
      | ok i => exact .ok rfl
      | error kind => exact .error kind
    | _ => exact agree_fail hspan _

theorem agree_element {array array' position position' : Value} (ha : array.Alike L array')
    (hp : position.Alike L position') {span span' : Span} (hspan : L.span span span') :
    Agree L (Value.Alike L) (element array position span) (element array' position' span') := by
  refine (agree_elementAt ha hp hspan).bind fun found found' hfound => ?_
  subst hfound
  refine Agree.get.bind fun m m' hm => ?_
  have hv := hm.heap.elements found.1 found.2
  generalize (m.heap.elements found.1)[found.2]? = o at hv
  generalize (m'.heap.elements found.1)[found.2]? = o' at hv
  cases hv with
  | none => exact agree_fail hspan _
  | some hv => exact .pure hv

theorem agree_setElement {array array' position position' v v' : Value}
    (ha : array.Alike L array') (hp : position.Alike L position') (hv : v.Alike L v')
    {span span' : Span} (hspan : L.span span span') :
    Agree L Eq (setElement array position v span) (setElement array' position' v' span') := by
  refine (agree_elementAt ha hp hspan).bind fun found found' hfound => ?_
  subst hfound
  exact agree_change fun h h' hh => hh.setElement _ _ hv

theorem agree_closure {f f' : Function} (hf : f.Alike L f') (kind : FunctionKind) :
    Agree L (Closure.Alike L) (closure f kind) (closure f' kind) := by
  refine Agree.get.bind fun m m' hm => ?_
  rw [← hm.frame]
  exact agree_make fun h h' hh => hh.newClosure hf _ _

theorem receiver?_eq {m m' : Machine} (hm : m.Alike L m') (hops : Nat) :
    receiver? m hops = receiver? m' hops := by
  cases hops with
  | zero => rfl
  | succ hops =>
    have hv := hm.heap.getAt? hops m.frame Name.this
    unfold receiver?
    dsimp only
    rw [← hm.frame]
    generalize m.heap.getAt? hops m.frame Name.this = o at hv
    generalize m'.heap.getAt? hops m.frame Name.this = o' at hv
    cases hv with
    | none => rfl
    | some hv => cases hv <;> rfl

/-- Members of a superclass are found alike, and bound to receivers that are alike. -/
theorem agree_superProperty {id id' : ExprId} (hid : L.id id id') {name name' : Identifier}
    (hn : name.Alike L name') {span span' : Span} (hspan : L.span span span') :
    Agree L (Value.Alike L) (superProperty id name span) (superProperty id' name' span') := by
  refine Agree.get.bind fun m m' hm => ?_
  rw [hm.distances id id' hid, ← hm.frame, ← hn.name]
  cases m.distances[id]? with
  | none => exact agree_fail hspan _
  | some hops =>
    have hclass := hm.heap.getAt? hops m.frame Name.super
    dsimp only
    rw [receiver?_eq hm]
    generalize m.heap.getAt? hops m.frame Name.super = o at hclass
    generalize m'.heap.getAt? hops m.frame Name.super = o' at hclass
    cases hclass with
    | none => exact agree_fail hspan _
    | @some v v' hclass =>
      cases hclass with
      | function hf => exact agree_fail hspan _
      | same hv =>
        cases v with
        | klass c =>
          have hmethod := hm.heap.method? c name.name
          have hstatic := hm.heap.static? c name.name
          dsimp only
          generalize m.heap.method? c name.name = f at hmethod
          generalize m'.heap.method? c name.name = f' at hmethod
          generalize m.heap.static? c name.name = s at hstatic
          generalize m'.heap.static? c name.name = s' at hstatic
          rcases hr : receiver? m' hops with _ | receiver
          · cases hstatic with
            | none => exact agree_fail hn.span _
            | some hv => exact .pure hv
          · cases hmethod with
            | none =>
              cases hstatic with
              | none => exact agree_fail hn.span _
              | some hv => exact .pure hv
            | some hf =>
              have hreceiver := isFunction_receiver? hr
              exact (agree_make fun h h' hh => hh.bind hf (.same hreceiver)).bind fun _ _ hf =>
                .pure (.function hf)
        | _ => exact agree_fail hspan _

/-! ## Declarations -/

theorem agree_superclassOf {r r' : Reference} (hr : r.Alike L r') :
    Agree L Eq (superclassOf r) (superclassOf r') := by
  unfold superclassOf
  rw [← hr.name.name]
  refine (agree_lookup hr.id _ hr.name.span).bind fun v v' hv => ?_
  cases hv with
  | function hf => exact agree_fail hr.name.span _
  | same hv =>
    cases v with
    | klass c => exact .pure rfl
    | _ => exact agree_fail hr.name.span _

theorem agree_traitOf {r r' : Reference} (hr : r.Alike L r') :
    Agree L Eq (traitOf r) (traitOf r') := by
  unfold traitOf
  rw [← hr.name.name]
  refine (agree_lookup hr.id _ hr.name.span).bind fun v v' hv => ?_
  cases hv with
  | function hf => exact agree_fail hr.name.span _
  | same hv =>
    cases v with
    | trait t => exact .pure rfl
    | _ => exact agree_fail hr.name.span _

theorem agree_traits {rs rs' : List Reference} (hrs : List.Forall₂ (Reference.Alike L) rs rs') :
    Agree L Eq (rs.mapM traitOf) (rs'.mapM traitOf) := by
  induction hrs with
  | nil => exact .pure rfl
  | cons hr _ ih =>
    rw [List.mapM_cons, List.mapM_cons]
    exact (agree_traitOf hr).bind fun t t' ht => ih.bind fun ts ts' hts =>
      .pure (ht ▸ hts ▸ rfl)

theorem methodKind_eq (f f' : Function) (hf : f.Alike L f') : methodKind f = methodKind f' := by
  rw [methodKind, methodKind, hf.name.name]

theorem agree_classHeader {name name' : Identifier} (hn : name.Alike L name')
    {superclass superclass' : Option Reference}
    (hsuperclass : Option.Rel (Reference.Alike L) superclass superclass')
    {traits traits' : List Reference} (htraits : List.Forall₂ (Reference.Alike L) traits traits') :
    Agree L Eq (classHeader name superclass traits) (classHeader name' superclass' traits') := by
  have hnamed : Agree L Eq (namedSuperclass superclass) (namedSuperclass superclass') := by
    cases hsuperclass with
    | none => exact .pure rfl
    | some hr => exact (agree_superclassOf hr).map fun c c' hc => congrArg some hc
  unfold classHeader
  rw [← hn.name]
  exact (agree_define _ (.same rfl)).bind fun _ _ _ => hnamed.bind fun c c' hc =>
    (agree_traits htraits).bind fun ts ts' hts => .pure (by rw [hc, hts])

theorem agree_classFrame (superclass : Option ClassId) :
    Agree L Eq (classFrame superclass) (classFrame superclass) := by
  refine Agree.get.bind fun m m' hm => ?_
  rw [← hm.frame]
  cases superclass with
  | none => exact .pure rfl
  | some c =>
    have hbindings : (Table.ofPairs [(Name.super, Value.klass c)]).Alike (Value.Alike L)
        (.ofPairs [(Name.super, .klass c)]) := .ofPairs (.cons ⟨rfl, .same rfl⟩ .nil)
    exact agree_make fun h h' hh => hh.newFrame _ hbindings

theorem agree_classMembers {name name' : Identifier} (hn : name.Alike L name')
    (superclass : Option ClassId) (traits : List TraitId)
    {methods methods' statics statics' : List Function}
    (hmethods : List.Forall₂ (Function.Alike L) methods methods')
    (hstatics : List.Forall₂ (Function.Alike L) statics statics') (frame : FrameId) :
    Agree L Eq (classMembers name superclass traits methods statics frame)
      (classMembers name' superclass traits methods' statics' frame) := by
  refine (agree_make fun h h' hh => hh.newClosures frame methodKind_eq hmethods).bind
    fun ms ms' hms => ?_
  refine (agree_make fun h h' hh => hh.newClosures frame (fun _ _ _ => rfl) hstatics).bind
    fun ss ss' hss => ?_
  refine (agree_make (R := Eq) fun h h' hh => ?_).bind fun c c' hc => ?_
  · exact hh.newClass ⟨hn.name, rfl, hh.compose traits (fun _ _ ht => ht.methods) hms,
      hh.compose traits (fun _ _ ht => ht.statics) hss, .empty⟩
  subst hc
  exact agree_assignNearest hn (.same rfl)

theorem agree_declareClass {name name' : Identifier} (hn : name.Alike L name')
    {superclass superclass' : Option Reference}
    (hsuperclass : Option.Rel (Reference.Alike L) superclass superclass')
    {traits traits' : List Reference} (htraits : List.Forall₂ (Reference.Alike L) traits traits')
    {methods methods' statics statics' : List Function}
    (hmethods : List.Forall₂ (Function.Alike L) methods methods')
    (hstatics : List.Forall₂ (Function.Alike L) statics statics') :
    Agree L Eq (declareClass name superclass traits methods statics)
      (declareClass name' superclass' traits' methods' statics') := by
  rw [declareClass_eq, declareClass_eq]
  refine (agree_classHeader hn hsuperclass htraits).bind fun found found' hfound => ?_
  subst hfound
  refine (agree_classFrame found.1).bind fun frame frame' hframe => ?_
  subst hframe
  exact agree_classMembers hn _ _ hmethods hstatics frame

theorem agree_declareTrait {name name' : Identifier} (hn : name.Alike L name')
    {methods methods' statics statics' : List Function}
    (hmethods : List.Forall₂ (Function.Alike L) methods methods')
    (hstatics : List.Forall₂ (Function.Alike L) statics statics') :
    Agree L Eq (declareTrait name methods statics) (declareTrait name' methods' statics') := by
  refine Agree.get.bind fun m m' hm => ?_
  rw [← hm.frame, ← hn.name]
  refine (agree_make fun h h' hh => hh.newClosures m.frame methodKind_eq hmethods).bind
    fun ms ms' hms => ?_
  refine (agree_make fun h h' hh => hh.newClosures m.frame (fun _ _ _ => rfl) hstatics).bind
    fun ss ss' hss => ?_
  have htrait : Trait.Alike L ⟨name.name, ms, ss⟩ ⟨name.name, ms', ss'⟩ := ⟨rfl, hms, hss⟩
  refine (agree_make fun h h' hh => hh.newTrait htrait).bind fun t t' ht => ?_
  subst ht
  exact agree_define _ (.same rfl)

/-! ## Sequences and loops -/

theorem agree_exprs {expr : Expr → Eval Value}
    (hexpr : ∀ e e', Expr.Alike L e e' → Agree L (Value.Alike L) (expr e) (expr e'))
    {es es' : List Expr} (hes : List.Forall₂ (Expr.Alike L) es es') :
    Agree L (List.Forall₂ (Value.Alike L)) (exprs expr es) (exprs expr es') := by
  induction hes with
  | nil => exact .pure .nil
  | cons he _ ih =>
    exact (hexpr _ _ he).bind fun v v' hv => ih.bind fun vs vs' hvs => .pure (.cons hv hvs)

theorem agree_stmts {stmt : Stmt → Eval Signal}
    (hstmt : ∀ s s', Stmt.Alike L s s' → Agree L (Signal.Alike L) (stmt s) (stmt s'))
    {ss ss' : List Stmt} (hss : List.Forall₂ (Stmt.Alike L) ss ss') :
    Agree L (Signal.Alike L) (stmts stmt ss) (stmts stmt ss') := by
  induction hss with
  | nil => exact .pure .next
  | cons hs _ ih =>
    refine (hstmt _ _ hs).bind fun signal signal' hsignal => ?_
    cases hsignal with
    | next => exact ih
    | «break» => exact .pure .break
    | «continue» => exact .pure .continue
    | «return» hv => exact .pure (.return hv)

theorem agree_loop {test test' : Eval Bool} {turn turn' : Eval Signal} {step step' : Eval Unit}
    (htest : Agree L Eq test test') (hturn : Agree L (Signal.Alike L) turn turn')
    (hstep : Agree L Eq step step') (turns : Nat) :
    Agree L (Signal.Alike L) (loop test turn step turns) (loop test' turn' step' turns) := by
  induction turns with
  | zero => exact agree_outOfFuel
  | succ turns ih =>
    refine htest.bind fun goesOn goesOn' hgoesOn => .ite (by rw [hgoesOn]) ?_ (.pure .next)
    refine hturn.bind fun signal signal' hsignal => ?_
    cases hsignal with
    | next => exact hstep.bind fun _ _ _ => ih
    | «continue» => exact hstep.bind fun _ _ _ => ih
    | «break» => exact .pure .next
    | «return» hv => exact .pure (.return hv)

/-! ## Evaluation -/

/-- What is so of all evaluations with so much fuel. -/
structure AgreeAt (L : Likeness) (fuel : Nat) : Prop where
  expr : ∀ e e', Expr.Alike L e e' → Agree L (Value.Alike L) (expr fuel e) (expr fuel e')
  apply : ∀ f f' args args', Closure.Alike L f f' → List.Forall₂ (Value.Alike L) args args' →
    Agree L (Value.Alike L) (apply fuel f args) (apply fuel f' args')
  stmt : ∀ s s', Stmt.Alike L s s' → Agree L (Signal.Alike L) (stmt fuel s) (stmt fuel s')

namespace AgreeAt

variable {fuel : Nat}

theorem truth (ih : AgreeAt L fuel) {e e' : Expr} (he : e.Alike L e') :
    Agree L Eq (do return (← Eval.expr fuel e).isTruthy)
      (do return (← Eval.expr fuel e').isTruthy) :=
  (ih.expr _ _ he).bind fun _ _ hv => .pure hv.like.isTruthy

/-- With one more unit of fuel expressions that are alike are evaluated alike too. -/
theorem expr_succ (ih : AgreeAt L fuel) (e e' : Expr) (he : e.Alike L e') :
    Agree L (Value.Alike L) (Eval.expr (fuel + 1) e) (Eval.expr (fuel + 1) e') := by
  obtain ⟨hid, hspan, hnode⟩ := he
  cases hnode with
  | literal value => exact .pure (.ofLiteral value)
  | group h => exact ih.expr _ _ h
  | binary h₁ h₂ =>
    exact (ih.expr _ _ h₁).bind fun _ _ hv => (ih.expr _ _ h₂).bind fun _ _ hw =>
      agree_binary _ hspan hv hw
  | unary h => exact (ih.expr _ _ h).bind fun _ _ hv => agree_unary _ hspan hv
  | logical h₁ h₂ =>
    exact (ih.expr _ _ h₁).bind fun _ _ hv =>
      .ite (by rw [LogicalOp.isDecidedBy_eq _ hv.like]) (.pure hv) (ih.expr _ _ h₂)
  | ternary h₁ h₂ h₃ =>
    exact (ih.expr _ _ h₁).bind fun _ _ hv =>
      .ite (by rw [hv.like.isTruthy]) (ih.expr _ _ h₂) (ih.expr _ _ h₃)
  | @«variable» name name' hn =>
    show Agree L _ (lookup _ name.name name.span) (lookup _ name'.name name'.span)
    rw [← hn.name]
    exact agree_lookup hid _ hn.span
  | assign hn h =>
    exact (ih.expr _ _ h).bind fun _ _ hv => (agree_assign hid hn hv).bind fun _ _ _ => .pure hv
  | call h hargs =>
    exact (ih.expr _ _ h).bind fun _ _ hf => (agree_exprs ih.expr hargs).bind fun _ _ hargs =>
      agree_callValue ih.apply hf hargs hspan
  | get h hn =>
    exact (ih.expr _ _ h).bind fun _ _ ht => (agree_property ht hn).bind fun _ _ hv =>
      agree_access ih.apply hv
  | set h₁ hn h₂ =>
    exact (ih.expr _ _ h₁).bind fun _ _ ht => (ih.expr _ _ h₂).bind fun _ _ hv =>
      (agree_setProperty ht hn hv).bind fun _ _ _ => .pure hv
  | array hes =>
    refine (agree_exprs ih.expr hes).bind fun _ _ hvs => ?_
    refine (agree_make fun h h' hh => hh.newArray hvs).bind fun a a' ha => ?_
    subst ha
    exact .pure (.same rfl)
  | index h₁ h₂ =>
    exact (ih.expr _ _ h₁).bind fun _ _ ha => (ih.expr _ _ h₂).bind fun _ _ hi =>
      agree_element ha hi hspan
  | indexSet h₁ h₂ h₃ =>
    exact (ih.expr _ _ h₁).bind fun _ _ ha => (ih.expr _ _ h₂).bind fun _ _ hi =>
      (ih.expr _ _ h₃).bind fun _ _ hv =>
        (agree_setElement ha hi hv hspan).bind fun _ _ _ => .pure hv
  | lambda hf => exact (agree_closure hf _).bind fun _ _ hc => .pure (.function hc)
  | this => exact agree_lookup hid _ hspan
  | super hn =>
    exact (agree_superProperty hid hn hspan).bind fun _ _ hv => agree_access ih.apply hv

theorem apply_succ (ih : AgreeAt L fuel) (f f' : Closure) (args args' : List Value)
    (hf : f.Alike L f') (hargs : List.Forall₂ (Value.Alike L) args args') :
    Agree L (Value.Alike L) (Eval.apply (fuel + 1) f args) (Eval.apply (fuel + 1) f' args') := by
  have hbindings : (Table.ofPairs ((f.function.params.map Identifier.name).zip args)).Alike
      (Value.Alike L) (.ofPairs ((f'.function.params.map Identifier.name).zip args')) := by
    rw [← hf.function.names]
    exact .ofZip _ hargs
  unfold Eval.apply
  dsimp only
  rw [← hf.frame, ← hf.kind]
  refine (agree_make fun h h' hh => hh.newFrame f.frame hbindings).bind fun g g' hg => ?_
  subst hg
  refine ((agree_stmts ih.stmt hf.function.body).inFrame g).bind fun signal signal' hsignal => ?_
  refine .ite Iff.rfl (Agree.get.bind fun m m' hm => ?_) ?_
  · have hthis := hm.heap.getAt? 0 f.frame Name.this
    generalize m.heap.getAt? 0 f.frame Name.this = o at hthis
    generalize m'.heap.getAt? 0 f.frame Name.this = o' at hthis
    cases hthis with
    | none => exact agree_fail hf.function.span _
    | some hv => exact .pure hv
  · cases hsignal with
    | «return» hv => exact .pure hv
    | _ => exact .pure (.same rfl)

/-- With one more unit of fuel statements that are alike are run alike too. -/
theorem stmt_succ (ih : AgreeAt L fuel) (s s' : Stmt) (hs : s.Alike L s') :
    Agree L (Signal.Alike L) (Eval.stmt (fuel + 1) s) (Eval.stmt (fuel + 1) s') := by
  obtain ⟨hspan, hnode⟩ := hs
  cases hnode with
  | expression h => exact (ih.expr _ _ h).discard.bind fun _ _ _ => .pure .next
  | print h =>
    refine (ih.expr _ _ h).bind fun v v' hv => Agree.get.bind fun m m' hm => ?_
    rw [hm.heap.text hv]
    exact (agree_printLine _ hspan).bind fun _ _ _ => .pure .next
  | @varDecl name name' init init' hn hinit =>
    have hdefine (v v' : Value) (hv : v.Alike L v') : Agree L (Signal.Alike L)
        (do define name.name v; return .next) (do define name'.name v'; return .next) := by
      rw [← hn.name]
      exact (agree_define _ hv).bind fun _ _ _ => .pure .next
    cases hinit with
    | none => exact hdefine _ _ (.same rfl)
    | some h => exact (ih.expr _ _ h).bind hdefine
  | block hbody => exact agree_inNewFrame (agree_stmts ih.stmt hbody)
  | ifElse h hyes hno =>
    refine (ih.expr _ _ h).bind fun v v' hv => .ite (by rw [hv.like.isTruthy]) (ih.stmt _ _ hyes) ?_
    cases hno with
    | none => exact .pure .next
    | some hno => exact ih.stmt _ _ hno
  | «while» h hbody => exact agree_loop (ih.truth h) (ih.stmt _ _ hbody) (.pure rfl) fuel
  | «for» hinit hcondition hstep hbody =>
    rw [stmt_for, stmt_for]
    refine agree_inNewFrame (Agree.bind (R := Eq) ?_ fun _ _ _ =>
      agree_loop ?_ (ih.stmt _ _ hbody) ?_ fuel)
    · cases hinit with
      | none => exact .pure rfl
      | some h => exact (ih.stmt _ _ h).discard
    · cases hcondition with
      | none => exact .pure rfl
      | some h => exact ih.truth h
    · cases hstep with
      | none => exact .pure rfl
      | some h => exact (ih.expr _ _ h).discard
  | «break» => exact .pure .break
  | «continue» => exact .pure .continue
  | @funDecl f f' hf =>
    refine (agree_closure hf .function).bind fun c c' hc => ?_
    rw [← hf.name.name]
    exact (agree_define _ (.function hc)).bind fun _ _ _ => .pure .next
  | «return» hvalue =>
    cases hvalue with
    | none => exact .pure (.return (.same rfl))
    | some h => exact (ih.expr _ _ h).bind fun _ _ hv => .pure (.return hv)
  | classDecl hn hsuperclass htraits hmethods hstatics =>
    exact (agree_declareClass hn hsuperclass htraits hmethods hstatics).bind fun _ _ _ =>
      .pure .next
  | traitDecl hn hmethods hstatics =>
    exact (agree_declareTrait hn hmethods hstatics).bind fun _ _ _ => .pure .next

end AgreeAt

/-- All evaluations agree, by induction on the fuel that their parts get. -/
theorem agreeAt (L : Likeness) (fuel : Nat) : AgreeAt L fuel := by
  induction fuel with
  | zero =>
    exact ⟨fun _ _ _ => agree_outOfFuel, fun _ _ _ _ _ _ => agree_outOfFuel,
      fun _ _ _ => agree_outOfFuel⟩
  | succ fuel ih => exact ⟨ih.expr_succ, ih.apply_succ, ih.stmt_succ⟩

theorem agree_program (fuel : Nat) {ss ss' : List Stmt}
    (hss : List.Forall₂ (Stmt.Alike L) ss ss') :
    Agree L Eq (program fuel ss) (program fuel ss') := by
  induction hss with
  | nil => exact .pure rfl
  | cons hs _ ih => exact ((agreeAt L fuel).stmt _ _ hs).discard.bind fun _ _ _ => ih

end Eval

end Lox

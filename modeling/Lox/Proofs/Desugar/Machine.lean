import Lox.Proofs.Class.Member
import Lox.Proofs.Desugar.Heap
import Lox.Proofs.Run.Limit

/-!
# Machines of desugared programs

What programs do in single steps, done side by side on a machine that knows the program and one that
knows its desugaring, ends alike: in a value, in a signal or in one error, and with the same output.
One of the two runs may run out of fuel before the other and is not followed any further then.  What
it has printed so far the other has printed too.

    K.Links Γ id → P.Reaches Γ F F' →
      Agree K side P F F' (Value.Desugared K) (lookup id name span) (lookup id name span)
                                                                                  (agree_lookup)
-/

namespace Lox

variable {α α' β β' : Type} {K : Known} {P P' : Ties} {F F' : FrameId}

/-! ## What stays printed -/

/-- What is in the one output the other begins with. -/
def Output.Begins (o o' : Output) : Prop := ∃ more, o'.written = o.written ++ more

namespace Output.Begins

variable {o o' o'' : Output}

theorem refl (o : Output) : o.Begins o := ⟨.empty, ByteArray.append_empty.symm⟩

theorem trans (h : o.Begins o') (h' : o'.Begins o'') : o.Begins o'' := by
  obtain ⟨more, h⟩ := h
  obtain ⟨more', h'⟩ := h'
  exact ⟨more ++ more', by rw [h', h, ByteArray.append_assoc]⟩

theorem write (o : Output) (text : String) : o.Begins (o.write text).2 := by
  cases hroom : o.room with
  | none =>
    rw [write_of_room_none hroom]
    exact ⟨_, rfl⟩
  | some room =>
    rw [write_of_room hroom]
    split <;> exact ⟨_, rfl⟩

end Output.Begins

namespace Eval

/-- What has been printed before an evaluation is still there behind it. -/
def Lasts (x : Eval α) : Prop := Keeps (fun m m' => m.output.Begins m'.output) x

theorem closed_lasts : Closed fun _ x => Lasts x := closed_keeps {
  refl := fun m => .refl m.output
  trans := .trans
  heap := fun m _ => .refl m.output
  tick := fun m => .refl m.output
  inFrame := fun _ h => h }

theorem Lasts.ite {p : Prop} [Decidable p] {x y : Eval α} (hx : Lasts x) (hy : Lasts y) :
    Lasts (if p then x else y) := by
  split
  · exact hx
  · exact hy

theorem lasts_printLine (text : String) (span : Span) : Lasts (printLine text span) :=
  keeps_printLine (fun m text => .write m.output text) text span

theorem lastsAt (fuel : Nat) : ClosedAt (fun _ x => Lasts x) fuel :=
  closedAt closed_lasts lasts_printLine fuel

end Eval

open Eval Run

/-! ## Machines and results -/

/-- Machines, one of which runs in the frame `F` and one in `F'`. -/
structure Machine.Desugared (K : Known) (P : Ties) (F F' : FrameId) (m m' : Machine) : Prop where
  heap : m.heap.Desugared K P m'.heap
  frame : m.frame = F
  frame' : m'.frame = F'
  distances : ∀ id : ExprId, m.distances[id]? = K.hops id
  distances' : ∀ id : ExprId, m'.distances[id]? = K.hops' id
  output : m.output = m'.output
  time : m.time = m'.time

inductive Signal.Desugared (K : Known) (P : Ties) : Signal → Signal → Prop
  | next : Signal.Desugared K P .next .next
  | break : Signal.Desugared K P .break .break
  | continue : Signal.Desugared K P .continue .continue
  | return {v v' : Value} :
      v.Desugared K P v' → Signal.Desugared K P (.return v) (.return v')

namespace Desugaring

/-- The run that may run out of fuel while the other goes on, if one of them may. -/
inductive Side
  | original
  | desugared
  | neither

variable {side : Side}

/-- Both end well with related results, on machines that belong to ties grown out of `P`, or both by
one error and with the same output, unless the one that may has run out of fuel: what it has printed
so far the other has printed too. -/
inductive Ends (K : Known) (side : Side) (P : Ties) (F F' : FrameId) (R : Ties → α → α' → Prop) :
    EStateM.Result Stop Machine α → EStateM.Result Stop Machine α' → Prop
  | ok {P' : Ties} {a : α} {a' : α'} {m m' : Machine} : P <+: P' → m.Desugared K P' F F' m' →
      R P' a a' → Ends K side P F F' R (.ok a m) (.ok a' m')
  | error (e : RuntimeError) {m m' : Machine} : m.output = m'.output →
      Ends K side P F F' R (.error (.error e) m) (.error (.error e) m')
  | original {m : Machine} {r' : EStateM.Result Stop Machine α'} : side = .original →
      m.output.Begins (machineOf r').output → Ends K side P F F' R (.error .outOfFuel m) r'
  | desugared {m' : Machine} {r : EStateM.Result Stop Machine α} : side = .desugared →
      m'.output.Begins (machineOf r).output → Ends K side P F F' R r (.error .outOfFuel m')

/-- From machines that belong to `P` and run in `F` and `F'`, both end alike. -/
def Agree (K : Known) (side : Side) (P : Ties) (F F' : FrameId) (R : Ties → α → α' → Prop)
    (x : Eval α) (x' : Eval α') : Prop :=
  ∀ m m', m.Desugared K P F F' m' → Ends K side P F F' R (x m) (x' m')

variable {R : Ties → α → α' → Prop} {S : Ties → β → β' → Prop}

theorem Ends.weaken {r : EStateM.Result Stop Machine α} {r' : EStateM.Result Stop Machine α'}
    (h : Ends K side P' F F' R r r') (hle : P <+: P') : Ends K side P F F' R r r' := by
  cases h with
  | ok hle' hm ha => exact .ok (hle.trans hle') hm ha
  | error e houtput => exact .error e houtput
  | original hs hprinted => exact .original hs hprinted
  | desugared hs hprinted => exact .desugared hs hprinted

theorem Ends.imp {R' : Ties → α → α' → Prop} {r : EStateM.Result Stop Machine α}
    {r' : EStateM.Result Stop Machine α'} (h : Ends K side P F F' R r r')
    (hr : ∀ {P₁ a a' m₁}, P <+: P₁ → r = .ok a m₁ → R P₁ a a' → R' P₁ a a') :
    Ends K side P F F' R' r r' := by
  cases h with
  | ok hle hm ha => exact .ok hle hm (hr hle rfl ha)
  | error e houtput => exact .error e houtput
  | original hs hprinted => exact .original hs hprinted
  | desugared hs hprinted => exact .desugared hs hprinted

/-- One step after the other, the first of which has been run and takes no fuel. -/
theorem Ends.bind {x : Eval α} {x' : Eval α'} {f : α → Eval β} {f' : α' → Eval β'}
    {m m' : Machine} (hx : Ends K .neither P F F' R (x m) (x' m'))
    (hf : ∀ P₁ a a' m₁ m₁', P <+: P₁ → x m = .ok a m₁ → m₁.Desugared K P₁ F F' m₁' →
      R P₁ a a' → Ends K side P₁ F F' S (f a m₁) (f' a' m₁')) :
    Ends K side P F F' S ((x >>= f) m) ((x' >>= f') m') := by
  generalize hr : x m = r at hx
  generalize hr' : x' m' = r' at hx
  cases hx with
  | ok hle hm ha =>
    rw [EStateM.bind_of_ok hr, EStateM.bind_of_ok hr']
    exact (hf _ _ _ _ _ hle hr hm ha).weaken hle
  | error e houtput =>
    rw [EStateM.bind_of_error hr, EStateM.bind_of_error hr']
    exact .error e houtput
  | original hs => cases hs
  | desugared hs => cases hs

/-- What has been printed before a step is still there behind what comes next. -/
theorem begins_bind {x : Eval α} {f : α → Eval β} (hf : ∀ a, Lasts (f a)) (m : Machine) :
    (machineOf (x m)).output.Begins (machineOf ((x >>= f) m)).output := by
  cases h : x m with
  | ok a m₁ =>
    rw [EStateM.bind_of_ok h]
    exact hf a m₁
  | error stop m₁ =>
    rw [EStateM.bind_of_error h]
    exact .refl m₁.output

/-- One step after the other, the first of which may run out of fuel. -/
theorem Ends.seq {x : Eval α} {x' : Eval α'} {f : α → Eval β} {f' : α' → Eval β'}
    {m m' : Machine} (hx : Ends K side P F F' R (x m) (x' m')) (hl : ∀ a, Lasts (f a))
    (hl' : ∀ a', Lasts (f' a'))
    (hf : ∀ P₁ a a' m₁ m₁', P <+: P₁ → m₁.Desugared K P₁ F F' m₁' →
      R P₁ a a' → Ends K side P₁ F F' S (f a m₁) (f' a' m₁')) :
    Ends K side P F F' S ((x >>= f) m) ((x' >>= f') m') := by
  have hbegins := begins_bind (x := x) hl m
  have hbegins' := begins_bind (x := x') hl' m'
  generalize hr : x m = r at hx hbegins
  generalize hr' : x' m' = r' at hx hbegins'
  cases hx with
  | ok hle hm ha =>
    rw [EStateM.bind_of_ok hr, EStateM.bind_of_ok hr']
    exact (hf _ _ _ _ _ hle hm ha).weaken hle
  | error e houtput =>
    rw [EStateM.bind_of_error hr, EStateM.bind_of_error hr']
    exact .error e houtput
  | original hs hprinted =>
    rw [EStateM.bind_of_error hr]
    exact .original hs (hprinted.trans hbegins')
  | desugared hs hprinted =>
    rw [EStateM.bind_of_error hr']
    exact .desugared hs (hprinted.trans hbegins)

/-- Back in the frame in which the run of the program has been before. -/
theorem Ends.inFrame {G : FrameId} {x : Eval α} {m : Machine}
    {r' : EStateM.Result Stop Machine α'}
    (h : Ends K side P G F' R (x { m with frame := G }) r') (hm : m.frame = F) :
    Ends K side P F F' R (Eval.inFrame G x m) r' := by
  subst hm
  rw [inFrame_apply]
  generalize x { m with frame := G } = r at h
  cases h with
  | ok hle hr ha => exact .ok hle { hr with frame := rfl } ha
  | error e houtput => exact .error e houtput
  | original hs hprinted => exact .original hs hprinted
  | desugared hs hprinted => exact .desugared hs (by rwa [machineOf_mapMachine])

/-- Back in the frame in which the run of the desugared program has been before. -/
theorem Ends.inFrame' {G' : FrameId} {x' : Eval α'} {m' : Machine}
    {r : EStateM.Result Stop Machine α}
    (h : Ends K side P F G' R r (x' { m' with frame := G' })) (hm : m'.frame = F') :
    Ends K side P F F' R r (Eval.inFrame G' x' m') := by
  subst hm
  rw [inFrame_apply]
  generalize x' { m' with frame := G' } = r' at h
  cases h with
  | ok hle hr ha => exact .ok hle { hr with frame' := rfl } ha
  | error e houtput => exact .error e houtput
  | original hs hprinted => exact .original hs (by rwa [machineOf_mapMachine])
  | desugared hs hprinted => exact .desugared hs hprinted

namespace Agree

variable {x : Eval α} {x' : Eval α'} {f : α → Eval β} {f' : α' → Eval β'}

theorem pure {a : α} {a' : α'} (h : R P a a') :
    Agree K side P F F' R (Pure.pure a) (Pure.pure a') :=
  fun _ _ hm => .ok (List.prefix_refl P) hm h

theorem imp {R' : Ties → α → α' → Prop} (hx : Agree K side P F F' R x x')
    (hr : ∀ {P₁ a a' m m₁}, P <+: P₁ → x m = .ok a m₁ → R P₁ a a' → R' P₁ a a') :
    Agree K side P F F' R' x x' := fun m m' hm => (hx m m' hm).imp hr

/-- Behind a step that takes no fuel. -/
theorem bind (hx : Agree K .neither P F F' R x x')
    (hf : ∀ P₁ a a', P <+: P₁ → R P₁ a a' → Agree K side P₁ F F' S (f a) (f' a')) :
    Agree K side P F F' S (x >>= f) (x' >>= f') := fun m m' hm =>
  (hx m m' hm).bind fun P₁ a a' m₁ m₁' hle _ hm₁ ha => hf P₁ a a' hle ha m₁ m₁' hm₁

/-- Behind a step that may run out of fuel. -/
theorem seq (hx : Agree K side P F F' R x x') (hl : ∀ a, Lasts (f a)) (hl' : ∀ a', Lasts (f' a'))
    (hf : ∀ P₁ a a', P <+: P₁ → R P₁ a a' → Agree K side P₁ F F' S (f a) (f' a')) :
    Agree K side P F F' S (x >>= f) (x' >>= f') := fun m m' hm =>
  (hx m m' hm).seq hl hl' fun P₁ a a' m₁ m₁' hle hm₁ ha => hf P₁ a a' hle ha m₁ m₁' hm₁

/-- What comes behind a look at the machines. -/
theorem get {f : Machine → Eval β} {f' : Machine → Eval β'}
    (hf : ∀ m m', m.Desugared K P F F' m' → Agree K side P F F' S (f m) (f' m')) :
    Agree K side P F F' S (get >>= f) (get >>= f') := fun m m' hm => hf m m' hm m m' hm

/-- Behind a step only its result is changed. -/
theorem bindPure (hx : Agree K side P F F' R x x') {g : α → β} {g' : α' → β'}
    (hg : ∀ P₁ a a', P <+: P₁ → R P₁ a a' → S P₁ (g a) (g' a')) :
    Agree K side P F F' S (x >>= fun a => Pure.pure (g a)) (x' >>= fun a' => Pure.pure (g' a')) :=
  hx.seq (fun a => closed_lasts.pure (g a)) (fun a' => closed_lasts.pure (g' a'))
    fun P₁ a a' hle ha => .pure (hg P₁ a a' hle ha)

theorem map (hx : Agree K side P F F' R x x') {g : α → β} {g' : α' → β'}
    (hg : ∀ P₁ a a', R P₁ a a' → S P₁ (g a) (g' a')) :
    Agree K side P F F' S (g <$> x) (g' <$> x') := by
  rw [map_eq_pure_bind, map_eq_pure_bind]
  exact hx.bindPure fun P₁ a a' _ ha => hg P₁ a a' ha

theorem discard (hx : Agree K side P F F' R x x') :
    Agree K side P F F' (fun _ => Eq) (discard x) (discard x') := hx.map fun _ _ _ _ => rfl

theorem ite {p p' : Prop} [Decidable p] [Decidable p'] {y : Eval α} {y' : Eval α'} (hp : p ↔ p')
    (hx : Agree K side P F F' R x x') (hy : Agree K side P F F' R y y') :
    Agree K side P F F' R (if p then x else y) (if p' then x' else y') := by
  by_cases h : p
  · rwa [if_pos h, if_pos (hp.1 h)]
  · rwa [if_neg h, if_neg fun h' => h (hp.2 h')]

theorem inFrame {G G' : FrameId} (hx : Agree K side P G G' R x x') :
    Agree K side P F F' R (Eval.inFrame G x) (Eval.inFrame G' x') := by
  intro m m' hm
  have h := hx { m with frame := G } { m' with frame := G' } { hm with frame := rfl, frame' := rfl }
  exact (h.inFrame hm.frame).inFrame' hm.frame'

end Agree

/-! ## Operations -/

section Operations

variable {R : Ties → α → α' → Prop}

theorem agree_fail (span : Span) (kind : RuntimeErrorKind) :
    Agree K side P F F' R (fail span kind) (fail span kind) :=
  fun _ _ hm => .error ⟨span, kind⟩ hm.output

theorem agree_make {g : Heap → α × Heap} {g' : Heap → α' × Heap}
    (hg : ∀ h h' : Heap, h.Desugared K P h' → ∃ P' : Ties, P <+: P' ∧
      (g h).2.Desugared K P' (g' h').2 ∧ R P' (g h).1 (g' h').1) :
    Agree K side P F F' R (make g) (make g') := by
  intro m m' hm
  obtain ⟨P₁, hle, hh, ha⟩ := hg _ _ hm.heap
  exact .ok hle { hm with heap := hh } ha

/-- What is made beside frames. -/
theorem agree_makeBeside {R : Ties → α → α → Prop} {g g' : Heap → α × Heap}
    (hg : ∀ h h' : Heap, h.Desugared K P h' → Heap.MadeBeside K P (R P) (g h) (g' h')) :
    Agree K side P F F' R (make g) (make g') :=
  agree_make fun h h' hh => ⟨P, List.prefix_refl P, (hg h h' hh).symm⟩

theorem agree_change {g g' : Heap → Heap}
    (hg : ∀ h h' : Heap, h.Desugared K P h' → (g h).Desugared K P (g' h')) :
    Agree K side P F F' (fun _ => Eq) (change g) (change g') :=
  fun _ _ hm => .ok (List.prefix_refl P) { hm with heap := hg _ _ hm.heap } rfl

theorem agree_printLine (text : String) (span : Span) :
    Agree K side P F F' (fun _ => Eq) (printLine text span) (printLine text span) := by
  intro m m' hm
  unfold printLine
  rw [← hm.output]
  obtain ⟨all, output⟩ := m.output.write (text ++ "\n")
  cases all with
  | true => exact .ok (List.prefix_refl P) { hm with output := rfl } rfl
  | false => exact .error _ rfl

/-! ## Frames -/

/-- Frames of a scope that both sides open. -/
theorem agree_newFrame (g g' : FrameId) {bindings bindings' : Table Value}
    (hb : ∀ name, Option.Rel (Value.Desugared K P) (bindings.find? name) (bindings'.find? name)) :
    Agree K side P F F' (fun P' f f' => P'[f'.index]? = some (.shared f (some g) (some g')))
      (make (·.newFrame g bindings)) (make (·.newFrame g' bindings')) :=
  agree_make fun _ _ hh => hh.newFrame g g' hb

theorem agree_inNewFrame {x : Eval α} {x' : Eval α'}
    (hx : ∀ P' G G', P <+: P' → P'[G'.index]? = some (.shared G (some F) (some F')) →
      Agree K side P' G G' R x x') :
    Agree K side P F F' R (inNewFrame x) (inNewFrame x') := by
  refine Agree.get fun m m' hm => ?_
  rw [hm.frame, hm.frame']
  refine (agree_newFrame F F' fun _ => .none).bind fun P' G G' hle htie => ?_
  exact (hx P' G G' hle htie).inFrame

/-- A frame of a turn, that the desugared program alone opens. -/
theorem agree_inTurn {x : Eval α} {x' : Eval α'}
    (hx : ∀ P' G', P <+: P' → P'[G'.index]? = some (.extra F') → Agree K side P' F G' R x x') :
    Agree K side P F F' R x (inNewFrame x') := by
  intro m m' hm
  obtain ⟨P', hle, hh, htie⟩ := hm.heap.newTurn m'.frame
  rw [hm.frame'] at htie
  let made := m'.heap.newFrame m'.frame ∅
  have h := hx P' made.1 hle htie m { m' with heap := made.2, frame := made.1 }
    { hm with heap := hh, frame' := rfl }
  have hback : Ends K side P' F F' R (x m)
      (Eval.inFrame made.1 x' { m' with heap := made.2 }) := h.inFrame' hm.frame'
  exact hback.weaken hle

/-! ## Names -/

variable {Γ : List Bool}

theorem agree_define (hj : P.Joins F F') (name : String) {v v' : Value}
    (hv : v.Desugared K P v') :
    Agree K side P F F' (fun _ => Eq) (define name v) (define name v') := by
  intro m m' hm
  refine .ok (List.prefix_refl P) { hm with heap := ?_ } rfl
  show (m.heap.define m.frame name v).Desugared K P (m'.heap.define m'.frame name v')
  rw [hm.frame, hm.frame']
  exact hm.heap.define hj name hv

/-- Adding a variable where a part is run that is not in a turn itself. -/
theorem agree_define_of_reaches (hreaches : P.Reaches Γ F F') (hΓ : Γ.head? ≠ some false)
    (name : String) {v v' : Value} (hv : v.Desugared K P v') :
    Agree K side P F F' (fun _ => Eq) (define name v) (define name v') :=
  fun m m' hm => agree_define (hm.heap.joins_of_reaches hreaches hΓ) name hv m m' hm

/-- The variable that has been looked for. -/
theorem agree_found (span : Span) (kind : RuntimeErrorKind) {o o' : Option Value} :
    Option.Rel (Value.Desugared K P) o o' → Agree K side P F F' (Value.Desugared K)
      (located span (match o with
        | some v => .ok v
        | none => .error kind))
      (located span (match o' with
        | some v => .ok v
        | none => .error kind))
  | .none => agree_fail span kind
  | .some hv => .pure hv

theorem agree_lookup (hreaches : P.Reaches Γ F F') {id : ExprId} (hl : K.Links Γ id)
    (name : String) (span : Span) :
    Agree K side P F F' (Value.Desugared K) (lookup id name span) (lookup id name span) := by
  refine Agree.get fun m m' hm => ?_
  unfold Machine.lookup
  rw [hm.distances, hm.distances', hm.frame, hm.frame']
  cases hl with
  | global hnone hnone' =>
    rw [hnone, hnone']
    exact agree_found span _ (hm.heap.get?_globals name)
  | «local» hk hk' hhops =>
    rw [hk, hk']
    exact agree_found span _ (hm.heap.getAt? hreaches hhops name)

theorem agree_assigned (name : Identifier) {write write' : Machine → Bool × Heap}
    (hw : ∀ m m', m.Desugared K P F F' m' → Heap.MadeBeside K P Eq (write m) (write' m')) :
    Agree K side P F F' (fun _ => Eq) (assigned name write) (assigned name write') := by
  refine Agree.bind (R := fun _ => Eq) (fun m m' hm => ?_) fun P₁ found found' _ hfound => ?_
  · exact .ok (List.prefix_refl P) { hm with heap := (hw m m' hm).2 } (hw m m' hm).1
  subst hfound
  cases found with
  | true => exact .pure rfl
  | false => exact agree_fail _ _

theorem agree_assign (hreaches : P.Reaches Γ F F') {id : ExprId} (hl : K.Links Γ id)
    (name : Identifier) {v v' : Value} (hv : v.Desugared K P v') :
    Agree K side P F F' (fun _ => Eq) (assign id name v) (assign id name v') := by
  refine agree_assigned name fun m m' hm => ?_
  rw [hm.distances, hm.distances', hm.frame, hm.frame']
  cases hl with
  | global hnone hnone' =>
    rw [hnone, hnone']
    exact hm.heap.assign_globals name.name hv
  | «local» hk hk' hhops =>
    rw [hk, hk']
    exact hm.heap.assignAt hreaches hhops name.name hv

/-- Overwriting a variable that the current frame has. -/
theorem ends_assignNearest (hj : P.Joins F F') {name : Identifier} {v v' : Value}
    (hv : v.Desugared K P v') {m m' : Machine} (hm : m.Desugared K P F F' m')
    (hb : (m.heap.getIn? F name.name).isSome) :
    Ends K side P F F' (fun _ => Eq) (assignNearest name v m) (assignNearest name v' m') := by
  have hb' : (m'.heap.getIn? F' name.name).isSome :=
    (rel_isSome (hm.heap.getIn? hj name.name)).symm.trans hb
  rw [← hm.frame] at hb
  rw [← hm.frame'] at hb'
  rw [assignNearest_of_getIn? hb, assignNearest_of_getIn? hb', hm.frame, hm.frame']
  exact .ok (List.prefix_refl P) { hm with
    heap := hm.heap.define hj name.name hv
    frame := rfl
    frame' := rfl } rfl

/-! ## Operators -/

theorem agree_located {span : Span} {r : Operation Value}
    (hr : ∀ v, r = .ok v → v.isFunction = false) :
    Agree K side P F F' (Value.Desugared K) (located span r) (located span r) := by
  cases r with
  | ok v => exact .pure (.same (hr v rfl))
  | error kind => exact agree_fail span kind

theorem agree_binary (op : BinaryOp) (span : Span) {v v' w w' : Value}
    (hv : v.Desugared K P v') (hw : w.Desugared K P w') :
    Agree K side P F F' (Value.Desugared K) (located span (op.apply v w))
      (located span (op.apply v' w')) := by
  rw [op.apply_eq hv.like hw.like]
  exact agree_located fun _ => op.isFunction_apply

theorem agree_unary (op : UnaryOp) (span : Span) {v v' : Value} (hv : v.Desugared K P v') :
    Agree K side P F F' (Value.Desugared K) (located span (op.apply v))
      (located span (op.apply v')) := by
  rw [op.apply_eq hv.like]
  exact agree_located fun _ => op.isFunction_apply

/-! ## Calls -/

/-- Natives agree: the arrays, texts and numbers that they take are the same on both sides. -/
theorem agree_callNative (f : Native) {args args' : List Value}
    (hargs : List.Forall₂ (Value.Desugared K P) args args') (span : Span) :
    Agree K side P F F' (Value.Desugared K) (callNative f args span)
      (callNative f args' span) := by
  by_cases hlength : args.length = f.arity
  case neg =>
    rw [callNative_of_length_ne hlength, callNative_of_length_ne (hargs.length_eq ▸ hlength),
      hargs.length_eq]
    exact agree_fail span _
  cases f with
  | clock =>
    obtain rfl := List.eq_nil_of_length_eq_zero hlength
    cases hargs
    intro m m' hm
    refine .ok (List.prefix_refl P)
      { hm with time := congrArg (fun time n => time (n + 1)) hm.time } ?_
    rw [hm.time]
    exact .same rfl
  | str =>
    obtain ⟨v, rfl⟩ := List.length_eq_one_iff.1 hlength
    obtain - | ⟨hv, ⟨⟩⟩ := hargs
    refine Agree.get fun m m' hm => ?_
    rw [hm.heap.text hv]
    exact .pure (.same rfl)
  | append =>
    obtain ⟨a, v, rfl⟩ := List.length_eq_two.1 hlength
    obtain - | ⟨ha, - | ⟨hv, ⟨⟩⟩⟩ := hargs
    cases ha with
    | function hf => exact agree_fail span _
    | same ha =>
      cases a with
      | array a =>
        exact (agree_change fun h h' hh => hh.with_related (hh.pushElement a hv) rfl rfl).bind
          fun _ _ _ _ _ => .pure (.same rfl)
      | _ => exact agree_fail span _
  | len =>
    obtain ⟨a, rfl⟩ := List.length_eq_one_iff.1 hlength
    obtain - | ⟨ha, ⟨⟩⟩ := hargs
    cases ha with
    | function hf => exact agree_fail span _
    | same ha =>
      cases a with
      | array a =>
        refine Agree.get fun m m' hm => ?_
        rw [(hm.heap.elements a).size_eq]
        exact .pure (.same rfl)
      | _ => exact agree_fail span _

theorem agree_bind {c c' : Closure} (hc : c.Desugared K [true] P c') {v v' : Value}
    (hv : v.Desugared K P v') :
    Agree K side P F F' (Closure.Desugared K []) (make (·.bind c v)) (make (·.bind c' v')) :=
  agree_make fun _ _ hh =>
    (hh.bind hc hv).imp fun _ ⟨hle, hmade, hh⟩ => ⟨hle, hh, hmade⟩

section Calls

variable {apply apply' : Closure → List Value → Eval Value}
  (happly : ∀ P F F' f f' args args', Closure.Desugared K [] P f f' →
    List.Forall₂ (Value.Desugared K P) args args' →
    Agree K side P F F' (Value.Desugared K) (apply f args) (apply' f' args'))

include happly

theorem agree_instantiate (c : ClassId) {args args' : List Value}
    (hargs : List.Forall₂ (Value.Desugared K P) args args') :
    Agree K side P F F' (Value.Desugared K) (instantiate apply c args)
      (instantiate apply' c args') := by
  refine (agree_makeBeside (R := fun _ => Eq) fun h h' hh => ?_).bind fun P₁ i i' hle hi => ?_
  · obtain ⟨hi, hrelated⟩ := hh.newInstance c
    exact ⟨hi, hh.with_related hrelated rfl rfl⟩
  subst hi
  refine Agree.get fun m m' hm => ?_
  have hinit := hm.heap.method? c Name.init
  generalize m.heap.method? c Name.init = o at hinit
  generalize m'.heap.method? c Name.init = o' at hinit
  cases hinit with
  | none => exact .pure (.same rfl)
  | some hf =>
    refine (agree_bind hf (.same rfl)).bind fun P₂ f f' hle₂ hf => ?_
    have hargs₂ := hargs.imp fun _ _ => Value.Desugared.mono (hle.trans hle₂)
    exact (happly _ _ _ _ _ _ _ hf hargs₂).discard.bindPure fun _ _ _ _ _ => .same rfl

theorem agree_callValue {callee callee' : Value} (hcallee : callee.Desugared K P callee')
    {args args' : List Value} (hargs : List.Forall₂ (Value.Desugared K P) args args')
    (span : Span) :
    Agree K side P F F' (Value.Desugared K) (callValue apply callee args span)
      (callValue apply' callee' args' span) := by
  refine Agree.get fun m m' hm => ?_
  rw [hm.heap.arity?_eq hcallee, ← hargs.length_eq]
  cases m'.heap.arity? callee' with
  | none => exact agree_fail span _
  | some arity =>
    refine .ite Iff.rfl ((agree_fail (R := fun _ _ _ => False) span _).bind
      fun _ _ _ _ => False.elim) ?_
    · cases hcallee with
      | function hf => exact happly _ _ _ _ _ _ _ hf hargs
      | same hv =>
        cases callee with
        | native f => exact agree_callNative f hargs span
        | klass c => exact agree_instantiate happly c hargs
        | function f => cases hv
        | _ => exact agree_fail span _

theorem agree_access {v v' : Value} (hv : v.Desugared K P v') :
    Agree K side P F F' (Value.Desugared K) (access apply v) (access apply' v') := by
  cases hv with
  | @function f f' hf =>
    obtain ⟨Γ, -, hcode, -⟩ := hf.code
    simp only [access]
    rw [hf.isGetter, ← hcode.isEmpty, ← hcode.returnsDirectly, hcode.name]
    exact .ite Iff.rfl
      (.ite Iff.rfl (agree_fail _ _)
        (.ite Iff.rfl (happly _ _ _ _ _ _ _ hf .nil) (agree_fail _ _)))
      (.pure (.function hf))
  | same hv =>
    cases v with
    | function f => cases hv
    | _ => exact .pure (.same rfl)

end Calls

/-! ## Members and elements -/

theorem agree_property {target target' : Value} (htarget : target.Desugared K P target')
    (name : Identifier) :
    Agree K side P F F' (Value.Desugared K) (property target name) (property target' name) := by
  cases htarget with
  | function hf => exact agree_fail _ _
  | same hv =>
    cases target with
    | object i =>
      refine Agree.get fun m m' hm => ?_
      have hmember := hm.heap.member? i name.name
      generalize m.heap.member? i name.name = o at hmember
      generalize m'.heap.member? i name.name = o' at hmember
      cases hmember with
      | none => exact agree_fail _ _
      | some hmember =>
        cases hmember with
        | field hv => exact .pure hv
        | method hf =>
          exact (agree_bind hf (.same rfl)).bind fun _ _ _ _ hf => .pure (.function hf)
    | klass c =>
      refine Agree.get fun m m' hm => ?_
      have hmember := hm.heap.static? c name.name
      generalize m.heap.static? c name.name = o at hmember
      generalize m'.heap.static? c name.name = o' at hmember
      cases hmember with
      | none => exact agree_fail _ _
      | some hv => exact .pure hv
    | _ => exact agree_fail _ _

theorem agree_setProperty {target target' : Value} (htarget : target.Desugared K P target')
    (name : Identifier) {v v' : Value} (hv : v.Desugared K P v') :
    Agree K side P F F' (fun _ => Eq) (setProperty target name v)
      (setProperty target' name v') := by
  cases htarget with
  | function hf => exact agree_fail _ _
  | same ht =>
    cases target with
    | object i =>
      exact agree_change fun h h' hh => hh.with_related (hh.setField i name.name hv) rfl rfl
    | klass c =>
      exact agree_change fun h h' hh => hh.with_related (hh.setStatic c name.name hv) rfl rfl
    | _ => exact agree_fail _ _

theorem agree_elementAt {array array' position position' : Value}
    (ha : array.Desugared K P array') (hp : position.Desugared K P position') (span : Span) :
    Agree K side P F F' (fun _ => Eq) (elementAt array position span)
      (elementAt array' position' span) := by
  cases ha with
  | function hf => exact agree_fail span _
  | same ha =>
    cases array with
    | array a =>
      refine Agree.get fun m m' hm => ?_
      rw [(hm.heap.elements a).size_eq, hp.like.position?_eq]
      cases position'.position? (m'.heap.elements a).size with
      | ok i => exact .pure rfl
      | error kind =>
        exact (agree_fail (R := fun _ _ _ => False) span kind).bind fun _ _ _ _ => False.elim
    | _ => exact agree_fail span _

theorem agree_element {array array' position position' : Value}
    (ha : array.Desugared K P array') (hp : position.Desugared K P position') (span : Span) :
    Agree K side P F F' (Value.Desugared K) (element array position span)
      (element array' position' span) := by
  refine (agree_elementAt ha hp span).bind fun P₁ found found' _ hfound => ?_
  subst hfound
  refine Agree.get fun m m' hm => ?_
  have hv := hm.heap.elements found.1 found.2
  generalize (m.heap.elements found.1)[found.2]? = o at hv
  generalize (m'.heap.elements found.1)[found.2]? = o' at hv
  cases hv with
  | none => exact agree_fail span _
  | some hv => exact .pure hv

theorem agree_setElement {array array' position position' v v' : Value}
    (ha : array.Desugared K P array') (hp : position.Desugared K P position')
    (hv : v.Desugared K P v') (span : Span) :
    Agree K side P F F' (fun _ => Eq) (setElement array position v span)
      (setElement array' position' v' span) := by
  refine (agree_elementAt ha hp span).bind fun P₁ found found' hle hfound => ?_
  subst hfound
  exact agree_change fun h h' hh =>
    hh.with_related (hh.setElement found.1 found.2 (hv.mono hle)) rfl rfl

/-! ## Methods by way of `super` -/

theorem receiver?_eq {m m' : Machine} (hm : m.Desugared K P F F' m')
    (hreaches : P.Reaches Γ F F') {k k' : Nat} (hhops : Hops Γ k k') :
    receiver? m (k + 1) = receiver? m' (k' + 1) := by
  have hv := hm.heap.getAt? hreaches hhops Name.this
  unfold receiver?
  dsimp only
  rw [hm.frame, hm.frame']
  generalize m.heap.getAt? k F Name.this = o at hv
  generalize m'.heap.getAt? k' F' Name.this = o' at hv
  cases hv with
  | none => rfl
  | some hv => cases hv <;> rfl

/-- The frames of `super` and of `this` are as many hops apart on both sides, so the same is
found. -/
theorem agree_superProperty (hreaches : P.Reaches Γ F F') {id : ExprId}
    (hl : ∃ k k', K.hops id = some (k + 1) ∧ K.hops' id = some (k' + 1) ∧
      Hops Γ (k + 1) (k' + 1) ∧ Hops Γ k k') (name : Identifier) (span : Span) :
    Agree K side P F F' (Value.Desugared K) (superProperty id name span)
      (superProperty id name span) := by
  obtain ⟨k, k', hk, hk', hsuper, hthis⟩ := hl
  refine Agree.get fun m m' hm => ?_
  have hclass := hm.heap.getAt? hreaches hsuper Name.super
  rw [hm.distances, hm.distances', hk, hk', hm.frame, hm.frame']
  dsimp only
  rw [receiver?_eq hm hreaches hthis]
  generalize m.heap.getAt? (k + 1) F Name.super = o at hclass
  generalize m'.heap.getAt? (k' + 1) F' Name.super = o' at hclass
  cases hclass with
  | none => exact agree_fail span _
  | @some v v' hclass =>
    cases hclass with
    | function hf => exact agree_fail span _
    | same hv =>
      cases v with
      | klass c =>
        have hmethod := hm.heap.method? c name.name
        have hstatic := hm.heap.static? c name.name
        dsimp only
        generalize m.heap.method? c name.name = f at hmethod
        generalize m'.heap.method? c name.name = f' at hmethod
        generalize m.heap.static? c name.name = s at hstatic
        generalize m'.heap.static? c name.name = s' at hstatic
        rcases hr : receiver? m' (k' + 1) with _ | receiver
        · cases hstatic with
          | none => exact agree_fail _ _
          | some hv => exact .pure hv
        · cases hmethod with
          | none =>
            cases hstatic with
            | none => exact agree_fail _ _
            | some hv => exact .pure hv
          | some hf =>
            exact (agree_bind hf (.same (isFunction_receiver? hr))).bind
              fun _ _ _ _ hf => .pure (.function hf)
      | _ => exact agree_fail span _

/-! ## Functions and classes -/

/-- A function made where its scopes are open. -/
theorem agree_closure (hreaches : P.Reaches Γ F F') {f f' : Function}
    (hf : Function.Desugared K Γ f f') :
    Agree K side P F F' (Closure.Desugared K []) (closure f .function)
      (closure f' .function) := by
  refine Agree.get fun m m' hm => ?_
  rw [hm.frame, hm.frame']
  exact agree_makeBeside fun h h' hh => hh.newClosure [] hreaches hf nofun

/-- Instance members, made where their scopes but that of `this` are open. -/
theorem agree_methods {G G' : FrameId} (hreaches : P.Reaches Γ G G') {fs fs' : List Function}
    (hfs : List.Forall₂ (Function.Desugared K (true :: Γ)) fs fs') :
    Agree K side P F F' (fun P' => Table.Alike (Closure.Desugared K [true] P'))
      (make (·.newClosures G methodKind fs)) (make (·.newClosures G' methodKind fs')) := by
  have hkind (f f' : Function) (h : f.name = f'.name) : methodKind f = methodKind f' := by
    rw [methodKind, methodKind, h]
  exact agree_makeBeside fun _ _ hh => hh.newClosures [true] hreaches hkind
    (fun _ _ => by simp) hfs

theorem agree_statics {G G' : FrameId} (hreaches : P.Reaches Γ G G') {fs fs' : List Function}
    (hfs : List.Forall₂ (Function.Desugared K Γ) fs fs') :
    Agree K side P F F' (fun P' => Table.Alike (Closure.Desugared K [] P'))
      (make (·.newClosures G (fun _ => .staticMethod) fs))
      (make (·.newClosures G' (fun _ => .staticMethod) fs')) :=
  agree_makeBeside fun _ _ hh => hh.newClosures [] hreaches (fun _ _ _ => rfl)
    (fun _ h => absurd h (by decide)) hfs

theorem agree_superclassOf {r : Reference} (hreaches : P.Reaches Γ F F') (hl : K.Links Γ r.id) :
    Agree K side P F F' (fun _ => Eq) (superclassOf r) (superclassOf r) := by
  refine (agree_lookup hreaches hl r.name.name r.name.span).bind fun _ v v' _ hv => ?_
  cases hv with
  | function hf => exact agree_fail _ _
  | same hv =>
    cases v with
    | klass c => exact .pure rfl
    | _ => exact agree_fail _ _

theorem agree_traitOf {r : Reference} (hreaches : P.Reaches Γ F F') (hl : K.Links Γ r.id) :
    Agree K side P F F' (fun _ => Eq) (traitOf r) (traitOf r) := by
  refine (agree_lookup hreaches hl r.name.name r.name.span).bind fun _ v v' _ hv => ?_
  cases hv with
  | function hf => exact agree_fail _ _
  | same hv =>
    cases v with
    | trait t => exact .pure rfl
    | _ => exact agree_fail _ _

end Operations

end Desugaring

end Lox

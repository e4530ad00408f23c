import Lox.Proofs.Class.Member
import Lox.Proofs.Rename.Heap

/-!
# Machines of renamed programs

What programs do in single steps, done side by side on machines that know the same distances, ends
alike: in a value, in a signal or in an error of one kind at one place, and with the same output.
The names that errors tell alone may differ.

    ρ.Links Γ id name name' → P.Reaches Γ F →
      ρ.Agree P F (Value.Renamed ρ) (lookup id name span) (lookup id name' span)     (agree_lookup)
-/

namespace Lox

variable {α β α' β' : Type} {ρ : Renaming} {P P' : Plan} {F : FrameId}

/-! ## Machines and results -/

/-- Machines that run in the frame `F`. -/
structure Machine.Renamed (ρ : Renaming) (P : Plan) (F : FrameId) (m m' : Machine) : Prop where
  heap : m.heap.Renamed ρ P m'.heap
  frame : m.frame = F
  frame' : m'.frame = F
  distances : ∀ id : ExprId, m.distances[id]? = ρ.hops id
  distances' : ∀ id : ExprId, m'.distances[id]? = ρ.hops id
  output : m.output = m'.output
  time : m.time = m'.time

/-- Errors of one kind, which may tell the local by its other name. -/
inductive RuntimeErrorKind.Renamed (ρ : Renaming) : RuntimeErrorKind → RuntimeErrorKind → Prop
  | same (kind : RuntimeErrorKind) : RuntimeErrorKind.Renamed ρ kind kind
  | undefinedVariable (own : Bool) (name : String) :
      RuntimeErrorKind.Renamed ρ (.undefinedVariable name) (.undefinedVariable (ρ.rename own name))
  | notATrait (own : Bool) (name : String) :
      RuntimeErrorKind.Renamed ρ (.notATrait name) (.notATrait (ρ.rename own name))

structure RuntimeError.Renamed (ρ : Renaming) (e e' : RuntimeError) : Prop where
  span : e.span = e'.span
  kind : e.kind.Renamed ρ e'.kind

inductive Stop.Renamed (ρ : Renaming) : Stop → Stop → Prop
  | error {e e' : RuntimeError} : e.Renamed ρ e' → Stop.Renamed ρ (.error e) (.error e')
  | outOfFuel : Stop.Renamed ρ .outOfFuel .outOfFuel

inductive Signal.Renamed (ρ : Renaming) (P : Plan) : Signal → Signal → Prop
  | next : Signal.Renamed ρ P .next .next
  | break : Signal.Renamed ρ P .break .break
  | continue : Signal.Renamed ρ P .continue .continue
  | return {v v' : Value} : v.Renamed ρ P v' → Signal.Renamed ρ P (.return v) (.return v')

namespace Renaming

/-- Both end well with related results, on machines that belong to a plan grown out of `P`, or both
are stopped by the same with the same output. -/
inductive Ends (ρ : Renaming) (P : Plan) (F : FrameId) (R : Plan → α → α' → Prop) :
    EStateM.Result Stop Machine α → EStateM.Result Stop Machine α' → Prop
  | ok {P' : Plan} {a : α} {a' : α'} {m m' : Machine} : P <+: P' → m.Renamed ρ P' F m' →
      R P' a a' → Ends ρ P F R (.ok a m) (.ok a' m')
  | error {stop stop' : Stop} {m m' : Machine} : stop.Renamed ρ stop' → m.output = m'.output →
      Ends ρ P F R (.error stop m) (.error stop' m')

/-- From machines that belong to `P` and run in `F`, both end alike. -/
def Agree (ρ : Renaming) (P : Plan) (F : FrameId) (R : Plan → α → α' → Prop) (x : Eval α)
    (x' : Eval α') : Prop :=
  ∀ m m', m.Renamed ρ P F m' → ρ.Ends P F R (x m) (x' m')

variable {R : Plan → α → α' → Prop} {S : Plan → β → β' → Prop}

theorem Ends.weaken {r : EStateM.Result Stop Machine α} {r' : EStateM.Result Stop Machine α'}
    (h : ρ.Ends P' F R r r') (hle : P <+: P') : ρ.Ends P F R r r' := by
  cases h with
  | ok hle' hm ha => exact .ok (hle.trans hle') hm ha
  | error hstop houtput => exact .error hstop houtput

/-- One step after the other, the first of which has been run. -/
theorem Ends.bind {x : Eval α} {x' : Eval α'} {f : α → Eval β} {f' : α' → Eval β'} {m m' : Machine}
    (hx : ρ.Ends P F R (x m) (x' m'))
    (hf : ∀ P₁ a a' m₁ m₁', P <+: P₁ → x m = .ok a m₁ → m₁.Renamed ρ P₁ F m₁' → R P₁ a a' →
      ρ.Ends P₁ F S (f a m₁) (f' a' m₁')) :
    ρ.Ends P F S ((x >>= f) m) ((x' >>= f') m') := by
  generalize hr : x m = r at hx
  generalize hr' : x' m' = r' at hx
  cases hx with
  | ok hle hm ha =>
    rw [EStateM.bind_of_ok hr, EStateM.bind_of_ok hr']
    exact (hf _ _ _ _ _ hle hr hm ha).weaken hle
  | error hstop houtput =>
    rw [EStateM.bind_of_error hr, EStateM.bind_of_error hr']
    exact .error hstop houtput

namespace Agree

variable {x : Eval α} {x' : Eval α'} {f : α → Eval β} {f' : α' → Eval β'}

theorem pure {a : α} {a' : α'} (h : R P a a') : ρ.Agree P F R (Pure.pure a) (Pure.pure a') :=
  fun _ _ hm => .ok (List.prefix_refl P) hm h

theorem throw {stop stop' : Stop} (h : stop.Renamed ρ stop') :
    ρ.Agree P F R (throw stop) (throw stop') := fun _ _ hm => .error h hm.output

theorem bind (hx : ρ.Agree P F R x x')
    (hf : ∀ P₁ a a', P <+: P₁ → R P₁ a a' → ρ.Agree P₁ F S (f a) (f' a')) :
    ρ.Agree P F S (x >>= f) (x' >>= f') := fun m m' hm =>
  (hx m m' hm).bind fun P₁ a a' m₁ m₁' hle _ hm₁ ha => hf P₁ a a' hle ha m₁ m₁' hm₁

/-- What comes behind a look at the machines. -/
theorem get {f : Machine → Eval β} {f' : Machine → Eval β'}
    (hf : ∀ m m', m.Renamed ρ P F m' → ρ.Agree P F S (f m) (f' m')) :
    ρ.Agree P F S (get >>= f) (get >>= f') := fun m m' hm => hf m m' hm m m' hm

theorem map (hx : ρ.Agree P F R x x') {g : α → β} {g' : α' → β'}
    (hg : ∀ P₁ a a', R P₁ a a' → S P₁ (g a) (g' a')) : ρ.Agree P F S (g <$> x) (g' <$> x') := by
  rw [map_eq_pure_bind, map_eq_pure_bind]
  exact hx.bind fun P₁ a a' _ ha => .pure (hg P₁ a a' ha)

theorem discard (hx : ρ.Agree P F R x x') :
    ρ.Agree P F (fun _ => Eq) (discard x) (discard x') := hx.map fun _ _ _ _ => rfl

theorem ite {p p' : Prop} [Decidable p] [Decidable p'] {y : Eval α} {y' : Eval α'} (hp : p ↔ p')
    (hx : ρ.Agree P F R x x') (hy : ρ.Agree P F R y y') :
    ρ.Agree P F R (if p then x else y) (if p' then x' else y') := by
  by_cases h : p
  · rwa [if_pos h, if_pos (hp.1 h)]
  · rwa [if_neg h, if_neg fun h' => h (hp.2 h')]

theorem inFrame {G : FrameId} (hx : ρ.Agree P G R x x') :
    ρ.Agree P F R (Eval.inFrame G x) (Eval.inFrame G x') := by
  intro m m' hm
  have h := hx { m with frame := G } { m' with frame := G } { hm with frame := rfl, frame' := rfl }
  unfold Eval.inFrame
  dsimp only
  generalize x { m with frame := G } = r at h
  generalize x' { m' with frame := G } = r' at h
  cases h with
  | ok hle hr ha => exact .ok hle { hr with frame := hm.frame, frame' := hm.frame' } ha
  | error hstop houtput => exact .error hstop houtput

end Agree

/-! ## Operations -/

section Operations

open Eval

variable {R : Plan → α → α → Prop}

theorem agree_fail {span : Span} {kind kind' : RuntimeErrorKind} (h : kind.Renamed ρ kind') :
    ρ.Agree P F R (fail span kind) (fail span kind') := .throw (.error ⟨rfl, h⟩)

theorem agree_fail_same (span : Span) (kind : RuntimeErrorKind) :
    ρ.Agree P F R (fail span kind) (fail span kind) := agree_fail (.same kind)

theorem agree_outOfFuel : ρ.Agree P F R outOfFuel outOfFuel := .throw .outOfFuel

theorem agree_make {g g' : Heap → α × Heap}
    (hg : ∀ h h' : Heap, h.Renamed ρ P h' → Heap.Grown ρ P R (g h) (g' h')) :
    ρ.Agree P F R (make g) (make g') := by
  intro m m' hm
  obtain ⟨P₁, hle, ha, hh⟩ := hg _ _ hm.heap
  exact .ok hle { hm with heap := hh } ha

/-- What is made beside frames. -/
theorem agree_makeIn {g g' : Heap → α × Heap}
    (hg : ∀ h h' : Heap, h.Renamed ρ P h' → Heap.MadeIn ρ P (R P) (g h) (g' h')) :
    ρ.Agree P F R (make g) (make g') :=
  agree_make fun h h' hh => ⟨P, List.prefix_refl P, hg h h' hh⟩

theorem agree_change {g g' : Heap → Heap}
    (hg : ∀ h h' : Heap, h.Renamed ρ P h' → (g h).Renamed ρ P (g' h')) :
    ρ.Agree P F (fun _ => Eq) (change g) (change g') :=
  fun _ _ hm => .ok (List.prefix_refl P) { hm with heap := hg _ _ hm.heap } rfl

theorem agree_printLine (text : String) (span : Span) :
    ρ.Agree P F (fun _ => Eq) (printLine text span) (printLine text span) := by
  intro m m' hm
  unfold printLine
  rw [← hm.output]
  obtain ⟨all, output⟩ := m.output.write (text ++ "\n")
  cases all with
  | true => exact .ok (List.prefix_refl P) { hm with output := rfl } rfl
  | false => exact .error (.error ⟨rfl, .same _⟩) rfl

/-- A frame of a scope of which it is known whether the local belongs to it. -/
theorem agree_newFrame (enclosing : FrameId) (own : Bool) {bindings bindings' : Table Value}
    (hb : Table.Renamed ρ own (Value.Renamed ρ P) bindings bindings') :
    ρ.Agree P F (fun P' f f' => f = f' ∧ P'[f.index]? = some (some enclosing, own))
      (make (·.newFrame enclosing bindings)) (make (·.newFrame enclosing bindings')) :=
  agree_make fun _ _ hh => hh.newFrame enclosing own hb

theorem agree_inNewFrame {R : Plan → α → α' → Prop} {x : Eval α} {x' : Eval α'} (own : Bool)
    (hx : ∀ P' G, P <+: P' → P'[G.index]? = some (some F, own) → ρ.Agree P' G R x x') :
    ρ.Agree P F R (inNewFrame x) (inNewFrame x') := by
  refine Agree.get fun m m' hm => ?_
  rw [hm.frame, hm.frame']
  refine (agree_newFrame F own .empty).bind fun P' G G' hle ⟨hG, he⟩ => ?_
  subst hG
  exact (hx P' G hle he).inFrame

/-! ## Names -/

variable {Γ : List Bool}

/-- In the frame that is run in, names stand for each other as in the innermost scope. -/
theorem names_of_reaches {h h' : Heap} (hh : h.Renamed ρ P h') (hreaches : P.Reaches Γ F)
    {name name' : String} (hn : ρ.Names (Γ.headD false) name name') :
    ∀ e, P[F.index]? = some e → ρ.Names e.2 name name' := by
  intro e he
  cases Γ with
  | nil =>
    obtain rfl : F = Heap.globals := hreaches
    obtain ⟨_, hglobals⟩ := hh.globals
    rw [hglobals] at he
    cases he
    exact hn
  | cons own Γ =>
    obtain ⟨outer, he', -⟩ := hreaches
    rw [he'] at he
    cases he
    exact hn

theorem agree_define (hreaches : P.Reaches Γ F) {name name' : String}
    (hn : ρ.Names (Γ.headD false) name name') {v v' : Value} (hv : v.Renamed ρ P v') :
    ρ.Agree P F (fun _ => Eq) (define name v) (define name' v') := by
  intro m m' hm
  refine .ok (List.prefix_refl P) { hm with heap := ?_ } rfl
  show (m.heap.define m.frame name v).Renamed ρ P (m'.heap.define m'.frame name' v')
  rw [hm.frame, hm.frame']
  exact hm.heap.define (names_of_reaches hm.heap hreaches hn) hv

/-- Names for a use that stand for each other in the frame where they are looked for. -/
theorem agree_lookup_of_names {id : ExprId} {name name' : String} (span : Span)
    (hn : ∀ h h' : Heap, h.Renamed ρ P h' → ∀ hops g e, ρ.hops id = some hops →
      h.ancestor? hops F = some g → P[g.index]? = some e → ρ.Names e.2 name name')
    (hglobal : ρ.hops id = none → name = name') (hrename : ∃ own, name' = ρ.rename own name) :
    ρ.Agree P F (Value.Renamed ρ) (lookup id name span) (lookup id name' span) := by
  refine Agree.get fun m m' hm => ?_
  obtain ⟨own, hrename⟩ := hrename
  have hundefined : ρ.Agree P F (Value.Renamed ρ) (fail span (.undefinedVariable name))
      (fail span (.undefinedVariable name')) := by
    subst hrename
    exact agree_fail (.undefinedVariable own name)
  unfold Machine.lookup
  rw [hm.distances, hm.distances', hm.frame, hm.frame']
  cases hhops : ρ.hops id with
  | none =>
    have hv := hm.heap.get?_globals name
    rw [← hglobal hhops] at hundefined ⊢
    dsimp only
    generalize m.heap.get? Heap.globals name = o at hv
    generalize m'.heap.get? Heap.globals name = o' at hv
    cases hv with
    | none => exact hundefined
    | some hv => exact .pure hv
  | some hops =>
    have hv := hm.heap.getAt? (hn m.heap m'.heap hm.heap hops · · hhops)
    dsimp only
    generalize m.heap.getAt? hops F name = o at hv
    generalize m'.heap.getAt? hops F name' = o' at hv
    cases hv with
    | none => exact hundefined
    | some hv => exact .pure hv

/-- A use is looked for where its name stands for the other. -/
theorem names_of_links {h h' : Heap} (hh : h.Renamed ρ P h') (hreaches : P.Reaches Γ F)
    {id : ExprId} {name name' : String} (hl : ρ.Links Γ id name name') {hops : Nat}
    (hhops : ρ.hops id = some hops) :
    ∀ g e, h.ancestor? hops F = some g → P[g.index]? = some e → ρ.Names e.2 name name' := by
  intro g e hg he
  obtain ⟨own, hown, hn⟩ := hl.linked hops hhops
  obtain ⟨g', outer, hg', he'⟩ := hh.ancestor?_of_reaches hreaches hown
  obtain rfl := Option.some.inj (hg.symm.trans hg')
  rw [he'] at he
  cases he
  exact hn

theorem agree_lookup (hreaches : P.Reaches Γ F) {id : ExprId} {name name' : String}
    (hl : ρ.Links Γ id name name') (span : Span) :
    ρ.Agree P F (Value.Renamed ρ) (lookup id name span) (lookup id name' span) :=
  agree_lookup_of_names span
    (fun _ _ hh _ g e hhops => names_of_links hh hreaches hl hhops g e) hl.global
    hl.exists_rename

/-- `this` means itself in every frame. -/
theorem agree_lookup_this (id : ExprId) (span : Span) :
    ρ.Agree P F (Value.Renamed ρ) (lookup id Name.this span) (lookup id Name.this span) :=
  agree_lookup_of_names span
    (fun _ _ hh _ _ e _ _ _ => hh.names_keyword Name.not_plain_this e.2) (fun _ => rfl)
    ⟨false, (rename_false _).symm⟩

theorem agree_assigned {name name' : Identifier} (hspan : name'.span = name.span)
    (hrename : ∃ own, name'.name = ρ.rename own name.name) {write write' : Machine → Bool × Heap}
    (hw : ∀ m m', m.Renamed ρ P F m' → Heap.MadeIn ρ P Eq (write m) (write' m')) :
    ρ.Agree P F (fun _ => Eq) (assigned name write) (assigned name' write') := by
  refine Agree.bind (R := fun _ => Eq) (fun m m' hm => ?_) fun P₁ found found' _ hfound => ?_
  · exact .ok (List.prefix_refl P) { hm with heap := (hw m m' hm).2 } (hw m m' hm).1
  subst hfound
  cases found with
  | true => exact .pure rfl
  | false =>
    obtain ⟨own, hrename⟩ := hrename
    rw [hspan, hrename]
    exact agree_fail (.undefinedVariable own name.name)

theorem agree_assign (hreaches : P.Reaches Γ F) {id : ExprId} {name name' : Identifier}
    (hspan : name'.span = name.span) (hl : ρ.Links Γ id name.name name'.name) {v v' : Value}
    (hv : v.Renamed ρ P v') :
    ρ.Agree P F (fun _ => Eq) (assign id name v) (assign id name' v') := by
  refine agree_assigned hspan hl.exists_rename fun m m' hm => ?_
  rw [hm.distances, hm.distances', hm.frame, hm.frame']
  cases hhops : ρ.hops id with
  | none =>
    rw [← hl.global hhops]
    exact hm.heap.assign_globals name.name hv
  | some hops => exact hm.heap.assignAt (names_of_links hm.heap hreaches hl hhops) hv

/-- Overwriting a variable that the current frame has. -/
theorem ends_assignNearest (hreaches : P.Reaches Γ F) {name : Identifier}
    (hn : ρ.Names (Γ.headD false) name.name name.name) {v v' : Value} (hv : v.Renamed ρ P v')
    {m m' : Machine} (hm : m.Renamed ρ P F m') (hb : (m.heap.getIn? F name.name).isSome) :
    ρ.Ends P F (fun _ => Eq) (assignNearest name v m) (assignNearest name v' m') := by
  have hnames := names_of_reaches hm.heap hreaches hn
  have hb' : (m'.heap.getIn? F name.name).isSome :=
    (rel_isSome (hm.heap.getIn? hnames)).symm.trans hb
  rw [← hm.frame] at hb
  rw [← hm.frame'] at hb'
  rw [assignNearest_of_getIn? hb, assignNearest_of_getIn? hb', hm.frame, hm.frame']
  exact .ok (List.prefix_refl P) { hm with
    heap := hm.heap.define hnames hv
    frame := rfl
    frame' := rfl } rfl

/-! ## Operators -/

theorem agree_located {span : Span} {r : Operation Value}
    (hr : ∀ v, r = .ok v → v.isFunction = false) :
    ρ.Agree P F (Value.Renamed ρ) (located span r) (located span r) := by
  cases r with
  | ok v => exact .pure (.same (hr v rfl))
  | error kind => exact agree_fail_same span kind

theorem agree_binary (op : BinaryOp) (span : Span) {v v' w w' : Value} (hv : v.Renamed ρ P v')
    (hw : w.Renamed ρ P w') :
    ρ.Agree P F (Value.Renamed ρ) (located span (op.apply v w)) (located span (op.apply v' w')) := by
  rw [op.apply_eq hv.like hw.like]
  exact agree_located fun _ => op.isFunction_apply

theorem agree_unary (op : UnaryOp) (span : Span) {v v' : Value} (hv : v.Renamed ρ P v') :
    ρ.Agree P F (Value.Renamed ρ) (located span (op.apply v)) (located span (op.apply v')) := by
  rw [op.apply_eq hv.like]
  exact agree_located fun _ => op.isFunction_apply

/-! ## Calls -/

/-- Natives answer alike: no text that they make of a value has the name of a local in it. -/
theorem agree_callNative (f : Native) {args args' : List Value}
    (hargs : List.Forall₂ (Value.Renamed ρ P) args args') (span : Span) :
    ρ.Agree P F (Value.Renamed ρ) (callNative f args span) (callNative f args' span) := by
  by_cases hlength : args.length = f.arity
  case neg =>
    rw [callNative_of_length_ne hlength, callNative_of_length_ne (hargs.length_eq ▸ hlength),
      hargs.length_eq]
    exact agree_fail_same span _
  cases f with
  | clock =>
    obtain rfl := List.eq_nil_of_length_eq_zero hlength
    cases hargs
    intro m m' hm
    refine .ok (List.prefix_refl P)
      { hm with time := congrArg (fun time n => time (n + 1)) hm.time } ?_
    rw [hm.time]
    exact .same rfl
  | str =>
    obtain ⟨v, rfl⟩ := List.length_eq_one_iff.1 hlength
    obtain - | ⟨hv, ⟨⟩⟩ := hargs
    refine Agree.get fun m m' hm => ?_
    rw [hm.heap.text hv]
    exact .pure (.same rfl)
  | append =>
    obtain ⟨a, v, rfl⟩ := List.length_eq_two.1 hlength
    obtain - | ⟨ha, - | ⟨hv, ⟨⟩⟩⟩ := hargs
    cases ha with
    | function hf => exact agree_fail_same span _
    | same ha =>
      cases a with
      | array a =>
        exact (agree_change fun h h' hh => hh.with_related (hh.pushElement a hv) rfl rfl).bind
          fun _ _ _ _ _ => .pure (.same rfl)
      | _ => exact agree_fail_same span _
  | len =>
    obtain ⟨a, rfl⟩ := List.length_eq_one_iff.1 hlength
    obtain - | ⟨ha, ⟨⟩⟩ := hargs
    cases ha with
    | function hf => exact agree_fail_same span _
    | same ha =>
      cases a with
      | array a =>
        refine Agree.get fun m m' hm => ?_
        rw [(hm.heap.elements a).size_eq]
        exact .pure (.same rfl)
      | _ => exact agree_fail_same span _

section Calls

variable {apply : Closure → List Value → Eval Value}
  (happly : ∀ P F f f' args args', Closure.Renamed ρ [] P f f' →
    List.Forall₂ (Value.Renamed ρ P) args args' →
    ρ.Agree P F (Value.Renamed ρ) (apply f args) (apply f' args'))

include happly

theorem agree_instantiate (c : ClassId) {args args' : List Value}
    (hargs : List.Forall₂ (Value.Renamed ρ P) args args') :
    ρ.Agree P F (Value.Renamed ρ) (instantiate apply c args) (instantiate apply c args') := by
  refine (agree_makeIn (R := fun _ => Eq) fun h h' hh => ?_).bind fun P₁ i i' hle hi => ?_
  · obtain ⟨hi, hrelated⟩ := hh.newInstance c
    exact ⟨hi, hh.with_related hrelated rfl rfl⟩
  subst hi
  refine Agree.get fun m m' hm => ?_
  have hinit := hm.heap.method? c Name.init
  generalize m.heap.method? c Name.init = o at hinit
  generalize m'.heap.method? c Name.init = o' at hinit
  cases hinit with
  | none => exact .pure (.same rfl)
  | some hf =>
    refine (agree_make fun h h' hh => hh.bind hf (.same rfl)).bind fun P₂ f f' hle₂ hf => ?_
    have hargs₂ := hargs.imp fun _ _ => Value.Renamed.mono (hle.trans hle₂)
    exact (happly _ _ _ _ _ _ hf hargs₂).discard.bind fun _ _ _ _ _ => .pure (.same rfl)

theorem agree_callValue {callee callee' : Value} (hcallee : callee.Renamed ρ P callee')
    {args args' : List Value} (hargs : List.Forall₂ (Value.Renamed ρ P) args args') (span : Span) :
    ρ.Agree P F (Value.Renamed ρ) (callValue apply callee args span)
      (callValue apply callee' args' span) := by
  refine Agree.get fun m m' hm => ?_
  rw [hm.heap.arity?_eq hcallee, ← hargs.length_eq]
  cases m'.heap.arity? callee' with
  | none => exact agree_fail_same span _
  | some arity =>
    refine .ite Iff.rfl ((agree_fail_same (R := fun _ _ _ => False) span _).bind
      fun _ _ _ _ => False.elim) ?_
    · cases hcallee with
      | function hf => exact happly _ _ _ _ _ _ hf hargs
      | same hv =>
        cases callee with
        | native f => exact agree_callNative f hargs span
        | klass c => exact agree_instantiate happly c hargs
        | function f => cases hv
        | _ => exact agree_fail_same span _

theorem agree_access {v v' : Value} (hv : v.Renamed ρ P v') :
    ρ.Agree P F (Value.Renamed ρ) (access apply v) (access apply v') := by
  cases hv with
  | @function f f' hf =>
    obtain ⟨Γ, -, hcode⟩ := hf.code
    simp only [access]
    rw [hf.isGetter, ← hcode.isEmpty, ← hcode.returnsDirectly, hcode.name]
    exact .ite Iff.rfl
      (.ite Iff.rfl (agree_fail_same _ _)
        (.ite Iff.rfl (happly _ _ _ _ _ _ hf .nil) (agree_fail_same _ _)))
      (.pure (.function hf))
  | same hv =>
    cases v with
    | function f => cases hv
    | _ => exact .pure (.same rfl)

end Calls

/-! ## Members and elements -/

theorem agree_property {target target' : Value} (htarget : target.Renamed ρ P target')
    (name : Identifier) :
    ρ.Agree P F (Value.Renamed ρ) (property target name) (property target' name) := by
  cases htarget with
  | function hf => exact agree_fail_same _ _
  | same hv =>
    cases target with
    | object i =>
      refine Agree.get fun m m' hm => ?_
      have hmember := hm.heap.member? i name.name
      generalize m.heap.member? i name.name = o at hmember
      generalize m'.heap.member? i name.name = o' at hmember
      cases hmember with
      | none => exact agree_fail_same _ _
      | some hmember =>
        cases hmember with
        | field hv => exact .pure hv
        | method hf =>
          exact (agree_make fun h h' hh => hh.bind hf (.same rfl)).bind fun _ _ _ _ hf =>
            .pure (.function hf)
    | klass c =>
      refine Agree.get fun m m' hm => ?_
      have hmember := hm.heap.static? c name.name
      generalize m.heap.static? c name.name = o at hmember
      generalize m'.heap.static? c name.name = o' at hmember
      cases hmember with
      | none => exact agree_fail_same _ _
      | some hv => exact .pure hv
    | _ => exact agree_fail_same _ _

theorem agree_setProperty {target target' : Value} (htarget : target.Renamed ρ P target')
    (name : Identifier) {v v' : Value} (hv : v.Renamed ρ P v') :
    ρ.Agree P F (fun _ => Eq) (setProperty target name v) (setProperty target' name v') := by
  cases htarget with
  | function hf => exact agree_fail_same _ _
  | same ht =>
    cases target with
    | object i =>
      exact agree_change fun h h' hh => hh.with_related (hh.setField i name.name hv) rfl rfl
    | klass c =>
      exact agree_change fun h h' hh => hh.with_related (hh.setStatic c name.name hv) rfl rfl
    | _ => exact agree_fail_same _ _

theorem agree_elementAt {array array' position position' : Value} (ha : array.Renamed ρ P array')
    (hp : position.Renamed ρ P position') (span : Span) :
    ρ.Agree P F (fun _ => Eq) (elementAt array position span)
      (elementAt array' position' span) := by
  cases ha with
  | function hf => exact agree_fail_same span _
  | same ha =>
    cases array with
    | array a =>
      refine Agree.get fun m m' hm => ?_
      rw [(hm.heap.elements a).size_eq, hp.like.position?_eq]
      cases position'.position? (m'.heap.elements a).size with
      | ok i => exact .pure rfl
      | error kind =>
        exact (agree_fail_same (R := fun _ _ _ => False) span kind).bind fun _ _ _ _ => False.elim
    | _ => exact agree_fail_same span _

theorem agree_element {array array' position position' : Value} (ha : array.Renamed ρ P array')
    (hp : position.Renamed ρ P position') (span : Span) :
    ρ.Agree P F (Value.Renamed ρ) (element array position span)
      (element array' position' span) := by
  refine (agree_elementAt ha hp span).bind fun P₁ found found' _ hfound => ?_
  subst hfound
  refine Agree.get fun m m' hm => ?_
  have hv := hm.heap.elements found.1 found.2
  generalize (m.heap.elements found.1)[found.2]? = o at hv
  generalize (m'.heap.elements found.1)[found.2]? = o' at hv
  cases hv with
  | none => exact agree_fail_same span _
  | some hv => exact .pure hv

theorem agree_setElement {array array' position position' v v' : Value}
    (ha : array.Renamed ρ P array') (hp : position.Renamed ρ P position') (hv : v.Renamed ρ P v')
    (span : Span) :
    ρ.Agree P F (fun _ => Eq) (setElement array position v span)
      (setElement array' position' v' span) := by
  refine (agree_elementAt ha hp span).bind fun P₁ found found' hle hfound => ?_
  subst hfound
  exact agree_change fun h h' hh =>
    hh.with_related (hh.setElement found.1 found.2 (hv.mono hle)) rfl rfl

/-! ## Methods by way of `super` -/

theorem receiver?_eq {m m' : Machine} (hm : m.Renamed ρ P F m') (hops : Nat) :
    receiver? m hops = receiver? m' hops := by
  cases hops with
  | zero => rfl
  | succ hops =>
    have hv : Option.Rel (Value.Renamed ρ P) (m.heap.getAt? hops F Name.this)
        (m'.heap.getAt? hops F Name.this) :=
      hm.heap.getAt? fun _ e _ _ => hm.heap.names_keyword Name.not_plain_this e.2
    unfold receiver?
    dsimp only
    rw [hm.frame, hm.frame']
    generalize m.heap.getAt? hops F Name.this = o at hv
    generalize m'.heap.getAt? hops F Name.this = o' at hv
    cases hv with
    | none => rfl
    | some hv => cases hv <;> rfl

/-- `super` and `this` are names of their own, which are not renamed. -/
theorem agree_superProperty (id : ExprId) (name : Identifier) (span : Span) :
    ρ.Agree P F (Value.Renamed ρ) (superProperty id name span) (superProperty id name span) := by
  refine Agree.get fun m m' hm => ?_
  rw [hm.distances, hm.distances', hm.frame, hm.frame']
  cases ρ.hops id with
  | none => exact agree_fail_same span _
  | some hops =>
    have hclass : Option.Rel (Value.Renamed ρ P) (m.heap.getAt? hops F Name.super)
        (m'.heap.getAt? hops F Name.super) :=
      hm.heap.getAt? fun _ e _ _ => hm.heap.names_keyword Name.not_plain_super e.2
    dsimp only
    rw [receiver?_eq hm]
    generalize m.heap.getAt? hops F Name.super = o at hclass
    generalize m'.heap.getAt? hops F Name.super = o' at hclass
    cases hclass with
    | none => exact agree_fail_same span _
    | @some v v' hclass =>
      cases hclass with
      | function hf => exact agree_fail_same span _
      | same hv =>
        cases v with
        | klass c =>
          have hmethod := hm.heap.method? c name.name
          have hstatic := hm.heap.static? c name.name
          dsimp only
          generalize m.heap.method? c name.name = f at hmethod
          generalize m'.heap.method? c name.name = f' at hmethod
          generalize m.heap.static? c name.name = s at hstatic
          generalize m'.heap.static? c name.name = s' at hstatic
          rcases hr : receiver? m' hops with _ | receiver
          · cases hstatic with
            | none => exact agree_fail_same _ _
            | some hv => exact .pure hv
          · cases hmethod with
            | none =>
              cases hstatic with
              | none => exact agree_fail_same _ _
              | some hv => exact .pure hv
            | some hf =>
              have hreceiver := isFunction_receiver? hr
              exact (agree_make fun h h' hh => hh.bind hf (.same hreceiver)).bind
                fun _ _ _ _ hf => .pure (.function hf)
        | _ => exact agree_fail_same span _

/-! ## Functions and classes -/

/-- A function made where its scopes are open. -/
theorem agree_closure (hreaches : P.Reaches Γ F) {f f' : Function}
    (hf : Function.Translated ρ Γ f f') (kind : FunctionKind) :
    ρ.Agree P F (Closure.Renamed ρ []) (closure f kind) (closure f' kind) := by
  refine Agree.get fun m m' hm => ?_
  rw [hm.frame, hm.frame']
  exact agree_makeIn fun h h' hh => hh.newClosure [] hreaches hf kind

/-- Functions made where their scopes but for `inner` are open. -/
theorem agree_newClosures {G : FrameId} {inner : List Bool} (hreaches : P.Reaches Γ G)
    {kind : Function → FunctionKind}
    (hkind : ∀ f f' : Function, f.name = f'.name → kind f = kind f') {fs fs' : List Function}
    (hfs : List.Forall₂ (Function.Translated ρ (inner ++ Γ)) fs fs') :
    ρ.Agree P F (fun P' => Table.Alike (Closure.Renamed ρ inner P'))
      (make (·.newClosures G kind fs)) (make (·.newClosures G kind fs')) :=
  agree_makeIn fun _ _ hh => hh.newClosures hreaches hkind hfs

theorem methodKind_eq_of_name_eq (f f' : Function) (h : f.name = f'.name) :
    methodKind f = methodKind f' := by
  rw [methodKind, methodKind, h]

section References

variable {σ : Renaming} {r : Reference}
  (hl : ρ.Links Γ r.id r.name.name (σ.rename (σ.linked Γ r.id) r.name.name))

include hl

theorem agree_superclassOf (hreaches : P.Reaches Γ F) :
    ρ.Agree P F (fun _ => Eq) (superclassOf r) (superclassOf (σ.reference Γ r)) := by
  refine (agree_lookup hreaches hl r.name.span).bind fun _ v v' _ hv => ?_
  cases hv with
  | function hf => exact agree_fail_same _ _
  | same hv =>
    cases v with
    | klass c => exact .pure rfl
    | _ => exact agree_fail_same _ _

theorem agree_traitOf (hreaches : P.Reaches Γ F) :
    ρ.Agree P F (fun _ => Eq) (traitOf r) (traitOf (σ.reference Γ r)) := by
  have hfail (P' : Plan) : ρ.Agree P' F (fun _ => Eq)
      (fail r.name.span (.notATrait r.name.name) : Eval TraitId)
      (fail r.name.span (.notATrait (σ.reference Γ r).name.name)) := by
    obtain ⟨own, hrename⟩ := hl.exists_rename
    show ρ.Agree P' F _ _ (fail r.name.span (.notATrait (σ.rename _ _)))
    rw [hrename]
    exact agree_fail (.notATrait own r.name.name)
  refine (agree_lookup hreaches hl r.name.span).bind fun P₁ v v' _ hv => ?_
  cases hv with
  | function hf => exact hfail P₁
  | same hv =>
    cases v with
    | trait t => exact .pure rfl
    | _ => exact hfail P₁

end References

end Operations

end Renaming

end Lox

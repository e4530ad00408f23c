import Lox.Proofs.Heap.Grounded
import Lox.Proofs.Run.Getter

/-!
# Runs stand on what is there

Whatever a program does to its heap are edits about frames and classes that are there, and what it
computes is about such as well (`Builds`); so from one machine to the next nothing that it has, or has
taken hold of, loses its footing:

    GroundedIn n      evaluations with fuel `n` lead from grounded heaps to grounded heaps (groundedIn)

From this, in all that a session comes by, the walks outward from frames and upward from classes come
to an end: `Reached.walks_end`.
-/

namespace Lox

/-- The current frame is there, and so is all that the heap refers to. -/
structure Machine.Grounded (m : Machine) : Prop where
  heap : m.heap.Grounded
  frame : m.frame.index < m.heap.frames.size

/-- By edits from the one heap to the other, and back in the frame. -/
structure Machine.LeadsTo (m m' : Machine) : Prop where
  heap : m.heap.LeadsTo m'.heap
  frame : m'.frame = m.frame

namespace Machine.LeadsTo

variable {m m' m'' : Machine}

theorem refl : m.LeadsTo m := ⟨.refl, rfl⟩

theorem trans (a : m.LeadsTo m') (b : m'.LeadsTo m'') : m.LeadsTo m'' :=
  ⟨a.heap.trans b.heap, b.frame.trans a.frame⟩

theorem grounded (a : m.LeadsTo m') (hm : m.Grounded) : m'.Grounded where
  heap := a.heap.grounded hm.heap
  frame := by
    rw [a.frame]
    exact Nat.lt_of_lt_of_le hm.frame a.heap.within.frames

theorem edit {h : Heap} (hh : m.heap.LeadsTo h) : m.LeadsTo { m with heap := h } := ⟨hh, rfl⟩

end Machine.LeadsTo

theorem Machine.Grounded.enter {m : Machine} (hm : m.Grounded) {outer : FrameId}
    (hlt : outer.index < m.heap.frames.size) {bindings : Table Value}
    (hb : bindings.All (Value.Grounded m.heap)) : (m.enter outer bindings).Grounded where
  heap := (Heap.LeadsTo.newFrame hlt hb).grounded hm.heap
  frame := by simp [Machine.enter, Heap.newFrame]

namespace Eval

open Run

variable {α β : Type} {Q : Heap → α → Prop} {R : Heap → β → Prop} {m : Machine}

/-! ## Operations -/

/-- On a grounded machine the evaluation makes edits about what is there, and what it gives is such
as `Q` says. -/
def Builds (Q : Heap → α → Prop) (x : Eval α) (m : Machine) : Prop :=
  m.Grounded → m.LeadsTo (machineOf (x m)) ∧ ∀ a m', x m = .ok a m' → Q m'.heap a

/-- What says nothing. -/
def Anything (_ : Heap) (_ : α) : Prop := True

namespace Builds

theorem of_ok {x : Eval α} (hx : Builds Q x m) (hm : m.Grounded) {a : α} {m' : Machine}
    (h : x m = .ok a m') : m.LeadsTo m' ∧ m'.Grounded ∧ Q m'.heap a := by
  obtain ⟨hleads, hq⟩ := hx hm
  rw [h] at hleads
  exact ⟨hleads, hleads.grounded hm, hq a m' h⟩

theorem read {f : Machine → Eval α} (hf : m.Grounded → Builds Q (f m) m) :
    Builds Q (get >>= f) m := fun hm => hf hm hm

theorem pure {a : α} (ha : Q m.heap a) : Builds Q (pure a) m :=
  fun _ => ⟨.refl, fun b m' h => by cases h; exact ha⟩

theorem throw (stop : Stop) : Builds Q (throw stop : Eval α) m :=
  fun _ => ⟨.refl, fun b m' h => by cases h⟩

theorem fail (span : Span) (kind : RuntimeErrorKind) : Builds Q (fail span kind) m :=
  throw (.error ⟨span, kind⟩)

theorem bind {x : Eval α} {f : α → Eval β} (hx : Builds Q x m)
    (hf : ∀ a m', m.LeadsTo m' → Q m'.heap a → Builds R (f a) m') :
    Builds R (x >>= f) m := by
  intro hm
  cases h : x m with
  | ok a m' =>
    obtain ⟨hleads, hm', ha⟩ := hx.of_ok hm h
    obtain ⟨hleads', hr⟩ := hf a m' hleads ha hm'
    rw [EStateM.bind_of_ok h]
    exact ⟨hleads.trans hleads', hr⟩
  | error stop m' =>
    obtain ⟨hleads, -⟩ := hx hm
    rw [h] at hleads
    rw [EStateM.bind_of_error h]
    exact ⟨hleads, fun b m'' h => by cases h⟩

theorem map {x : Eval α} (hx : Builds Q x m) {g : α → β} (hg : ∀ h a, Q h a → R h (g a)) :
    Builds R (g <$> x) m := by
  rw [map_eq_pure_bind]
  exact hx.bind fun a m' _ ha => .pure (hg _ a ha)

theorem discard {x : Eval α} (hx : Builds Q x m) : Builds Anything (discard x) m :=
  hx.map fun _ _ _ => trivial

theorem located {span : Span} {r : Except RuntimeErrorKind α}
    (hq : ∀ a, r = .ok a → Q m.heap a) : Builds Q (located span r) m := by
  cases r with
  | ok a => exact pure (hq a rfl)
  | error kind => exact fail span kind

theorem make {f : Heap → α × Heap} (hf : m.heap.LeadsTo (f m.heap).2)
    (hq : Q (f m.heap).2 (f m.heap).1) : Builds Q (make f) m :=
  fun _ => ⟨.edit hf, fun a m' h => by cases h; exact hq⟩

theorem change {f : Heap → Heap} (hf : m.heap.LeadsTo (f m.heap)) :
    Builds Anything (change f) m := fun _ => ⟨.edit hf, fun _ _ _ => trivial⟩

theorem inFrame {x : Eval α} {g : FrameId} (hg : g.index < m.heap.frames.size)
    (hx : Builds Q x { m with frame := g }) : Builds Q (inFrame g x) m := by
  intro hm
  obtain ⟨hleads, hq⟩ := hx ⟨hm.heap, hg⟩
  rw [inFrame_apply, machineOf_mapMachine]
  refine ⟨⟨hleads.heap, rfl⟩, fun a m' h => ?_⟩
  cases hbody : x { m with frame := g } with
  | ok b m'' =>
    rw [hbody] at h
    cases h
    exact hq _ m'' hbody
  | error stop m'' =>
    rw [hbody] at h
    cases h

theorem inNewFrame {x : Eval α} (hx : ∀ m, Builds Q x m) : Builds Q (inNewFrame x) m := by
  refine read fun hm => ?_
  refine bind (Q := fun h g => g.index < h.frames.size) (make ?_ ?_) fun g m' _ hg =>
    inFrame hg (hx _)
  · exact .newFrame hm.frame .empty
  · simp [Heap.newFrame]

/-! ### Variables -/

theorem define (name : String) {v : Value} (hv : v.Grounded m.heap) :
    Builds Anything (define name v) m :=
  fun _ => ⟨.edit (.define m.frame name hv), fun _ _ _ => trivial⟩

theorem lookup (id : ExprId) (name : String) (span : Span) :
    Builds Value.Grounded (lookup id name span) m := by
  refine read fun hm => located fun v hv => ?_
  obtain ⟨g, hv⟩ := Machine.exists_getIn?_of_lookup hv
  exact hm.heap.refers.getIn? hv

theorem assigned (name : Identifier) {write : Machine → Bool × Heap}
    (hw : m.heap.LeadsTo (write m).2) : Builds Anything (assigned name write) m := by
  have hwrite : Builds Anything
      (modifyGet fun m => ((write m).1, { m with heap := (write m).2 })) m :=
    fun _ => ⟨.edit hw, fun _ _ _ => trivial⟩
  refine hwrite.bind fun found _ _ _ => ?_
  cases found with
  | true => exact pure trivial
  | false => exact fail _ _

theorem assign (id : ExprId) (name : Identifier) {v : Value} (hv : v.Grounded m.heap) :
    Builds Anything (assign id name v) m := by
  refine assigned name ?_
  split
  · exact .assignAt _ m.frame name.name hv
  · exact .assign Heap.globals name.name hv

theorem assignNearest (name : Identifier) {v : Value} (hv : v.Grounded m.heap) :
    Builds Anything (assignNearest name v) m :=
  assigned name (.assign m.frame name.name hv)

/-! ### Natives, operators and elements -/

theorem printLine (text : String) (span : Span) : Builds Anything (printLine text span) m := by
  intro _
  rw [printLine_apply]
  split
  · exact ⟨⟨.refl, rfl⟩, fun _ _ _ => trivial⟩
  · exact ⟨⟨.refl, rfl⟩, fun _ _ _ => trivial⟩

theorem callNative (f : Native) {args : List Value} (ha : ∀ v ∈ args, v.Grounded m.heap)
    (span : Span) : Builds Value.Grounded (callNative f args span) m := by
  unfold Eval.callNative
  split
  · refine fun _ => ⟨⟨.refl, rfl⟩, fun v m' h => ?_⟩
    cases h
    trivial
  · exact read fun _ => pure trivial
  · next a v =>
    have hv : v.Grounded m.heap := ha v (by simp)
    exact (change (.one (e := .push a v) hv)).bind fun _ _ _ _ => pure trivial
  · exact fail _ _
  · exact read fun _ => pure trivial
  · exact fail _ _
  · exact fail _ _

theorem binary {op : BinaryOp} {a b v : Value} {h : Heap} (hv : op.apply a b = .ok v) :
    v.Grounded h := by
  obtain ⟨l, rfl⟩ := BinaryOp.exists_ofLiteral hv
  exact Value.grounded_ofLiteral h l

theorem unary {op : UnaryOp} {a v : Value} {h : Heap} (hv : op.apply a = .ok v) :
    v.Grounded h := by
  obtain ⟨l, rfl⟩ := UnaryOp.exists_ofLiteral hv
  exact Value.grounded_ofLiteral h l

theorem elementAt (array position : Value) (span : Span) :
    Builds Anything (elementAt array position span) m := by
  unfold Eval.elementAt
  split
  · refine read fun _ => ?_
    exact (located (Q := Anything) fun _ _ => trivial).bind fun _ _ _ _ => pure trivial
  · exact fail _ _

theorem element (array position : Value) (span : Span) :
    Builds Value.Grounded (element array position span) m := by
  refine (elementAt array position span).bind fun found _ _ _ => read fun hm => ?_
  split
  · next v hv => exact pure (hm.heap.refers.element (Array.mem_of_getElem? hv))
  · exact fail _ _

theorem setElement (array position : Value) {v : Value} (hv : v.Grounded m.heap) (span : Span) :
    Builds Anything (setElement array position v span) m :=
  (elementAt array position span).bind fun found _ hleads _ =>
    change (.one (e := .element found.1 found.2 v) (hv.mono hleads.heap.within))

/-! ### Members -/

theorem bound {f : Closure} (hf : f.Grounded m.heap) {v : Value} (hv : v.Grounded m.heap) :
    Builds Closure.Grounded (Eval.make (·.bind f v)) m :=
  make (.bind hf hv) (m.heap.grounded_bind f v)

theorem property (target : Value) (name : Identifier) :
    Builds Value.Grounded (property target name) m := by
  unfold Eval.property
  split
  · next i =>
    refine read fun hm => ?_
    split
    · next v hv => exact pure ((hm.heap.refers.member? hv).1 v rfl)
    · next f hf =>
      have hf := (hm.heap.refers.member? hf).2 f rfl
      exact (bound hf (v := .object i) trivial).bind fun g _ _ hg => pure hg
    · exact fail _ _
  · refine read fun hm => ?_
    split
    · next v hv => exact pure (hm.heap.refers.static? hv)
    · exact fail _ _
  · exact fail _ _

theorem setProperty (target : Value) (name : Identifier) {v : Value} (hv : v.Grounded m.heap) :
    Builds Anything (setProperty target name v) m := by
  unfold Eval.setProperty
  split
  · next i => exact change (.one (e := .field i name.name v) hv)
  · next c => exact change (.one (e := .static c name.name v) hv)
  · exact fail _ _

theorem receiver {hops : Nat} {v : Value} (h : receiver? m hops = some v) :
    v.Grounded m.heap := by
  unfold receiver? at h
  split at h
  · cases h
  · split at h
    · cases h
      trivial
    · cases h

theorem superProperty (id : ExprId) (name : Identifier) (span : Span) :
    Builds Value.Grounded (superProperty id name span) m := by
  refine read fun hm => ?_
  split
  · exact fail _ _
  split
  · exact fail _ _
  · split
    · next this f hthis hf =>
      exact (bound (hm.heap.refers.method? hf) (receiver hthis)).bind fun g _ _ hg => pure hg
    · split
      · next v hv => exact pure (hm.heap.refers.static? hv)
      · exact fail _ _
  · exact fail _ _

theorem closure (f : Function) (kind : FunctionKind) :
    Builds Closure.Grounded (closure f kind) m :=
  read fun hm => make (.functions _) hm.frame

/-! ### Declarations -/

theorem superclassOf (r : Reference) :
    Builds (fun h c => c.index < h.classes.size) (superclassOf r) m := by
  refine (lookup _ _ _).bind fun v _ _ hv => ?_
  cases v with
  | klass c => exact pure hv
  | _ => exact fail _ _

theorem traitOf (r : Reference) : Builds Anything (traitOf r) m := by
  refine (lookup _ _ _).bind fun v _ _ _ => ?_
  cases v with
  | trait t => exact pure trivial
  | _ => exact fail _ _

theorem traitsOf (rs : List Reference) : Builds Anything (rs.mapM Eval.traitOf) m := by
  induction rs generalizing m with
  | nil => exact pure trivial
  | cons r rs ih =>
    rw [List.mapM_cons]
    exact (traitOf r).bind fun t _ _ _ => ih.bind fun ts _ _ _ => pure trivial

theorem closures {frame : FrameId} (hf : frame.index < m.heap.frames.size)
    (kind : Function → FunctionKind) (fs : List Function) :
    Builds (fun h t => t.All (Closure.Grounded h)) (Eval.make (·.newClosures frame kind fs)) m := by
  obtain ⟨t, n, heq, ht⟩ := m.heap.exists_newClosures frame kind fs
  refine make ?_ ?_
  · rw [heq]
    exact .functions n
  · rw [heq]
    exact ht.mono fun c hc => by
      rw [Closure.Grounded, hc.2.1]
      exact hf

/-- A superclass that has been found is there. -/
def Superclass (h : Heap) (c : Option ClassId) : Prop := ∀ s, c = some s → s.index < h.classes.size

theorem classHeader (name : Identifier) (superclass : Option Reference)
    (traits : List Reference) :
    Builds (fun h found => Superclass h found.1) (classHeader name superclass traits) m := by
  have hsuperclass (m : Machine) : Builds Superclass (namedSuperclass superclass) m := by
    cases superclass with
    | none => exact pure fun _ h => by cases h
    | some r => exact (superclassOf r).map fun _ c hc s h => by cases h; exact hc
  refine (define name.name (v := .nil) trivial).bind fun _ m₁ _ _ => (hsuperclass m₁).bind fun c m₂ _ hc => ?_
  refine (traitsOf traits).bind fun ts m₃ hleads _ => pure fun s hs => ?_
  exact Nat.lt_of_lt_of_le (hc s hs) hleads.heap.within.classes

theorem classFrame {c : Option ClassId} (hc : Superclass m.heap c) :
    Builds (fun h g => g.index < h.frames.size) (classFrame c) m := by
  refine read fun hm => ?_
  cases c with
  | none => exact pure hm.frame
  | some c =>
    refine make (.newFrame hm.frame ?_) ?_
    · exact .ofPairs (List.forall_mem_singleton.2 (hc c rfl))
    · simp [Heap.newFrame]

theorem classMembers (name : Identifier) {c : Option ClassId} (ts : List TraitId)
    (methods statics : List Function) {frame : FrameId} (hc : Superclass m.heap c)
    (hf : frame.index < m.heap.frames.size) :
    Builds Anything (classMembers name c ts methods statics frame) m := by
  refine (closures hf _ methods).bind fun ms m₁ hleads₁ hms => ?_
  have hf₁ := Nat.lt_of_lt_of_le hf hleads₁.heap.within.frames
  refine (closures hf₁ _ statics).bind fun ss m₂ hleads₂ hss => fun hm₂ => ?_
  have hms₂ : ms.All (Closure.Grounded m₂.heap) :=
    hms.mono fun _ => Closure.Grounded.mono hleads₂.heap.within
  have hc₂ : Superclass m₂.heap c := fun s hs =>
    Nat.lt_of_lt_of_le (hc s hs) (hleads₁.trans hleads₂).heap.within.classes
  have hk : Class.Grounded m₂.heap ⟨name.name, c, m₂.heap.compose ts Trait.methods ms,
      m₂.heap.compose ts Trait.statics ss, ∅⟩ :=
    ⟨Heap.all_compose (fun k hk => (hm₂.heap.refers.traits k hk).methods) hms₂,
      Heap.all_compose (fun k hk => (hm₂.heap.refers.traits k hk).statics) hss, .empty⟩
  have hclass : Builds (fun h k => k.index < h.classes.size) (Eval.make fun h => h.newClass
      ⟨name.name, c, h.compose ts Trait.methods ms, h.compose ts Trait.statics ss, ∅⟩) m₂ :=
    make (.one (e := .klass _) ⟨hk, hc₂⟩) (by simp [Heap.newClass])
  exact (hclass.bind fun k _ _ hk => assignNearest name (v := .klass k) hk) hm₂

theorem declareClass (name : Identifier) (superclass : Option Reference)
    (traits : List Reference) (methods statics : List Function) :
    Builds Anything (declareClass name superclass traits methods statics) m := by
  rw [declareClass_eq]
  refine (classHeader name superclass traits).bind fun found m₁ _ hc => ?_
  refine (classFrame hc).bind fun frame m₂ hleads hf => ?_
  have hc₂ : Superclass m₂.heap found.1 := fun s hs =>
    Nat.lt_of_lt_of_le (hc s hs) hleads.heap.within.classes
  exact classMembers name found.2 methods statics hc₂ hf

theorem declareTrait (name : Identifier) (methods statics : List Function) :
    Builds Anything (declareTrait name methods statics) m := by
  refine read fun hm => (closures hm.frame _ methods).bind fun ms m₁ hleads₁ hms => ?_
  have hf₁ := Nat.lt_of_lt_of_le hm.frame hleads₁.heap.within.frames
  refine (closures hf₁ _ statics).bind fun ss m₂ hleads₂ hss => ?_
  have hms₂ : ms.All (Closure.Grounded m₂.heap) :=
    hms.mono fun _ => Closure.Grounded.mono hleads₂.heap.within
  have htrait : Builds Anything (Eval.make (·.newTrait ⟨name.name, ms, ss⟩)) m₂ :=
    make (.one (e := .trait _) ⟨hms₂, hss⟩) trivial
  exact htrait.bind fun t _ _ _ => define name.name (v := .trait t) trivial

/-! ### Sequences, loops and calls -/

theorem exprs {expr : Expr → Eval Value} (he : ∀ e m, Builds Value.Grounded (expr e) m)
    (es : List Expr) : Builds (fun h vs => ∀ v ∈ vs, v.Grounded h) (exprs expr es) m := by
  induction es generalizing m with
  | nil => exact pure (by simp)
  | cons e es ih =>
    refine (he e m).bind fun v m₁ _ hv => ih.bind fun vs m₂ hleads hvs => pure ?_
    exact List.forall_mem_cons.2 ⟨hv.mono hleads.heap.within, hvs⟩

theorem stmts {stmt : Stmt → Eval Signal} (hs : ∀ s m, Builds Signal.Grounded (stmt s) m)
    (ss : List Stmt) : Builds Signal.Grounded (stmts stmt ss) m := by
  induction ss generalizing m with
  | nil => exact pure trivial
  | cons s ss ih =>
    refine (hs s m).bind fun signal _ _ hsignal => ?_
    cases signal with
    | next => exact ih
    | _ => exact pure hsignal

theorem loop {test : Eval Bool} {turn : Eval Signal} {step : Eval Unit}
    (htest : ∀ m, Builds Anything test m) (hturn : ∀ m, Builds Signal.Grounded turn m)
    (hstep : ∀ m, Builds Anything step m) (turns : Nat) :
    Builds Signal.Grounded (loop test turn step turns) m := by
  induction turns generalizing m with
  | zero => exact throw _
  | succ turns ih =>
    refine (htest m).bind fun goesOn m₁ _ _ => ?_
    split
    · refine (hturn m₁).bind fun signal m₂ _ hsignal => ?_
      cases signal with
      | next => exact (hstep m₂).bind fun _ _ _ _ => ih
      | «continue» => exact (hstep m₂).bind fun _ _ _ _ => ih
      | «break» => exact pure trivial
      | «return» v => exact pure hsignal
    · exact pure trivial

theorem resultOf (f : Closure) {signal : Signal} (hs : signal.Grounded m.heap) :
    Builds Value.Grounded (resultOf f signal) m := by
  unfold Eval.resultOf
  split
  · refine read fun hm => ?_
    split
    · next v hv => exact pure (hm.heap.refers.getAt? hv)
    · exact fail _ _
  · cases signal with
    | «return» v => exact pure hs
    | _ => exact pure trivial

section Calls

variable {apply : Closure → List Value → Eval Value}
  (ha : ∀ f args m, f.Grounded m.heap → (∀ v ∈ args, v.Grounded m.heap) →
    Builds Value.Grounded (apply f args) m)

include ha

theorem instantiate {c : ClassId} (hc : c.index < m.heap.classes.size) {args : List Value}
    (hargs : ∀ v ∈ args, v.Grounded m.heap) :
    Builds Value.Grounded (instantiate apply c args) m := by
  have hmake : Builds Anything (Eval.make (·.newInstance c)) m :=
    make (.one (e := .object c) hc) trivial
  refine hmake.bind fun i m₁ hleads₁ _ => read fun hm₁ => ?_
  split
  · next f hf =>
    refine (bound (hm₁.heap.refers.method? hf) (v := .object i) trivial).bind fun g m₂ hleads₂ hg => ?_
    have hwithin := (hleads₁.trans hleads₂).heap.within
    exact (ha g args m₂ hg fun v hv => (hargs v hv).mono hwithin).discard.bind
      fun _ _ _ _ => pure trivial
  · exact pure trivial

theorem callValue {callee : Value} (hcallee : callee.Grounded m.heap) {args : List Value}
    (hargs : ∀ v ∈ args, v.Grounded m.heap) (span : Span) :
    Builds Value.Grounded (callValue apply callee args span) m := by
  have hguarded {p : Prop} [Decidable p] {kind : RuntimeErrorKind} {x : Eval Value}
      (hx : Builds Value.Grounded x m) :
      Builds Value.Grounded (if p then Eval.fail span kind >>= fun _ : PUnit => x else x) m := by
    split
    · exact fun _ => ⟨.refl, fun _ _ h => by cases h⟩
    · exact hx
  refine read fun _ => ?_
  split
  · exact fail _ _
  · cases callee with
    | native f => exact hguarded (callNative f hargs span)
    | function f => exact hguarded (ha f args m hcallee hargs)
    | klass c => exact hguarded (instantiate ha hcallee hargs)
    | _ => exact hguarded (fail _ _)

theorem access {v : Value} (hv : v.Grounded m.heap) : Builds Value.Grounded (access apply v) m := by
  cases v with
  | function f =>
    show Builds _ (if f.isGetter then
      if f.function.body.isEmpty then Eval.fail f.function.name.span .emptyGetter
      else if f.function.returnsDirectly then apply f []
      else Eval.fail f.function.name.span .getterWithoutReturn
    else Pure.pure (.function f)) m
    split
    · split
      · exact fail _ _
      · split
        · exact ha f [] m hv (by simp)
        · exact fail _ _
    · exact pure hv
  | _ => exact pure hv

end Calls

end Builds

/-! ## Evaluation -/

/-- Evaluations with so much fuel make edits about what is there, and give such values. -/
structure GroundedIn (n : Nat) : Prop where
  expr : ∀ e m, Builds Value.Grounded (expr n e) m
  apply : ∀ f args m, f.Grounded m.heap → (∀ v ∈ args, v.Grounded m.heap) →
    Builds Value.Grounded (apply n f args) m
  stmt : ∀ s m, Builds Signal.Grounded (stmt n s) m

namespace GroundedIn

variable {n : Nat} (ih : GroundedIn n)

include ih

theorem act (id : ExprId) (span : Span) (node : Expr.Node) {vs : List Value}
    (hvs : ∀ v ∈ vs, v.Grounded m.heap) : Builds Value.Grounded (act n id span node vs) m := by
  unfold Eval.act
  split
  · exact .pure (Value.grounded_ofLiteral _ _)
  · exact .pure (hvs _ (by simp))
  · exact .located fun _ => Builds.binary
  · exact .located fun _ => Builds.unary
  · exact .lookup _ _ _
  · next v =>
    have hv : v.Grounded m.heap := hvs v (by simp)
    exact (Builds.assign id _ hv).bind fun _ _ hleads _ => .pure (hv.mono hleads.heap.within)
  · obtain ⟨hf, hargs⟩ := List.forall_mem_cons.1 hvs
    exact .callValue ih.apply hf hargs span
  · exact (Builds.property _ _).bind fun v _ _ hv => .access ih.apply hv
  · next target v =>
    have hv : v.Grounded m.heap := hvs v (by simp)
    exact (Builds.setProperty _ _ hv).bind fun _ _ hleads _ => .pure (hv.mono hleads.heap.within)
  · have hmake : Builds Anything (Eval.make (·.newArray vs)) m :=
      .make (.one (e := .array vs) hvs) trivial
    exact hmake.bind fun _ _ _ _ => .pure trivial
  · exact .element _ _ _
  · next a i v =>
    have hv : v.Grounded m.heap := hvs v (by simp)
    exact (Builds.setElement _ _ hv span).bind fun _ _ hleads _ =>
      .pure (hv.mono hleads.heap.within)
  · exact (Builds.closure _ _).bind fun c _ _ hc => .pure hc
  · exact .lookup _ _ _
  · exact (Builds.superProperty _ _ _).bind fun v _ _ hv => .access ih.apply hv
  · exact .throw _

theorem expr_succ (e : Expr) : Builds Value.Grounded (Eval.expr (n + 1) e) m := by
  obtain ⟨id, span, node⟩ := e
  by_cases hstrict : node.isStrict = true
  · rw [expr_of_isStrict n id span hstrict]
    exact (Builds.exprs ih.expr _).bind fun vs _ _ hvs => ih.act id span node hvs
  · cases node with
    | logical op left right =>
      refine (ih.expr left m).bind fun v m' _ hv => ?_
      split
      · exact .pure hv
      · exact ih.expr right m'
    | ternary condition yes no =>
      refine (ih.expr condition m).bind fun v m' _ _ => ?_
      split
      · exact ih.expr yes m'
      · exact ih.expr no m'
    | _ => exact absurd rfl hstrict

theorem apply_succ {f : Closure} (hf : f.Grounded m.heap) {args : List Value}
    (hargs : ∀ v ∈ args, v.Grounded m.heap) :
    Builds Value.Grounded (Eval.apply (n + 1) f args) m := by
  have hbindings : (arguments f args).All (Value.Grounded m.heap) :=
    .ofPairs fun p hp => hargs p.2 (List.of_mem_zip hp).2
  have hmake : Builds (fun h g => g.index < h.frames.size)
      (Eval.make (·.newFrame f.frame (arguments f args))) m :=
    .make (.newFrame hf hbindings) (by simp [Heap.newFrame])
  rw [apply_eq_resultOf]
  exact hmake.bind fun g _ _ hg => (Builds.inFrame hg (.stmts ih.stmt _)).bind fun signal _ _ hs =>
    .resultOf f hs

theorem firstClause (init : Option Stmt) : Builds Anything (Eval.firstClause n init) m := by
  cases init with
  | none => exact .pure trivial
  | some s => exact (ih.stmt s m).discard

theorem test (condition : Option Expr) : Builds Anything (Eval.test n condition) m := by
  cases condition with
  | none => exact .pure trivial
  | some e => exact (ih.expr e m).bind fun v _ _ _ => .pure trivial

theorem after (step : Option Expr) : Builds Anything (Eval.after n step) m := by
  cases step with
  | none => exact .pure trivial
  | some e => exact (ih.expr e m).discard

theorem turns (condition : Option Expr) (body : Stmt) (step : Option Expr) (k : Nat) :
    Builds Signal.Grounded (Eval.turns n condition body step k) m :=
  .loop (fun _ => ih.test condition) (ih.stmt body) (fun _ => ih.after step) k

/-- With one more unit of fuel statements build on what is there too. -/
theorem stmt_succ (s : Stmt) : Builds Signal.Grounded (Eval.stmt (n + 1) s) m := by
  obtain ⟨span, node⟩ := s
  cases node with
  | expression e => exact (ih.expr e m).discard.bind fun _ _ _ _ => .pure trivial
  | print e =>
    exact (ih.expr e m).bind fun v _ _ _ => .read fun _ =>
      (Builds.printLine _ _).bind fun _ _ _ _ => .pure trivial
  | varDecl name init =>
    have hdefine (v : Value) (m : Machine) (hv : v.Grounded m.heap) :
        Builds Signal.Grounded (define name.name v >>= fun _ => pure .next) m :=
      (Builds.define name.name hv).bind fun _ _ _ _ => .pure trivial
    cases init with
    | none => exact hdefine .nil m trivial
    | some e => exact (ih.expr e m).bind fun v m' _ hv => hdefine v m' hv
  | block body => exact .inNewFrame fun _ => .stmts ih.stmt body
  | ifElse condition yes no =>
    refine (ih.expr condition m).bind fun v m' _ _ => ?_
    split
    · exact ih.stmt yes m'
    · cases no with
      | none => exact .pure trivial
      | some s => exact ih.stmt s m'
  | «while» condition body =>
    rw [stmt_while]
    exact ih.turns (some condition) body none n
  | «for» init condition step body =>
    rw [stmt_for]
    exact .inNewFrame fun _ => (ih.firstClause init).bind fun _ _ _ _ =>
      ih.turns condition body step n
  | «break» => exact .pure trivial
  | «continue» => exact .pure trivial
  | funDecl f =>
    exact (Builds.closure f .function).bind fun c _ _ hc =>
      (Builds.define _ (v := .function c) hc).bind fun _ _ _ _ => .pure trivial
  | «return» value =>
    cases value with
    | none => exact .pure trivial
    | some e => exact (ih.expr e m).bind fun v _ _ hv => .pure hv
  | classDecl name superclass traits methods statics =>
    exact (Builds.declareClass name superclass traits methods statics).bind fun _ _ _ _ =>
      .pure trivial
  | traitDecl name methods statics =>
    exact (Builds.declareTrait name methods statics).bind fun _ _ _ _ => .pure trivial

end GroundedIn

/-- Edits are about what is there, by induction on the fuel that the parts of an evaluation get. -/
theorem groundedIn (n : Nat) : GroundedIn n := by
  induction n with
  | zero => exact ⟨fun _ _ => .throw _, fun _ _ _ _ _ => .throw _, fun _ _ => .throw _⟩
  | succ n ih =>
    exact ⟨fun e _ => ih.expr_succ e, fun _ _ _ hf hargs => ih.apply_succ hf hargs, fun s _ => ih.stmt_succ s⟩

theorem builds_program (n : Nat) (ss : List Stmt) : Builds Anything (program n ss) m := by
  induction ss generalizing m with
  | nil => exact .pure trivial
  | cons s ss ih => exact ((groundedIn n).stmt s m).discard.bind fun _ _ _ _ => ih

end Eval

namespace Run

open Eval

/-! ## Tasks -/

/-- What the task has taken hold of is there. -/
def Task.Grounded (h : Heap) : Task → Prop
  | .act _ _ _ vs => ∀ v ∈ vs, v.Grounded h
  | .call callee args _ => callee.Grounded h ∧ ∀ v ∈ args, v.Grounded h
  | .apply f args => f.Grounded h ∧ ∀ v ∈ args, v.Grounded h
  | .bind f receiver => f.Grounded h ∧ receiver.Grounded h
  | .access v => v.Grounded h
  | .program _ | .stmts _ | .stmt _ | .loop _ _ _ _ | .exprs _ | .expr _ | .use _ _ _ | .members _ =>
    True

structure Config.Grounded (c : Config) : Prop where
  machine : c.machine.Grounded
  task : c.task.Grounded c.machine.heap

/-- A task on the machine that an evaluation leaves. -/
theorem Config.Grounded.behind {α : Type} {Q : Heap → α → Prop} {x : Eval α} {n : Nat} {task : Task}
    {m m' : Machine} {a : α} (hx : Builds Q x m) (hm : m.Grounded) (h : x m = .ok a m')
    (ht : Q m'.heap a → task.Grounded m'.heap) : Grounded ⟨n, task, m'⟩ := by
  obtain ⟨-, hm', ha⟩ := hx.of_ok hm h
  exact ⟨hm', ht ha⟩

/-- What a grounded task is made of is grounded. -/
theorem Calls.grounded {c d : Config} (hcall : Calls c d) (hc : c.Grounded) : d.Grounded := by
  obtain ⟨hm, ht⟩ := hc
  cases hcall with
  | programFirst | stmtsFirst | exprsFirst | expression | print | initializer | ifCondition
  | «while» | returnValue | condition | operands | logicalLeft | ternaryCondition | «variable»
  | assign | this | super => exact ⟨hm, trivial⟩
  | programRest h | stmtsRest h => exact .behind ((groundedIn _).stmt _ _) hm h fun _ => trivial
  | exprsRest h => exact .behind ((groundedIn _).expr _ _) hm h fun _ => trivial
  | ifYes h | ifNo h | logicalRight h | ternaryYes h | ternaryNo h =>
    exact .behind ((groundedIn _).expr _ _) hm h fun _ => trivial
  | block | forInit => exact ⟨hm.enter hm.frame .empty, trivial⟩
  | «for» h =>
    exact .behind ((groundedIn _).firstClause _) (hm.enter hm.frame .empty) h fun _ => trivial
  | @classReference _ _ name _ _ _ _ _ m _ =>
    have hdefine : m.heap.LeadsTo (m.heap.define m.frame name.name .nil) := .define _ _ trivial
    exact ⟨(Machine.LeadsTo.edit hdefine).grounded hm, trivial⟩
  | members h => exact .behind (.classHeader _ _ _) hm h fun _ => trivial
  | turn h => exact .behind ((groundedIn _).test _) hm h fun _ => trivial
  | step h h' =>
    obtain ⟨-, htest, -⟩ := ((groundedIn _).test _).of_ok hm h
    exact .behind ((groundedIn _).stmt _ _) htest h' fun _ => trivial
  | turns h h' _ h'' =>
    obtain ⟨-, htest, -⟩ := ((groundedIn _).test _).of_ok hm h
    obtain ⟨-, hturn, -⟩ := ((groundedIn _).stmt _ _).of_ok htest h'
    exact .behind ((groundedIn _).after _) hturn h'' fun _ => trivial
  | act _ h => exact .behind (.exprs (groundedIn _).expr _) hm h fun hvs => hvs
  | bindMember hf => exact ⟨hm, (hm.heap.refers.member? hf).2 _ rfl, trivial⟩
  | access h => exact .behind (.property _ _) hm h fun hv => hv
  | bindSuper _ _ hr hf => exact ⟨hm, hm.heap.refers.method? hf, Builds.receiver hr⟩
  | accessSuper h => exact .behind (.superProperty _ _ _) hm h fun hv => hv
  | getter => exact ⟨hm, ht, by simp⟩
  | call => exact ⟨hm, List.forall_mem_cons.1 ht⟩
  | apply => exact ⟨hm, ht⟩
  | @bindInit _ c _ _ f m _ hm₁ hf =>
    subst hm₁
    have hnew : m.heap.LeadsTo (m.heap.newInstance c).2 := .one (e := .object c) ht.1
    have hm₁ := (Machine.LeadsTo.edit hnew).grounded hm
    exact ⟨hm₁, hm₁.heap.refers.method? hf, trivial⟩
  | @applyInit _ c args _ f _ _ m _ hm₁ hf _ hbind =>
    subst hm₁
    obtain ⟨rfl, rfl⟩ := Prod.ext_iff.1 hbind
    have hnew : m.heap.LeadsTo (m.heap.newInstance c).2 := .one (e := .object c) ht.1
    have hm₁ := (Machine.LeadsTo.edit hnew).grounded hm
    have hbound := Heap.LeadsTo.bind (hm₁.heap.refers.method? hf)
      (v := .object (m.heap.newInstance c).1) trivial
    refine ⟨(Machine.LeadsTo.edit (hnew.trans hbound)).grounded hm, Heap.grounded_bind _ _ _, ?_⟩
    exact fun v hv => (ht.2 v hv).mono (hnew.trans hbound).within
  | body =>
    refine ⟨hm.enter ht.1 (.ofPairs fun p hp => ?_), trivial⟩
    exact ht.2 p.2 (List.of_mem_zip hp).2

/-- A grounded task leads to a grounded machine, and such are the values that come of it. -/
theorem Config.Grounded.ends {c : Config} (hc : c.Grounded) :
    c.machine.LeadsTo c.last ∧ ∀ v ∈ c.given, v.Grounded c.last.heap := by
  have hends {α : Type} {Q : Heap → α → Prop} {values : α → List Value} {x : Eval α}
      (hx : Builds Q x c.machine) (hq : ∀ h a, Q h a → ∀ v ∈ values a, v.Grounded h) :
      c.machine.LeadsTo (machineOf (discard x c.machine)) ∧
        ∀ v ∈ valuesOf values (x c.machine),
          v.Grounded (machineOf (discard x c.machine)).heap := by
    obtain ⟨hleads, hgiven⟩ := hx hc.machine
    rw [machineOf_discard]
    refine ⟨hleads, fun v hv => ?_⟩
    cases h : x c.machine with
    | ok a m =>
      rw [h] at hv
      exact hq _ a (hgiven a m h) v hv
    | error stop m =>
      rw [h] at hv
      cases hv
  have hvalue (h : Heap) (v : Value) (hv : v.Grounded h) : ∀ w ∈ [v], w.Grounded h :=
    List.forall_mem_singleton.2 hv
  have hsignal (h : Heap) (signal : Signal) (hs : signal.Grounded h) :
      ∀ v ∈ signal.values, v.Grounded h := by
    cases signal with
    | «return» v => exact hvalue h v hs
    | _ => exact fun v hv => by cases hv
  obtain ⟨n, task, m⟩ := c
  have hin := groundedIn n
  cases task with
  | program ss => exact ⟨(builds_program n ss hc.machine).1, fun v hv => by cases hv⟩
  | stmts ss => exact hends (.stmts hin.stmt ss) hsignal
  | stmt s => exact hends (hin.stmt s m) hsignal
  | loop condition body step k => exact hends (hin.turns condition body step k) hsignal
  | exprs es => exact hends (.exprs hin.expr es) fun _ _ hvs => hvs
  | expr e => exact hends (hin.expr e m) hvalue
  | act id span node vs => exact hends (hin.act id span node hc.task) hvalue
  | call callee args span => exact hends (.callValue hin.apply hc.task.1 hc.task.2 span) hvalue
  | apply f args => exact hends (hin.apply f args m hc.task.1 hc.task.2) hvalue
  | access v => exact hends (.access hin.apply hc.task) hvalue
  | use | members | bind => exact ⟨.refl, fun v hv => by cases hv⟩

/-! ## Sessions -/

/-- The classes that the host has called, or passed to what it called, were there. -/
def Log.Genuine (log : Log) : Prop :=
  ∀ c ∈ log.runs, ∀ k, Value.klass k ∈ c.task.values → k.index < c.machine.heap.classes.size

structure Log.Grounded (log : Log) : Prop where
  leads : Heap.start.LeadsTo log.session.machine.heap
  frame : log.session.machine.frame = Heap.globals
  values : ∀ v ∈ log.values, v.Grounded log.session.machine.heap
  runs : ∀ c ∈ log.runs, c.Grounded

namespace Log.Grounded

variable {log : Log}

theorem machine (h : log.Grounded) : log.session.machine.Grounded where
  heap := h.leads.grounded Heap.grounded_start
  frame := by
    rw [h.frame]
    exact (h.leads.grounded Heap.grounded_start).rooted.globals

/-- A value that the host has is there, if it is no class that there is not. -/
theorem has (h : log.Grounded) {v : Value} (hv : log.Has v)
    (hk : ∀ k, v = .klass k → k.index < log.session.machine.heap.classes.size) :
    v.Grounded log.session.machine.heap := by
  rcases hv with hv | hv
  · exact h.values v hv
  · cases v with
    | function f => exact absurd rfl (hv f)
    | klass k => exact hk k rfl
    | _ => trivial

theorem ran (h : log.Grounded) {fuel : Nat} {task : Task} {s : Session} {values : List Value}
    (ht : task.Grounded log.session.machine.heap)
    (hlast : s.machine = Config.last ⟨fuel, task, log.session.machine⟩)
    (hgiven : ∀ v ∈ values, v ∈ Config.given ⟨fuel, task, log.session.machine⟩) :
    (log.ran fuel task s values).Grounded := by
  have hc : Config.Grounded ⟨fuel, task, log.session.machine⟩ := ⟨h.machine, ht⟩
  obtain ⟨hleads, hout⟩ := hc.ends
  rw [← hlast] at hleads hout
  constructor
  case leads => exact h.leads.trans hleads.heap
  case frame => exact hleads.frame.trans h.frame
  case values =>
    intro v hmem
    rcases List.mem_append.1 hmem with hnew | hold
    · exact hout v (hgiven v hnew)
    · exact (h.values v hold).mono hleads.heap.within
  case runs => exact List.forall_mem_cons.2 ⟨hc, h.runs⟩

end Log.Grounded

theorem Reached.grounded {log : Log} (h : Reached log) (hhost : log.Genuine) : log.Grounded := by
  induction h with
  | start => exact ⟨.refl, rfl, fun v hv => (by cases hv), fun c hc => (by cases hc)⟩
  | @step log log' _ hstep ih =>
    cases hstep with
    | prepared hp =>
      obtain ⟨tree, r, -, -, -, rfl⟩ := Session.prepare_eq_ok hp
      have ih := ih hhost
      exact ⟨ih.leads, ih.frame, ih.values, ih.runs⟩
    | rejected hp =>
      obtain ⟨hm, -⟩ := Session.prepare_eq_error hp
      have ih := ih hhost
      exact ⟨hm ▸ ih.leads, hm ▸ ih.frame, hm ▸ ih.values, ih.runs⟩
    | @executed p fuel outcome s hp he =>
      have ih := ih (List.forall_mem_cons.1 hhost).2
      have hlast := log.session.machine_evaluate (Eval.program fuel p.body)
      rw [show log.session.evaluate _ = (outcome, s) from he] at hlast
      exact ih.ran trivial hlast fun v hv => by cases hv
    | @evaluated p span e fuel outcome s hp hmem he =>
      have ih := ih (List.forall_mem_cons.1 hhost).2
      have hlast := log.session.machine_evaluate (Eval.expr fuel e)
      rw [he, ← Eval.machineOf_discard] at hlast
      exact ih.ran trivial hlast (mem_valuesOf_of_evaluate he)
    | @called f args span fuel outcome s hf hargs he =>
      obtain ⟨hnew, hold⟩ := List.forall_mem_cons.1 hhost
      have ih := ih hold
      have hlast := log.session.machine_evaluate (Eval.call fuel f args span)
      rw [he, ← Eval.machineOf_discard] at hlast
      refine ih.ran ⟨ih.has hf fun k hk => ?_, fun v hv => ih.has (hargs v hv) fun k hk => ?_⟩
        hlast (mem_valuesOf_of_evaluate he)
      · exact hnew k (hk ▸ List.mem_cons_self)
      · exact hnew k (hk ▸ List.mem_cons_of_mem _ hv)

/-- The frames and classes of a machine, and those that it has taken hold of, are there, and the
walks from them come to an end. -/
structure Footing (m : Machine) : Prop where
  grounded : m.Grounded
  founded : m.heap.Founded

/-- From the beginning of a task to its end, the walks from frames and classes come to an end. -/
structure Config.Founded (c : Config) : Prop where
  begins : Footing c.machine
  task : c.task.Grounded c.machine.heap
  leads : c.machine.heap.LeadsTo c.last.heap
  between : ∀ h, c.machine.heap.LeadsTo h → h.LeadsTo c.last.heap → h.Founded
  ends : Footing c.last
  given : ∀ v ∈ c.given, v.Grounded c.last.heap
  /-- A function that is bound carries the frame that is made for it. -/
  bound : ∀ f receiver, c.task = .bind f receiver →
    (c.machine.heap.bind f receiver).1.Grounded (c.machine.heap.bind f receiver).2 ∧
      (c.machine.heap.bind f receiver).2.Founded

theorem Config.Grounded.founded {c : Config} (hc : c.Grounded) : c.Founded := by
  obtain ⟨hleads, hgiven⟩ := hc.ends
  have hlast := hleads.grounded hc.machine
  constructor
  case begins => exact ⟨hc.machine, hc.machine.heap.founded⟩
  case task => exact hc.task
  case leads => exact hleads.heap
  case between => exact fun h hto _ => (hto.grounded hc.machine.heap).founded
  case ends => exact ⟨hlast, hlast.heap.founded⟩
  case given => exact hgiven
  case bound =>
    obtain ⟨n, task, m⟩ := c
    rintro f receiver rfl
    have hbind : m.heap.LeadsTo (m.heap.bind f receiver).2 := .bind hc.task.1 hc.task.2
    exact ⟨m.heap.grounded_bind f receiver, (hbind.grounded hc.machine.heap).founded⟩

/-- Walks end.  Whatever a session has come to, with or without errors: from every frame that there
is, the current one, those that functions carry and those that are made to bind them, finitely many
frames lie outward, none of them twice, the last that of the globals; from every class that there is
finitely many lie upward, none of them twice; and looking up and assigning variables, going so many
frames out, and finding methods, static members and arities go along these.  So it is before and
after every task that a run comes by and on the whole way between, and after every run. -/
theorem Reached.walks_end {log : Log} (h : Reached log) (hhost : log.Genuine) :
    Footing log.session.machine ∧ (∀ v ∈ log.values, v.Grounded log.session.machine.heap) ∧
    Heap.start.LeadsTo log.session.machine.heap ∧
    (∀ heap, Heap.start.LeadsTo heap → heap.Founded) ∧
    ∀ stack c, log.Visited stack c → c.Founded := by
  have hlog := h.grounded hhost
  have hstart (heap : Heap) (hto : Heap.start.LeadsTo heap) : heap.Founded :=
    (hto.grounded Heap.grounded_start).founded
  refine ⟨⟨hlog.machine, hstart _ hlog.leads⟩, hlog.values, hlog.leads, hstart, ?_⟩
  rintro stack c ⟨c₀, hc₀, hvisits⟩
  have hc : c.Grounded := by
    induction hvisits with
    | start => exact hlog.runs c₀ hc₀
    | call _ hcall ih => exact hcall.grounded ih
  exact hc.founded

/-- `class A{m(){}}class B<A{}` -/
def subclassProgram : List Stmt := [
  ⟨.onLine 0 14, .classDecl ⟨"A", .onLine 6 7⟩ none []
    [⟨⟨"m", .onLine 8 9⟩, [], [], false, .onLine 8 13⟩] []⟩,
  ⟨.onLine 14 25, .classDecl ⟨"B", .onLine 20 21⟩ (some ⟨0, ⟨"A", .onLine 22 23⟩⟩) [] [] []⟩]

/-- The machine behind that program. -/
def subclassMachine : Machine :=
  machineOf (Eval.program 2 subclassProgram ((Machine.start none (fun _ => 0)).learn []))

/-- The machine behind that program and a call of `B`. -/
def instanceMachine : Machine :=
  machineOf (Eval.call 2 (.klass ⟨1⟩) [] (.onLine 0 1) subclassMachine)

/-- The globals have a class that has a method that carries the globals, and a class below it, of
which the host makes an instance. -/
theorem walks_end_subclass : ∃ log, Reached log ∧ log.Genuine ∧
    (∃ c ∈ log.runs, Value.klass ⟨1⟩ ∈ c.task.values) ∧
    log.session.machine.heap.getIn? Heap.globals "A" = some (.klass ⟨0⟩) ∧
    (log.session.machine.heap.ownMethod? ⟨0⟩ "m").map Closure.frame = some Heap.globals ∧
    log.session.machine.heap.Ancestry ⟨1⟩ [⟨1⟩, ⟨0⟩] := by
  have hparse : Tree.parse "class A{m(){}}class B<A{}" 0 = .ok ⟨subclassProgram, 1⟩ := by cbv
  have hresolve : Resolution.ofProgram subclassProgram = .ok ⟨[], []⟩ := by cbv
  have hprepared := (Reached.start none (fun _ => 0)).step
    (.prepared (Session.prepare_of_parse hparse hresolve))
  obtain ⟨outcome, s, hexecute⟩ : ∃ outcome s, Session.execute
      ⟨(Machine.start none (fun _ => 0)).learn [], 1⟩ 2 ⟨subclassProgram, []⟩ = (outcome, s) := ⟨_, _, rfl⟩
  have hmachine : s.machine = subclassMachine := by
    have hlast := Session.machine_evaluate ⟨(Machine.start none (fun _ => 0)).learn [], 1⟩
      (Eval.program 2 subclassProgram)
    rwa [show Session.evaluate _ _ = (outcome, s) from hexecute] at hlast
  have hexecuted := hprepared.step (.executed List.mem_cons_self hexecute)
  obtain ⟨given, s', hcall⟩ : ∃ given s',
      s.evaluate (Eval.call 2 (.klass ⟨1⟩) [] (.onLine 0 1)) = (given, s') := ⟨_, _, rfl⟩
  have hmachine' : s'.machine = instanceMachine := by
    have hlast := s.machine_evaluate (Eval.call 2 (.klass ⟨1⟩) [] (.onLine 0 1))
    rwa [hcall, hmachine] at hlast
  obtain ⟨log, hreached, hsession, hruns⟩ : ∃ log, Reached log ∧ log.session.machine = s'.machine ∧
      log.runs = [⟨2, .call (.klass ⟨1⟩) [] (.onLine 0 1), s.machine⟩,
        ⟨2, .program subclassProgram, (Machine.start none (fun _ => 0)).learn []⟩] :=
    ⟨_, hexecuted.step (.called (.inr fun _ => Value.noConfusion) (fun v hv => by cases hv) hcall),
      rfl, rfl⟩
  have hgenuine : log.Genuine := by
    rw [Log.Genuine, hruns]
    refine List.forall_mem_cons.2 ⟨fun k hk => ?_, List.forall_mem_singleton.2 fun k hk => ?_⟩
    · cases List.mem_singleton.1 hk
      show 1 < s.machine.heap.classes.size
      rw [hmachine]
      decide +kernel
    · cases hk
  have hlast : log.session.machine = instanceMachine := hsession.trans hmachine'
  obtain ⟨⟨-, hfounded⟩, -⟩ := hreached.walks_end hgenuine
  rw [hlast] at hfounded
  have hsize : 1 < instanceMachine.heap.classes.size := by decide +kernel
  have hbelow : (instanceMachine.heap.classes[1]?).map Class.superclass = some (some ⟨0⟩) := by cbv
  have habove : (instanceMachine.heap.classes[0]?).map Class.superclass = some none := by cbv
  obtain ⟨b, hb, hsuper⟩ := Option.map_eq_some_iff.1 hbelow
  obtain ⟨a, ha, hnone⟩ := Option.map_eq_some_iff.1 habove
  obtain ⟨cs, hcs⟩ := hfounded.upward ⟨1⟩ hsize
  have heq : cs = [⟨1⟩, ⟨0⟩] :=
    hcs.chain.unique (.above (c := ⟨1⟩) (s := ⟨0⟩) hb hsuper (.root ha hnone))
  have hglobal : instanceMachine.heap.getIn? Heap.globals "A" = some (.klass ⟨0⟩) := by cbv
  have hmethod : (instanceMachine.heap.ownMethod? ⟨0⟩ "m").map Closure.frame =
      some Heap.globals := by cbv
  rw [← hlast] at hglobal hmethod hcs
  exact ⟨log, hreached, hgenuine, ⟨_, hruns ▸ List.mem_cons_self, List.mem_cons_self⟩, hglobal,
    hmethod, heq ▸ hcs⟩

end Run

end Lox

import Lox.Proofs.Run.Edit
import Lox.Proofs.Run.Closed

/-!
# Values that access gives as they are

A getter runs when it is accessed, so a program never gets hold of one.  All that a program does to
its heap are edits that write none (`Fits`), which keep the heap free of them (`Tidy`), and what it
computes is none:

    h.Tidy → e.Fits → (h.edit e).Tidy                                              (Tidy.edit)
    DealsIn n      evaluations with fuel `n` make edits that fit, and give inert values  (dealsIn)

Nothing is asked of the functions in the tables of classes and traits, where the getters are.
-/

namespace Lox

/-! ## Values and tables -/

/-- Access gives the value as it is: it is no getter. -/
def Value.Inert (v : Value) : Prop := ∀ f, v = .function f → f.isGetter = false

theorem Value.Inert.of_ne {v : Value} (hv : ∀ f, v ≠ .function f) : v.Inert :=
  fun f hf => absurd hf (hv f)

theorem Value.inert_function_iff {f : Closure} :
    (Value.function f).Inert ↔ f.isGetter = false :=
  ⟨fun h => h f rfl, fun h _ hf => by cases hf; exact h⟩

/-- A function that was declared as such is no getter. -/
theorem Value.Inert.function (i : Nat) (f : Function) (g : FrameId) :
    (Value.function ⟨i, f, g, .function⟩).Inert :=
  inert_function_iff.2 rfl

theorem Value.Inert.ofLiteral (l : Literal) : (Value.ofLiteral l).Inert :=
  .of_ne fun f => by cases l <;> exact Value.noConfusion

/-- A statement is left with an inert value, if with any. -/
def Signal.Inert : Signal → Prop
  | .return v => v.Inert
  | _ => True

namespace Table

variable {α : Type} {t : Table α}

/-- No name has two entries. -/
def Distinct (t : Table α) : Prop := t.names.Nodup

theorem distinct_empty : (∅ : Table α).Distinct := List.nodup_nil

theorem Distinct.insert (h : t.Distinct) (name : String) (a : α) : (t.insert name a).Distinct := by
  unfold Distinct at *
  cases hc : t.contains name with
  | true => rwa [names_insert_of_contains hc]
  | false =>
    have hname : name ∉ t.names := by
      rw [contains_eq] at hc
      exact of_decide_eq_false hc
    rw [names_insert hc]
    refine List.nodup_append.2 ⟨h, List.nodup_singleton name, fun a ha b hb => ?_⟩
    rintro rfl
    exact hname (List.mem_singleton.1 hb ▸ ha)

theorem Distinct.insertAll (h : t.Distinct) (pairs : List (String × α)) :
    (t.insertAll pairs).Distinct := by
  induction pairs generalizing t with
  | nil => exact h
  | cons pair pairs ih => exact ih (h.insert pair.1 pair.2)

end Table

/-! ## Heaps -/

/-- Static fields are inert, and each member has a name of its own. -/
structure Class.Tidy (k : Class) : Prop where
  fields : k.fields.All Value.Inert
  methods : k.methods.Distinct
  statics : k.statics.Distinct

structure Trait.Tidy (k : Trait) : Prop where
  methods : k.methods.Distinct
  statics : k.statics.Distinct

namespace Heap

/-- No variable, element or field is a getter. -/
structure Tidy (h : Heap) : Prop where
  frames : ∀ frame ∈ h.frames, frame.bindings.All Value.Inert
  arrays : ∀ a ∈ h.arrays, ∀ v ∈ a, v.Inert
  classes : ∀ k ∈ h.classes, k.Tidy
  instances : ∀ o ∈ h.instances, o.fields.All Value.Inert
  traits : ∀ k ∈ h.traits, k.Tidy

/-- The edit writes no getter, and what it makes is as it should be. -/
def Edit.Fits : Edit → Prop
  | frame _ bindings => bindings.All Value.Inert
  | «variable» _ _ v | element _ _ v | push _ v | static _ _ v | field _ _ v => v.Inert
  | array elements => ∀ v ∈ elements, v.Inert
  | klass k => k.fields = ∅ ∧ k.methods.Distinct ∧ k.statics.Distinct
  | trait k => k.Tidy
  | object _ | functions _ => True

theorem Tidy.edit {h : Heap} (hh : h.Tidy) {e : Edit} (he : e.Fits) : (h.edit e).Tidy := by
  cases e with
  | frame outer bindings => exact { hh with frames := forall_mem_push hh.frames he }
  | «variable» g name v => exact { hh with frames := forall_bindings_define hh.frames g name he }
  | array elements =>
    exact { hh with
      arrays := forall_mem_push hh.arrays fun v hv => he v (List.mem_toArray.1 hv) }
  | element a i v => exact { hh with arrays := forall_elements_setElement hh.arrays a i he }
  | push a v => exact { hh with arrays := forall_elements_pushElement hh.arrays a he }
  | klass k =>
    obtain ⟨hfields, hmethods, hstatics⟩ := he
    have hk : k.Tidy := ⟨hfields ▸ .empty, hmethods, hstatics⟩
    exact { hh with classes := forall_mem_push hh.classes hk }
  | static c name v =>
    exact { hh with
      classes := forall_classes_setStatic hh.classes c name fun _ hk =>
        ⟨hk.fields.insert name he, hk.methods, hk.statics⟩ }
  | object c => exact { hh with instances := forall_mem_push hh.instances .empty }
  | field i name v =>
    exact { hh with
      instances := forall_instances_setField hh.instances i name fun _ ho => ho.insert name he }
  | trait k => exact { hh with traits := forall_mem_push hh.traits he }
  | functions n => exact { hh with }

theorem tidy_start : Heap.start.Tidy where
  frames frame hframe := by
    cases List.mem_singleton.1 (Array.mem_def.1 hframe)
    refine .ofPairs fun p hp => ?_
    obtain ⟨f, -, rfl⟩ := List.mem_map.1 hp
    exact .of_ne fun _ => Value.noConfusion
  arrays a ha := absurd ha (Array.not_mem_empty a)
  classes k hk := absurd hk (Array.not_mem_empty k)
  instances o ho := absurd ho (Array.not_mem_empty o)
  traits k hk := absurd hk (Array.not_mem_empty k)

/-! ### Going on -/

/-- From one heap to the other by edits that fit. -/
def Onward (h h' : Heap) : Prop := ∃ es : List Edit, (∀ e ∈ es, e.Fits) ∧ h' = h.edits es

namespace Onward

variable {h h' h'' : Heap}

theorem refl (h : Heap) : h.Onward h := ⟨[], by simp, rfl⟩

theorem trans (a : h.Onward h') (b : h'.Onward h'') : h.Onward h'' := by
  obtain ⟨es, hes, rfl⟩ := a
  obtain ⟨es', hes', rfl⟩ := b
  refine ⟨es ++ es', fun e he => ?_, (h.edits_append es es').symm⟩
  exact (List.mem_append.1 he).elim (hes e) (hes' e)

theorem edit (h : Heap) {e : Edit} (he : e.Fits) : h.Onward (h.edit e) :=
  ⟨[e], List.forall_mem_singleton.2 he, rfl⟩

theorem tidy (a : h.Onward h') (hh : h.Tidy) : h'.Tidy := by
  obtain ⟨es, hes, rfl⟩ := a
  induction es generalizing h with
  | nil => exact hh
  | cons e es ih =>
    obtain ⟨he, hes⟩ := List.forall_mem_cons.1 hes
    exact ih (hh.edit he) hes

theorem define (h : Heap) (g : FrameId) (name : String) {v : Value} (hv : v.Inert) :
    h.Onward (h.define g name v) := edit h (e := .variable g name v) hv

theorem assign (h : Heap) (g : FrameId) (name : String) {v : Value} (hv : v.Inert) :
    h.Onward (h.assign g name v).2 := by
  unfold Heap.assign
  split
  · exact define h _ name hv
  · exact refl h

theorem assignAt (h : Heap) (hops : Nat) (g : FrameId) (name : String) {v : Value}
    (hv : v.Inert) : h.Onward (h.assignAt hops g name v).2 := by
  unfold Heap.assignAt
  split
  · exact define h _ name hv
  · exact refl h

theorem functions (h : Heap) (n : Nat) : h.Onward { h with closures := n } :=
  edit h (e := .functions n) trivial

theorem bind (h : Heap) (f : Closure) {receiver : Value} (hr : receiver.Inert) :
    h.Onward (h.bind f receiver).2 := by
  have hframe : h.Onward (h.newFrame f.frame (.ofPairs [(Name.this, receiver)])).2 :=
    edit h (e := .frame _ _) (.ofPairs (List.forall_mem_singleton.2 hr))
  exact hframe.trans (functions _ _)

end Onward

/-! ### Reading -/

namespace Tidy

variable {h : Heap}

theorem getIn? (hh : h.Tidy) {g : FrameId} {name : String} {v : Value}
    (hv : h.getIn? g name = some v) : v.Inert := by
  obtain ⟨frame, hframe, hv⟩ := exists_mem_of_getIn? hv
  exact (hh.frames frame hframe).find? hv

theorem getAt? (hh : h.Tidy) {hops : Nat} {g : FrameId} {name : String} {v : Value}
    (hv : h.getAt? hops g name = some v) : v.Inert := by
  obtain ⟨_, hv⟩ := exists_getIn?_of_getAt? hv
  exact hh.getIn? hv

theorem element (hh : h.Tidy) {a : ArrayId} {v : Value} (hv : v ∈ h.elements a) : v.Inert := by
  obtain ⟨array, harray, hv⟩ := exists_mem_of_mem_elements hv
  exact hh.arrays array harray v hv

theorem field? (hh : h.Tidy) {i : InstanceId} {name : String} {v : Value}
    (hv : h.field? i name = some v) : v.Inert := by
  unfold Heap.field? at hv
  split at hv
  · next o ho => exact (hh.instances o (Array.mem_of_getElem? ho)).find? hv
  · cases hv

theorem staticField? (hh : h.Tidy) {c : ClassId} {name : String} {v : Value}
    (hv : h.staticField? c name = some v) : v.Inert := by
  unfold Heap.staticField? at hv
  split at hv
  · next k hk => exact (hh.classes k (Array.mem_of_getElem? hk)).fields.find? hv
  · cases hv

end Tidy

/-! ### Tables of functions -/

theorem distinct_newClosures (h : Heap) (frame : FrameId) (kind : Function → FunctionKind)
    (fs : List Function) : (h.newClosures frame kind fs).1.Distinct := by
  unfold newClosures
  have htable : (∅ : Table Closure).Distinct := Table.distinct_empty
  generalize (∅ : Table Closure) = table at htable ⊢
  induction fs generalizing table h with
  | nil => exact htable
  | cons f fs ih => exact ih _ _ (htable.insert f.name.name _)

theorem Onward.newClosures (h : Heap) (frame : FrameId) (kind : Function → FunctionKind)
    (fs : List Function) : h.Onward (h.newClosures frame kind fs).2 := by
  obtain ⟨t, n, heq, -⟩ := h.exists_newClosures frame kind fs
  rw [heq]
  exact functions h n

theorem distinct_compose (h : Heap) (ts : List TraitId) (members : Trait → Table Closure)
    (own : Table Closure) : (h.compose ts members own).Distinct :=
  compose_induction Table.distinct_empty (fun _ htable _ _ => htable.insertAll _)
    (fun _ htable => htable.insertAll _) ts

end Heap

namespace Eval

open Run

variable {α β : Type} {Q : α → Prop} {R : β → Prop} {m : Machine}

/-! ## Operations -/

/-- The evaluation makes edits that fit, and what it gives is such. -/
def DealsAt (Q : α → Prop) (x : Eval α) (m : Machine) : Prop :=
  m.heap.Onward (machineOf (x m)).heap ∧ ∀ a m', x m = .ok a m' → Q a

/-- So it is wherever no getter has got out. -/
def Deals (Q : α → Prop) (x : Eval α) : Prop := ∀ m, m.heap.Tidy → DealsAt Q x m

theorem DealsAt.of_ok {x : Eval α} (hx : DealsAt Q x m) {a : α} {m' : Machine}
    (h : x m = .ok a m') : m.heap.Onward m'.heap ∧ Q a := by
  obtain ⟨hedits, hq⟩ := hx
  rw [h] at hedits
  exact ⟨hedits, hq a m' h⟩

theorem DealsAt.pure {a : α} (ha : Q a) : DealsAt Q (pure a) m :=
  ⟨.refl _, fun b m' h => by cases h; exact ha⟩

theorem DealsAt.fail (span : Span) (kind : RuntimeErrorKind) : DealsAt Q (fail span kind) m :=
  ⟨.refl _, fun b m' h => by cases h⟩

namespace Deals

theorem pure {a : α} (ha : Q a) : Deals Q (pure a) := fun _ _ => .pure ha

theorem throw (stop : Stop) : Deals Q (throw stop : Eval α) :=
  fun _ _ => ⟨.refl _, fun b m' h => by cases h⟩

theorem fail (span : Span) (kind : RuntimeErrorKind) : Deals Q (fail span kind) :=
  throw (.error ⟨span, kind⟩)

theorem bind {x : Eval α} {f : α → Eval β} (hx : Deals Q x) (hf : ∀ a, Q a → Deals R (f a)) :
    Deals R (x >>= f) := by
  intro m hm
  obtain ⟨hedits, hq⟩ := hx m hm
  cases h : x m with
  | ok a m' =>
    rw [h] at hedits
    rw [DealsAt, EStateM.bind_of_ok h]
    obtain ⟨hedits', hr⟩ := hf a (hq a m' h) m' (hedits.tidy hm)
    exact ⟨hedits.trans hedits', hr⟩
  | error stop m' =>
    rw [h] at hedits
    rw [DealsAt, EStateM.bind_of_error h]
    exact ⟨hedits, fun b m'' h => by cases h⟩

theorem read {f : Machine → Eval α} (hf : ∀ m, m.heap.Tidy → DealsAt Q (f m) m) :
    Deals Q (get >>= f) := hf

theorem map {x : Eval α} (hx : Deals Q x) {g : α → β} (hg : ∀ a, Q a → R (g a)) :
    Deals R (g <$> x) := by
  rw [map_eq_pure_bind]
  exact hx.bind fun a ha => .pure (hg a ha)

theorem discard {x : Eval α} (hx : Deals Q x) : Deals (fun _ => True) (discard x) :=
  hx.map fun _ _ => trivial

theorem located {span : Span} {r : Except RuntimeErrorKind α} (hq : ∀ a, r = .ok a → Q a) :
    Deals Q (located span r) := by
  cases r with
  | ok a => exact pure (hq a rfl)
  | error kind => exact fail span kind

theorem make {f : Heap → α × Heap} (hf : ∀ h : Heap, h.Tidy → h.Onward (f h).2)
    (hq : ∀ h : Heap, h.Tidy → Q (f h).1) : Deals Q (make f) :=
  fun m hm => ⟨hf m.heap hm, fun a m' h => by cases h; exact hq m.heap hm⟩

theorem change {f : Heap → Heap} (hf : ∀ h : Heap, h.Onward (f h)) :
    Deals (fun _ => True) (change f) := fun m _ => ⟨hf m.heap, fun _ _ _ => trivial⟩

theorem inFrame {x : Eval α} (g : FrameId) (hx : Deals Q x) : Deals Q (inFrame g x) := by
  intro m hm
  obtain ⟨hedits, hq⟩ := hx { m with frame := g } hm
  rw [DealsAt, inFrame_apply, machineOf_mapMachine]
  refine ⟨hedits, fun a m' h => ?_⟩
  cases hbody : x { m with frame := g } with
  | ok b m'' =>
    rw [hbody] at h
    cases h
    exact hq _ _ hbody
  | error stop m'' =>
    rw [hbody] at h
    cases h

theorem inNewFrame {x : Eval α} (hx : Deals Q x) : Deals Q (inNewFrame x) := by
  refine read fun m hm => ?_
  have hmake : Deals (fun _ => True) (Eval.make (·.newFrame m.frame ∅)) :=
    make (fun h _ => .edit h (e := .frame m.frame ∅) .empty) fun _ _ => trivial
  exact hmake.bind (fun g _ => inFrame g hx) m hm

/-! ### Variables -/

theorem define (name : String) {v : Value} (hv : v.Inert) :
    Deals (fun _ => True) (define name v) :=
  fun m _ => ⟨.define m.heap m.frame name hv, fun _ _ _ => trivial⟩

theorem lookup (id : ExprId) (name : String) (span : Span) :
    Deals Value.Inert (lookup id name span) := by
  refine read fun m hm => located (fun v hv => ?_) m hm
  obtain ⟨g, hv⟩ := Machine.exists_getIn?_of_lookup hv
  exact hm.getIn? hv

theorem assigned (name : Identifier) {write : Machine → Bool × Heap}
    (hw : ∀ m : Machine, m.heap.Onward (write m).2) : Deals (fun _ => True) (assigned name write) := by
  have hwrite : Deals (fun _ => True)
      (modifyGet fun m => ((write m).1, { m with heap := (write m).2 })) :=
    fun m _ => ⟨hw m, fun _ _ _ => trivial⟩
  refine hwrite.bind fun found _ => ?_
  cases found with
  | true => exact pure trivial
  | false => exact fail _ _

theorem assign (id : ExprId) (name : Identifier) {v : Value} (hv : v.Inert) :
    Deals (fun _ => True) (assign id name v) := by
  refine assigned name fun m => ?_
  split
  · exact .assignAt m.heap _ m.frame name.name hv
  · exact .assign m.heap Heap.globals name.name hv

theorem assignNearest (name : Identifier) {v : Value} (hv : v.Inert) :
    Deals (fun _ => True) (assignNearest name v) :=
  assigned name fun m => .assign m.heap m.frame name.name hv

/-! ### Natives, operators and elements -/

theorem printLine (text : String) (span : Span) : Deals (fun _ => True) (printLine text span) := by
  intro m _
  rw [DealsAt, printLine_apply]
  split
  · exact ⟨.refl _, fun _ _ _ => trivial⟩
  · exact ⟨.refl _, fun _ _ _ => trivial⟩

theorem callNative (f : Native) {args : List Value} (ha : ∀ v ∈ args, v.Inert) (span : Span) :
    Deals Value.Inert (callNative f args span) := by
  unfold Eval.callNative
  split
  · refine fun m _ => ⟨.refl _, fun v m' h => ?_⟩
    cases h
    exact .of_ne fun _ => Value.noConfusion
  · exact read fun m _ => .pure (.of_ne fun _ => Value.noConfusion)
  · next a v =>
    have hv : v.Inert := ha v (by simp)
    exact (change fun h => .edit h (e := .push a v) hv).bind fun _ _ =>
      pure (.of_ne fun _ => Value.noConfusion)
  · exact fail _ _
  · exact read fun m _ => .pure (.of_ne fun _ => Value.noConfusion)
  · exact fail _ _
  · exact fail _ _

theorem binary {op : BinaryOp} {a b v : Value} (hv : op.apply a b = .ok v) : v.Inert := by
  obtain ⟨l, rfl⟩ := BinaryOp.exists_ofLiteral hv
  exact .ofLiteral l

theorem unary {op : UnaryOp} {a v : Value} (hv : op.apply a = .ok v) : v.Inert := by
  obtain ⟨l, rfl⟩ := UnaryOp.exists_ofLiteral hv
  exact .ofLiteral l

theorem elementAt (array position : Value) (span : Span) :
    Deals (fun _ => True) (elementAt array position span) := by
  unfold Eval.elementAt
  split
  · refine read fun m hm => ?_
    exact (located (Q := fun _ => True) fun _ _ => trivial).bind (fun _ _ => pure trivial) m hm
  · exact fail _ _

theorem element (array position : Value) (span : Span) :
    Deals Value.Inert (element array position span) := by
  refine (elementAt array position span).bind fun found _ => read fun m hm => ?_
  split
  · next v hv => exact .pure (hm.element (Array.mem_of_getElem? hv))
  · exact .fail _ _

theorem setElement (array position : Value) {v : Value} (hv : v.Inert) (span : Span) :
    Deals (fun _ => True) (setElement array position v span) :=
  (elementAt array position span).bind fun found _ =>
    change fun h => .edit h (e := .element found.1 found.2 v) hv

/-! ### Members -/

/-- A member may be a getter, which is for `access` to run. -/
theorem property (target : Value) (name : Identifier) :
    Deals (fun _ => True) (property target name) := by
  unfold Eval.property
  split
  · next i =>
    refine read fun m hm => ?_
    split
    · exact .pure trivial
    · next f _ =>
      have hbind : Deals (fun _ => True) (Eval.make (·.bind f (.object i))) :=
        make (fun h _ => .bind h f (.of_ne fun _ => Value.noConfusion)) fun _ _ => trivial
      exact hbind.bind (fun _ _ => pure trivial) m hm
    · exact .fail _ _
  · refine read fun m _ => ?_
    split
    · exact .pure trivial
    · exact .fail _ _
  · exact fail _ _

theorem setProperty (target : Value) (name : Identifier) {v : Value} (hv : v.Inert) :
    Deals (fun _ => True) (setProperty target name v) := by
  unfold Eval.setProperty
  split
  · next i => exact change fun h => .edit h (e := .field i name.name v) hv
  · next c => exact change fun h => .edit h (e := .static c name.name v) hv
  · exact fail _ _

theorem receiver {hops : Nat} {v : Value} (h : receiver? m hops = some v) : v.Inert := by
  unfold receiver? at h
  split at h
  · cases h
  · split at h
    · cases h
      exact .of_ne fun _ => Value.noConfusion
    · cases h

theorem superProperty (id : ExprId) (name : Identifier) (span : Span) :
    Deals (fun _ => True) (superProperty id name span) := by
  refine read fun m hm => ?_
  split
  · exact .fail _ _
  split
  · exact .fail _ _
  · split
    · next this f hthis _ =>
      have hbind : Deals (fun _ => True) (Eval.make (·.bind f this)) :=
        make (fun h _ => .bind h f (receiver hthis)) fun _ _ => trivial
      exact hbind.bind (fun _ _ => pure trivial) m hm
    · split
      · exact .pure trivial
      · exact .fail _ _
  · exact .fail _ _

theorem closure (f : Function) :
    Deals (fun c => (Value.function c).Inert) (closure f .function) := by
  refine read fun m hm => ?_
  refine make (fun h _ => .functions h _) (fun h _ => ?_) m hm
  exact .function h.closures f m.frame

/-! ### Declarations -/

theorem superclassOf (r : Reference) : Deals (fun _ => True) (superclassOf r) := by
  refine (lookup _ _ _).bind fun v _ => ?_
  cases v with
  | klass c => exact pure trivial
  | _ => exact fail _ _

theorem traitOf (r : Reference) : Deals (fun _ => True) (traitOf r) := by
  refine (lookup _ _ _).bind fun v _ => ?_
  cases v with
  | trait t => exact pure trivial
  | _ => exact fail _ _

theorem traitsOf (rs : List Reference) : Deals (fun _ => True) (rs.mapM Eval.traitOf) := by
  induction rs with
  | nil => exact pure trivial
  | cons r rs ih =>
    rw [List.mapM_cons]
    exact (traitOf r).bind fun t _ => ih.bind fun ts _ => pure trivial

theorem closures (frame : FrameId) (kind : Function → FunctionKind) (fs : List Function) :
    Deals Table.Distinct (Eval.make (·.newClosures frame kind fs)) :=
  make (fun h _ => .newClosures h frame kind fs) fun h _ => h.distinct_newClosures frame kind fs

theorem classHeader (name : Identifier) (superclass : Option Reference)
    (traits : List Reference) : Deals (fun _ => True) (classHeader name superclass traits) := by
  have hsuperclass : Deals (fun _ => True) (namedSuperclass superclass) := by
    cases superclass with
    | none => exact pure trivial
    | some r => exact (superclassOf r).map fun _ _ => trivial
  exact (define name.name (.of_ne fun _ => Value.noConfusion)).bind fun _ _ =>
    hsuperclass.bind fun c _ => (traitsOf traits).bind fun ts _ => pure trivial

theorem classFrame (c : Option ClassId) : Deals (fun _ => True) (classFrame c) := by
  refine read fun m hm => ?_
  cases c with
  | none => exact .pure trivial
  | some c =>
    have hbindings : (Table.ofPairs [(Name.super, Value.klass c)]).All Value.Inert :=
      .ofPairs (List.forall_mem_singleton.2 (.of_ne fun _ => Value.noConfusion))
    exact make (fun h _ => .edit h (e := .frame m.frame _) hbindings) (fun _ _ => trivial) m hm

theorem classMembers (name : Identifier) (c : Option ClassId) (ts : List TraitId)
    (methods statics : List Function) (frame : FrameId) :
    Deals (fun _ => True) (classMembers name c ts methods statics frame) := by
  refine (closures frame _ methods).bind fun ms _ => (closures frame _ statics).bind fun ss _ => ?_
  have hclass : Deals (fun _ => True) (Eval.make fun h => h.newClass
      ⟨name.name, c, h.compose ts Trait.methods ms, h.compose ts Trait.statics ss, ∅⟩) := by
    refine make (fun h _ => ?_) fun _ _ => trivial
    exact .edit h (e := .klass _) ⟨rfl, h.distinct_compose _ _ _, h.distinct_compose _ _ _⟩
  exact hclass.bind fun k _ => assignNearest name (.of_ne fun _ => Value.noConfusion)

theorem declareClass (name : Identifier) (superclass : Option Reference)
    (traits : List Reference) (methods statics : List Function) :
    Deals (fun _ => True) (declareClass name superclass traits methods statics) := by
  rw [declareClass_eq]
  exact (classHeader name superclass traits).bind fun found _ =>
    (classFrame found.1).bind fun frame _ => classMembers name found.1 found.2 methods statics frame

theorem declareTrait (name : Identifier) (methods statics : List Function) :
    Deals (fun _ => True) (declareTrait name methods statics) := by
  refine read fun m hm => ?_
  refine bind (closures m.frame _ methods) (fun ms hms => ?_) m hm
  refine (closures m.frame _ statics).bind fun ss hss => ?_
  have htrait : Deals (fun _ => True) (Eval.make (·.newTrait ⟨name.name, ms, ss⟩)) :=
    make (fun h _ => .edit h (e := .trait _) ⟨hms, hss⟩) fun _ _ => trivial
  exact htrait.bind fun t _ => define name.name (.of_ne fun _ => Value.noConfusion)

/-! ### Sequences, loops and calls -/

theorem exprs {expr : Expr → Eval Value} (he : ∀ e, Deals Value.Inert (expr e))
    (es : List Expr) : Deals (fun vs => ∀ v ∈ vs, v.Inert) (exprs expr es) := by
  induction es with
  | nil => exact pure (by simp)
  | cons e es ih =>
    exact (he e).bind fun v hv => ih.bind fun vs hvs => pure (List.forall_mem_cons.2 ⟨hv, hvs⟩)

theorem stmts {stmt : Stmt → Eval Signal} (hs : ∀ s, Deals Signal.Inert (stmt s))
    (ss : List Stmt) : Deals Signal.Inert (stmts stmt ss) := by
  induction ss with
  | nil => exact pure trivial
  | cons s ss ih =>
    refine (hs s).bind fun signal hsignal => ?_
    cases signal with
    | next => exact ih
    | _ => exact pure hsignal

theorem loop {test : Eval Bool} {turn : Eval Signal} {step : Eval Unit}
    (htest : Deals (fun _ => True) test) (hturn : Deals Signal.Inert turn)
    (hstep : Deals (fun _ => True) step) (turns : Nat) :
    Deals Signal.Inert (loop test turn step turns) := by
  induction turns with
  | zero => exact throw _
  | succ turns ih =>
    refine htest.bind fun goesOn _ => ?_
    split
    · refine hturn.bind fun signal hsignal => ?_
      cases signal with
      | next => exact hstep.bind fun _ _ => ih
      | «continue» => exact hstep.bind fun _ _ => ih
      | «break» => exact pure trivial
      | «return» v => exact pure hsignal
    · exact pure trivial

theorem resultOf (f : Closure) {signal : Signal} (hs : signal.Inert) :
    Deals Value.Inert (resultOf f signal) := by
  unfold Eval.resultOf
  split
  · refine read fun m hm => ?_
    split
    · next v hv => exact .pure (hm.getAt? hv)
    · exact .fail _ _
  · cases signal with
    | «return» v => exact pure hs
    | _ => exact pure (.of_ne fun _ => Value.noConfusion)

section Calls

variable {apply : Closure → List Value → Eval Value}
  (ha : ∀ f args, (∀ v ∈ args, v.Inert) → Deals Value.Inert (apply f args))

include ha

theorem instantiate (c : ClassId) {args : List Value} (hargs : ∀ v ∈ args, v.Inert) :
    Deals Value.Inert (instantiate apply c args) := by
  have hobject (i : InstanceId) : (Value.object i).Inert := .of_ne fun _ => Value.noConfusion
  have hmake : Deals (fun _ => True) (Eval.make (·.newInstance c)) :=
    make (fun h _ => .edit h (e := .object c) trivial) fun _ _ => trivial
  refine hmake.bind fun i _ => read fun m hm => ?_
  split
  · next f _ =>
    have hbind : Deals (fun _ => True) (Eval.make (·.bind f (.object i))) :=
      make (fun h _ => .bind h f (hobject i)) fun _ _ => trivial
    exact hbind.bind (fun g _ => (ha g args hargs).discard.bind fun _ _ => pure (hobject i)) m hm
  · exact .pure (hobject i)

theorem callValue (callee : Value) {args : List Value} (hargs : ∀ v ∈ args, v.Inert)
    (span : Span) : Deals Value.Inert (callValue apply callee args span) := by
  have hguarded {p : Prop} [Decidable p] {kind : RuntimeErrorKind} {x : Eval Value}
      (hx : Deals Value.Inert x) :
      Deals Value.Inert (if p then Eval.fail span kind >>= fun _ : PUnit => x else x) := by
    split
    · exact (fail (Q := fun _ => True) span kind).bind fun _ _ => hx
    · exact hx
  refine read fun m hm => ?_
  split
  · exact .fail _ _
  · cases callee with
    | native f => exact hguarded (callNative f hargs span) m hm
    | function f => exact hguarded (ha f args hargs) m hm
    | klass c => exact hguarded (instantiate ha c hargs) m hm
    | _ => exact hguarded (fail _ _) m hm

/-- A getter is run, and what it returns is given. -/
theorem access (v : Value) : Deals Value.Inert (access apply v) := by
  cases v with
  | function f =>
    unfold Eval.access
    dsimp only
    split
    · split
      · exact fail _ _
      · split
        · exact ha f [] (by simp)
        · exact fail _ _
    · next hg => exact pure (Value.inert_function_iff.2 (Bool.eq_false_iff.2 hg))
  | _ => exact pure (.of_ne fun _ => Value.noConfusion)

end Calls

end Deals

/-! ## Evaluation -/

/-- Evaluations with so much fuel make edits that fit, and give inert values. -/
structure DealsIn (n : Nat) : Prop where
  expr : ∀ e, Deals Value.Inert (expr n e)
  apply : ∀ f args, (∀ v ∈ args, v.Inert) → Deals Value.Inert (apply n f args)
  stmt : ∀ s, Deals Signal.Inert (stmt n s)

namespace DealsIn

variable {n : Nat} (ih : DealsIn n)

include ih

theorem act (id : ExprId) (span : Span) (node : Expr.Node) {vs : List Value}
    (hvs : ∀ v ∈ vs, v.Inert) : Deals Value.Inert (act n id span node vs) := by
  unfold Eval.act
  split
  · exact .pure (.ofLiteral _)
  · exact .pure (hvs _ (by simp))
  · exact .located fun _ => Deals.binary
  · exact .located fun _ => Deals.unary
  · exact .lookup _ _ _
  · have hv := List.forall_mem_singleton.1 hvs
    exact (Deals.assign id _ hv).bind fun _ _ => .pure hv
  · exact .callValue ih.apply _ (List.forall_mem_cons.1 hvs).2 span
  · exact (Deals.property _ _).bind fun v _ => .access ih.apply v
  · next v =>
    have hv : v.Inert := hvs v (by simp)
    exact (Deals.setProperty _ _ hv).bind fun _ _ => .pure hv
  · have hmake : Deals (fun _ => True) (Eval.make (·.newArray vs)) :=
      .make (fun h _ => .edit h (e := .array vs) hvs) fun _ _ => trivial
    exact hmake.bind fun _ _ => .pure (.of_ne fun _ => Value.noConfusion)
  · exact .element _ _ _
  · next v =>
    have hv : v.Inert := hvs v (by simp)
    exact (Deals.setElement _ _ hv span).bind fun _ _ => .pure hv
  · exact (Deals.closure _).bind fun c hc => .pure hc
  · exact .lookup _ _ _
  · exact (Deals.superProperty _ _ _).bind fun v _ => .access ih.apply v
  · exact .throw _

theorem expr_succ (e : Expr) : Deals Value.Inert (Eval.expr (n + 1) e) := by
  obtain ⟨id, span, node⟩ := e
  by_cases hstrict : node.isStrict = true
  · rw [expr_of_isStrict n id span hstrict]
    exact (Deals.exprs ih.expr _).bind fun vs hvs => ih.act id span node hvs
  · cases node with
    | logical op left right =>
      refine (ih.expr left).bind fun v hv => ?_
      split
      · exact .pure hv
      · exact ih.expr right
    | ternary condition yes no =>
      refine (ih.expr condition).bind fun v _ => ?_
      split
      · exact ih.expr yes
      · exact ih.expr no
    | _ => exact absurd rfl hstrict

theorem apply_succ (f : Closure) {args : List Value} (hargs : ∀ v ∈ args, v.Inert) :
    Deals Value.Inert (Eval.apply (n + 1) f args) := by
  have hbindings : (arguments f args).All Value.Inert :=
    .ofPairs fun p hp => hargs p.2 (List.of_mem_zip hp).2
  have hmake : Deals (fun _ => True) (Eval.make (·.newFrame f.frame (arguments f args))) :=
    .make (fun h _ => .edit h (e := .frame f.frame _) hbindings) fun _ _ => trivial
  rw [apply_eq_resultOf]
  exact hmake.bind fun g _ => (Deals.inFrame g (.stmts ih.stmt _)).bind fun signal hs =>
    .resultOf f hs

theorem firstClause (init : Option Stmt) :
    Deals (fun _ => True) (Eval.firstClause n init) := by
  cases init with
  | none => exact .pure trivial
  | some s => exact (ih.stmt s).discard

theorem test (condition : Option Expr) : Deals (fun _ => True) (Eval.test n condition) := by
  cases condition with
  | none => exact .pure trivial
  | some e => exact (ih.expr e).bind fun v _ => .pure trivial

theorem after (step : Option Expr) : Deals (fun _ => True) (Eval.after n step) := by
  cases step with
  | none => exact .pure trivial
  | some e => exact (ih.expr e).discard

theorem turns (condition : Option Expr) (body : Stmt) (step : Option Expr) (k : Nat) :
    Deals Signal.Inert (Eval.turns n condition body step k) :=
  .loop (ih.test condition) (ih.stmt body) (ih.after step) k

/-- With one more unit of fuel statements deal with values that are no getters too. -/
theorem stmt_succ (s : Stmt) : Deals Signal.Inert (Eval.stmt (n + 1) s) := by
  obtain ⟨span, node⟩ := s
  cases node with
  | expression e => exact (ih.expr e).discard.bind fun _ _ => .pure trivial
  | print e =>
    exact (ih.expr e).bind fun v _ => .read fun m hm =>
      (Deals.printLine _ _).bind (fun _ _ => .pure trivial) m hm
  | varDecl name init =>
    have hdefine (v : Value) (hv : v.Inert) :
        Deals Signal.Inert (define name.name v >>= fun _ => pure .next) :=
      (Deals.define name.name hv).bind fun _ _ => .pure trivial
    cases init with
    | none => exact hdefine .nil (.of_ne fun _ => Value.noConfusion)
    | some e => exact (ih.expr e).bind hdefine
  | block body => exact .inNewFrame (.stmts ih.stmt body)
  | ifElse condition yes no =>
    refine (ih.expr condition).bind fun v _ => ?_
    split
    · exact ih.stmt yes
    · cases no with
      | none => exact .pure trivial
      | some s => exact ih.stmt s
  | «while» condition body =>
    rw [stmt_while]
    exact ih.turns (some condition) body none n
  | «for» init condition step body =>
    rw [stmt_for]
    exact .inNewFrame ((ih.firstClause init).bind fun _ _ => ih.turns condition body step n)
  | «break» => exact .pure trivial
  | «continue» => exact .pure trivial
  | funDecl f =>
    exact (Deals.closure f).bind fun c hc => (Deals.define _ hc).bind fun _ _ => .pure trivial
  | «return» value =>
    cases value with
    | none => exact .pure (.of_ne fun _ => Value.noConfusion)
    | some e => exact (ih.expr e).bind fun v hv => .pure hv
  | classDecl name superclass traits methods statics =>
    exact (Deals.declareClass name superclass traits methods statics).bind fun _ _ => .pure trivial
  | traitDecl name methods statics =>
    exact (Deals.declareTrait name methods statics).bind fun _ _ => .pure trivial

end DealsIn

/-- No getter gets out, by induction on the fuel that the parts of an evaluation get. -/
theorem dealsIn (n : Nat) : DealsIn n := by
  induction n with
  | zero => exact ⟨fun _ => .throw _, fun _ _ _ => .throw _, fun _ => .throw _⟩
  | succ n ih => exact ⟨ih.expr_succ, fun f _ => ih.apply_succ f, ih.stmt_succ⟩

theorem deals_program (n : Nat) (ss : List Stmt) : Deals (fun _ => True) (program n ss) := by
  induction ss with
  | nil => exact .pure trivial
  | cons s ss ih => exact ((dealsIn n).stmt s).discard.bind fun _ _ => ih

end Eval

end Lox

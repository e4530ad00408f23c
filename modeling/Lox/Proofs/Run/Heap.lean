import Mathlib
import Lox.Heap.Lemmas
import Lox.Machine.Basic

/-!
# What heaps hold

A running program only adds to its heap: a frame stays inside the one around it and keeps the names
that it has (`Extends`).  Whatever is read from a heap is in one of its frames, arrays, classes or
instances, and what holds of all of these holds after a change if it does of what is written.  So
what all the values and functions in a heap are like is one statement about it (`Holds`), which each
change of the heap keeps if what it writes is like that:

    h.Holds V M → V v → (name = Name.super → ∃ c, v = .klass c) →
      (h.define f name v).Holds V M                                             (Holds.define)
-/

namespace Lox

/-! ## Tables -/

/-- All values of the table are such. -/
def Table.All {α : Type} (P : α → Prop) (t : Table α) : Prop := ∀ p ∈ t.entries, P p.2

namespace Table.All

variable {α : Type} {P Q : α → Prop} {t u : Table α}

theorem empty : (∅ : Table α).All P := fun _ hp => by cases hp

theorem mono (h : t.All P) (hpq : ∀ a, P a → Q a) : t.All Q := fun p hp => hpq _ (h p hp)

theorem find? (h : t.All P) {name : String} {a : α} (ha : t.find? name = some a) : P a := by
  obtain ⟨entries⟩ := t
  induction entries with
  | nil => cases ha
  | cons entry rest ih =>
    rw [Table.find?, List.lookup_cons] at ha
    split at ha
    · cases ha; exact h _ List.mem_cons_self
    · exact ih (fun p hp => h p (List.mem_cons_of_mem _ hp)) ha

theorem insert (h : t.All P) (name : String) {a : α} (ha : P a) : (t.insert name a).All P := by
  obtain ⟨entries⟩ := t
  show ∀ p ∈ insertEntry name a entries, P p.2
  induction entries with
  | nil => exact List.forall_mem_singleton.2 ha
  | cons entry rest ih =>
    obtain ⟨hentry, hrest⟩ := List.forall_mem_cons.1 h
    rw [insertEntry]
    split
    · exact List.forall_mem_cons.2 ⟨ha, hrest⟩
    · exact List.forall_mem_cons.2 ⟨hentry, ih hrest⟩

theorem insertAll (h : t.All P) {pairs : List (String × α)} (hp : ∀ p ∈ pairs, P p.2) :
    (t.insertAll pairs).All P := by
  induction pairs generalizing t with
  | nil => exact h
  | cons pair pairs ih =>
    obtain ⟨hpair, hpairs⟩ := List.forall_mem_cons.1 hp
    exact ih (h.insert pair.1 hpair) hpairs

theorem ofPairs {pairs : List (String × α)} (hp : ∀ p ∈ pairs, P p.2) :
    (Table.ofPairs pairs).All P := insertAll empty hp

end Table.All

/-! ## Growing -/

namespace Heap

structure Extends (h h' : Heap) : Prop where
  size : h.frames.size ≤ h'.frames.size
  enclosing : ∀ g outer, h.enclosing? g = some outer → h'.enclosing? g = some outer
  bound : ∀ g name, (h.getIn? g name).isSome → (h'.getIn? g name).isSome

namespace Extends

variable {h h' h'' : Heap}

theorem refl (h : Heap) : h.Extends h := ⟨Nat.le_refl _, fun _ _ => id, fun _ _ => id⟩

theorem trans (a : h.Extends h') (b : h'.Extends h'') : h.Extends h'' :=
  ⟨Nat.le_trans a.size b.size, fun g outer hg => b.enclosing g outer (a.enclosing g outer hg),
    fun g name hg => b.bound g name (a.bound g name hg)⟩

/-- What leaves the frames alone. -/
theorem of_frames_eq (hf : h'.frames = h.frames) : h.Extends h' := by
  refine ⟨Nat.le_of_eq (by rw [hf]), fun g outer hg => ?_, fun g name hg => ?_⟩
  · rw [enclosing?] at hg ⊢
    rwa [hf]
  · rw [getIn?] at hg ⊢
    rwa [hf]

end Extends

variable {h : Heap}

theorem extends_define (h : Heap) (f : FrameId) (name : String) (v : Value) :
    h.Extends (h.define f name v) := by
  refine ⟨Nat.le_of_eq (h.size_frames_define f name v).symm, fun g outer hg => ?_,
    fun g other hg => ?_⟩
  · rwa [enclosing?_define]
  · rw [getIn?_define]
    split
    · rfl
    · exact hg

theorem enclosing?_newFrame (h : Heap) (enclosing : FrameId) (bindings : Table Value)
    (g : FrameId) : (h.newFrame enclosing bindings).2.enclosing? g =
      if g.index = h.frames.size then some enclosing else h.enclosing? g := by
  unfold enclosing? newFrame
  by_cases hg : g.index = h.frames.size
  · simp [hg]
  · simp [Array.getElem?_push, hg]

theorem index_ne_of_enclosing? {g outer : FrameId} (hg : h.enclosing? g = some outer) :
    g.index ≠ h.frames.size := by
  rintro he
  simp [enclosing?, he] at hg

theorem index_ne_of_getIn? {g : FrameId} {name : String} (hg : (h.getIn? g name).isSome) :
    g.index ≠ h.frames.size := by
  rintro he
  simp [getIn?, he] at hg

theorem extends_newFrame (h : Heap) (enclosing : FrameId) (bindings : Table Value) :
    h.Extends (h.newFrame enclosing bindings).2 := by
  refine ⟨by simp [newFrame], fun g outer hg => ?_, fun g name hg => ?_⟩
  · rw [enclosing?_newFrame, if_neg (index_ne_of_enclosing? hg), hg]
  · rw [getIn?_newFrame, if_neg (index_ne_of_getIn? hg)]
    exact hg

theorem extends_assign (h : Heap) (f : FrameId) (name : String) (v : Value) :
    h.Extends (h.assign f name v).2 := by
  unfold assign
  split
  · exact h.extends_define _ _ _
  · exact .refl h

theorem extends_assignAt (h : Heap) (hops : Nat) (f : FrameId) (name : String) (v : Value) :
    h.Extends (h.assignAt hops f name v).2 := by
  unfold assignAt
  split
  · exact h.extends_define _ _ _
  · exact .refl h

/-- What the methods of a class are depends on the classes alone. -/
theorem method?_of_classes_eq {h h' : Heap} (hc : h'.classes = h.classes) (c : ClassId)
    (name : String) : h'.method? c name = h.method? c name := by
  fun_induction Heap.method? h c name with
  | case1 c k hk f hf => rw [method?, hc]; simp only [hk, hf]
  | case2 c k hk hn s hs hlt ih => rw [method?, hc]; simp only [hk, hn, hs, if_pos hlt, ih]
  | case3 c k hk hn s hs hlt => rw [method?, hc]; simp only [hk, hn, hs, if_neg hlt]
  | case4 c k hk hn hs => rw [method?, hc]; simp only [hk, hn, hs]
  | case5 c hk => rw [method?, hc]; simp only [hk]

/-- A class whose new instances are set up by `init` is called with the arguments of that. -/
theorem arity?_of_newInstance {h : Heap} {c k : ClassId} {f : Closure}
    (hf : (h.newInstance c).2.method? k Name.init = some f) :
    h.arity? (.klass k) = some f.arity := by
  have hclasses : (h.newInstance c).2.classes = h.classes := rfl
  rw [method?_of_classes_eq hclasses] at hf
  simp only [arity?, hf]

/-! ## Where what is read is found -/

section

variable {f g : FrameId} {a : ArrayId} {c : ClassId} {i : InstanceId} {name : String} {v : Value}
  {m : Closure}

theorem exists_mem_of_getIn? (hv : h.getIn? g name = some v) :
    ∃ frame ∈ h.frames, frame.bindings.find? name = some v := by
  unfold getIn? at hv
  split at hv
  · next frame hframe => exact ⟨frame, Array.mem_of_getElem? hframe, hv⟩
  · cases hv

theorem exists_getIn?_of_getAt? {hops : Nat} (hv : h.getAt? hops f name = some v) :
    ∃ g, h.getIn? g name = some v := by
  unfold getAt? at hv
  split at hv
  · next g _ => exact ⟨g, hv⟩
  · cases hv

theorem exists_getIn?_of_get? (hv : h.get? f name = some v) : ∃ g, h.getIn? g name = some v := by
  unfold get? at hv
  split at hv
  · next g _ => exact ⟨g, hv⟩
  · cases hv

theorem exists_mem_of_mem_elements (hv : v ∈ h.elements a) : ∃ array ∈ h.arrays, v ∈ array := by
  unfold elements at hv
  cases ha : h.arrays[a.index]? with
  | none =>
    rw [ha, Option.getD_none] at hv
    exact absurd hv (Array.not_mem_empty v)
  | some array =>
    rw [ha, Option.getD_some] at hv
    exact ⟨array, Array.mem_of_getElem? ha, hv⟩

/-- A method is one of the class or of one above. -/
theorem exists_mem_of_method? (hm : h.method? c name = some m) :
    ∃ k ∈ h.classes, k.methods.find? name = some m := by
  fun_induction Heap.method? h c name with
  | case1 c k hk m hfound =>
    cases hm
    exact ⟨k, Array.mem_of_getElem? hk, hfound⟩
  | case2 c k hk hn s hs hlt ih => exact ih hm
  | case3 | case4 | case5 => cases hm

/-- A static member is a field or a function of the class or of one above. -/
theorem exists_mem_of_static? (hv : h.static? c name = some v) :
    ∃ k ∈ h.classes, k.fields.find? name = some v ∨
      ∃ m, k.statics.find? name = some m ∧ v = .function m := by
  fun_induction Heap.static? h c name with
  | case1 c k hk w hw =>
    cases hv
    exact ⟨k, Array.mem_of_getElem? hk, .inl hw⟩
  | case2 c k hk hn m hm =>
    cases hv
    exact ⟨k, Array.mem_of_getElem? hk, .inr ⟨m, hm, rfl⟩⟩
  | case3 c k hk hn hm s hs hlt ih => exact ih hv
  | case4 | case5 | case6 => cases hv

theorem exists_mem_of_member?_field (hv : h.member? i name = some (.field v)) :
    ∃ o ∈ h.instances, o.fields.find? name = some v := by
  unfold member? at hv
  split at hv
  · next o ho =>
    split at hv
    · next w hw =>
      cases hv
      exact ⟨o, Array.mem_of_getElem? ho, hw⟩
    · obtain ⟨m, -, hm⟩ := Option.map_eq_some_iff.1 hv
      cases hm
  · cases hv

theorem exists_method?_of_member?_method (hm : h.member? i name = some (.method m)) :
    ∃ c, h.method? c name = some m := by
  unfold member? at hm
  split at hm
  · next o _ =>
    split at hm
    · cases hm
    · obtain ⟨m, hfound, hm⟩ := Option.map_eq_some_iff.1 hm
      cases hm
      exact ⟨o.klass, hfound⟩
  · cases hm

end

/-! ## What writing leaves -/

theorem forall_mem_push {α : Type} {P : α → Prop} {xs : Array α} {a : α} (h : ∀ b ∈ xs, P b)
    (ha : P a) : ∀ b ∈ xs.push a, P b := by
  intro b hb
  rcases Array.mem_push.1 hb with hb | rfl
  · exact h b hb
  · exact ha

theorem forall_mem_modify {α : Type} {P : α → Prop} {xs : Array α} {i : Nat} {f : α → α}
    (h : ∀ b ∈ xs, P b) (hf : ∀ b, P b → P (f b)) : ∀ b ∈ xs.modify i f, P b := by
  intro b hb
  obtain ⟨j, hj, rfl⟩ := Array.mem_iff_getElem.1 hb
  rw [Array.size_modify] at hj
  rw [Array.getElem_modify]
  have hold := h xs[j] (Array.getElem_mem hj)
  split
  · exact hf _ hold
  · exact hold

section

variable {V : Value → Prop} {v : Value}

theorem forall_bindings_define (hh : ∀ frame ∈ h.frames, frame.bindings.All V) (f : FrameId)
    (name : String) (hv : V v) : ∀ frame ∈ (h.define f name v).frames, frame.bindings.All V := by
  dsimp only [define]
  exact forall_mem_modify hh fun _ hb => hb.insert name hv

theorem forall_elements_setElement (hh : ∀ array ∈ h.arrays, ∀ w ∈ array, V w) (a : ArrayId)
    (i : Nat) (hv : V v) : ∀ array ∈ (h.setElement a i v).arrays, ∀ w ∈ array, V w := by
  dsimp only [setElement]
  refine forall_mem_modify hh fun array ha w hw => ?_
  rcases Array.mem_or_eq_of_mem_setIfInBounds hw with hw | rfl
  · exact ha w hw
  · exact hv

theorem forall_elements_pushElement (hh : ∀ array ∈ h.arrays, ∀ w ∈ array, V w) (a : ArrayId)
    (hv : V v) : ∀ array ∈ (h.pushElement a v).arrays, ∀ w ∈ array, V w := by
  dsimp only [pushElement]
  exact forall_mem_modify hh fun array ha => forall_mem_push ha hv

theorem forall_classes_setStatic {P : Class → Prop} (hh : ∀ k ∈ h.classes, P k) (c : ClassId)
    (name : String) (hp : ∀ k, P k → P { k with fields := k.fields.insert name v }) :
    ∀ k ∈ (h.setStatic c name v).classes, P k := by
  dsimp only [setStatic]
  exact forall_mem_modify hh hp

theorem forall_instances_setField {P : Instance → Prop} (hh : ∀ o ∈ h.instances, P o)
    (i : InstanceId) (name : String)
    (hp : ∀ o, P o → P { o with fields := o.fields.insert name v }) :
    ∀ o ∈ (h.setField i name v).instances, P o := by
  dsimp only [setField]
  exact forall_mem_modify hh hp

end

end Heap

/-- What a use of a name means is in some frame. -/
theorem Machine.exists_getIn?_of_lookup {m : Machine} {id : ExprId} {name : String} {v : Value}
    (hv : m.lookup id name = .ok v) : ∃ g, m.heap.getIn? g name = some v := by
  unfold Machine.lookup at hv
  dsimp only at hv
  split at hv
  · next w hw =>
    cases hv
    split at hw
    · exact Heap.exists_getIn?_of_getAt? hw
    · exact Heap.exists_getIn?_of_get? hw
  · cases hv

/-! ## Contents -/

/-- The members of a class: functions to be bound, functions and values. -/
structure Class.Holds (V : Value → Prop) (M : Closure → Prop) (k : Class) : Prop where
  methods : k.methods.All M
  statics : k.statics.All fun f => V (.function f)
  fields : k.fields.All V

structure Trait.Holds (V : Value → Prop) (M : Closure → Prop) (k : Trait) : Prop where
  methods : k.methods.All M
  statics : k.statics.All fun f => V (.function f)

namespace Heap

/-- Every value in the heap is one of `V`, and every method still to be bound one of `M`. -/
structure Holds (V : Value → Prop) (M : Closure → Prop) (h : Heap) : Prop where
  bindings : ∀ g name v, h.getIn? g name = some v → V v
  supers : ∀ g v, h.getIn? g Name.super = some v → ∃ c, v = .klass c
  arrays : ∀ a ∈ h.arrays, ∀ v ∈ a, V v
  instances : ∀ o ∈ h.instances, o.fields.All V
  classes : ∀ k ∈ h.classes, k.Holds V M
  traits : ∀ k ∈ h.traits, k.Holds V M

namespace Holds

variable {V V' : Value → Prop} {M M' : Closure → Prop} {h : Heap}

theorem mono (hh : h.Holds V M) (hv : ∀ v, V v → V' v) (hm : ∀ f, M f → M' f) :
    h.Holds V' M' where
  bindings g name v hg := hv v (hh.bindings g name v hg)
  supers := hh.supers
  arrays a ha v hav := hv v (hh.arrays a ha v hav)
  instances o ho := (hh.instances o ho).mono hv
  classes k hk :=
    have hc := hh.classes k hk
    ⟨hc.methods.mono hm, hc.statics.mono fun _ => hv _, hc.fields.mono hv⟩
  traits k hk :=
    have hc := hh.traits k hk
    ⟨hc.methods.mono hm, hc.statics.mono fun _ => hv _⟩

/-! ### Reading -/

theorem getAt? (hh : h.Holds V M) {hops : Nat} {f : FrameId} {name : String} {v : Value}
    (hv : h.getAt? hops f name = some v) : V v := by
  obtain ⟨g, hg⟩ := exists_getIn?_of_getAt? hv
  exact hh.bindings g name v hg

theorem mem_elements (hh : h.Holds V M) {a : ArrayId} {v : Value} (hv : v ∈ h.elements a) :
    V v := by
  obtain ⟨array, harray, hv⟩ := exists_mem_of_mem_elements hv
  exact hh.arrays array harray v hv

theorem method? (hh : h.Holds V M) {c : ClassId} {name : String} {f : Closure}
    (hf : h.method? c name = some f) : M f := by
  obtain ⟨k, hk, hf⟩ := exists_mem_of_method? hf
  exact (hh.classes k hk).methods.find? hf

theorem static? (hh : h.Holds V M) {c : ClassId} {name : String} {v : Value}
    (hv : h.static? c name = some v) : V v := by
  obtain ⟨k, hk, hv | ⟨f, hf, rfl⟩⟩ := exists_mem_of_static? hv
  · exact (hh.classes k hk).fields.find? hv
  · exact (hh.classes k hk).statics.find? hf

theorem field (hh : h.Holds V M) {i : InstanceId} {name : String} {v : Value}
    (hv : h.member? i name = some (.field v)) : V v := by
  obtain ⟨o, ho, hv⟩ := exists_mem_of_member?_field hv
  exact (hh.instances o ho).find? hv

theorem method (hh : h.Holds V M) {i : InstanceId} {name : String} {f : Closure}
    (hf : h.member? i name = some (.method f)) : M f := by
  obtain ⟨c, hf⟩ := exists_method?_of_member?_method hf
  exact hh.method? hf

end Holds

/-! ### Writing -/

section

variable {V : Value → Prop} {M : Closure → Prop} {h : Heap}

theorem Holds.define (hh : h.Holds V M) (f : FrameId) {name : String} {v : Value} (hv : V v)
    (hs : name = Name.super → ∃ c, v = .klass c) : (h.define f name v).Holds V M where
  bindings g other w hw := by
    rw [getIn?_define] at hw
    split at hw
    · cases hw; exact hv
    · exact hh.bindings g other w hw
  supers g w hw := by
    rw [getIn?_define] at hw
    split at hw
    · next hname => cases hw; exact hs hname.2.1
    · exact hh.supers g w hw
  arrays := hh.arrays
  instances := hh.instances
  classes := hh.classes
  traits := hh.traits

theorem Holds.assign (hh : h.Holds V M) (f : FrameId) {name : String} {v : Value} (hv : V v)
    (hs : name = Name.super → ∃ c, v = .klass c) : (h.assign f name v).2.Holds V M := by
  unfold Heap.assign
  split
  · exact hh.define _ hv hs
  · exact hh

theorem Holds.assignAt (hh : h.Holds V M) (hops : Nat) (f : FrameId) {name : String} {v : Value}
    (hv : V v) (hs : name = Name.super → ∃ c, v = .klass c) :
    (h.assignAt hops f name v).2.Holds V M := by
  unfold Heap.assignAt
  split
  · exact hh.define _ hv hs
  · exact hh

theorem Holds.newFrame (hh : h.Holds V M) (enclosing : FrameId) {bindings : Table Value}
    (hb : bindings.All V)
    (hs : ∀ v, bindings.find? Name.super = some v → ∃ c, v = .klass c) :
    (h.newFrame enclosing bindings).2.Holds V M where
  bindings g name v hv := by
    rw [getIn?_newFrame] at hv
    split at hv
    · exact hb.find? hv
    · exact hh.bindings g name v hv
  supers g v hv := by
    rw [getIn?_newFrame] at hv
    split at hv
    · exact hs v hv
    · exact hh.supers g v hv
  arrays := hh.arrays
  instances := hh.instances
  classes := hh.classes
  traits := hh.traits

theorem Holds.newArray (hh : h.Holds V M) {vs : List Value} (hvs : ∀ v ∈ vs, V v) :
    (h.newArray vs).2.Holds V M :=
  { hh with arrays := forall_mem_push hh.arrays fun v hv => hvs v (List.mem_toArray.1 hv) }

theorem Holds.pushElement (hh : h.Holds V M) (a : ArrayId) {v : Value} (hv : V v) :
    (h.pushElement a v).Holds V M :=
  { hh with arrays := forall_elements_pushElement hh.arrays a hv }

theorem Holds.setElement (hh : h.Holds V M) (a : ArrayId) (i : Nat) {v : Value} (hv : V v) :
    (h.setElement a i v).Holds V M :=
  { hh with arrays := forall_elements_setElement hh.arrays a i hv }

theorem Holds.newInstance (hh : h.Holds V M) (c : ClassId) : (h.newInstance c).2.Holds V M :=
  { hh with instances := forall_mem_push hh.instances .empty }

theorem Holds.setField (hh : h.Holds V M) (i : InstanceId) {name : String} {v : Value} (hv : V v) :
    (h.setField i name v).Holds V M :=
  { hh with
    instances := forall_instances_setField hh.instances i name fun _ ho => ho.insert name hv }

theorem Holds.newClass (hh : h.Holds V M) {k : Class} (hk : k.Holds V M) :
    (h.newClass k).2.Holds V M :=
  { hh with classes := forall_mem_push hh.classes hk }

theorem Holds.setStatic (hh : h.Holds V M) (c : ClassId) {name : String} {v : Value} (hv : V v) :
    (h.setStatic c name v).Holds V M :=
  { hh with
    classes := forall_classes_setStatic hh.classes c name fun _ hk =>
      ⟨hk.methods, hk.statics, hk.fields.insert name hv⟩ }

theorem Holds.newTrait (hh : h.Holds V M) {k : Trait} (hk : k.Holds V M) :
    (h.newTrait k).2.Holds V M :=
  { hh with traits := forall_mem_push hh.traits hk }

/-- How many functions have been made says nothing of what is held. -/
theorem Holds.withClosures (hh : h.Holds V M) (n : Nat) : { h with closures := n }.Holds V M :=
  ⟨hh.bindings, hh.supers, hh.arrays, hh.instances, hh.classes, hh.traits⟩

end

/-! ### Tables of functions -/

theorem exists_newClosures (h : Heap) (frame : FrameId) (kind : Function → FunctionKind)
    (fs : List Function) :
    ∃ t n, h.newClosures frame kind fs = (t, { h with closures := n }) ∧
      t.All fun c => c.function ∈ fs ∧ c.frame = frame ∧ c.kind = kind c.function := by
  unfold newClosures
  -- the functions that are made are among `fs`, of which those to come are the rest
  suffices ∀ (rest : List Function) (table : Table Closure) (m : Nat), rest ⊆ fs →
      table.All (fun c => c.function ∈ fs ∧ c.frame = frame ∧ c.kind = kind c.function) →
      ∃ t n, rest.foldl (fun (acc : Table Closure × Heap) f =>
          (acc.1.insert f.name.name (acc.2.newClosure f frame (kind f)).1,
            (acc.2.newClosure f frame (kind f)).2)) (table, { h with closures := m }) =
          (t, { h with closures := n }) ∧
        t.All fun c => c.function ∈ fs ∧ c.frame = frame ∧ c.kind = kind c.function by
    exact this fs ∅ h.closures (List.Subset.refl _) .empty
  intro rest
  induction rest with
  | nil => exact fun table m _ ht => ⟨table, m, rfl, ht⟩
  | cons f rest ih =>
    intro table m hsub ht
    obtain ⟨hf, hrest⟩ := List.cons_subset.1 hsub
    exact ih (table.insert f.name.name ⟨m, f, frame, kind f⟩) (m + 1) hrest
      (ht.insert _ ⟨hf, rfl, rfl⟩)

/-- What the empty table is like, and what stays so when the members of a trait or the own ones are
added, the members of a class are like. -/
theorem compose_induction {h : Heap} {P : Table Closure → Prop} {members : Trait → Table Closure}
    {own : Table Closure} (hempty : P ∅)
    (htrait : ∀ table, P table → ∀ k ∈ h.traits, P (table.insertAll (members k).entries))
    (hown : ∀ table, P table → P (table.insertAll own.entries)) (ts : List TraitId) :
    P (h.compose ts members own) := by
  unfold compose
  refine hown _ ?_
  generalize (∅ : Table Closure) = table at hempty ⊢
  induction ts generalizing table with
  | nil => exact hempty
  | cons t ts ih =>
    rw [List.foldl_cons]
    refine ih _ ?_
    cases hk : h.traits[t.index]? with
    | none => exact hempty
    | some k => exact htrait table hempty k (Array.mem_of_getElem? hk)

theorem all_compose {h : Heap} {P : Closure → Prop} {ts : List TraitId}
    {members : Trait → Table Closure} {own : Table Closure}
    (ht : ∀ k ∈ h.traits, (members k).All P) (ho : own.All P) :
    (h.compose ts members own).All P :=
  compose_induction .empty (fun _ htable k hk => htable.insertAll (ht k hk))
    (fun _ htable => htable.insertAll ho) ts

end Heap

end Lox

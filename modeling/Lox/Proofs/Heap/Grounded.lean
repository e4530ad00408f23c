import Lox.Proofs.Class.Static
import Lox.Proofs.Heap.Outward
import Lox.Proofs.Run.Inert

/-!
# What a heap stands on

The contents of a heap may refer to each other in circles: a function is a variable of the frame that
it carries, an array is an element of its own.  Two kinds of links lead to older things only, that of
a frame to the one around it and that of a class to its superclass.  They do because each thing is
made from what is there already (`Edit.Grounded`):

    h.Grounded → e.Grounded h → (h.edit e).Grounded                              (Grounded.edit)
    h.Grounded → h.Founded                                                    (Grounded.founded)

So from every frame outward lie finitely many frames up to that of the globals, from every class
upward finitely many classes, none of them twice, and the walks along them come to an end.
-/

namespace Lox

/-! ## What is there -/

/-- The frame that a function carries is there. -/
def Closure.Grounded (h : Heap) (f : Closure) : Prop := f.frame.index < h.frames.size

/-- The frame that a function carries is there, and so is a class. -/
def Value.Grounded (h : Heap) : Value → Prop
  | .function f => f.Grounded h
  | .klass c => c.index < h.classes.size
  | _ => True

/-- A statement is left with such a value, if with any. -/
def Signal.Grounded (h : Heap) : Signal → Prop
  | .return v => v.Grounded h
  | _ => True

structure Class.Grounded (h : Heap) (k : Class) : Prop where
  methods : k.methods.All (Closure.Grounded h)
  statics : k.statics.All (Closure.Grounded h)
  fields : k.fields.All (Value.Grounded h)

structure Instance.Grounded (h : Heap) (o : Instance) : Prop where
  klass : o.klass.index < h.classes.size
  fields : o.fields.All (Value.Grounded h)

structure Trait.Grounded (h : Heap) (k : Trait) : Prop where
  methods : k.methods.All (Closure.Grounded h)
  statics : k.statics.All (Closure.Grounded h)

/-- From the one heap to the other no frame and no class is lost. -/
structure Heap.Within (h h' : Heap) : Prop where
  frames : h.frames.size ≤ h'.frames.size
  classes : h.classes.size ≤ h'.classes.size

section

variable {h h' : Heap} (hw : h.Within h')

include hw

theorem Closure.Grounded.mono {f : Closure} (hf : f.Grounded h) : f.Grounded h' :=
  Nat.lt_of_lt_of_le hf hw.frames

theorem Value.Grounded.mono {v : Value} (hv : v.Grounded h) : v.Grounded h' := by
  cases v with
  | function f => exact Closure.Grounded.mono hw hv
  | klass c => exact Nat.lt_of_lt_of_le hv hw.classes
  | _ => trivial

theorem Class.Grounded.mono {k : Class} (hk : k.Grounded h) : k.Grounded h' where
  methods := hk.methods.mono fun _ => Closure.Grounded.mono hw
  statics := hk.statics.mono fun _ => Closure.Grounded.mono hw
  fields := hk.fields.mono fun _ => Value.Grounded.mono hw

theorem Instance.Grounded.mono {o : Instance} (ho : o.Grounded h) : o.Grounded h' where
  klass := Nat.lt_of_lt_of_le ho.klass hw.classes
  fields := ho.fields.mono fun _ => Value.Grounded.mono hw

theorem Trait.Grounded.mono {k : Trait} (hk : k.Grounded h) : k.Grounded h' where
  methods := hk.methods.mono fun _ => Closure.Grounded.mono hw
  statics := hk.statics.mono fun _ => Closure.Grounded.mono hw

end

theorem Value.grounded_ofLiteral (h : Heap) (l : Literal) : (Value.ofLiteral l).Grounded h := by
  cases l <;> trivial

namespace Heap

/-! ## Heaps -/

/-- All that `h` has in it is there in `h₀`. -/
structure Refers (h₀ h : Heap) : Prop where
  bindings : ∀ frame ∈ h.frames, frame.bindings.All (Value.Grounded h₀)
  arrays : ∀ a ∈ h.arrays, ∀ v ∈ a, v.Grounded h₀
  classes : ∀ k ∈ h.classes, k.Grounded h₀
  instances : ∀ o ∈ h.instances, o.Grounded h₀
  traits : ∀ k ∈ h.traits, k.Grounded h₀

/-- Of the frames that of the globals, and no other, lies in none, and the others in older ones. -/
structure Rooted (h : Heap) : Prop where
  globals : 0 < h.frames.size
  root : ∀ f, f.index < h.frames.size → (h.enclosing? f = none ↔ f = Heap.globals)
  ordered : h.Ordered

/-- The heap refers to what is there, and what it has been made from is older. -/
structure Grounded (h : Heap) : Prop where
  rooted : h.Rooted
  forest : h.Forest
  refers : h.Refers h

/-- What the edit refers to is there. -/
def Edit.Grounded (h : Heap) : Edit → Prop
  | frame outer bindings => outer.index < h.frames.size ∧ bindings.All (Value.Grounded h)
  | «variable» _ _ v | element _ _ v | push _ v | static _ _ v | field _ _ v => v.Grounded h
  | array elements => ∀ v ∈ elements, v.Grounded h
  | klass k => k.Grounded h ∧ ∀ s, k.superclass = some s → s.index < h.classes.size
  | object c => c.index < h.classes.size
  | trait k => k.Grounded h
  | functions _ => True

theorem Refers.mono {h₀ h₁ h : Heap} (hr : h₀.Refers h) (hw : h₀.Within h₁) : h₁.Refers h where
  bindings frame hf := (hr.bindings frame hf).mono fun _ => Value.Grounded.mono hw
  arrays a ha v hv := (hr.arrays a ha v hv).mono hw
  classes k hk := (hr.classes k hk).mono hw
  instances o ho := (hr.instances o ho).mono hw
  traits k hk := (hr.traits k hk).mono hw

theorem within_edit (h : Heap) (e : Edit) : h.Within (h.edit e) := by
  cases e with
  | frame outer bindings => exact ⟨by simp [edit, newFrame], Nat.le_refl _⟩
  | «variable» f name v => exact ⟨by simp [edit, size_frames_define], Nat.le_refl _⟩
  | klass k => exact ⟨Nat.le_refl _, by simp [edit, newClass]⟩
  | static c name v => exact ⟨Nat.le_refl _, by simp [edit, setStatic]⟩
  | _ => exact ⟨Nat.le_refl _, Nat.le_refl _⟩

/-! ### Edits -/

theorem Refers.edit {h₀ h : Heap} (hr : h₀.Refers h) {e : Edit} (he : e.Grounded h₀) :
    h₀.Refers (h.edit e) := by
  cases e with
  | frame outer bindings => exact { hr with bindings := forall_mem_push hr.bindings he.2 }
  | «variable» g name v =>
    exact { hr with bindings := forall_bindings_define hr.bindings g name he }
  | array elements =>
    exact { hr with
      arrays := forall_mem_push hr.arrays fun v hv => he v (List.mem_toArray.1 hv) }
  | element a i v => exact { hr with arrays := forall_elements_setElement hr.arrays a i he }
  | push a v => exact { hr with arrays := forall_elements_pushElement hr.arrays a he }
  | klass k => exact { hr with classes := forall_mem_push hr.classes he.1 }
  | static c name v =>
    exact { hr with
      classes := forall_classes_setStatic hr.classes c name fun _ hk =>
        ⟨hk.methods, hk.statics, hk.fields.insert name he⟩ }
  | object c => exact { hr with instances := forall_mem_push hr.instances ⟨he, .empty⟩ }
  | field i name v =>
    exact { hr with
      instances := forall_instances_setField hr.instances i name fun _ ho =>
        ⟨ho.klass, ho.fields.insert name he⟩ }
  | trait k => exact { hr with traits := forall_mem_push hr.traits he }
  | functions n => exact { hr with }

theorem Rooted.of_frames_eq {h h' : Heap} (hr : h.Rooted) (hf : h'.frames = h.frames) :
    h'.Rooted := by
  have henclosing (f : FrameId) : h'.enclosing? f = h.enclosing? f := by
    rw [enclosing?, enclosing?, hf]
  refine ⟨hf ▸ hr.globals, fun f hlt => ?_, fun f g hg => ?_⟩
  · rw [henclosing]
    exact hr.root f (hf ▸ hlt)
  · exact hr.ordered f g (henclosing f ▸ hg)

/-- A frame is made inside one that is there, and stays in it. -/
theorem Rooted.edit {h : Heap} (hr : h.Rooted) {e : Edit} (he : e.Grounded h) :
    (h.edit e).Rooted := by
  cases e with
  | frame outer bindings =>
    refine ⟨Nat.lt_of_lt_of_le hr.globals (h.within_edit (.frame outer bindings)).frames,
      fun f hlt => ?_, hr.ordered.newFrame he.1 bindings⟩
    rw [Heap.edit, enclosing?_newFrame]
    split
    · next hf =>
      have hne : f ≠ Heap.globals := by
        rintro rfl
        exact absurd hf (Nat.ne_of_lt hr.globals)
      exact iff_of_false (fun hnone => Option.some_ne_none _ hnone) hne
    · next hf =>
      have hsize : (h.newFrame outer bindings).2.frames.size = h.frames.size + 1 := by
        simp [newFrame]
      rw [Heap.edit, hsize] at hlt
      exact hr.root f (Nat.lt_of_le_of_ne (Nat.le_of_lt_succ hlt) hf)
  | «variable» g name v =>
    refine ⟨?_, fun f hlt => ?_, hr.ordered.define g name v⟩
    · rw [Heap.edit, size_frames_define]
      exact hr.globals
    · rw [Heap.edit, size_frames_define] at hlt
      rw [Heap.edit, enclosing?_define]
      exact hr.root f hlt
  | _ => exact hr.of_frames_eq rfl

/-- A class is made below one that is there, and stays below it. -/
theorem Forest.edit {h : Heap} (hf : h.Forest) {e : Edit} (he : e.Grounded h) :
    (h.edit e).Forest := by
  cases e with
  | klass k =>
    intro c k' s hk hs
    simp only [Heap.edit, newClass, Array.getElem?_push] at hk
    split at hk
    · next hc =>
      cases hk
      exact hc ▸ he.2 s hs
    · exact hf c k' s hk hs
  | static d name v =>
    intro c k' s hk hs
    simp only [Heap.edit, setStatic, Array.getElem?_modify] at hk
    split at hk
    · obtain ⟨k, hold, rfl⟩ := Option.map_eq_some_iff.1 hk
      exact hf c k s hold hs
    · exact hf c k' s hk hs
  | _ => exact hf

theorem Grounded.edit {h : Heap} (hh : h.Grounded) {e : Edit} (he : e.Grounded h) :
    (h.edit e).Grounded where
  rooted := hh.rooted.edit he
  forest := hh.forest.edit he
  refers := (hh.refers.edit he).mono (h.within_edit e)

theorem grounded_start : Heap.start.Grounded where
  rooted := by
    refine ⟨Nat.one_pos, fun f hf => ?_, .start⟩
    obtain ⟨_ | i⟩ := f
    · exact iff_of_true rfl rfl
    · exact absurd (Nat.lt_of_succ_lt_succ hf) (Nat.not_lt_zero i)
  forest c k s hk := by cases hk
  refers := {
    bindings frame hframe := by
      cases List.mem_singleton.1 (Array.mem_def.1 hframe)
      refine .ofPairs fun p hp => ?_
      obtain ⟨f, -, rfl⟩ := List.mem_map.1 hp
      trivial
    arrays a ha := absurd ha (Array.not_mem_empty a)
    classes k hk := absurd hk (Array.not_mem_empty k)
    instances o ho := absurd ho (Array.not_mem_empty o)
    traits k hk := absurd hk (Array.not_mem_empty k) }

/-! ### Going on -/

/-- From the one heap to the other by edits, each about what is there at its time. -/
inductive LeadsTo (h : Heap) : Heap → Prop
  | refl : LeadsTo h h
  | edit {h' : Heap} {e : Edit} : LeadsTo h h' → e.Grounded h' → LeadsTo h (h'.edit e)

namespace LeadsTo

variable {h h' h'' : Heap}

theorem trans (a : h.LeadsTo h') (b : h'.LeadsTo h'') : h.LeadsTo h'' := by
  induction b with
  | refl => exact a
  | edit _ he ih => exact ih.edit he

theorem one {e : Edit} (he : e.Grounded h) : h.LeadsTo (h.edit e) := .edit .refl he

/-- Whatever a grounded heap leads to is grounded. -/
theorem grounded (a : h.LeadsTo h') (hh : h.Grounded) : h'.Grounded := by
  induction a with
  | refl => exact hh
  | edit _ he ih => exact ih.edit he

theorem within (a : h.LeadsTo h') : h.Within h' := by
  induction a with
  | refl => exact ⟨Nat.le_refl _, Nat.le_refl _⟩
  | @edit h' e _ _ ih =>
    have hstep := h'.within_edit e
    exact ⟨Nat.le_trans ih.frames hstep.frames, Nat.le_trans ih.classes hstep.classes⟩

theorem define (f : FrameId) (name : String) {v : Value} (hv : v.Grounded h) :
    h.LeadsTo (h.define f name v) := one (e := .variable f name v) hv

theorem assign (f : FrameId) (name : String) {v : Value} (hv : v.Grounded h) :
    h.LeadsTo (h.assign f name v).2 := by
  unfold Heap.assign
  split
  · exact define _ name hv
  · exact .refl

theorem assignAt (hops : Nat) (f : FrameId) (name : String) {v : Value} (hv : v.Grounded h) :
    h.LeadsTo (h.assignAt hops f name v).2 := by
  unfold Heap.assignAt
  split
  · exact define _ name hv
  · exact .refl

theorem functions (n : Nat) : h.LeadsTo { h with closures := n } :=
  one (e := .functions n) trivial

theorem newFrame {outer : FrameId} (hlt : outer.index < h.frames.size) {bindings : Table Value}
    (hb : bindings.All (Value.Grounded h)) : h.LeadsTo (h.newFrame outer bindings).2 :=
  one (e := .frame outer bindings) ⟨hlt, hb⟩

theorem bind {f : Closure} (hf : f.Grounded h) {v : Value} (hv : v.Grounded h) :
    h.LeadsTo (h.bind f v).2 :=
  (newFrame hf (.ofPairs (List.forall_mem_singleton.2 hv))).trans (functions _)

end LeadsTo

/-- A bound function carries the frame in which it has been bound. -/
theorem grounded_bind (h : Heap) (f : Closure) (receiver : Value) :
    (h.bind f receiver).1.Grounded (h.bind f receiver).2 := by
  simp [Closure.Grounded, Heap.bind, newFrame, newClosure]

/-! ### Reading -/

namespace Refers

variable {h₀ h : Heap} (hr : h₀.Refers h)

include hr

theorem getIn? {g : FrameId} {name : String} {v : Value} (hv : h.getIn? g name = some v) :
    v.Grounded h₀ := by
  obtain ⟨frame, hframe, hv⟩ := exists_mem_of_getIn? hv
  exact (hr.bindings frame hframe).find? hv

theorem getAt? {hops : Nat} {g : FrameId} {name : String} {v : Value}
    (hv : h.getAt? hops g name = some v) : v.Grounded h₀ := by
  obtain ⟨_, hv⟩ := exists_getIn?_of_getAt? hv
  exact hr.getIn? hv

theorem element {a : ArrayId} {v : Value} (hv : v ∈ h.elements a) : v.Grounded h₀ := by
  obtain ⟨array, harray, hv⟩ := exists_mem_of_mem_elements hv
  exact hr.arrays array harray v hv

theorem method? {c : ClassId} {name : String} {f : Closure} (hf : h.method? c name = some f) :
    f.Grounded h₀ := by
  obtain ⟨k, hk, hf⟩ := exists_mem_of_method? hf
  exact (hr.classes k hk).methods.find? hf

theorem static? {c : ClassId} {name : String} {v : Value} (hv : h.static? c name = some v) :
    v.Grounded h₀ := by
  obtain ⟨k, hk, hv | ⟨f, hf, rfl⟩⟩ := exists_mem_of_static? hv
  · exact (hr.classes k hk).fields.find? hv
  · exact (hr.classes k hk).statics.find? hf

/-- What an instance answers to a name: a value, or a method to be bound. -/
theorem member? {i : InstanceId} {name : String} {x : Member} (hx : h.member? i name = some x) :
    (∀ v, x = .field v → v.Grounded h₀) ∧ ∀ f, x = .method f → f.Grounded h₀ := by
  refine ⟨?_, ?_⟩
  · rintro v rfl
    obtain ⟨o, ho, hv⟩ := exists_mem_of_member?_field hx
    exact (hr.instances o ho).fields.find? hv
  · rintro f rfl
    obtain ⟨c, hf⟩ := exists_method?_of_member?_method hx
    exact hr.method? hf

end Refers

/-! ## Walks -/

/-- The method of instances that a class itself has. -/
def ownMethod? (h : Heap) (c : ClassId) (name : String) : Option Closure :=
  match h.classes[c.index]? with
  | some k => k.methods.find? name
  | none => none

/-- Outward from `f` lie the frames `gs`, each once, up to that of the globals, and walks from `f`
go along them. -/
structure Environment (h : Heap) (f : FrameId) (gs : List FrameId) : Prop where
  outward : h.Outward f gs
  nodup : gs.Nodup
  last : gs.getLast? = some globals
  length : gs.length ≤ h.frames.size
  get? : ∀ name, h.get? f name = gs.findSome? (h.getIn? · name)
  assign : ∀ name v, h.assign f name v =
    match gs.find? fun g => (h.getIn? g name).isSome with
    | some g => (true, h.define g name v)
    | none => (false, h)
  ancestor? : ∀ hops, h.ancestor? hops f = gs[hops]?

/-- Upward from `c` lie the classes `cs`, each once, and walks from `c` go along them. -/
structure Ancestry (h : Heap) (c : ClassId) (cs : List ClassId) : Prop where
  chain : h.Chain c cs
  nodup : cs.Nodup
  length : cs.length ≤ h.classes.size
  method? : ∀ name, h.method? c name = cs.findSome? (h.ownMethod? · name)
  static? : ∀ name, h.static? c name = cs.findSome? (h.ownStatic? · name)
  arity? : h.arity? (.klass c) =
    some (((cs.findSome? (h.ownMethod? · Name.init)).map Closure.arity).getD 0)

/-- All walks outward and upward come to an end. -/
structure Founded (h : Heap) : Prop where
  outward : ∀ f, f.index < h.frames.size → ∃ gs, h.Environment f gs
  upward : ∀ c, c.index < h.classes.size → ∃ cs, h.Ancestry c cs

variable {h : Heap}

theorem Outward.length_le {f : FrameId} {gs : List FrameId} (hf : h.Outward f gs)
    (ho : h.Ordered) : gs.length ≤ f.index + 1 := by
  induction hf with
  | last => exact Nat.le_add_left 1 _
  | @inside f g gs hg _ ih =>
    have hlt := ho f g hg
    rw [List.length_cons]
    omega

theorem Outward.getLast?_eq {f : FrameId} {gs : List FrameId} (hf : h.Outward f gs)
    (hr : h.Rooted) (hlt : f.index < h.frames.size) : gs.getLast? = some globals := by
  induction hf with
  | @last f hnone =>
    rw [(hr.root f hlt).1 hnone]
    rfl
  | @inside f g gs hg hgs ih =>
    have hlast := ih (Nat.lt_trans (hr.ordered f g hg) hlt)
    rw [List.getLast?_cons, hlast]
    rfl

theorem Rooted.exists_environment (hr : h.Rooted) {f : FrameId} (hlt : f.index < h.frames.size) :
    ∃ gs, h.Environment f gs := by
  obtain ⟨gs, hgs⟩ := hr.ordered.exists_outward f
  refine ⟨gs, hgs, hgs.nodup hr.ordered, hgs.getLast?_eq hr hlt, ?_, hgs.get?_eq hr.ordered,
    fun name v => ?_, fun hops => (hgs.getElem?_eq hops).symm⟩
  · exact Nat.le_trans (hgs.length_le hr.ordered) hlt
  · have howner := hgs.owner?_eq hr.ordered name
    cases hfind : gs.find? fun g => (h.getIn? g name).isSome <;>
      simp only [Heap.assign, howner, hfind]

theorem Chain.unique {c : ClassId} {cs cs' : List ClassId} (hcs : h.Chain c cs)
    (hcs' : h.Chain c cs') : cs = cs' := by
  induction hcs generalizing cs' with
  | root hk hs =>
    cases hcs' with
    | root => rfl
    | above hk' hs' _ =>
      cases hk.symm.trans hk'
      cases hs.symm.trans hs'
  | above hk hs _ ih =>
    cases hcs' with
    | root hk' hs' =>
      cases hk.symm.trans hk'
      cases hs.symm.trans hs'
    | above hk' hs' hrest =>
      cases hk.symm.trans hk'
      cases hs.symm.trans hs'
      rw [ih hrest]

/-- Upward the classes are older and older. -/
theorem Chain.pairwise {c : ClassId} {cs : List ClassId} (hcs : h.Chain c cs) (hf : h.Forest) :
    (∀ d ∈ cs, d.index ≤ c.index) ∧ cs.Pairwise (·.index > ·.index) := by
  induction hcs with
  | root => exact ⟨by simp, List.pairwise_singleton _ _⟩
  | @above c s k cs hk hs _ ih =>
    obtain ⟨hle, hpairwise⟩ := ih
    have hlt := hf c k s hk hs
    have hbelow : ∀ d ∈ cs, d.index < c.index := fun d hd => Nat.lt_of_le_of_lt (hle d hd) hlt
    refine ⟨fun d hd => ?_, List.pairwise_cons.2 ⟨hbelow, hpairwise⟩⟩
    rcases List.mem_cons.1 hd with rfl | hd
    · exact Nat.le_refl _
    · exact Nat.le_of_lt (hbelow d hd)

theorem Chain.length_le {c : ClassId} {cs : List ClassId} (hcs : h.Chain c cs) (hf : h.Forest) :
    cs.length ≤ c.index + 1 := by
  induction hcs with
  | root => exact Nat.le_add_left 1 _
  | @above c s k cs hk hs _ ih =>
    have hlt := hf c k s hk hs
    rw [List.length_cons]
    omega

theorem Chain.method?_eq {c : ClassId} {cs : List ClassId} (hcs : h.Chain c cs) (hf : h.Forest)
    (name : String) : h.method? c name = cs.findSome? (h.ownMethod? · name) := by
  induction hcs with
  | root hk hs =>
    rw [Heap.method?, hk, List.findSome?_cons, List.findSome?_nil]
    simp only [ownMethod?, hk, hs]
    cases Table.find? _ name <;> rfl
  | @above c s k cs hk hs _ ih =>
    rw [Heap.method?, hk, List.findSome?_cons, ← ih]
    simp only [ownMethod?, hk, hs, if_pos (hf c k s hk hs)]
    cases k.methods.find? name <;> rfl

theorem Forest.exists_ancestry (hf : h.Forest) {c : ClassId} (hlt : c.index < h.classes.size) :
    ∃ cs, h.Ancestry c cs := by
  obtain ⟨cs, hcs⟩ := hf.exists_chain hlt
  have hnodup : cs.Nodup := (hcs.pairwise hf).2.imp fun hgt heq =>
    absurd (congrArg ClassId.index heq) (Nat.ne_of_gt hgt)
  refine ⟨cs, hcs, hnodup, Nat.le_trans (hcs.length_le hf) hlt, hcs.method?_eq hf,
    hcs.static?_eq fun d _ => hf d, ?_⟩
  rw [Heap.arity?, ← hcs.method?_eq hf]
  cases h.method? c Name.init <;> rfl

theorem Grounded.founded (hh : h.Grounded) : h.Founded :=
  ⟨fun _ => hh.rooted.exists_environment, fun _ => hh.forest.exists_ancestry⟩

end Heap

end Lox

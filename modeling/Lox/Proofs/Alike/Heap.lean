import Lox.Proofs.Alike.Related
import Lox.Proofs.Alike.Tree

/-!
# Heaps that are alike

Two heaps are alike if they have the same things in the same places, and functions alone differ:
those in the same place are alike as they were written.  What is read from alike heaps is alike, and
writing what is alike leaves them alike; the text of a value is the same in both.

    h.Alike L h' → v.Alike L v' → h.text v = h'.text v'                       (Heap.Alike.text)
-/

namespace Lox

variable {L L' : Likeness}

/-! ## Values -/

structure Closure.Alike (L : Likeness) (f f' : Closure) : Prop where
  identity : f.identity = f'.identity
  function : f.function.Alike L f'.function
  frame : f.frame = f'.frame
  kind : f.kind = f'.kind

/-- Functions that are alike, or one value that is no function. -/
inductive Value.Alike (L : Likeness) : Value → Value → Prop
  | function {f f' : Closure} : f.Alike L f' → Value.Alike L (.function f) (.function f')
  | same {v : Value} : v.isFunction = false → Value.Alike L v v

namespace Closure.Alike

variable {f f' : Closure}

theorem name (h : f.Alike L f') : f.name = f'.name := h.function.name.name

theorem arity (h : f.Alike L f') : f.arity = f'.arity := h.function.arity

theorem isGetter (h : f.Alike L f') : f.isGetter = f'.isGetter := by
  rw [Closure.isGetter, Closure.isGetter, h.kind, h.function.isGetter]

theorem like (h : f.Alike L f') : f.Like f' := ⟨h.identity, h.name, h.arity⟩

end Closure.Alike

namespace Value.Alike

variable {v v' : Value}

theorem ofLiteral (value : Literal) : Value.Alike L (.ofLiteral value) (.ofLiteral value) := by
  cases value <;> exact .same rfl

theorem like (h : v.Alike L v') : v.Like v' := by
  cases h with
  | function hf => exact .function hf.like
  | same hv => exact .same hv

end Value.Alike

/-! ## Heaps -/

structure Frame.Alike (L : Likeness) (f f' : Frame) : Prop where
  enclosing : f.enclosing = f'.enclosing
  bindings : f.bindings.Alike (Value.Alike L) f'.bindings

structure Class.Alike (L : Likeness) (c c' : Class) : Prop where
  name : c.name = c'.name
  superclass : c.superclass = c'.superclass
  methods : c.methods.Alike (Closure.Alike L) c'.methods
  statics : c.statics.Alike (Closure.Alike L) c'.statics
  fields : c.fields.Alike (Value.Alike L) c'.fields

structure Instance.Alike (L : Likeness) (o o' : Instance) : Prop where
  klass : o.klass = o'.klass
  fields : o.fields.Alike (Value.Alike L) o'.fields

structure Trait.Alike (L : Likeness) (t t' : Trait) : Prop where
  name : t.name = t'.name
  methods : t.methods.Alike (Closure.Alike L) t'.methods
  statics : t.statics.Alike (Closure.Alike L) t'.statics

structure Heap.Alike (L : Likeness) (h h' : Heap) : Prop where
  frames : Elementwise (Frame.Alike L) h.frames h'.frames
  arrays : Elementwise (Elementwise (Value.Alike L)) h.arrays h'.arrays
  classes : Elementwise (Class.Alike L) h.classes h'.classes
  instances : Elementwise (Instance.Alike L) h.instances h'.instances
  traits : Elementwise (Trait.Alike L) h.traits h'.traits
  closures : h.closures = h'.closures

/-- What has been made in heaps that were alike is alike, and the heaps still are. -/
def Heap.Made {α : Type} (L : Likeness) (R : α → α → Prop) (made made' : α × Heap) : Prop :=
  R made.1 made'.1 ∧ made.2.Alike L made'.2

inductive Heap.Member.Alike (L : Likeness) : Member → Member → Prop
  | field {v v' : Value} : v.Alike L v' → Member.Alike L (.field v) (.field v')
  | method {f f' : Closure} : f.Alike L f' → Member.Alike L (.method f) (.method f')

namespace Heap.Alike

variable {h h' : Heap}

theorem related (hh : h.Alike L h') : h.Related (Value.Alike L) (Closure.Alike L) h' where
  arrays := hh.arrays
  classes := hh.classes.imp fun _ _ hk =>
    ⟨hk.name, hk.superclass, hk.methods, hk.statics.imp fun _ _ => .function, hk.fields⟩
  instances := hh.instances.imp fun _ _ ho => ⟨ho.klass, ho.fields⟩
  traits := hh.traits.imp fun _ _ ht =>
    ⟨ht.name, ht.methods, ht.statics.imp fun _ _ => .function⟩
  closures := hh.closures

/-! ## Making things -/

theorem newFrame (hh : h.Alike L h') (enclosing : FrameId) {bindings bindings' : Table Value}
    (hb : bindings.Alike (Value.Alike L) bindings') :
    Made L Eq (h.newFrame enclosing bindings) (h'.newFrame enclosing bindings') :=
  ⟨congrArg FrameId.mk hh.frames.size_eq, { hh with frames := hh.frames.push ⟨rfl, hb⟩ }⟩

theorem newArray (hh : h.Alike L h') {vs vs' : List Value}
    (hvs : List.Forall₂ (Value.Alike L) vs vs') : Made L Eq (h.newArray vs) (h'.newArray vs') :=
  ⟨congrArg ArrayId.mk hh.arrays.size_eq,
    { hh with arrays := hh.arrays.push (.of_forall₂ hvs) }⟩

theorem newClass (hh : h.Alike L h') {c c' : Class} (hc : c.Alike L c') :
    Made L Eq (h.newClass c) (h'.newClass c') :=
  ⟨congrArg ClassId.mk hh.classes.size_eq, { hh with classes := hh.classes.push hc }⟩

theorem newInstance (hh : h.Alike L h') (c : ClassId) :
    Made L Eq (h.newInstance c) (h'.newInstance c) :=
  ⟨congrArg InstanceId.mk hh.instances.size_eq,
    { hh with instances := hh.instances.push ⟨rfl, .empty⟩ }⟩

theorem newTrait (hh : h.Alike L h') {t t' : Trait} (ht : t.Alike L t') :
    Made L Eq (h.newTrait t) (h'.newTrait t') :=
  ⟨congrArg TraitId.mk hh.traits.size_eq, { hh with traits := hh.traits.push ht }⟩

theorem newClosure (hh : h.Alike L h') {f f' : Function} (hf : f.Alike L f') (frame : FrameId)
    (kind : FunctionKind) :
    Made L (Closure.Alike L) (h.newClosure f frame kind) (h'.newClosure f' frame kind) :=
  ⟨⟨hh.closures, hf, rfl, rfl⟩, { hh with closures := congrArg (· + 1) hh.closures }⟩

theorem newClosures (hh : h.Alike L h') (frame : FrameId) {kind kind' : Function → FunctionKind}
    (hkind : ∀ f f', Function.Alike L f f' → kind f = kind' f') {fs fs' : List Function}
    (hfs : List.Forall₂ (Function.Alike L) fs fs') :
    Made L (Table.Alike (Closure.Alike L)) (h.newClosures frame kind fs)
      (h'.newClosures frame kind' fs') := by
  have hstart : Made L (Table.Alike (Closure.Alike L)) (∅, h) (∅, h') := ⟨.empty, hh⟩
  refine List.rel_foldl ?_ hstart hfs
  rintro ⟨t, h⟩ ⟨t', h'⟩ ⟨ht, hh⟩ f f' hf
  obtain ⟨hc, hh⟩ := hh.newClosure hf frame (kind f)
  dsimp only
  rw [← hkind f f' hf, ← hf.name.name]
  exact ⟨ht.insert _ hc, hh⟩

theorem bind (hh : h.Alike L h') {f f' : Closure} (hf : f.Alike L f') {v v' : Value}
    (hv : v.Alike L v') : Made L (Closure.Alike L) (h.bind f v) (h'.bind f' v') := by
  have hbindings : (Table.ofPairs [(Name.this, v)]).Alike (Value.Alike L)
      (.ofPairs [(Name.this, v')]) := .ofPairs (.cons ⟨rfl, hv⟩ .nil)
  obtain ⟨-, hh'⟩ := hh.newFrame f.frame hbindings
  have := hh'.newClosure hf.function ⟨h.frames.size⟩ f.kind
  rw [Heap.bind, Heap.bind, ← hf.frame, ← hf.kind]
  show Made L _ _ (Heap.newClosure _ f'.function ⟨h'.frames.size⟩ f.kind)
  rw [← hh.frames.size_eq]
  exact this

/-! ## Variables -/

theorem enclosing?_eq (hh : h.Alike L h') (f : FrameId) : h.enclosing? f = h'.enclosing? f := by
  unfold Heap.enclosing?
  have hf := hh.frames f.index
  generalize h.frames[f.index]? = o at hf
  generalize h'.frames[f.index]? = o' at hf
  cases hf with
  | none => rfl
  | some hf => exact hf.enclosing

theorem ancestor?_eq (hh : h.Alike L h') (hops : Nat) (f : FrameId) :
    h.ancestor? hops f = h'.ancestor? hops f := by
  induction hops generalizing f with
  | zero => rfl
  | succ hops ih => simp only [Heap.ancestor?, hh.enclosing?_eq, ih]

theorem getIn? (hh : h.Alike L h') (f : FrameId) (name : String) :
    Option.Rel (Value.Alike L) (h.getIn? f name) (h'.getIn? f name) := by
  unfold Heap.getIn?
  have hf := hh.frames f.index
  generalize h.frames[f.index]? = o at hf
  generalize h'.frames[f.index]? = o' at hf
  cases hf with
  | none => exact .none
  | some hf => exact hf.bindings.find? name

theorem ownerAt?_eq (hh : h.Alike L h') (hops : Nat) (f : FrameId) (name : String) :
    h.ownerAt? hops f name = h'.ownerAt? hops f name := by
  simp only [Heap.ownerAt?, hh.ancestor?_eq, rel_isSome (hh.getIn? _ name)]

theorem owner?_eq (hh : h.Alike L h') (f : FrameId) (name : String) :
    h.owner? f name = h'.owner? f name := by
  induction hf : f.index using Nat.strongRecOn generalizing f with
  | ind n ih =>
    subst hf
    rw [Heap.owner?, Heap.owner?, ← rel_isSome (hh.getIn? f name), ← hh.enclosing?_eq]
    cases h.enclosing? f with
    | none => rfl
    | some outer =>
      by_cases hlt : outer.index < f.index
      · simp only [if_pos hlt, ih _ hlt outer rfl]
      · simp only [if_neg hlt]

theorem getAt? (hh : h.Alike L h') (hops : Nat) (f : FrameId) (name : String) :
    Option.Rel (Value.Alike L) (h.getAt? hops f name) (h'.getAt? hops f name) := by
  unfold Heap.getAt?
  rw [← hh.ancestor?_eq]
  cases h.ancestor? hops f with
  | none => exact .none
  | some g => exact hh.getIn? g name

theorem get? (hh : h.Alike L h') (f : FrameId) (name : String) :
    Option.Rel (Value.Alike L) (h.get? f name) (h'.get? f name) := by
  unfold Heap.get?
  rw [← hh.owner?_eq]
  cases h.owner? f name with
  | none => exact .none
  | some g => exact hh.getIn? g name

theorem define (hh : h.Alike L h') (f : FrameId) (name : String) {v v' : Value}
    (hv : v.Alike L v') : (h.define f name v).Alike L (h'.define f name v') :=
  { hh with
    frames := hh.frames.modify f.index fun _ _ hf => ⟨hf.enclosing, hf.bindings.insert name hv⟩ }

theorem assignAt (hh : h.Alike L h') (hops : Nat) (f : FrameId) (name : String) {v v' : Value}
    (hv : v.Alike L v') : Made L Eq (h.assignAt hops f name v) (h'.assignAt hops f name v') := by
  unfold Heap.assignAt
  rw [← hh.ownerAt?_eq]
  cases h.ownerAt? hops f name with
  | none => exact ⟨rfl, hh⟩
  | some g => exact ⟨rfl, hh.define g name hv⟩

theorem assign (hh : h.Alike L h') (f : FrameId) (name : String) {v v' : Value}
    (hv : v.Alike L v') : Made L Eq (h.assign f name v) (h'.assign f name v') := by
  unfold Heap.assign
  rw [← hh.owner?_eq]
  cases h.owner? f name with
  | none => exact ⟨rfl, hh⟩
  | some g => exact ⟨rfl, hh.define g name hv⟩

/-! ## Arrays -/

theorem elements (hh : h.Alike L h') (a : ArrayId) :
    Elementwise (Value.Alike L) (h.elements a) (h'.elements a) := hh.related.elements a

theorem setElement (hh : h.Alike L h') (a : ArrayId) (i : Nat) {v v' : Value}
    (hv : v.Alike L v') : (h.setElement a i v).Alike L (h'.setElement a i v') :=
  { hh with arrays := hh.arrays.modify a.index fun _ _ ha => ha.setIfInBounds i hv }

theorem pushElement (hh : h.Alike L h') (a : ArrayId) {v v' : Value} (hv : v.Alike L v') :
    (h.pushElement a v).Alike L (h'.pushElement a v') :=
  { hh with arrays := hh.arrays.modify a.index fun _ _ ha => ha.push hv }

/-! ## Classes and instances -/

theorem method? (hh : h.Alike L h') (c : ClassId) (name : String) :
    Option.Rel (Closure.Alike L) (h.method? c name) (h'.method? c name) := hh.related.method? c name

theorem static? (hh : h.Alike L h') (c : ClassId) (name : String) :
    Option.Rel (Value.Alike L) (h.static? c name) (h'.static? c name) := hh.related.static? c name

theorem setStatic (hh : h.Alike L h') (c : ClassId) (name : String) {v v' : Value}
    (hv : v.Alike L v') : (h.setStatic c name v).Alike L (h'.setStatic c name v') :=
  { hh with
    classes := hh.classes.modify c.index fun _ _ hk =>
      { hk with fields := hk.fields.insert name hv } }

theorem setField (hh : h.Alike L h') (i : InstanceId) (name : String) {v v' : Value}
    (hv : v.Alike L v') : (h.setField i name v).Alike L (h'.setField i name v') :=
  { hh with
    instances := hh.instances.modify i.index fun _ _ ho => ⟨ho.klass, ho.fields.insert name hv⟩ }

theorem member? (hh : h.Alike L h') (i : InstanceId) (name : String) :
    Option.Rel (Member.Alike L) (h.member? i name) (h'.member? i name) := by
  refine rel_imp (hh.related.member? i name) fun _ _ hmember => ?_
  cases hmember with
  | field hv => exact .field hv
  | method hf => exact .method hf

theorem compose (hh : h.Alike L h') (traits : List TraitId) {members : Trait → Table Closure}
    (hmembers : ∀ t t', t.Alike L t' → (members t).Alike (Closure.Alike L) (members t'))
    {own own' : Table Closure} (hown : own.Alike (Closure.Alike L) own') :
    (h.compose traits members own).Alike (Closure.Alike L) (h'.compose traits members own') := by
  refine hh.related.compose traits (fun t t' ht => hmembers t t' ⟨ht.name, ht.methods, ?_⟩) hown
  refine ht.statics.imp fun _ _ hf => ?_
  cases hf with
  | function hf => exact hf
  | same hv => cases hv

theorem arity?_eq (hh : h.Alike L h') {v v' : Value} (hv : v.Alike L v') :
    h.arity? v = h'.arity? v' :=
  hh.related.arity?_eq (fun _ _ => Value.Alike.like) (fun _ _ => Closure.Alike.like) hv

theorem text (hh : h.Alike L h') {v v' : Value} (hv : v.Alike L v') : h.text v = h'.text v' :=
  hh.related.text (fun _ _ => Value.Alike.like) hv

end Heap.Alike

/-! ## Coarser likenesses -/

theorem Closure.Alike.mono {f f' : Closure} (h : f.Alike L f') (hle : L ≤ L') : f.Alike L' f' :=
  { h with function := h.function.imp (Likeness.covers_of_le hle _) }

theorem Value.Alike.mono {v v' : Value} (h : v.Alike L v') (hle : L ≤ L') : v.Alike L' v' := by
  cases h with
  | function hf => exact .function (hf.mono hle)
  | same hv => exact .same hv

theorem Heap.Alike.mono {h h' : Heap} (hh : h.Alike L h') (hle : L ≤ L') : h.Alike L' h' where
  frames := hh.frames.imp fun _ _ hf =>
    ⟨hf.enclosing, hf.bindings.imp fun _ _ hv => hv.mono hle⟩
  arrays := hh.arrays.imp fun _ _ ha => ha.imp fun _ _ hv => hv.mono hle
  classes := hh.classes.imp fun _ _ hk =>
    ⟨hk.name, hk.superclass, hk.methods.imp fun _ _ hf => hf.mono hle,
      hk.statics.imp fun _ _ hf => hf.mono hle, hk.fields.imp fun _ _ hv => hv.mono hle⟩
  instances := hh.instances.imp fun _ _ ho => ⟨ho.klass, ho.fields.imp fun _ _ hv => hv.mono hle⟩
  traits := hh.traits.imp fun _ _ ht =>
    ⟨ht.name, ht.methods.imp fun _ _ hf => hf.mono hle,
      ht.statics.imp fun _ _ hf => hf.mono hle⟩
  closures := hh.closures

end Lox

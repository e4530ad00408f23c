import Lox.Machine.Eval
import Lox.Proofs.Alike.Content
import Lox.Proofs.Run.Heap

/-!
# What heaps hold, side by side

Programs are compared by running them side by side, on heaps that hold the same but for functions.
`V` relates the values that one heap has and those that the other has in their places, and `M` the
methods of classes.  Whatever the functions are, what is looked up is related again, and all that a
program can tell of a value but by calling it is the same:

    h.Related V M h' → Option.Rel V (h.static? c name) (h'.static? c name)              (static?)
    h.Related V M h' → V v v' → h.text v = h'.text v'                                      (text)
-/

namespace Lox

/-! ## Values -/

def Value.isFunction : Value → Bool
  | .function _ => true
  | _ => false

/-- Functions that look the same from outside. -/
structure Closure.Like (f f' : Closure) : Prop where
  identity : f.identity = f'.identity
  name : f.name = f'.name
  arity : f.arity = f'.arity

/-- Values that look the same from outside. -/
inductive Value.Like : Value → Value → Prop
  | function {f f' : Closure} : f.Like f' → Value.Like (.function f) (.function f')
  | same {v : Value} : v.isFunction = false → Value.Like v v

namespace Value.Like

variable {v v' w w' : Value}

theorem isTruthy (h : v.Like v') : v.isTruthy = v'.isTruthy := by
  cases h <;> rfl

theorem same_eq (hv : v.Like v') (hw : w.Like w') : v.same w = v'.same w' := by
  cases hv with
  | function hf =>
    cases hw with
    | function hg => rw [Value.same, Value.same, hf.identity, hg.identity]
    | same hw => cases w <;> first | rfl | cases hw
  | same hv =>
    cases hw with
    | function hg => cases v <;> first | rfl | cases hv
    | same hw => rfl

theorem position?_eq (hv : v.Like v') (size : Nat) : v.position? size = v'.position? size := by
  cases hv <;> rfl

end Value.Like

namespace BinaryOp

/-- Functions cannot be calculated with. -/
theorem apply_eq (op : BinaryOp) {v v' w w' : Value} (hv : v.Like v') (hw : w.Like w') :
    op.apply v w = op.apply v' w' := by
  have hsame := hv.same_eq hw
  cases op with
  | equal => simp only [apply, hsame]
  | notEqual => simp only [apply, hsame]
  | _ =>
    cases hv with
    | function hf => cases hw <;> rfl
    | same hv =>
      cases hw with
      | function hg => cases v <;> rfl
      | same hw => rfl

theorem isFunction_apply (op : BinaryOp) {v w r : Value} (h : op.apply v w = .ok r) :
    r.isFunction = false := by
  unfold apply onNumbers at h
  split at h
  all_goals first | cases h; rfl | (split at h <;> first | cases h; rfl | cases h) | cases h

end BinaryOp

namespace UnaryOp

theorem apply_eq (op : UnaryOp) {v v' : Value} (hv : v.Like v') : op.apply v = op.apply v' := by
  cases op with
  | negate => cases hv <;> rfl
  | not => simp only [apply, hv.isTruthy]

theorem isFunction_apply (op : UnaryOp) {v r : Value} (h : op.apply v = .ok r) :
    r.isFunction = false := by
  unfold apply at h
  split at h <;> cases h <;> rfl

end UnaryOp

theorem LogicalOp.isDecidedBy_eq (op : LogicalOp) {v v' : Value} (hv : v.Like v') :
    op.isDecidedBy v = op.isDecidedBy v' := by
  cases op <;> simp only [isDecidedBy, hv.isTruthy]

/-! ## Heaps -/

section Structures

variable (V : Value → Value → Prop) (M : Closure → Closure → Prop)

structure Class.Related (c c' : Class) : Prop where
  name : c.name = c'.name
  superclass : c.superclass = c'.superclass
  methods : c.methods.Alike M c'.methods
  statics : c.statics.Alike (fun f f' => V (.function f) (.function f')) c'.statics
  fields : c.fields.Alike V c'.fields

structure Instance.Related (o o' : Instance) : Prop where
  klass : o.klass = o'.klass
  fields : o.fields.Alike V o'.fields

structure Trait.Related (t t' : Trait) : Prop where
  name : t.name = t'.name
  methods : t.methods.Alike M t'.methods
  statics : t.statics.Alike (fun f f' => V (.function f) (.function f')) t'.statics

/-- All but the variables of two heaps. -/
structure Heap.Related (h h' : Heap) : Prop where
  arrays : Elementwise (Elementwise V) h.arrays h'.arrays
  classes : Elementwise (Class.Related V M) h.classes h'.classes
  instances : Elementwise (Instance.Related V) h.instances h'.instances
  traits : Elementwise (Trait.Related V M) h.traits h'.traits
  closures : h.closures = h'.closures

inductive Heap.Member.Related : Member → Member → Prop
  | field {v v' : Value} : V v v' → Member.Related (.field v) (.field v')
  | method {f f' : Closure} : M f f' → Member.Related (.method f) (.method f')

end Structures

namespace Heap.Related

variable {V V' : Value → Value → Prop} {M M' : Closure → Closure → Prop} {h h' : Heap}

theorem imp (hh : h.Related V M h') (hV : ∀ v v', V v v' → V' v v')
    (hM : ∀ f f', M f f' → M' f f') : h.Related V' M' h' where
  arrays := hh.arrays.imp fun _ _ ha => ha.imp hV
  classes := hh.classes.imp fun _ _ hk =>
    ⟨hk.name, hk.superclass, hk.methods.imp hM, hk.statics.imp fun _ _ => hV _ _,
      hk.fields.imp hV⟩
  instances := hh.instances.imp fun _ _ ho => ⟨ho.klass, ho.fields.imp hV⟩
  traits := hh.traits.imp fun _ _ ht =>
    ⟨ht.name, ht.methods.imp hM, ht.statics.imp fun _ _ => hV _ _⟩
  closures := hh.closures

/-! ## Arrays -/

theorem elements (hh : h.Related V M h') (a : ArrayId) :
    Elementwise V (h.elements a) (h'.elements a) := by
  unfold Heap.elements
  have ha := hh.arrays a.index
  generalize h.arrays[a.index]? = o at ha
  generalize h'.arrays[a.index]? = o' at ha
  cases ha with
  | none => exact .of_forall₂ .nil
  | some ha => exact ha

theorem newArray (hh : h.Related V M h') {vs vs' : List Value} (hvs : List.Forall₂ V vs vs') :
    (h.newArray vs).1 = (h'.newArray vs').1 ∧ (h.newArray vs).2.Related V M (h'.newArray vs').2 :=
  ⟨congrArg ArrayId.mk hh.arrays.size_eq,
    { hh with arrays := hh.arrays.push (.of_forall₂ hvs) }⟩

theorem setElement (hh : h.Related V M h') (a : ArrayId) (i : Nat) {v v' : Value} (hv : V v v') :
    (h.setElement a i v).Related V M (h'.setElement a i v') :=
  { hh with arrays := hh.arrays.modify a.index fun _ _ ha => ha.setIfInBounds i hv }

theorem pushElement (hh : h.Related V M h') (a : ArrayId) {v v' : Value} (hv : V v v') :
    (h.pushElement a v).Related V M (h'.pushElement a v') :=
  { hh with arrays := hh.arrays.modify a.index fun _ _ ha => ha.push hv }

/-! ## Classes, instances and traits -/

theorem newClass (hh : h.Related V M h') {c c' : Class} (hc : c.Related V M c') :
    (h.newClass c).1 = (h'.newClass c').1 ∧ (h.newClass c).2.Related V M (h'.newClass c').2 :=
  ⟨congrArg ClassId.mk hh.classes.size_eq, { hh with classes := hh.classes.push hc }⟩

theorem newInstance (hh : h.Related V M h') (c : ClassId) :
    (h.newInstance c).1 = (h'.newInstance c).1 ∧
      (h.newInstance c).2.Related V M (h'.newInstance c).2 :=
  ⟨congrArg InstanceId.mk hh.instances.size_eq,
    { hh with instances := hh.instances.push ⟨rfl, .empty⟩ }⟩

theorem newTrait (hh : h.Related V M h') {t t' : Trait} (ht : t.Related V M t') :
    (h.newTrait t).1 = (h'.newTrait t').1 ∧ (h.newTrait t).2.Related V M (h'.newTrait t').2 :=
  ⟨congrArg TraitId.mk hh.traits.size_eq, { hh with traits := hh.traits.push ht }⟩

theorem setStatic (hh : h.Related V M h') (c : ClassId) (name : String) {v v' : Value}
    (hv : V v v') : (h.setStatic c name v).Related V M (h'.setStatic c name v') :=
  { hh with
    classes := hh.classes.modify c.index fun _ _ hk =>
      { hk with fields := hk.fields.insert name hv } }

theorem setField (hh : h.Related V M h') (i : InstanceId) (name : String) {v v' : Value}
    (hv : V v v') : (h.setField i name v).Related V M (h'.setField i name v') :=
  { hh with
    instances := hh.instances.modify i.index fun _ _ ho => ⟨ho.klass, ho.fields.insert name hv⟩ }

theorem method? (hh : h.Related V M h') (c : ClassId) (name : String) :
    Option.Rel M (h.method? c name) (h'.method? c name) := by
  induction hc : c.index using Nat.strongRecOn generalizing c with
  | ind n ih =>
    subst hc
    rw [Heap.method?, Heap.method?]
    have hk := hh.classes c.index
    generalize h.classes[c.index]? = o at hk
    generalize h'.classes[c.index]? = o' at hk
    cases hk with
    | none => exact .none
    | @some k k' hk =>
      have hm := hk.methods.find? name
      dsimp only
      rw [← hk.superclass]
      generalize k.methods.find? name = m at hm
      generalize k'.methods.find? name = m' at hm
      cases hm with
      | some hf => exact .some hf
      | none =>
        cases k.superclass with
        | none => exact .none
        | some s =>
          dsimp only
          split
          · next hlt => exact ih _ hlt s rfl
          · exact .none

/-- Static members are found alike, upward from class to class. -/
theorem static? (hh : h.Related V M h') (c : ClassId) (name : String) :
    Option.Rel V (h.static? c name) (h'.static? c name) := by
  induction hc : c.index using Nat.strongRecOn generalizing c with
  | ind n ih =>
    subst hc
    rw [Heap.static?, Heap.static?]
    have hk := hh.classes c.index
    generalize h.classes[c.index]? = o at hk
    generalize h'.classes[c.index]? = o' at hk
    cases hk with
    | none => exact .none
    | @some k k' hk =>
      have hv := hk.fields.find? name
      have hf := hk.statics.find? name
      dsimp only
      rw [← hk.superclass]
      generalize k.fields.find? name = v at hv
      generalize k'.fields.find? name = v' at hv
      generalize k.statics.find? name = f at hf
      generalize k'.statics.find? name = f' at hf
      cases hv with
      | some hv => exact .some hv
      | none =>
        cases hf with
        | some hf => exact .some hf
        | none =>
          cases k.superclass with
          | none => exact .none
          | some s =>
            dsimp only
            split
            · next hlt => exact ih _ hlt s rfl
            · exact .none

theorem className_eq (hh : h.Related V M h') (c : ClassId) : h.className c = h'.className c := by
  unfold Heap.className
  have hk := hh.classes c.index
  generalize h.classes[c.index]? = o at hk
  generalize h'.classes[c.index]? = o' at hk
  cases hk with
  | none => rfl
  | some hk => exact hk.name

theorem member? (hh : h.Related V M h') (i : InstanceId) (name : String) :
    Option.Rel (Member.Related V M) (h.member? i name) (h'.member? i name) := by
  unfold Heap.member?
  have ho := hh.instances i.index
  generalize h.instances[i.index]? = o at ho
  generalize h'.instances[i.index]? = o' at ho
  cases ho with
  | none => exact .none
  | @some o o' ho =>
    have hv := ho.fields.find? name
    have hf := hh.method? o.klass name
    dsimp only
    rw [← ho.klass]
    generalize o.fields.find? name = v at hv
    generalize o'.fields.find? name = v' at hv
    generalize h.method? o.klass name = f at hf
    generalize h'.method? o.klass name = f' at hf
    cases hv with
    | some hv => exact .some (.field hv)
    | none =>
      cases hf with
      | none => exact .none
      | some hf => exact .some (.method hf)

theorem compose {R : Closure → Closure → Prop} (hh : h.Related V M h') (traits : List TraitId)
    {members : Trait → Table Closure}
    (hmembers : ∀ t t', t.Related V M t' → (members t).Alike R (members t'))
    {own own' : Table Closure} (hown : own.Alike R own') :
    (h.compose traits members own).Alike R (h'.compose traits members own') := by
  refine Table.Alike.insertAll (List.foldl_rel .empty fun t _ table table' htable => ?_) hown
  have ht := hh.traits t.index
  generalize h.traits[t.index]? = o at ht
  generalize h'.traits[t.index]? = o' at ht
  cases ht with
  | none => exact htable
  | some ht => exact htable.insertAll (hmembers _ _ ht)

/-! ## What values look like -/

section Like

variable (hV : ∀ v v', V v v' → v.Like v') (hM : ∀ f f', M f f' → f.Like f')
include hV

include hM in
theorem arity?_eq (hh : h.Related V M h') {v v' : Value} (hv : V v v') :
    h.arity? v = h'.arity? v' := by
  cases hV _ _ hv with
  | function hf => exact congrArg some hf.arity
  | same hs =>
    cases v with
    | klass c =>
      have hf := hh.method? c Name.init
      unfold Heap.arity?
      dsimp only
      generalize h.method? c Name.init = o at hf
      generalize h'.method? c Name.init = o' at hf
      cases hf with
      | none => rfl
      | some hf => exact congrArg some (hM _ _ hf).arity
    | function f => cases hs
    | _ => rfl

theorem textOfAtom_eq (hh : h.Related V M h') {v v' : Value} (hv : V v v') :
    h.textOfAtom v = h'.textOfAtom v' := by
  cases hV _ _ hv with
  | function hf => simp only [Heap.textOfAtom, hf.name]
  | same hs =>
    cases v with
    | klass c => simp only [Heap.textOfAtom, hh.className_eq]
    | object i =>
      have ho := hh.instances i.index
      simp only [Heap.textOfAtom]
      generalize h.instances[i.index]? = o at ho
      generalize h'.instances[i.index]? = o' at ho
      cases ho with
      | none => rfl
      | some ho => simp only [ho.klass, hh.className_eq]
    | trait t =>
      have ht := hh.traits t.index
      simp only [Heap.textOfAtom]
      generalize h.traits[t.index]? = o at ht
      generalize h'.traits[t.index]? = o' at ht
      cases ht with
      | none => rfl
      | some ht => simp only [ht.name]
    | function f => cases hs
    | _ => rfl

theorem write_eq (hh : h.Related V M h') (depth : Nat) {v v' : Value} (hv : V v v') :
    h.write depth v = h'.write depth v' := by
  induction depth generalizing v v' with
  | zero =>
    have hatom := hh.textOfAtom_eq hV hv
    cases hV _ _ hv with
    | function hf => simp only [Heap.write, hatom]
    | same hs => cases v <;> simp only [Heap.write, hatom]
  | succ depth ih =>
    have hatom := hh.textOfAtom_eq hV hv
    cases hV _ _ hv with
    | function hf => simp only [Heap.write, hatom]
    | same hs =>
      cases v with
      | array a =>
        have hes : List.mapM (h.write depth) (h.elements a).toList =
            List.mapM (h'.write depth) (h'.elements a).toList := by
          have hes := (hh.elements a).toList
          generalize (h.elements a).toList = vs at hes
          generalize (h'.elements a).toList = vs' at hes
          induction hes with
          | nil => rfl
          | cons hv _ ihs => rw [List.mapM_cons, List.mapM_cons, ih hv, ihs]
        simp only [Heap.write, hatom, hes]
      | _ => simp only [Heap.write, hatom]

theorem text (hh : h.Related V M h') {v v' : Value} (hv : V v v') : h.text v = h'.text v' := by
  rw [Heap.text, Heap.text, hh.arrays.size_eq, hh.write_eq hV _ hv]

end Like

end Heap.Related

/-! ## A heap beside itself -/

theorem Table.All.alike {α : Type} {Q : α → Prop} {R : α → α → Prop} {t : Table α} (h : t.All Q)
    (hqr : ∀ a, Q a → R a a) : t.Alike R t :=
  List.forall₂_same.2 fun p hp => ⟨rfl, hqr p.2 (h p hp)⟩

theorem Elementwise.of_mem {α : Type} {R : α → α → Prop} {xs : Array α} (h : ∀ a ∈ xs, R a a) :
    Elementwise R xs xs := by
  intro i
  cases hi : xs[i]? with
  | none => exact .none
  | some a => exact .some (h a (Array.mem_of_getElem? hi))

theorem Heap.Holds.related {V : Value → Prop} {M : Closure → Prop} {R : Value → Value → Prop}
    {S : Closure → Closure → Prop} {h : Heap} (hh : h.Holds V M) (hR : ∀ v, V v → R v v)
    (hS : ∀ f, M f → S f f) : h.Related R S h where
  arrays := .of_mem fun a ha => .of_mem fun v hv => hR v (hh.arrays a ha v hv)
  classes := .of_mem fun k hk =>
    have hk := hh.classes k hk
    ⟨rfl, rfl, hk.methods.alike hS, hk.statics.alike fun _ => hR _, hk.fields.alike hR⟩
  instances := .of_mem fun o ho => ⟨rfl, (hh.instances o ho).alike hR⟩
  traits := .of_mem fun k hk =>
    have hk := hh.traits k hk
    ⟨rfl, hk.methods.alike hS, hk.statics.alike fun _ => hR _⟩
  closures := rfl

/-! ## Calls -/

namespace Eval

theorem callNative_of_length_ne {f : Native} {args : List Value} (h : args.length ≠ f.arity)
    (span : Span) : callNative f args span = fail span (.wrongArity f.arity args.length) := by
  unfold callNative
  split <;> simp_all [Native.arity]

theorem isFunction_receiver? {m : Machine} {hops : Nat} {v : Value}
    (h : receiver? m hops = some v) : v.isFunction = false := by
  unfold receiver? at h
  split at h
  · cases h
  · split at h <;> cases h
    rfl

end Eval

end Lox

import Lox.Proofs.Run.Heap

/-!
# What happens to a heap

Whatever a program does to its heap is a row of edits: something new is made, or one variable,
element or field is written.  Nothing is taken away, and only a write to it changes a field, so it
has what was stored there last:

    (h.edits es).field? i name = (last (Edit.inField i name) es).or (h.field? i name)
                                                                               (field?_edits)

All else that an instance, a class or a trait was made with it has for good.
-/

namespace Lox.Heap

/-! ## Edits -/

inductive Edit
  | frame (enclosing : FrameId) (bindings : Table Value)
  | variable (f : FrameId) (name : String) (v : Value)
  | array (elements : List Value)
  | element (a : ArrayId) (i : Nat) (v : Value)
  | push (a : ArrayId) (v : Value)
  | klass (k : Class)
  | static (c : ClassId) (name : String) (v : Value)
  | object (c : ClassId)
  | field (i : InstanceId) (name : String) (v : Value)
  | trait (k : Trait)
  /-- So many functions have been made in all. -/
  | functions (n : Nat)

def edit (h : Heap) : Edit → Heap
  | .frame enclosing bindings => (h.newFrame enclosing bindings).2
  | .variable f name v => h.define f name v
  | .array elements => (h.newArray elements).2
  | .element a i v => h.setElement a i v
  | .push a v => h.pushElement a v
  | .klass k => (h.newClass k).2
  | .static c name v => h.setStatic c name v
  | .object c => (h.newInstance c).2
  | .field i name v => h.setField i name v
  | .trait k => (h.newTrait k).2
  | .functions n => { h with closures := n }

/-- The heap after all the edits, the first of them first. -/
def edits (h : Heap) (es : List Edit) : Heap := es.foldl edit h

theorem edits_append (h : Heap) (es es' : List Edit) :
    h.edits (es ++ es') = (h.edits es).edits es' := List.foldl_append

/-! ## Fields -/

/-- The field that an instance has. -/
def field? (h : Heap) (i : InstanceId) (name : String) : Option Value :=
  match h.instances[i.index]? with
  | some o => o.fields.find? name
  | none => none

/-- The static field that a class itself has. -/
def staticField? (h : Heap) (c : ClassId) (name : String) : Option Value :=
  match h.classes[c.index]? with
  | some k => k.fields.find? name
  | none => none

/-- The static method that a class itself has. -/
def staticMethod? (h : Heap) (c : ClassId) (name : String) : Option Closure :=
  match h.classes[c.index]? with
  | some k => k.statics.find? name
  | none => none

namespace Edit

/-- What the edit stores in that field of the instance. -/
def inField (i : InstanceId) (name : String) : Edit → Option Value
  | field j other v => if j = i ∧ other = name then some v else none
  | _ => none

/-- What the edit stores in that static field of the class. -/
def inStatic (c : ClassId) (name : String) : Edit → Option Value
  | static d other v => if d = c ∧ other = name then some v else none
  | _ => none

end Edit

/-- What the edits store last, if they do. -/
def last (stored : Edit → Option Value) (es : List Edit) : Option Value :=
  es.reverse.findSome? stored

theorem last_cons (stored : Edit → Option Value) (e : Edit) (es : List Edit) :
    last stored (e :: es) = (last stored es).or (stored e) := by
  rw [last, List.reverse_cons, List.findSome?_append, last]
  simp

theorem last_append_singleton (stored : Edit → Option Value) (es : List Edit) (e : Edit) :
    last stored (es ++ [e]) = (stored e).or (last stored es) := by
  rw [last, List.reverse_append, List.findSome?_append, last]
  simp

/-! ## Instances -/

/-- An instance stays one of its class, and has in its fields what was stored there last. -/
theorem exists_instance_edit {h : Heap} {i : InstanceId} {o : Instance}
    (ho : h.instances[i.index]? = some o) (e : Edit) :
    ∃ fields, (h.edit e).instances[i.index]? = some { o with fields := fields } ∧
      ∀ name, fields.find? name = (e.inField i name).or (o.fields.find? name) := by
  cases e with
  | object c =>
    refine ⟨o.fields, ?_, fun _ => rfl⟩
    obtain ⟨hlt, rfl⟩ := Array.getElem?_eq_some_iff.1 ho
    exact Array.getElem?_eq_some_iff.2
      ⟨Nat.lt_of_lt_of_le hlt (by simp [edit, newInstance]), Array.getElem_push_lt hlt⟩
  | field j other v =>
    by_cases hj : j = i
    · subst hj
      refine ⟨o.fields.insert other v, ?_, fun name => ?_⟩
      · simp [edit, setField, Array.getElem?_modify, ho]
      · by_cases hn : other = name <;> simp [Edit.inField, hn]
    · refine ⟨o.fields, ?_, fun name => ?_⟩
      · have hindex : j.index ≠ i.index := fun heq => hj (by cases i; cases j; cases heq; rfl)
        simp [edit, setField, Array.getElem?_modify, ho, hindex]
      · simp [Edit.inField, hj]
  | _ => exact ⟨o.fields, ho, fun _ => rfl⟩

theorem exists_instance_edits {h : Heap} {i : InstanceId} {o : Instance}
    (ho : h.instances[i.index]? = some o) (es : List Edit) :
    ∃ fields, (h.edits es).instances[i.index]? = some { o with fields := fields } ∧
      ∀ name, fields.find? name = (last (Edit.inField i name) es).or (o.fields.find? name) := by
  induction es generalizing h o with
  | nil => exact ⟨o.fields, ho, fun _ => rfl⟩
  | cons e es ih =>
    obtain ⟨fields, hfields, hfind⟩ := exists_instance_edit ho e
    obtain ⟨fields', hfields', hfind'⟩ := ih hfields
    refine ⟨fields', hfields', fun name => ?_⟩
    rw [hfind' name, hfind name, last_cons, Option.or_assoc]

theorem field?_edits {h : Heap} {i : InstanceId} (hi : i.index < h.instances.size)
    (es : List Edit) (name : String) :
    (h.edits es).field? i name = (last (Edit.inField i name) es).or (h.field? i name) := by
  have ho : h.instances[i.index]? = some h.instances[i.index] := Array.getElem?_eq_getElem hi
  obtain ⟨fields, hfields, hfind⟩ := exists_instance_edits ho es
  simp only [field?, hfields, ho, hfind]

theorem field?_setField {h : Heap} {i : InstanceId} (hi : i.index < h.instances.size)
    (name : String) (v : Value) : (h.setField i name v).field? i name = some v := by
  simp [field?, setField, Array.getElem?_modify, Array.getElem?_eq_getElem hi]

/-! ## Classes and traits -/

/-- A class keeps its superclass and its methods, and has in its static fields what was stored
there last. -/
theorem exists_class_edit {h : Heap} {c : ClassId} {k : Class}
    (hk : h.classes[c.index]? = some k) (e : Edit) :
    ∃ fields, (h.edit e).classes[c.index]? = some { k with fields := fields } ∧
      ∀ name, fields.find? name = (e.inStatic c name).or (k.fields.find? name) := by
  cases e with
  | klass k' =>
    refine ⟨k.fields, ?_, fun _ => rfl⟩
    obtain ⟨hlt, rfl⟩ := Array.getElem?_eq_some_iff.1 hk
    exact Array.getElem?_eq_some_iff.2
      ⟨Nat.lt_of_lt_of_le hlt (by simp [edit, newClass]), Array.getElem_push_lt hlt⟩
  | static d other v =>
    by_cases hd : d = c
    · subst hd
      refine ⟨k.fields.insert other v, ?_, fun name => ?_⟩
      · simp [edit, setStatic, Array.getElem?_modify, hk]
      · by_cases hn : other = name <;> simp [Edit.inStatic, hn]
    · refine ⟨k.fields, ?_, fun name => ?_⟩
      · have hindex : d.index ≠ c.index := fun heq => hd (by cases c; cases d; cases heq; rfl)
        simp [edit, setStatic, Array.getElem?_modify, hk, hindex]
      · simp [Edit.inStatic, hd]
  | _ => exact ⟨k.fields, hk, fun _ => rfl⟩

theorem exists_class_edits {h : Heap} {c : ClassId} {k : Class}
    (hk : h.classes[c.index]? = some k) (es : List Edit) :
    ∃ fields, (h.edits es).classes[c.index]? = some { k with fields := fields } ∧
      ∀ name, fields.find? name = (last (Edit.inStatic c name) es).or (k.fields.find? name) := by
  induction es generalizing h k with
  | nil => exact ⟨k.fields, hk, fun _ => rfl⟩
  | cons e es ih =>
    obtain ⟨fields, hfields, hfind⟩ := exists_class_edit hk e
    obtain ⟨fields', hfields', hfind'⟩ := ih hfields
    refine ⟨fields', hfields', fun name => ?_⟩
    rw [hfind' name, hfind name, last_cons, Option.or_assoc]

theorem staticField?_edits {h : Heap} {c : ClassId} (hc : c.index < h.classes.size)
    (es : List Edit) (name : String) :
    (h.edits es).staticField? c name =
      (last (Edit.inStatic c name) es).or (h.staticField? c name) := by
  have hk : h.classes[c.index]? = some h.classes[c.index] := Array.getElem?_eq_getElem hc
  obtain ⟨fields, hfields, hfind⟩ := exists_class_edits hk es
  simp only [staticField?, hfields, hk, hfind]

theorem staticField?_setStatic {h : Heap} {c : ClassId} (hc : c.index < h.classes.size)
    (name : String) (v : Value) : (h.setStatic c name v).staticField? c name = some v := by
  simp [staticField?, setStatic, Array.getElem?_modify, Array.getElem?_eq_getElem hc]

theorem trait_edits {h : Heap} {t : TraitId} {k : Trait} (hk : h.traits[t.index]? = some k)
    (es : List Edit) : (h.edits es).traits[t.index]? = some k := by
  induction es generalizing h with
  | nil => exact hk
  | cons e es ih =>
    refine ih ?_
    cases e with
    | trait k' =>
      obtain ⟨hlt, rfl⟩ := Array.getElem?_eq_some_iff.1 hk
      exact Array.getElem?_eq_some_iff.2
        ⟨Nat.lt_of_lt_of_le hlt (by simp [edit, newTrait]), Array.getElem_push_lt hlt⟩
    | _ => exact hk

/-- The methods of a class never change, those of its superclasses with them. -/
theorem method?_edits {h : Heap} {c : ClassId} (hc : c.index < h.classes.size) (es : List Edit)
    (name : String) : (h.edits es).method? c name = h.method? c name := by
  induction hi : c.index using Nat.strongRecOn generalizing c with
  | ind i ih =>
    subst hi
    have hk : h.classes[c.index]? = some h.classes[c.index] := Array.getElem?_eq_getElem hc
    obtain ⟨fields, hfields, -⟩ := exists_class_edits hk es
    rw [method?, method?, hfields, hk]
    dsimp only
    cases h.classes[c.index].methods.find? name with
    | some f => rfl
    | none =>
      cases h.classes[c.index].superclass with
      | none => rfl
      | some s =>
        dsimp only
        split
        · next hlt => exact ih s.index hlt (Nat.lt_trans hlt hc) rfl
        · rfl

end Lox.Heap

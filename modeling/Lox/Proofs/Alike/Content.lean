import Mathlib.Data.List.Forall2
import Lox.Table

/-!
# Related contents

Options, tables and arrays that hold related things in the same places.  Looking something up and
storing related things keeps them so.
-/

namespace Lox

variable {α β : Type}

/-! ## Options, tables and arrays -/

theorem rel_isSome {R : α → β → Prop} {o : Option α} {o' : Option β} (h : Option.Rel R o o') :
    o.isSome = o'.isSome := by
  cases h <;> rfl

theorem rel_imp {R S : α → β → Prop} {o : Option α} {o' : Option β} (h : Option.Rel R o o')
    (hrs : ∀ a b, R a b → S a b) : Option.Rel S o o' := by
  cases h with
  | none => exact .none
  | some h => exact .some (hrs _ _ h)

namespace Table

/-- Tables of the same names, in one order, with related values. -/
def Alike (R : α → α → Prop) (t t' : Table α) : Prop :=
  List.Forall₂ (fun a a' => a.1 = a'.1 ∧ R a.2 a'.2) t.entries t'.entries

namespace Alike

variable {R S : α → α → Prop} {t t' : Table α}

theorem empty : Alike R ∅ ∅ := .nil

theorem imp (h : Alike R t t') (hrs : ∀ a b, R a b → S a b) : Alike S t t' :=
  List.Forall₂.imp (fun _ _ ⟨hn, hr⟩ => ⟨hn, hrs _ _ hr⟩) h

theorem find? (h : Alike R t t') (name : String) : Option.Rel R (t.find? name) (t'.find? name) := by
  obtain ⟨entries⟩ := t
  obtain ⟨entries'⟩ := t'
  change List.Forall₂ _ entries entries' at h
  show Option.Rel R (entries.lookup name) (entries'.lookup name)
  induction h with
  | nil => exact .none
  | @cons a a' _ _ ha _ ih =>
    obtain ⟨key, v⟩ := a
    obtain ⟨key', v'⟩ := a'
    obtain ⟨rfl, hv⟩ := ha
    by_cases hk : name = key
    · subst hk
      simpa using Option.Rel.some hv
    · simpa [List.lookup_cons, beq_false_of_ne hk] using ih

theorem contains_eq (h : Alike R t t') (name : String) : t.contains name = t'.contains name :=
  rel_isSome (h.find? name)

theorem insert (h : Alike R t t') (name : String) {v v' : α} (hv : R v v') :
    Alike R (t.insert name v) (t'.insert name v') := by
  obtain ⟨entries⟩ := t
  obtain ⟨entries'⟩ := t'
  change List.Forall₂ _ entries entries' at h
  show List.Forall₂ _ (insertEntry name v entries) (insertEntry name v' entries')
  induction h with
  | nil => exact .cons ⟨rfl, hv⟩ .nil
  | @cons a a' _ _ ha hrest ih =>
    obtain ⟨key, w⟩ := a
    obtain ⟨key', w'⟩ := a'
    obtain ⟨rfl, hw⟩ := ha
    by_cases hk : name = key
    · rw [insertEntry, insertEntry, if_pos hk, if_pos hk]
      exact .cons ⟨rfl, hv⟩ hrest
    · rw [insertEntry, insertEntry, if_neg hk, if_neg hk]
      exact .cons ⟨rfl, hw⟩ ih

theorem modify (h : Alike R t t') (name : String) {f f' : α → α}
    (hf : ∀ v v', R v v' → R (f v) (f' v')) : Alike R (t.modify name f) (t'.modify name f') := by
  have hv := h.find? name
  unfold Table.modify
  generalize t.find? name = o at hv
  generalize t'.find? name = o' at hv
  cases hv with
  | none => exact h
  | some hv => exact h.insert name (hf _ _ hv)

theorem insertAll (h : Alike R t t') {pairs pairs' : List (String × α)}
    (hp : List.Forall₂ (fun a a' => a.1 = a'.1 ∧ R a.2 a'.2) pairs pairs') :
    Alike R (t.insertAll pairs) (t'.insertAll pairs') := by
  induction hp generalizing t t' with
  | nil => exact h
  | @cons a a' _ _ ha _ ih =>
    obtain ⟨key, v⟩ := a
    obtain ⟨key', v'⟩ := a'
    obtain ⟨rfl, hv⟩ := ha
    exact ih (h.insert key hv)

theorem ofPairs {pairs pairs' : List (String × α)}
    (hp : List.Forall₂ (fun a a' => a.1 = a'.1 ∧ R a.2 a'.2) pairs pairs') :
    Alike R (ofPairs pairs) (ofPairs pairs') := empty.insertAll hp

/-- Names bound to related values. -/
theorem ofZip (names : List String) {xs xs' : List α} (hx : List.Forall₂ R xs xs') :
    Alike R (Table.ofPairs (names.zip xs)) (Table.ofPairs (names.zip xs')) := by
  refine ofPairs ?_
  induction hx generalizing names with
  | nil =>
    rw [List.zip_nil_right]
    exact .nil
  | cons hx _ ih =>
    cases names with
    | nil => exact .nil
    | cons name names => exact .cons ⟨rfl, hx⟩ (ih names)

end Alike

end Table

/-- Arrays of one size with related elements in the same places. -/
def Elementwise (R : α → α → Prop) (xs xs' : Array α) : Prop :=
  ∀ i : Nat, Option.Rel R xs[i]? xs'[i]?

namespace Elementwise

variable {R S : α → α → Prop} {xs xs' : Array α}

theorem imp (h : Elementwise R xs xs') (hrs : ∀ a b, R a b → S a b) : Elementwise S xs xs' :=
  fun i => rel_imp (h i) hrs

theorem size_eq (h : Elementwise R xs xs') : xs.size = xs'.size := by
  have hle (i : Nat) : xs.size ≤ i ↔ xs'.size ≤ i := by
    rw [← Array.getElem?_eq_none_iff, ← Array.getElem?_eq_none_iff, ← Option.not_isSome_iff_eq_none,
      ← Option.not_isSome_iff_eq_none, rel_isSome (h i)]
  have := hle xs.size
  have := hle xs'.size
  omega

theorem push (h : Elementwise R xs xs') {x x' : α} (hx : R x x') :
    Elementwise R (xs.push x) (xs'.push x') := by
  intro i
  rw [Array.getElem?_push, Array.getElem?_push, ← h.size_eq]
  split
  · exact .some hx
  · exact h i

theorem modify (h : Elementwise R xs xs') (i : Nat) {f f' : α → α}
    (hf : ∀ x x', R x x' → R (f x) (f' x')) : Elementwise R (xs.modify i f) (xs'.modify i f') := by
  intro j
  rw [Array.getElem?_modify, Array.getElem?_modify]
  split
  · have hj := h j
    generalize xs[j]? = o at hj
    generalize xs'[j]? = o' at hj
    cases hj with
    | none => exact .none
    | some hx => exact .some (hf _ _ hx)
  · exact h j

theorem setIfInBounds (h : Elementwise R xs xs') (i : Nat) {x x' : α} (hx : R x x') :
    Elementwise R (xs.setIfInBounds i x) (xs'.setIfInBounds i x') := by
  intro j
  rw [Array.getElem?_setIfInBounds, Array.getElem?_setIfInBounds, ← h.size_eq]
  split
  · split
    · exact .some hx
    · exact .none
  · exact h j

theorem of_forall₂ {xs xs' : List α} (h : List.Forall₂ R xs xs') :
    Elementwise R xs.toArray xs'.toArray := by
  intro i
  rw [List.getElem?_toArray, List.getElem?_toArray]
  induction h generalizing i with
  | nil => exact .none
  | cons hx _ ih =>
    cases i with
    | zero => exact .some hx
    | succ i => exact ih i

theorem toList (h : Elementwise R xs xs') : List.Forall₂ R xs.toList xs'.toList := by
  refine List.forall₂_of_length_eq_of_get h.size_eq fun i hi hi' => ?_
  have := h i
  rw [Array.getElem?_eq_getElem hi, Array.getElem?_eq_getElem hi'] at this
  cases this
  assumption

end Elementwise

end Lox

import Mathlib.Data.Set.Card
import Mathlib.Data.Set.Finite.Lattice
import Mathlib.Logic.Relation
import Lox.Machine.Eval
import Lox.Proofs.Sequence

/-!
# The texts of arrays

Arrays may be shared, and may lie in themselves at any depth.  What the text of a value is, is said
here without saying how it is found.  It depends on the arrays around the value, from the innermost
outward: an array that is one of them is written as `[...]`, and any other with its elements, which
lie in one more array.  Writing comes to this text whenever it is given at least as many arrays one
in another as can be reached, and no array is left behind on the list.

    h.write depth v around = some (t, s) → (h.Written around v t' ↔ t' = t)    (written_iff_of_write)
    (h.reached a).ncard ≤ depth → ∃ t, h.write depth (.array a) around = some (t, around)
                                                                             (exists_write_reached)
-/

namespace Lox.Heap

open Relation (ReflTransGen TransGen)

variable {h : Heap}

/-! ## Arrays in arrays -/

/-- An array has another as an element. -/
def Contains (h : Heap) (a b : ArrayId) : Prop := .array b ∈ (h.elements a).toList

/-- The arrays that can be reached from an array, which is one of them. -/
def reached (h : Heap) (a : ArrayId) : Set ArrayId := {b | ReflTransGen h.Contains a b}

/-- The arrays that the heap has. -/
def arrayIds (h : Heap) : Finset ArrayId := (Finset.range h.arrays.size).image ArrayId.mk

theorem card_arrayIds_le (h : Heap) : h.arrayIds.card ≤ h.arrays.size :=
  Finset.card_image_le.trans_eq (Finset.card_range _)

/-- An array that the heap does not have is empty. -/
theorem mem_arrayIds_or (h : Heap) (a : ArrayId) :
    a ∈ h.arrayIds ∨ (h.elements a).toList = [] := by
  by_cases ha : a.index < h.arrays.size
  · exact .inl (Finset.mem_image.2 ⟨a.index, Finset.mem_range.2 ha, rfl⟩)
  · refine .inr ?_
    rw [elements, Array.getElem?_eq_none (Nat.not_lt.1 ha)]
    rfl

theorem finite_contains (h : Heap) (a : ArrayId) : {b | h.Contains a b}.Finite := by
  refine Set.Finite.preimage (f := Value.array) (fun _ _ _ _ heq => ?_)
    (List.finite_toSet (h.elements a).toList)
  cases heq
  rfl

/-- Only finitely many arrays can be reached: `a` and the elements of the arrays that there are. -/
theorem finite_reached (h : Heap) (a : ArrayId) : (h.reached a).Finite := by
  have hinner : (⋃ b ∈ (h.arrayIds : Set ArrayId), {c | h.Contains b c}).Finite :=
    Set.Finite.biUnion h.arrayIds.finite_toSet fun b _ => h.finite_contains b
  refine ((Set.finite_singleton a).union hinner).subset fun b hb => ?_
  obtain rfl | ⟨c, -, hc⟩ := ReflTransGen.cases_tail hb
  · exact .inl rfl
  · refine .inr (Set.mem_biUnion (x := c) ?_ hc)
    refine (h.mem_arrayIds_or c).resolve_right fun hnone => ?_
    rw [Contains, hnone] at hc
    exact List.not_mem_nil hc

/-! ## What is written -/

/-- The text of a value that lies in the arrays `around`. -/
inductive Written (h : Heap) : List ArrayId → Value → String → Prop
  | atom {around : List ArrayId} {v : Value} : (∀ a, v ≠ .array a) →
      Written h around v (h.textOfAtom v)
  | again {around : List ArrayId} {a : ArrayId} : a ∈ around → Written h around (.array a) "[...]"
  | elements {around : List ArrayId} {a : ArrayId} {texts : List String} : a ∉ around →
      (h.elements a).toList.length = texts.length →
      (∀ v t, (v, t) ∈ (h.elements a).toList.zip texts → Written h (a :: around) v t) →
      Written h around (.array a) ("[" ++ ", ".intercalate texts ++ "]")

/-- The text of a value in which all arrays are written with their elements. -/
inductive Plain (h : Heap) : Value → String → Prop
  | atom {v : Value} : (∀ a, v ≠ .array a) → Plain h v (h.textOfAtom v)
  | elements {a : ArrayId} {texts : List String} :
      (h.elements a).toList.length = texts.length →
      (∀ v t, (v, t) ∈ (h.elements a).toList.zip texts → Plain h v t) →
      Plain h (.array a) ("[" ++ ", ".intercalate texts ++ "]")

section Rules

variable {a : ArrayId} {v : Value} {around : List ArrayId} {t : String}

theorem written_atom_iff (hv : ∀ a, v ≠ .array a) :
    h.Written around v t ↔ t = h.textOfAtom v := by
  constructor
  · rintro (_ | _ | _)
    · rfl
    · exact absurd rfl (hv _)
    · exact absurd rfl (hv _)
  · rintro rfl
    exact .atom hv

theorem written_again_iff (ha : a ∈ around) :
    h.Written around (.array a) t ↔ t = "[...]" := by
  constructor
  · rintro (hv | _ | ⟨hnone, _, _⟩)
    · exact absurd rfl (hv a)
    · rfl
    · exact absurd ha hnone
  · rintro rfl
    exact .again ha

theorem written_elements_iff (ha : a ∉ around) :
    h.Written around (.array a) t ↔ ∃ texts,
      List.Forall₂ (h.Written (a :: around)) (h.elements a).toList texts ∧
        t = "[" ++ ", ".intercalate texts ++ "]" := by
  constructor
  · rintro (hv | hmem | ⟨-, hlength, hes⟩)
    · exact absurd rfl (hv a)
    · exact absurd hmem ha
    · exact ⟨_, List.forall₂_iff_zip.2 ⟨hlength, hes _ _⟩, rfl⟩
  · rintro ⟨texts, hes, rfl⟩
    obtain ⟨hlength, hes⟩ := List.forall₂_iff_zip.1 hes
    exact .elements ha hlength fun _ _ => hes

theorem plain_atom_iff (hv : ∀ a, v ≠ .array a) : h.Plain v t ↔ t = h.textOfAtom v := by
  constructor
  · rintro (_ | _)
    · rfl
    · exact absurd rfl (hv _)
  · rintro rfl
    exact .atom hv

theorem plain_elements_iff :
    h.Plain (.array a) t ↔ ∃ texts, List.Forall₂ h.Plain (h.elements a).toList texts ∧
      t = "[" ++ ", ".intercalate texts ++ "]" := by
  constructor
  · rintro (hv | ⟨hlength, hes⟩)
    · exact absurd rfl (hv a)
    · exact ⟨_, List.forall₂_iff_zip.2 ⟨hlength, hes _ _⟩, rfl⟩
  · rintro ⟨texts, hes, rfl⟩
    obtain ⟨hlength, hes⟩ := List.forall₂_iff_zip.1 hes
    exact .elements hlength fun _ _ => hes

end Rules

/-! ## Writing -/

section Steps

variable {depth : Nat} {a : ArrayId} {v : Value} {around s : List ArrayId} {t : String}

theorem write_atom (hv : ∀ a, v ≠ .array a) (depth : Nat) (around : List ArrayId) :
    h.write depth v around = some (h.textOfAtom v, around) := by
  cases v with
  | array a => exact absurd rfl (hv a)
  | _ => cases depth <;> rfl

theorem write_again (ha : a ∈ around) (depth : Nat) :
    h.write depth (.array a) around = some ("[...]", around) := by
  cases depth
  all_goals
    show (if a ∈ around then _ else _ : Writing String) around = _
    rw [if_pos ha]
    rfl

theorem write_zero (ha : a ∉ around) : h.write 0 (.array a) around = none := by
  show (if a ∈ around then _ else _ : Writing String) around = none
  rw [if_neg ha]
  rfl

/-- An array is put on the list for its elements and taken off behind them. -/
theorem write_succ (ha : a ∉ around) :
    h.write (depth + 1) (.array a) around =
      ((h.elements a).toList.mapM (h.write depth) (a :: around)).map fun (texts, s) =>
        ("[" ++ ", ".intercalate texts ++ "]", s.tail) := by
  show (if a ∈ around then _ else _ : Writing String) around = _
  rw [if_neg ha]
  exact Option.map_eq_bind.symm

/-- Steps that leave the state as it is, one after another. -/
theorem mapM_eq_some {α β σ : Type} {f : α → StateT σ Option β} {s s' : σ}
    (hf : ∀ a b s', f a s = some (b, s') → s' = s) {as : List α} {bs : List β} :
    as.mapM f s = some (bs, s') ↔
      s' = s ∧ List.Forall₂ (fun a b => f a s = some (b, s)) as bs := by
  induction as generalizing bs with
  | nil =>
    rw [List.mapM_nil, List.forall₂_nil_left_iff]
    show some ([], s) = _ ↔ _
    grind
  | cons a as ih =>
    rw [List.mapM_cons, List.forall₂_cons_left_iff]
    show Option.bind (f a s) _ = _ ↔ _
    rw [Option.bind_eq_some_iff]
    constructor
    · rintro ⟨⟨b, s₁⟩, hb, hrest⟩
      obtain rfl := hf a b s₁ hb
      obtain ⟨⟨bs', s₂⟩, hbs, heq⟩ := Option.bind_eq_some_iff.1 hrest
      cases heq
      obtain ⟨rfl, hall⟩ := ih.1 hbs
      exact ⟨rfl, b, bs', hb, hall, rfl⟩
    · rintro ⟨rfl, b, bs', hb, hall, rfl⟩
      exact ⟨(b, s'), hb, Option.bind_eq_some_iff.2 ⟨(bs', s'), ih.2 ⟨rfl, hall⟩, rfl⟩⟩

/-- A value holds no others, or is an array that is or is not being written. -/
theorem atom_or_array (v : Value) (around : List ArrayId) :
    (∀ a, v ≠ .array a) ∨ (∃ a ∈ around, v = .array a) ∨ ∃ a, a ∉ around ∧ v = .array a := by
  cases v with
  | array a =>
    by_cases ha : a ∈ around
    · exact .inr (.inl ⟨a, ha, rfl⟩)
    · exact .inr (.inr ⟨a, ha, rfl⟩)
  | _ => exact .inl fun _ => Value.noConfusion

/-- What holds of the texts of atoms and of arrays in themselves, and of an array's text if it holds
of those of its elements, holds of all that is written; and the list is left as it was found. -/
theorem of_write {P : List ArrayId → Value → String → Prop}
    (hatom : ∀ around v, (∀ a, v ≠ .array a) → P around v (h.textOfAtom v))
    (hagain : ∀ around a, a ∈ around → P around (.array a) "[...]")
    (helements : ∀ around a texts, a ∉ around →
      List.Forall₂ (P (a :: around)) (h.elements a).toList texts →
      P around (.array a) ("[" ++ ", ".intercalate texts ++ "]"))
    (hw : h.write depth v around = some (t, s)) : s = around ∧ P around v t := by
  induction depth generalizing v around t s with
  | zero =>
    obtain hv | ⟨a, ha, rfl⟩ | ⟨a, ha, rfl⟩ := atom_or_array v around
    · rw [write_atom hv] at hw
      cases hw
      exact ⟨rfl, hatom around v hv⟩
    · rw [write_again ha] at hw
      cases hw
      exact ⟨rfl, hagain around a ha⟩
    · rw [write_zero ha] at hw
      cases hw
  | succ depth ih =>
    obtain hv | ⟨a, ha, rfl⟩ | ⟨a, ha, rfl⟩ := atom_or_array v around
    · rw [write_atom hv] at hw
      cases hw
      exact ⟨rfl, hatom around v hv⟩
    · rw [write_again ha] at hw
      cases hw
      exact ⟨rfl, hagain around a ha⟩
    · rw [write_succ ha, Option.map_eq_some_iff] at hw
      obtain ⟨⟨texts, s'⟩, hes, heq⟩ := hw
      cases heq
      obtain ⟨rfl, hall⟩ := (mapM_eq_some fun _ _ _ hw => (ih hw).1).1 hes
      exact ⟨rfl, helements around a texts ha (hall.imp fun _ _ hw => (ih hw).2)⟩

theorem state_of_write (hw : h.write depth v around = some (t, s)) : s = around :=
  (of_write (P := fun _ _ _ => True) (fun _ _ _ => trivial) (fun _ _ _ => trivial)
    (fun _ _ _ _ _ => trivial) hw).1

/-! ## What comes of it -/

/-- Where each element has one text, a list of elements has one list of texts. -/
theorem forall₂_iff_eq {α β : Type} {R : α → β → Prop} {as : List α} {bs bs' : List β}
    (hall : List.Forall₂ (fun a b => ∀ b', R a b' ↔ b' = b) as bs) :
    List.Forall₂ R as bs' ↔ bs' = bs := by
  induction hall generalizing bs' with
  | nil => exact List.forall₂_nil_left_iff
  | cons hb _ ih =>
    rw [List.forall₂_cons_left_iff]
    constructor
    · rintro ⟨b', bs'', hb', hbs, rfl⟩
      rw [(hb b').1 hb', ih.1 hbs]
    · rintro rfl
      exact ⟨_, _, (hb _).2 rfl, ih.2 rfl, rfl⟩

/-- Two ways to read an array by its elements come to one text if they do for the elements. -/
theorem elements_iff_eq {R : Value → String → Prop} {vs : List Value} {texts : List String}
    (hall : List.Forall₂ (fun v t => ∀ t', R v t' ↔ t' = t) vs texts) {t : String} :
    (∃ texts', List.Forall₂ R vs texts' ∧ t = "[" ++ ", ".intercalate texts' ++ "]") ↔
      t = "[" ++ ", ".intercalate texts ++ "]" := by
  constructor
  · rintro ⟨texts', hes, rfl⟩
    rw [(forall₂_iff_eq hall).1 hes]
  · exact fun ht => ⟨texts, (forall₂_iff_eq hall).2 rfl, ht⟩

/-- A text that writing comes to is the one that there is. -/
theorem written_iff_of_write (hw : h.write depth v around = some (t, s)) {t' : String} :
    h.Written around v t' ↔ t' = t := by
  refine (of_write (P := fun around v t => ∀ t', h.Written around v t' ↔ t' = t) ?_ ?_ ?_ hw).2 t'
  · exact fun around v hv t' => written_atom_iff hv
  · exact fun around a ha t' => written_again_iff ha
  · exact fun around a texts ha hall t' => (written_elements_iff ha).trans (elements_iff_eq hall)

/-- No array that can be reached is around, or can be reached from itself. -/
structure Unknotted (h : Heap) (around : List ArrayId) (v : Value) : Prop where
  notAround : ∀ a, v = .array a → ∀ b ∈ h.reached a, b ∉ around
  acyclic : ∀ a, v = .array a → ∀ b ∈ h.reached a, ¬TransGen h.Contains b b

/-- The elements of an array lie in it, but cannot reach it. -/
theorem Unknotted.element (hu : h.Unknotted around (.array a))
    (hv : v ∈ (h.elements a).toList) : h.Unknotted (a :: around) v where
  notAround b hb c hc hmem := by
    subst hb
    have hreach : c ∈ h.reached a := ReflTransGen.head hv hc
    cases hmem with
    | head => exact hu.acyclic a rfl a .refl (.head' hv hc)
    | tail _ hmem => exact hu.notAround a rfl c hreach hmem
  acyclic b hb c hc := by
    subst hb
    exact hu.acyclic a rfl c (ReflTransGen.head hv hc)

/-- Where no array lies in itself, all are written with their elements. -/
theorem plain_iff_of_write (hw : h.write depth v around = some (t, s))
    (hu : h.Unknotted around v) {t' : String} : h.Plain v t' ↔ t' = t := by
  refine (of_write (P := fun around v t => h.Unknotted around v → ∀ t', h.Plain v t' ↔ t' = t)
    ?_ ?_ ?_ hw).2 hu t'
  · exact fun around v hv _ t' => plain_atom_iff hv
  · exact fun around a ha hu _ => absurd ha (hu.notAround a rfl a .refl)
  · intro around a texts ha hall hu t'
    refine plain_elements_iff.trans (elements_iff_eq ?_)
    rw [List.forall₂_iff_zip] at hall ⊢
    exact ⟨hall.1, fun hmem => hall.2 hmem (hu.element (List.of_mem_zip hmem).1)⟩

/-! ## Enough depth -/

theorem exists_forall₂ {α β : Type} {R : α → β → Prop} {as : List α} (hall : ∀ a ∈ as, ∃ b, R a b) :
    ∃ bs, List.Forall₂ R as bs := by
  induction as with
  | nil => exact ⟨[], .nil⟩
  | cons a as ih =>
    obtain ⟨b, hb⟩ := hall a List.mem_cons_self
    obtain ⟨bs, hbs⟩ := ih fun a ha => hall a (List.mem_cons_of_mem _ ha)
    exact ⟨b :: bs, .cons hb hbs⟩

/-- Writing an array is enough to write its elements. -/
theorem exists_write_succ (hall : ∀ v ∈ (h.elements a).toList,
      ∃ t, h.write depth v (a :: around) = some (t, a :: around)) :
    ∃ t, h.write (depth + 1) (.array a) around = some (t, around) := by
  by_cases ha : a ∈ around
  · exact ⟨_, write_again ha _⟩
  · obtain ⟨texts, hes⟩ := exists_forall₂ hall
    have hw := (mapM_eq_some (f := h.write depth) fun _ _ _ => state_of_write).2 ⟨rfl, hes⟩
    exact ⟨_, by rw [write_succ ha, hw]; rfl⟩

/-- The arrays of `S` that are not around are counted, and one less is left for the elements of
each.  `S` has to have all that can be reached, but for empty arrays, which take `k` more. -/
theorem exists_write {S : Finset ArrayId} {k : Nat}
    (hS : ∀ b ∈ h.reached a, b ∈ S ∨ k = 1 ∧ (h.elements b).toList = [])
    (hdepth : (S \ around.toFinset).card + k ≤ depth) :
    ∃ t, h.write depth (.array a) around = some (t, around) := by
  induction depth generalizing a around with
  | zero =>
    by_cases ha : a ∈ around
    · exact ⟨_, write_again ha _⟩
    · obtain hmem | ⟨rfl, -⟩ := hS a .refl
      · have hpos := Finset.card_pos.2 ⟨a, Finset.mem_sdiff.2 ⟨hmem, mt List.mem_toFinset.1 ha⟩⟩
        omega
      · omega
  | succ depth ih =>
    by_cases ha : a ∈ around
    · exact ⟨_, write_again ha _⟩
    · refine exists_write_succ fun v hv => ?_
      obtain hatom | hagain | ⟨b, hb, rfl⟩ := atom_or_array v (a :: around)
      · exact ⟨_, write_atom hatom _ _⟩
      · obtain ⟨b, hb, rfl⟩ := hagain
        exact ⟨_, write_again hb _⟩
      · refine ih (fun c hc => hS c (.head hv hc)) ?_
        obtain hmem | ⟨-, hnone⟩ := hS a .refl
        · have hlt : (S \ (a :: around).toFinset).card < (S \ around.toFinset).card := by
            refine Finset.card_lt_card (Finset.ssubset_iff_of_subset ?_ |>.2 ⟨a, ?_, ?_⟩)
            · exact Finset.sdiff_subset_sdiff le_rfl (by simp)
            · exact Finset.mem_sdiff.2 ⟨hmem, mt List.mem_toFinset.1 ha⟩
            · simp
          omega
        · rw [hnone] at hv
          cases hv

/-- No more arrays can lie one in another than can be reached. -/
theorem exists_write_reached (hdepth : (h.reached a).ncard ≤ depth) (around : List ArrayId) :
    ∃ t, h.write depth (.array a) around = some (t, around) := by
  have hfinite := h.finite_reached a
  refine exists_write (S := hfinite.toFinset) (k := 0)
    (fun b hb => .inl (hfinite.mem_toFinset.2 hb)) ?_
  rw [Set.ncard_eq_toFinset_card _ hfinite] at hdepth
  exact (Finset.card_le_card Finset.sdiff_subset).trans hdepth

/-- No more arrays can lie one in another than there are, and an empty one. -/
theorem write_text (h : Heap) (v : Value) :
    h.write (h.arrays.size + 1) v [] = some (h.text v, []) := by
  have hsome : ∃ t, h.write (h.arrays.size + 1) v [] = some (t, []) := by
    obtain hv | ⟨a, -, rfl⟩ | ⟨a, -, rfl⟩ := atom_or_array v []
    · exact ⟨_, write_atom hv _ _⟩
    all_goals
      refine exists_write (S := h.arrayIds) (k := 1)
        (fun b _ => (h.mem_arrayIds_or b).imp_right fun hnone => ⟨rfl, hnone⟩) ?_
      have hcard := h.card_arrayIds_le
      have hle := Finset.card_le_card (Finset.sdiff_subset (s := h.arrayIds) (t := [].toFinset))
      omega
  obtain ⟨t, ht⟩ := hsome
  rw [text, ht]

end Steps

/-! ## Texts in programs -/

theorem callNative_str (v : Value) (span : Span) (m : Machine) :
    Eval.callNative .str [v] span m = .ok (.string (m.heap.text v)) m :=
  rfl

theorem stmt_print {n : Nat} {e : Expr} {v : Value} {m m' : Machine}
    (he : Eval.expr n e m = .ok v m') (span : Span) :
    Eval.stmt (n + 1) ⟨span, .print e⟩ m =
      (Eval.printLine (m'.heap.text v) span >>= fun _ => pure Signal.next) m' :=
  EStateM.bind_of_ok he _

/-- The text of an array `a` of any heap, however its arrays are shared or lie in one another.
Writing `a` ends if at least as many arrays are allowed one in another as can be reached from it,
whatever arrays are around, and leaves the list of these as it is; what is written is the text of
the rules, which is the only one.  If no array that can be reached from `a` lies in itself, that is
the text in which all arrays are written with their elements.  For every value, `print` writes the
text that `str` gives, which is its own text. -/
theorem text_of_array (h : Heap) (a : ArrayId) :
    (h.reached a).Finite ∧
    (∀ around depth, (h.reached a).ncard ≤ depth →
      ∃ t, h.write depth (.array a) around = some (t, around) ∧
        ∀ t', h.Written around (.array a) t' ↔ t' = t) ∧
    (∀ t, h.Written [] (.array a) t ↔ t = h.text (.array a)) ∧
    ((∀ b ∈ h.reached a, ¬TransGen h.Contains b b) →
      ∀ t, h.Plain (.array a) t ↔ t = h.text (.array a)) ∧
    (∀ v span m, Eval.callNative .str [v] span m = .ok (.string (m.heap.text v)) m ∧
      m.heap.text (.string (m.heap.text v)) = m.heap.text v) ∧
    ∀ n e v span m m', Eval.expr n e m = .ok v m' →
      Eval.stmt (n + 1) ⟨span, .print e⟩ m =
        (Eval.printLine (m'.heap.text v) span >>= fun _ => pure Signal.next) m' := by
  refine ⟨h.finite_reached a, fun around depth hdepth => ?_, fun t => ?_, fun hacyclic t => ?_,
    fun v span m => ⟨callNative_str v span m, rfl⟩, fun n e v span m m' he => stmt_print he span⟩
  · obtain ⟨t, ht⟩ := exists_write_reached hdepth around
    exact ⟨t, ht, fun t' => written_iff_of_write ht⟩
  · exact written_iff_of_write (h.write_text (.array a))
  · refine plain_iff_of_write (h.write_text (.array a)) ⟨fun _ _ _ _ => List.not_mem_nil, ?_⟩
    rintro _ ⟨⟩
    exact hacyclic

/-- `var a=[nil]; var b=[a, a]; append(b, b);` -/
def knotted : Heap where
  frames := Array.empty
  arrays := #[#[.nil], #[.array ⟨0⟩, .array ⟨0⟩, .array ⟨1⟩]]
  classes := Array.empty
  instances := Array.empty
  traits := Array.empty
  closures := 0

/-- An array that is shared is written in full each time, one that lies in itself once. -/
theorem text_of_knotted :
    (∀ around, ∃ t, knotted.write 2 (.array ⟨1⟩) around = some (t, around)) ∧
    knotted.Written [] (.array ⟨1⟩) "[[nil], [nil], [...]]" ∧
    knotted.Plain (.array ⟨0⟩) "[nil]" ∧
    ∀ span m, Eval.stmt 2 ⟨span, .print ⟨0, span, .literal .nil⟩⟩ m =
      (Eval.printLine "nil" span >>= fun _ => pure Signal.next) m := by
  have hinner : ∀ b, ¬knotted.Contains ⟨0⟩ b := fun b hb => by
    cases hb with
    | tail _ hb => cases hb
  have houter : ∀ b, knotted.Contains ⟨1⟩ b → b = ⟨0⟩ ∨ b = ⟨1⟩ := fun b hb => by
    change Value.array b ∈ [Value.array ⟨0⟩, .array ⟨0⟩, .array ⟨1⟩] at hb
    simpa using hb
  have hreached : knotted.reached ⟨1⟩ ⊆ {⟨0⟩, ⟨1⟩} := fun b hb => by
    induction hb with
    | refl => exact .inr rfl
    | tail _ hc ih =>
      obtain rfl | rfl := ih
      · exact absurd hc (hinner _)
      · exact houter _ hc
  have hcard : (knotted.reached ⟨1⟩).ncard ≤ 2 :=
    (Set.ncard_le_ncard hreached).trans (Set.ncard_insert_le _ _ |>.trans (by simp))
  have hacyclic : ∀ b ∈ knotted.reached ⟨0⟩, ¬TransGen knotted.Contains b b := fun b hb hloop => by
    obtain rfl | ⟨c, hc, -⟩ := ReflTransGen.cases_head hb
    · obtain ⟨c, hc, -⟩ := TransGen.head'_iff.1 hloop
      exact hinner c hc
    · exact hinner c hc
  obtain ⟨-, hdepth, hwritten, -, -, hprint⟩ := text_of_array knotted ⟨1⟩
  obtain ⟨-, -, -, hplain, -, -⟩ := text_of_array knotted ⟨0⟩
  refine ⟨fun around => ?_, (hwritten _).2 rfl, (hplain hacyclic _).2 rfl,
    fun span m => hprint 1 _ .nil span m m rfl⟩
  obtain ⟨t, ht, -⟩ := hdepth around 2 hcard
  exact ⟨t, ht⟩

end Lox.Heap

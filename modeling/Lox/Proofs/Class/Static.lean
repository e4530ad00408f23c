import Lox.Proofs.Run.Edit
import Lox.Proofs.Sequence
import Lox.Machine.Eval

/-!
# Static members

Which static member a class answers to a name with is settled by the first class from it upward that
has one of that name, a field before a method; a field has what was stored in it last.

    c, its superclass, …        the chain of `c` (`Chain`)
    h.static? c name = chain.findSome? (h.ownStatic? · name)                    (Chain.static?_eq)

A write to a class is a write to its own field, and so is seen from the classes below it down to
those that have a member of that name themselves.
-/

namespace Lox.Heap

variable {h : Heap}

/-! ## Chains -/

/-- A class, its superclass, and so on up to a class that has none. -/
inductive Chain (h : Heap) : ClassId → List ClassId → Prop
  | root {c : ClassId} {k : Class} :
      h.classes[c.index]? = some k → k.superclass = none → Chain h c [c]
  | above {c s : ClassId} {k : Class} {cs : List ClassId} :
      h.classes[c.index]? = some k → k.superclass = some s → Chain h s cs → Chain h c (c :: cs)

/-- Each class was declared behind its superclass. -/
def Forest (h : Heap) : Prop :=
  ∀ (c : ClassId) k s, h.classes[c.index]? = some k → k.superclass = some s → s.index < c.index

theorem Forest.exists_chain (hf : h.Forest) {c : ClassId} (hc : c.index < h.classes.size) :
    ∃ cs, h.Chain c cs := by
  induction hi : c.index using Nat.strongRecOn generalizing c with
  | ind i ih =>
    subst hi
    have hk : h.classes[c.index]? = some h.classes[c.index] := Array.getElem?_eq_getElem hc
    cases hs : h.classes[c.index].superclass with
    | none => exact ⟨[c], .root hk hs⟩
    | some s =>
      have hlt := hf c _ s hk hs
      obtain ⟨cs, hcs⟩ := ih s.index hlt (Nat.lt_trans hlt hc) rfl
      exact ⟨c :: cs, .above hk hs hcs⟩

theorem Chain.exists_class {c d : ClassId} {cs : List ClassId} (hcs : h.Chain c cs) (hd : d ∈ cs) :
    ∃ k, h.classes[d.index]? = some k := by
  induction hcs with
  | root hk _ =>
    cases List.mem_singleton.1 hd
    exact ⟨_, hk⟩
  | above hk _ _ ih =>
    rcases List.mem_cons.1 hd with rfl | hd
    · exact ⟨_, hk⟩
    · exact ih hd

theorem Chain.edits {c : ClassId} {cs : List ClassId} (hcs : h.Chain c cs) (es : List Edit) :
    (h.edits es).Chain c cs := by
  induction hcs with
  | root hk hs =>
    obtain ⟨fields, hfields, -⟩ := exists_class_edits hk es
    exact .root hfields hs
  | above hk hs _ ih =>
    obtain ⟨fields, hfields, -⟩ := exists_class_edits hk es
    exact .above hfields hs ih

/-! ## Looking up -/

/-- The static member that a class itself has: its field, else its method. -/
def ownStatic? (h : Heap) (c : ClassId) (name : String) : Option Value :=
  (h.staticField? c name).or ((h.staticMethod? c name).map .function)

/-- What a class has itself comes before what it inherits. -/
theorem static?_eq {c : ClassId} {k : Class} (hk : h.classes[c.index]? = some k) (name : String) :
    h.static? c name = (h.ownStatic? c name).or
      (match k.superclass with
        | some s => if s.index < c.index then h.static? s name else none
        | none => none) := by
  rw [static?, hk]
  simp only [ownStatic?, staticField?, staticMethod?, hk]
  cases k.fields.find? name with
  | some v => rfl
  | none => cases k.statics.find? name <;> rfl

theorem Chain.static?_eq {c : ClassId} {cs : List ClassId} (hcs : h.Chain c cs)
    (hdown : ∀ d ∈ cs, ∀ k s, h.classes[d.index]? = some k → k.superclass = some s →
      s.index < d.index) (name : String) :
    h.static? c name = cs.findSome? (h.ownStatic? · name) := by
  induction hcs with
  | root hk hs =>
    rw [Heap.static?_eq hk, hs, List.findSome?_cons, List.findSome?_nil, Option.or_none]
    cases h.ownStatic? _ name <;> rfl
  | @above c s k cs hk hs _ ih =>
    obtain ⟨hc, hcs⟩ := List.forall_mem_cons.1 hdown
    rw [Heap.static?_eq hk, hs, List.findSome?_cons, ← ih hcs]
    dsimp only
    rw [if_pos (hc k s hk hs)]
    cases h.ownStatic? c name <;> rfl

/-! ## Writing -/

theorem findSome?_congr {α β : Type} {f g : α → Option β} {l : List α}
    (h : ∀ a ∈ l, f a = g a) : l.findSome? f = l.findSome? g := by
  induction l with
  | nil => rfl
  | cons a l ih =>
    obtain ⟨ha, hl⟩ := List.forall_mem_cons.1 h
    rw [List.findSome?_cons, List.findSome?_cons, ha, ih hl]

theorem ownStatic?_edits {c : ClassId} {cs : List ClassId} (hcs : h.Chain c cs) (es : List Edit)
    {d : ClassId} (hd : d ∈ cs) (name : String) :
    (h.edits es).ownStatic? d name =
      (last (Edit.inStatic d name) es).or (h.ownStatic? d name) := by
  obtain ⟨k, hk⟩ := hcs.exists_class hd
  obtain ⟨fields, hfields, hfind⟩ := exists_class_edits hk es
  simp only [ownStatic?, staticField?, staticMethod?, hfields, hk, hfind, Option.or_assoc]

theorem Forest.static?_edits (hf : h.Forest) {c : ClassId} {cs : List ClassId}
    (hcs : h.Chain c cs) (es : List Edit) (name : String) :
    (h.edits es).static? c name =
      cs.findSome? fun d => (last (Edit.inStatic d name) es).or (h.ownStatic? d name) := by
  have hdown : ∀ d ∈ cs, ∀ k s, (h.edits es).classes[d.index]? = some k → k.superclass = some s →
      s.index < d.index := by
    intro d hd k s hk hs
    obtain ⟨k₀, hk₀⟩ := hcs.exists_class hd
    obtain ⟨fields, hfields, -⟩ := exists_class_edits hk₀ es
    cases hk.symm.trans hfields
    exact hf d k₀ s hk₀ hs
  rw [(hcs.edits es).static?_eq hdown]
  exact findSome?_congr fun d hd => ownStatic?_edits hcs es hd name

/-- Looking along a list finds the same if something comes in only behind what is found, or not at
all. -/
theorem exists_append_of_findSome?_ne {α β : Type} {f g : α → Option β} {a : α} {l : List α}
    (hne : l.findSome? g ≠ l.findSome? f) (hother : ∀ b, b ≠ a → g b = f b) :
    ∃ before behind, l = before ++ a :: behind ∧ ∀ b ∈ before, f b = none := by
  induction l with
  | nil => exact absurd rfl hne
  | cons b l ih =>
    by_cases hb : b = a
    · exact ⟨[], l, by rw [hb]; rfl, fun _ h => by cases h⟩
    rw [List.findSome?_cons, List.findSome?_cons, hother b hb] at hne
    cases hf : f b with
    | some v => rw [hf] at hne; exact absurd rfl hne
    | none =>
      rw [hf] at hne
      obtain ⟨before, behind, rfl, hbefore⟩ := ih hne
      exact ⟨b :: before, behind, rfl, List.forall_mem_cons.2 ⟨hf, hbefore⟩⟩

/-! ## The law -/

/-- In a forest of classes, whatever is done to the heap: a class answers to a name with the static
member of the first class of its chain that has one, a field with what was stored in it last, else a
method, or else not at all.  A write to a class is seen from another only under its name, and only
if no nearer class of the chain has a member of that name. -/
theorem Forest.static_follows_chain (hf : h.Forest) {c : ClassId} (hc : c.index < h.classes.size)
    (es : List Edit) :
    ∃ chain, h.Chain c chain ∧ (h.edits es).Chain c chain ∧
      (∀ (name : Identifier) (m : Machine), m.heap = h.edits es →
        Eval.property (.klass c) name m =
          (chain.findSome? fun d =>
              ((last (Edit.inStatic d name.name) es).or (h.staticField? d name.name)).or
                ((h.staticMethod? d name.name).map .function)).elim
            (.error (.error ⟨name.span, .undefinedProperty name.name⟩) m) fun v => .ok v m) ∧
      ∀ (d : ClassId) (name : Identifier) (v : Value) (m m' : Machine), m.heap = h.edits es →
        Eval.setProperty (.klass d) name v m = .ok () m' →
        ∀ other, m'.heap.static? c other ≠ m.heap.static? c other →
          other = name.name ∧ ∃ nearer rest, chain = nearer ++ d :: rest ∧
            ∀ e ∈ nearer, m.heap.ownStatic? e name.name = none := by
  obtain ⟨chain, hchain⟩ := hf.exists_chain hc
  refine ⟨chain, hchain, hchain.edits es, fun name m hm => ?_, ?_⟩
  · have hstatic := hf.static?_edits hchain es name.name
    simp only [ownStatic?, ← Option.or_assoc] at hstatic
    unfold Eval.property
    dsimp only
    rw [EStateM.get_bind_apply, hm, ← hstatic]
    cases (h.edits es).static? c name.name with
    | some v => rfl
    | none => rfl
  · intro d name v m m' hm hwrite other hne
    cases hwrite
    have hafter : m.heap.setStatic d name.name v = h.edits (es ++ [.static d name.name v]) := by
      rw [edits_append, hm]
      rfl
    have hown (e : ClassId) (he : e ∈ chain) (x : String) :
        m.heap.ownStatic? e x = (last (Edit.inStatic e x) es).or (h.ownStatic? e x) := by
      rw [hm, ownStatic?_edits hchain es he]
    have hne : (m.heap.setStatic d name.name v).static? c other ≠ m.heap.static? c other := hne
    rw [hafter, hm, hf.static?_edits hchain, hf.static?_edits hchain] at hne
    by_cases hname : other = name.name
    case neg =>
      -- nothing has been stored under the other name
      refine absurd (findSome?_congr fun e _ => ?_) hne
      have hnone : Edit.inStatic e other (.static d name.name v) = none :=
        if_neg fun ⟨_, heq⟩ => hname heq.symm
      rw [last_append_singleton, hnone, Option.none_or]
    subst hname
    refine ⟨rfl, ?_⟩
    have hother (e : ClassId) (he : e ≠ d) :
        last (Edit.inStatic e name.name) (es ++ [.static d name.name v]) =
          last (Edit.inStatic e name.name) es := by
      have hnone : Edit.inStatic e name.name (.static d name.name v) = none :=
        if_neg fun ⟨heq, _⟩ => he heq.symm
      rw [last_append_singleton, hnone, Option.none_or]
    obtain ⟨nearer, rest, heq, hnearer⟩ := exists_append_of_findSome?_ne (a := d) hne
      fun e he => by rw [hother e he]
    refine ⟨nearer, rest, heq, fun e he => ?_⟩
    rw [hown e (heq ▸ List.mem_append_left _ he)]
    exact hnearer e he

/-- A class with a static method, one below it, and one below that. -/
def threeClasses : Heap :=
  let n : Function := ⟨⟨"n", .onLine 16 17⟩, [], [], false, .onLine 10 22⟩
  { Heap.start with
    classes := #[⟨"A", none, ∅, .ofPairs [("n", ⟨0, n, globals, .staticMethod⟩)], ∅⟩,
      ⟨"B", some ⟨0⟩, ∅, ∅, ∅⟩, ⟨"C", some ⟨1⟩, ∅, ∅, ∅⟩]
    closures := 1 }

theorem forest_threeClasses : threeClasses.Forest := by
  rintro ⟨_ | _ | _ | i⟩ k s hk hs <;> simp [threeClasses] at hk
  · subst hk; cases hs
  · subst hk; cases hs; exact Nat.zero_lt_one
  · subst hk; cases hs; exact Nat.lt_succ_self 1

/-- The lowest class after a field under the name of the method has been written in the middle one
and then in the uppermost: it answers with what the middle one has. -/
theorem static_follows_chain_three :
    threeClasses.Forest ∧ 2 < threeClasses.classes.size ∧
      ∃ chain, threeClasses.Chain ⟨2⟩ chain ∧ ∀ m : Machine,
        m.heap = threeClasses.edits
          [.static ⟨1⟩ "n" (.boolean true), .static ⟨0⟩ "n" (.boolean false)] →
        Eval.property (.klass ⟨2⟩) ⟨"n", .nowhere⟩ m = .ok (.boolean true) m := by
  have hf := forest_threeClasses
  obtain ⟨chain, hchain, -, hget, -⟩ := hf.static_follows_chain (c := ⟨2⟩) (by decide)
    [.static ⟨1⟩ "n" (.boolean true), .static ⟨0⟩ "n" (.boolean false)]
  refine ⟨hf, by decide, chain, hchain, fun m hm => (hget ⟨"n", .nowhere⟩ m hm).trans ?_⟩
  have hthree : chain = [⟨2⟩, ⟨1⟩, ⟨0⟩] := by
    cases hchain with
    | root hk hs => cases hk; cases hs
    | above hk hs hchain =>
      cases hk; cases hs
      cases hchain with
      | root hk hs => cases hk; cases hs
      | above hk hs hchain =>
        cases hk; cases hs
        cases hchain with
        | root => rfl
        | above hk hs => cases hk; cases hs
  rw [hthree]
  rfl

end Lox.Heap

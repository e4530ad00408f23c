import Lox.Proofs.Run.Heap
import Lox.Proofs.Sequence
import Lox.Machine.Basic

/-!
# Environments

An environment is a frame, with the one around it, the one around that, and so on (`Outward`).
Walking outward, a name means its variable in the nearest frame that has one; at a distance it means
that of one frame alone.  The two agree at the distance of the nearest frame:

    h.Outward f gs → gs[d]? = some g → (the nearest that has `name`) →
      h.getAt? d f name = h.get? f name ∧ h.assignAt d f name v = h.assign f name v
                                                                            (Access.nearest)

Whichever way a variable is written, what changes is that variable of that frame, and so what the
name means in just those environments in which the frame is the nearest to have it.
-/

namespace Lox

namespace Heap

variable {h : Heap} {f g : FrameId} {gs : List FrameId} {name : String} {v : Value}

/-! ## Frames outward -/

/-- From `f` outward, the frames up to one that lies in no other. -/
inductive Outward (h : Heap) : FrameId → List FrameId → Prop
  | last {f : FrameId} : h.enclosing? f = none → Outward h f [f]
  | inside {f g : FrameId} {gs : List FrameId} :
      h.enclosing? f = some g → Outward h g gs → Outward h f (f :: gs)

/-- Each frame lies in an older one, if in any. -/
def Ordered (h : Heap) : Prop := ∀ f g, h.enclosing? f = some g → g.index < f.index

namespace Ordered

theorem start : Heap.start.Ordered := by
  rintro ⟨_ | i⟩ g hg <;> simp [enclosing?, Heap.start, Array.singleton] at hg

theorem newFrame (ho : h.Ordered) {outer : FrameId} (hlt : outer.index < h.frames.size)
    (bindings : Table Value) : (h.newFrame outer bindings).2.Ordered := by
  intro f g hg
  rw [enclosing?_newFrame] at hg
  split at hg
  · next hf =>
    cases hg
    exact hf ▸ hlt
  · exact ho f g hg

theorem define (ho : h.Ordered) (f : FrameId) (name : String) (v : Value) :
    (h.define f name v).Ordered := by
  intro g outer hg
  rw [enclosing?_define] at hg
  exact ho g outer hg

theorem exists_outward (ho : h.Ordered) (f : FrameId) : ∃ gs, h.Outward f gs := by
  induction hi : f.index using Nat.strongRecOn generalizing f with
  | ind i ih =>
    subst hi
    cases hf : h.enclosing? f with
    | none => exact ⟨[f], .last hf⟩
    | some g =>
      obtain ⟨gs, hgs⟩ := ih g.index (ho f g hf) g rfl
      exact ⟨f :: gs, .inside hf hgs⟩

end Ordered

namespace Outward

/-- So many frames outward is where the distance leads. -/
theorem getElem?_eq (hf : h.Outward f gs) (hops : Nat) : gs[hops]? = h.ancestor? hops f := by
  induction hf generalizing hops with
  | last hnone =>
    cases hops with
    | zero => rfl
    | succ hops =>
      rw [ancestor?, hnone]
      rfl
  | inside hsome _ ih =>
    cases hops with
    | zero => rfl
    | succ hops =>
      rw [ancestor?, hsome]
      exact ih hops

/-- Outward the frames are older and older. -/
theorem pairwise (hf : h.Outward f gs) (ho : h.Ordered) : gs.Pairwise (·.index > ·.index) := by
  induction hf with
  | last => exact List.pairwise_singleton _ _
  | @inside f g gs hsome hgs ih =>
    refine List.pairwise_cons.2 ⟨fun outer houter => ?_, ih⟩
    have hlt := ho f g hsome
    cases hgs with
    | last =>
      cases List.mem_singleton.1 houter
      exact hlt
    | inside _ hrest =>
      rcases List.mem_cons.1 houter with rfl | houter
      · exact hlt
      · exact Nat.lt_trans ((List.pairwise_cons.1 ih).1 outer houter) hlt

theorem nodup (hf : h.Outward f gs) (ho : h.Ordered) : gs.Nodup :=
  (hf.pairwise ho).imp fun hlt heq => absurd (congrArg FrameId.index heq) (Nat.ne_of_gt hlt)

/-- Walking outward ends at the first frame that has the variable. -/
theorem owner?_eq (hf : h.Outward f gs) (ho : h.Ordered) (name : String) :
    h.owner? f name = gs.find? fun g => (h.getIn? g name).isSome := by
  induction hf with
  | @last f hnone =>
    rw [owner?, hnone, List.find?_singleton]
  | @inside f g gs hsome _ ih =>
    rw [owner?, hsome, List.find?_cons]
    dsimp only
    rw [if_pos (ho f g hsome), ih]
    cases (h.getIn? f name).isSome <;> rfl

theorem get?_eq (hf : h.Outward f gs) (ho : h.Ordered) (name : String) :
    h.get? f name = gs.findSome? (h.getIn? · name) := by
  rw [get?, hf.owner?_eq ho]
  clear hf
  induction gs with
  | nil => rfl
  | cons g gs ih =>
    rw [List.find?_cons, List.findSome?_cons]
    cases hg : h.getIn? g name with
    | none => exact ih
    | some v => exact hg

end Outward

/-! ## Writing one variable -/

/-- The variable `name` of the frame `g` is `v` in the one heap, and all else is as in the other:
environments see the new value exactly if `g` is where they find that variable. -/
structure Rebound (h : Heap) (g : FrameId) (name : String) (v : Value) (h' : Heap) : Prop where
  getIn? : ∀ f x, h'.getIn? f x = if f = g ∧ x = name then some v else h.getIn? f x
  enclosing? : ∀ f, h'.enclosing? f = h.enclosing? f
  get? : ∀ f x, h'.get? f x = if h.owner? f name = some g ∧ x = name then some v else h.get? f x
  getAt? : ∀ hops f x, h'.getAt? hops f x =
    if h.ancestor? hops f = some g ∧ x = name then some v else h.getAt? hops f x
  rest : h' = { h with frames := h'.frames }

theorem index_lt_of_isSome (hg : (h.getIn? g name).isSome) : g.index < h.frames.size := by
  refine Nat.lt_of_not_le fun hge => ?_
  rw [getIn?, Array.getElem?_eq_none hge] at hg
  cases hg

/-- Writing a variable that is there moves none. -/
theorem isSome_getIn?_define (hg : (h.getIn? g name).isSome) (v : Value) (f : FrameId) (x : String) :
    ((h.define g name v).getIn? f x).isSome = (h.getIn? f x).isSome := by
  rw [getIn?_define]
  split
  · next hw =>
    obtain ⟨rfl, rfl, -⟩ := hw
    exact hg.symm
  · rfl

theorem owner?_define (hg : (h.getIn? g name).isSome) (v : Value) (f : FrameId) (x : String) :
    (h.define g name v).owner? f x = h.owner? f x := by
  induction hi : f.index using Nat.strongRecOn generalizing f with
  | ind i ih =>
    subst hi
    rw [owner?, owner?, isSome_getIn?_define hg, enclosing?_define]
    split
    · rfl
    · cases h.enclosing? f with
      | none => rfl
      | some outer =>
        dsimp only
        split
        · next hlt => exact ih outer.index hlt outer rfl
        · rfl

theorem rebound_define (hg : (h.getIn? g name).isSome) (v : Value) :
    h.Rebound g name v (h.define g name v) := by
  have hlt := index_lt_of_isSome hg
  have hgetIn (f : FrameId) (x : String) : (h.define g name v).getIn? f x =
      if f = g ∧ x = name then some v else h.getIn? f x := by
    rw [getIn?_define]
    exact if_congr ⟨fun ⟨hf, hx, _⟩ => ⟨hf.symm, hx.symm⟩, fun ⟨hf, hx⟩ => ⟨hf.symm, hx.symm, hlt⟩⟩
      rfl rfl
  constructor
  case getIn? => exact hgetIn
  case enclosing? => exact fun f => h.enclosing?_define g name v f
  case get? =>
    intro f x
    rw [Heap.get?, owner?_define hg]
    by_cases hx : x = name
    · subst hx
      cases ho : h.owner? f x with
      | none => simp [Heap.get?, ho]
      | some g' => by_cases hg' : g' = g <;> simp [Heap.get?, ho, hgetIn, hg']
    · simp [Heap.get?, hgetIn, hx]
  case getAt? =>
    intro hops f x
    rw [Heap.getAt?, ancestor?_define]
    by_cases hx : x = name
    · subst hx
      cases ha : h.ancestor? hops f with
      | none => simp [Heap.getAt?, ha]
      | some g' => by_cases hg' : g' = g <;> simp [Heap.getAt?, ha, hgetIn, hg']
    · simp [Heap.getAt?, hgetIn, hx]
  case rest => rfl

/-! ## The law -/

/-- The frames `gs` from `f` outward have `name` first in `g`, after `d` links. -/
structure NearestFrame (h : Heap) (gs : List FrameId) (name : String) (d : Nat) (g : FrameId) :
    Prop where
  link : gs[d]? = some g
  binds : (h.getIn? g name).isSome
  nearer : ∀ i < d, ∀ g', gs[i]? = some g' → h.getIn? g' name = none

/-- What reading and writing a variable outward from `f` have to do with doing so at a distance. -/
structure Access (h : Heap) (f : FrameId) (gs : List FrameId) (name : String) (v : Value) :
    Prop where
  /-- At the distance of the nearest frame that has the variable they are the same, and change
  nothing else. -/
  nearest : ∀ d g, h.NearestFrame gs name d g →
    h.getAt? d f name = h.get? f name ∧ h.get? f name = h.getIn? g name ∧
      h.assignAt d f name v = h.assign f name v ∧ (h.assign f name v).1 = true ∧
      h.Rebound g name v (h.assign f name v).2
  /-- At any distance they are about the variable of that frame alone. -/
  there : ∀ d g, gs[d]? = some g → h.getAt? d f name = h.getIn? g name ∧
    ((h.getIn? g name).isSome → (h.assignAt d f name v).1 = true ∧
      h.Rebound g name v (h.assignAt d f name v).2) ∧
    (h.getIn? g name = none → h.assignAt d f name v = (false, h))
  beyond : ∀ d, gs.length ≤ d → h.getAt? d f name = none ∧ h.assignAt d f name v = (false, h)
  /-- What no frame has is found nowhere. -/
  absent : (∀ g ∈ gs, h.getIn? g name = none) →
    h.get? f name = none ∧ h.assign f name v = (false, h)

namespace Outward

variable {d : Nat}

theorem owner?_of_nearest (hf : h.Outward f gs) (ho : h.Ordered) (hg : h.NearestFrame gs name d g) :
    h.owner? f name = some g := by
  obtain ⟨hd, rfl⟩ := List.getElem?_eq_some_iff.1 hg.link
  rw [hf.owner?_eq ho, List.find?_eq_some_iff_getElem]
  refine ⟨hg.binds, d, hd, rfl, fun i hi => ?_⟩
  rw [hg.nearer i hi gs[i] (List.getElem?_eq_getElem _)]
  rfl

theorem assignAt_of_isSome (hf : h.Outward f gs) (hd : gs[d]? = some g)
    (hg : (h.getIn? g name).isSome) (v : Value) :
    h.assignAt d f name v = (true, h.define g name v) := by
  rw [hf.getElem?_eq] at hd
  rw [assignAt, ownerAt?, hd]
  dsimp only
  rw [if_pos hg]

/-- For every environment, name and value, reading and writing outward and at a distance have that
much to do with each other. -/
theorem access (hf : h.Outward f gs) (ho : h.Ordered) (name : String) (v : Value) :
    h.Access f gs name v where
  nearest d g hg := by
    have howner := hf.owner?_of_nearest ho hg
    have hget : h.get? f name = h.getIn? g name := by rw [get?, howner]
    have hassign : h.assign f name v = (true, h.define g name v) := by rw [assign, howner]
    refine ⟨?_, hget, ?_, by rw [hassign], ?_⟩
    · rw [hget, getAt?, ← hf.getElem?_eq, hg.link]
    · rw [hassign, hf.assignAt_of_isSome hg.link hg.binds]
    · rw [hassign]
      exact rebound_define hg.binds v
  there d g hd := by
    refine ⟨by rw [getAt?, ← hf.getElem?_eq, hd], fun hg => ?_, fun hg => ?_⟩
    · rw [hf.assignAt_of_isSome hd hg]
      exact ⟨rfl, rebound_define hg v⟩
    · rw [hf.getElem?_eq] at hd
      simp [assignAt, ownerAt?, hd, hg]
  beyond d hd := by
    have hnone : h.ancestor? d f = none := by rw [← hf.getElem?_eq, List.getElem?_eq_none hd]
    rw [getAt?, assignAt, ownerAt?, hnone]
    exact ⟨rfl, rfl⟩
  absent hgs := by
    have hnone : h.owner? f name = none := by
      rw [hf.owner?_eq ho, List.find?_eq_none]
      intro g hg
      rw [hgs g hg]
      decide
    rw [get?, assign, hnone]
    exact ⟨rfl, rfl⟩

end Outward

end Heap

/-! ## On a machine -/

namespace Eval

variable {m : Machine} {id : ExprId} {name : Identifier} {v : Value} {hops : Nat}

theorem lookup_of_undefined
    (hundefined : m.lookup id name.name = .error (.undefinedVariable name.name)) :
    lookup id name.name name.span m =
      .error (.error ⟨name.span, .undefinedVariable name.name⟩) m := by
  rw [lookup, EStateM.get_bind_apply, hundefined]
  rfl

theorem lookup_of_none (hid : m.distances[id]? = some hops)
    (hnone : m.heap.getAt? hops m.frame name.name = none) :
    lookup id name.name name.span m =
      .error (.error ⟨name.span, .undefinedVariable name.name⟩) m :=
  lookup_of_undefined (by simp only [Machine.lookup, hid, hnone])

theorem lookup_of_none_global (hid : m.distances[id]? = none)
    (hnone : m.heap.get? Heap.globals name.name = none) :
    lookup id name.name name.span m =
      .error (.error ⟨name.span, .undefinedVariable name.name⟩) m :=
  lookup_of_undefined (by simp only [Machine.lookup, hid, hnone])

/-- An assignment that finds no variable changes nothing. -/
theorem assigned_of_false {write : Machine → Bool × Heap} (hw : write m = (false, m.heap)) :
    assigned name write m = .error (.error ⟨name.span, .undefinedVariable name.name⟩) m := by
  have hwrite : (modifyGet fun m => ((write m).1, { m with heap := (write m).2 }) : Eval Bool) m =
      .ok false m := by rw [EStateM.modifyGet_apply, hw]
  exact EStateM.bind_of_ok hwrite _

end Eval

namespace Heap

variable {h : Heap} {f : FrameId} {gs : List FrameId}

/-- What is not found is undefined, and not finding it changes nothing. -/
structure Refuses (f : FrameId) (name : Identifier) (v : Value) (m : Machine) : Prop where
  readAt : ∀ id d, m.distances[id]? = some d → m.heap.getAt? d f name.name = none →
    Eval.lookup id name.name name.span m =
      .error (.error ⟨name.span, .undefinedVariable name.name⟩) m
  writeAt : ∀ id d, m.distances[id]? = some d → (m.heap.assignAt d f name.name v).1 = false →
    Eval.assign id name v m = .error (.error ⟨name.span, .undefinedVariable name.name⟩) m
  read : ∀ id, m.distances[id]? = none → f = globals → m.heap.get? f name.name = none →
    Eval.lookup id name.name name.span m =
      .error (.error ⟨name.span, .undefinedVariable name.name⟩) m
  write : (m.heap.assign f name.name v).1 = false →
    Eval.assignNearest name v m = .error (.error ⟨name.span, .undefinedVariable name.name⟩) m

theorem refuses (m : Machine) (name : Identifier) (v : Value) : Refuses m.frame name v m where
  readAt id d hid hnone := Eval.lookup_of_none hid hnone
  writeAt id d hid hfalse := by
    refine Eval.assigned_of_false ?_
    rw [hid]
    dsimp only
    unfold assignAt at hfalse ⊢
    split at hfalse
    · cases hfalse
    · rfl
  read id hid hframe hnone := Eval.lookup_of_none_global hid (hframe ▸ hnone)
  write hfalse := by
    refine Eval.assigned_of_false ?_
    unfold assign at hfalse ⊢
    split at hfalse
    · cases hfalse
    · rfl

/-- For every environment, name and value: walking outward and going by the distance of the nearest
frame that has the variable are the same, and change the variable of that frame alone; at another
distance it is another frame's, or undefined. -/
theorem Ordered.distances_agree (ho : h.Ordered) (hf : h.Outward f gs) (name : Identifier)
    (v : Value) :
    h.Access f gs name.name v ∧
      ∀ m : Machine, m.heap = h → m.frame = f → Refuses f name v m :=
  ⟨hf.access ho name.name v, fun m _ hframe => hframe ▸ refuses m name v⟩

/-- A variable two frames out, of the innermost of three frames. -/
theorem distances_agree_three : ∃ (h : Heap) (f : FrameId) (gs : List FrameId) (v : Value),
    h.Ordered ∧ h.Outward f gs ∧ h.NearestFrame gs "a" 2 ⟨1⟩ ∧
      h.getAt? 2 f "a" = h.get? f "a" ∧ h.assignAt 2 f "a" v = h.assign f "a" v ∧
      h.assignAt 1 f "a" v = (false, h) := by
  let outer := (start.newFrame globals (.ofPairs [("a", .boolean true)])).2
  let middle := (outer.newFrame ⟨1⟩ ∅).2
  let inner := (middle.newFrame ⟨2⟩ ∅).2
  have ho : inner.Ordered := ((Ordered.start.newFrame (by decide) _).newFrame (by decide) _).newFrame
    (by decide) _
  have hf : inner.Outward ⟨3⟩ [⟨3⟩, ⟨2⟩, ⟨1⟩, ⟨0⟩] :=
    .inside rfl (.inside rfl (.inside rfl (.last rfl)))
  have hnearest : inner.NearestFrame [⟨3⟩, ⟨2⟩, ⟨1⟩, ⟨0⟩] "a" 2 ⟨1⟩ := by
    refine ⟨rfl, rfl, fun i hi g hg => ?_⟩
    match i, hi with
    | 0, _ => cases hg; rfl
    | 1, _ => cases hg; rfl
  obtain ⟨haccess, -⟩ := ho.distances_agree hf ⟨"a", .nowhere⟩ (.boolean false)
  obtain ⟨hget, -, hassign, -⟩ := haccess.nearest 2 ⟨1⟩ hnearest
  exact ⟨inner, ⟨3⟩, _, .boolean false, ho, hf, hnearest, hget, hassign,
    (haccess.there 1 ⟨2⟩ rfl).2.2 rfl⟩

end Heap

end Lox

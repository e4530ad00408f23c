import Lox.Heap.Basic

/-!
# Reading what was written

What a frame holds after a variable has been defined in some frame, and that frames stay where they
are: defining changes no `enclosing`, and new frames come after all others.  Walks from the frame of
the globals end there.

    (h.define f a v).getIn? g b =
      if f = g ∧ a = b ∧ f.index < h.frames.size then some v else h.getIn? g b   (getIn?_define)
-/

namespace Lox.Heap

/-! ## Defining -/

theorem size_frames_define (h : Heap) (f : FrameId) (name : String) (v : Value) :
    (h.define f name v).frames.size = h.frames.size := by
  simp [define]

theorem getElem?_frames_define (h : Heap) (f : FrameId) (name : String) (v : Value) (i : Nat) :
    (h.define f name v).frames[i]? =
      if f.index = i then h.frames[i]?.map fun frame =>
        { frame with bindings := frame.bindings.insert name v }
      else h.frames[i]? := by
  simp only [define, Array.getElem?_modify]

theorem getIn?_define (h : Heap) (f g : FrameId) (a b : String) (v : Value) :
    (h.define f a v).getIn? g b =
      if f = g ∧ a = b ∧ f.index < h.frames.size then some v else h.getIn? g b := by
  unfold getIn?
  rw [getElem?_frames_define]
  by_cases hf : f.index = g.index
  · have hfg : f = g := by cases f; cases g; simp_all
    subst hfg
    rcases Nat.lt_or_ge f.index h.frames.size with hlt | hge
    · rw [Array.getElem?_eq_getElem hlt]
      by_cases hab : a = b <;> simp [hab, hlt]
    · rw [Array.getElem?_eq_none hge]
      have : ¬f.index < h.frames.size := by omega
      simp [this]
  · have hfg : f ≠ g := by rintro rfl; exact hf rfl
    simp [hf, hfg]

theorem enclosing?_define (h : Heap) (f : FrameId) (name : String) (v : Value) (g : FrameId) :
    (h.define f name v).enclosing? g = h.enclosing? g := by
  unfold enclosing?
  rw [getElem?_frames_define]
  by_cases hf : f.index = g.index
  · rw [if_pos hf]; cases h.frames[g.index]? <;> rfl
  · rw [if_neg hf]

/-- Defining a variable moves no frame. -/
theorem ancestor?_define (h : Heap) (f : FrameId) (name : String) (v : Value) (hops : Nat)
    (g : FrameId) : (h.define f name v).ancestor? hops g = h.ancestor? hops g := by
  induction hops generalizing g with
  | zero => rfl
  | succ hops ih => simp only [ancestor?, enclosing?_define, ih]

/-! ## Globals -/

/-- There is no frame before that of the globals. -/
theorem owner?_globals (h : Heap) (name : String) : h.owner? globals name =
    if (h.getIn? globals name).isSome then some globals else none := by
  rw [owner?]
  split
  · rfl
  · split
    · exact if_neg (Nat.not_lt_zero _)
    · rfl

theorem get?_globals (h : Heap) (name : String) : h.get? globals name = h.getIn? globals name := by
  unfold get?
  rw [owner?_globals]
  cases hv : h.getIn? globals name <;> simp [hv]

theorem assign_globals (h : Heap) (name : String) (v : Value) : h.assign globals name v =
    if (h.getIn? globals name).isSome then (true, h.define globals name v) else (false, h) := by
  unfold assign
  rw [owner?_globals]
  cases h.getIn? globals name <;> rfl

/-! ## New frames -/

theorem getIn?_newFrame (h : Heap) (enclosing : FrameId) (bindings : Table Value)
    (g : FrameId) (name : String) :
    (h.newFrame enclosing bindings).2.getIn? g name =
      if g.index = h.frames.size then bindings.find? name else h.getIn? g name := by
  unfold getIn? newFrame
  by_cases hg : g.index = h.frames.size
  · simp [hg]
  · simp [Array.getElem?_push, hg]

end Lox.Heap

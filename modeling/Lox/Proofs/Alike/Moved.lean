import Lox.Proofs.Alike.Tokens
import Lox.Proofs.Token.Tiling

/-!
# One text in two places

A span has only its ends, and says nothing of the text that they are in.  To tell whether it is
about a text one can move the text: behind empty lines the same is read from it, and what is about
it goes down with it.

    ofSource (lowered k source) = (ofSource source).map (moved (.down k))         (ofSource_lowered)
-/

namespace Lox

/-! ## Empty lines before a text -/

/-- The text behind `k` empty lines. -/
def Text.lowered : Nat → String → String
  | 0, source => source
  | k + 1, source => "\n" ++ lowered k source

/-- How far it has moved there. -/
def Offset.down (k : Nat) : Offset := ⟨k, k⟩

theorem Token.ofSource_empty : ofSource "" = [⟨.endOfFile, ⟨.start, .start⟩⟩] := allFrom_nil _

theorem Token.ofSource_lowered (k : Nat) (source : String) :
    ofSource (Text.lowered k source) = (ofSource source).map (moved (.down k)) := by
  induction k with
  | zero => exact (List.map_id _).symm
  | succ k ih =>
    obtain ⟨ts, e, hempty, hjoined⟩ := ofSource_joined "" (Text.lowered k source) (by
      rw [ofSource_empty]
      rintro t ht e
      rw [List.mem_singleton.1 ht]
      nofun)
    rw [ofSource_empty] at hempty
    obtain ⟨rfl, -⟩ := List.append_inj' ((List.nil_append _).trans hempty) rfl
    rw [List.nil_append, ih, List.map_map] at hjoined
    exact hjoined

/-! ## Parts of a text -/

namespace Position

theorem byte_min (p q : Position) : (min p q).byte = min p.byte q.byte := by
  show (if p ≤ q then p else q).byte = _
  split
  all_goals
    next h =>
    rw [le_def] at h
    omega

theorem byte_max (p q : Position) : (max p q).byte = max p.byte q.byte := by
  show (if p ≤ q then q else p).byte = _
  split
  all_goals
    next h =>
    rw [le_def] at h
    omega

theorem moved_injective (d : Offset) : Function.Injective (Position.moved d) := by
  rintro ⟨byte, line, column⟩ ⟨byte', line', column'⟩ h
  simp only [moved, mk.injEq, Nat.add_right_cancel_iff] at h ⊢
  exact h

end Position

namespace Span

theorem moved_injective (d : Offset) : Function.Injective (Span.moved d) := by
  rintro ⟨start, stop⟩ ⟨start', stop'⟩ h
  obtain ⟨hstart, hstop⟩ := mk.inj h
  exact congrArg₂ mk (Position.moved_injective d hstart) (Position.moved_injective d hstop)

/-- What moves down a line is elsewhere then. -/
theorem moved_down_ne (a : Span) : a.moved (.down 1) ≠ a := by
  intro h
  have hbyte : a.start.byte + 1 = a.start.byte := congrArg (·.start.byte) h
  omega

/-- Both ends are in the text, in their order. -/
structure Within (source : String) (a : Span) : Prop where
  order : a.start.byte ≤ a.stop.byte
  stop : a.stop.byte ≤ source.utf8ByteSize

variable {source : String} {a b : Span}

theorem Within.extend (ha : a.Within source) (hb : b.Within source) :
    (a.extend b).Within source := by
  obtain ⟨horder, hstop⟩ := ha
  obtain ⟨horder', hstop'⟩ := hb
  refine ⟨?_, ?_⟩
  · rw [Span.extend, Position.byte_min, Position.byte_max]
    omega
  · rw [Span.extend, Position.byte_max]
    omega

theorem Within.head (ha : a.Within source) (n : Nat) : (a.head n).Within source := by
  obtain ⟨horder, hstop⟩ := ha
  refine ⟨?_, ?_⟩
  · rw [Span.head, Position.byte_min]
    dsimp only
    omega
  · rw [Span.head, Position.byte_min]
    omega

/-- The two are one part of the text, which has moved by the two offsets. -/
def SamePart (source : String) (d d' : Offset) (b b' : Span) : Prop :=
  ∃ a : Span, a.Within source ∧ b = a.moved d ∧ b' = a.moved d'

/-- The two are one part of the text, which has moved by the two offsets, or one span altogether. -/
def SamePlace (source : String) (d d' : Offset) (b b' : Span) : Prop :=
  SamePart source d d' b b' ∨ b = b'

end Span

/-- What is put together from parts of the text is a part of it. -/
theorem Likeness.regular_samePart (source : String) (d d' : Offset) :
    Likeness.Regular ⟨Eq, Span.SamePart source d d'⟩ where
  next := (regular_moved d).next
  extend := by
    rintro _ _ _ _ ⟨a, ha, rfl, rfl⟩ ⟨b, hb, rfl, rfl⟩
    exact ⟨a.extend b, ha.extend hb, (regular_moved d).extend rfl rfl,
      (regular_moved d').extend rfl rfl⟩
  head := by
    rintro _ _ n ⟨a, ha, rfl, rfl⟩
    exact ⟨a.head n, ha.head n, (regular_moved d).head n rfl, (regular_moved d').head n rfl⟩
  order := by
    rintro _ _ _ _ ⟨a, -, rfl, rfl⟩ ⟨b, -, rfl, rfl⟩
    exact ((regular_moved d).order rfl rfl).symm.trans ((regular_moved d').order rfl rfl)

theorem Token.within_of_mem {source : String} {t : Token} (ht : t ∈ ofSource source) :
    t.span.Within source := by
  obtain ⟨front, word, after, hsplit, hcovers⟩ := (tiles_ofSource source).covers ht
  rw [hcovers.span]
  refine ⟨byte_behind_append_le front word, ?_⟩
  have hle := byte_behind_append_le (front ++ word) after
  rw [← hsplit] at hle
  refine Nat.le_trans hle (Nat.le_of_eq ?_)
  show (String.ofList source.toList).utf8ByteSize = _
  rw [String.ofList_toList]

/-- The tokens of a text, in two places. -/
theorem Token.forall₂_samePart (source : String) (d d' : Offset) :
    List.Forall₂ (Token.Alike ⟨Eq, Span.SamePart source d d'⟩) ((ofSource source).map (moved d))
      ((ofSource source).map (moved d')) := by
  rw [List.forall₂_map_left_iff, List.forall₂_map_right_iff, List.forall₂_same]
  exact fun t ht => ⟨rfl, t.span, within_of_mem ht, rfl, rfl⟩

end Lox

import Lox.Token.Lexer

/-!
# Reading token by token

The place behind a text, one token at a time, and all of them one after the other:

    allFrom c = if t.kind.isEndOfFile then [t] else t :: allFrom u                (allFrom_of_next)
-/

namespace Lox

namespace Position

theorem advanceBy_append (p : Position) (cs ds : List Char) :
    p.advanceBy (cs ++ ds) = (p.advanceBy cs).advanceBy ds :=
  List.foldl_append

theorem byte_advance (p : Position) (c : Char) : (p.advance c).byte = p.byte + c.utf8Size := by
  unfold advance
  split <;> rfl

theorem byte_advanceBy (p : Position) (cs : List Char) :
    (p.advanceBy cs).byte = p.byte + (String.ofList cs).utf8ByteSize := by
  induction cs generalizing p with
  | nil => simp [advanceBy]
  | cons c cs ih =>
    show ((p.advance c).advanceBy cs).byte = _
    rw [ih, byte_advance, String.ofList_cons, String.utf8ByteSize_append,
      String.utf8ByteSize_singleton, Nat.add_assoc]

theorem line_advanceBy (p : Position) (cs : List Char) :
    (p.advanceBy cs).line = p.line + cs.count '\n' := by
  induction cs generalizing p with
  | nil => rfl
  | cons c cs ih =>
    show ((p.advance c).advanceBy cs).line = _
    rw [ih, List.count_cons]
    unfold advance
    by_cases hc : c = '\n'
    · simp only [hc, if_true, beq_self_eq_true]
      omega
    · simp [hc]

end Position

namespace Token

variable {c c' : Cursor}

theorem lexOne_ne_endOfFile (hne : c.rest ≠ []) : (lexOne c).1 ≠ some .endOfFile := by
  unfold lexOne
  split
  · next he => exact absurd he hne
  dsimp only
  split
  · unfold lexSlash
    split
    · nofun
    · split <;> nofun
    · nofun
  split
  · unfold lexEqual; split <;> nofun
  split
  · unfold lexEqual; split <;> nofun
  split
  · unfold lexEqual; split <;> nofun
  split
  · split
    · nofun
    · unfold lexEqual; split <;> nofun
  split
  · unfold lexString; dsimp only; split <;> nofun
  split
  · unfold lexNumber
    dsimp only
    split
    · split <;> nofun
    · nofun
  split
  · unfold lexName; dsimp only; split <;> nofun
  split <;> nofun

theorem next_of_some {k : Kind} {u : Cursor} (h : lexOne (c.takeWhile Text.isBlank) = (some k, u)) :
    next c = (⟨k, ⟨(c.takeWhile Text.isBlank).position, u.position⟩⟩, u) := by
  rw [next]
  split
  · next h' => rw [h] at h'; cases h'; rfl
  · next h' => rw [h] at h'; cases h'

theorem next_of_none {u : Cursor} (h : lexOne (c.takeWhile Text.isBlank) = (none, u)) :
    next c = next u := by
  rw [next]
  split
  · next h' => rw [h] at h'; cases h'
  · next h' => rw [h] at h'; cases h'; rfl

theorem next_congr (h : c.takeWhile Text.isBlank = c'.takeWhile Text.isBlank) :
    next c = next c' := by
  rcases he : lexOne (c.takeWhile Text.isBlank) with ⟨_ | k, u⟩
  · exact (next_of_none he).trans (next_of_none (h ▸ he)).symm
  · rw [next_of_some he, next_of_some (h ▸ he : lexOne (c'.takeWhile _) = _), h]

/-- A blank is skipped. -/
theorem next_blank {ch : Char} (hblank : Text.isBlank ch = true) (cs : List Char) (p : Position) :
    next ⟨ch :: cs, p⟩ = next ⟨cs, p.advance ch⟩ := by
  refine next_congr ?_
  rw [Cursor.takeWhile, Cursor.takeWhile, List.dropWhile_cons_of_pos hblank,
    List.takeWhile_cons_of_pos hblank]
  rfl

theorem allFrom_of_next {t : Token} {u : Cursor} (h : next c = (t, u)) :
    allFrom c = if t.kind.isEndOfFile then [t] else t :: allFrom u := by
  rw [allFrom]
  split
  next h' =>
  rw [h] at h'
  cases h'
  split <;> rfl

theorem allFrom_congr (h : next c = next c') : allFrom c = allFrom c' := by
  rw [allFrom_of_next (Prod.ext rfl rfl), h]
  exact (allFrom_of_next (Prod.ext rfl rfl)).symm

theorem allFrom_nil (p : Position) : allFrom ⟨[], p⟩ = [⟨.endOfFile, ⟨p, p⟩⟩] :=
  allFrom_of_next (u := ⟨[], p⟩) (next_of_some (c := ⟨[], p⟩) (k := .endOfFile) rfl)

end Token

end Lox

import Lox.Proofs.Alike.Parse
import Lox.Proofs.Token.Layout

/-!
# Layout does not matter

Two sources in which the same texts of tokens are laid out in whatever way are read as the same
tokens, and since no rule looks at the place of a token they are read as the same tree but for its
spans, or with the same errors:

    LaidOut (the texts of the tokens of source) source'.toList →
      Parser.Alike .upToSpans (Tree.parse source n) (Tree.parse source' n)             (layout_irrelevant)
-/

namespace Lox

open Token (LaidOut Separator Spaced)

/-- Everything but spans is compared. -/
def Likeness.upToSpans : Likeness := ⟨Eq, fun _ _ => True⟩

theorem Likeness.closed_upToSpans : Likeness.upToSpans.Closed where
  next := by rintro _ _ ⟨⟩; rfl
  extend _ _ := trivial

/-- Between the tokens of a source any fillers may stand that keep them apart: it is read as the
same tokens, as the same tree but for spans, and with errors of the same kinds. -/
theorem layout_irrelevant {source source' : String}
    (hv : ∀ t ∈ Token.ofSource source, ∀ e, t.kind ≠ .invalid e) {texts : List String}
    (htexts : (Token.ofSource source).dropLast.map (·.span.text? source) = texts.map some)
    (h : LaidOut (texts.map String.toList) source'.toList) :
    (Token.ofSource source').map Token.kind = (Token.ofSource source).map Token.kind ∧
    ∀ firstId, Parser.Alike .upToSpans (Tree.parse source firstId) (Tree.parse source' firstId) := by
  have hkinds := Token.kinds_of_laidOut hv htexts h
  refine ⟨hkinds, fun firstId => Tree.parse_of_tokens Likeness.closed_upToSpans trivial ?_ rfl⟩
  rw [← List.forall₂_eq_eq_eq, List.forall₂_map_left_iff, List.forall₂_map_right_iff] at hkinds
  exact hkinds.flip.imp fun _ _ hkind => ⟨hkind.symm, trivial⟩

/-- `a/b;` may be written over two lines, with comments beside the division sign. -/
theorem layout_irrelevant_comments :
    (∀ t ∈ Token.ofSource "a/b;", ∀ e, t.kind ≠ .invalid e) ∧
    LaidOut (["a", "/", "b", ";"].map String.toList) "a /*/**/*/ / //;\nb\t;".toList ∧
    ∀ firstId, Parser.Alike .upToSpans (Tree.parse "a/b;" firstId)
      (Tree.parse "a /*/**/*/ / //;\nb\t;" firstId) := by
  have htokens : Token.ofSource "a/b;" = [⟨.identifier "a", .onLine 0 1⟩,
      ⟨.symbol .slash, .onLine 1 2⟩, ⟨.identifier "b", .onLine 2 3⟩,
      ⟨.symbol .semicolon, .onLine 3 4⟩, ⟨.endOfFile, .onLine 4 4⟩] := by cbv
  have hv : ∀ t ∈ Token.ofSource "a/b;", ∀ e, t.kind ≠ .invalid e := by
    simp [htokens]
  have htexts : (Token.ofSource "a/b;").dropLast.map (·.span.text? "a/b;") =
      ["a", "/", "b", ";"].map some := by
    rw [htokens]
    cbv
  have hcomment : Separator (' ' :: ('/' :: '*' :: ('/' :: '*' :: [] ++ '*' :: '/' :: []) ++
      '*' :: '/' :: [' '])) :=
    .blank (by decide) (.block (.nested .nil .nil) (.blank (by decide) .nil))
  have hline : Separator (' ' :: ('/' :: '/' :: [';'] ++ ['\n'])) :=
    .blank (by decide) (.line (by decide) .nil)
  have htab : Separator ['\t'] := .blank (by decide) .nil
  have h : LaidOut (["a", "/", "b", ";"].map String.toList) "a /*/**/*/ / //;\nb\t;".toList :=
    @LaidOut.cons [] ['a'] _ _ .nil (@Spaced.cons _ ['/'] _ _ hcomment
      (@Spaced.cons _ ['b'] _ _ hline (@Spaced.cons _ [';'] _ _ htab .nil)))
  exact ⟨hv, h, (layout_irrelevant hv htexts h).2⟩

end Lox

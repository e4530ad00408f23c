import Lox.Proofs.Syntax.Complete
import Lox.Proofs.Syntax.Parsed

/-!
# The language that is read

A text is read as a program just if the grammar derives it, and it is read as the one tree that
the grammar gives it.

    Tree.parse source firstId = .ok tree → IsProgram Within source tree.body
    IsProgram fits source body → Stmt.bares body = Stmt.bares tree.body         (parse_iff_isProgram)
-/

namespace Lox

open Lox.Parser Grammar

/-! ## Valid tokens -/

theorem Grammar.valid_names {params : List Identifier} {e : LexError} :
    .invalid e ∉ names params := by
  cases params with
  | nil => simp [names]
  | cons name params => simp [names]

theorem Grammar.valid_extending {superclass : Option Reference} {e : LexError} :
    .invalid e ∉ extending superclass := by
  cases superclass with
  | none => simp [extending]
  | some r => simp [extending]

theorem Grammar.valid_composing {traits : List Reference} {e : LexError} :
    .invalid e ∉ composing traits := by
  cases traits with
  | nil => simp [composing]
  | cons r rs => simpa [composing] using valid_names

theorem Grammar.Derives.valid {fits : Nat → Prop} {ph : Phrase} {ts : Tokens}
    (h : Derives fits ph ts) (e : LexError) : .invalid e ∉ ts := by
  induction h <;> simp_all [valid_names, valid_extending, valid_composing]

/-! ## Programs -/

/-- The tokens of the text are derived as a program with the tree. -/
def Grammar.IsProgram (fits : Nat → Prop) (source : String) (body : List Stmt) : Prop :=
  ∃ ts, (Token.ofSource source).map Token.kind = ts ++ [.endOfFile] ∧
    Derives fits (.declarations body) ts

variable {source : String} {fits : Nat → Prop} {body : List Stmt}

theorem Grammar.IsProgram.valid (h : IsProgram fits source body) :
    ∀ t ∈ Token.ofSource source, ∀ e, t.kind ≠ .invalid e := by
  obtain ⟨ts, hts, hd⟩ := h
  intro t ht e he
  have hm := List.mem_map_of_mem (f := Token.kind) ht
  rw [hts, he, List.mem_append] at hm
  rcases hm with hm | hm
  · exact hd.valid e hm
  · simp at hm

theorem Parser.State.start_of_valid {tokens : List Token} (firstId : ExprId)
    (h : ∀ t ∈ tokens, ∀ e, t.kind ≠ .invalid e) :
    (start tokens firstId).Clean ∧ (start tokens firstId).errors = [] := by
  cases tokens with
  | nil => exact ⟨by simp [start, advance, shift, Clean], rfl⟩
  | cons t ts =>
    have hshift : start (t :: ts) firstId = ⟨⟨.endOfFile, .nowhere⟩, t, ts, [], firstId⟩ := by
      rw [start, advance, shift]
      split
      · next e he => exact absurd he (h t List.mem_cons_self e)
      · rfl
    rw [hshift]
    exact ⟨fun t' ht' => h t' (List.mem_cons_of_mem t ht'), rfl⟩

/-- What the rule for programs makes of the tokens of a text. -/
theorem Grammar.IsProgram.run (h : IsProgram fits source body) (firstId : ExprId) :
    ∃ body' s, program (recover (declaration (fuelFor (Token.ofSource source).length)))
        (fuelFor (Token.ofSource source).length) (.start (Token.ofSource source) firstId) =
          .ok body' s ∧
      ((∀ n, fits n → Within n) → s.errors = []) ∧ Stmt.bares body' = Stmt.bares body := by
  obtain ⟨hclean, herrors⟩ := State.start_of_valid firstId h.valid
  obtain ⟨ts, hts, hd⟩ := h
  have hlen : (Token.ofSource source).length = ts.length + 1 := by
    simpa using congrArg List.length hts
  have hne : Token.ofSource source ≠ [] := by
    rintro hn
    simp [hn] at hlen
  have hinput := State.input_start hne herrors
  obtain ⟨-, hprogram⟩ := taken_of_derives hd (fuelFor (Token.ofSource source).length)
    (fuelFor (Token.ofSource source).length) (by rw [fuelFor]; omega) (by rw [fuelFor]; omega)
  obtain ⟨_, s, hrun, -, -, he, body', rfl, hbody⟩ :=
    hprogram (by simp) _ hclean (hinput.trans hts)
  exact ⟨body', s, hrun, fun hf => (he hf).trans herrors, hbody⟩

/-- A text is read as a program if all its tokens are valid and the grammar derives them with no
list longer than allowed, and only then.  The grammar gives it one tree, with long lists or without,
and this is the tree that it is read as. -/
theorem parse_iff_isProgram (source : String) (firstId : ExprId) :
    ((∃ tree, Tree.parse source firstId = .ok tree) ↔
      (∀ t ∈ Token.ofSource source, ∀ e, t.kind ≠ .invalid e) ∧
        ∃ body, IsProgram Within source body) ∧
    ∀ tree, Tree.parse source firstId = .ok tree →
      IsProgram Within source tree.body ∧
        ∀ body, IsProgram (fun _ => True) source body → Stmt.bares body = Stmt.bares tree.body := by
  have hsound (tree : Tree) (h : Tree.parse source firstId = .ok tree) :
      IsProgram Within source tree.body := by
    obtain ⟨ts, hts, hd, -⟩ := derives_of_parse h
    exact ⟨ts, hts, hd⟩
  refine ⟨⟨fun ⟨tree, h⟩ => ⟨(hsound tree h).valid, _, hsound tree h⟩, ?_⟩, fun tree h =>
    ⟨hsound tree h, fun body hbody => ?_⟩⟩
  · rintro ⟨-, body, h⟩
    obtain ⟨body', s, hrun, he, -⟩ := h.run firstId
    refine ⟨⟨body', s.nextId⟩, ?_⟩
    rw [Tree.parse, run?, hrun]
    dsimp only [Option.getD_some]
    rw [he fun _ hn => hn]
    rfl
  · obtain ⟨body', s, hrun, -, hbare⟩ := hbody.run firstId
    rw [Tree.parse, run?, hrun] at h
    dsimp only [Option.getD_some] at h
    split at h
    · cases h
      exact hbare.symm
    · cases h

end Lox

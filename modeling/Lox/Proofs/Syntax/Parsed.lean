import Mathlib
import Lox.Proofs.Syntax.Sound
import Lox.Proofs.Syntax.WellFormed

/-!
# Trees that are read

The tree of a text is derived by the grammar from the text's tokens.  So it is well-formed, since
the names of the grammar are no keywords, and no two of its expressions share an identity.

    Tree.parse source firstId = .ok tree →
      Stmt.AllWellFormed tree.body ∧ Fresh firstId tree.nextId (Stmt.idsOf tree.body)
                                                  (wellFormed_of_parse, fresh_of_parse)
-/

namespace Lox

open Lox.Parser Grammar

/-! ## Tokens of a text -/

theorem Token.allFrom_ended (c : Cursor) :
    ∃ ks, (allFrom c).map Token.kind = ks ++ [.endOfFile] ∧ .endOfFile ∉ ks := by
  fun_induction allFrom c with
  | case1 c t stop h ht => exact ⟨[], by simp [(isEndOfFile_iff _).1 ht], by simp⟩
  | case2 c t stop h ht _ ih =>
    obtain ⟨ks, hk, he⟩ := ih
    refine ⟨t.kind :: ks, by simp [hk], fun hm => ?_⟩
    rcases List.mem_cons.1 hm with hm | hm
    · exact ht ((isEndOfFile_iff _).2 hm.symm)
    · exact he hm

theorem Token.plain_of_lexName {c : Cursor} {name : String}
    (h : (lexName c).1 = .identifier name) : Name.Plain name := by
  unfold lexName at h
  dsimp only at h
  split at h
  · cases h
  · next hk => cases h; exact hk

/-- What is read as an identifier is no keyword, so it is a plain name. -/
theorem Token.plain_of_lexOne {c : Cursor} {name : String}
    (h : (lexOne c).1 = some (.identifier name)) : Name.Plain name := by
  unfold lexOne at h
  split at h
  · cases h
  dsimp only at h
  split at h
  · unfold lexSlash at h
    split at h
    · cases h
    · split at h <;> cases h
    · cases h
  split at h
  · unfold lexEqual at h; split at h <;> cases h
  split at h
  · unfold lexEqual at h; split at h <;> cases h
  split at h
  · unfold lexEqual at h; split at h <;> cases h
  split at h
  · split at h
    · cases h
    · unfold lexEqual at h; split at h <;> cases h
  split at h
  · unfold lexString at h; dsimp only at h; split at h <;> cases h
  split at h
  · unfold lexNumber at h
    dsimp only at h
    split at h
    · split at h <;> cases h
    · cases h
  split at h
  · exact plain_of_lexName (Option.some.inj h)
  split at h <;> cases h

theorem Token.plain_of_next (c : Cursor) {name : String}
    (h : (next c).1.kind = .identifier name) : Name.Plain name := by
  fun_induction next c with
  | case1 c start kind stop hk => exact plain_of_lexOne (c := start) (by rw [hk, ← h])
  | case2 c start stop hk _ ih => exact ih h

theorem Token.plain_of_mem_allFrom (c : Cursor) {name : String}
    (h : .identifier name ∈ (allFrom c).map Token.kind) : Name.Plain name := by
  fun_induction allFrom c with
  | case1 c t stop hn ht =>
    rw [List.map_singleton, List.mem_singleton] at h
    exact plain_of_next c (by rw [hn, ← h])
  | case2 c t stop hn ht _ ih =>
    rcases List.mem_cons.1 h with h | h
    · exact plain_of_next c (by rw [hn, ← h])
    · exact ih h

/-! ## Derived trees -/

theorem Name.Plain.of_mem_names {params : List Identifier}
    (h : ∀ name, .identifier name ∈ names params → Name.Plain name) : ∀ p ∈ params, p.Plain := by
  intro p hp
  cases params with
  | nil => cases hp
  | cons first rest =>
    refine h _ ?_
    rcases List.mem_cons.1 hp with rfl | hp
    · simp [names]
    · simp only [names, List.mem_cons, List.mem_flatMap]
      exact .inr ⟨p, hp, by simp⟩

def Grammar.Phrase.WellFormed : Phrase → Prop
  | .expr _ e => e.WellFormed
  | .items es | .furtherItems es => Expr.AllWellFormed es
  | .optional e => ∀ e' ∈ e, e'.WellFormed
  | .function _ f => f.name.Plain ∧ f.WellFormed
  | .members methods statics => Function.AllWellFormed methods ∧ Function.AllWellFormed statics
  | .clause init => ∀ s ∈ init, s.isClause = true ∧ s.WellFormed
  | .statement s => s.isDeclaration = false ∧ s.WellFormed
  | .declaration s => s.WellFormed
  | .declarations ss => Stmt.AllWellFormed ss

/-- What the grammar derives from the tokens of a text is well-formed: its names are those of
identifiers, which are plain. -/
theorem Grammar.Derives.wellFormed {fits : Nat → Prop} {ph : Phrase} {ts : Tokens}
    (h : Derives fits ph ts) (hp : ∀ name, .identifier name ∈ ts → Name.Plain name) :
    ph.WellFormed := by
  induction h with
  | looser _ ih => exact ih hp
  | assign _ ih => exact ⟨hp _ (by simp), ih fun n hm => hp n (by simp [hm])⟩
  | set _ _ ih₁ ih₂ =>
    exact ⟨ih₁ fun n hm => hp n (by simp [hm]), ih₂ fun n hm => hp n (by simp [hm])⟩
  | indexSet _ _ _ ih₁ ih₂ ih₃ =>
    exact ⟨ih₁ fun n hm => hp n (by simp [hm]), ih₂ fun n hm => hp n (by simp [hm]),
      ih₃ fun n hm => hp n (by simp [hm])⟩
  | ternary _ _ _ ih₁ ih₂ ih₃ =>
    exact ⟨ih₁ fun n hm => hp n (by simp [hm]), ih₂ fun n hm => hp n (by simp [hm]),
      ih₃ fun n hm => hp n (by simp [hm])⟩
  | logical _ _ ih₁ ih₂ =>
    exact ⟨ih₁ fun n hm => hp n (by simp [hm]), ih₂ fun n hm => hp n (by simp [hm])⟩
  | binary _ _ ih₁ ih₂ =>
    exact ⟨ih₁ fun n hm => hp n (by simp [hm]), ih₂ fun n hm => hp n (by simp [hm])⟩
  | unary _ ih => exact ih fun n hm => hp n (by simp [hm])
  | call _ _ _ ih₁ ih₂ =>
    exact ⟨ih₁ fun n hm => hp n (by simp [hm]), ih₂ fun n hm => hp n (by simp [hm])⟩
  | index _ _ ih₁ ih₂ =>
    exact ⟨ih₁ fun n hm => hp n (by simp [hm]), ih₂ fun n hm => hp n (by simp [hm])⟩
  | get _ ih => exact ih fun n hm => hp n (by simp [hm])
  | number => trivial
  | string => trivial
  | true => trivial
  | false => trivial
  | nil => trivial
  | «variable» => exact hp _ (by simp)
  | this => trivial
  | super => trivial
  | group _ ih => exact ih fun n hm => hp n (by simp [hm])
  | array _ ih => exact ih fun n hm => hp n (by simp [hm])
  | lambda _ _ ih =>
    exact ⟨.of_mem_names fun n hm => hp n (by simp [hm]), fun h => Bool.noConfusion h,
      ih fun n hm => hp n (by simp [hm])⟩
  | noItems => trivial
  | someItems _ _ ih₁ ih₂ =>
    exact ⟨ih₁ fun n hm => hp n (by simp [hm]), ih₂ fun n hm => hp n (by simp [hm])⟩
  | noFurtherItems => trivial
  | someFurtherItems _ _ ih₁ ih₂ =>
    exact ⟨ih₁ fun n hm => hp n (by simp [hm]), ih₂ fun n hm => hp n (by simp [hm])⟩
  | absent => intro e he; cases he
  | present _ ih => rintro _ ⟨⟩; exact ih hp
  | function _ _ ih =>
    exact ⟨hp _ (by simp), .of_mem_names fun n hm => hp n (by simp [hm]),
      fun h => Bool.noConfusion h,
      ih fun n hm => hp n (by simp [hm])⟩
  | getter _ ih =>
    exact ⟨hp _ (by simp), List.forall_mem_nil _, fun _ => rfl, ih fun n hm => hp n (by simp [hm])⟩
  | noMembers => exact ⟨trivial, trivial⟩
  | method _ _ ih₁ ih₂ =>
    obtain ⟨hm, hs⟩ := ih₂ fun n hm => hp n (by simp [hm])
    exact ⟨⟨(ih₁ fun n hm => hp n (by simp [hm])).2, hm⟩, hs⟩
  | static _ _ ih₁ ih₂ =>
    obtain ⟨hm, hs⟩ := ih₂ fun n hm => hp n (by simp [hm])
    exact ⟨hm, (ih₁ fun n hm => hp n (by simp [hm])).2, hs⟩
  | expression _ ih => exact ⟨rfl, ih fun n hm => hp n (by simp [hm])⟩
  | print _ ih => exact ⟨rfl, ih fun n hm => hp n (by simp [hm])⟩
  | block _ ih => exact ⟨rfl, ih fun n hm => hp n (by simp [hm])⟩
  | ifOnly _ _ ih₁ ih₂ =>
    exact ⟨rfl, ih₁ fun n hm => hp n (by simp [hm]), ih₂ fun n hm => hp n (by simp [hm]),
      trivial⟩
  | ifElse _ _ _ _ ih₁ ih₂ ih₃ =>
    exact ⟨rfl, ih₁ fun n hm => hp n (by simp [hm]), ih₂ fun n hm => hp n (by simp [hm]),
      ih₃ fun n hm => hp n (by simp [hm])⟩
  | «while» _ _ ih₁ ih₂ =>
    exact ⟨rfl, ih₁ fun n hm => hp n (by simp [hm]), ih₂ fun n hm => hp n (by simp [hm])⟩
  | «for» _ _ _ _ ih₁ ih₂ ih₃ ih₄ =>
    refine ⟨rfl, Stmt.wellFormed_for.2 ⟨ih₁ fun n hm => hp n (by simp [hm]),
      ih₂ fun n hm => hp n (by simp [hm]), ih₃ fun n hm => hp n (by simp [hm]),
      ih₄ fun n hm => hp n (by simp [hm])⟩⟩
  | «break» => exact ⟨rfl, trivial⟩
  | «continue» => exact ⟨rfl, trivial⟩
  | «return» _ ih => exact ⟨rfl, Stmt.wellFormed_return.2 (ih fun n hm => hp n (by simp [hm]))⟩
  | var => exact ⟨hp _ (by simp), trivial⟩
  | varInit _ ih => exact ⟨hp _ (by simp), ih fun n hm => hp n (by simp [hm])⟩
  | «fun» _ ih => exact ih fun n hm => hp n (by simp [hm])
  | @«class» _ name superclass traits _ _ _ _ ih =>
    obtain ⟨hm, hs⟩ := ih fun n hm => hp n (by simp [hm])
    refine ⟨hp _ (by simp), ?_, ?_, hm, hs⟩
    · rintro r ⟨⟩
      exact hp _ (by simp [extending])
    · intro r hr
      refine (Name.Plain.of_mem_names ?_ : ∀ n ∈ traits.map Reference.name, n.Plain) _
        (List.mem_map_of_mem hr)
      intro n hn
      cases traits with
      | nil => cases hr
      | cons r' rs =>
        refine hp n (.tail _ (.tail _ (List.mem_append_right _ (List.mem_append_left _ ?_))))
        exact .tail _ hn
  | trait _ ih =>
    obtain ⟨hm, hs⟩ := ih fun n hm => hp n (by simp [hm])
    exact ⟨hp _ (by simp), hm, hs⟩
  | statement _ _ ih => exact (ih hp).2
  | noDeclarations => trivial
  | someDeclarations _ _ ih₁ ih₂ =>
    exact ⟨ih₁ fun n hm => hp n (by simp [hm]), ih₂ fun n hm => hp n (by simp [hm])⟩
  | noClause => intro s hs; cases hs
  | varClause _ ih => rintro _ ⟨⟩; exact ⟨rfl, ih hp⟩
  | expressionClause _ ih => rintro _ ⟨⟩; exact ⟨rfl, (ih hp).2⟩

/-! ## Texts that are read -/

variable {source : String} {firstId : ExprId} {tree : Tree}

theorem Token.ofSource_ended (source : String) :
    ∃ ks, (ofSource source).map Token.kind = ks ++ [.endOfFile] ∧ .endOfFile ∉ ks :=
  allFrom_ended _

theorem Parser.State.input_start {tokens : List Token} (hne : tokens ≠ [])
    (h : (start tokens firstId).errors = []) :
    (start tokens firstId).input = tokens.map Token.kind := by
  cases tokens with
  | nil => exact absurd rfl hne
  | cons t ts =>
    rw [start, advance, shift] at h ⊢
    split at h
    · have := errors_shift h
      simp [report] at this
    · simp [input]

theorem Parser.State.nextId_start (tokens : List Token) :
    (start tokens firstId).nextId = firstId := nextId_advance _

/-- What a text is read as is derived from its tokens. -/
theorem derives_of_parse (h : Tree.parse source firstId = .ok tree) :
    ∃ ts, (Token.ofSource source).map Token.kind = ts ++ [.endOfFile] ∧
      Derives Within (.declarations tree.body) ts ∧
      firstId ≤ tree.nextId ∧ Fresh firstId tree.nextId (Stmt.idsOf tree.body) := by
  obtain ⟨s, hrun, he, hn⟩ := Tree.parse_eq_ok.1 h
  obtain ⟨hstart, hread⟩ :=
    reads_program (fun s => reads_recover ((rules _).declaration s)) _ _ _ _ hrun he
  have hend := Token.ofSource_ended source
  have hne : Token.ofSource source ≠ [] := by
    rintro hn
    simp [hn] at hend
  rw [← State.input_start hne hstart] at hend ⊢
  obtain ⟨ts, hi, hle, hd, hlast, hf⟩ := hread hend
  rw [State.nextId_start, hn] at hle hf
  obtain ⟨ks, hk, he⟩ := State.Ended.of_append hend hi
  refine ⟨ts, ?_, hd, hle, hf⟩
  cases ks with
  | nil => rw [hi, hk, List.nil_append]
  | cons k ks =>
    rw [State.input, hlast, List.cons_append, List.cons.injEq] at hk
    exact absurd (hk.1 ▸ List.mem_cons_self) he

theorem wellFormed_of_parse (h : Tree.parse source firstId = .ok tree) :
    Stmt.AllWellFormed tree.body := by
  obtain ⟨ts, hts, hd, -, -⟩ := derives_of_parse h
  refine hd.wellFormed fun name hm => Token.plain_of_mem_allFrom (.ofString source) ?_
  rw [← Token.ofSource, hts]
  exact List.mem_append_left _ hm

theorem fresh_of_parse (h : Tree.parse source firstId = .ok tree) :
    firstId ≤ tree.nextId ∧ Fresh firstId tree.nextId (Stmt.idsOf tree.body) := by
  obtain ⟨ts, -, -, hn, hf⟩ := derives_of_parse h
  exact ⟨hn, hf⟩

end Lox

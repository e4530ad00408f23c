import Lox.Proofs.Syntax.Laid
import Lox.Proofs.Syntax.Passes

/-!
# Trees lie on the tokens they were read from

A rule that ends well with no error reported has laid what it returns on the tokens that it has
read.

    Lays (declaration n) s fun st _ us => Laid (.stmt st) us                               (laying)
-/

namespace Lox

namespace Parser

open Grammar

theorem State.ended_of_inLine {s : State} (h : InLine s.tokens) : s.Ended := by
  obtain ⟨ts, t, hts, hend, hne⟩ := h.ended
  refine ⟨ts.map Token.kind, ?_, fun hmem => ?_⟩
  · show s.tokens.map Token.kind = _
    rw [hts, List.map_append, List.map_singleton, hend]
  · obtain ⟨a, ha, hk⟩ := List.mem_map.1 hmem
    exact hne a ha hk

/-- The tokens between two states. -/
structure Passed (s t : State) (us : List Token) : Prop where
  tokens : s.tokens = us ++ t.tokens
  previous : t.previous = us.getLast?.getD s.previous

namespace Passed

variable {s t u : State} {us vs : List Token}

theorem refl (s : State) : Passed s s [] := ⟨rfl, rfl⟩

theorem trans (h : Passed s t us) (h' : Passed t u vs) : Passed s u (us ++ vs) := by
  refine ⟨by rw [h.tokens, h'.tokens, List.append_assoc], ?_⟩
  rw [h'.previous, h.previous, List.getLast?_append]
  cases vs.getLast? with
  | none => rfl
  | some _ => rfl

theorem inLine (h : Passed s t us) (hl : InLine s.tokens) : InLine t.tokens := by
  rw [h.tokens] at hl
  exact hl.right (List.cons_ne_nil _ _)

theorem head? (h : Passed s t us) (hne : us ≠ []) : us.head? = some s.current := by
  obtain ⟨u, us, rfl⟩ := List.exists_cons_of_ne_nil hne
  exact congrArg some (List.cons.inj h.tokens).1.symm

theorem getLast? (h : Passed s t us) (hv : vs.getLast? = some s.previous) :
    (vs ++ us).getLast? = some t.previous := by
  rw [h.previous, List.getLast?_append, hv]
  cases us.getLast? with
  | none => rfl
  | some _ => rfl

/-- The span from the first of the tokens to the last. -/
theorem spans (h : Passed s t us) (hl : InLine s.tokens) (hne : us ≠ []) :
    Spans us (s.current.span.extend t.previous.span) := by
  obtain ⟨first, us, rfl⟩ := List.exists_cons_of_ne_nil hne
  have hfirst := h.head? hne
  have htokens := h.tokens
  cases hfirst
  have hlast : (s.current :: us).getLast? = some t.previous := by
    rw [h.previous, List.getLast?_cons]
    rfl
  exact (spans_singleton s.current).extend (htokens ▸ hl) (List.cons_ne_nil _ _) hlast

end Passed

/-! ## Rules -/

/-- If the rule ends well in a state without errors it has passed tokens as `Q` says. -/
def Lays {α : Type} (rule : Rule α) (s : State) (Q : α → State → List Token → Prop) : Prop :=
  ∀ a t, rule s = .ok a t → t.errors = [] →
    s.errors = [] ∧ (InLine s.tokens → ∃ us, Passed s t us ∧ Q a t us)

namespace Lays

variable {α β : Type} {s : State}

theorem pure {a : α} {Q : α → State → List Token → Prop} (h : Q a s []) :
    Lays (Pure.pure a) s Q := by
  rintro _ _ ⟨⟩ he
  exact ⟨he, fun _ => ⟨[], .refl _, h⟩⟩

theorem mono {rule : Rule α} {P Q : α → State → List Token → Prop} (h : Lays rule s P)
    (hpq : ∀ a t us, P a t us → Q a t us) : Lays rule s Q := by
  intro a t ht he
  obtain ⟨hs, h⟩ := h a t ht he
  refine ⟨hs, fun hl => ?_⟩
  obtain ⟨us, hus, hp⟩ := h hl
  exact ⟨us, hus, hpq a t us hp⟩

theorem bind {x : Rule α} {f : α → Rule β} {P : α → State → List Token → Prop}
    {Q : β → State → List Token → Prop} (hx : Lays x s P)
    (hf : ∀ a t, Lays (f a) t fun b u vs => ∀ us, P a t us → Q b u (us ++ vs)) :
    Lays (x >>= f) s Q := by
  intro b u hu he
  obtain ⟨a, t, hxt, hft⟩ := EStateM.bind_eq_ok.1 hu
  obtain ⟨het, hf⟩ := hf a t b u hft he
  obtain ⟨hes, hx⟩ := hx a t hxt het
  refine ⟨hes, fun hl => ?_⟩
  obtain ⟨us, hus, hp⟩ := hx hl
  obtain ⟨vs, hvs, hq⟩ := hf (hus.inLine hl)
  exact ⟨us ++ vs, hus.trans hvs, hq us hp⟩

theorem map {x : Rule α} {f : α → β} {Q : β → State → List Token → Prop}
    (h : Lays x s fun a => Q (f a)) : Lays (f <$> x) s Q := by
  intro b t ht he
  obtain ⟨a, hxt, rfl⟩ := EStateM.map_eq_ok.1 ht
  exact h a t hxt he

/-- With what has been passed. -/
theorem traced {rule : Rule α} {Q : α → State → List Token → Prop} (h : Lays rule s Q) :
    Lays rule s fun a t us => Q a t us ∧ Passed s t us ∧ InLine s.tokens := by
  intro a t ht he
  obtain ⟨hs, h⟩ := h a t ht he
  exact ⟨hs, fun hl => (h hl).imp fun us ⟨hus, hq⟩ => ⟨hus, hq, hus, hl⟩⟩

/-- What the rule has read is what it has passed. -/
theorem reads {rule : Rule α} {P : α → State → List Token → Prop} {R : α → State → Tokens → Prop}
    (h : Lays rule s P) (hr : Reads rule s R) :
    Lays rule s fun a t us => P a t us ∧ R a t (us.map Token.kind) := by
  intro a t ht he
  obtain ⟨hs, h⟩ := h a t ht he
  obtain ⟨-, hr⟩ := hr a t ht he
  refine ⟨hs, fun hl => ?_⟩
  obtain ⟨us, hus, hp⟩ := h hl
  obtain ⟨ts, hts, -, hr⟩ := hr (State.ended_of_inLine hl)
  have hmap : us.map Token.kind = ts := by
    have hinput : s.tokens.map Token.kind = ts ++ t.tokens.map Token.kind := hts
    rw [hus.tokens, List.map_append] at hinput
    exact List.append_cancel_right hinput
  exact ⟨us, hus, hp, hmap ▸ hr⟩

theorem current {f : Token → Rule α} {Q : α → State → List Token → Prop}
    (h : Lays (f s.current) s Q) : Lays (currentToken >>= f) s Q := h

theorem previous {f : Token → Rule α} {Q : α → State → List Token → Prop}
    (h : Lays (f s.previous) s Q) : Lays (previousToken >>= f) s Q := h

theorem fail {span : Span} {kind : ParseErrorKind} {Q : α → State → List Token → Prop} :
    Lays (Parser.fail span kind) s Q := by
  intro a t ht
  cases ht

theorem outOfFuel {Q : α → State → List Token → Prop} : Lays Parser.outOfFuel s Q := by
  intro a t ht
  cases ht

end Lays

variable {s : State}

/-- Moving on without an error passes one token. -/
theorem State.tokens_advance_of_errors {s : State} (h : s.advance.errors = [])
    (hl : InLine s.tokens) (hc : s.current.kind ≠ .endOfFile) :
    s.tokens = s.current :: s.advance.tokens := by
  cases hu : s.upcoming with
  | nil =>
    obtain ⟨ts, t, hts, hend, -⟩ := hl.ended
    rw [tokens, hu] at hts
    obtain ⟨rfl, htail⟩ := List.append_eq_singleton_iff.1 hts.symm |>.resolve_right (by simp)
    cases htail
    exact absurd hend hc
  | cons t ts =>
    rw [advance, hu, shift] at h ⊢
    split at h
    · have := errors_shift h
      simp [report] at this
    · rw [tokens, hu]
      rfl

theorem lays_advance (hc : s.current.kind ≠ .endOfFile) :
    Lays advance s fun _ t us => us = [s.current] ∧ t.previous = s.current := by
  rintro _ _ ⟨⟩ he
  exact ⟨State.errors_advance he, fun hl => ⟨[s.current],
    ⟨State.tokens_advance_of_errors he hl hc, s.previous_advance⟩, rfl, s.previous_advance⟩⟩

theorem lays_keyword {word : Keyword} (hc : s.current.kind = .keyword word) :
    Lays advance s fun _ _ us => us = [s.current] :=
  (lays_advance (by rw [hc]; exact Token.Kind.noConfusion)).mono fun _ _ _ h => h.1

theorem lays_symbol {sym : Symbol} (hc : s.current.kind = .symbol sym) :
    Lays advance s fun _ _ us => us = [s.current] :=
  (lays_advance (by rw [hc]; exact Token.Kind.noConfusion)).mono fun _ _ _ h => h.1

/-- A rule that fails if the token behind it is the end of the text. -/
theorem Lays.behind {α : Type} {f : Token → Rule α} {Q : α → State → List Token → Prop}
    (hf : ∀ t u, t.kind = .endOfFile → ∀ a v, f t u ≠ .ok a v)
    (h : s.current.kind ≠ .endOfFile →
      ∀ t, Lays (f s.current) t fun a u us => Q a u (s.current :: us)) :
    Lays (do advance; f (← previousToken)) s Q := by
  by_cases hc : s.current.kind = .endOfFile
  · intro a t ht
    have hrun : f s.advance.previous s.advance = .ok a t := ht
    rw [s.previous_advance] at hrun
    exact absurd hrun (hf _ _ hc a t)
  · intro a t ht he
    have hrun : f s.advance.previous s.advance = .ok a t := ht
    rw [s.previous_advance] at hrun
    obtain ⟨hes, h⟩ := h hc s.advance a t hrun he
    refine ⟨State.errors_advance hes, fun hl => ?_⟩
    have hpassed : Passed s s.advance [s.current] :=
      ⟨State.tokens_advance_of_errors hes hl hc, s.previous_advance⟩
    obtain ⟨us, hus, hq⟩ := h (hpassed.inLine hl)
    exact ⟨s.current :: us, hpassed.trans hus, hq⟩

theorem lays_expect (sym : Symbol) (otherwise : ParseErrorKind) :
    Lays (expect sym otherwise) s fun _ _ us => us ≠ [] := by
  refine .behind (fun t u hend a v h => ?_) fun _ t => ?_
  · simp only [hend, Token.Kind.isSymbol, Bool.false_eq_true, if_false] at h
    cases h
  · split
    · exact .pure (List.cons_ne_nil _ _)
    · exact .fail

theorem lays_identifier (otherwise : ParseErrorKind) :
    Lays (identifier otherwise) s fun x _ us => Laid (.name x) us := by
  refine .behind (fun t u hend a v h => ?_) fun _ t => ?_
  · simp only [hend] at h
    cases h
  · cases hk : s.current.kind with
    | identifier name => exact .pure (laid_name hk rfl)
    | _ => exact .fail

theorem lays_atSymbol (sym : Symbol) : Lays (atSymbol sym) s fun _ _ us => us = [] :=
  .current (.pure rfl)

theorem lays_atEnd : Lays atEnd s fun _ _ us => us = [] := .current (.pure rfl)

theorem lays_skipSymbol (sym : Symbol) : Lays (skipSymbol sym) s fun _ _ _ => True := by
  unfold skipSymbol atSymbol
  rw [bind_assoc]
  refine .current ?_
  rw [pure_bind]
  cases hk : s.current.kind.isSymbol sym with
  | false => exact .pure trivial
  | true => exact (lays_symbol (isSymbol_iff.1 hk)).bind fun _ _ => .pure fun _ _ => trivial

theorem lays_skipKeyword (word : Keyword) :
    Lays (skipKeyword word) s fun _ _ _ => True := by
  refine .current ?_
  cases hk : s.current.kind.isKeyword word with
  | false => exact .pure trivial
  | true => exact (lays_keyword (isKeyword_iff.1 hk)).bind fun _ _ => .pure fun _ _ => trivial

theorem lays_spanFrom (first : Span) :
    Lays (spanFrom first) s fun span _ us => us = [] ∧ span = first.extend s.previous.span :=
  .previous (.pure ⟨rfl, rfl⟩)

theorem lays_expr (first : Span) (node : Expr.Node) :
    Lays (expr first node) s fun e _ us =>
      us = [] ∧ e.node = node ∧ e.span = first.extend s.previous.span := by
  rintro _ _ ⟨⟩ he
  exact ⟨he, fun _ => ⟨[], ⟨rfl, rfl⟩, rfl, rfl, rfl⟩⟩

/-- What the rule of a statement has laid that begins at `s`. -/
def NodeLaid (s : State) (node : Stmt.Node) (us : List Token) : Prop :=
  us ≠ [] ∧ (∀ k, node.keyword? = some k → s.current.kind = .keyword k) ∧ Holds node.pieces us

theorem lays_stmt {node : Rule Stmt.Node} (h : Lays node s fun node _ us => NodeLaid s node us) :
    Lays (stmt node) s fun st _ us => Laid (.stmt st) us := by
  refine .current (h.traced.bind fun node t => (lays_spanFrom _).bind fun span u => .pure ?_)
  rintro _ ⟨rfl, rfl⟩ us ⟨⟨hne, hkeyword, hholds⟩, hpassed, hl⟩
  have hfirst := hpassed.head? hne
  rw [List.append_nil, List.append_nil]
  refine laid_iff.2 ⟨⟨?_, fun k hk => ?_⟩, hholds⟩
  · exact hpassed.spans hl hne
  · rw [hfirst, Option.map_some, hkeyword k hk]

theorem lays_recover {α : Type} {rule : Rule α} {Q : α → State → List Token → Prop}
    (h : Lays rule s Q) : Lays (recover rule) s fun o t us => ∃ a, o = some a ∧ Q a t us := by
  intro o t ht he
  unfold recover at ht
  split at ht
  · next a u hu =>
    cases ht
    obtain ⟨hs, h⟩ := h a t hu he
    exact ⟨hs, fun hl => (h hl).imp fun _ ⟨hus, hq⟩ => ⟨hus, a, rfl, hq⟩⟩
  · next e u hu =>
    cases ht
    have := State.errors_synchronize he
    simp [State.report] at this
  · cases ht

/-! ## Lists -/

section

variable {α : Type} {item : Rule α} {piece : α → Piece}
  (hi : ∀ s, Lays item s fun a _ us => Laid (piece a) us)
include hi

theorem lays_commaSeparatedTail (close : Symbol) (n : Nat) (s : State) :
    Lays (commaSeparatedTail close item n) s fun as _ us => Holds (as.map piece) us := by
  induction n generalizing s with
  | zero => exact .outOfFuel
  | succ n ih =>
    refine (lays_skipSymbol close).bind fun b t => ?_
    cases b with
    | true => exact .pure fun _ _ => .nil
    | false =>
      refine (lays_expect _ _).bind fun _ t₁ => (hi t₁).bind fun a t₂ => (ih t₂).bind fun as t₃ =>
        .pure ?_
      rintro us has vs ha _ - _ -
      exact .after (.after (.cons ha (.before has)))

theorem lays_commaSeparated (close : Symbol) (n : Nat) (s : State) :
    Lays (commaSeparated close item n) s fun as _ us => Holds (as.map piece) us := by
  refine (lays_skipSymbol close).bind fun b t => ?_
  cases b with
  | true => exact .pure fun _ _ => .nil
  | false =>
    refine (hi t).bind fun a t₁ => (lays_commaSeparatedTail hi close n t₁).bind fun as t₂ => .pure ?_
    rintro us has vs ha _ -
    exact .after (.cons ha (.before has))

end

theorem lays_reportSurplus {α : Type} (span : α → Span) (kind : ParseErrorKind) (items : List α) :
    Lays (reportSurplus span kind items) s fun _ _ us => us = [] := by
  intro _ t ht he
  cases (forM_report _ _ s).symm.trans ht
  exact ⟨(List.append_eq_nil_iff.1 he).1, fun _ => ⟨[], ⟨rfl, rfl⟩, rfl⟩⟩

theorem lays_parameters (n : Nat) (s : State) :
    Lays (parameters n) s fun params _ us => Holds (params.map .name) us := by
  refine (lays_expect _ _).bind fun _ t =>
    (lays_commaSeparated (fun _ => lays_identifier _) _ n t).bind fun params t₁ =>
      (lays_reportSurplus _ _ params).bind fun _ t₂ => .pure ?_
  rintro us - vs hparams _ -
  exact .after (.before hparams)

/-- Statements have been laid. -/
def LaysBody (body : Rule (List Stmt)) : Prop :=
  ∀ s, Lays body s fun body _ us => Laid (.stmts body) us

theorem laid_stmts {body : List Stmt} {us : List Token} (h : Holds (body.map .stmt) us) :
    Laid (.stmts body) us := laid_iff.2 ⟨trivial, h⟩

section

variable {item : Rule (Option Stmt)}
  (hi : ∀ s, Lays item s fun o _ us => ∃ st, o = some st ∧ Laid (.stmt st) us)
include hi

theorem lays_statements (n : Nat) : LaysBody (statements item n) := by
  induction n with
  | zero => exact fun _ => .outOfFuel
  | succ n ih =>
    intro s
    refine lays_atEnd.bind fun b t => ?_
    cases b with
    | true => exact .current .fail
    | false =>
      refine (lays_skipSymbol _).bind fun b t₁ => ?_
      cases b with
      | true => exact .pure fun _ _ _ _ => laid_stmts .nil
      | false =>
        refine (hi t₁).bind fun o t₂ => (ih t₂).bind fun ss t₃ => .pure ?_
        rintro us hss vs ⟨st, rfl, hst⟩ _ - _ -
        exact laid_stmts (.after (.after (.cons hst (.before (laid_iff.1 hss).2))))

theorem lays_program (n : Nat) : LaysBody (program item n) := by
  induction n with
  | zero => exact fun _ => .outOfFuel
  | succ n ih =>
    intro s
    refine lays_atEnd.bind fun b t => ?_
    cases b with
    | true => exact .pure fun _ _ => laid_stmts .nil
    | false =>
      refine (hi t).bind fun o t₁ => (ih t₁).bind fun ss t₂ => .pure ?_
      rintro us hss vs ⟨st, rfl, hst⟩ _ -
      exact laid_stmts (.after (.cons hst (.before (laid_iff.1 hss).2)))

end

/-! ## Functions and their owners -/

theorem laid_function {f : Function} {us : List Token}
    (h : Holds (f.params.map .name ++ [.stmts f.body]) us) : Laid (.function f) us :=
  laid_iff.2 ⟨trivial, h⟩

section

variable {body : Rule (List Stmt)} (hb : LaysBody body)
include hb

theorem lays_namedFunction (isMember : Bool) (n : Nat) (s : State) :
    Lays (namedFunction body isMember n) s fun f _ us => Holds f.pieces us := by
  refine .current ((lays_identifier _).bind fun name t₁ => (lays_atSymbol _).bind fun brace t₂ => ?_)
  have hbehind (isGetter : Bool) (params : List Identifier) (t : State) :
      Lays (do
        expect .leftBrace (.expectedBefore .leftBrace .functionBody)
        let body ← body
        return (⟨name, params, body, isGetter, ← spanFrom s.current.span⟩ : Function)) t
      fun f _ us => ∀ vs ws, Holds (params.map .name) vs → Laid (.name name) ws →
        Holds f.pieces (ws ++ (vs ++ us)) := by
    refine (lays_expect _ _).bind fun _ t₃ => (hb t₃).bind fun body t₄ =>
      (lays_spanFrom _).bind fun span t₅ => .pure ?_
    rintro _ ⟨rfl, -⟩ us hbody _ - vs ws hparams hname
    exact .cons hname (.single (laid_function (hparams.append (.after (.before (.single hbody))))))
  cases isMember && brace with
  | true =>
    refine (hbehind true [] t₂).mono fun f t us h _ hus ws hname => ?_
    rw [hus]
    exact h [] ws .nil hname
  | false =>
    refine (lays_parameters n t₂).bind fun params t₃ => (hbehind false params t₃).mono ?_
    intro f t us h vs hparams _ hws ws hname
    rw [hws]
    exact h vs ws hparams hname

theorem lays_members (n k : Nat) (s : State) :
    Lays (members (namedFunction body true k) n) s fun fs _ us =>
      Holds ((fs.1 ++ fs.2).flatMap Function.pieces) us := by
  induction n generalizing s with
  | zero => exact .outOfFuel
  | succ n ih =>
    refine (lays_skipSymbol _).bind fun b t => ?_
    cases b with
    | true => exact .pure fun _ _ => .nil
    | false =>
      refine lays_atEnd.bind fun b t₁ => ?_
      cases b with
      | true => exact .current .fail
      | false =>
        refine (lays_skipKeyword _).bind fun b t₂ => ?_
        cases b with
        | true =>
          refine (lays_namedFunction hb true k t₂).bind fun f t₃ => (ih t₃).bind fun fs t₄ =>
            .pure ?_
          rintro us hfs vs hf _ - _ - _ -
          have hperm : (f :: (fs.1 ++ fs.2)).Perm (fs.1 ++ f :: fs.2) := List.perm_middle.symm
          exact .after (.after (.after ((hf.append (.before hfs)).perm
            (hperm.flatMap_right Function.pieces))))
        | false =>
          refine (lays_namedFunction hb true k t₂).bind fun f t₃ => (ih t₃).bind fun fs t₄ =>
            .pure ?_
          rintro us hfs vs hf _ - _ - _ -
          exact .after (.after (.after (hf.append (.before hfs))))

end

/-! ## Declarations -/

theorem laid_reference {r : Reference} {us : List Token} (h : Laid (.name r.name) us) :
    Laid (.expr r.expr) us := by
  obtain ⟨⟨t, rfl, hk, hs⟩, -⟩ := laid_iff.1 h
  have hspans : Spans [t] r.name.span := hs ▸ spans_singleton t
  refine laid_iff.2 ⟨⟨hspans, ?_⟩, .single h⟩
  rw [List.map_singleton, hk]
  exact Derives.of_rank_le .variable (Nat.zero_le _)

theorem lays_reference (otherwise : ParseErrorKind) (s : State) :
    Lays (reference otherwise) s fun r _ us => Laid (.expr r.expr) us := by
  refine (lays_identifier _).bind fun name t => ?_
  rintro _ _ ⟨⟩ he
  refine ⟨he, fun _ => ⟨[], ⟨rfl, rfl⟩, fun us hname => ?_⟩⟩
  rw [List.append_nil]
  exact laid_reference hname

theorem lays_traitNames (n : Nat) (s : State) :
    Lays (traitNames n) s fun rs _ us => Holds (rs.map fun r => .expr r.expr) us := by
  induction n generalizing s with
  | zero => exact .outOfFuel
  | succ n ih =>
    refine (lays_reference _ s).bind fun r t => (lays_skipSymbol _).bind fun b t₁ => ?_
    cases b with
    | true =>
      refine (ih t₁).bind fun rs t₂ => .pure ?_
      rintro us hrs _ - vs hr
      exact .cons hr (.after (.before hrs))
    | false => exact .pure fun us _ vs hr => .before (.single hr)

theorem lays_some {α : Type} {rule : Rule α} {piece : α → Piece}
    (h : Lays rule s fun a _ us => Laid (piece a) us) :
    Lays (some <$> rule) s fun o _ us => Holds (o.toList.map piece) us :=
  .map (h.mono fun _ _ _ ha => .single ha)

theorem lays_superclassClause :
    Lays superclassClause s fun superclass _ us =>
      Holds (superclass.toList.map fun r => .expr r.expr) us := by
  refine (lays_skipSymbol _).bind fun b t => ?_
  cases b with
  | true => exact (lays_some (lays_reference _ t)).mono fun _ _ _ h _ _ => .after h
  | false => exact .pure fun _ _ => .nil

theorem lays_traitsClause (n : Nat) :
    Lays (traitsClause n) s fun traits _ us => Holds (traits.map fun r => .expr r.expr) us := by
  refine (lays_skipSymbol _).bind fun b t => ?_
  cases b with
  | true => exact (lays_traitNames n t).mono fun _ _ _ h _ _ => .after h
  | false => exact .pure fun _ _ => .nil

theorem lays_varDecl {expression : Rule Expr}
    (he : ∀ s, Lays expression s fun e _ us => Laid (.expr e) us)
    (hs : s.current.kind = .keyword .var) :
    Lays (varDecl expression) s fun node _ us => NodeLaid s node us := by
  refine (lays_keyword hs).bind fun _ t => (lays_identifier _).bind fun name t₁ =>
    (lays_skipSymbol _).bind fun b t₂ => ?_
  have hbehind (init : Option Expr) (t : State) :
      Lays (do
        expect .semicolon (.expectedAfter .semicolon .variableDeclaration)
        return (.varDecl name init : Stmt.Node)) t
      fun node _ us => ∀ vs, Holds (init.toList.map .expr) vs →
        ∀ ws, True → ∀ xs, Laid (.name name) xs → ∀ ys, ys = [s.current] →
          NodeLaid s node (ys ++ (xs ++ (ws ++ (vs ++ us)))) := by
    refine (lays_expect _ _).bind fun _ t₃ => .pure ?_
    rintro us - vs hinit ws - xs hname _ rfl
    refine ⟨List.cons_ne_nil _ _, fun k hk => ?_, .after (.cons hname (.after (.before hinit)))⟩
    cases hk
    exact hs
  cases b with
  | true => exact (lays_some (he t₂)).bind fun init t₃ => hbehind init t₃
  | false => exact (hbehind none t₂).mono fun _ _ _ h => h [] .nil

end Parser

end Lox

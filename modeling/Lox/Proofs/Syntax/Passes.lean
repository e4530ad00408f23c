import Mathlib.Data.List.Basic
import Lox.Proofs.Syntax.Sound

/-!
# Rules read on

Whether a rule goes well or fails, it stops at some later token.  What it returns, and where it
stops, is put together from what its parts return.

    Passes rule s Q        from `s` on the rule reads on, and `Q` says what it returns and where
    Makes rule P           whatever the rule returns is as `P` says
-/

namespace Lox

namespace Parser

/-! ## Tokens -/

/-- The current token and those that come. -/
def State.tokens (s : State) : List Token := s.current :: s.upcoming

/-- Each starts behind the one before it, and the end of the text is the last. -/
structure Row (tokens : List Token) : Prop where
  ordered : tokens.Pairwise fun a b => a.span.start.byte < b.span.start.byte
  ended : ∀ t ∈ tokens.getLast?, t.kind = .endOfFile

theorem Row.suffix {tokens rest : List Token} (h : Row tokens) (hs : rest <:+ tokens)
    (hne : rest ≠ []) : Row rest := by
  obtain ⟨front, rfl⟩ := hs
  refine ⟨h.ordered.sublist (List.sublist_append_right ..), fun t ht => h.ended t ?_⟩
  rwa [List.getLast?_append_of_ne_nil _ hne]

theorem State.tokens_shift (s : State) {ts : List Token} (h : Row ts) (hne : ts ≠ []) :
    (s.shift ts).tokens <:+ ts := by
  induction ts generalizing s with
  | nil => exact absurd rfl hne
  | cons t ts ih =>
    rw [shift]
    split
    · next e he =>
      cases ts with
      | nil =>
        have := h.ended t rfl
        rw [he] at this
        cases this
      | cons t' ts =>
        exact (ih _ (h.suffix (List.suffix_cons ..) (List.cons_ne_nil _ _))
          (List.cons_ne_nil _ _)).trans (List.suffix_cons ..)
    · exact List.suffix_rfl

theorem State.tokens_advance {s : State} (h : Row s.tokens) : s.advance.tokens <:+ s.tokens := by
  cases hu : s.upcoming with
  | nil =>
    rw [advance, hu]
    simp [shift, tokens, hu]
  | cons t ts =>
    have hrow : Row s.upcoming := h.suffix (List.suffix_cons ..) (by simp [hu])
    exact (s.tokens_shift hrow (by simp [hu])).trans (List.suffix_cons ..)

/-- What is behind a token that is not the end of the text. -/
theorem State.tokens_advance_of_ne {s : State} (h : Row s.tokens)
    (hc : s.current.kind ≠ .endOfFile) : s.advance.tokens <:+ s.upcoming := by
  have hne : s.upcoming ≠ [] := by
    intro hu
    exact hc (h.ended s.current (by simp [tokens, hu]))
  exact s.tokens_shift (h.suffix (List.suffix_cons ..) hne) hne

theorem State.row_of_suffix {s t : State} (h : Row s.tokens) (ht : t.tokens <:+ s.tokens) :
    Row t.tokens := h.suffix ht (List.cons_ne_nil _ _)

theorem State.tokens_skipStatement (n : Nat) {s : State} (h : Row s.tokens) :
    (skipStatement n s).tokens <:+ s.tokens := by
  induction n generalizing s with
  | zero => exact List.suffix_rfl
  | succ n ih =>
    have hadvance := tokens_advance h
    rw [skipStatement]
    split
    · exact List.suffix_rfl
    · split
      · exact hadvance
      · exact (ih (row_of_suffix h hadvance)).trans hadvance

theorem State.tokens_synchronize {s : State} (h : Row s.tokens) :
    s.synchronize.tokens <:+ s.tokens := by
  rw [synchronize]
  split
  · exact List.suffix_rfl
  · exact tokens_skipStatement _ h

/-! ## Rules -/

/-- The rule stops at some later token, and `Q` says what it returns and where. -/
def Passes {α : Type} (rule : Rule α) (s : State) (Q : α → State → Prop) : Prop :=
  Row s.tokens → (∀ a t, rule s = .ok a t → t.tokens <:+ s.tokens ∧ Q a t) ∧
    ∀ e t, rule s = .error e t → t.tokens <:+ s.tokens

/-- Whatever the rule returns is as `P` says. -/
def Makes {α : Type} (rule : Rule α) (P : α → Prop) : Prop := ∀ s, Passes rule s fun a _ => P a

namespace Passes

variable {α β : Type} {s : State}

theorem bind {x : Rule α} {f : α → Rule β} {P : α → State → Prop} {Q : β → State → Prop}
    (hx : Passes x s P) (hf : ∀ a t, t.tokens <:+ s.tokens → P a t → Passes (f a) t Q) :
    Passes (x >>= f) s Q := by
  intro h
  obtain ⟨hok, herror⟩ := hx h
  constructor
  · intro b u hu
    obtain ⟨a, t, hxt, hft⟩ := EStateM.bind_eq_ok.1 hu
    obtain ⟨ht, hp⟩ := hok a t hxt
    obtain ⟨hut, hq⟩ := (hf a t ht hp (State.row_of_suffix h ht)).1 b u hft
    exact ⟨hut.trans ht, hq⟩
  · intro e u hu
    rcases EStateM.bind_eq_error.1 hu with hxe | ⟨a, t, hxt, hft⟩
    · exact herror e u hxe
    · obtain ⟨ht, hp⟩ := hok a t hxt
      exact ((hf a t ht hp (State.row_of_suffix h ht)).2 e u hft).trans ht

theorem mono {rule : Rule α} {P Q : α → State → Prop} (h : Passes rule s P)
    (hpq : ∀ a t, t.tokens <:+ s.tokens → P a t → Q a t) : Passes rule s Q := fun hs =>
  ⟨fun a t ht => have ⟨hsuffix, hp⟩ := (h hs).1 a t ht; ⟨hsuffix, hpq a t hsuffix hp⟩, (h hs).2⟩

theorem pure {a : α} {Q : α → State → Prop} (h : Q a s) : Passes (Pure.pure a) s Q :=
  fun _ => ⟨fun _ _ ht => by cases ht; exact ⟨List.suffix_rfl, h⟩, fun _ _ ht => nomatch ht⟩

theorem throw {stop : Stop} {Q : α → State → Prop} :
    Passes (throw stop : Rule α) s Q := by
  refine fun _ => ⟨?_, ?_⟩
  · rintro _ _ ⟨⟩
  · rintro _ _ ⟨⟩
    exact List.suffix_rfl

/-- A look at the token behind. -/
theorem previous {f : Token → Rule α} {Q : α → State → Prop} (h : Passes (f s.previous) s Q) :
    Passes (previousToken >>= f) s Q := h

end Passes

namespace Makes

variable {α β : Type} {x : Rule α} {f : α → Rule β} {P : α → Prop} {Q : β → Prop}

theorem bind (hx : Makes x P) (hf : ∀ a, P a → Makes (f a) Q) : Makes (x >>= f) Q :=
  fun s => (hx s).bind fun a t _ hp => hf a hp t

theorem mono {R : α → Prop} (h : Makes x P) (hpr : ∀ a, P a → R a) : Makes x R :=
  fun s => (h s).mono fun a _ _ => hpr a

theorem map {g : α → β} (h : Makes x fun a => Q (g a)) : Makes (g <$> x) Q := by
  rw [map_eq_pure_bind]
  exact h.bind fun _ hq _ => .pure hq

theorem pure {a : α} (h : P a) : Makes (Pure.pure a) P := fun _ => .pure h

theorem throw {stop : Stop} : Makes (throw stop : Rule α) P := fun _ => .throw

theorem fail {span : Span} {kind : ParseErrorKind} : Makes (Parser.fail span kind : Rule α) P :=
  throw

/-- A step that looks at the state, or changes what is no token in it. -/
theorem silent {x : State → α} {g : State → State} (hg : ∀ s, (g s).tokens = s.tokens)
    (hx : ∀ s, P (x s)) : Makes (fun s => .ok (x s) (g s) : Rule α) P := fun s _ =>
  ⟨fun _ _ ht => by cases ht; exact ⟨hg s ▸ List.suffix_rfl, hx s⟩, fun _ _ ht => nomatch ht⟩

end Makes

/-- Nothing is said of what the rule returns. -/
abbrev Reaches {α : Type} (rule : Rule α) : Prop := Makes rule fun _ => True

theorem passes_advance (s : State) : Passes advance s fun _ t =>
    t.previous = s.current ∧ (s.current.kind ≠ .endOfFile → t.tokens <:+ s.upcoming) := fun h =>
  ⟨fun _ _ ht => by
    cases ht
    exact ⟨State.tokens_advance h, s.previous_advance, State.tokens_advance_of_ne h⟩,
    fun _ _ ht => by cases ht⟩

theorem reaches_advance : Reaches advance := fun s => (passes_advance s).mono fun _ _ _ _ => trivial

theorem reaches_currentToken : Reaches currentToken := .silent (fun _ => rfl) fun _ => trivial

theorem reaches_previousToken : Reaches previousToken := .silent (fun _ => rfl) fun _ => trivial

theorem reaches_atSymbol (sym : Symbol) : Reaches (atSymbol sym) :=
  reaches_currentToken.bind fun _ _ => .pure trivial

theorem reaches_atEnd : Reaches atEnd := reaches_currentToken.bind fun _ _ => .pure trivial

theorem reaches_skipSymbol (sym : Symbol) : Reaches (skipSymbol sym) :=
  (reaches_atSymbol sym).bind fun b _ => by
    cases b with
    | false => exact .pure trivial
    | true => exact reaches_advance.bind fun _ _ => .pure trivial

theorem reaches_skipKeyword (word : Keyword) : Reaches (skipKeyword word) :=
  reaches_currentToken.bind fun t _ => by
    split
    · exact reaches_advance.bind fun _ _ => .pure trivial
    · exact .pure trivial

theorem reaches_expect (sym : Symbol) (otherwise : ParseErrorKind) :
    Reaches (expect sym otherwise) :=
  reaches_advance.bind fun _ _ => reaches_previousToken.bind fun t _ => by
    split
    · exact .pure trivial
    · exact .fail

/-- A name starts behind what has been read and before what comes. -/
theorem passes_identifier (otherwise : ParseErrorKind) (s : State) :
    Passes (identifier otherwise) s fun name t => ∃ token rest, s.tokens = token :: rest ∧
      token.span = name.span ∧ t.tokens <:+ rest := by
  refine (passes_advance s).bind fun _ t _ ⟨hp, hs⟩ => .previous ?_
  rw [hp]
  cases hk : s.current.kind with
  | identifier name =>
    exact .pure ⟨s.current, s.upcoming, rfl, rfl, hs (by simp [hk])⟩
  | _ => exact .throw

theorem reaches_identifier (otherwise : ParseErrorKind) : Reaches (identifier otherwise) :=
  fun s => (passes_identifier otherwise s).mono fun _ _ _ _ => trivial

theorem reaches_freshId : Reaches freshId := .silent (fun _ => rfl) fun _ => trivial

theorem reaches_spanFrom (first : Span) : Reaches (spanFrom first) :=
  reaches_previousToken.bind fun _ _ => .pure trivial

theorem makes_expr {first : Span} {node : Expr.Node} {P : Expr → Prop}
    (h : ∀ id span, P ⟨id, span, node⟩) : Makes (expr first node) P :=
  reaches_freshId.bind fun id _ => (reaches_spanFrom first).bind fun span _ => .pure (h id span)

theorem makes_stmt {node : Rule Stmt.Node} {P : Stmt → Prop}
    (h : Makes node fun node => ∀ span, P ⟨span, node⟩) : Makes (stmt node) P :=
  reaches_currentToken.bind fun _ _ => h.bind fun _ hp => (reaches_spanFrom _).bind fun span _ =>
    .pure (hp span)

/-- What a rule reads that recovers from errors, or nothing. -/
theorem Passes.recover {α : Type} {rule : Rule α} {s : State} {Q : α → State → Prop}
    (h : Passes rule s Q) : Passes (recover rule) s fun o t => ∀ a ∈ o, Q a t := by
  intro hs
  obtain ⟨hok, herror⟩ := h hs
  constructor
  · intro o t ht
    unfold Parser.recover at ht
    split at ht
    · next a u hu =>
      cases ht
      obtain ⟨hsuffix, hq⟩ := hok a t hu
      exact ⟨hsuffix, by rintro _ ⟨⟩; exact hq⟩
    · next e u hu =>
      cases ht
      have hsuffix : (u.report e).tokens <:+ s.tokens := herror _ u hu
      refine ⟨?_, fun _ h => by cases h⟩
      exact (State.tokens_synchronize (State.row_of_suffix hs hsuffix)).trans hsuffix
    · cases ht
  · intro e t ht
    unfold Parser.recover at ht
    split at ht
    · cases ht
    · cases ht
    · next u hu => cases ht; exact herror _ t hu

/-! ## Lists -/

section

variable {α : Type} {item : Rule α} {P : α → Prop} (h : Makes item P)
include h

theorem makes_commaSeparatedTail (close : Symbol) (n : Nat) :
    Makes (commaSeparatedTail close item n) fun xs => ∀ x ∈ xs, P x := by
  induction n with
  | zero => exact .throw
  | succ n ih =>
    refine (reaches_skipSymbol close).bind fun b _ => ?_
    cases b with
    | true => exact .pure (List.forall_mem_nil _)
    | false =>
      exact (reaches_expect _ _).bind fun _ _ => h.bind fun x hx => ih.bind fun xs hxs =>
        .pure (List.forall_mem_cons.2 ⟨hx, hxs⟩)

theorem makes_commaSeparated (close : Symbol) (n : Nat) :
    Makes (commaSeparated close item n) fun xs => ∀ x ∈ xs, P x := by
  refine (reaches_skipSymbol close).bind fun b _ => ?_
  cases b with
  | true => exact .pure (List.forall_mem_nil _)
  | false =>
    exact h.bind fun x hx => (makes_commaSeparatedTail h close n).bind fun xs hxs =>
      .pure (List.forall_mem_cons.2 ⟨hx, hxs⟩)

end

theorem reaches_reportSurplus {α : Type} (span : α → Span) (kind : ParseErrorKind)
    (items : List α) : Reaches (reportSurplus span kind items) := by
  have hreport : reportSurplus span kind items = fun s =>
      .ok () { s with errors := s.errors ++ (items.drop maxArgs).map fun x => ⟨span x, kind⟩ } :=
    funext fun s => forM_report _ _ s
  rw [hreport]
  exact .silent (fun _ => rfl) fun _ => trivial

theorem makes_arguments {expression : Rule Expr} {P : Expr → Prop} (h : Makes expression P)
    (n : Nat) : Makes (arguments expression n) fun es => ∀ e ∈ es, P e :=
  reaches_advance.bind fun _ _ => (makes_commaSeparated h _ n).bind fun _ hes =>
    (reaches_reportSurplus _ _ _).bind fun _ _ => .pure hes

theorem reaches_parameters (n : Nat) : Reaches (parameters n) :=
  (reaches_expect _ _).bind fun _ _ =>
    (makes_commaSeparated (reaches_identifier _) _ n).bind fun _ _ =>
      (reaches_reportSurplus _ _ _).bind fun _ _ => .pure trivial

end Parser

end Lox

import Mathlib
import Lox.Proofs.Syntax.Bare
import Lox.Proofs.Syntax.Sound

/-!
# What a rule makes of given tokens

Of a rule in front of tokens that are all valid, `Arrives` says that it gets behind the first of
them and what is left of it there; `Takes` says that nothing is left, and speaks about the result.

    Takes x us (vs ++ rest) P → (∀ a, P a → Arrives (f a) vs rest R) →
      Arrives (x >>= f) (us ++ vs) rest R                                        (Takes.bind)

No rule reports an error on its way, but for lists that are longer than allowed.
-/

namespace Lox.Parser

open Grammar

/-- All tokens behind the current one are valid. -/
def State.Clean (s : State) : Prop := ∀ t ∈ s.upcoming, ∀ e, t.kind ≠ .invalid e

theorem State.Clean.advance {s : State} {k : Token.Kind} {ks : Tokens} (h : s.Clean)
    (hi : s.input = k :: ks) (hks : ks ≠ []) :
    s.advance.Clean ∧ s.advance.input = ks ∧ s.advance.errors = s.errors ∧
      s.current.kind = k ∧ s.advance.previous = s.current := by
  rw [input, List.cons.injEq] at hi
  obtain ⟨hk, hu⟩ := hi
  cases hs : s.upcoming with
  | nil => exact absurd (by simpa [hs] using hu.symm) hks
  | cons t ts =>
    have ht := h t (by simp [hs])
    have hshift : s.advance = { s with previous := s.current, current := t, upcoming := ts } := by
      rw [State.advance, hs, shift]
      split
      · next e he => exact absurd he (ht e)
      · rfl
    rw [hshift]
    refine ⟨fun t' ht' => h t' (by simp [hs, ht']), ?_, rfl, hk, rfl⟩
    simpa [hs, input] using hu

/-- In front of `ts` and `rest` the rule gets to `rest` and goes on there as `R` says. -/
def Arrives (fits : Nat → Prop) {α : Type} (rule : Rule α) (ts rest : Tokens)
    (R : Rule α → Prop) : Prop :=
  rest ≠ [] → ∀ s : State, s.Clean → s.input = ts ++ rest →
    ∃ rule' t, rule s = rule' t ∧ t.Clean ∧ t.input = rest ∧
      ((∀ n, fits n → Within n) → t.errors = s.errors) ∧ R rule'

/-- In front of `ts` and `rest` the rule ends at `rest`, and `Q` says what it returns. -/
def Takes (fits : Nat → Prop) {α : Type} (rule : Rule α) (ts rest : Tokens) (Q : α → Prop) :
    Prop :=
  Arrives fits rule ts rest fun rule' => ∃ a, rule' = pure a ∧ Q a

variable {fits : Nat → Prop} {α β : Type} {ts us vs rest : Tokens}

theorem Arrives.refl {rule : Rule α} {R : Rule α → Prop} (h : R rule) :
    Arrives fits rule [] rest R :=
  fun _ s hs hi => ⟨rule, s, rfl, hs, hi, fun _ => rfl, h⟩

theorem Arrives.trans {rule : Rule α} {R S : Rule α → Prop}
    (h : Arrives fits rule us (vs ++ rest) R)
    (hr : ∀ rule', R rule' → Arrives fits rule' vs rest S) :
    Arrives fits rule (us ++ vs) rest S := by
  intro hne s hs hi
  obtain ⟨r₁, t, h₁, ht, hit, het, hr₁⟩ := h (by simp [hne]) s hs (by simp [hi])
  obtain ⟨r₂, u, h₂, hu, hiu, heu, hr₂⟩ := hr r₁ hr₁ hne t ht hit
  exact ⟨r₂, u, h₁.trans h₂, hu, hiu, fun hf => (heu hf).trans (het hf), hr₂⟩

theorem Arrives.mono {rule : Rule α} {R S : Rule α → Prop} (h : Arrives fits rule ts rest R)
    (hr : ∀ rule', R rule' → S rule') : Arrives fits rule ts rest S := by
  intro hne s hs hi
  obtain ⟨r, t, hrun, ht, hit, het, hrr⟩ := h hne s hs hi
  exact ⟨r, t, hrun, ht, hit, het, hr r hrr⟩

/-- Rules that do the same in front of the tokens. -/
theorem Arrives.congr {rule r : Rule α} {R : Rule α → Prop} {k : Token.Kind}
    (hk : (ts ++ rest).head? = some k) (heq : ∀ s : State, s.current.kind = k → rule s = r s)
    (h : Arrives fits r ts rest R) : Arrives fits rule ts rest R := by
  intro hne s hs hi
  rw [heq s (by rw [← hi] at hk; exact Option.some.inj hk)]
  exact h hne s hs hi

theorem Arrives.pure {a : α} {Q : α → Prop} (h : Q a) : Takes fits (pure a) [] rest Q :=
  .refl ⟨a, rfl, h⟩

theorem Takes.mono {rule : Rule α} {P Q : α → Prop} (h : Takes fits rule ts rest P)
    (hpq : ∀ a, P a → Q a) : Takes fits rule ts rest Q :=
  Arrives.mono h fun _ ⟨a, ha, hp⟩ => ⟨a, ha, hpq a hp⟩

theorem Takes.bind {x : Rule α} {f : α → Rule β} {P : α → Prop} {R : Rule β → Prop}
    (hx : Takes fits x us (vs ++ rest) P) (hf : ∀ a, P a → Arrives fits (f a) vs rest R) :
    Arrives fits (x >>= f) (us ++ vs) rest R := by
  intro hne s hs hi
  obtain ⟨_, t, hxt, ht, hit, het, a, rfl, hp⟩ := hx (by simp [hne]) s hs (by simp [hi])
  obtain ⟨r, u, hfu, hu, hiu, heu, hr⟩ := hf a hp hne t ht hit
  exact ⟨r, u, (EStateM.bind_of_ok hxt f).trans hfu, hu, hiu, fun h => (heu h).trans (het h), hr⟩

theorem Takes.last {x : Rule α} {f : α → Rule β} {P : α → Prop} {R : Rule β → Prop}
    (hx : Takes fits x ts rest P) (hf : ∀ a, P a → Arrives fits (f a) [] rest R) :
    Arrives fits (x >>= f) ts rest R := by
  have hx' : Takes fits x ts ([] ++ rest) P := hx
  have := hx'.bind hf
  rwa [List.append_nil] at this

theorem Takes.map {x : Rule α} {f : α → β} {Q : β → Prop}
    (hx : Takes fits x ts rest fun a => Q (f a)) : Takes fits (f <$> x) ts rest Q := by
  intro hne s hs hi
  obtain ⟨_, t, hxt, ht, hit, het, a, rfl, hq⟩ := hx hne s hs hi
  refine ⟨_, t, ?_, ht, hit, het, f a, rfl, hq⟩
  rw [EStateM.map_of_ok hxt]
  rfl

/-! ## Tokens -/

section

variable {R : Rule α → Prop} {k : Token.Kind}

/-- A look at the current token. -/
theorem Arrives.current {f : Token → Rule α} (hk : (ts ++ rest).head? = some k)
    (h : ∀ t : Token, t.kind = k → Arrives fits (f t) ts rest R) :
    Arrives fits (currentToken >>= f) ts rest R := by
  intro hne s hs hi
  exact h s.current (by rw [← hi] at hk; exact Option.some.inj hk) hne s hs hi

/-- A step to the next token and a look back. -/
theorem Arrives.next {f : Token → Rule α}
    (h : ∀ t : Token, t.kind = k → Arrives fits (f t) ts rest R) :
    Arrives fits (advance >>= fun _ => previousToken >>= f) (k :: ts) rest R := by
  intro hne s hs hi
  obtain ⟨hc, hia, hea, hk, hp⟩ := hs.advance hi (by simp [hne])
  obtain ⟨r, t, hrun, ht, hit, het, hr⟩ := h s.current hk hne s.advance hc hia
  refine ⟨r, t, ?_, ht, hit, fun hf => (het hf).trans hea, hr⟩
  rw [← hrun, ← hp]
  rfl

/-- A rule that stays at the current token. -/
theorem Arrives.stay {x : Rule β} {f : β → Rule α} {b : β} (hk : (ts ++ rest).head? = some k)
    (hx : ∀ s : State, s.current.kind = k → x s = .ok b s) (h : Arrives fits (f b) ts rest R) :
    Arrives fits (x >>= f) ts rest R :=
  .congr hk (fun s hs => EStateM.bind_of_ok (hx s hs) f) h

/-- A rule that passes the current token. -/
theorem Arrives.pass {x : Rule β} {f : β → Rule α} {b : β}
    (hx : ∀ s : State, s.current.kind = k → x s = .ok b s.advance)
    (h : Arrives fits (f b) ts rest R) : Arrives fits (x >>= f) (k :: ts) rest R := by
  refine .congr (k := k) rfl (fun s hs => ?_) (.next (f := fun _ => f b) fun _ _ => h)
  exact EStateM.bind_of_ok (hx s hs) f

theorem Arrives.advance {f : Unit → Rule α} (h : Arrives fits (f ()) ts rest R) :
    Arrives fits (advance >>= f) (k :: ts) rest R :=
  .pass (fun _ _ => rfl) h

theorem Arrives.expect {f : Unit → Rule α} {sym : Symbol} {otherwise : ParseErrorKind}
    (h : Arrives fits (f ()) ts rest R) :
    Arrives fits (expect sym otherwise >>= f) (.symbol sym :: ts) rest R := by
  refine .pass (fun s hs => ?_) h
  show (if s.advance.previous.kind.isSymbol sym then return () else fail _ _ : Rule Unit) _ = _
  rw [State.previous_advance, isSymbol_iff.2 hs]
  rfl

theorem Arrives.identifier {f : Identifier → Rule α} {name : Identifier}
    {otherwise : ParseErrorKind}
    (h : ∀ name', Identifier.bare name' = name.bare → Arrives fits (f name') ts rest R) :
    Arrives fits (identifier otherwise >>= f) (.identifier name.name :: ts) rest R := by
  refine .congr (k := .identifier name.name) rfl (fun s hs => ?_)
    (.next (f := fun t => f ⟨name.name, t.span⟩) fun t _ => h _ rfl)
  show _ = f ⟨name.name, s.advance.previous.span⟩ s.advance
  have hprevious : s.advance.previous.kind = .identifier name.name := by
    rw [State.previous_advance, hs]
  have hadvance : Parser.advance s = .ok () s.advance := rfl
  have htoken : previousToken s.advance = .ok s.advance.previous s.advance := rfl
  refine EStateM.bind_of_ok ?_ f
  rw [Parser.identifier, EStateM.bind_of_ok hadvance, EStateM.bind_of_ok htoken]
  simp only [hprevious]
  rfl

theorem Arrives.atSymbol {f : Bool → Rule α} {sym : Symbol} (hk : (ts ++ rest).head? = some k)
    (h : Arrives fits (f (k.isSymbol sym)) ts rest R) :
    Arrives fits (atSymbol sym >>= f) ts rest R :=
  .stay hk (fun _ hs => hs ▸ rfl) h

theorem Arrives.atEnd {f : Bool → Rule α} (hk : (ts ++ rest).head? = some k)
    (h : Arrives fits (f k.isEndOfFile) ts rest R) : Arrives fits (atEnd >>= f) ts rest R :=
  .stay hk (fun _ hs => hs ▸ rfl) h

theorem Arrives.skipSymbol {f : Bool → Rule α} {sym : Symbol}
    (h : Arrives fits (f true) ts rest R) :
    Arrives fits (skipSymbol sym >>= f) (.symbol sym :: ts) rest R := by
  refine .pass (fun s hs => ?_) h
  show (if s.current.kind.isSymbol sym then (do Parser.advance; return true) else return false :
    Rule Bool) s = _
  rw [isSymbol_iff.2 hs]
  rfl

theorem Arrives.noSymbol {f : Bool → Rule α} {sym : Symbol} (hk : (ts ++ rest).head? = some k)
    (hne : k ≠ .symbol sym) (h : Arrives fits (f false) ts rest R) :
    Arrives fits (Parser.skipSymbol sym >>= f) ts rest R := by
  refine .stay hk (fun s hs => ?_) h
  show (if s.current.kind.isSymbol sym then (do Parser.advance; return true) else return false :
    Rule Bool) s = _
  rw [Bool.eq_false_iff.2 fun h => hne (hs ▸ isSymbol_iff.1 h)]
  rfl

theorem Arrives.skipKeyword {f : Bool → Rule α} {word : Keyword}
    (h : Arrives fits (f true) ts rest R) :
    Arrives fits (skipKeyword word >>= f) (.keyword word :: ts) rest R := by
  refine .pass (fun s hs => ?_) h
  show (if s.current.kind.isKeyword word then (do Parser.advance; return true) else return false :
    Rule Bool) s = _
  rw [isKeyword_iff.2 hs]
  rfl

theorem Arrives.noKeyword {f : Bool → Rule α} {word : Keyword}
    (hk : (ts ++ rest).head? = some k) (hne : k ≠ .keyword word)
    (h : Arrives fits (f false) ts rest R) :
    Arrives fits (Parser.skipKeyword word >>= f) ts rest R := by
  refine .stay hk (fun s hs => ?_) h
  show (if s.current.kind.isKeyword word then (do Parser.advance; return true) else return false :
    Rule Bool) s = _
  rw [Bool.eq_false_iff.2 fun h => hne (hs ▸ isKeyword_iff.1 h)]
  rfl

end

/-! ## The tree -/

/-- Rules that only touch the identities. -/
theorem Arrives.silent {x : Rule β} {f : β → Rule α} {R : Rule α → Prop}
    (hx : ∀ s : State, ∃ b n, x s = .ok b { s with nextId := n })
    (h : ∀ b, Arrives fits (f b) ts rest R) : Arrives fits (x >>= f) ts rest R := by
  intro hne s hs hi
  obtain ⟨b, n, hxs⟩ := hx s
  obtain ⟨r, t, hrun, ht, hit, het, hr⟩ := h b hne { s with nextId := n } hs hi
  exact ⟨r, t, (EStateM.bind_of_ok hxs f).trans hrun, ht, hit, het, hr⟩

theorem Arrives.freshId {f : ExprId → Rule α} {R : Rule α → Prop}
    (h : ∀ id, Arrives fits (f id) ts rest R) : Arrives fits (freshId >>= f) ts rest R :=
  .silent (fun _ => ⟨_, _, rfl⟩) h

theorem Arrives.spanFrom {first : Span} {f : Span → Rule α} {R : Rule α → Prop}
    (h : ∀ span, Arrives fits (f span) ts rest R) :
    Arrives fits (spanFrom first >>= f) ts rest R :=
  .silent (fun s => ⟨_, s.nextId, rfl⟩) h

theorem Arrives.expr {first : Span} {node : Expr.Node} {f : Expr → Rule α} {R : Rule α → Prop}
    (h : ∀ id span, Arrives fits (f ⟨id, span, node⟩) ts rest R) :
    Arrives fits (expr first node >>= f) ts rest R :=
  .freshId (f := fun id => do f ⟨id, ← Parser.spanFrom first, node⟩) fun id =>
    .spanFrom (f := fun span => f ⟨id, span, node⟩) fun span => h id span

theorem Takes.expr {first : Span} {node : Expr.Node} {Q : Expr → Prop}
    (h : ∀ id span, Q ⟨id, span, node⟩) : Takes fits (expr first node) [] rest Q := by
  rw [← bind_pure (Parser.expr first node)]
  exact Arrives.expr fun id span => .pure (h id span)

theorem Takes.stmt {node : Rule Stmt.Node} {Q : Stmt → Prop}
    (h : Takes fits node ts rest fun node => ∀ span, Q ⟨span, node⟩) :
    Takes fits (stmt node) ts rest Q := by
  intro hne s hs hi
  obtain ⟨_, t, hrun, ht, hit, het, node', rfl, hq⟩ := h hne s hs hi
  refine ⟨_, t, ?_, ht, hit, het, ⟨s.current.span.extend t.previous.span, node'⟩, rfl, hq _⟩
  exact EStateM.bind_of_ok hrun _

theorem Takes.recover {rule : Rule α} {Q : α → Prop} (h : Takes fits rule ts rest Q) :
    Takes fits (recover rule) ts rest fun o => ∃ a, o = some a ∧ Q a := by
  intro hne s hs hi
  obtain ⟨_, t, hrun, ht, hit, het, a, rfl, hq⟩ := h hne s hs hi
  refine ⟨_, t, ?_, ht, hit, het, some a, rfl, a, rfl, hq⟩
  unfold Parser.recover
  rw [hrun]
  rfl

/-! ## Long lists -/

theorem Arrives.reportSurplus {items : List α} {span : α → Span} {kind : ParseErrorKind}
    {f : Unit → Rule β} {R : Rule β → Prop} (hfits : fits items.length)
    (h : Arrives fits (f ()) ts rest R) :
    Arrives fits (reportSurplus span kind items >>= f) ts rest R := by
  intro hne s hs hi
  let es : List ParseError := (items.drop maxArgs).map fun x => ⟨span x, kind⟩
  have hes := forM_report (fun x => ⟨span x, kind⟩) (items.drop maxArgs) s
  obtain ⟨r, t, hrun, ht, hit, het, hr⟩ := h hne { s with errors := s.errors ++ es } hs hi
  refine ⟨r, t, (EStateM.bind_of_ok hes f).trans hrun, ht, hit, fun hf => ?_, hr⟩
  have hnil : es = [] := List.map_eq_nil_iff.2 (List.drop_eq_nil_iff.2 (hf _ hfits))
  rw [het hf, hnil, List.append_nil]

end Lox.Parser

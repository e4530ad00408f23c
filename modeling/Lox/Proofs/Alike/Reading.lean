import Mathlib.Data.List.Forall2
import Lox.Proofs.Alike.Walk
import Lox.Proofs.Syntax.Reads

/-!
# Readings that are alike

Two readings of tokens that are alike are compared step by step.  The tokens may be all that there
are, with the first identity or the place in the source moved; or the one text ends where the other
goes on, and what is compared is how they are read up to there.

A rule that ends by taking a token reads the same in both.  A rule that looks whether more of it
comes may be misled by what comes behind the end, but a rule that has to take a token next then
fails in the text that ends (`Grip`).

    Mirrors C P g A x x' → (∀ a a', Mirrors C (P ∧ A a a') g' B (f a) (f' a')) →
      Mirrors C P (g.andThen g') B (x >>= f) (x' >>= f')                            (Mirrors.bind)
-/

namespace Lox

structure Token.Alike (L : Likeness) (t t' : Token) : Prop where
  kind : t.kind = t'.kind
  span : L.span t.span t'.span

structure ParseError.Alike (L : Likeness) (e e' : ParseError) : Prop where
  span : L.span e.span e'.span
  kind : e.kind = e'.kind

namespace Parser

/-! ## What is compared -/

/-- How two readings are compared. -/
structure Comparison where
  L : Likeness
  closed : L.Closed
  /-- Whether errors are compared as well. -/
  exact : Prop
  /-- The tokens behind those that are compared, in the first text. -/
  behind : List Token
  /-- Those in the second. -/
  behind' : List Token
  /-- The errors that the second reading has found before. -/
  earlier : List ParseError
  of_exact : exact → behind = []
  /-- Nothing is behind them, or the one text ends where the other goes on: not with an `else`. -/
  ends : behind = [] ∧ behind' = [] ∨
    (∃ e, behind = [e] ∧ e.kind = .endOfFile) ∧
      ∃ t ts, behind' = t :: ts ∧ t.kind ≠ .keyword .else ∧ ∀ e, t.kind ≠ .invalid e

inductive Stop.Alike (L : Likeness) : Stop → Stop → Prop
  | error {e e' : ParseError} : e.Alike L e' → Stop.Alike L (.error e) (.error e')
  | outOfFuel : Stop.Alike L .outOfFuel .outOfFuel

variable {C : Comparison}

/-- The second reading has found errors that are alike, behind those from before. -/
def Comparison.Errors (C : Comparison) (es es' : List ParseError) : Prop :=
  ∃ fs, es' = C.earlier ++ fs ∧ List.Forall₂ (ParseError.Alike C.L) es fs

theorem Comparison.Errors.append {es es' fs fs' : List ParseError} (h : C.Errors es es')
    (hf : List.Forall₂ (ParseError.Alike C.L) fs fs') : C.Errors (es ++ fs) (es' ++ fs') := by
  obtain ⟨gs, rfl, hgs⟩ := h
  exact ⟨gs ++ fs', List.append_assoc .., List.rel_append hgs hf⟩

structure State.Alike (C : Comparison) (s s' : State) : Prop where
  previous : s.previous.Alike C.L s'.previous
  input : ∃ ts ts', s.current :: s.upcoming = ts ++ C.behind ∧
    s'.current :: s'.upcoming = ts' ++ C.behind' ∧ List.Forall₂ (Token.Alike C.L) ts ts'
  errors : C.Errors s.errors s'.errors
  nextId : C.L.id s.nextId s'.nextId

/-- Of the tokens that are compared none is left. -/
structure State.Spent (C : Comparison) (s : State) : Prop where
  behind : C.behind ≠ []
  upcoming : s.upcoming = []
  current : s.current.kind = .endOfFile

/-- Where not all has been taken, the current tokens are alike. -/
theorem State.Alike.current {s s' : State} (hs : s.Alike C s') (h : ¬s.Spent C) :
    s.current.Alike C.L s'.current ∧ ∃ ts ts', s.upcoming = ts ++ C.behind ∧
      s'.upcoming = ts' ++ C.behind' ∧ List.Forall₂ (Token.Alike C.L) ts ts' := by
  obtain ⟨ts, ts', hi, hi', ht⟩ := hs.input
  cases ht with
  | cons ht hts =>
    obtain ⟨rfl, hu⟩ := List.cons.inj hi
    obtain ⟨rfl, hu'⟩ := List.cons.inj hi'
    exact ⟨ht, _, _, hu, hu', hts⟩
  | nil =>
    rw [List.nil_append] at hi
    rcases C.ends with ⟨hb, -⟩ | ⟨⟨e, hb, he⟩, -⟩
    · rw [hb] at hi
      cases hi
    · rw [hb] at hi
      obtain ⟨hc, hu⟩ := List.cons.inj hi
      exact absurd ⟨hb ▸ List.cons_ne_nil _ _, hu, hc ▸ he⟩ h

theorem State.Alike.shift {s s' : State} {ts ts' : List Token}
    (hcurrent : s.current.Alike C.L s'.current)
    (herrors : C.Errors s.errors s'.errors)
    (hnext : C.L.id s.nextId s'.nextId) (hts : List.Forall₂ (Token.Alike C.L) ts ts') :
    (s.shift (ts ++ C.behind)).Alike C (s'.shift (ts' ++ C.behind')) := by
  induction hts generalizing s s' with
  | nil =>
    rw [List.nil_append, List.nil_append]
    rcases C.ends with ⟨hb, hb'⟩ | ⟨⟨e, hb, he⟩, t, ts, hb', -, hvalid⟩
    · rw [hb, hb']
      exact ⟨hcurrent, ⟨[_], [_], by rw [hb]; rfl, by rw [hb']; rfl, .cons hcurrent .nil⟩,
        herrors, hnext⟩
    · have hs : s.shift C.behind = { s with previous := s.current, current := e, upcoming := [] } := by
        rw [hb, State.shift, he]
      have hs' : s'.shift C.behind' =
          { s' with previous := s'.current, current := t, upcoming := ts } := by
        rw [hb', State.shift]
        split
        · next e he => exact absurd he (hvalid e)
        · rfl
      rw [hs, hs']
      exact ⟨hcurrent, ⟨[], [], by rw [hb]; rfl, by rw [hb']; rfl, .nil⟩, herrors, hnext⟩
  | @cons t t' ts ts' ht hts ih =>
    rw [List.cons_append, List.cons_append, State.shift, State.shift, ← ht.kind]
    split
    · exact ih hcurrent (herrors.append (.cons ⟨ht.span, rfl⟩ .nil)) hnext
    · exact ⟨hcurrent, ⟨t :: ts, t' :: ts', rfl, rfl, .cons ht hts⟩, herrors, hnext⟩

theorem State.Alike.advance {s s' : State} (hs : s.Alike C s') (h : ¬s.Spent C) :
    s.advance.Alike C s'.advance := by
  obtain ⟨hcurrent, ts, ts', hu, hu', hts⟩ := hs.current h
  rw [State.advance, State.advance, hu, hu']
  exact .shift hcurrent hs.errors hs.nextId hts

theorem State.Spent.advance {s : State} (h : s.Spent C) : s.advance.Spent C := by
  rw [State.advance, h.upcoming]
  exact ⟨h.behind, rfl, h.current⟩

/-- Where all has been taken the other text goes on. -/
theorem State.Alike.spent {s s' : State} (hs : s.Alike C s') (h : s.Spent C) :
    s'.current :: s'.upcoming = C.behind' ∧ s'.current.kind ≠ .keyword .else := by
  obtain ⟨ts, ts', hi, hi', ht⟩ := hs.input
  rcases C.ends with ⟨hb, -⟩ | ⟨⟨e, hb, -⟩, t, us, hb', hne, -⟩
  · exact absurd hb h.behind
  · rw [hb, h.upcoming] at hi
    cases ht with
    | nil =>
      rw [hi', List.nil_append]
      rw [hb', List.nil_append] at hi'
      exact ⟨rfl, (List.cons.inj hi').1 ▸ hne⟩
    | cons _ _ => simp at hi

theorem not_spent_of_exact (h : C.exact) (s : State) : ¬s.Spent C :=
  fun hs => hs.behind (C.of_exact h)

/-! ## Rules that mirror each other -/

/-- How far a rule can be told from what comes behind it. -/
inductive Grip
  /-- It may look at what comes, to see whether more of it does. -/
  | loose
  /-- It does not look behind its end. -/
  | firm
  /-- Nor does it, and it has to take a token. -/
  | taking

/-- The grip of two rules in a row. -/
def Grip.andThen (g : Grip) : Grip → Grip
  | loose => loose
  | firm => g
  | taking => taking

/-- If `P` holds, then from states that are alike both rules end alike; but where the one text ends
it is enough if no error has been reported and, of a loose rule, if a token is left. -/
structure Mirrors (C : Comparison) (P : Prop) (g : Grip) {α : Type} (A : α → α → Prop)
    (x x' : Rule α) : Prop where
  /-- An error that has been reported stays, and what has been taken remains so. -/
  onward : ∀ {s a t}, x s = .ok a t → t.errors = [] →
    s.errors = [] ∧ (s.Spent C → t.Spent C ∧ g ≠ .taking)
  ok : P → ∀ {s s'}, s.Alike C s' → ∀ {a t}, x s = .ok a t →
    C.exact ∨ t.errors = [] ∧ (g = .loose → ¬t.Spent C) →
    ∃ a' t', x' s' = .ok a' t' ∧ A a a' ∧ t.Alike C t'
  error : P → C.exact → ∀ {s s'}, s.Alike C s' → ∀ {e t}, x s = .error e t →
    ∃ e' t', x' s' = .error e' t' ∧ e.Alike C.L e' ∧ t.Alike C t'

namespace Mirrors

variable {P Q : Prop} {g r : Grip} {α β : Type} {A : α → α → Prop} {B : β → β → Prop}
  {x x' : Rule α}

theorem imp (h : Mirrors C P g A x x') (hp : Q → P) : Mirrors C Q g A x x' :=
  ⟨h.onward, fun hq => h.ok (hp hq), fun hq => h.error (hp hq)⟩

theorem firm (h : Mirrors C P .taking A x x') : Mirrors C P .firm A x x' where
  onward hx ht := ⟨(h.onward hx ht).1, fun hs => ⟨((h.onward hx ht).2 hs).1, nofun⟩⟩
  ok hp _ _ hs _ _ hx ht := h.ok hp hs hx (ht.imp_right fun ⟨he, _⟩ => ⟨he, nofun⟩)
  error := h.error

theorem loose (h : Mirrors C P g A x x') : Mirrors C P .loose A x x' where
  onward hx ht := ⟨(h.onward hx ht).1, fun hs => ⟨((h.onward hx ht).2 hs).1, nofun⟩⟩
  ok hp _ _ hs _ _ hx ht := h.ok hp hs hx (ht.imp_right fun ⟨he, hl⟩ => ⟨he, fun _ => hl rfl⟩)
  error := h.error

theorem pure {a a' : α} (h : P → A a a') :
    Mirrors C P .firm A (Pure.pure a) (Pure.pure a') where
  onward := by
    rintro s _ _ ⟨⟩ ht
    exact ⟨ht, fun hs => ⟨hs, nofun⟩⟩
  ok := by
    rintro hp s s' hs _ _ ⟨⟩ -
    exact ⟨a', s', rfl, h hp, hs⟩
  error := by
    rintro - - s s' - _ _ ⟨⟩

theorem throw {stop stop' : Stop} (h : P → stop.Alike C.L stop') :
    Mirrors C P .taking A (throw stop) (throw stop') where
  onward := by rintro s _ _ ⟨⟩
  ok := by rintro - s s' - _ _ ⟨⟩
  error := by
    rintro hp - s s' hs _ _ ⟨⟩
    exact ⟨stop', s', rfl, h hp, hs⟩

/-- Rules in a row: the second is begun in states that are alike if the first has ended in such,
with a grip as firm as both have together. -/
theorem bind {f f' : α → Rule β} (hx : Mirrors C P g A x x')
    (hf : ∀ a a', Mirrors C (P ∧ A a a') r B (f a) (f' a')) :
    Mirrors C P (g.andThen r) B (x >>= f) (x' >>= f') where
  onward := by
    intro s b u hu he
    obtain ⟨a, t, hxt, hft⟩ := EStateM.bind_eq_ok.1 hu
    obtain ⟨het, hf⟩ := (hf a a).onward hft he
    obtain ⟨hes, hx⟩ := hx.onward hxt het
    refine ⟨hes, fun hs => ?_⟩
    obtain ⟨ht, hg⟩ := hx hs
    obtain ⟨hu, hg'⟩ := hf ht
    exact ⟨hu, by cases r <;> simp_all [Grip.andThen]⟩
  ok := by
    intro hp s s' hs b u hu hgood
    obtain ⟨a, t, hxt, hft⟩ := EStateM.bind_eq_ok.1 hu
    have hgood' : C.exact ∨ t.errors = [] ∧ (g = .loose → ¬t.Spent C) := by
      refine hgood.imp_right fun ⟨he, hspent⟩ => ?_
      obtain ⟨het, hf⟩ := (hf a a).onward hft he
      refine ⟨het, fun hg ht => ?_⟩
      obtain ⟨hu, hg'⟩ := hf ht
      cases r with
      | taking => exact hg' rfl
      | firm => exact hspent hg hu
      | loose => exact hspent rfl hu
    obtain ⟨a', t', hxt', ha, ht⟩ := hx.ok hp hs hxt hgood'
    obtain ⟨b', u', hft', hb, hu'⟩ := (hf a a').ok ⟨hp, ha⟩ ht hft
      (hgood.imp_right fun ⟨he, hspent⟩ => ⟨he, fun hg => hspent (by rw [hg]; rfl)⟩)
    exact ⟨b', u', (EStateM.bind_of_ok hxt' f').trans hft', hb, hu'⟩
  error := by
    intro hp hexact s s' hs e u hu
    rcases EStateM.bind_eq_error.1 hu with hxe | ⟨a, t, hxt, hft⟩
    · obtain ⟨e', t', hx', he, ht⟩ := hx.error hp hexact hs hxe
      exact ⟨e', t', EStateM.bind_of_error hx' f', he, ht⟩
    · obtain ⟨a', t', hxt', ha, ht⟩ := hx.ok hp hs hxt (.inl hexact)
      obtain ⟨e', u', hft', he, hu'⟩ := (hf a a').error ⟨hp, ha⟩ hexact ht hft
      exact ⟨e', u', (EStateM.bind_of_ok hxt' f').trans hft', he, hu'⟩

theorem map {f f' : α → β} (hx : Mirrors C P g A x x') (hf : ∀ a a', P → A a a' → B (f a) (f' a')) :
    Mirrors C P g B (f <$> x) (f' <$> x') := by
  rw [map_eq_pure_bind, map_eq_pure_bind]
  exact hx.bind (r := .firm) fun a a' => .pure fun ⟨hp, ha⟩ => hf a a' hp ha

theorem ite {b b' : Bool} {y y' : Rule α} (hb : P → b = b') (hx : Mirrors C P g A x x')
    (hy : Mirrors C P g A y y') :
    Mirrors C P g A (if b then x else y) (if b' then x' else y') where
  onward := by
    cases b with
    | true => exact hx.onward
    | false => exact hy.onward
  ok hp := by
    rw [← hb hp]
    cases b with
    | true => exact hx.ok hp
    | false => exact hy.ok hp
  error hp := by
    rw [← hb hp]
    cases b with
    | true => exact hx.error hp
    | false => exact hy.error hp

/-- It is enough to compare closed rules once. -/
theorem any (h : Mirrors C True g A x x') : Mirrors C P g A x x' :=
  h.imp fun _ => trivial

/-- What depends on an answer that is the same in both. -/
theorem same {f f' : α → Rule β} (hx : Mirrors C P g Eq x x')
    (hf : ∀ a, Mirrors C P r B (f a) (f' a)) :
    Mirrors C P (g.andThen r) B (x >>= f) (x' >>= f') := by
  refine hx.bind fun a a' => ⟨(hf a).onward, ?_, ?_⟩
  · rintro ⟨hp, rfl⟩
    exact (hf a).ok hp
  · rintro ⟨hp, rfl⟩
    exact (hf a).error hp

/-- What depends on a token that is alike: its kind is the same. -/
theorem token {f f' : Token → Rule α} {t t' : Token} (ht : P → t.Alike C.L t')
    (h : ∀ kind span span',
      Mirrors C (P ∧ C.L.span span span') g A (f ⟨kind, span⟩) (f' ⟨kind, span'⟩)) :
    Mirrors C P g A (f t) (f' t') where
  onward := (h t.kind t.span t.span).onward
  ok := by
    intro hp
    obtain ⟨kind, span⟩ := t
    obtain ⟨kind', span'⟩ := t'
    obtain ⟨rfl, hspan⟩ := ht hp
    exact (h kind span span').ok ⟨hp, hspan⟩
  error := by
    intro hp
    obtain ⟨kind, span⟩ := t
    obtain ⟨kind', span'⟩ := t'
    obtain ⟨rfl, hspan⟩ := ht hp
    exact (h kind span span').error ⟨hp, hspan⟩

/-- A step to the next token, if what comes then is fit for the end of the text. -/
theorem advance {f f' : Unit → Rule α} (hg : g ≠ .firm) (h : Mirrors C P g A (f ()) (f' ())) :
    Mirrors C P g A (Parser.advance >>= f) (Parser.advance >>= f') where
  onward := by
    intro s a t hrun he
    obtain ⟨hes, ht⟩ := h.onward (s := s.advance) hrun he
    exact ⟨State.errors_advance hes, fun hs => ht hs.advance⟩
  ok := by
    intro hp s s' hs a t hrun hgood
    have hspent : ¬s.Spent C := by
      intro hspent
      rcases hgood with hexact | ⟨he, hloose⟩
      · exact not_spent_of_exact hexact s hspent
      · obtain ⟨ht, htaking⟩ := (h.onward (s := s.advance) hrun he).2 hspent.advance
        cases g with
        | loose => exact hloose rfl ht
        | firm => exact hg rfl
        | taking => exact htaking rfl
    exact h.ok hp (hs.advance hspent) hrun hgood
  error hp hexact _ _ hs _ _ hrun :=
    h.error hp hexact (hs.advance (not_spent_of_exact hexact _)) hrun

/-- A step to the next token and a look back, at a token that has to be there. -/
theorem next {f f' : Token → Rule α} (hend : ∀ t s a u, t.kind = .endOfFile → f t s ≠ .ok a u)
    (h : ∀ kind span span',
      Mirrors C (P ∧ C.L.span span span') .firm A (f ⟨kind, span⟩) (f' ⟨kind, span'⟩)) :
    Mirrors C P .taking A (Parser.advance >>= fun _ => previousToken >>= f)
      (Parser.advance >>= fun _ => previousToken >>= f') where
  onward := by
    intro s a t hrun he
    have hrun : f s.advance.previous s.advance = .ok a t := hrun
    obtain ⟨hes, -⟩ := (h _ _ s.advance.previous.span).onward hrun he
    refine ⟨State.errors_advance hes, fun hs => absurd hrun (hend _ _ _ _ ?_)⟩
    rw [s.previous_advance, hs.current]
  ok := by
    intro hp s s' hs a t hrun hgood
    have hrun : f s.advance.previous s.advance = .ok a t := hrun
    have hspent : ¬s.Spent C :=
      fun hs => hend _ _ _ _ (by rw [s.previous_advance, hs.current]) hrun
    have hadvance := hs.advance hspent
    exact (token (P := True) (fun _ => hadvance.previous) fun kind span span' =>
      (h kind span span').imp fun ⟨_, hspan⟩ => ⟨hp, hspan⟩).ok trivial hadvance hrun
        (hgood.imp_right fun ⟨he, _⟩ => ⟨he, nofun⟩)
  error := by
    intro hp hexact s s' hs e t hrun
    have hadvance := hs.advance (not_spent_of_exact hexact s)
    exact (token (P := True) (fun _ => hadvance.previous) fun kind span span' =>
      (h kind span span').imp fun ⟨_, hspan⟩ => ⟨hp, hspan⟩).error trivial hexact hadvance hrun

/-- A step past the current token if it is of some kind, which is not the end of the text.  What is
read otherwise has to take a token, since the other text may go on with one of that kind. -/
theorem skip {skip : Rule Bool} {p : Token.Kind → Bool} {f f' : Bool → Rule α}
    (hskip : ∀ s, skip s = if p s.current.kind then .ok true s.advance else .ok false s)
    (hp : p .endOfFile = false) (hx : Mirrors C P .firm A (f true) (f' true))
    (hy : Mirrors C P .taking A (f false) (f' false)) :
    Mirrors C P .taking A (skip >>= f) (skip >>= f') := by
  have htaken {s : State} {f : Bool → Rule α} (h : p s.current.kind = true) :
      (skip >>= f) s = f true s.advance :=
    EStateM.bind_of_ok ((hskip s).trans (if_pos h)) f
  have hleft {s : State} {f : Bool → Rule α} (h : ¬p s.current.kind = true) :
      (skip >>= f) s = f false s :=
    EStateM.bind_of_ok ((hskip s).trans (if_neg h)) f
  have hstays {s : State} (hs : s.Spent C) : ¬p s.current.kind = true := by
    rw [hs.current, hp]
    exact Bool.false_ne_true
  constructor
  case onward =>
    intro s a t hrun he
    by_cases hk : p s.current.kind = true
    · rw [htaken hk] at hrun
      exact ⟨State.errors_advance (hx.onward hrun he).1, fun hs => absurd hk (hstays hs)⟩
    · rw [hleft hk] at hrun
      exact hy.onward hrun he
  case ok =>
    intro hP s s' hs a t hrun hgood
    have hspent : ¬s.Spent C := by
      intro hspent
      rcases hgood with hexact | ⟨he, -⟩
      · exact not_spent_of_exact hexact s hspent
      · rw [hleft (hstays hspent)] at hrun
        exact ((hy.onward hrun he).2 hspent).2 rfl
    have hkind := (hs.current hspent).1.kind
    by_cases hk : p s.current.kind = true
    · rw [htaken hk] at hrun
      rw [htaken (hkind ▸ hk)]
      exact hx.ok hP (hs.advance hspent) hrun (hgood.imp_right fun ⟨he, _⟩ => ⟨he, nofun⟩)
    · rw [hleft hk] at hrun
      rw [hleft (hkind ▸ hk)]
      exact hy.ok hP hs hrun hgood
  case error =>
    intro hP hexact s s' hs e t hrun
    have hspent := not_spent_of_exact hexact s
    have hkind := (hs.current hspent).1.kind
    by_cases hk : p s.current.kind = true
    · rw [htaken hk] at hrun
      rw [htaken (hkind ▸ hk)]
      exact hx.error hP hexact (hs.advance hspent) hrun
    · rw [hleft hk] at hrun
      rw [hleft (hkind ▸ hk)]
      exact hy.error hP hexact hs hrun

end Mirrors

/-! ## Single tokens -/

variable {P : Prop}

theorem mirrors_currentToken : Mirrors C P .loose (Token.Alike C.L) currentToken currentToken where
  onward := by
    rintro s _ _ ⟨⟩ he
    exact ⟨he, fun hs => ⟨hs, nofun⟩⟩
  ok := by
    rintro - s s' hs _ _ ⟨⟩ hgood
    have hspent : ¬s.Spent C := by
      rcases hgood with hexact | ⟨-, hloose⟩
      · exact not_spent_of_exact hexact s
      · exact hloose rfl
    exact ⟨s'.current, s', rfl, (hs.current hspent).1, hs⟩
  error := by rintro - - s s' - _ _ ⟨⟩

/-- A look at the current token, if what is read then is fit for the end of the text. -/
theorem Mirrors.current {g : Grip} {α : Type} {A : α → α → Prop} {f f' : Token → Rule α}
    (hg : g ≠ .firm) (h : ∀ kind span span',
      Mirrors C (P ∧ C.L.span span span') g A (f ⟨kind, span⟩) (f' ⟨kind, span'⟩)) :
    Mirrors C P g A (currentToken >>= f) (currentToken >>= f') := by
  have hrun : Mirrors C P (Grip.loose.andThen g) A (currentToken >>= f) (currentToken >>= f') :=
    mirrors_currentToken.bind fun t t' => .token And.right fun kind span span' =>
      (h kind span span').imp fun ⟨⟨hp, _⟩, hspan⟩ => ⟨hp, hspan⟩
  cases g with
  | firm => exact absurd rfl hg
  | _ => exact hrun

theorem mirrors_previousToken : Mirrors C P .firm (Token.Alike C.L) previousToken previousToken where
  onward := by
    rintro s _ _ ⟨⟩ he
    exact ⟨he, fun hs => ⟨hs, nofun⟩⟩
  ok := by
    rintro - s s' hs _ _ ⟨⟩ -
    exact ⟨s'.previous, s', rfl, hs.previous, hs⟩
  error := by rintro - - s s' - _ _ ⟨⟩

theorem mirrors_freshId : Mirrors C P .firm C.L.id freshId freshId where
  onward := by
    rintro s _ _ ⟨⟩ he
    exact ⟨he, fun hs => ⟨⟨hs.behind, hs.upcoming, hs.current⟩, nofun⟩⟩
  ok := by
    rintro - s s' hs _ _ ⟨⟩ -
    exact ⟨s'.nextId, _, rfl, hs.nextId, hs.previous, hs.input, hs.errors,
      C.closed.next hs.nextId⟩
  error := by rintro - - s s' - _ _ ⟨⟩

theorem mirrors_fail {α : Type} {A : α → α → Prop} {span span' : Span} (kind : ParseErrorKind)
    (h : P → C.L.span span span') : Mirrors C P .taking A (fail span kind) (fail span' kind) :=
  .throw fun hp => .error ⟨h hp, rfl⟩

theorem mirrors_spanFrom {first first' : Span} (h : P → C.L.span first first') :
    Mirrors C P .firm C.L.span (spanFrom first) (spanFrom first') :=
  mirrors_previousToken.bind (r := .firm) fun _ _ => .pure fun ⟨hp, ht⟩ =>
    C.closed.extend (h hp) ht.span

theorem mirrors_expr {first first' : Span} {node node' : Expr.Node}
    (h : P → C.L.span first first') (hnode : P → node.Alike C.L node') :
    Mirrors C P .firm (Expr.Alike C.L) (expr first node) (expr first' node') :=
  mirrors_freshId.bind (r := .firm) fun _ _ =>
    (mirrors_spanFrom fun ⟨hp, _⟩ => h hp).bind (r := .firm) fun _ _ =>
      .pure fun ⟨⟨hp, hid⟩, hspan⟩ => .mk hid hspan (hnode hp)

theorem mirrors_stmt {node node' : Rule Stmt.Node}
    (h : Mirrors C P .taking (Stmt.Node.Alike C.L) node node') :
    Mirrors C P .taking (Stmt.Alike C.L) (stmt node) (stmt node') :=
  mirrors_currentToken.bind (r := .taking) fun _ _ =>
    (h.imp And.left).bind (r := .firm) fun _ _ =>
      (mirrors_spanFrom fun ⟨⟨_, ht⟩, _⟩ => ht.span).bind (r := .firm) fun _ _ =>
        .pure fun ⟨⟨_, hnode⟩, hspan⟩ => .mk hspan hnode

theorem mirrors_atSymbol (sym : Symbol) : Mirrors C P .loose Eq (atSymbol sym) (atSymbol sym) :=
  mirrors_currentToken.bind (r := .firm) fun _ _ => .pure fun ⟨_, ht⟩ => by rw [ht.kind]

theorem mirrors_atEnd : Mirrors C P .loose Eq atEnd atEnd :=
  mirrors_currentToken.bind (r := .firm) fun _ _ => .pure fun ⟨_, ht⟩ => by rw [ht.kind]

theorem mirrors_skipSymbol (sym : Symbol) :
    Mirrors C P .loose Eq (skipSymbol sym) (skipSymbol sym) :=
  (mirrors_atSymbol sym).bind (r := .loose) fun _ _ =>
    .ite And.right (.advance nofun (.loose (.pure fun _ => rfl))) (.loose (.pure fun _ => rfl))

/-- What goes on where the one text ends does not begin with `else`. -/
theorem mirrors_skipElse : Mirrors C P .firm Eq (skipKeyword .else) (skipKeyword .else) where
  onward := by
    intro s b t h he
    rw [skipKeyword_apply] at h
    split at h
    · cases h
      exact ⟨State.errors_advance he, fun hs => ⟨hs.advance, nofun⟩⟩
    · cases h
      exact ⟨he, fun hs => ⟨hs, nofun⟩⟩
  ok := by
    intro _ s s' hs b t h _
    have hkind : s.current.kind.isKeyword .else = s'.current.kind.isKeyword .else := by
      by_cases hspent : s.Spent C
      · rw [hspent.current]
        exact (Bool.eq_false_iff.2 fun hk => (hs.spent hspent).2 (isKeyword_iff.1 hk)).symm
      · rw [(hs.current hspent).1.kind]
    rw [skipKeyword_apply] at h ⊢
    rw [← hkind]
    split at h
    · next hk =>
      have hspent : ¬s.Spent C := fun hspent => by rw [hspent.current] at hk; cases hk
      cases h
      exact ⟨true, _, if_pos hk, rfl, hs.advance hspent⟩
    · next hk =>
      cases h
      exact ⟨false, _, if_neg hk, rfl, hs⟩
  error := by
    intro _ _ s s' _ e t h
    rw [skipKeyword_apply] at h
    split at h <;> cases h

theorem mirrors_expect (sym : Symbol) (otherwise : ParseErrorKind) :
    Mirrors C P .taking (fun _ _ => True) (expect sym otherwise) (expect sym otherwise) := by
  refine .next (fun t s a u ht h => ?_) fun kind span span' => ?_
  · rw [ht] at h
    cases h
  · exact .ite (fun _ => rfl) (.pure fun _ => trivial) (mirrors_fail _ And.right).firm

theorem mirrors_identifier (otherwise : ParseErrorKind) :
    Mirrors C P .taking (Identifier.Alike C.L) (identifier otherwise) (identifier otherwise) := by
  refine .next (fun t s a u ht h => ?_) fun kind span span' => ?_
  · rw [ht] at h
    cases h
  · cases kind with
    | identifier name => exact .pure fun ⟨_, hspan⟩ => ⟨rfl, hspan⟩
    | _ => exact (mirrors_fail _ And.right).firm

theorem mirrors_reportSurplus {α : Type} {R : α → α → Prop} {span : α → Span}
    (hspan : ∀ a a', R a a' → C.L.span (span a) (span a')) (kind : ParseErrorKind)
    {items items' : List α} (h : P → List.Forall₂ R items items') :
    Mirrors C P .firm (fun _ _ => True) (reportSurplus span kind items)
      (reportSurplus span kind items') where
  onward := by
    intro s _ t hrun he
    cases (forM_report _ _ s).symm.trans hrun
    exact ⟨(List.append_eq_nil_iff.1 he).1,
      fun hs => ⟨⟨hs.behind, hs.upcoming, hs.current⟩, nofun⟩⟩
  ok := by
    intro hp s s' hs _ t hrun _
    cases (forM_report _ _ s).symm.trans hrun
    refine ⟨(), _, forM_report _ _ s', trivial, hs.previous, hs.input, ?_, hs.nextId⟩
    refine hs.errors.append ?_
    rw [List.forall₂_map_left_iff, List.forall₂_map_right_iff]
    exact (List.forall₂_drop _ (h hp)).imp fun a a' ha => ⟨hspan a a' ha, rfl⟩
  error := by
    intro _ _ s s' _ e t hrun
    cases (forM_report _ _ s).symm.trans hrun

end Parser

end Lox

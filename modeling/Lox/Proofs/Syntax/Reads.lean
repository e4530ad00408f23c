import Lox.Proofs.Sequence
import Lox.Proofs.Syntax.Grammar
import Lox.Proofs.Syntax.Identity
import Lox.Syntax.Parser

/-!
# What a rule reads

Of a rule that ends well with no error reported, `Reads rule s Q` says what it has read: the tokens
from the state `s` to the one that it ends in, which `Q` speaks about.  Since an error that has been
reported stays, no part of the rule has reported one either.

    Reads x s P → (∀ b t, Reads (f b) t fun a u vs => ∀ us, P b t us → Q a u (us ++ vs)) →
      Reads (x >>= f) s Q                                                          (Reads.bind)
-/

namespace Lox

/-! ## Identities handed out in a row -/

/-- The identities differ and have been handed out between `lo` and `hi`. -/
def Fresh (lo hi : Nat) (ids : List Nat) : Prop :=
  ids.Nodup ∧ ∀ id ∈ ids, lo ≤ id ∧ id < hi

namespace Fresh

variable {lo mid hi : Nat} {ids ids' : List Nat}

theorem nil : Fresh lo hi [] := ⟨List.nodup_nil, by simp⟩

theorem append (h : Fresh lo mid ids) (h' : Fresh mid hi ids') (hl : lo ≤ mid) (hr : mid ≤ hi) :
    Fresh lo hi (ids ++ ids') := by
  refine ⟨List.nodup_append.2 ⟨h.1, h'.1, ?_⟩, ?_⟩
  · rintro a ha b hb rfl
    have := h.2 a ha
    have := h'.2 a hb
    omega
  · intro id hid
    rcases List.mem_append.1 hid with hid | hid
    · have := h.2 id hid
      omega
    · have := h'.2 id hid
      omega

theorem perm (h : Fresh lo hi ids) (hp : ids.Perm ids') : Fresh lo hi ids' :=
  ⟨hp.nodup_iff.1 h.1, fun id hid => h.2 id (hp.mem_iff.2 hid)⟩

theorem sublist (h : Fresh lo hi ids) (hs : ids'.Sublist ids) : Fresh lo hi ids' :=
  ⟨h.1.sublist hs, fun id hid => h.2 id (hs.subset hid)⟩

theorem mono {lo' hi' : Nat} (h : Fresh lo hi ids) (hl : lo' ≤ lo) (hr : hi ≤ hi') :
    Fresh lo' hi' ids :=
  ⟨h.1, fun id hid => by have := h.2 id hid; omega⟩

/-- An expression gets its identity after its parts. -/
theorem cons (h : Fresh lo hi ids) (hl : lo ≤ hi) : Fresh lo (hi + 1) (hi :: ids) := by
  refine ⟨List.nodup_cons.2 ⟨fun hm => ?_, h.1⟩, List.forall_mem_cons.2 ⟨by omega, ?_⟩⟩
  · have := h.2 hi hm
    omega
  · intro id hid
    have := h.2 id hid
    omega

end Fresh

namespace Parser

open Grammar

/-! ## Input -/

/-- The tokens from the current one on. -/
def State.input (s : State) : Tokens := s.current.kind :: s.upcoming.map Token.kind

/-- The input ends with the end of the text, which is nowhere before. -/
def State.Ended (s : State) : Prop := ∃ ks, s.input = ks ++ [.endOfFile] ∧ .endOfFile ∉ ks

theorem State.Ended.of_append {s t : State} {ts : Tokens} (h : s.Ended)
    (ht : s.input = ts ++ t.input) : t.Ended := by
  obtain ⟨ks, hk, he⟩ := h
  rw [ht] at hk
  have hne : t.input ≠ [] := by simp [input]
  obtain ⟨us, last, hu⟩ : ∃ us last, t.input = us ++ [last] :=
    ⟨_, _, (List.dropLast_concat_getLast hne).symm⟩
  rw [hu, ← List.append_assoc] at hk
  obtain ⟨rfl, hl⟩ := List.append_inj' hk rfl
  cases hl
  exact ⟨us, hu, fun hm => he (List.mem_append_right _ hm)⟩

theorem State.errors_shift {s : State} {ts : List Token} (h : (s.shift ts).errors = []) :
    s.errors = [] := by
  induction ts generalizing s with
  | nil => exact h
  | cons t ts ih =>
    rw [shift] at h
    split at h
    · have := ih h
      simp [report] at this
    · exact h

theorem State.errors_advance {s : State} (h : s.advance.errors = []) : s.errors = [] :=
  errors_shift h

theorem State.errors_skipStatement {n : Nat} {s : State} (h : (skipStatement n s).errors = []) :
    s.errors = [] := by
  induction n generalizing s with
  | zero => exact h
  | succ n ih =>
    rw [skipStatement] at h
    split at h
    · exact h
    · split at h
      · exact errors_advance h
      · exact errors_advance (ih h)

theorem State.errors_synchronize {s : State} (h : s.synchronize.errors = []) : s.errors = [] := by
  rw [synchronize] at h
  split at h
  · exact h
  · exact errors_skipStatement h

theorem State.previous_shift (s : State) (ts : List Token) : (s.shift ts).previous = s.current := by
  induction ts generalizing s with
  | nil => rfl
  | cons t ts ih =>
    rw [shift]
    split
    · exact ih _
    · rfl

theorem State.previous_advance (s : State) : s.advance.previous = s.current :=
  s.previous_shift s.upcoming

theorem State.shift_cons (s : State) {t : Token} (h : ∀ e, t.kind ≠ .invalid e)
    (ts : List Token) :
    s.shift (t :: ts) = { s with previous := s.current, current := t, upcoming := ts } := by
  rw [shift]
  split
  · next e he => exact absurd he (h e)
  · rfl

theorem State.nextId_shift (s : State) (ts : List Token) : (s.shift ts).nextId = s.nextId := by
  induction ts generalizing s with
  | nil => rfl
  | cons t ts ih =>
    rw [shift]
    split
    · exact ih _
    · rfl

theorem State.nextId_advance (s : State) : s.advance.nextId = s.nextId :=
  s.nextId_shift s.upcoming

/-- Moving on without an error passes one token. -/
theorem State.input_advance {s : State} (h : s.advance.errors = []) (hs : s.Ended)
    (hc : s.current.kind ≠ .endOfFile) : s.input = s.current.kind :: s.advance.input := by
  cases hu : s.upcoming with
  | nil =>
    obtain ⟨ks, hk, -⟩ := hs
    rw [input, hu] at hk
    cases ks with
    | nil => exact absurd (List.singleton_inj.1 hk) hc
    | cons k ks => simp at hk
  | cons t ts =>
    rw [advance, hu, shift] at h ⊢
    split at h
    · have := errors_shift h
      simp [report] at this
    · simp [input, hu]

theorem State.input_advance_of_endOfFile {s : State} (hs : s.Ended)
    (hc : s.current.kind = .endOfFile) : s.input = s.advance.input := by
  obtain ⟨ks, hk, he⟩ := hs
  rw [input, hc] at hk
  cases ks with
  | nil =>
    have hu : s.upcoming = [] := by simpa using hk
    simp [input, advance, hu, shift]
  | cons k ks =>
    rw [List.cons_append, List.cons.injEq] at hk
    exact absurd (hk.1 ▸ List.mem_cons_self) he

/-! ## Rules -/

/-- If the rule ends well in a state without errors it has read tokens as `Q` says. -/
def Reads {α : Type} (rule : Rule α) (s : State) (Q : α → State → Tokens → Prop) : Prop :=
  ∀ a t, rule s = .ok a t → t.errors = [] →
    s.errors = [] ∧
      (s.Ended → ∃ ts, s.input = ts ++ t.input ∧ s.nextId ≤ t.nextId ∧ Q a t ts)

namespace Reads

variable {α β : Type} {s : State}

theorem pure {a : α} {Q : α → State → Tokens → Prop} (h : Q a s []) :
    Reads (Pure.pure a) s Q := by
  rintro _ _ ⟨⟩ he
  exact ⟨he, fun _ => ⟨[], rfl, Nat.le_refl _, h⟩⟩

theorem mono {rule : Rule α} {P Q : α → State → Tokens → Prop} (h : Reads rule s P)
    (hpq : ∀ a t ts, s.nextId ≤ t.nextId → P a t ts → Q a t ts) : Reads rule s Q := by
  intro a t ht he
  obtain ⟨hs, h⟩ := h a t ht he
  refine ⟨hs, fun hend => ?_⟩
  obtain ⟨ts, hi, hn, hp⟩ := h hend
  exact ⟨ts, hi, hn, hpq a t ts hn hp⟩

theorem bind {x : Rule α} {f : α → Rule β} {P : α → State → Tokens → Prop}
    {Q : β → State → Tokens → Prop} (hx : Reads x s P)
    (hf : ∀ a t, Reads (f a) t fun b u vs =>
      ∀ us, s.nextId ≤ t.nextId → P a t us → Q b u (us ++ vs)) : Reads (x >>= f) s Q := by
  intro b u hu he
  obtain ⟨a, t, hxt, hft⟩ := EStateM.bind_eq_ok.1 hu
  obtain ⟨het, hf⟩ := hf a t b u hft he
  obtain ⟨hes, hx⟩ := hx a t hxt het
  refine ⟨hes, fun hend => ?_⟩
  obtain ⟨us, hus, hnt, hp⟩ := hx hend
  obtain ⟨vs, hvs, hnu, hq⟩ := hf (hend.of_append hus)
  exact ⟨us ++ vs, by rw [hus, hvs, List.append_assoc], Nat.le_trans hnt hnu, hq us hnt hp⟩

theorem map {x : Rule α} {f : α → β} {Q : β → State → Tokens → Prop}
    (hx : Reads x s fun a t ts => Q (f a) t ts) : Reads (f <$> x) s Q := by
  intro b t ht he
  obtain ⟨a, hxt, rfl⟩ := EStateM.map_eq_ok.1 ht
  exact hx a t hxt he

/-- What is read begins with the current token. -/
theorem head {rule : Rule α} {Q : α → State → Tokens → Prop} (h : Reads rule s Q) :
    Reads rule s fun a t ts => Q a t ts ∧ ∀ k, ts.head? = some k → k = s.current.kind := by
  intro a t ht he
  obtain ⟨hs, h⟩ := h a t ht he
  refine ⟨hs, fun hend => ?_⟩
  obtain ⟨ts, hi, hn, hq⟩ := h hend
  refine ⟨ts, hi, hn, hq, fun k hk => ?_⟩
  cases ts with
  | nil => cases hk
  | cons k' ts =>
    cases hk
    rw [State.input, List.cons_append, List.cons.injEq] at hi
    exact hi.1.symm

/-- A look at the current token. -/
theorem current {f : Token → Rule α} {Q : α → State → Tokens → Prop}
    (h : Reads (f s.current) s Q) : Reads (currentToken >>= f) s Q := h

theorem previous {f : Token → Rule α} {Q : α → State → Tokens → Prop}
    (h : Reads (f s.previous) s Q) : Reads (previousToken >>= f) s Q := h

theorem fail {span : Span} {kind : ParseErrorKind} {Q : α → State → Tokens → Prop} :
    Reads (Parser.fail span kind) s Q := by
  intro a t ht
  cases ht

theorem outOfFuel {Q : α → State → Tokens → Prop} : Reads Parser.outOfFuel s Q := by
  intro a t ht
  cases ht

end Reads

variable {s : State}

theorem reads_advance : Reads advance s fun _ t ts =>
    t.previous = s.current ∧ t.nextId = s.nextId ∧
      (s.current.kind ≠ .endOfFile → ts = [s.current.kind]) := by
  rintro _ _ ⟨⟩ he
  refine ⟨State.errors_advance he, fun hend => ?_⟩
  by_cases hc : s.current.kind = .endOfFile
  · exact ⟨[], s.input_advance_of_endOfFile hend hc, Nat.le_of_eq s.nextId_advance.symm,
      s.previous_advance, s.nextId_advance, fun h => absurd hc h⟩
  · exact ⟨[s.current.kind], s.input_advance he hend hc, Nat.le_of_eq s.nextId_advance.symm,
      s.previous_advance, s.nextId_advance, fun _ => rfl⟩

/-- Moving on behind a token that is known. -/
theorem reads_advance_of {k : Token.Kind} (hc : s.current.kind = k) (hk : k ≠ .endOfFile) :
    Reads advance s fun _ t ts => t.previous.span = s.current.span ∧ ts = [k] :=
  reads_advance.mono fun _ _ _ _ ⟨hp, _, h⟩ => ⟨by rw [hp], hc ▸ h (hc ▸ hk)⟩

theorem isSymbol_iff {k : Token.Kind} {sym : Symbol} : k.isSymbol sym = true ↔ k = .symbol sym := by
  cases k <;> simp [Token.Kind.isSymbol]

theorem isKeyword_iff {k : Token.Kind} {word : Keyword} :
    k.isKeyword word = true ↔ k = .keyword word := by
  cases k <;> simp [Token.Kind.isKeyword]

theorem skipSymbol_apply (sym : Symbol) (s : State) : skipSymbol sym s =
    if s.current.kind.isSymbol sym then .ok true s.advance else .ok false s := by
  show (if s.current.kind.isSymbol sym then _ else _ : Rule Bool) s = _
  split <;> rfl

theorem skipKeyword_apply (word : Keyword) (s : State) : skipKeyword word s =
    if s.current.kind.isKeyword word then .ok true s.advance else .ok false s := by
  show (if s.current.kind.isKeyword word then _ else _ : Rule Bool) s = _
  split <;> rfl

theorem program_apply (d : Rule (Option Stmt)) (k : Nat) (s : State) : program d (k + 1) s =
    if s.current.kind.isEndOfFile then .ok [] s
    else ((d >>= fun first => (first.toList ++ ·) <$> program d k) : Rule (List Stmt)) s := by
  show (if s.current.kind.isEndOfFile then _ else _ : Rule (List Stmt)) s = _
  split
  · rfl
  · simp only [map_eq_pure_bind]

theorem reads_expect (sym : Symbol) (otherwise : ParseErrorKind) :
    Reads (expect sym otherwise) s fun _ _ ts => ts = [.symbol sym] := by
  refine reads_advance.bind fun _ t => .previous ?_
  cases hk : t.previous.kind.isSymbol sym with
  | false => exact .fail
  | true =>
    refine .pure fun us _ ⟨hp, _, hus⟩ => ?_
    rw [hp, isSymbol_iff] at hk
    simp [hus (by simp [hk]), hk]

theorem reads_identifier (otherwise : ParseErrorKind) :
    Reads (identifier otherwise) s fun name t ts =>
      ts = [.identifier name.name] ∧ t.nextId = s.nextId := by
  refine reads_advance.bind fun _ t => .previous ?_
  cases hk : t.previous.kind with
  | identifier name =>
    refine .pure fun us _ ⟨hp, hn, hus⟩ => ?_
    rw [hp] at hk
    simp [hus (by simp [hk]), hk, hn]
  | _ => exact .fail

theorem reads_atSymbol (sym : Symbol) :
    Reads (atSymbol sym) s fun b t ts =>
      t = s ∧ ts = [] ∧ (b = true ↔ s.current.kind = .symbol sym) :=
  .current (.pure ⟨rfl, rfl, isSymbol_iff⟩)

theorem reads_atEnd :
    Reads atEnd s fun b t ts => t = s ∧ ts = [] ∧ (b = true ↔ s.current.kind = .endOfFile) :=
  .current (.pure ⟨rfl, rfl, Token.isEndOfFile_iff _⟩)

theorem reads_skipSymbol (sym : Symbol) :
    Reads (skipSymbol sym) s fun b _ ts => ts = if b then [.symbol sym] else [] := by
  refine (reads_atSymbol sym).bind fun b t => ?_
  cases b with
  | false => exact .pure fun us _ ⟨_, hus, _⟩ => by simp [hus]
  | true =>
    refine reads_advance.bind fun _ u => .pure fun us _ ⟨_, _, hus⟩ vs _ ⟨ht, hvs, hc⟩ => ?_
    have hk := hc.1 rfl
    subst ht
    simp [hvs, hus (by simp [hk]), hk]

theorem reads_skipKeyword (word : Keyword) :
    Reads (skipKeyword word) s fun b t ts =>
      ts = (if b then [.keyword word] else []) ∧
        (b = true → s.current.kind = .keyword word) ∧
        (b = false → t.current.kind ≠ .keyword word) := by
  refine .current ?_
  cases hk : s.current.kind.isKeyword word with
  | false =>
    refine .pure ⟨rfl, nofun, fun _ h => ?_⟩
    rw [isKeyword_iff.2 h] at hk
    cases hk
  | true =>
    rw [isKeyword_iff] at hk
    refine (reads_advance_of hk (by simp)).bind fun _ _ => .pure fun us _ ⟨_, hus⟩ => ?_
    exact ⟨by simp [hus], fun _ => hk, nofun⟩

theorem reads_freshId :
    Reads freshId s fun id t ts =>
      ts = [] ∧ id = s.nextId ∧ t.nextId = s.nextId + 1 ∧ t.current = s.current := by
  rintro _ _ ⟨⟩ he
  exact ⟨he, fun _ => ⟨[], rfl, Nat.le_succ _, rfl, rfl, rfl, rfl⟩⟩

theorem reads_spanFrom (first : Span) :
    Reads (spanFrom first) s fun _ t ts => ts = [] ∧ t = s :=
  .previous (.pure ⟨rfl, rfl⟩)

theorem reads_expr (first : Span) (node : Expr.Node) :
    Reads (expr first node) s fun e t ts =>
      ts = [] ∧ e.node = node ∧ e.id = s.nextId ∧ t.nextId = s.nextId + 1 ∧
        t.current = s.current := by
  refine reads_freshId.bind fun id t => (reads_spanFrom first).bind fun span u => .pure ?_
  rintro us - ⟨rfl, rfl⟩ vs - ⟨rfl, hid, hn, hc⟩
  exact ⟨rfl, rfl, hid, hn, hc⟩

theorem reads_stmt {node : Rule Stmt.Node} {Q : Stmt → State → Tokens → Prop}
    (h : Reads node s fun node t ts => ∀ span, Q ⟨span, node⟩ t ts) :
    Reads (stmt node) s Q := by
  refine .current (h.bind fun node t => (reads_spanFrom _).bind fun span u => .pure ?_)
  rintro us - ⟨rfl, rfl⟩ vs - hq
  simpa using hq span

/-- What a rule reads that recovers from errors. -/
theorem reads_recover {α : Type} {rule : Rule α} {Q : α → State → Tokens → Prop}
    (h : Reads rule s Q) :
    Reads (recover rule) s fun o t ts => ∃ a, o = some a ∧ Q a t ts := by
  intro o t ht he
  unfold recover at ht
  split at ht
  · next a u hu =>
    cases ht
    obtain ⟨hs, h⟩ := h a t hu he
    exact ⟨hs, fun hend => (h hend).imp fun _ ⟨hi, hn, hq⟩ => ⟨hi, hn, a, rfl, hq⟩⟩
  · next e u hu =>
    cases ht
    have := State.errors_synchronize he
    simp [State.report] at this
  · cases ht

theorem forM_report {α : Type} (e : α → ParseError) (xs : List α) (s : State) :
    xs.forM (m := Rule) (fun x => report (e x)) s =
      .ok () { s with errors := s.errors ++ xs.map e } := by
  induction xs generalizing s with
  | nil => rw [List.map_nil, List.append_nil]; rfl
  | cons x xs ih =>
    have hx : report (e x) s = .ok () { s with errors := s.errors ++ [e x] } := rfl
    exact (EStateM.bind_of_ok hx _).trans
      ((ih _).trans (by rw [List.map_cons, List.append_assoc]; rfl))

theorem reads_reportSurplus {α : Type} (span : α → Span) (kind : ParseErrorKind)
    (items : List α) :
    Reads (reportSurplus span kind items) s fun _ t ts =>
      ts = [] ∧ items.length ≤ maxArgs ∧ t.nextId = s.nextId := by
  intro _ t ht he
  cases (forM_report _ _ s).symm.trans ht
  obtain ⟨hs, hnil⟩ := List.append_eq_nil_iff.1 he
  exact ⟨hs, fun _ => ⟨[], rfl, Nat.le_refl _, rfl,
    List.drop_eq_nil_iff.1 (List.map_eq_nil_iff.1 hnil), rfl⟩⟩

end Parser

end Lox

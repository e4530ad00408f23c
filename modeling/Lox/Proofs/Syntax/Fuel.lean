import Lox.Proofs.Syntax.Sound

/-!
# Fuel suffices

However wrong a text is, no rule gives up for want of fuel if it has four units and a few for every
token that comes.  A rule that reads its parts with less fuel has moved on before, or hands its fuel
down to one of the next kind: a block to a declaration, that to a statement, and that to an
expression.

    Lasts rule s k        from `s` on the rule moves past `k` tokens or more, and has fuel enough

At the end of the text nothing can be moved past, so there all rules that have to take a token fail.
-/

namespace Lox.Parser

/-! ## What is left -/

/-- How many tokens come behind the current one. -/
def State.left (s : State) : Nat := s.upcoming.length

theorem State.Ended.left_pos {s : State} (h : s.Ended) (hc : s.current.kind ≠ .endOfFile) :
    1 ≤ s.left := by
  obtain ⟨ks, hks, -⟩ := h
  cases ks with
  | nil => exact absurd (List.cons.inj hks).1 hc
  | cons k ks =>
    have hks : s.upcoming.map Token.kind = ks ++ [.endOfFile] := (List.cons.inj hks).2
    have hlen := congrArg List.length hks
    rw [List.length_map, List.length_append] at hlen
    rw [left, hlen]
    exact Nat.le_add_left ..

theorem State.Ended.left_eq_zero {s : State} (h : s.Ended) (hc : s.current.kind = .endOfFile) :
    s.left = 0 := by
  obtain ⟨ks, hks, hne⟩ := h
  cases ks with
  | nil => simpa [left] using (List.cons.inj hks).2
  | cons k ks => exact absurd (hc ▸ (List.cons.inj hks).1 ▸ List.mem_cons_self) hne

/-- A shift over tokens that end as a text does moves past one of them at least. -/
theorem State.ended_shift (s : State) {ts : List Token} {ks : List Token.Kind}
    (hts : ts.map Token.kind = ks ++ [.endOfFile]) (hne : .endOfFile ∉ ks) :
    (s.shift ts).Ended ∧ (s.shift ts).left + 1 ≤ ts.length := by
  induction ts generalizing s ks with
  | nil => simp at hts
  | cons t ts ih =>
    rw [shift]
    split
    · next e he =>
      cases ks with
      | nil => simp [he] at hts
      | cons k ks =>
        obtain ⟨hended, hleft⟩ := ih (s.report ⟨t.span, .illegalToken e⟩)
          (List.cons.inj hts).2 fun hmem => hne (List.mem_cons_of_mem _ hmem)
        exact ⟨hended, Nat.le_succ_of_le hleft⟩
    · exact ⟨⟨ks, hts, hne⟩, Nat.le_refl _⟩

theorem State.Ended.advance {s : State} (h : s.Ended) :
    s.advance.Ended ∧ s.advance.left ≤ s.left - 1 := by
  obtain ⟨ks, hks, hne⟩ := h
  cases ks with
  | nil =>
    have hu : s.upcoming = [] := by simpa using (List.cons.inj hks).2
    rw [State.advance, hu]
    exact ⟨⟨[], by rw [← hks, input, input, hu]; rfl, hne⟩, Nat.zero_le _⟩
  | cons k ks =>
    obtain ⟨hended, hleft⟩ := s.ended_shift (List.cons.inj hks).2
      fun hmem => hne (List.mem_cons_of_mem _ hmem)
    exact ⟨hended, Nat.le_sub_one_of_lt hleft⟩

theorem State.Ended.skipStatement {s : State} (h : s.Ended) (n : Nat) :
    (s.skipStatement n).Ended ∧ (s.skipStatement n).left ≤ s.left := by
  induction n generalizing s with
  | zero => exact ⟨h, Nat.le_refl _⟩
  | succ n ih =>
    obtain ⟨hended, hleft⟩ := h.advance
    have hle : s.advance.left ≤ s.left := Nat.le_trans hleft (Nat.sub_le ..)
    rw [State.skipStatement]
    split
    · exact ⟨h, Nat.le_refl _⟩
    · split
      · exact ⟨hended, hle⟩
      · exact ⟨(ih hended).1, Nat.le_trans (ih hended).2 hle⟩

theorem State.Ended.synchronize {s : State} (h : s.Ended) :
    s.synchronize.Ended ∧ s.synchronize.left ≤ s.left := by
  rw [State.synchronize]
  split
  · exact ⟨h, Nat.le_refl _⟩
  · exact h.skipStatement _

/-! ## Rules -/

/-- From `s` on the rule moves past `k` tokens or more, where it fails as far as there are so many,
and it does not run out of fuel. -/
def Lasts {α : Type} (rule : Rule α) (s : State) (k : Nat) : Prop :=
  s.Ended → (∀ a t, rule s = .ok a t → t.Ended ∧ t.left + k ≤ s.left) ∧
    ∀ stop t, rule s = .error stop t → t.Ended ∧ t.left ≤ s.left - k ∧ stop ≠ .outOfFuel

namespace Lasts

variable {α β : Type} {s : State} {k j : Nat}

theorem mono {x : Rule α} (h : Lasts x s k) (hj : j ≤ k) : Lasts x s j := by
  intro hs
  obtain ⟨hok, herror⟩ := h hs
  refine ⟨fun a t ht => ?_, fun stop t ht => ?_⟩
  · obtain ⟨hended, hleft⟩ := hok a t ht
    exact ⟨hended, by omega⟩
  · obtain ⟨hended, hleft, hstop⟩ := herror stop t ht
    exact ⟨hended, by omega, hstop⟩

theorem bind {x : Rule α} {f : α → Rule β} (hx : Lasts x s k)
    (hf : ∀ a t, t.left + k ≤ s.left → Lasts (f a) t j) : Lasts (x >>= f) s k := by
  intro hs
  obtain ⟨hok, herror⟩ := hx hs
  refine ⟨fun b u hu => ?_, fun stop u hu => ?_⟩
  · obtain ⟨a, t, hxt, hft⟩ := EStateM.bind_eq_ok.1 hu
    obtain ⟨ht, hleft⟩ := hok a t hxt
    obtain ⟨hended, hle⟩ := (hf a t hleft ht).1 b u hft
    exact ⟨hended, by omega⟩
  · rcases EStateM.bind_eq_error.1 hu with hxe | ⟨a, t, hxt, hft⟩
    · exact herror stop u hxe
    · obtain ⟨ht, hleft⟩ := hok a t hxt
      obtain ⟨hended, hle, hstop⟩ := (hf a t hleft ht).2 stop u hft
      exact ⟨hended, by omega, hstop⟩

theorem pure {a : α} : Lasts (Pure.pure a) s 0 := by
  refine fun hs => ⟨?_, ?_⟩
  · rintro _ _ ⟨⟩
    exact ⟨hs, Nat.le_refl _⟩
  · rintro _ _ ⟨⟩

theorem map {x : Rule α} {f : α → β} (h : Lasts x s k) : Lasts (f <$> x) s k := by
  rw [map_eq_pure_bind]
  exact h.bind fun _ _ _ => .pure

theorem fail {span : Span} {kind : ParseErrorKind} : Lasts (Parser.fail span kind : Rule α) s 0 := by
  refine fun hs => ⟨?_, ?_⟩
  · rintro _ _ ⟨⟩
  · rintro _ _ ⟨⟩
    exact ⟨hs, Nat.le_refl _, Stop.noConfusion⟩

/-- At the end of the text no token is left that a rule would have to move past to fail. -/
theorem fail_atEnd {span : Span} {kind : ParseErrorKind} (hc : s.current.kind = .endOfFile) :
    Lasts (Parser.fail span kind : Rule α) s k := by
  refine fun hs => ⟨?_, ?_⟩
  · rintro _ _ ⟨⟩
  · rintro _ _ ⟨⟩
    exact ⟨hs, hs.left_eq_zero hc ▸ Nat.zero_le _, Stop.noConfusion⟩

theorem current {f : Token → Rule α} (h : Lasts (f s.current) s k) :
    Lasts (currentToken >>= f) s k := h

theorem atSymbol {sym : Symbol} {f : Bool → Rule α}
    (h : Lasts (f (s.current.kind.isSymbol sym)) s k) : Lasts (atSymbol sym >>= f) s k := h

theorem atEnd {f : Bool → Rule α} (h : Lasts (f s.current.kind.isEndOfFile) s k) :
    Lasts (atEnd >>= f) s k := h

theorem freshId {f : ExprId → Rule α} (h : ∀ id t, t.left ≤ s.left → Lasts (f id) t k) :
    Lasts (freshId >>= f) s k := by
  intro hs
  exact h s.nextId { s with nextId := s.nextId + 1 } (Nat.le_refl _) hs

theorem advance {f : Unit → Rule α} (hc : s.current.kind ≠ .endOfFile)
    (h : ∀ t, t.left + 1 ≤ s.left → Lasts (f ()) t j) : Lasts (Parser.advance >>= f) s 1 := by
  refine bind (k := 1) (fun hs => ⟨?_, ?_⟩) fun _ => h
  · rintro _ _ ⟨⟩
    have := hs.left_pos hc
    have := hs.advance.2
    exact ⟨hs.advance.1, by omega⟩
  · rintro _ _ ⟨⟩

/-- A step to the next token and a look back, at a token that must not be the end of the text. -/
theorem next {f : Token → Rule α}
    (hend : ∀ t u, t.kind = .endOfFile → ∃ e, f t u = .error (.error e) u)
    (h : ∀ t, t.left + 1 ≤ s.left → Lasts (f s.current) t j) :
    Lasts (Parser.advance >>= fun _ => previousToken >>= f) s 1 := by
  intro hs
  have hrun : (Parser.advance >>= fun _ => previousToken >>= f) s = f s.current s.advance := by
    rw [← s.previous_advance]
    rfl
  by_cases hc : s.current.kind = .endOfFile
  · obtain ⟨e, he⟩ := hend s.current s.advance hc
    rw [hrun, he]
    refine ⟨?_, ?_⟩
    · rintro _ _ ⟨⟩
    · rintro _ _ ⟨⟩
      exact ⟨hs.advance.1, hs.advance.2, Stop.noConfusion⟩
  · have hpast : s.advance.left + 1 ≤ s.left := by
      have := hs.left_pos hc
      have := hs.advance.2
      omega
    obtain ⟨hok, herror⟩ := h s.advance hpast hs.advance.1
    rw [hrun]
    refine ⟨fun a t ht => ?_, fun stop t ht => ?_⟩
    · obtain ⟨hended, hleft⟩ := hok a t ht
      exact ⟨hended, by omega⟩
    · obtain ⟨hended, hleft, hstop⟩ := herror stop t ht
      exact ⟨hended, by omega, hstop⟩

/-- A step past the current token if it is of some kind, which is not the end of the text. -/
theorem skip {skip : Rule Bool} {p : Token.Kind → Bool} {f : Bool → Rule α}
    (hskip : ∀ s, skip s = if p s.current.kind then .ok true s.advance else .ok false s)
    (hp : p .endOfFile = false) (hk : k ≤ 1)
    (htrue : ∀ t, t.left + 1 ≤ s.left → Lasts (f true) t j) (hfalse : Lasts (f false) s k) :
    Lasts (skip >>= f) s k := by
  by_cases hs : p s.current.kind = true
  · have hc : s.current.kind ≠ .endOfFile := by
      intro hc
      rw [hc, hp] at hs
      cases hs
    have hrun : (skip >>= f) s = (Parser.advance >>= fun _ => f true) s :=
      EStateM.bind_of_ok ((hskip s).trans (if_pos hs)) f
    have hlasts := (advance (f := fun _ => f true) hc htrue).mono hk
    unfold Lasts at hlasts ⊢
    rwa [hrun]
  · have hrun : (skip >>= f) s = f false s :=
      EStateM.bind_of_ok ((hskip s).trans (if_neg hs)) f
    unfold Lasts at hfalse ⊢
    rwa [hrun]

end Lasts

variable {s : State} {k j : Nat}

/-! ## Single tokens -/

theorem lasts_expect (sym : Symbol) (otherwise : ParseErrorKind) :
    Lasts (expect sym otherwise) s 1 := by
  refine .next (j := 0) (fun t u ht => ?_) fun t _ => ?_
  · rw [ht]
    exact ⟨_, rfl⟩
  · cases s.current.kind.isSymbol sym with
    | true => exact .pure
    | false => exact .fail

theorem lasts_identifier (otherwise : ParseErrorKind) : Lasts (identifier otherwise) s 1 := by
  refine .next (j := 0) (fun t u ht => ?_) fun t _ => ?_
  · rw [ht]
    exact ⟨_, rfl⟩
  · cases s.current.kind with
    | identifier name => exact .pure
    | _ => exact .fail

theorem lasts_spanFrom (first : Span) : Lasts (spanFrom first) s 0 :=
  Lasts.pure (a := first.extend s.previous.span)

theorem lasts_expr (first : Span) (node : Expr.Node) : Lasts (expr first node) s 0 :=
  .freshId fun _ _ _ => (lasts_spanFrom first).bind fun _ _ _ => .pure

theorem lasts_stmt {node : Rule Stmt.Node} (h : Lasts node s k) : Lasts (stmt node) s k :=
  .current (h.bind fun _ _ _ => (lasts_spanFrom _).bind fun _ _ _ => .pure)

/-- A rule that moves on when it fails always recovers, and has moved on then. -/
theorem Lasts.recover {α : Type} {rule : Rule α} (h : Lasts rule s 1) (hs : s.Ended) :
    ∃ o t, recover rule s = .ok o t ∧ t.Ended ∧ t.left ≤ s.left - 1 := by
  obtain ⟨hok, herror⟩ := h hs
  unfold Parser.recover
  cases hrun : rule s with
  | ok a t =>
    obtain ⟨hended, hleft⟩ := hok a t hrun
    exact ⟨some a, t, rfl, hended, by omega⟩
  | error stop t =>
    obtain ⟨hended, hleft, hstop⟩ := herror stop t hrun
    cases stop with
    | outOfFuel => exact absurd rfl hstop
    | error e =>
      have hreport : (t.report e).Ended := hended
      obtain ⟨hended', hleft'⟩ := hreport.synchronize
      exact ⟨none, _, rfl, hended', Nat.le_trans hleft' hleft⟩

theorem lasts_recover {α : Type} {rule : Rule α} (hc : s.current.kind ≠ .endOfFile)
    (h : Lasts rule s 1) : Lasts (recover rule) s 1 := by
  intro hs
  obtain ⟨o, t, hrun, hended, hleft⟩ := h.recover hs
  have := hs.left_pos hc
  rw [hrun]
  refine ⟨?_, ?_⟩
  · rintro _ _ ⟨⟩
    exact ⟨hended, by omega⟩
  · rintro _ _ ⟨⟩

/-! ## Lists -/

section

variable {α : Type} {item : Rule α} (close : Symbol) {n : Nat}

theorem lasts_commaSeparatedTail (hi : ∀ t, t.left ≤ s.left → Lasts item t 1) (hn : s.left < n) :
    Lasts (commaSeparatedTail close item n) s 1 := by
  induction n generalizing s with
  | zero => exact absurd hn (Nat.not_lt_zero _)
  | succ n ih =>
    refine .skip (skipSymbol_apply close) rfl (Nat.le_refl _) (fun _ _ => .pure) ?_
    refine (lasts_expect _ _).bind fun _ t ht => (hi t (by omega)).bind fun x u hu =>
      (ih (fun v hv => hi v (by omega)) (by omega)).bind fun _ _ _ => .pure

theorem lasts_commaSeparated (hi : ∀ t, t.left ≤ s.left → Lasts item t 1) (hn : s.left ≤ n) :
    Lasts (commaSeparated close item n) s 1 := by
  refine .skip (skipSymbol_apply close) rfl (Nat.le_refl _) (fun _ _ => .pure) ?_
  exact (hi s (Nat.le_refl _)).bind fun x t ht =>
    (lasts_commaSeparatedTail close (fun u hu => hi u (by omega)) (by omega)).bind fun _ _ _ =>
      .pure

end

theorem lasts_reportSurplus {α : Type} (span : α → Span) (kind : ParseErrorKind) (items : List α) :
    Lasts (reportSurplus span kind items) s 0 := by
  have hrun := forM_report (fun x => ⟨span x, kind⟩) (items.drop maxArgs) s
  refine fun hs => ⟨fun a t ht => ?_, fun stop t ht => ?_⟩
  · cases hrun.symm.trans ht
    exact ⟨hs, Nat.le_refl _⟩
  · cases hrun.symm.trans ht

theorem lasts_parameters {n : Nat} (hn : s.left ≤ n) : Lasts (parameters n) s 1 :=
  (lasts_expect _ _).bind fun _ t ht =>
    (lasts_commaSeparated _ (fun _ _ => lasts_identifier _) (by omega)).bind fun _ _ _ =>
      (lasts_reportSurplus _ _ _).bind fun _ _ _ => .pure

section

variable {declaration : Rule Stmt} {n : Nat}

theorem lasts_statements (hd : ∀ t, t.left ≤ s.left → Lasts declaration t 1) (hn : s.left < n) :
    Lasts (statements (recover declaration) n) s 1 := by
  induction n generalizing s with
  | zero => exact absurd hn (Nat.not_lt_zero _)
  | succ n ih =>
    refine .atEnd ?_
    cases hc : s.current.kind.isEndOfFile with
    | true => exact .current (.fail_atEnd ((Token.isEndOfFile_iff _).1 hc))
    | false =>
      have hc : s.current.kind ≠ .endOfFile := fun h => by
        rw [(Token.isEndOfFile_iff _).2 h] at hc
        cases hc
      refine .skip (skipSymbol_apply _) rfl (Nat.le_refl _) (fun _ _ => .pure) ?_
      exact (lasts_recover hc (hd s (Nat.le_refl _))).bind fun _ t ht =>
        (ih (fun u hu => hd u (by omega)) (by omega)).bind fun _ _ _ => .pure

/-- A program is always read to its end. -/
theorem program_eq_ok (hd : ∀ t, t.left ≤ s.left → Lasts declaration t 1) (hn : s.left < n)
    (hs : s.Ended) : ∃ body t, program (recover declaration) n s = .ok body t := by
  induction n generalizing s with
  | zero => exact absurd hn (Nat.not_lt_zero _)
  | succ n ih =>
    by_cases hc : s.current.kind.isEndOfFile = true
    · exact ⟨[], s, (program_apply _ n s).trans (if_pos hc)⟩
    · have hpos := hs.left_pos fun h => hc ((Token.isEndOfFile_iff _).2 h)
      obtain ⟨o, t, hrun, ht, hleft⟩ := (hd s (Nat.le_refl _)).recover hs
      obtain ⟨body, u, hu⟩ := ih (fun u hu => hd u (by omega)) (by omega) ht
      refine ⟨o.toList ++ body, u, ?_⟩
      rw [program_apply, if_neg hc, EStateM.bind_of_ok hrun]
      exact EStateM.map_of_ok hu _

end

/-! ## Declarations -/

section

variable {body : Rule (List Stmt)} {n : Nat}

theorem lasts_namedFunction (hb : ∀ t, t.left + 1 ≤ s.left → Lasts body t 1) (isMember : Bool)
    (hn : s.left ≤ n) : Lasts (namedFunction body isMember n) s 1 := by
  refine .current ((lasts_identifier _).bind (j := 1) fun name t ht => .atSymbol ?_)
  have hbehind (isGetter : Bool) (params : List Identifier) (first : Span) (u : State)
      (hu : u.left ≤ t.left) : Lasts (do
        expect .leftBrace (.expectedBefore .leftBrace .functionBody)
        let body ← body
        return ⟨name, params, body, isGetter, ← spanFrom first⟩ : Rule Function) u 1 :=
    (lasts_expect _ _).bind fun _ v hv => (hb v (by omega)).bind fun _ _ _ =>
      (lasts_spanFrom _).bind fun _ _ _ => .pure
  cases isMember && t.current.kind.isSymbol .leftBrace with
  | true => exact hbehind _ _ _ t (Nat.le_refl _)
  | false => exact (lasts_parameters (by omega)).bind fun _ u hu => hbehind _ _ _ u (by omega)

theorem lasts_members {m : Nat} (hb : ∀ t, t.left + 1 ≤ s.left → Lasts body t 1) (hn : s.left < n)
    (hm : s.left ≤ m) : Lasts (members (namedFunction body true m) n) s 1 := by
  induction n generalizing s with
  | zero => exact absurd hn (Nat.not_lt_zero _)
  | succ n ih =>
    have hf (t : State) (ht : t.left ≤ s.left) : Lasts (namedFunction body true m) t 1 :=
      lasts_namedFunction (fun u hu => hb u (by omega)) true (by omega)
    have hrest (t : State) (ht : t.left + 1 ≤ s.left) :
        Lasts (members (namedFunction body true m) n) t 1 :=
      ih (fun u hu => hb u (by omega)) (by omega) (by omega)
    refine .skip (skipSymbol_apply _) rfl (Nat.le_refl _) (fun _ _ => .pure) (.atEnd ?_)
    cases hc : s.current.kind.isEndOfFile with
    | true => exact .current (.fail_atEnd ((Token.isEndOfFile_iff _).1 hc))
    | false =>
      refine .skip (j := 1) (skipKeyword_apply _) rfl (Nat.le_refl _) (fun t ht => ?_) ?_
      · exact (hf t (by omega)).bind fun _ u hu => (hrest u (by omega)).bind fun _ _ _ => .pure
      · exact (hf s (Nat.le_refl _)).bind fun _ t ht => (hrest t ht).bind fun _ _ _ => .pure

theorem lasts_reference (otherwise : ParseErrorKind) : Lasts (reference otherwise) s 1 :=
  (lasts_identifier _).bind (j := 0) fun _ _ _ => .freshId fun _ _ _ => .pure

theorem lasts_traitNames (hn : s.left < n) : Lasts (traitNames n) s 1 := by
  induction n generalizing s with
  | zero => exact absurd hn (Nat.not_lt_zero _)
  | succ n ih =>
    refine (lasts_reference _).bind (j := 0) fun _ t ht =>
      .skip (j := 1) (skipSymbol_apply _) rfl (Nat.zero_le _) (fun u hu => ?_) .pure
    exact (ih (by omega)).bind fun _ _ _ => .pure

theorem lasts_superclassClause : Lasts superclassClause s 0 :=
  .skip (skipSymbol_apply _) rfl (Nat.zero_le _) (fun _ _ => (lasts_reference _).map) .pure

theorem lasts_traitsClause (hn : s.left ≤ n) : Lasts (traitsClause n) s 0 :=
  .skip (skipSymbol_apply _) rfl (Nat.zero_le _) (fun _ _ => lasts_traitNames (by omega)) .pure

variable (hc : s.current.kind ≠ .endOfFile) (hb : ∀ t, t.left + 1 ≤ s.left → Lasts body t 1)
  (hn : s.left ≤ n)
include hc hb hn

theorem lasts_funDecl : Lasts (funDecl body n) s 1 :=
  .advance hc fun t ht =>
    (lasts_namedFunction (fun u hu => hb u (by omega)) false (by omega)).bind fun _ _ _ => .pure

theorem lasts_classDecl : Lasts (classDecl body n) s 1 := by
  rw [classDecl_eq]
  exact .advance hc fun t ht => (lasts_identifier _).bind fun _ t₁ h₁ =>
    lasts_superclassClause.bind fun _ t₂ h₂ => (lasts_traitsClause (by omega)).bind fun _ t₃ h₃ =>
      (lasts_expect _ _).bind fun _ t₄ h₄ =>
        (lasts_members (fun u hu => hb u (by omega)) (by omega) (by omega)).bind fun _ _ _ => .pure

theorem lasts_traitDecl : Lasts (traitDecl body n) s 1 :=
  .advance hc fun t ht => (lasts_identifier _).bind fun _ t₁ h₁ =>
    (lasts_expect _ _).bind fun _ t₂ h₂ =>
      (lasts_members (fun u hu => hb u (by omega)) (by omega) (by omega)).bind fun _ _ _ => .pure

end

/-! ## Statements -/

section

variable {expression : Rule Expr}

theorem lasts_expressionStmt (he : Lasts expression s 1) : Lasts (expressionStmt expression) s 1 :=
  he.bind fun _ _ _ => (lasts_expect _ _).bind fun _ _ _ => .pure

theorem lasts_optional (he : Lasts expression s 1) (close : Symbol) :
    Lasts (optional expression close) s 0 := by
  refine .atSymbol ?_
  split
  · exact .pure
  · exact he.map.mono (Nat.zero_le _)

theorem lasts_loopControl (hc : s.current.kind ≠ .endOfFile) (node : Stmt.Node) :
    Lasts (loopControl node) s 1 :=
  .advance hc fun _ _ => (lasts_expect _ _).bind fun _ _ _ => .pure

variable (hc : s.current.kind ≠ .endOfFile) (he : ∀ t, t.left + 1 ≤ s.left → Lasts expression t 1)
include hc he

theorem lasts_varDecl : Lasts (varDecl expression) s 1 := by
  refine .advance hc fun t ht => (lasts_identifier _).bind (j := 0) fun name t₁ h₁ => ?_
  have hbehind (init : Option Expr) (u : State) : Lasts (do
      expect .semicolon (.expectedAfter .semicolon .variableDeclaration)
      return (.varDecl name init : Stmt.Node)) u 1 := (lasts_expect _ _).bind fun _ _ _ => .pure
  exact .skip (skipSymbol_apply _) rfl (Nat.zero_le _)
    (fun t₂ h₂ => (he t₂ (by omega)).map.bind fun init u _ => hbehind init u)
    ((hbehind none t₁).mono (Nat.zero_le _))

theorem lasts_printStmt : Lasts (printStmt expression) s 1 :=
  .advance hc fun t ht => (he t ht).bind fun _ _ _ => (lasts_expect _ _).bind fun _ _ _ => .pure

theorem lasts_returnStmt : Lasts (returnStmt expression) s 1 :=
  .advance hc fun t ht => (lasts_optional (he t ht) _).bind fun _ _ _ =>
    (lasts_expect _ _).bind fun _ _ _ => .pure

variable {statement : Rule Stmt} (hs : ∀ t, t.left + 1 ≤ s.left → Lasts statement t 1)
include hs

theorem lasts_ifStmt : Lasts (ifStmt expression statement) s 1 :=
  .advance hc fun t ht => (lasts_expect _ _).bind fun _ t₁ h₁ => (he t₁ (by omega)).bind
    fun _ t₂ h₂ => (lasts_expect _ _).bind fun _ t₃ h₃ => (hs t₃ (by omega)).bind (j := 0)
      fun _ t₄ h₄ => .skip (skipKeyword_apply _) rfl (Nat.zero_le _)
        (fun t₅ h₅ => (hs t₅ (by omega)).map.bind fun _ _ _ => .pure) .pure

theorem lasts_whileStmt : Lasts (whileStmt expression statement) s 1 :=
  .advance hc fun t ht => (lasts_expect _ _).bind fun _ t₁ h₁ => (he t₁ (by omega)).bind
    fun _ t₂ h₂ => (lasts_expect _ _).bind fun _ t₃ h₃ => (hs t₃ (by omega)).bind fun _ _ _ =>
      .pure

end

theorem lasts_forInit {expression : Rule Expr}
    (he : ∀ t, t.left ≤ s.left → Lasts expression t 1) : Lasts (forInit expression) s 1 := by
  refine .skip (skipSymbol_apply _) rfl (Nat.le_refl _) (fun _ _ => .pure) (.current ?_)
  cases hvar : s.current.kind.isKeyword .var with
  | true =>
    have hc : s.current.kind ≠ .endOfFile := by
      rw [isKeyword_iff.1 hvar]
      exact Token.Kind.noConfusion
    exact (lasts_stmt (lasts_varDecl hc fun t ht => he t (by omega))).map
  | false => exact (lasts_stmt (lasts_expressionStmt (he s (Nat.le_refl _)))).map

theorem lasts_forStmt {expression : Rule Expr} {statement : Rule Stmt}
    (hc : s.current.kind ≠ .endOfFile) (he : ∀ t, t.left + 1 ≤ s.left → Lasts expression t 1)
    (hs : ∀ t, t.left + 1 ≤ s.left → Lasts statement t 1) :
    Lasts (forStmt expression statement) s 1 :=
  .advance hc fun t ht => (lasts_expect _ _).bind fun _ t₁ h₁ =>
    (lasts_forInit fun u hu => he u (by omega)).bind fun _ t₂ h₂ =>
      (lasts_optional (he t₂ (by omega)) _).bind fun _ t₃ h₃ => (lasts_expect _ _).bind
        fun _ t₄ h₄ => (lasts_optional (he t₄ (by omega)) _).bind fun _ t₅ h₅ =>
          (lasts_expect _ _).bind fun _ t₆ h₆ => (hs t₆ (by omega)).bind fun _ _ _ => .pure

/-! ## Expressions -/

theorem lasts_assignment (target value : Expr) (operator : Span) :
    Lasts (assignment target value operator) s 0 := by
  unfold assignment
  split
  · exact .pure
  · exact .pure
  · exact .pure
  · exact .fail

theorem lasts_arguments {expression : Rule Expr} {n : Nat} (hc : s.current.kind ≠ .endOfFile)
    (he : ∀ t, t.left + 1 ≤ s.left → Lasts expression t 1) (hn : s.left ≤ n) :
    Lasts (arguments expression n) s 1 :=
  .advance hc fun t ht =>
    (lasts_commaSeparated _ (fun u hu => he u (by omega)) (by omega)).bind fun _ _ _ =>
      (lasts_reportSurplus _ _ _).bind fun _ _ _ => .pure

theorem lasts_continuation {expression : Level → Rule Expr} {n : Nat}
    (hc : s.current.kind ≠ .endOfFile)
    (he : ∀ outer t, t.left + 1 ≤ s.left → Lasts (expression outer) t 1) (hn : s.left ≤ n)
    (left : Expr) (op : Operator) : Lasts (continuation expression left op n) s 1 := by
  refine .current ?_
  cases op with
  | binary op => exact .advance hc fun t ht => (he _ t ht).bind fun _ _ _ => .pure
  | logical op => exact .advance hc fun t ht => (he _ t ht).bind fun _ _ _ => .pure
  | assign => exact .advance hc fun t ht => (he _ t ht).bind fun _ _ _ => lasts_assignment _ _ _
  | ternary =>
    exact .advance hc fun t ht => (he _ t ht).bind fun _ t₁ h₁ => (lasts_expect _ _).bind
      fun _ t₂ h₂ => (he _ t₂ (by omega)).bind fun _ _ _ => .pure
  | call => exact (lasts_arguments hc (he .lowest) hn).bind fun _ _ _ => .pure
  | index =>
    exact .advance hc fun t ht => (he _ t ht).bind fun _ _ _ => (lasts_expect _ _).bind
      fun _ _ _ => .pure
  | property => exact .advance hc fun _ _ => (lasts_identifier _).bind fun _ _ _ => .pure

section

variable {expression : Rule Expr} {body : Rule (List Stmt)} {n : Nat}
  (he : ∀ t, t.left ≤ s.left → Lasts expression t 1)
  (hb : ∀ t, t.left ≤ s.left → Lasts body t 1) (hn : s.left ≤ n)
include he hb hn

theorem lasts_primaryNode (first : Token) :
    Lasts (primaryNode expression body n first) s 0 := by
  obtain ⟨kind, span⟩ := first
  cases kind with
  | number x => exact .pure
  | string text => exact .pure
  | identifier name => exact .pure
  | keyword word =>
    cases word with
    | true | false | nil | this => exact .pure
    | super =>
      exact ((lasts_expect _ _).bind fun _ _ _ => (lasts_identifier _).bind fun _ _ _ =>
        .pure).mono (Nat.zero_le _)
    | «fun» =>
      exact ((lasts_parameters hn).bind fun _ t ht => (lasts_expect _ _).bind fun _ u hu =>
        (hb u (by omega)).bind fun _ _ _ => (lasts_spanFrom _).bind fun _ _ _ => .pure).mono
          (Nat.zero_le _)
    | _ => exact .fail
  | symbol sym =>
    cases sym with
    | leftParen =>
      exact ((he s (Nat.le_refl _)).bind fun _ _ _ => (lasts_expect _ _).bind fun _ _ _ =>
        .pure).mono (Nat.zero_le _)
    | leftBracket => exact (lasts_commaSeparated _ he hn).map.mono (Nat.zero_le _)
    | _ => exact .fail
  | _ => exact .fail

end

theorem lasts_primary {expression : Rule Expr} {body : Rule (List Stmt)} {n : Nat}
    (he : ∀ t, t.left + 1 ≤ s.left → Lasts expression t 1)
    (hb : ∀ t, t.left + 1 ≤ s.left → Lasts body t 1) (hn : s.left ≤ n) :
    Lasts (primary expression body n) s 1 := by
  rw [primary_eq]
  refine .next (j := 0) (fun t u ht => ?_) fun t ht => ?_
  · simp only [primaryNode, ht]
    exact ⟨_, rfl⟩
  · exact (lasts_primaryNode (fun u hu => he u (by omega)) (fun u hu => hb u (by omega)) (by omega)
      _).bind fun _ _ _ => lasts_expr _ _

/-! ## All rules -/

/-- With so much fuel all rules last, each from where so few tokens are left. -/
structure LastingRules (n : Nat) : Prop where
  expression : ∀ outer s, 4 * s.left < n → Lasts (Parser.expression n outer) s 1
  operators : ∀ outer left s, 4 * s.left < n → Lasts (Parser.operators n outer left) s 0
  block : ∀ s, 4 * s.left + 3 < n → Lasts (Parser.block n) s 1
  declaration : ∀ s, 4 * s.left + 2 < n → Lasts (Parser.declaration n) s 1
  statement : ∀ s, 4 * s.left + 1 < n → Lasts (Parser.statement n) s 1

section

variable {n : Nat} (ih : LastingRules n)
include ih

theorem lasts_operators (outer : Level) (left : Expr) (s : State) (hn : 4 * s.left < n + 1) :
    Lasts (operators (n + 1) outer left) s 0 := by
  refine .current ?_
  cases hop : Operator.ofToken? s.current.kind with
  | none => exact .pure
  | some op =>
    dsimp only
    split
    · have hc : s.current.kind ≠ .endOfFile := by
        intro hc
        rw [hc] at hop
        cases hop
      refine ((lasts_continuation hc (fun outer t ht => ih.expression outer t (by omega))
        (by omega) left op).bind (j := 0) fun node t ht => ?_).mono (Nat.zero_le _)
      exact (lasts_expr _ _).bind fun e u hu => ih.operators outer e u (by omega)
    · exact .pure

theorem lasts_expression (outer : Level) (s : State) (hn : 4 * s.left < n + 1) :
    Lasts (expression (n + 1) outer) s 1 := by
  refine .current ?_
  cases hop : unaryOp? s.current.kind with
  | some op =>
    have hc : s.current.kind ≠ .endOfFile := by
      intro hc
      rw [hc] at hop
      cases hop
    exact .advance hc fun t ht => (ih.expression _ t (by omega)).bind fun _ t₁ h₁ =>
      (lasts_expr _ _).bind fun e u hu => ih.operators outer e u (by omega)
  | none =>
    exact (lasts_primary (fun t ht => ih.expression .lowest t (by omega))
      (fun t ht => ih.block t (by omega)) (by omega)).bind fun e t ht =>
        ih.operators outer e t (by omega)

theorem lasts_statement (s : State) (hn : 4 * s.left + 1 < n + 1) :
    Lasts (statement (n + 1)) s 1 := by
  have he (t : State) (ht : t.left + 1 ≤ s.left) : Lasts (expression n .lowest) t 1 :=
    ih.expression .lowest t (by omega)
  have hst (t : State) (ht : t.left + 1 ≤ s.left) : Lasts (statement n) t 1 :=
    ih.statement t (by omega)
  have hexpr := lasts_stmt (lasts_expressionStmt (ih.expression .lowest s (by omega)))
  refine .current ?_
  cases hk : s.current.kind with
  | keyword word =>
    have hc : s.current.kind ≠ .endOfFile := by
      rw [hk]
      exact Token.Kind.noConfusion
    cases word with
    | print => exact lasts_stmt (lasts_printStmt hc he)
    | «if» => exact lasts_stmt (lasts_ifStmt hc he hst)
    | «while» => exact lasts_stmt (lasts_whileStmt hc he hst)
    | «for» => exact lasts_stmt (lasts_forStmt hc he hst)
    | «return» => exact lasts_stmt (lasts_returnStmt hc he)
    | «break» => exact lasts_stmt (lasts_loopControl hc _)
    | «continue» => exact lasts_stmt (lasts_loopControl hc _)
    | _ => exact hexpr
  | symbol sym =>
    have hc : s.current.kind ≠ .endOfFile := by
      rw [hk]
      exact Token.Kind.noConfusion
    cases sym with
    | leftBrace =>
      exact lasts_stmt (.advance hc fun t ht => (ih.block t (by omega)).bind fun _ _ _ => .pure)
    | _ => exact hexpr
  | _ => exact hexpr

theorem lasts_declaration (s : State) (hn : 4 * s.left + 2 < n + 1) :
    Lasts (declaration (n + 1)) s 1 := by
  have hb (t : State) (ht : t.left + 1 ≤ s.left) : Lasts (block n) t 1 := ih.block t (by omega)
  have hst := ih.statement s (by omega)
  refine .current ?_
  cases hk : s.current.kind with
  | keyword word =>
    have hc : s.current.kind ≠ .endOfFile := by
      rw [hk]
      exact Token.Kind.noConfusion
    cases word with
    | var => exact lasts_stmt (lasts_varDecl hc fun t ht => ih.expression .lowest t (by omega))
    | «fun» => exact lasts_stmt (lasts_funDecl hc hb (by omega))
    | klass => exact lasts_stmt (lasts_classDecl hc hb (by omega))
    | trait => exact lasts_stmt (lasts_traitDecl hc hb (by omega))
    | _ => exact hst
  | _ => exact hst

end

theorem lastingRules (n : Nat) : LastingRules n := by
  induction n with
  | zero =>
    exact { expression := fun _ _ h => absurd h (Nat.not_lt_zero _)
            operators := fun _ _ _ h => absurd h (Nat.not_lt_zero _)
            block := fun _ h => absurd h (Nat.not_lt_zero _)
            declaration := fun _ h => absurd h (Nat.not_lt_zero _)
            statement := fun _ h => absurd h (Nat.not_lt_zero _) }
  | succ n ih =>
    exact { expression := lasts_expression ih
            operators := lasts_operators ih
            block := fun s hn =>
              lasts_statements (fun t ht => ih.declaration t (by omega)) (by omega)
            declaration := lasts_declaration ih
            statement := lasts_statement ih }

/-! ## Texts -/

/-- Tokens that end as those of a text do are read to the end, whatever they are. -/
theorem exists_program_eq_ok {tokens : List Token} {ks : List Token.Kind}
    (htokens : tokens.map Token.kind = ks ++ [.endOfFile]) (hne : .endOfFile ∉ ks)
    (firstId : ExprId) {n : Nat} (hn : fuelFor tokens.length ≤ n) :
    ∃ body t, program (recover (declaration n)) n (.start tokens firstId) = .ok body t := by
  obtain ⟨hended, hleft⟩ := State.ended_shift ⟨⟨.endOfFile, .nowhere⟩, ⟨.endOfFile, .nowhere⟩,
    tokens, [], firstId⟩ htokens hne
  unfold fuelFor at hn
  exact program_eq_ok (fun t ht => (lastingRules n).declaration t (by
    have : t.left + 1 ≤ tokens.length := Nat.le_trans (Nat.succ_le_succ ht) hleft
    omega)) (by
    have : (State.start tokens firstId).left + 1 ≤ tokens.length := hleft
    omega) hended

end Lox.Parser

import Lox.Proofs.Syntax.Sound

/-!
# Errors stay in front of a semicolon

Two texts with the same tokens up to a semicolon, and none of `;`, `{` and `for` before it, are read
the same way up to there, whatever comes behind: an error strikes in front of the semicolon or when
it has just been passed, and in both cases the reading goes on right behind it.

    Fenced F w w' x x'      from the side `w` of the fence both rules end alike, on the side `w'` if
                            they go well, and in front of the fence or just past it if they fail

No expression passes the semicolon and every statement ends with it.  A rule that needs a brace to go
well cannot, so nothing that comes behind a brace has to be compared.
-/

namespace Lox

/-- No semicolon, no opening brace, no `for`, no end of the text and nothing illegal. -/
structure Token.Plain (t : Token) : Prop where
  semicolon : t.kind ≠ .symbol .semicolon
  brace : t.kind ≠ .symbol .leftBrace
  «for» : t.kind ≠ .keyword .for
  endOfFile : t.kind ≠ .endOfFile
  valid : ∀ e, t.kind ≠ .invalid e

/-- The first of the tokens is valid and not an `else`. -/
def Token.Opens (ts : List Token) : Prop :=
  ∃ t us, ts = t :: us ∧ t.kind ≠ .keyword .else ∧ ∀ e, t.kind ≠ .invalid e

namespace Parser

/-- A semicolon up to which two texts are the same. -/
structure Fence where
  semicolon : Token
  kind : semicolon.kind = .symbol .semicolon
  /-- What comes behind it in the first text. -/
  behind : List Token
  /-- What does in the second. -/
  behind' : List Token
  opens : Token.Opens behind
  opens' : Token.Opens behind'
  /-- The errors that the second reading has found before. -/
  earlier : List ParseError

/-- Where two readings are. -/
inductive Side
  /-- In front of the semicolon. -/
  | fresh
  /-- There too, and the token before is no semicolon. -/
  | front
  /-- Just past it. -/
  | past

variable {F : Fence} {w w' w₁ : Side} {s s' : State}

/-! ## States beside each other -/

namespace Fence

/-- The same has been read but for the errors from before. -/
structure Same (F : Fence) (s s' : State) : Prop where
  nextId : s'.nextId = s.nextId
  errors : s'.errors = F.earlier ++ s.errors

/-- Both readings are in front of `us` and the semicolon. -/
structure Before (F : Fence) (us : List Token) (s s' : State) : Prop extends F.Same s s' where
  plain : ∀ t ∈ us, t.Plain
  tokens : s.current :: s.upcoming = us ++ F.semicolon :: F.behind
  tokens' : s'.current :: s'.upcoming = us ++ F.semicolon :: F.behind'

inductive Beside (F : Fence) : Side → State → State → Prop
  | fresh {us : List Token} {s s' : State} : F.Before us s s' → F.Beside .fresh s s'
  | front {us : List Token} {s s' : State} : F.Before us s s' → s'.previous = s.previous →
      s.previous.kind ≠ .symbol .semicolon → F.Beside .front s s'
  | past {s s' : State} : F.Same s s' → s.previous = F.semicolon → s'.previous = F.semicolon →
      s.current :: s.upcoming = F.behind → s'.current :: s'.upcoming = F.behind' →
      F.Beside .past s s'

theorem valid_semicolon (F : Fence) : ∀ e, F.semicolon.kind ≠ .invalid e := by
  rw [F.kind]
  exact fun _ => Token.Kind.noConfusion

theorem Before.current {us : List Token} (h : F.Before us s s') : s'.current = s.current := by
  cases us with
  | nil => exact (List.cons.inj h.tokens').1.trans (List.cons.inj h.tokens).1.symm
  | cons t us => exact (List.cons.inj h.tokens').1.trans (List.cons.inj h.tokens).1.symm

/-- A step past the semicolon. -/
theorem Before.advance_nil (h : F.Before [] s s') : F.Beside .past s.advance s'.advance := by
  obtain ⟨hc, hu⟩ := List.cons.inj h.tokens
  obtain ⟨hc', hu'⟩ := List.cons.inj h.tokens'
  obtain ⟨t, us, hb, -, hv⟩ := F.opens
  obtain ⟨t', us', hb', -, hv'⟩ := F.opens'
  have hu : s.upcoming = t :: us := hu.trans hb
  have hu' : s'.upcoming = t' :: us' := hu'.trans hb'
  rw [State.advance, State.advance, hu, hu', State.shift_cons s hv, State.shift_cons s' hv']
  exact .past ⟨h.nextId, h.errors⟩ hc hc' hb.symm hb'.symm

/-- A step in front of it. -/
theorem Before.advance_cons {t : Token} {us : List Token} (h : F.Before (t :: us) s s') :
    F.Before us s.advance s'.advance ∧ s.advance.previous = t ∧ s'.advance.previous = t := by
  have hu : s.upcoming = us ++ F.semicolon :: F.behind := (List.cons.inj h.tokens).2
  have hu' : s'.upcoming = us ++ F.semicolon :: F.behind' := (List.cons.inj h.tokens').2
  have hplain := List.forall_mem_cons.1 h.plain
  refine ⟨?_, s.previous_advance.trans (List.cons.inj h.tokens).1,
    s'.previous_advance.trans (List.cons.inj h.tokens').1⟩
  rw [State.advance, State.advance, hu, hu']
  cases us with
  | nil =>
    rw [List.nil_append, List.nil_append, State.shift_cons s F.valid_semicolon,
      State.shift_cons s' F.valid_semicolon]
    exact ⟨⟨h.nextId, h.errors⟩, hplain.2, rfl, rfl⟩
  | cons u us =>
    have hv := (hplain.2 u List.mem_cons_self).valid
    rw [List.cons_append, List.cons_append, State.shift_cons s hv, State.shift_cons s' hv]
    exact ⟨⟨h.nextId, h.errors⟩, hplain.2, rfl, rfl⟩

theorem Beside.toFresh (h : F.Beside .front s s') : F.Beside .fresh s s' := by
  cases h with
  | front hs _ _ => exact .fresh hs

theorem Beside.current (h : F.Beside .fresh s s') : s'.current = s.current := by
  cases h with
  | fresh hs => exact hs.current

theorem Beside.same (h : F.Beside w s s') : F.Same s s' := by
  cases h with
  | fresh hs => exact hs.toSame
  | front hs _ _ => exact hs.toSame
  | past hs _ _ _ _ => exact hs

theorem Beside.previous (h : F.Beside w s s') (hw : w ≠ .fresh) : s'.previous = s.previous := by
  cases h with
  | fresh _ => exact absurd rfl hw
  | front _ hp _ => exact hp
  | past _ hp hp' _ _ => exact hp'.trans hp.symm

/-- The current token is the semicolon, and a step goes past it, or a plain one in front of it. -/
theorem Beside.step (h : F.Beside .fresh s s') :
    (s.current.kind = .symbol .semicolon ∧ F.Beside .past s.advance s'.advance) ∨
      s.current.Plain ∧ F.Beside .front s.advance s'.advance := by
  cases h with
  | @fresh us _ _ h =>
  cases us with
  | nil => exact .inl ⟨(List.cons.inj h.tokens).1 ▸ F.kind, h.advance_nil⟩
  | cons t us =>
    have hplain : t.Plain := h.plain t List.mem_cons_self
    obtain ⟨hs, hp, hp'⟩ := h.advance_cons
    exact .inr ⟨(List.cons.inj h.tokens).1 ▸ hplain,
      .front hs (hp'.trans hp.symm) (hp ▸ hplain.semicolon)⟩

/-- What changes neither the tokens nor the token before keeps the states beside each other. -/
theorem Beside.update {t t' : State} (h : F.Beside w s s') (ht : F.Same t t')
    (htokens : t.previous = s.previous ∧ t.current = s.current ∧ t.upcoming = s.upcoming)
    (htokens' : t'.previous = s'.previous ∧ t'.current = s'.current ∧ t'.upcoming = s'.upcoming) :
    F.Beside w t t' := by
  obtain ⟨hp, hc, hu⟩ := htokens
  obtain ⟨hp', hc', hu'⟩ := htokens'
  cases h with
  | fresh hs => exact .fresh ⟨ht, hs.plain, by rw [hc, hu, hs.tokens], by rw [hc', hu', hs.tokens']⟩
  | front hs heq hne =>
    exact .front ⟨ht, hs.plain, by rw [hc, hu, hs.tokens], by rw [hc', hu', hs.tokens']⟩
      (by rw [hp, hp', heq]) (by rwa [hp])
  | past _ hsemi hsemi' hb hb' =>
    exact .past ht (hp.trans hsemi) (hp'.trans hsemi') (by rw [hc, hu, hb]) (by rw [hc', hu', hb'])

theorem Beside.report (h : F.Beside w s s') (e : ParseError) :
    F.Beside w (s.report e) (s'.report e) := by
  refine h.update ⟨h.same.nextId, ?_⟩ ⟨rfl, rfl, rfl⟩ ⟨rfl, rfl, rfl⟩
  show s'.errors ++ [e] = F.earlier ++ (s.errors ++ [e])
  rw [h.same.errors, List.append_assoc]

/-- A statement is skipped up to the semicolon. -/
theorem Before.skipStatement {us : List Token} (h : F.Before us s s') {n n' : Nat}
    (hn : us.length < n) (hn' : us.length < n') :
    F.Beside .past (s.skipStatement n) (s'.skipStatement n') := by
  induction us generalizing s s' n n' with
  | nil =>
    obtain ⟨n, rfl⟩ := Nat.exists_eq_add_one.2 hn
    obtain ⟨n', rfl⟩ := Nat.exists_eq_add_one.2 hn'
    have hk : s.current.kind = .symbol .semicolon := (List.cons.inj h.tokens).1 ▸ F.kind
    rw [State.skipStatement, State.skipStatement, h.current, hk]
    exact h.advance_nil
  | cons t us ih =>
    obtain ⟨n, rfl⟩ := Nat.exists_eq_add_one.2 (Nat.zero_lt_of_lt hn)
    obtain ⟨n', rfl⟩ := Nat.exists_eq_add_one.2 (Nat.zero_lt_of_lt hn')
    have hplain : s.current.Plain := (List.cons.inj h.tokens).1 ▸ h.plain t List.mem_cons_self
    have hend : ¬s.current.kind.isEndOfFile = true := by
      rw [Token.isEndOfFile_iff]
      exact hplain.endOfFile
    have hsemi : ¬s.current.kind.isSymbol .semicolon = true := by
      rw [isSymbol_iff]
      exact hplain.semicolon
    rw [State.skipStatement, State.skipStatement, h.current, if_neg hend, if_neg hsemi,
      if_neg hend, if_neg hsemi]
    exact ih h.advance_cons.1 (Nat.lt_of_succ_lt_succ hn) (Nat.lt_of_succ_lt_succ hn')

theorem Beside.synchronize (h : F.Beside w s s') (hw : w ≠ .fresh) :
    F.Beside .past s.synchronize s'.synchronize := by
  rw [State.synchronize, State.synchronize, h.previous hw]
  cases h with
  | fresh _ => exact absurd rfl hw
  | @front us _ _ hs hp hne =>
    rw [if_neg (fun hk => hne (isSymbol_iff.1 hk)), if_neg (fun hk => hne (isSymbol_iff.1 hk))]
    have hlen := congrArg List.length hs.tokens
    have hlen' := congrArg List.length hs.tokens'
    simp only [List.length_cons, List.length_append] at hlen hlen'
    exact hs.skipStatement (by omega) (by omega)
  | past hs hp hp' hb hb' =>
    have hk : s.previous.kind.isSymbol .semicolon = true := isSymbol_iff.2 (hp ▸ F.kind)
    rw [if_pos hk, if_pos hk]
    exact .past hs hp hp' hb hb'

/-! ## Rules -/

/-- Both have ended alike: on the side `w` if they went well, and not in front of the first token if
they failed.  If the first has run out of fuel, nothing is said. -/
def Ends (F : Fence) (w : Side) {α : Type} :
    EStateM.Result Stop State α → EStateM.Result Stop State α → Prop
  | .ok a t, r' => ∃ t', r' = .ok a t' ∧ F.Beside w t t'
  | .error (.error e) t, r' => ∃ t' w, r' = .error (.error e) t' ∧ w ≠ .fresh ∧ F.Beside w t t'
  | .error .outOfFuel _, _ => True

end Fence

/-- From states beside each other both rules end alike. -/
def Fenced (F : Fence) (w w' : Side) {α : Type} (x x' : Rule α) : Prop :=
  ∀ s s', F.Beside w s s' → F.Ends w' (x s) (x' s')

variable {α β : Type} {x x' : Rule α} {f f' : α → Rule β}

/-- What follows a rule that ends alike. -/
theorem Fence.Ends.bind (hx : F.Ends w₁ (x s) (x' s'))
    (hf : ∀ a, Fenced F w₁ w' (f a) (f' a)) : F.Ends w' ((x >>= f) s) ((x' >>= f') s') := by
  cases hrun : x s with
  | ok a t =>
    rw [hrun] at hx
    obtain ⟨t', hrun', ht⟩ := hx
    rw [EStateM.bind_of_ok hrun, EStateM.bind_of_ok hrun']
    exact hf a t t' ht
  | error stop t =>
    rw [hrun] at hx
    rw [EStateM.bind_of_error hrun]
    cases stop with
    | error e =>
      obtain ⟨t', w, hrun', hw, ht⟩ := hx
      exact ⟨t', w, EStateM.bind_of_error hrun' f', hw, ht⟩
    | outOfFuel => trivial

/-- A look at the current token. -/
theorem Fence.Ends.current {f f' : Token → Rule α} (hs : F.Beside .fresh s s')
    (h : F.Ends w' (f s.current s) (f' s.current s')) :
    F.Ends w' ((currentToken >>= f) s) ((currentToken >>= f') s') := by
  show F.Ends w' (f s.current s) (f' s'.current s')
  rwa [hs.current]

/-- A step from a token that is known not to be the semicolon. -/
theorem Fence.Ends.advance {f f' : Unit → Rule α} (hs : F.Beside .fresh s s')
    (hc : s.current.kind ≠ .symbol .semicolon) (hf : Fenced F .front w' (f ()) (f' ())) :
    F.Ends w' ((Parser.advance >>= f) s) ((Parser.advance >>= f') s') :=
  hs.step.elim (fun h => absurd h.1 hc) fun h => hf _ _ h.2

namespace Fenced

theorem bind (hx : Fenced F w w₁ x x') (hf : ∀ a, Fenced F w₁ w' (f a) (f' a)) :
    Fenced F w w' (x >>= f) (x' >>= f') := fun s s' h => (hx s s' h).bind hf

theorem pure {a : α} : Fenced F w w (Pure.pure a) (Pure.pure a) := fun _ s' h => ⟨s', rfl, h⟩

theorem map {g : α → β} (hx : Fenced F w w' x x') : Fenced F w w' (g <$> x) (g <$> x') := by
  rw [map_eq_pure_bind, map_eq_pure_bind]
  exact hx.bind fun _ => .pure

theorem outOfFuel : Fenced F w w' Parser.outOfFuel x' := fun _ _ _ => trivial

theorem fail {span : Span} {kind : ParseErrorKind} (hw : w ≠ .fresh) :
    Fenced F w w' (Parser.fail span kind : Rule α) (Parser.fail span kind) :=
  fun _ s' h => ⟨s', w, rfl, hw, h⟩

theorem front (hx : Fenced F .fresh w' x x') : Fenced F .front w' x x' :=
  fun s s' h => hx s s' h.toFresh

/-- A step to the next token and a look back, at a token that must not be the semicolon. -/
theorem next {f f' : Token → Rule α}
    (hsemi : ∀ t, t.kind = .symbol .semicolon →
      ∃ e, ∀ u, f t u = .error (.error e) u ∧ f' t u = .error (.error e) u)
    (h : ∀ t, t.Plain → Fenced F .front w' (f t) (f' t)) :
    Fenced F .fresh w' (Parser.advance >>= fun _ => previousToken >>= f)
      (Parser.advance >>= fun _ => previousToken >>= f') := by
  intro s s' hs
  have hrun (s : State) (f : Token → Rule α) :
      (Parser.advance >>= fun _ => previousToken >>= f) s = f s.current s.advance := by
    rw [← s.previous_advance]
    rfl
  rw [hrun, hrun, hs.current]
  rcases hs.step with ⟨hk, hpast⟩ | ⟨hplain, hfront⟩
  · obtain ⟨e, he⟩ := hsemi _ hk
    rw [(he _).1, (he _).2]
    exact ⟨_, _, rfl, Side.noConfusion, hpast⟩
  · exact h _ hplain _ _ hfront

end Fenced

/-! ## Single tokens -/

theorem fenced_expect {sym : Symbol} (hsym : sym ≠ .semicolon) (otherwise : ParseErrorKind) :
    Fenced F .fresh .front (expect sym otherwise) (expect sym otherwise) := by
  refine .next (fun t ht => ?_) fun t _ => ?_
  · have hk : t.kind.isSymbol sym = false := by
      rw [ht, ← Bool.not_eq_true, isSymbol_iff]
      exact fun h => hsym (Token.Kind.symbol.inj h).symm
    rw [hk]
    exact ⟨_, fun _ => ⟨rfl, rfl⟩⟩
  · cases t.kind.isSymbol sym with
    | true => exact .pure
    | false => exact .fail Side.noConfusion

/-- The semicolon is expected where it is, or some token in front of it is found instead. -/
theorem fenced_expect_semicolon (otherwise : ParseErrorKind) :
    Fenced F .fresh .past (expect .semicolon otherwise) (expect .semicolon otherwise) := by
  intro s s' hs
  have hrun (s : State) : expect .semicolon otherwise s =
      (if s.current.kind.isSymbol .semicolon then pure ()
        else fail s.current.span otherwise : Rule Unit) s.advance := by
    rw [← s.previous_advance]
    show (if s.advance.previous.kind.isSymbol .semicolon then _ else _ : Rule Unit) s.advance = _
    split <;> rfl
  rw [hrun, hrun, hs.current]
  rcases hs.step with ⟨hk, hpast⟩ | ⟨hplain, hfront⟩
  · rw [if_pos (isSymbol_iff.2 hk)]
    exact ⟨_, rfl, hpast⟩
  · rw [if_neg fun hk => hplain.semicolon (isSymbol_iff.1 hk)]
    exact ⟨_, _, rfl, Side.noConfusion, hfront⟩

/-- No brace is found in front of the fence, so what would follow it is never read. -/
theorem fenced_brace (otherwise : ParseErrorKind) {f f' : Unit → Rule α} :
    Fenced F .fresh w' (expect .leftBrace otherwise >>= f) (expect .leftBrace otherwise >>= f') := by
  have hfails {g : Unit → Rule α} {t : Token} (ht : ¬t.kind.isSymbol .leftBrace = true) (u : State) :
      ((do unless t.kind.isSymbol .leftBrace do fail t.span otherwise : Rule Unit) >>= g) u =
        .error (.error ⟨t.span, otherwise⟩) u := by
    rw [if_neg ht]
    rfl
  unfold expect
  simp only [bind_assoc]
  refine .next (fun t ht => ?_) fun t ht u u' hu => ?_
  · have hk : ¬t.kind.isSymbol .leftBrace = true := by
      rw [ht]
      exact Bool.false_ne_true
    exact ⟨_, fun u => ⟨hfails hk u, hfails hk u⟩⟩
  · have hk : ¬t.kind.isSymbol .leftBrace = true := fun hk => ht.brace (isSymbol_iff.1 hk)
    rw [hfails hk, hfails hk]
    exact ⟨u', _, rfl, Side.noConfusion, hu⟩

theorem fenced_identifier (otherwise : ParseErrorKind) :
    Fenced F .fresh .front (identifier otherwise) (identifier otherwise) := by
  refine .next (fun t ht => ?_) fun t _ => ?_
  · rw [ht]
    exact ⟨_, fun _ => ⟨rfl, rfl⟩⟩
  · cases t.kind with
    | identifier name => exact .pure
    | _ => exact .fail Side.noConfusion

theorem Fenced.atSymbol {sym : Symbol} {f f' : Bool → Rule α}
    (h : ∀ b, Fenced F .front w' (f b) (f' b)) :
    Fenced F .front w' (atSymbol sym >>= f) (atSymbol sym >>= f') := by
  intro s s' hs
  show F.Ends w' (f (s.current.kind.isSymbol sym) s) (f' (s'.current.kind.isSymbol sym) s')
  rw [hs.toFresh.current]
  exact h _ s s' hs

theorem fenced_skipSymbol {sym : Symbol} (hsym : sym ≠ .semicolon) :
    Fenced F .front .front (skipSymbol sym) (skipSymbol sym) := by
  intro s s' hs
  rw [skipSymbol_apply, skipSymbol_apply, hs.toFresh.current]
  split
  · next hk =>
    have hc : s.current.kind ≠ .symbol .semicolon := by
      rw [isSymbol_iff.1 hk]
      exact fun h => hsym (Token.Kind.symbol.inj h)
    exact ⟨_, rfl, (hs.toFresh.step.resolve_left fun h => hc h.1).2⟩
  · exact ⟨_, rfl, hs⟩

/-- Behind the fence no `else` follows. -/
theorem Fenced.skipElse {f f' : Bool → Rule α} (h : Fenced F .past w' (f false) (f' false)) :
    Fenced F .past w' (skipKeyword .else >>= f) (skipKeyword .else >>= f') := by
  intro s s' hs
  have hstays {s : State} {ts : List Token} (hts : s.current :: s.upcoming = ts)
      (ho : Token.Opens ts) : skipKeyword .else s = .ok false s := by
    obtain ⟨t, us, rfl, hne, -⟩ := ho
    rw [skipKeyword_apply, if_neg fun hk => hne ((List.cons.inj hts).1 ▸ isKeyword_iff.1 hk)]
  cases hs with
  | past hsame hp hp' hb hb' =>
    rw [EStateM.bind_of_ok (hstays hb F.opens), EStateM.bind_of_ok (hstays hb' F.opens')]
    exact h s s' (.past hsame hp hp' hb hb')

theorem fenced_freshId : Fenced F w w freshId freshId := by
  intro s s' hs
  refine ⟨{ s' with nextId := s'.nextId + 1 }, ?_, ?_⟩
  · show EStateM.Result.ok s'.nextId _ = _
    rw [hs.same.nextId]
  · refine hs.update ⟨?_, hs.same.errors⟩ ⟨rfl, rfl, rfl⟩ ⟨rfl, rfl, rfl⟩
    show s'.nextId + 1 = s.nextId + 1
    rw [hs.same.nextId]

theorem fenced_reference (otherwise : ParseErrorKind) :
    Fenced F .fresh .front (reference otherwise) (reference otherwise) :=
  (fenced_identifier _).bind fun _ => fenced_freshId.bind fun _ => .pure

theorem fenced_spanFrom (hw : w ≠ .fresh) (first : Span) :
    Fenced F w w (spanFrom first) (spanFrom first) := by
  intro s s' hs
  refine ⟨s', ?_, hs⟩
  show EStateM.Result.ok (first.extend s'.previous.span) s' = _
  rw [hs.previous hw]

theorem fenced_superclassClause : Fenced F .front .front superclassClause superclassClause := by
  refine (fenced_skipSymbol Symbol.noConfusion).bind fun b => ?_
  cases b with
  | true => exact (fenced_reference _).front.map
  | false => exact .pure

theorem fenced_expr (first : Span) (node : Expr.Node) :
    Fenced F .front .front (expr first node) (expr first node) :=
  fenced_freshId.bind fun _ => (fenced_spanFrom Side.noConfusion _).bind fun _ => .pure

theorem Fence.Ends.stmt {node node' : Rule Stmt.Node} (hs : F.Beside .fresh s s')
    (h : F.Ends .past (node s) (node' s')) : F.Ends .past (stmt node s) (stmt node' s') := by
  show F.Ends .past ((node >>= _) s) ((node' >>= _) s')
  rw [hs.current]
  exact h.bind fun _ => (fenced_spanFrom Side.noConfusion _).bind fun _ => .pure

theorem Fence.Ends.recover {rule rule' : Rule α} (h : F.Ends .past (rule s) (rule' s')) :
    F.Ends .past (recover rule s) (recover rule' s') := by
  unfold Parser.recover
  cases hrun : rule s with
  | ok a t =>
    rw [hrun] at h
    obtain ⟨t', hrun', ht⟩ := h
    rw [hrun']
    exact ⟨t', rfl, ht⟩
  | error stop t =>
    rw [hrun] at h
    cases stop with
    | error e =>
      obtain ⟨t', w, hrun', hw, ht⟩ := h
      rw [hrun']
      exact ⟨_, rfl, (ht.report e).synchronize hw⟩
    | outOfFuel => trivial

/-! ## Lists -/

section

variable {n n' : Nat} (hn : n ≤ n')
include hn

theorem fenced_commaSeparatedTail {close : Symbol} (hclose : close ≠ .semicolon)
    (hitem : Fenced F .fresh .front x x') : Fenced F .front .front
      (commaSeparatedTail close x n) (commaSeparatedTail close x' n') := by
  induction n generalizing n' with
  | zero => exact .outOfFuel
  | succ n ih =>
    obtain ⟨n', rfl⟩ := Nat.exists_eq_add_one.2 (Nat.zero_lt_of_lt hn)
    refine (fenced_skipSymbol hclose).bind fun b => ?_
    cases b with
    | true => exact .pure
    | false =>
      exact (fenced_expect Symbol.noConfusion _).front.bind fun _ => hitem.front.bind fun _ =>
        (ih (Nat.le_of_succ_le_succ hn)).bind fun _ => .pure

theorem fenced_commaSeparated {close : Symbol} (hclose : close ≠ .semicolon)
    (hitem : Fenced F .fresh .front x x') : Fenced F .front .front
      (commaSeparated close x n) (commaSeparated close x' n') := by
  refine (fenced_skipSymbol hclose).bind fun b => ?_
  cases b with
  | true => exact .pure
  | false =>
    exact hitem.front.bind fun _ => (fenced_commaSeparatedTail hn hclose hitem).bind fun _ => .pure

end

theorem fenced_reportSurplus (span : α → Span) (kind : ParseErrorKind) (items : List α) :
    Fenced F w w (reportSurplus span kind items) (reportSurplus span kind items) := by
  have hrun (s : State) : reportSurplus span kind items s =
      .ok () { s with errors := s.errors ++ (items.drop maxArgs).map fun x => ⟨span x, kind⟩ } :=
    forM_report _ _ s
  intro s s' hs
  rw [hrun, hrun]
  refine ⟨_, rfl, hs.update ⟨hs.same.nextId, ?_⟩ ⟨rfl, rfl, rfl⟩ ⟨rfl, rfl, rfl⟩⟩
  dsimp only
  rw [hs.same.errors, List.append_assoc]

section

variable {n n' : Nat} (hn : n ≤ n')
include hn

theorem fenced_parameters : Fenced F .fresh .front (parameters n) (parameters n') :=
  (fenced_expect Symbol.noConfusion _).bind fun _ =>
    (fenced_commaSeparated hn Symbol.noConfusion (fenced_identifier _)).bind fun _ =>
      (fenced_reportSurplus _ _ _).bind fun _ => .pure

/-! ## Declarations -/

variable {body body' : Rule (List Stmt)}

theorem fenced_namedFunction :
    Fenced F .front w' (namedFunction body false n) (namedFunction body' false n') := by
  refine .front fun s s' hs => .current hs ((fenced_identifier _ s s' hs).bind fun name =>
    .atSymbol fun _ => ?_)
  exact (fenced_parameters hn).front.bind fun _ => (fenced_brace _).front

theorem fenced_lambda (keyword : Span) :
    Fenced F .front w' (lambda body keyword n) (lambda body' keyword n') :=
  (fenced_parameters hn).front.bind fun _ => (fenced_brace _).front

theorem fenced_traitNames : Fenced F .front .front (traitNames n) (traitNames n') := by
  induction n generalizing n' with
  | zero => exact .outOfFuel
  | succ n ih =>
    obtain ⟨n', rfl⟩ := Nat.exists_eq_add_one.2 (Nat.zero_lt_of_lt hn)
    refine (fenced_reference _).front.bind fun _ =>
      (fenced_skipSymbol Symbol.noConfusion).bind fun b => ?_
    cases b with
    | true => exact (ih (Nat.le_of_succ_le_succ hn)).bind fun _ => .pure
    | false => exact .pure

theorem fenced_traitsClause : Fenced F .front .front (traitsClause n) (traitsClause n') := by
  refine (fenced_skipSymbol Symbol.noConfusion).bind fun b => ?_
  cases b with
  | true => exact fenced_traitNames hn
  | false => exact .pure

variable (hs : F.Beside .fresh s s') (hc : s.current.kind ≠ .symbol .semicolon)
include hs hc

theorem fenced_funDecl : F.Ends w' (funDecl body n s) (funDecl body' n' s') :=
  .advance hs hc ((fenced_namedFunction hn).bind fun _ => .pure)

theorem fenced_classDecl : F.Ends w' (classDecl body n s) (classDecl body' n' s') := by
  rw [classDecl_eq, classDecl_eq]
  exact .advance hs hc ((fenced_identifier _).front.bind fun _ => fenced_superclassClause.bind
    fun _ => (fenced_traitsClause hn).bind fun _ => (fenced_brace _).front)

omit hn in
theorem fenced_traitDecl : F.Ends w' (traitDecl body n s) (traitDecl body' n' s') :=
  .advance hs hc ((fenced_identifier _).front.bind fun _ => (fenced_brace _).front)

end

/-! ## Statements -/

section

variable {expression expression' : Rule Expr} (he : Fenced F .fresh .front expression expression')
include he

theorem fenced_expressionStmt :
    Fenced F .fresh .past (expressionStmt expression) (expressionStmt expression') :=
  he.bind fun _ => (fenced_expect_semicolon _).front.bind fun _ => .pure

theorem fenced_optional (close : Symbol) :
    Fenced F .front .front (optional expression close) (optional expression' close) :=
  .atSymbol fun b => by
    cases b with
    | true => exact .pure
    | false => exact he.front.map

variable (hs : F.Beside .fresh s s') (hc : s.current.kind ≠ .symbol .semicolon)
include hs hc

omit he in
theorem fenced_loopControl (node : Stmt.Node) :
    F.Ends .past (loopControl node s) (loopControl node s') :=
  .advance hs hc ((fenced_expect_semicolon _).front.bind fun _ => .pure)

theorem fenced_varDecl : F.Ends .past (varDecl expression s) (varDecl expression' s') := by
  refine .advance hs hc ((fenced_identifier _).front.bind fun name =>
    (fenced_skipSymbol Symbol.noConfusion).bind fun b => ?_)
  have hbehind (init : Option Expr) : Fenced F .front .past
      (do
        expect .semicolon (.expectedAfter .semicolon .variableDeclaration)
        return (.varDecl name init : Stmt.Node))
      (do
        expect .semicolon (.expectedAfter .semicolon .variableDeclaration)
        return .varDecl name init) :=
    (fenced_expect_semicolon _).front.bind fun _ => .pure
  cases b with
  | true => exact he.front.map.bind hbehind
  | false => exact hbehind none

theorem fenced_printStmt : F.Ends .past (printStmt expression s) (printStmt expression' s') :=
  .advance hs hc (he.front.bind fun _ => (fenced_expect_semicolon _).front.bind fun _ => .pure)

theorem fenced_returnStmt : F.Ends .past (returnStmt expression s) (returnStmt expression' s') :=
  .advance hs hc ((fenced_optional he _).bind fun _ =>
    (fenced_expect_semicolon _).front.bind fun _ => .pure)

variable {statement statement' : Rule Stmt} (hst : Fenced F .fresh .past statement statement')
include hst

theorem fenced_ifStmt :
    F.Ends .past (ifStmt expression statement s) (ifStmt expression' statement' s') :=
  .advance hs hc ((fenced_expect Symbol.noConfusion _).front.bind fun _ => he.front.bind fun _ =>
    (fenced_expect Symbol.noConfusion _).front.bind fun _ => hst.front.bind fun _ =>
      .skipElse .pure)

theorem fenced_whileStmt :
    F.Ends .past (whileStmt expression statement s) (whileStmt expression' statement' s') :=
  .advance hs hc ((fenced_expect Symbol.noConfusion _).front.bind fun _ => he.front.bind fun _ =>
    (fenced_expect Symbol.noConfusion _).front.bind fun _ => hst.front.bind fun _ => .pure)

end

/-! ## Expressions -/

theorem fenced_assignment (target value : Expr) (operator : Span) :
    Fenced F .front .front (assignment target value operator) (assignment target value operator) := by
  unfold assignment
  split
  · exact .pure
  · exact .pure
  · exact .pure
  · exact .fail Side.noConfusion

section

variable {expression expression' : Level → Rule Expr} {n n' : Nat}
  (he : ∀ outer, Fenced F .fresh .front (expression outer) (expression' outer)) (hn : n ≤ n')
include he hn

theorem fenced_continuation (hs : F.Beside .fresh s s') (left : Expr) {op : Operator}
    (hop : Operator.ofToken? s.current.kind = some op) :
    F.Ends .front (continuation expression left op n s)
      (continuation expression' left op n' s') := by
  have hc : s.current.kind ≠ .symbol .semicolon := by
    intro hc
    rw [hc] at hop
    cases hop
  refine .current hs ?_
  cases op with
  | binary op => exact .advance hs hc ((he _).front.bind fun _ => .pure)
  | logical op => exact .advance hs hc ((he _).front.bind fun _ => .pure)
  | assign => exact .advance hs hc ((he _).front.bind fun _ => fenced_assignment _ _ _)
  | ternary =>
    exact .advance hs hc ((he _).front.bind fun _ => (fenced_expect Symbol.noConfusion _).front.bind
      fun _ => (he _).front.bind fun _ => .pure)
  | call =>
    have harguments : F.Ends .front (arguments (expression .lowest) n s)
        (arguments (expression' .lowest) n' s') :=
      .advance hs hc ((fenced_commaSeparated hn Symbol.noConfusion (he _)).bind fun _ =>
        (fenced_reportSurplus _ _ _).bind fun _ => .pure)
    exact harguments.bind fun _ => .pure
  | index =>
    exact .advance hs hc ((he _).front.bind fun _ => (fenced_expect Symbol.noConfusion _).front.bind
      fun _ => .pure)
  | property => exact .advance hs hc ((fenced_identifier _).front.bind fun _ => .pure)

variable {body body' : Rule (List Stmt)}

theorem fenced_primaryNode (first : Token) :
    Fenced F .front .front (primaryNode (expression .lowest) body n first)
      (primaryNode (expression' .lowest) body' n' first) := by
  obtain ⟨kind, span⟩ := first
  cases kind with
  | number x => exact .pure
  | string text => exact .pure
  | identifier name => exact .pure
  | keyword word =>
    cases word with
    | true | false | nil | this => exact .pure
    | super =>
      exact (fenced_expect Symbol.noConfusion _).front.bind fun _ =>
        (fenced_identifier _).front.bind fun _ => .pure
    | «fun» => exact fenced_lambda hn span
    | _ => exact .fail Side.noConfusion
  | symbol sym =>
    cases sym with
    | leftParen =>
      exact (he _).front.bind fun _ => (fenced_expect Symbol.noConfusion _).front.bind fun _ =>
        .pure
    | leftBracket => exact (fenced_commaSeparated hn Symbol.noConfusion (he _)).map
    | _ => exact .fail Side.noConfusion
  | _ => exact .fail Side.noConfusion

theorem fenced_primary :
    Fenced F .fresh .front (primary (expression .lowest) body n)
      (primary (expression' .lowest) body' n') := by
  rw [primary_eq, primary_eq]
  refine .next (fun t ht => ?_) fun t _ =>
    (fenced_primaryNode he hn t).bind fun _ => fenced_expr _ _
  simp only [primaryNode, ht]
  exact ⟨_, fun _ => ⟨rfl, rfl⟩⟩

end

/-! ## All rules -/

/-- In front of the fence all rules read alike, the second with as much fuel or more. -/
structure FencedRules (F : Fence) (n n' : Nat) : Prop where
  expression : ∀ outer,
    Fenced F .fresh .front (Parser.expression n outer) (Parser.expression n' outer)
  operators : ∀ outer left,
    Fenced F .front .front (Parser.operators n outer left) (Parser.operators n' outer left)
  declaration : Fenced F .fresh .past (Parser.declaration n) (Parser.declaration n')
  statement : Fenced F .fresh .past (Parser.statement n) (Parser.statement n')

section

variable {n n' : Nat} (ih : FencedRules F n n') (hn : n ≤ n')
include ih

theorem fenced_statement : Fenced F .fresh .past (statement (n + 1)) (statement (n' + 1)) := by
  intro s s' hs
  have he := ih.expression .lowest
  have hexpr : F.Ends .past (stmt (expressionStmt (expression n .lowest)) s)
      (stmt (expressionStmt (expression n' .lowest)) s') :=
    .stmt hs (fenced_expressionStmt he s s' hs)
  refine .current hs ?_
  rcases hs.step with ⟨hk, -⟩ | ⟨hplain, -⟩
  · rw [hk]
    exact hexpr
  have hc := hplain.semicolon
  cases hk : s.current.kind with
  | keyword word =>
    cases word with
    | print => exact .stmt hs (fenced_printStmt he hs hc)
    | «if» => exact .stmt hs (fenced_ifStmt he hs hc ih.statement)
    | «while» => exact .stmt hs (fenced_whileStmt he hs hc ih.statement)
    | «for» => exact absurd hk hplain.for
    | «return» => exact .stmt hs (fenced_returnStmt he hs hc)
    | «break» => exact .stmt hs (fenced_loopControl hs hc _)
    | «continue» => exact .stmt hs (fenced_loopControl hs hc _)
    | _ => exact hexpr
  | symbol sym =>
    cases sym with
    | leftBrace => exact absurd hk hplain.brace
    | _ => exact hexpr
  | _ => exact hexpr

include hn

theorem fenced_operators (outer : Level) (left : Expr) :
    Fenced F .front .front (operators (n + 1) outer left) (operators (n' + 1) outer left) := by
  intro s s' hs
  refine .current hs.toFresh ?_
  cases hop : Operator.ofToken? s.current.kind with
  | none => exact Fenced.pure s s' hs
  | some op =>
    dsimp only
    split
    · exact (fenced_continuation ih.expression hn hs.toFresh left hop).bind fun _ =>
        (fenced_expr _ _).bind fun _ => ih.operators outer _
    · exact Fenced.pure s s' hs

theorem fenced_expression (outer : Level) :
    Fenced F .fresh .front (expression (n + 1) outer) (expression (n' + 1) outer) := by
  intro s s' hs
  refine .current hs ?_
  cases hop : unaryOp? s.current.kind with
  | some op =>
    have hc : s.current.kind ≠ .symbol .semicolon := by
      intro hc
      rw [hc] at hop
      cases hop
    exact .advance hs hc ((ih.expression _).front.bind fun _ => (fenced_expr _ _).bind fun _ =>
      ih.operators outer _)
  | none =>
    exact ((fenced_primary ih.expression hn) s s' hs).bind fun _ => ih.operators outer _

theorem fenced_declaration :
    Fenced F .fresh .past (declaration (n + 1)) (declaration (n' + 1)) := by
  intro s s' hs
  have hst := ih.statement s s' hs
  refine .current hs ?_
  cases hk : s.current.kind with
  | keyword word =>
    have hc : s.current.kind ≠ .symbol .semicolon := by
      rw [hk]
      exact Token.Kind.noConfusion
    cases word with
    | var => exact .stmt hs (fenced_varDecl (ih.expression .lowest) hs hc)
    | «fun» => exact .stmt hs (fenced_funDecl hn hs hc)
    | klass => exact .stmt hs (fenced_classDecl hn hs hc)
    | trait => exact .stmt hs (fenced_traitDecl hs hc)
    | _ => exact hst
  | _ => exact hst

end

theorem fencedRules (F : Fence) {n n' : Nat} (hn : n ≤ n') : FencedRules F n n' := by
  induction n generalizing n' with
  | zero =>
    exact { expression := fun _ => .outOfFuel
            operators := fun _ _ => .outOfFuel
            declaration := .outOfFuel
            statement := .outOfFuel }
  | succ n ih =>
    obtain ⟨n', rfl⟩ := Nat.exists_eq_add_one.2 (Nat.zero_lt_of_lt hn)
    have hn := Nat.le_of_succ_le_succ hn
    exact { expression := fenced_expression (ih hn) hn
            operators := fenced_operators (ih hn) hn
            declaration := fenced_declaration (ih hn) hn
            statement := fenced_statement (ih hn) }

end Parser

end Lox

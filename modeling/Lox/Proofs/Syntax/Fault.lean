import Mathlib.Data.List.Infix
import Lox.Proofs.Syntax.Passes
import Lox.Proofs.Syntax.Sound
import Lox.Proofs.Token.Stretch

/-!
# Errors and the tokens that they are at

Every error that the parser reports is at a token of the text: the one that it could not read on
from, or one that is no word.  Only that of a call with too many arguments is at a whole argument,
which lies on tokens from its first to its last.

    Faults tokens rule s Q     from `s` on the rule reads on in `tokens`, all the errors that it
                               reports or ends in are at them, and `Q` says what it returns and where
    Closes tokens rule         it ends behind a token that it has read
-/

namespace Lox

/-- Whether the token is a word of the language, or the end of the text. -/
def Token.isValid (t : Token) : Bool :=
  match t.kind with
  | .invalid _ => false
  | _ => true

theorem Token.isValid_iff {t : Token} : t.isValid = true ↔ ∀ e, t.kind ≠ .invalid e := by
  unfold Token.isValid
  split
  · next e he => exact iff_of_false Bool.false_ne_true fun h => h e he
  · next h => exact iff_of_true rfl h

theorem Token.isValid_of_endOfFile {t : Token} (h : t.kind = .endOfFile) : t.isValid = true := by
  rw [Token.isValid_iff, h]
  exact fun _ => Token.Kind.noConfusion

/-- Words in line stay in line when the others are left out. -/
theorem InLine.filter {tokens : List Token} (h : InLine tokens) :
    InLine (tokens.filter Token.isValid) := by
  refine ⟨fun t ht => h.solid t (List.mem_filter.1 ht).1, h.apart.sublist List.filter_sublist, ?_⟩
  obtain ⟨ts, t, rfl, hend, hne⟩ := h.ended
  refine ⟨ts.filter Token.isValid, t, ?_, hend, fun a ha => hne a (List.mem_filter.1 ha).1⟩
  rw [List.filter_append, List.filter_cons_of_pos (Token.isValid_of_endOfFile hend), List.filter_nil]

theorem InLine.suffix {tokens rest : List Token} (h : InLine tokens) (hs : rest <:+ tokens)
    (hne : rest ≠ []) : InLine rest := by
  obtain ⟨front, rfl⟩ := hs
  exact h.right hne

namespace Parser

theorem Row.of_inLine {tokens : List Token} (h : InLine tokens) : Row tokens := by
  obtain ⟨ts, t, rfl, hend, hne⟩ := h.ended
  obtain ⟨hts, hlast, hcross⟩ := List.pairwise_append.1 h.apart
  have hlt {a b : Token} (ha : a ∈ ts) (hab : a.span.stop.byte ≤ b.span.start.byte) :
      a.span.start.byte < b.span.start.byte :=
    Nat.lt_of_lt_of_le (h.solid a (List.mem_append_left _ ha) (hne a ha)) hab
  refine ⟨List.pairwise_append.2 ⟨hts.imp_of_mem fun ha _ => hlt ha, List.pairwise_singleton _ _,
    fun a ha b hb => hlt ha (hcross a ha b hb)⟩, ?_⟩
  rw [List.getLast?_concat]
  rintro _ ⟨⟩
  exact hend

/-! ## Valid tokens -/

/-- The valid ones of the tokens that come, and the current one. -/
def State.valid (s : State) : List Token := s.tokens.filter Token.isValid

theorem State.valid_suffix {s t : State} (h : t.tokens <:+ s.tokens) : t.valid <:+ s.valid :=
  h.filter _

theorem State.valid_eq {s : State} (h : s.current.isValid = true) :
    s.valid = s.current :: s.upcoming.filter Token.isValid := List.filter_cons_of_pos h

/-- A shift leaves out nothing but invalid tokens. -/
theorem State.valid_shift (s : State) {ts : List Token} (h : InLine ts) :
    (s.shift ts).valid = ts.filter Token.isValid ∧ (s.shift ts).current.isValid = true := by
  induction ts generalizing s with
  | nil =>
    obtain ⟨ts, t, hnil, -⟩ := h.ended
    exact absurd hnil.symm (List.append_ne_nil_of_right_ne_nil _ (List.cons_ne_nil _ _))
  | cons t ts ih =>
    rw [shift]
    split
    · next e he =>
      have hinvalid : t.isValid = false := by rw [Token.isValid, he]
      have hne : ts ≠ [] := by
        rintro rfl
        obtain ⟨front, t', hfront, hend, -⟩ := h.ended
        have hlast : t' = t := by
          have := congrArg List.getLast? hfront
          rw [List.getLast?_concat] at this
          exact (Option.some.inj this).symm
        rw [hlast, he] at hend
        cases hend
      rw [List.filter_cons_of_neg (by rw [hinvalid]; exact Bool.false_ne_true)]
      exact ih _ (h.suffix (List.suffix_cons ..) hne)
    · next hk =>
      have hvalid : t.isValid = true := Token.isValid_iff.2 hk
      exact ⟨rfl, hvalid⟩

theorem State.errors_mem_shift (s : State) (ts : List Token) {e : ParseError}
    (he : e ∈ (s.shift ts).errors) : e ∈ s.errors ∨
      ∃ t ∈ ts, ∃ error, t.kind = .invalid error ∧ e = ⟨t.span, .illegalToken error⟩ := by
  induction ts generalizing s with
  | nil => exact .inl he
  | cons t ts ih =>
    rw [shift] at he
    split at he
    · next error hk =>
      rcases ih _ he with he | ⟨t', ht', h⟩
      · rcases List.mem_append.1 he with he | he
        · exact .inl he
        · exact .inr ⟨t, List.mem_cons_self, error, hk, List.mem_singleton.1 he⟩
      · exact .inr ⟨t', List.mem_cons_of_mem _ ht', h⟩
    · exact .inl he

/-! ## Errors at their places -/

/-- What was read from `s` on lies on the valid tokens up to `t`, and the span is theirs. -/
def Since (s t : State) (span : Span) : Prop :=
  ∃ us, s.valid = us ++ t.valid ∧ us.getLast? = some t.previous ∧ Spans us span

/-- Where the expression was read, its span begins and ends. -/
def IsRead (tokens : List Token) (n : Nat) (e : Expr) : Prop :=
  ∃ s t, s.tokens <:+ tokens ∧ t.current.isValid = true ∧ expression n .lowest s = .ok e t ∧
    Since s t e.span

/-- The span is that of an argument of a call behind the most that it can have. -/
inductive Surplus (tokens : List Token) : Span → Prop
  | mk {n k : Nat} {s t : State} {args : List Expr} {e : Expr} : s.tokens <:+ tokens →
      arguments (expression n .lowest) k s = .ok args t → e ∈ args.drop maxArgs →
      IsRead tokens n e → Surplus tokens e.span

end Parser

/-- Whether errors of the kind are at words, or at the end of the text. -/
def ParseErrorKind.isAtWord : ParseErrorKind → Bool
  | .illegalToken _ | .tooManyArguments => false
  | _ => true

namespace Parser

/-- The error is at one of the tokens, or at one argument too many. -/
inductive Located (tokens : List Token) : ParseError → Prop
  | illegal {t : Token} {e : LexError} : t ∈ tokens → t.kind = .invalid e →
      Located tokens ⟨t.span, .illegalToken e⟩
  | word {t : Token} {kind : ParseErrorKind} : t ∈ tokens → t.isValid = true →
      kind.isAtWord = true → Located tokens ⟨t.span, kind⟩
  | argument {span : Span} : Surplus tokens span → Located tokens ⟨span, .tooManyArguments⟩

/-- In the midst of the tokens, with every error so far at its place. -/
structure Ready (tokens : List Token) (s : State) : Prop where
  line : InLine tokens
  suffix : s.tokens <:+ tokens
  valid : s.current.isValid = true
  located : ∀ e ∈ s.errors, Located tokens e

namespace Ready

variable {tokens : List Token} {s t : State}

theorem inLine (h : Ready tokens s) : InLine s.tokens := h.line.suffix h.suffix (List.cons_ne_nil _ _)

theorem mem (h : Ready tokens s) {t : Token} (ht : t ∈ s.tokens) : t ∈ tokens := h.suffix.subset ht

theorem atCurrent (h : Ready tokens s) {kind : ParseErrorKind} (hk : kind.isAtWord = true) :
    Located tokens ⟨s.current.span, kind⟩ :=
  .word (h.mem List.mem_cons_self) h.valid hk

theorem report (h : Ready tokens s) {e : ParseError} (he : Located tokens e) :
    Ready tokens (s.report e) where
  line := h.line
  suffix := h.suffix
  valid := h.valid
  located := List.forall_mem_append.2 ⟨h.located, List.forall_mem_singleton.2 he⟩

theorem advance (h : Ready tokens s) : Ready tokens s.advance := by
  have hsuffix := (State.tokens_advance (Row.of_inLine h.inLine)).trans h.suffix
  refine ⟨h.line, hsuffix, ?_, fun e he => ?_⟩
  · by_cases hu : s.upcoming = []
    · rw [State.advance, hu]
      exact h.valid
    · exact (s.valid_shift (h.inLine.suffix (List.suffix_cons ..) hu)).2
  · rcases s.errors_mem_shift _ he with he | ⟨t, ht, error, hk, rfl⟩
    · exact h.located e he
    · exact .illegal (h.mem (List.mem_cons_of_mem _ ht)) hk

theorem skipStatement (h : Ready tokens s) (n : Nat) : Ready tokens (s.skipStatement n) := by
  induction n generalizing s with
  | zero => exact h
  | succ n ih =>
    rw [State.skipStatement]
    split
    · exact h
    · split
      · exact h.advance
      · exact ih h.advance

theorem synchronize (h : Ready tokens s) : Ready tokens s.synchronize := by
  rw [State.synchronize]
  split
  · exact h
  · exact h.skipStatement _

/-- Moving on passes the current token unless it is the end of the text. -/
theorem valid_advance (h : Ready tokens s) (hc : s.current.kind ≠ .endOfFile) :
    s.valid = [s.current] ++ s.advance.valid := by
  have hu : s.upcoming ≠ [] := by
    intro hu
    obtain ⟨ts, t, hts, hend, -⟩ := h.inLine.ended
    rw [State.tokens, hu] at hts
    obtain ⟨rfl, ht⟩ := List.append_inj' (List.nil_append [s.current] |>.trans hts) rfl
    cases ht
    exact hc hend
  rw [State.valid_eq h.valid, State.advance,
    (s.valid_shift (h.inLine.suffix (List.suffix_cons ..) hu)).1]
  rfl

end Ready

/-! ## Rules -/

variable {tokens : List Token}

/-- From a state in the midst of the tokens the rule reads on, its errors are at their places, and
`Q` says what it returns and where. -/
def Faults {α : Type} (tokens : List Token) (rule : Rule α) (s : State) (Q : α → State → Prop) :
    Prop :=
  Ready tokens s →
    (∀ a t, rule s = .ok a t → Ready tokens t ∧ t.tokens <:+ s.tokens ∧ Q a t) ∧
    ∀ stop t, rule s = .error stop t →
      Ready tokens t ∧ t.tokens <:+ s.tokens ∧ ∀ e, stop = .error e → Located tokens e

/-- The rule leaves all errors at their places. -/
abbrev Keeps {α : Type} (tokens : List Token) (rule : Rule α) : Prop :=
  ∀ s, Faults tokens rule s fun _ _ => True

/-- What has been read from `s` on ends at the token behind `t`. -/
def Ends (s t : State) : Prop := ∃ us, s.valid = us ++ t.valid ∧ us.getLast? = some t.previous

/-- Moreover the rule ends behind a token that it has read. -/
abbrev Closes {α : Type} (tokens : List Token) (rule : Rule α) : Prop :=
  ∀ s, Faults tokens rule s fun _ t => Ends s t

theorem Since.ends {s t : State} {span : Span} (h : Since s t span) : Ends s t :=
  h.imp fun _ ⟨hus, hlast, _⟩ => ⟨hus, hlast⟩

theorem Ends.of_suffix {s t u : State} (h : Ends t u) (hs : t.tokens <:+ s.tokens) : Ends s u := by
  obtain ⟨us, hus, hlast⟩ := h
  obtain ⟨front, hfront⟩ := State.valid_suffix hs
  refine ⟨front ++ us, by rw [← hfront, hus, List.append_assoc], ?_⟩
  rw [List.getLast?_append, hlast]
  rfl

namespace Faults

variable {α β : Type} {s : State}

theorem bind {x : Rule α} {f : α → Rule β} {P : α → State → Prop} {Q : β → State → Prop}
    (hx : Faults tokens x s P)
    (hf : ∀ a t, t.tokens <:+ s.tokens → P a t → Faults tokens (f a) t Q) :
    Faults tokens (x >>= f) s Q := by
  intro hs
  obtain ⟨hok, herror⟩ := hx hs
  constructor
  · intro b u hu
    obtain ⟨a, t, hxt, hft⟩ := EStateM.bind_eq_ok.1 hu
    obtain ⟨ht, hts, hp⟩ := hok a t hxt
    obtain ⟨hu, hut, hq⟩ := (hf a t hts hp ht).1 b u hft
    exact ⟨hu, hut.trans hts, hq⟩
  · intro e u hu
    rcases EStateM.bind_eq_error.1 hu with hxe | ⟨a, t, hxt, hft⟩
    · exact herror e u hxe
    · obtain ⟨ht, hts, hp⟩ := hok a t hxt
      obtain ⟨hu, hut, he⟩ := (hf a t hts hp ht).2 e u hft
      exact ⟨hu, hut.trans hts, he⟩

theorem mono {rule : Rule α} {P Q : α → State → Prop} (h : Faults tokens rule s P)
    (hpq : ∀ a t, P a t → Q a t) : Faults tokens rule s Q := fun hs =>
  ⟨fun a t ht => have ⟨hr, hts, hp⟩ := (h hs).1 a t ht; ⟨hr, hts, hpq a t hp⟩, (h hs).2⟩

theorem keeps {rule : Rule α} {P : α → State → Prop} (h : Faults tokens rule s P) :
    Faults tokens rule s fun _ _ => True := h.mono fun _ _ _ => trivial

theorem map {x : Rule α} {g : α → β} {Q : β → State → Prop}
    (h : Faults tokens x s fun a => Q (g a)) : Faults tokens (g <$> x) s Q := by
  rw [map_eq_pure_bind]
  refine h.bind fun a t hts hq hs => ⟨?_, ?_⟩
  · rintro _ _ ⟨⟩
    exact ⟨hs, List.suffix_rfl, hq⟩
  · rintro _ _ ⟨⟩

/-- With the run that the rule has made. -/
theorem traced {rule : Rule α} {Q : α → State → Prop} (h : Faults tokens rule s Q) :
    Faults tokens rule s fun a t => Q a t ∧ rule s = .ok a t ∧ Ready tokens s ∧ Ready tokens t :=
  fun hs => ⟨fun a t ht => have ⟨hr, hts, hq⟩ := (h hs).1 a t ht; ⟨hr, hts, hq, ht, hs, hr⟩,
    (h hs).2⟩

theorem pure {a : α} {Q : α → State → Prop} (h : Q a s) : Faults tokens (Pure.pure a) s Q := by
  refine fun hs => ⟨?_, ?_⟩
  · rintro _ _ ⟨⟩
    exact ⟨hs, List.suffix_rfl, h⟩
  · rintro _ _ ⟨⟩

theorem outOfFuel {Q : α → State → Prop} : Faults tokens Parser.outOfFuel s Q := by
  refine fun hs => ⟨?_, ?_⟩
  · rintro _ _ ⟨⟩
  · rintro _ _ ⟨⟩
    exact ⟨hs, List.suffix_rfl, nofun⟩

/-- An error at a place where one can be. -/
theorem fail {span : Span} {kind : ParseErrorKind} {Q : α → State → Prop}
    (h : Ready tokens s → Located tokens ⟨span, kind⟩) :
    Faults tokens (Parser.fail span kind) s Q := by
  refine fun hs => ⟨?_, ?_⟩
  · rintro _ _ ⟨⟩
  · rintro _ _ ⟨⟩
    refine ⟨hs, List.suffix_rfl, ?_⟩
    rintro _ ⟨⟩
    exact h hs

theorem current {f : Token → Rule α} {Q : α → State → Prop} (h : Faults tokens (f s.current) s Q) :
    Faults tokens (currentToken >>= f) s Q := h

theorem previous {f : Token → Rule α} {Q : α → State → Prop}
    (h : Faults tokens (f s.previous) s Q) : Faults tokens (previousToken >>= f) s Q := h

/-- What is behind a part ends behind it. -/
theorem ends {x : Rule α} {f : α → Rule β} {P : α → State → Prop} (hx : Faults tokens x s P)
    (hf : ∀ a t, P a t → Faults tokens (f a) t fun _ u => Ends t u) :
    Faults tokens (x >>= f) s fun _ u => Ends s u :=
  hx.bind fun a t hts hp => (hf a t hp).mono fun _ _ he => he.of_suffix hts

end Faults

namespace Keeps

variable {α β : Type}

theorem bind {x : Rule α} {f : α → Rule β} (hx : Keeps tokens x) (hf : ∀ a, Keeps tokens (f a)) :
    Keeps tokens (x >>= f) := fun s => (hx s).bind fun a t _ _ => hf a t

theorem map {x : Rule α} {g : α → β} (hx : Keeps tokens x) : Keeps tokens (g <$> x) :=
  fun s => .map (hx s)

theorem pure {a : α} : Keeps tokens (Pure.pure a) := fun _ => .pure trivial

theorem outOfFuel : Keeps tokens (Parser.outOfFuel : Rule α) := fun _ => .outOfFuel

end Keeps

/-! ## Single tokens -/

variable {s : State}

theorem faults_advance (s : State) : Faults tokens advance s fun _ t =>
    t.previous = s.current ∧ (s.current.kind ≠ .endOfFile → Since s t s.current.span) := by
  refine fun hs => ⟨?_, ?_⟩
  · rintro _ _ ⟨⟩
    refine ⟨hs.advance, State.tokens_advance (Row.of_inLine hs.inLine), s.previous_advance,
      fun hc => ⟨[s.current], hs.valid_advance hc, ?_, spans_singleton _⟩⟩
    rw [s.previous_advance]
    rfl
  · rintro _ _ ⟨⟩

theorem keeps_advance : Keeps tokens advance := fun s => (faults_advance s).keeps

/-- A rule about the token that it moves past. -/
theorem Faults.behind {α : Type} {f : Token → Rule α} {Q : α → State → Prop}
    (h : Ready tokens s → ∀ t, (s.current.kind ≠ .endOfFile → Since s t s.current.span) →
      Faults tokens (f s.current) t Q) :
    Faults tokens (do advance; f (← previousToken)) s Q := by
  intro hs
  refine ((faults_advance s).bind fun _ t _ ⟨hp, hends⟩ => .previous ?_) hs
  rw [hp]
  exact h hs t hends

theorem closes_expect {sym : Symbol} {otherwise : ParseErrorKind}
    (hk : otherwise.isAtWord = true) : Closes tokens (expect sym otherwise) := by
  refine fun s => .behind fun hs t hends => ?_
  cases hsym : s.current.kind.isSymbol sym with
  | false => exact .fail fun _ => hs.atCurrent hk
  | true =>
    refine .pure (Since.ends (hends ?_))
    rw [isSymbol_iff.1 hsym]
    exact Token.Kind.noConfusion

/-- A name is one of the tokens. -/
theorem faults_identifier {otherwise : ParseErrorKind} (hk : otherwise.isAtWord = true)
    (s : State) : Faults tokens (identifier otherwise) s fun x t =>
      Ends s t ∧ ∃ token ∈ tokens, token.isValid = true ∧ token.span = x.span := by
  refine .behind fun hs t hends => ?_
  cases hname : s.current.kind with
  | identifier name =>
    refine .pure ⟨(hends ?_).ends, s.current, hs.mem List.mem_cons_self, hs.valid, rfl⟩
    rw [hname]
    exact Token.Kind.noConfusion
  | _ => exact .fail fun _ => hs.atCurrent hk

theorem keeps_expect {sym : Symbol} {otherwise : ParseErrorKind}
    (hk : otherwise.isAtWord = true) : Keeps tokens (expect sym otherwise) :=
  fun s => (closes_expect hk s).keeps

theorem keeps_identifier {otherwise : ParseErrorKind} (hk : otherwise.isAtWord = true) :
    Keeps tokens (identifier otherwise) := fun s => (faults_identifier hk s).keeps

/-- A rule that looks at the state, or changes what is neither a token nor an error in it. -/
theorem keeps_silent {α : Type} {x : State → α} {g : State → State}
    (hg : ∀ s, (g s).tokens = s.tokens) (he : ∀ s, (g s).errors = s.errors) :
    Keeps tokens (fun s => .ok (x s) (g s) : Rule α) := by
  refine fun s hs => ⟨?_, ?_⟩
  · rintro _ _ ⟨⟩
    refine ⟨⟨hs.line, (hg s).symm ▸ hs.suffix, ?_, (he s).symm ▸ hs.located⟩,
      (hg s) ▸ List.suffix_rfl, trivial⟩
    have hcurrent : (g s).current = s.current := (List.cons.inj (hg s)).1
    rw [hcurrent]
    exact hs.valid
  · rintro _ _ ⟨⟩

theorem keeps_currentToken : Keeps tokens currentToken := keeps_silent (fun _ => rfl) fun _ => rfl

theorem keeps_atSymbol (sym : Symbol) : Keeps tokens (atSymbol sym) :=
  keeps_currentToken.bind fun _ => .pure

theorem keeps_atEnd : Keeps tokens atEnd := keeps_currentToken.bind fun _ => .pure

theorem keeps_freshId : Keeps tokens freshId := keeps_silent (fun _ => rfl) fun _ => rfl

theorem faults_spanFrom (first : Span) (s : State) :
    Faults tokens (spanFrom first) s fun _ t => t = s := .previous (.pure rfl)

theorem keeps_spanFrom (first : Span) : Keeps tokens (spanFrom first) :=
  fun s => (faults_spanFrom first s).keeps

theorem faults_skipSymbol (sym : Symbol) (s : State) :
    Faults tokens (skipSymbol sym) s fun b t => b = true → Ends s t := by
  unfold skipSymbol atSymbol
  rw [bind_assoc]
  refine .current ?_
  rw [pure_bind]
  cases hk : s.current.kind.isSymbol sym with
  | false => exact .pure nofun
  | true =>
    refine (faults_advance s).bind fun _ t _ ⟨_, hends⟩ => .pure fun _ => (hends ?_).ends
    rw [isSymbol_iff.1 hk]
    exact Token.Kind.noConfusion

theorem keeps_skipSymbol (sym : Symbol) : Keeps tokens (skipSymbol sym) :=
  fun s => (faults_skipSymbol sym s).keeps

theorem keeps_skipKeyword (word : Keyword) : Keeps tokens (skipKeyword word) :=
  keeps_currentToken.bind fun t => by
    split
    · exact keeps_advance.bind fun _ => .pure
    · exact .pure

theorem keeps_stmt {node : Rule Stmt.Node} (h : Keeps tokens node) : Keeps tokens (stmt node) :=
  keeps_currentToken.bind fun _ => h.bind fun _ => (keeps_spanFrom _).bind fun _ => .pure

theorem keeps_recover {α : Type} {rule : Rule α} (h : Keeps tokens rule) :
    Keeps tokens (recover rule) := by
  intro s hs
  obtain ⟨hok, herror⟩ := h s hs
  refine ⟨fun o t ht => ?_, fun stop t ht => ?_⟩
  · unfold recover at ht
    split at ht
    · next a u hu =>
      cases ht
      exact hok a t hu
    · next e u hu =>
      cases ht
      obtain ⟨hready, hsuffix, hlocated⟩ := herror _ u hu
      have hreport := hready.report (hlocated e rfl)
      exact ⟨hreport.synchronize,
        (State.tokens_synchronize (Row.of_inLine hreport.inLine)).trans hsuffix, trivial⟩
    · cases ht
  · unfold recover at ht
    split at ht
    · cases ht
    · cases ht
    · next u hu =>
      cases ht
      obtain ⟨hready, hsuffix, -⟩ := herror _ t hu
      exact ⟨hready, hsuffix, nofun⟩

/-! ## Lists -/

section

variable {α : Type} {item : Rule α} {P : α → Prop}
  (hi : ∀ s, Faults tokens item s fun a _ => P a)
include hi

theorem faults_commaSeparatedTail (close : Symbol) (n : Nat) (s : State) :
    Faults tokens (commaSeparatedTail close item n) s fun as t => (∀ a ∈ as, P a) ∧ Ends s t := by
  induction n generalizing s with
  | zero => exact .outOfFuel
  | succ n ih =>
    refine (faults_skipSymbol close s).bind fun b t ht hends => ?_
    cases b with
    | true => exact .pure ⟨List.forall_mem_nil _, hends rfl⟩
    | false =>
      exact (keeps_expect rfl t).bind fun _ t₁ h₁ _ => (hi t₁).bind fun a t₂ h₂ ha =>
        (ih t₂).bind fun as t₃ _ ⟨has, hends⟩ => .pure ⟨List.forall_mem_cons.2 ⟨ha, has⟩,
          hends.of_suffix (h₂.trans (h₁.trans ht))⟩

theorem faults_commaSeparated (close : Symbol) (n : Nat) (s : State) :
    Faults tokens (commaSeparated close item n) s fun as t => (∀ a ∈ as, P a) ∧ Ends s t := by
  refine (faults_skipSymbol close s).bind fun b t ht hends => ?_
  cases b with
  | true => exact .pure ⟨List.forall_mem_nil _, hends rfl⟩
  | false =>
    exact (hi t).bind fun a t₁ h₁ ha => (faults_commaSeparatedTail hi close n t₁).bind
      fun as t₂ _ ⟨has, hends⟩ => .pure ⟨List.forall_mem_cons.2 ⟨ha, has⟩,
        hends.of_suffix (h₁.trans ht)⟩

end

theorem faults_reportSurplus {α : Type} {span : α → Span} {kind : ParseErrorKind} {items : List α}
    (h : ∀ a ∈ items.drop maxArgs, Located tokens ⟨span a, kind⟩) :
    Faults tokens (reportSurplus span kind items) s fun _ t =>
      t.tokens = s.tokens ∧ t.previous = s.previous := by
  have hrun : reportSurplus span kind items s =
      .ok () { s with errors := s.errors ++ (items.drop maxArgs).map fun x => ⟨span x, kind⟩ } :=
    forM_report _ _ s
  refine fun hs => ⟨fun a t ht => ?_, fun stop t ht => ?_⟩
  · cases hrun.symm.trans ht
    refine ⟨⟨hs.line, hs.suffix, hs.valid, List.forall_mem_append.2 ⟨hs.located, ?_⟩⟩,
      List.suffix_rfl, rfl, rfl⟩
    rintro _ he
    obtain ⟨a, ha, rfl⟩ := List.mem_map.1 he
    exact h a ha
  · cases hrun.symm.trans ht

theorem Ends.congr {t u : State} (h : Ends s t) (ht : u.tokens = t.tokens)
    (hp : u.previous = t.previous) : Ends s u := by
  unfold Ends State.valid at *
  rwa [ht, hp]

theorem closes_parameters (n : Nat) : Closes tokens (parameters n) := by
  refine fun s => (keeps_expect rfl s).ends fun _ t _ =>
    (faults_commaSeparated (fun s => (faults_identifier rfl s).mono fun _ _ h => h.2) _ n t).bind
      fun params t₁ _ ⟨hparams, hends⟩ => (faults_reportSurplus fun x hx => ?_).bind
        fun _ t₂ _ ⟨ht, hp⟩ => .pure (hends.congr ht hp)
  obtain ⟨token, hmem, hvalid, hspan⟩ := hparams x (List.mem_of_mem_drop hx)
  rw [← hspan]
  exact .word hmem hvalid rfl

theorem keeps_parameters (n : Nat) : Keeps tokens (parameters n) :=
  fun s => (closes_parameters n s).keeps

theorem exists_arguments_eq_ok {expression : Rule Expr} {n : Nat} {s t : State} {args : List Expr}
    (h : commaSeparated .rightParen expression n s.advance = .ok args t) :
    ∃ u, arguments expression n s = .ok args u := by
  have hadvance : advance s = .ok () s.advance := rfl
  have hreport := forM_report (fun e : Expr => ⟨e.span, .tooManyArguments⟩) (args.drop maxArgs) t
  exact ⟨_, (EStateM.bind_of_ok hadvance _).trans ((EStateM.bind_of_ok h _).trans
    (EStateM.bind_of_ok hreport _))⟩

section

variable {n : Nat} (he : ∀ s, Faults tokens (expression n .lowest) s fun e t => Since s t e.span)
include he

theorem faults_isRead (s : State) :
    Faults tokens (expression n .lowest) s fun e _ => IsRead tokens n e :=
  (he s).traced.mono fun _ t ⟨hspan, hrun, hs, ht⟩ => ⟨s, t, hs.suffix, ht.valid, hrun, hspan⟩

theorem closes_arguments (k : Nat) : Closes tokens (arguments (expression n .lowest) k) := by
  refine fun s => Faults.ends (faults_advance s).traced fun _ t ⟨_, hadvance, hs, _⟩ => ?_
  refine (faults_commaSeparated (faults_isRead he) _ k t).traced.bind
    fun args t₁ _ ⟨⟨hargs, hends⟩, hrun, _⟩ => (faults_reportSurplus fun e hmem => ?_).bind
      fun _ t₂ _ ⟨ht, hp⟩ => .pure (hends.congr ht hp)
  cases hadvance
  obtain ⟨u, hu⟩ := exists_arguments_eq_ok hrun
  exact .argument (.mk hs.suffix hu hmem (hargs e (List.mem_of_mem_drop hmem)))

end

section

variable {item : Rule (Option Stmt)} (hi : Keeps tokens item)
include hi

theorem closes_statements (n : Nat) : Closes tokens (statements item n) := by
  induction n with
  | zero => exact fun _ => .outOfFuel
  | succ n ih =>
    refine fun s => (keeps_atEnd s).ends fun b s _ => ?_
    cases b with
    | true => exact .current (.fail fun hs => hs.atCurrent rfl)
    | false =>
      refine (faults_skipSymbol _ s).bind fun b t ht hends => ?_
      cases b with
      | true => exact .pure (hends rfl)
      | false =>
        exact (hi t).bind fun o t₁ h₁ _ => (ih t₁).bind fun _ t₂ _ hends =>
          .pure (hends.of_suffix (h₁.trans ht))

theorem keeps_program (n : Nat) : Keeps tokens (program item n) := by
  induction n with
  | zero => exact .outOfFuel
  | succ n ih =>
    refine keeps_atEnd.bind fun b => ?_
    cases b with
    | true => exact .pure
    | false => exact hi.bind fun _ => ih.bind fun _ => .pure

end

/-! ## Declarations -/

section

variable {body : Rule (List Stmt)} (hb : Keeps tokens body)
include hb

theorem keeps_namedFunction (isMember : Bool) (n : Nat) :
    Keeps tokens (namedFunction body isMember n) := by
  refine keeps_currentToken.bind fun first => (keeps_identifier rfl).bind fun name =>
    (keeps_atSymbol _).bind fun brace => ?_
  have hbehind (isGetter : Bool) (params : List Identifier) : Keeps tokens (do
      expect .leftBrace (.expectedBefore .leftBrace .functionBody)
      let body ← body
      return ⟨name, params, body, isGetter, ← spanFrom first.span⟩ : Rule Function) :=
    (keeps_expect rfl).bind fun _ => hb.bind fun _ => (keeps_spanFrom _).bind fun _ => .pure
  cases isMember && brace with
  | true => exact hbehind true []
  | false => exact (keeps_parameters n).bind fun params => hbehind false params

theorem keeps_members (n k : Nat) : Keeps tokens (members (namedFunction body true k) n) := by
  induction n with
  | zero => exact .outOfFuel
  | succ n ih =>
    have hf := keeps_namedFunction hb true k
    refine (keeps_skipSymbol _).bind fun b => ?_
    cases b with
    | true => exact .pure
    | false =>
      refine keeps_atEnd.bind fun b => ?_
      cases b with
      | true => exact fun _ => .current (.fail fun hs => hs.atCurrent rfl)
      | false =>
        refine (keeps_skipKeyword _).bind fun b => ?_
        cases b with
        | true => exact hf.bind fun _ => ih.bind fun _ => .pure
        | false => exact hf.bind fun _ => ih.bind fun _ => .pure

theorem keeps_funDecl (n : Nat) : Keeps tokens (funDecl body n) :=
  keeps_advance.bind fun _ => (keeps_namedFunction hb false n).bind fun _ => .pure

theorem keeps_traitDecl (n : Nat) : Keeps tokens (traitDecl body n) :=
  keeps_advance.bind fun _ => (keeps_identifier rfl).bind fun _ => (keeps_expect rfl).bind fun _ =>
    (keeps_members hb n n).bind fun _ => .pure

end

theorem keeps_reference {otherwise : ParseErrorKind} (hk : otherwise.isAtWord = true) :
    Keeps tokens (reference otherwise) :=
  (keeps_identifier hk).bind fun _ => keeps_freshId.bind fun _ => .pure

theorem keeps_traitNames (n : Nat) : Keeps tokens (traitNames n) := by
  induction n with
  | zero => exact .outOfFuel
  | succ n ih =>
    refine (keeps_reference rfl).bind fun _ => (keeps_skipSymbol _).bind fun b => ?_
    cases b with
    | true => exact ih.bind fun _ => .pure
    | false => exact .pure

theorem keeps_superclassClause : Keeps tokens superclassClause := by
  refine (keeps_skipSymbol _).bind fun b => ?_
  cases b with
  | true => exact (keeps_reference rfl).map
  | false => exact .pure

theorem keeps_traitsClause (n : Nat) : Keeps tokens (traitsClause n) := by
  refine (keeps_skipSymbol _).bind fun b => ?_
  cases b with
  | true => exact keeps_traitNames n
  | false => exact .pure

theorem keeps_classDecl {body : Rule (List Stmt)} (hb : Keeps tokens body) (n : Nat) :
    Keeps tokens (classDecl body n) := by
  rw [classDecl_eq]
  exact keeps_advance.bind fun _ => (keeps_identifier rfl).bind fun _ =>
    keeps_superclassClause.bind fun _ => (keeps_traitsClause n).bind fun _ =>
      (keeps_expect rfl).bind fun _ => (keeps_members hb n n).bind fun _ => .pure

/-! ## Statements -/

section

variable {expression : Rule Expr} (he : Keeps tokens expression)
include he

theorem keeps_varDecl : Keeps tokens (varDecl expression) := by
  refine keeps_advance.bind fun _ => (keeps_identifier rfl).bind fun name =>
    (keeps_skipSymbol _).bind fun b => ?_
  have hbehind (init : Option Expr) : Keeps tokens (do
      expect .semicolon (.expectedAfter .semicolon .variableDeclaration)
      return (.varDecl name init : Stmt.Node)) := (keeps_expect rfl).bind fun _ => .pure
  cases b with
  | true => exact he.map.bind hbehind
  | false => exact hbehind none

theorem keeps_expressionStmt : Keeps tokens (expressionStmt expression) :=
  he.bind fun _ => (keeps_expect rfl).bind fun _ => .pure

theorem keeps_printStmt : Keeps tokens (printStmt expression) :=
  keeps_advance.bind fun _ => he.bind fun _ => (keeps_expect rfl).bind fun _ => .pure

theorem keeps_optional (close : Symbol) : Keeps tokens (optional expression close) := by
  refine (keeps_atSymbol _).bind fun b => ?_
  cases b with
  | true => exact .pure
  | false => exact he.map

theorem keeps_returnStmt : Keeps tokens (returnStmt expression) :=
  keeps_advance.bind fun _ => (keeps_optional he _).bind fun _ => (keeps_expect rfl).bind fun _ =>
    .pure

theorem keeps_forInit : Keeps tokens (forInit expression) := by
  refine (keeps_skipSymbol _).bind fun b => ?_
  cases b with
  | true => exact .pure
  | false =>
    refine keeps_currentToken.bind fun token => ?_
    split
    · exact (keeps_stmt (keeps_varDecl he)).map
    · exact (keeps_stmt (keeps_expressionStmt he)).map

variable {statement : Rule Stmt} (hst : Keeps tokens statement)
include hst

theorem keeps_ifStmt : Keeps tokens (ifStmt expression statement) := by
  refine keeps_advance.bind fun _ => (keeps_expect rfl).bind fun _ => he.bind fun condition =>
    (keeps_expect rfl).bind fun _ => hst.bind fun yes => (keeps_skipKeyword _).bind fun b => ?_
  cases b with
  | true => exact hst.map.bind fun _ => .pure
  | false => exact .pure

theorem keeps_whileStmt : Keeps tokens (whileStmt expression statement) :=
  keeps_advance.bind fun _ => (keeps_expect rfl).bind fun _ => he.bind fun _ =>
    (keeps_expect rfl).bind fun _ => hst.bind fun _ => .pure

theorem keeps_forStmt : Keeps tokens (forStmt expression statement) :=
  keeps_advance.bind fun _ => (keeps_expect rfl).bind fun _ => (keeps_forInit he).bind fun _ =>
    (keeps_optional he _).bind fun _ => (keeps_expect rfl).bind fun _ =>
      (keeps_optional he _).bind fun _ => (keeps_expect rfl).bind fun _ => hst.bind fun _ => .pure

end

theorem keeps_loopControl (node : Stmt.Node) : Keeps tokens (loopControl node) :=
  keeps_advance.bind fun _ => (keeps_expect rfl).bind fun _ => .pure

/-! ## Expressions -/

theorem faults_assignment {target value : Expr} {operator : Span}
    (h : Located tokens ⟨operator, .invalidTarget⟩) :
    Faults tokens (assignment target value operator) s fun _ t => t = s := by
  unfold assignment
  split
  · exact .pure rfl
  · exact .pure rfl
  · exact .pure rfl
  · exact .fail fun _ => h

/-- What has been read from `s` on, if anything, ends at the token behind `t`. -/
def Goes (s t : State) : Prop :=
  ∃ us, s.valid = us ++ t.valid ∧ t.previous = us.getLast?.getD s.previous

theorem Goes.refl (s : State) : Goes s s := ⟨[], rfl, rfl⟩

theorem Ends.goes {t : State} (h : Ends s t) : Goes s t :=
  h.imp fun us ⟨hus, hlast⟩ => ⟨hus, by rw [hlast]; rfl⟩

/-- A span that goes on to where more has been read. -/
theorem Since.extend {t u : State} {span : Span} (hs : Ready tokens s) (hu : Ready tokens u)
    (h : Since s t span) (hgoes : Goes t u) : Since s u (span.extend u.previous.span) := by
  obtain ⟨us, hus, hlast, hspan⟩ := h
  obtain ⟨vs, hvs, hprevious⟩ := hgoes
  have htokens : s.valid = us ++ vs ++ u.valid := by rw [hus, hvs, List.append_assoc]
  have hends : (us ++ vs).getLast? = some u.previous := by
    rw [hprevious, List.getLast?_append, hlast]
    cases vs.getLast? with
    | none => rfl
    | some _ => rfl
  have hline : InLine (us ++ vs ++ u.valid) := htokens ▸ hs.inLine.filter
  have hne : u.valid ≠ [] := by
    rw [State.valid_eq hu.valid]
    exact List.cons_ne_nil _ _
  exact ⟨us ++ vs, htokens, hends, hspan.extend hline hne hends⟩

/-- An expression that is complete has the span from where it began. -/
theorem faults_expr (first : Span) (node : Expr.Node) (t : State) :
    Faults tokens (expr first node) t fun e u =>
      ∀ s, Since s t (first.extend t.previous.span) → Since s u e.span := by
  refine fun ht => ⟨?_, ?_⟩
  · rintro _ _ ⟨⟩
    exact ⟨⟨ht.line, ht.suffix, ht.valid, ht.located⟩, List.suffix_rfl, fun s h => h⟩
  · rintro _ _ ⟨⟩

/-- With so much fuel an expression is read from where its span begins to where it ends. -/
abbrev FaultsExpression (tokens : List Token) (n : Nat) : Prop :=
  ∀ outer s, Faults tokens (expression n outer) s fun e t => Since s t e.span

section

variable {n : Nat} (he : FaultsExpression tokens n)
include he

theorem closes_expression (outer : Level) : Closes tokens (expression n outer) :=
  fun s => (he outer s).mono fun _ _ h => h.ends

theorem keeps_expression (outer : Level) : Keeps tokens (expression n outer) :=
  fun s => (he outer s).keeps

theorem closes_continuation (left : Expr) (op : Operator) :
    Closes tokens (continuation (expression n) left op n) := by
  have hlast {α : Type} {outer : Level} (f : Expr → α) :
      Closes tokens (do return f (← expression n outer)) := fun s =>
    (closes_expression he outer s).bind fun _ _ _ hends => .pure hends
  intro s
  refine .current ?_
  cases op with
  | binary op => exact (keeps_advance s).ends fun _ t _ => hlast _ t
  | logical op => exact (keeps_advance s).ends fun _ t _ => hlast _ t
  | assign =>
    intro hs
    refine ((keeps_advance s).ends fun _ t _ => (closes_expression he _ t).bind
      fun value t₁ _ hends => (faults_assignment (hs.atCurrent rfl)).mono ?_) hs
    rintro _ _ rfl
    exact hends
  | ternary =>
    exact (keeps_advance s).ends fun _ t _ => (keeps_expression he _ t).ends fun yes t₁ _ =>
      (keeps_expect rfl t₁).ends fun _ t₂ _ => hlast _ t₂
  | call => exact (closes_arguments (he .lowest) n s).bind fun _ _ _ hends => .pure hends
  | index =>
    exact (keeps_advance s).ends fun _ t _ => (keeps_expression he _ t).ends fun position t₁ _ =>
      (closes_expect rfl t₁).bind fun _ _ _ hends => .pure hends
  | property =>
    exact (keeps_advance s).ends fun _ t _ => (faults_identifier rfl t).bind
      fun _ _ _ ⟨hends, _⟩ => .pure hends

variable {body : Rule (List Stmt)} (hb : Closes tokens body)
include hb

theorem faults_primaryNode {first : Token}
    (hf : Located tokens ⟨first.span, .expectedExpression first.kind⟩) (s : State) :
    Faults tokens (primaryNode (expression n .lowest) body n first) s fun _ t => Goes s t := by
  have hkeeps := keeps_expression he .lowest
  obtain ⟨kind, span⟩ := first
  cases kind with
  | number x => exact .pure (.refl s)
  | string text => exact .pure (.refl s)
  | identifier name => exact .pure (.refl s)
  | keyword word =>
    cases word with
    | true | false | nil | this => exact .pure (.refl s)
    | super =>
      refine Faults.mono ((keeps_expect rfl s).ends fun _ t _ => (faults_identifier rfl t).bind
        fun _ _ _ ⟨hends, _⟩ => .pure hends) fun _ _ h => h.goes
    | «fun» =>
      refine Faults.mono ((keeps_parameters n s).ends fun _ t _ => (keeps_expect rfl t).ends
        fun _ t₁ _ => (hb t₁).bind fun body t₂ _ hends => (faults_spanFrom _ t₂).bind ?_)
          fun _ _ h => h.goes
      rintro span _ - rfl
      exact .pure hends
    | _ => exact .fail fun _ => hf
  | symbol sym =>
    cases sym with
    | leftParen =>
      refine Faults.mono ((hkeeps s).ends fun _ t _ => (closes_expect rfl t).bind
        fun _ _ _ hends => .pure hends) fun _ _ h => h.goes
    | leftBracket =>
      exact .map ((faults_commaSeparated hkeeps _ n s).mono fun _ _ h => h.2.goes)
    | _ => exact .fail fun _ => hf
  | _ => exact .fail fun _ => hf

theorem faults_primary (s : State) :
    Faults tokens (primary (expression n .lowest) body n) s fun e t => Since s t e.span := by
  rw [primary_eq]
  refine .behind fun hs t hsince => ?_
  by_cases hc : s.current.kind = .endOfFile
  · refine Faults.bind (P := fun _ _ => False) ?_ fun _ _ _ h => h.elim
    simp only [primaryNode, hc]
    exact .fail fun _ => hs.atCurrent rfl
  · refine fun ht => ((faults_primaryNode he hb (hs.atCurrent rfl) t).bind
      fun node u _ hgoes => fun hu => ((faults_expr _ node u).mono fun e v hv => ?_) hu) ht
    exact hv s ((hsince hc).extend hs hu hgoes)

end

/-! ## All rules -/

/-- Where the errors of all rules are with so much fuel. -/
structure FaultyRules (tokens : List Token) (n : Nat) : Prop where
  expression : FaultsExpression tokens n
  operators : ∀ outer left s t, Ready tokens s → Since s t left.span →
    Faults tokens (Parser.operators n outer left) t fun e u => Since s u e.span
  block : Closes tokens (Parser.block n)
  declaration : Keeps tokens (Parser.declaration n)
  statement : Keeps tokens (Parser.statement n)

theorem faults_operators {n : Nat} (ih : FaultyRules tokens n) {outer : Level} {left : Expr}
    {s t : State} (hs : Ready tokens s) (hleft : Since s t left.span) :
    Faults tokens (operators (n + 1) outer left) t fun e u => Since s u e.span := by
  refine .current ?_
  cases Operator.ofToken? t.current.kind with
  | none => exact .pure hleft
  | some op =>
    dsimp only
    split
    · refine (closes_continuation ih.expression left op t).bind fun node u _ hends => ?_
      refine fun hu => ((faults_expr left.span node u).bind fun e v _ hv => ?_) hu
      exact ih.operators outer e s v hs (hv s (hleft.extend hs hu hends.goes))
    · exact .pure hleft

theorem faults_expression {n : Nat} (ih : FaultyRules tokens n) :
    FaultsExpression tokens (n + 1) := by
  intro outer s
  refine fun hs => (Faults.current ?_ : Faults tokens (expression (n + 1) outer) s _) hs
  cases hop : unaryOp? s.current.kind with
  | some op =>
    refine (faults_advance s).bind fun _ t _ ⟨_, hsince⟩ =>
      (closes_expression ih.expression .unary t).bind fun operand u _ hends => fun hu =>
        ((faults_expr _ _ u).bind fun e v _ hv => ih.operators outer e s v hs ?_) hu
    have hc : s.current.kind ≠ .endOfFile := by
      rw [unaryOp?_eq_some hop]
      exact Token.Kind.noConfusion
    exact hv s ((hsince hc).extend hs hu hends.goes)
  | none =>
    exact (faults_primary ih.expression ih.block s).bind fun e t _ he =>
      ih.operators outer e s t hs he

theorem keeps_statement {n : Nat} (ih : FaultyRules tokens n) :
    Keeps tokens (statement (n + 1)) := by
  have he := keeps_expression ih.expression .lowest
  have hexpr := keeps_stmt (keeps_expressionStmt he)
  refine keeps_currentToken.bind fun token => ?_
  cases token.kind with
  | keyword word =>
    cases word with
    | print => exact keeps_stmt (keeps_printStmt he)
    | «if» => exact keeps_stmt (keeps_ifStmt he ih.statement)
    | «while» => exact keeps_stmt (keeps_whileStmt he ih.statement)
    | «for» => exact keeps_stmt (keeps_forStmt he ih.statement)
    | «return» => exact keeps_stmt (keeps_returnStmt he)
    | «break» => exact keeps_stmt (keeps_loopControl _)
    | «continue» => exact keeps_stmt (keeps_loopControl _)
    | _ => exact hexpr
  | symbol sym =>
    cases sym with
    | leftBrace =>
      exact keeps_stmt (keeps_advance.bind fun _ => Keeps.bind (fun s => (ih.block s).keeps)
        fun _ => .pure)
    | _ => exact hexpr
  | _ => exact hexpr

theorem keeps_declaration {n : Nat} (ih : FaultyRules tokens n) :
    Keeps tokens (declaration (n + 1)) := by
  have he := keeps_expression ih.expression .lowest
  have hb : Keeps tokens (block n) := fun s => (ih.block s).keeps
  refine keeps_currentToken.bind fun token => ?_
  cases token.kind with
  | keyword word =>
    cases word with
    | var => exact keeps_stmt (keeps_varDecl he)
    | «fun» => exact keeps_stmt (keeps_funDecl hb n)
    | klass => exact keeps_stmt (keeps_classDecl hb n)
    | trait => exact keeps_stmt (keeps_traitDecl hb n)
    | _ => exact ih.statement
  | _ => exact ih.statement

theorem faultyRules (tokens : List Token) (n : Nat) : FaultyRules tokens n := by
  induction n with
  | zero =>
    exact { expression := fun _ _ => .outOfFuel
            operators := fun _ _ _ _ _ _ => .outOfFuel
            block := fun _ => .outOfFuel
            declaration := .outOfFuel
            statement := .outOfFuel }
  | succ n ih =>
    exact { expression := faults_expression ih
            operators := fun _ _ _ _ hs hleft => faults_operators ih hs hleft
            block := closes_statements (keeps_recover ih.declaration) n
            declaration := keeps_declaration ih
            statement := keeps_statement ih }

/-! ## Texts -/

theorem ready_start (source : String) (firstId : ExprId) :
    Ready (Token.ofSource source) (.start (Token.ofSource source) firstId) := by
  have hline := Token.inLine_ofSource source
  have hne : Token.ofSource source ≠ [] := by
    obtain ⟨ts, t, hts, -⟩ := hline.ended
    rw [hts]
    exact List.append_ne_nil_of_right_ne_nil _ (List.cons_ne_nil _ _)
  refine ⟨hline, State.tokens_shift _ (Row.of_inLine hline) hne, (State.valid_shift _ hline).2,
    fun e he => ?_⟩
  rcases State.errors_mem_shift _ _ he with he | ⟨t, ht, error, hk, rfl⟩
  · cases he
  · exact .illegal ht hk

end Parser

open Lox.Parser in
/-- All errors of a text are at its tokens. -/
theorem located_of_parse {source : String} {firstId : ExprId} {errors : List ParseError}
    (h : Tree.parse source firstId = .error errors) :
    ∀ e ∈ errors, Located (Token.ofSource source) e := by
  rw [Tree.parse] at h
  generalize fuelFor (Token.ofSource source).length = n at h
  obtain ⟨hok, herror⟩ := keeps_program (keeps_recover (faultyRules _ n).declaration) n _
    (ready_start source firstId)
  rw [run?] at h
  split at h
  · next body t hrun =>
    rw [Option.getD_some] at h
    split at h
    · cases h
    · cases h
      exact (hok body t hrun).1.located
  · next e t hrun =>
    cases h
    obtain ⟨hready, -, he⟩ := herror _ t hrun
    exact List.forall_mem_append.2 ⟨hready.located, List.forall_mem_singleton.2 (he e rfl)⟩
  · cases h
    exact List.forall_mem_nil _

end Lox

import Lox.Proofs.Syntax.Fuel
import Lox.Proofs.Syntax.Parsed
import Lox.Proofs.Token.Next

/-!
# Reading always ends

However wrong a text is, its tokens come to an end, which is read again and again from then on, and
so does what is read from them.  With a few units of fuel for each token that is left, a rule never
gives up for want of fuel, and a declaration that is read where a token is left moves past one,
recovered or not.

    4 * s.left + 2 < n → s.current.kind ≠ .endOfFile →
      ∃ o t, recover (declaration n) s = .ok o t ∧ t.left < s.left              (recover_declaration)

At the end of the text all rules fail that others are made of.
-/

namespace Lox

/-! ## Tokens -/

namespace Token

/-- The token that is read after `k` others. -/
def read (c : Cursor) : Nat → Token
  | 0 => (next c).1
  | k + 1 => read (next c).2 k

/-- Behind the end of a text nothing is left. -/
theorem rest_of_endOfFile {c : Cursor} (h : (next c).1.kind = .endOfFile) :
    (next c).2.rest = [] := by
  fun_induction next c with
  | case1 c start kind stop hk =>
    cases h
    cases hr : start.rest with
    | nil =>
      rw [lexOne, hr] at hk
      cases hk
      exact hr
    | cons ch rest =>
      exact absurd (congrArg Prod.fst hk) (lexOne_ne_endOfFile (hr ▸ List.cons_ne_nil _ _))
  | case2 c start stop hk _ ih => exact ih h

theorem next_of_rest_nil {c : Cursor} (h : c.rest = []) :
    (next c).1.kind = .endOfFile ∧ (next c).2.rest = [] := by
  obtain ⟨rest, p⟩ := c
  cases h
  rw [next_of_some (c := ⟨[], p⟩) (k := .endOfFile) (u := ⟨[], p⟩) rfl]
  exact ⟨rfl, rfl⟩

/-- Where nothing is left the end of the text is read again and again. -/
theorem read_of_rest_nil {c : Cursor} (h : c.rest = []) (k : Nat) :
    (read c k).kind = .endOfFile := by
  induction k generalizing c with
  | zero => exact (next_of_rest_nil h).1
  | succ k ih => exact ih (next_of_rest_nil h).2

/-- From a cursor on there are no more tokens than characters, and then the end of the text for
good. -/
theorem exists_read (c : Cursor) :
    ∃ n ≤ c.rest.length, (∀ k < n, (read c k).kind ≠ .endOfFile) ∧
      (∀ k, n ≤ k → (read c k).kind = .endOfFile) ∧
      allFrom c = (List.range (n + 1)).map (read c) := by
  induction hc : c.rest.length using Nat.strongRecOn generalizing c with
  | ind len ih =>
    subst hc
    have hall := allFrom_of_next (c := c) rfl
    by_cases hend : (next c).1.kind = .endOfFile
    · refine ⟨0, Nat.zero_le _, fun k hk => absurd hk (Nat.not_lt_zero k), fun k _ => ?_, ?_⟩
      · cases k with
        | zero => exact hend
        | succ k => exact read_of_rest_nil (rest_of_endOfFile hend) k
      · rw [hall, if_pos ((isEndOfFile_iff _).2 hend)]
        rfl
    · have hlt := length_next_lt c hend
      obtain ⟨n, hn, hbefore, hbehind, heq⟩ := ih _ hlt (next c).2 rfl
      refine ⟨n + 1, by omega, fun k hk => ?_, fun k hk => ?_, ?_⟩
      · cases k with
        | zero => exact hend
        | succ k => exact hbefore k (by omega)
      · cases k with
        | zero => omega
        | succ k => exact hbehind k (by omega)
      · rw [hall, if_neg (mt (isEndOfFile_iff _).1 hend), heq, List.range_succ_eq_map (n := n + 1),
          List.map_cons, List.map_map]
        rfl

end Token
namespace Parser

/-! ## At the end of a text -/

/-- The current token is the end of the text. -/
structure State.AtEnd (s : State) : Prop where
  ended : s.Ended
  current : s.current.kind = .endOfFile

theorem State.Ended.atEnd_of_left {s : State} (h : s.Ended) (hleft : s.left = 0) : s.AtEnd where
  ended := h
  current := Classical.byContradiction fun hc => by
    have := h.left_pos hc
    omega

theorem State.AtEnd.left_eq_zero {s : State} (h : s.AtEnd) : s.left = 0 :=
  h.ended.left_eq_zero h.current

/-- A step at the end of the text stays there. -/
theorem State.AtEnd.advance {s : State} (h : s.AtEnd) : s.advance.AtEnd := by
  obtain ⟨hended, hleft⟩ := h.ended.advance
  have hzero := h.left_eq_zero
  exact hended.atEnd_of_left (by omega)

/-- The rule fails, and it does so with an error of the text. -/
def Fails {α : Type} (rule : Rule α) (s : State) : Prop :=
  ∃ e t, rule s = .error (.error e) t ∧ t.AtEnd

/-- The rule comes to an end, and has moved past tokens at most. -/
def Halts {α : Type} (rule : Rule α) (s : State) : Prop :=
  (∃ a t, rule s = .ok a t ∧ t.Ended ∧ t.left ≤ s.left) ∨
    ∃ e t, rule s = .error (.error e) t ∧ t.Ended ∧ t.left ≤ s.left

section

variable {α β : Type} {s : State} {k : Nat}

theorem Lasts.halts {rule : Rule α} (h : Lasts rule s k) (hs : s.Ended) : Halts rule s := by
  obtain ⟨hok, herror⟩ := h hs
  cases hrun : rule s with
  | ok a t =>
    obtain ⟨hended, hleft⟩ := hok a t hrun
    exact .inl ⟨a, t, hrun, hended, by omega⟩
  | error stop t =>
    obtain ⟨hended, hleft, hstop⟩ := herror stop t hrun
    cases stop with
    | outOfFuel => exact absurd rfl hstop
    | error e => exact .inr ⟨e, t, hrun, hended, by omega⟩

theorem Fails.halts {rule : Rule α} (h : Fails rule s) : Halts rule s := by
  obtain ⟨e, t, hrun, ht⟩ := h
  have hzero := ht.left_eq_zero
  exact .inr ⟨e, t, hrun, ht.ended, by omega⟩

/-- A rule that has to move past a token fails where none is left. -/
theorem Lasts.fails {rule : Rule α} (h : Lasts rule s 1) (hs : s.AtEnd) : Fails rule s := by
  have hzero := hs.left_eq_zero
  obtain ⟨hok, -⟩ := h hs.ended
  obtain ⟨a, t, hrun, -, -⟩ | ⟨e, t, hrun, hended, hleft⟩ := h.halts hs.ended
  · obtain ⟨-, hleft⟩ := hok a t hrun
    omega
  · exact ⟨e, t, hrun, hended.atEnd_of_left (by omega)⟩

namespace Fails

theorem bind {x : Rule α} (h : Fails x s) (f : α → Rule β) : Fails (x >>= f) s := by
  obtain ⟨e, t, hrun, ht⟩ := h
  exact ⟨e, t, EStateM.bind_of_error hrun f, ht⟩

theorem map {x : Rule α} (h : Fails x s) (f : α → β) : Fails (f <$> x) s := by
  obtain ⟨e, t, hrun, ht⟩ := h
  exact ⟨e, t, EStateM.map_of_error hrun f, ht⟩

theorem advance {f : Unit → Rule α} (h : Fails (f ()) s.advance) :
    Fails (Parser.advance >>= f) s := h

theorem current {f : Token → Rule α} (h : Fails (f s.current) s) : Fails (currentToken >>= f) s := h

theorem optional {expression : Rule Expr} (hs : s.AtEnd) (h : Fails expression s)
    (close : Symbol) : Fails (optional expression close) s := by
  have hrun : Parser.optional expression close s = (some <$> expression) s := by
    show (if s.current.kind.isSymbol close then _ else _ : Rule (Option Expr)) s = _
    rw [hs.current]
    rfl
  have hmap := h.map some
  unfold Fails at hmap ⊢
  rwa [hrun]

end Fails

end

/-! ## All rules -/

/-- The rules that take fuel or are made of such, each with `n` units for its parts. -/
inductive Routine (n : Nat) : {α : Type} → Rule α → Prop
  -- expressions
  | expression (outer : Level) : Routine n (expression n outer)
  | primary : Routine n (primary (Parser.expression n .lowest) (Parser.block n) n)
  | grouping : Routine n (grouping (Parser.expression n .lowest))
  | lambda (keyword : Span) : Routine n (lambda (Parser.block n) keyword n)
  | continuation (left : Expr) (op : Operator) :
      Routine n (continuation (Parser.expression n) left op n)
  -- lists
  | items (close : Symbol) :
      Routine n (commaSeparated close (Parser.expression n .lowest) n)
  | moreItems (close : Symbol) :
      Routine n (commaSeparatedTail close (Parser.expression n .lowest) n)
  | arguments : Routine n (arguments (Parser.expression n .lowest) n)
  | parameters : Routine n (parameters n)
  | traitNames : Routine n (traitNames n)
  -- declarations
  | declaration : Routine n (declaration n)
  | varDecl : Routine n (varDecl (Parser.expression n .lowest))
  | funDecl : Routine n (funDecl (Parser.block n) n)
  | namedFunction (isMember : Bool) : Routine n (namedFunction (Parser.block n) isMember n)
  | classDecl : Routine n (classDecl (Parser.block n) n)
  | traitDecl : Routine n (traitDecl (Parser.block n) n)
  | members : Routine n (members (Parser.namedFunction (Parser.block n) true n) n)
  -- statements
  | statement : Routine n (statement n)
  | expressionStmt : Routine n (expressionStmt (Parser.expression n .lowest))
  | printStmt : Routine n (printStmt (Parser.expression n .lowest))
  | ifStmt : Routine n (ifStmt (Parser.expression n .lowest) (Parser.statement n))
  | whileStmt : Routine n (whileStmt (Parser.expression n .lowest) (Parser.statement n))
  | forStmt : Routine n (forStmt (Parser.expression n .lowest) (Parser.statement n))
  | forInit : Routine n (forInit (Parser.expression n .lowest))
  | returnStmt : Routine n (returnStmt (Parser.expression n .lowest))
  | loopControl (node : Stmt.Node) : Routine n (loopControl node)
  | block : Routine n (block n)
  | statements : Routine n (statements (recover (Parser.declaration n)) n)

section

variable {n : Nat} {s : State} (hn : 4 * s.left + 3 < n)
include hn

theorem lasts_item (t : State) (ht : t.left ≤ s.left) :
    Lasts (Parser.expression n .lowest) t 1 :=
  (lastingRules n).expression .lowest t (by omega)

theorem lasts_body (t : State) (ht : t.left ≤ s.left) : Lasts (Parser.block n) t 1 :=
  (lastingRules n).block t (by omega)

theorem lasts_function (isMember : Bool) : Lasts (namedFunction (Parser.block n) isMember n) s 1 :=
  lasts_namedFunction (fun t ht => lasts_body hn t (by omega)) isMember (by omega)

theorem lasts_items (close : Symbol) :
    Lasts (commaSeparated close (Parser.expression n .lowest) n) s 1 :=
  lasts_commaSeparated close (lasts_item hn) (by omega)

variable {α : Type} {rule : Rule α}

/-- At the end of the text a rule fails at the first token that it has to move past. -/
theorem Routine.fails (h : Routine n rule) (hs : s.AtEnd) : Fails rule s := by
  have hzero := hs.left_eq_zero
  have hstep := hs.advance
  have hzero' := hstep.left_eq_zero
  have hn' : 4 * s.advance.left + 3 < n := by omega
  have he (outer : Level) {t : State} (ht : t.AtEnd) : Fails (Parser.expression n outer) t := by
    have := ht.left_eq_zero
    exact ((lastingRules n).expression outer t (by omega)).fails ht
  have hexpect (sym : Symbol) (otherwise : ParseErrorKind) {t : State} (ht : t.AtEnd) :
      Fails (expect sym otherwise) t := (lasts_expect sym otherwise).fails ht
  have hname (otherwise : ParseErrorKind) {t : State} (ht : t.AtEnd) :
      Fails (identifier otherwise) t := (lasts_identifier otherwise).fails ht
  have harguments : Fails (Parser.arguments (Parser.expression n .lowest) n) s :=
    .advance (((lasts_items hn' .rightParen).fails hstep).bind _)
  cases h with
  | expression outer => exact he outer hs
  | primary =>
    exact (lasts_primary (fun t ht => lasts_item hn t (by omega))
      (fun t ht => lasts_body hn t (by omega)) (by omega)).fails hs
  | grouping => exact (he .lowest hs).bind _
  | lambda keyword => exact ((lasts_parameters (by omega)).fails hs).bind _
  | continuation left op =>
    refine .current ?_
    cases op with
    | call => exact harguments.bind _
    | property => exact .advance ((hname _ hstep).bind _)
    | _ => exact .advance ((he _ hstep).bind _)
  | items close => exact (lasts_items hn close).fails hs
  | moreItems close =>
    exact (lasts_commaSeparatedTail close (lasts_item hn) (by omega)).fails hs
  | arguments => exact harguments
  | parameters => exact (lasts_parameters (by omega)).fails hs
  | traitNames => exact (lasts_traitNames (by omega)).fails hs
  | declaration => exact ((lastingRules n).declaration s (by omega)).fails hs
  | varDecl => exact .advance ((hname _ hstep).bind _)
  | funDecl => exact .advance (((lasts_function hn' false).fails hstep).bind _)
  | namedFunction isMember => exact (lasts_function hn isMember).fails hs
  | classDecl => exact .advance ((hname _ hstep).bind _)
  | traitDecl => exact .advance ((hname _ hstep).bind _)
  | members =>
    exact (lasts_members (fun t ht => lasts_body hn t (by omega)) (by omega) (by omega)).fails hs
  | statement => exact ((lastingRules n).statement s (by omega)).fails hs
  | expressionStmt => exact (he .lowest hs).bind _
  | printStmt => exact .advance ((he .lowest hstep).bind _)
  | ifStmt => exact .advance ((hexpect _ _ hstep).bind _)
  | whileStmt => exact .advance ((hexpect _ _ hstep).bind _)
  | forStmt => exact .advance ((hexpect _ _ hstep).bind _)
  | forInit => exact (lasts_forInit (lasts_item hn)).fails hs
  | returnStmt => exact .advance ((Fails.optional hstep (he .lowest hstep) _).bind _)
  | loopControl node => exact .advance ((hexpect _ _ hstep).bind _)
  | block => exact (lasts_body hn s (Nat.le_refl _)).fails hs
  | statements =>
    exact (lasts_statements (fun t ht => (lastingRules n).declaration t (by omega))
      (by omega)).fails hs

/-- Everywhere else too it comes to an end. -/
theorem Routine.halts (h : Routine n rule) (hs : s.Ended) : Halts rule s := by
  by_cases hc : s.current.kind = .endOfFile
  · exact (h.fails hn ⟨hs, hc⟩).halts
  have he (outer : Level) (t : State) (ht : t.left ≤ s.left) :
      Lasts (Parser.expression n outer) t 1 :=
    (lastingRules n).expression outer t (by omega)
  have hst (t : State) (ht : t.left + 1 ≤ s.left) : Lasts (Parser.statement n) t 1 :=
    (lastingRules n).statement t (by omega)
  have hitem (t : State) (ht : t.left + 1 ≤ s.left) : Lasts (Parser.expression n .lowest) t 1 :=
    lasts_item hn t (by omega)
  have hbody (t : State) (ht : t.left + 1 ≤ s.left) : Lasts (Parser.block n) t 1 :=
    lasts_body hn t (by omega)
  have hle : s.left ≤ n := by omega
  cases h with
  | expression outer => exact (he outer s (Nat.le_refl _)).halts hs
  | primary => exact (lasts_primary hitem hbody hle).halts hs
  | grouping =>
    exact Lasts.halts (.bind (he .lowest s (Nat.le_refl _)) fun _ _ _ =>
      (lasts_expect _ _).bind fun _ _ _ => .pure) hs
  | lambda keyword =>
    refine Lasts.halts (.bind (lasts_parameters hle) fun _ t ht => (lasts_expect _ _).bind
      fun _ u hu => (hbody u (by omega)).bind fun _ _ _ => (lasts_spanFrom _).bind
        fun _ _ _ => .pure) hs
  | continuation left op =>
    exact (lasts_continuation hc (fun outer t ht => he outer t (by omega)) hle left op).halts hs
  | items close => exact (lasts_items hn close).halts hs
  | moreItems close =>
    exact (lasts_commaSeparatedTail close (lasts_item hn) (by omega)).halts hs
  | arguments => exact (lasts_arguments hc hitem hle).halts hs
  | parameters => exact (lasts_parameters hle).halts hs
  | traitNames => exact (lasts_traitNames (by omega)).halts hs
  | declaration => exact ((lastingRules n).declaration s (by omega)).halts hs
  | varDecl => exact (lasts_varDecl hc hitem).halts hs
  | funDecl => exact (lasts_funDecl hc hbody hle).halts hs
  | namedFunction isMember => exact (lasts_function hn isMember).halts hs
  | classDecl => exact (lasts_classDecl hc hbody hle).halts hs
  | traitDecl => exact (lasts_traitDecl hc hbody hle).halts hs
  | members => exact (lasts_members hbody (by omega) hle).halts hs
  | statement => exact ((lastingRules n).statement s (by omega)).halts hs
  | expressionStmt => exact (lasts_expressionStmt (he .lowest s (Nat.le_refl _))).halts hs
  | printStmt => exact (lasts_printStmt hc hitem).halts hs
  | ifStmt => exact (lasts_ifStmt hc hitem hst).halts hs
  | whileStmt => exact (lasts_whileStmt hc hitem hst).halts hs
  | forStmt => exact (lasts_forStmt hc hitem hst).halts hs
  | forInit => exact (lasts_forInit (lasts_item hn)).halts hs
  | returnStmt => exact (lasts_returnStmt hc hitem).halts hs
  | loopControl node => exact (lasts_loopControl hc node).halts hs
  | block => exact (lasts_body hn s (Nat.le_refl _)).halts hs
  | statements =>
    exact (lasts_statements (fun t ht => (lastingRules n).declaration t (by omega))
      (by omega)).halts hs

/-- Whether it goes right or not, a declaration moves past a token. -/
theorem recover_declaration (hs : s.Ended) (hc : s.current.kind ≠ .endOfFile) :
    ∃ o t, recover (Parser.declaration n) s = .ok o t ∧ t.Ended ∧ t.left < s.left := by
  have hpos := hs.left_pos hc
  obtain ⟨o, t, hrun, hended, hleft⟩ := ((lastingRules n).declaration s (by omega)).recover hs
  exact ⟨o, t, hrun, hended, by omega⟩

end

/-! ## Texts -/

theorem ended_start (source : String) (firstId : ExprId) :
    (State.start (Token.ofSource source) firstId).Ended := by
  obtain ⟨ks, hks, hne⟩ := Token.ofSource_ended source
  exact (State.ended_shift _ hks hne).1

/-- With fuel for so many tokens or more, there is an answer. -/
theorem exists_run?_eq_some (source : String) (firstId : ExprId) {n : Nat}
    (hn : fuelFor (Token.ofSource source).length ≤ n) :
    ∃ r, run? n (Token.ofSource source) firstId = some r := by
  obtain ⟨ks, hks, hne⟩ := Token.ofSource_ended source
  obtain ⟨body, t, hrun⟩ := exists_program_eq_ok hks hne firstId hn
  exact ⟨_, by rw [run?, hrun]⟩

end Parser

/-- After no more tokens than a source has characters, its end is read, and only that from then on.
Reading its program gives an answer, with the fuel that it is given and with any more.  Where the
input ends as that of a text does, all rules come to an end with a few units of fuel for each token
that is left; a declaration that is begun in front of a token moves past one, whether it is read or
skipped after an error; and at the end of the text all rules fail. -/
theorem reading_ends (source : String) (firstId : ExprId) :
    (∃ n ≤ (Cursor.ofString source).rest.length,
      (∀ k < n, (Token.read (.ofString source) k).kind ≠ .endOfFile) ∧
      (∀ k, n ≤ k → (Token.read (.ofString source) k).kind = .endOfFile) ∧
      Token.ofSource source = (List.range (n + 1)).map (Token.read (.ofString source))) ∧
    (∀ n, Parser.fuelFor (Token.ofSource source).length ≤ n →
      ∃ r, Parser.run? n (Token.ofSource source) firstId = some r) ∧
    Parser.run? (Parser.fuelFor (Token.ofSource source).length) (Token.ofSource source) firstId =
      some (Tree.parse source firstId) ∧
    (Parser.State.start (Token.ofSource source) firstId).Ended ∧
    ∀ (n : Nat) (s : Parser.State), s.Ended → 4 * s.left + 3 < n →
      (s.current.kind ≠ .endOfFile → ∃ o t,
        Parser.recover (Parser.declaration n) s = .ok o t ∧ t.Ended ∧ t.left < s.left) ∧
      ∀ (α : Type) (rule : Parser.Rule α), Parser.Routine n rule →
        Parser.Halts rule s ∧ (s.current.kind = .endOfFile → Parser.Fails rule s) := by
  refine ⟨Token.exists_read _, fun n hn => Parser.exists_run?_eq_some source firstId hn, ?_,
    Parser.ended_start source firstId, fun n s hs hn => ⟨Parser.recover_declaration hn hs, ?_⟩⟩
  · obtain ⟨r, hr⟩ := Parser.exists_run?_eq_some source firstId (Nat.le_refl _)
    rw [Tree.parse, hr]
    rfl
  · exact fun α rule h => ⟨h.halts hn hs, fun hc => h.fails hn ⟨hs, hc⟩⟩

/-- A bracket that is never closed, and no text at all. -/
theorem reading_ends_unclosed :
    (∃ n ≤ 1, (Token.read (.ofString "(") n).kind = .endOfFile) ∧
    (∃ r, Parser.run? 40 (Token.ofSource "(") 0 = some r) ∧
    (∃ o t, Parser.recover (Parser.declaration 8) (.start (Token.ofSource "(") 0) = .ok o t ∧
      t.Ended ∧ t.left < 1) ∧
    Parser.Fails (Parser.block 8) (.start (Token.ofSource "") 0) := by
  obtain ⟨⟨n, hn, -, hend, -⟩, hanswer, -, hended, hrules⟩ := reading_ends "(" 0
  obtain ⟨-, -, -, hended', hrules'⟩ := reading_ends "" 0
  have hbracket : (Parser.State.start (Token.ofSource "(") 0).current.kind = .symbol .leftParen := by
    cbv
  have hnothing : (Parser.State.start (Token.ofSource "") 0).current.kind = .endOfFile := by cbv
  have hleft : (Parser.State.start (Token.ofSource "(") 0).left = 1 := by cbv
  have hleft' : (Parser.State.start (Token.ofSource "") 0).left = 0 := by cbv
  have hlength : (Token.ofSource "(").length = 2 := by cbv
  have hchars : (Cursor.ofString "(").rest.length = 1 := by cbv
  refine ⟨⟨n, hchars ▸ hn, hend n (Nat.le_refl n)⟩, hanswer 40 ?_, ?_, ?_⟩
  · rw [hlength]
    decide
  · obtain ⟨hmoves, -⟩ := hrules 8 _ hended (by omega)
    obtain ⟨o, t, hrun, ht, hlt⟩ := hmoves fun hc => by
      rw [hbracket] at hc
      cases hc
    exact ⟨o, t, hrun, ht, by omega⟩
  · obtain ⟨-, hroutines⟩ := hrules' 8 _ hended' (by omega)
    exact (hroutines _ _ .block).2 hnothing

end Lox

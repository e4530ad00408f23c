import Lox.Proofs.Syntax.Arrives

/-!
# Rules take what the grammar derives

A rule in front of tokens that the grammar derives takes them, and what it returns is the derived
tree but for identities and spans.  Of an expression the operators that may come next decide where
it ends; of a statement that is open, that no `else` comes next.

    Derives fits (.declaration d) ts → rest.head? ≠ some (.keyword .else) → 8 * ts.length + 2 < fuel →
      Takes fits (declaration fuel) ts rest fun d' => d'.bare = d.bare               (taken_of_derives)

The fuel that a rule needs grows with the tokens that it takes, since each part takes one at least.
-/

namespace Lox

namespace Grammar

/-! ## First tokens -/

/-- The tokens that expressions begin with. -/
def startsExpression : Token.Kind → Bool
  | .number _ | .string _ | .identifier _ => true
  | .keyword .true | .keyword .false | .keyword .nil | .keyword .this | .keyword .super => true
  | .keyword .fun => true
  | .symbol .leftParen | .symbol .leftBracket | .symbol .bang | .symbol .minus => true
  | _ => false

/-- The tokens that statements begin with. -/
def startsStatement : Token.Kind → Bool
  | .keyword .print | .keyword .if | .keyword .while | .keyword .for | .keyword .return => true
  | .keyword .break | .keyword .continue | .symbol .leftBrace => true
  | k => startsExpression k

/-- The tokens that declarations begin with. -/
def startsDeclaration : Token.Kind → Bool
  | .keyword .var | .keyword .klass | .keyword .trait => true
  | k => startsStatement k

def startsFunction : Token.Kind → Bool
  | .identifier _ => true
  | _ => false

theorem startsStatement_of_startsExpression {k : Token.Kind} (h : startsExpression k = true) :
    startsStatement k = true := by
  unfold startsStatement
  split <;> first | rfl | exact h

theorem startsDeclaration_of_startsStatement {k : Token.Kind} (h : startsStatement k = true) :
    startsDeclaration k = true := by
  unfold startsDeclaration
  split <;> first | rfl | exact h

/-- The first token is one of these. -/
def Starts (first : Token.Kind → Bool) (ts : Tokens) : Prop :=
  ∃ k us, ts = k :: us ∧ first k = true

theorem Starts.append {first : Token.Kind → Bool} {ts : Tokens} (h : Starts first ts)
    (us : Tokens) : Starts first (ts ++ us) := by
  obtain ⟨k, vs, rfl, hk⟩ := h
  exact ⟨k, vs ++ us, rfl, hk⟩

theorem Starts.mono {first first' : Token.Kind → Bool} {ts : Tokens} (h : Starts first ts)
    (hle : ∀ k, first k = true → first' k = true) : Starts first' ts := by
  obtain ⟨k, vs, rfl, hk⟩ := h
  exact ⟨k, vs, rfl, hle k hk⟩

def Phrase.Starts : Phrase → Tokens → Prop
  | .expr _ _, ts => Grammar.Starts startsExpression ts
  | .function _ _, ts => Grammar.Starts startsFunction ts
  | .statement _, ts => Grammar.Starts startsStatement ts
  | .declaration _, ts => Grammar.Starts startsDeclaration ts
  | _, _ => True

variable {fits : Nat → Prop} {ts : Tokens}

theorem Derives.starts {ph : Phrase} (h : Derives fits ph ts) : ph.Starts ts := by
  induction h with
  | looser _ ih => exact ih
  | set _ _ ih _ | indexSet _ _ _ ih _ _ | ternary _ _ _ ih _ _ | logical _ _ ih _ => exact ih.append _
  | binary _ _ ih _ | call _ _ _ ih _ | index _ _ ih _ | get _ ih => exact ih.append _
  | @unary _ _ op => exact ⟨_, _, rfl, by cases op <;> rfl⟩
  | expression _ ih => exact (ih.mono fun _ => startsStatement_of_startsExpression).append _
  | statement _ _ ih => exact ih.mono fun _ => startsDeclaration_of_startsStatement
  | assign | number | string | true | false | nil | «variable» | this | super | group | array =>
    exact ⟨_, _, rfl, rfl⟩
  | lambda | function | getter | print | block | ifOnly | ifElse | «while» | «for» | «break» | «continue» | «return» =>
    exact ⟨_, _, rfl, rfl⟩
  | var | varInit | «fun» | «class» | trait => exact ⟨_, _, rfl, rfl⟩
  | _ => trivial

end Grammar

namespace Parser

open Grammar

/-! ## Operators that come next -/

/-- The stratum of the operand before an operator. -/
def operand : Operator → Stratum
  | .assign => .call
  | op => needs op

/-- An operator that comes may take an expression of the stratum. -/
def Follows (ℓ : Stratum) (rest : Tokens) : Prop :=
  ∀ k, rest.head? = some k → ∀ op, Operator.ofToken? k = some op → (operand op).rank ≤ ℓ.rank

theorem Follows.mono {ℓ m : Stratum} {rest : Tokens} (h : Follows ℓ rest)
    (hle : ℓ.rank ≤ m.rank) : Follows m rest :=
  fun k hk op hop => Nat.le_trans (h k hk op hop) hle

theorem follows_operator (op : Operator) (rest : Tokens) :
    Follows (operand op) (operatorToken op :: rest) := by
  rintro _ ⟨⟩ op' hop
  rw [ofToken?_operatorToken] at hop
  cases hop
  exact Nat.le_refl _

/-- The tokens behind a whole expression. -/
def endsExpression : Token.Kind → Bool
  | .symbol .rightParen | .symbol .rightBracket | .symbol .comma | .symbol .semicolon => true
  | .symbol .colon => true
  | _ => false

theorem Follows.of_ends {k : Token.Kind} {rest : Tokens} (h : endsExpression k = true)
    (ℓ : Stratum) : Follows ℓ (k :: rest) := by
  rintro _ ⟨⟩ op hop
  rw [ofToken?_eq_some hop] at h
  cases op with
  | binary op => cases op <;> cases h
  | logical op => cases op <;> cases h
  | _ => cases h

theorem bindsInside_of_rank_le {op : Operator} {outer : Level}
    (ho : outer.rank ≤ Level.unary.rank) (h : (stratumInside outer).rank ≤ (made op).rank) :
    op.bindsInside outer = true := by
  revert ho h
  cases op with
  | binary op => cases op <;> cases outer <;> decide
  | logical op => cases op <;> cases outer <;> decide
  | _ => cases outer <;> decide

/-- An operator that comes behind the last operand leaves it to the operator before. -/
theorem not_bindsInside_of_rank_le {op next : Operator} (ho : op.level.rank ≤ Level.unary.rank)
    (h : (operand next).rank ≤ (made op).rank) : next.bindsInside op.level = false := by
  revert ho h
  cases op with
  | binary op => cases op <;> cases next with
    | binary next => cases next <;> decide
    | logical next => cases next <;> decide
    | _ => decide
  | logical op => cases op <;> cases next with
    | binary next => cases next <;> decide
    | logical next => cases next <;> decide
    | _ => decide
  | _ => cases next with
    | binary next => cases next <;> decide
    | logical next => cases next <;> decide
    | _ => decide

theorem not_bindsInside_unary {next : Operator} (h : (operand next).rank ≤ Stratum.unary.rank) :
    next.bindsInside .unary = false := by
  revert h
  cases next with
  | binary next => cases next <;> decide
  | logical next => cases next <;> decide
  | _ => decide

theorem not_rank_operand_le_assignment (op : Operator) :
    ¬(operand op).rank ≤ Stratum.assignment.rank := by
  cases op with
  | binary op => cases op <;> decide
  | logical op => cases op <;> decide
  | _ => decide

/-! ## What phrases are taken for -/

/-- The tokens that end a list or an optional expression. -/
def closes : Symbol → Bool
  | .rightParen | .rightBracket | .semicolon => true
  | _ => false

variable (fits : Nat → Prop)

/-- What the rules make of the tokens of a phrase, given fuel for so many.  An expression is taken
up to where the operators behind it are read. -/
def Taken : Phrase → Tokens → Prop
  | .expr ℓ e, ts => ∀ outer fuel rest, outer.rank ≤ Level.unary.rank →
      (stratumInside outer).rank ≤ ℓ.rank → Follows ℓ rest → 8 * ts.length < fuel →
      Arrives fits (expression fuel outer) ts rest fun r =>
        ∃ e' n, r = operators n outer e' ∧ e'.bare = e.bare ∧ fuel ≤ n + ts.length
  | .items es, ts => ∀ close fuel n rest, closes close = true → 8 * ts.length < fuel →
      ts.length < n →
      Takes fits (commaSeparated close (expression fuel .lowest) n) (ts ++ [.symbol close]) rest
        fun es' => Expr.bares es' = Expr.bares es
  | .furtherItems es, ts => ∀ close fuel n rest, closes close = true → 8 * ts.length < fuel →
      ts.length < n →
      Takes fits (commaSeparatedTail close (expression fuel .lowest) n) (ts ++ [.symbol close])
        rest fun es' => Expr.bares es' = Expr.bares es
  | .optional e, ts => ∀ close fuel rest, closes close = true → 8 * ts.length < fuel →
      Takes fits (optional (expression fuel .lowest) close) ts (.symbol close :: rest)
        fun e' => e'.map Expr.bare = e.map Expr.bare
  | .function isMember f, ts => ∀ fuel n rest, 8 * ts.length < fuel → ts.length < n →
      Takes fits (namedFunction (block fuel) isMember n) ts rest fun f' => f'.bare = f.bare
  | .members methods statics, ts => ∀ fuel k n rest, 8 * ts.length < fuel → ts.length < k →
      ts.length < n →
      Takes fits (members (namedFunction (block fuel) true k) n) (ts ++ [.symbol .rightBrace]) rest
        fun fs => Function.bares fs.1 = Function.bares methods ∧
          Function.bares fs.2 = Function.bares statics
  | .clause init, ts => ∀ fuel rest, 8 * ts.length + 1 < fuel →
      rest.head? ≠ some (.keyword .else) →
      Takes fits (forInit (expression fuel .lowest)) ts rest
        fun init' => init'.map Stmt.bare = init.map Stmt.bare
  | .statement s, ts => ∀ fuel rest, 8 * ts.length + 1 < fuel →
      (isOpen s = true → rest.head? ≠ some (.keyword .else)) →
      Takes fits (statement fuel) ts rest fun s' => s'.bare = s.bare
  | .declaration s, ts => ∀ fuel rest, 8 * ts.length + 2 < fuel →
      rest.head? ≠ some (.keyword .else) →
      Takes fits (declaration fuel) ts rest fun s' => s'.bare = s.bare
  | .declarations ss, ts => ∀ fuel n, 8 * ts.length + 2 < fuel → ts.length < n →
      (∀ rest, Takes fits (statements (recover (declaration fuel)) n)
        (ts ++ [.symbol .rightBrace]) rest fun ss' => Stmt.bares ss' = Stmt.bares ss) ∧
      Takes fits (program (recover (declaration fuel)) n) ts [.endOfFile]
        fun ss' => Stmt.bares ss' = Stmt.bares ss

variable {fits} {α : Type} {ts us rest : Tokens}

/-! ## Expressions -/

/-- What comes next does not continue the expression. -/
theorem operators_returns {n : Nat} {outer : Level} {e : Expr} (hn : 0 < n)
    (hstop : ∀ k, rest.head? = some k → Stops outer k) :
    Arrives fits (operators n outer e) [] rest fun r => r = pure e := by
  obtain ⟨n, rfl⟩ := Nat.exists_eq_succ_of_ne_zero (Nat.pos_iff_ne_zero.1 hn)
  cases rest with
  | nil => exact fun h => absurd rfl h
  | cons k rest =>
    refine .congr (k := k) rfl (fun s hs => ?_) (.refl rfl)
    have htoken : currentToken s = .ok s.current s := rfl
    rw [operators, EStateM.bind_of_ok htoken, hs]
    cases hop : Operator.ofToken? k with
    | none => rfl
    | some op =>
      dsimp only
      rw [hstop k rfl op hop]
      rfl

theorem Taken.takes {ℓ : Stratum} {e : Expr} (h : Taken fits (.expr ℓ e) ts) (outer : Level)
    {fuel : Nat} (ho : outer.rank ≤ Level.unary.rank)
    (hℓ : (stratumInside outer).rank ≤ ℓ.rank) (hfollows : Follows ℓ rest)
    (hstop : ∀ k, rest.head? = some k → Stops outer k) (hfuel : 8 * ts.length < fuel) :
    Takes fits (expression fuel outer) ts rest fun e' => e'.bare = e.bare := by
  have h' : Arrives fits (expression fuel outer) ts ([] ++ rest) _ :=
    h outer fuel rest ho hℓ hfollows hfuel
  have := h'.trans (S := fun r => ∃ a, r = pure a ∧ a.bare = e.bare) ?_
  · rwa [List.append_nil] at this
  · rintro _ ⟨e', n, rfl, he, hn⟩
    exact (operators_returns (by omega) hstop).mono fun _ hr => ⟨e', hr, he⟩

/-- An expression in front of a token that no expression goes on with. -/
theorem Taken.whole {e : Expr} {fuel : Nat} {k : Token.Kind}
    (h : Taken fits (.expr .assignment e) ts) (hk : endsExpression k = true)
    (hfuel : 8 * ts.length < fuel) :
    Takes fits (expression fuel .lowest) ts (k :: rest) fun e' => e'.bare = e.bare := by
  refine h.takes .lowest (by decide) (by decide) (.of_ends hk _) (fun k' hk' op hop => ?_) hfuel
  exact absurd (Follows.of_ends hk .assignment k' hk' op hop) (not_rank_operand_le_assignment op)

/-- An operator that binds inside the level continues the expression. -/
theorem operators_continues {op : Operator} {outer : Level} {n : Nat} {left e : Expr}
    (hb : op.bindsInside outer = true)
    (h : Takes fits (continuation (expression n) left op n) (operatorToken op :: ts) rest
      fun node => ∀ id span, Expr.bare ⟨id, span, node⟩ = e.bare) :
    Arrives fits (operators (n + 1) outer left) (operatorToken op :: ts) rest fun r =>
      ∃ e', r = operators n outer e' ∧ e'.bare = e.bare := by
  refine .congr (r := (do
    let node ← continuation (expression n) left op n
    operators n outer (← Parser.expr left.span node))) (k := operatorToken op) rfl
    (fun s hs => ?_) ?_
  · have htoken : currentToken s = .ok s.current s := rfl
    rw [operators, EStateM.bind_of_ok htoken, hs, ofToken?_operatorToken]
    dsimp only
    rw [if_pos hb]
  · exact h.last fun node hnode => .expr fun id span => .refl ⟨⟨id, span, node⟩, rfl, hnode id span⟩

/-- An operand and an operator behind it, with all that belongs to it. -/
theorem Taken.continues (op : Operator) {left e : Expr} (hle : (made op).rank ≤ (operand op).rank)
    (hl : Taken fits (.expr (operand op) left) ts)
    (h : ∀ n left' rest, left'.bare = left.bare → Follows (made op) rest → 8 * us.length < n →
      Takes fits (continuation (expression n) left' op n) (operatorToken op :: us) rest
        fun node => ∀ id span, Expr.bare ⟨id, span, node⟩ = e.bare) :
    Taken fits (.expr (made op) e) (ts ++ operatorToken op :: us) := by
  intro outer fuel rest ho hℓ hf hfuel
  simp only [List.length_append, List.length_cons] at hfuel ⊢
  refine (hl outer fuel _ ho (Nat.le_trans hℓ hle) (follows_operator op _) (by omega)).trans ?_
  rintro _ ⟨left', n, rfl, hleft, hn⟩
  obtain ⟨n, rfl⟩ : ∃ m, n = m + 1 := ⟨n - 1, by omega⟩
  refine (operators_continues (bindsInside_of_rank_le ho hℓ)
    (h n left' rest hleft hf (by omega))).mono ?_
  rintro _ ⟨e', rfl, he⟩
  exact ⟨e', n, rfl, he, by omega⟩

section

variable {id : ExprId} {span : Span} {vs : Tokens}

theorem Taken.looser {ℓ : Stratum} {e : Expr} (h : Taken fits (.expr ℓ.tighter e) ts) :
    Taken fits (.expr ℓ e) ts := by
  have hle : ℓ.rank ≤ ℓ.tighter.rank := by cases ℓ <;> decide
  intro outer fuel rest ho hℓ hf hfuel
  exact h outer fuel rest ho (Nat.le_trans hℓ hle) (hf.mono hle) hfuel

/-- The operand behind an operator that groups operands. -/
theorem Taken.behind {ℓ : Stratum} {right : Expr} {fuel : Nat}
    (h : Taken fits (.expr ℓ right) ts) (op : Operator) (ho : op.level.rank ≤ Level.unary.rank)
    (hℓ : (stratumInside op.level).rank ≤ ℓ.rank) (hle : (made op).rank ≤ ℓ.rank)
    (hf : Follows (made op) rest) (hfuel : 8 * ts.length < fuel) :
    Takes fits (expression fuel op.level) ts rest fun e' => e'.bare = right.bare :=
  h.takes op.level ho hℓ (hf.mono hle) (fun k hk next hnext =>
    not_bindsInside_of_rank_le ho (hf k hk next hnext)) hfuel

theorem Taken.binary {op : BinaryOp} {left right : Expr}
    (hl : Taken fits (.expr (.ofBinary op) left) ts)
    (hr : Taken fits (.expr (Stratum.ofBinary op).tighter right) us) :
    Taken fits (.expr (.ofBinary op) ⟨id, span, .binary op left right⟩)
      (ts ++ .symbol (binarySymbol op) :: us) := by
  refine Taken.continues (.binary op) (Nat.le_refl _) hl fun n left' rest hleft hf hfuel => ?_
  refine .current rfl fun _ _ => .advance ((hr.behind (.binary op) ?_ ?_ ?_ hf hfuel).last
    fun right' hright => .pure fun id span => ?_)
  · cases op <;> decide
  · cases op <;> decide
  · cases op <;> decide
  · simp [Expr.bare, hleft, hright]

theorem Taken.logical {op : LogicalOp} {left right : Expr}
    (hl : Taken fits (.expr (.ofLogical op) left) ts)
    (hr : Taken fits (.expr (Stratum.ofLogical op).tighter right) us) :
    Taken fits (.expr (.ofLogical op) ⟨id, span, .logical op left right⟩)
      (ts ++ .keyword (logicalKeyword op) :: us) := by
  refine Taken.continues (.logical op) (Nat.le_refl _) hl fun n left' rest hleft hf hfuel => ?_
  refine .current rfl fun _ _ => .advance ((hr.behind (.logical op) ?_ ?_ ?_ hf hfuel).last
    fun right' hright => .pure fun id span => ?_)
  · cases op <;> decide
  · cases op <;> decide
  · cases op <;> decide
  · simp [Expr.bare, hleft, hright]

theorem Taken.ternary {condition yes no : Expr} (hc : Taken fits (.expr .or condition) ts)
    (hy : Taken fits (.expr .assignment yes) us) (hn : Taken fits (.expr .ternary no) vs) :
    Taken fits (.expr .ternary ⟨id, span, .ternary condition yes no⟩)
      (ts ++ .symbol .question :: (us ++ .symbol .colon :: vs)) := by
  refine Taken.continues .ternary (by decide) hc fun n left' rest hleft hf hfuel => ?_
  simp only [List.length_append, List.length_cons] at hfuel
  refine .current rfl fun _ _ => .advance ((hy.whole rfl (by omega)).bind fun yes' hyes =>
    .expect ((hn.behind .ternary (by decide) (by decide) (by decide) hf (by omega)).last
      fun no' hno => .pure fun id span => ?_))
  simp [Expr.bare, hleft, hyes, hno]

theorem Taken.index {array position : Expr} (ha : Taken fits (.expr .call array) ts)
    (hp : Taken fits (.expr .assignment position) us) :
    Taken fits (.expr .call ⟨id, span, .index array position⟩)
      (ts ++ .symbol .leftBracket :: (us ++ [.symbol .rightBracket])) := by
  refine Taken.continues .index (by decide) ha fun n left' rest hleft _ hfuel => ?_
  simp only [List.length_append, List.length_cons] at hfuel
  refine .current rfl fun _ _ => .advance ((hp.whole rfl (by omega)).bind fun position' hpos =>
    .expect (.pure fun id span => ?_))
  simp [Expr.bare, hleft, hpos]

theorem Taken.get {object : Expr} {property : Identifier}
    (ho : Taken fits (.expr .call object) ts) :
    Taken fits (.expr .call ⟨id, span, .get object property⟩)
      (ts ++ [.symbol .dot, .identifier property.name]) := by
  refine Taken.continues .property (by decide) ho fun n left' rest hleft _ _ => ?_
  refine .current rfl fun _ _ => .advance (.identifier fun name hname => .pure fun id span => ?_)
  simp [Expr.bare, hleft, hname]

theorem Taken.call {callee : Expr} {args : List Expr} (hc : Taken fits (.expr .call callee) ts)
    (ha : Taken fits (.items args) us) (hfits : fits args.length) :
    Taken fits (.expr .call ⟨id, span, .call callee args⟩)
      (ts ++ .symbol .leftParen :: (us ++ [.symbol .rightParen])) := by
  refine Taken.continues .call (by decide) hc fun n left' rest hleft _ hfuel => ?_
  simp only [List.length_append, List.length_cons] at hfuel
  have harguments : Takes fits (arguments (expression n .lowest) n)
      (.symbol .leftParen :: (us ++ [.symbol .rightParen])) rest
      fun args' => Expr.bares args' = Expr.bares args :=
    .advance ((ha .rightParen n n rest rfl (by omega) (by omega)).last fun args' hargs =>
      .reportSurplus (Expr.length_eq_of_bares_eq hargs ▸ hfits) (.pure hargs))
  refine .current rfl fun _ _ => harguments.last fun args' hargs => .pure fun id span => ?_
  simp [Expr.bare, hleft, hargs]

/-! ### Assignments -/

/-- An operand that is a target, the sign and a value. -/
theorem Taken.assignment {left value e : Expr} (hl : Taken fits (.expr .call left) ts)
    (hv : Taken fits (.expr .assignment value) us)
    (h : ∀ left' value' span, left'.bare = left.bare → value'.bare = value.bare →
      ∃ node, Parser.assignment left' value' span = pure node ∧
        ∀ id span, Expr.bare ⟨id, span, node⟩ = e.bare) :
    Taken fits (.expr .assignment e) (ts ++ .symbol .equal :: us) := by
  refine Taken.continues .assign (by decide) hl fun n left' rest hleft hf hfuel => ?_
  refine .current rfl fun t _ => .advance ((hv.behind .assign (by decide) (by decide)
    (by decide) hf hfuel).last fun value' hvalue => ?_)
  obtain ⟨node, hnode, hbare⟩ := h left' value' t.span hleft hvalue
  rw [hnode]
  exact .pure hbare

theorem Taken.indexSet {array position value : Expr} (ha : Taken fits (.expr .call array) ts)
    (hp : Taken fits (.expr .assignment position) us)
    (hv : Taken fits (.expr .assignment value) vs) :
    Taken fits (.expr .assignment ⟨id, span, .indexSet array position value⟩)
      (ts ++ .symbol .leftBracket :: (us ++ .symbol .rightBracket :: .symbol .equal :: vs)) := by
  have hleft : Taken fits (.expr .call ⟨id, span, .index array position⟩) _ := ha.index hp
  have := hleft.assignment (e := ⟨id, span, .indexSet array position value⟩) hv ?_
  · simpa using this
  · intro left' value' operator hleft hvalue
    obtain ⟨array', position', hnode, harray, hpos⟩ := Expr.exists_of_bare_eq_index hleft
    refine ⟨.indexSet array' position' value', ?_, fun id span => ?_⟩
    · rw [Parser.assignment, hnode]
    · simp [Expr.bare, harray, hpos, hvalue]

theorem Taken.set {object value : Expr} {property : Identifier}
    (ho : Taken fits (.expr .call object) ts) (hv : Taken fits (.expr .assignment value) us) :
    Taken fits (.expr .assignment ⟨id, span, .set object property value⟩)
      (ts ++ .symbol .dot :: .identifier property.name :: .symbol .equal :: us) := by
  have hleft : Taken fits (.expr .call ⟨id, span, .get object property⟩) _ := ho.get
  have := hleft.assignment (e := ⟨id, span, .set object property value⟩) hv ?_
  · simpa using this
  · intro left' value' operator hleft hvalue
    obtain ⟨object', property', hnode, hobject, hproperty⟩ := Expr.exists_of_bare_eq_get hleft
    refine ⟨.set object' property' value', ?_, fun id span => ?_⟩
    · rw [Parser.assignment, hnode]
    · simp [Expr.bare, hobject, hproperty, hvalue]

/-! ### Operands -/

theorem unaryOp?_unarySymbol (op : UnaryOp) : unaryOp? (.symbol (unarySymbol op)) = some op := by
  cases op <;> rfl

theorem Taken.unary {op : UnaryOp} {operand : Expr} (h : Taken fits (.expr .unary operand) ts) :
    Taken fits (.expr .unary ⟨id, span, .unary op operand⟩) (.symbol (unarySymbol op) :: ts) := by
  intro outer fuel rest ho hℓ hf hfuel
  rw [List.length_cons] at hfuel ⊢
  obtain ⟨n, rfl⟩ : ∃ n, fuel = n + 1 := ⟨fuel - 1, by omega⟩
  refine Arrives.current (k := .symbol (unarySymbol op)) rfl fun t ht => ?_
  rw [ht, unaryOp?_unarySymbol]
  have hoperand : Takes fits (expression n .unary) ts rest _ := h.takes .unary (by decide) (by decide) hf
    (fun k hk next hnext => not_bindsInside_unary (hf k hk next hnext)) (by omega)
  refine .advance (hoperand.last fun operand' hoperand' => .expr fun id span => .refl ?_)
  exact ⟨_, n, rfl, by simp [Expr.bare, hoperand'], by omega⟩

/-- An operand by its first token. -/
theorem Taken.primary {e : Expr} {k : Token.Kind} (hk : unaryOp? k = none)
    (h : ∀ fuel rest (t : Token), t.kind = k → 8 * ts.length + 8 ≤ fuel →
      Takes fits (primaryNode (expression fuel .lowest) (block fuel) fuel t) ts rest
        fun node => ∀ id span, Expr.bare ⟨id, span, node⟩ = e.bare) :
    Taken fits (.expr .primary e) (k :: ts) := by
  intro outer fuel rest ho hℓ hf hfuel
  rw [List.length_cons] at hfuel ⊢
  obtain ⟨n, rfl⟩ : ∃ n, fuel = n + 1 := ⟨fuel - 1, by omega⟩
  have hprimary : Takes fits (Parser.primary (expression n .lowest) (block n) n) (k :: ts) rest
      fun e' => e'.bare = e.bare := by
    rw [primary_eq]
    refine .next fun t ht => (h n rest t ht (by omega)).last fun node hnode => ?_
    exact Takes.expr hnode
  refine Arrives.current (k := k) rfl fun t ht => ?_
  rw [ht, hk]
  exact hprimary.last fun e' he => .refl ⟨e', n, rfl, he, by omega⟩

/-- An operand of one token. -/
theorem Taken.token {e : Expr} {k : Token.Kind} (hk : unaryOp? k = none)
    (h : ∀ expression body fuel (t : Token), t.kind = k →
      ∃ node, primaryNode expression body fuel t = pure node ∧
        ∀ id span, Expr.bare ⟨id, span, node⟩ = e.bare) :
    Taken fits (.expr .primary e) [k] := by
  refine .primary hk fun fuel rest t ht _ => ?_
  obtain ⟨node, hnode, he⟩ := h (expression fuel .lowest) (block fuel) fuel t ht
  rw [hnode]
  exact .pure he

theorem Taken.variable {name : Identifier} :
    Taken fits (.expr .primary ⟨id, span, .variable name⟩) [.identifier name.name] :=
  .token rfl fun _ _ _ t ht =>
    ⟨.variable ⟨name.name, t.span⟩, by rw [primaryNode, ht], fun _ _ => rfl⟩

theorem Taken.assign {name : Identifier} {value : Expr}
    (hv : Taken fits (.expr .assignment value) ts) :
    Taken fits (.expr .assignment ⟨id, span, .assign name value⟩)
      (.identifier name.name :: .symbol .equal :: ts) := by
  have hname : Taken fits (.expr .call ⟨id, span, .variable name⟩) [.identifier name.name] :=
    .looser .variable
  refine hname.assignment hv fun left' value' operator hleft hvalue => ?_
  obtain ⟨name', hnode, hname⟩ := Expr.exists_of_bare_eq_variable hleft
  refine ⟨.assign name' value', ?_, fun id span => ?_⟩
  · rw [Parser.assignment, hnode]
  · simp [Expr.bare, hname, hvalue]

theorem Taken.super {name : Identifier} :
    Taken fits (.expr .primary ⟨id, span, .super name⟩)
      [.keyword .super, .symbol .dot, .identifier name.name] := by
  refine .primary rfl fun fuel rest t ht _ => ?_
  rw [primaryNode, ht]
  refine .expect (.identifier fun name' hname => .pure fun id span => ?_)
  simp [Expr.bare, hname]

theorem Taken.group {inner : Expr} (h : Taken fits (.expr .assignment inner) ts) :
    Taken fits (.expr .primary ⟨id, span, .group inner⟩)
      (.symbol .leftParen :: (ts ++ [.symbol .rightParen])) := by
  refine .primary rfl fun fuel rest t ht hfuel => ?_
  rw [List.length_append] at hfuel
  rw [primaryNode, ht]
  refine (h.whole rfl (by omega)).bind fun inner' hinner => .expect (.pure fun id span => ?_)
  simp [Expr.bare, hinner]

theorem Taken.array {elements : List Expr} (h : Taken fits (.items elements) ts) :
    Taken fits (.expr .primary ⟨id, span, .array elements⟩)
      (.symbol .leftBracket :: (ts ++ [.symbol .rightBracket])) := by
  refine .primary rfl fun fuel rest t ht hfuel => ?_
  rw [List.length_append] at hfuel
  rw [primaryNode, ht]
  refine .map ((h .rightBracket fuel fuel rest rfl (by omega) (by omega)).mono fun es hes id span => ?_)
  simp [Expr.bare, hes]

end

/-! ## Lists -/

theorem ne_of_starts {first : Token.Kind → Bool} {k k' : Token.Kind} (h : first k = true)
    (h' : first k' = false) : k ≠ k' := by
  rintro rfl
  rw [h] at h'
  cases h'

theorem ne_closing {k : Token.Kind} {close : Symbol} (h : startsExpression k = true)
    (hc : closes close = true) : k ≠ .symbol close :=
  ne_of_starts h (by cases close <;> first | rfl | cases hc)

theorem endsExpression_closing {close : Symbol} (hc : closes close = true) :
    endsExpression (.symbol close) = true := by
  cases close <;> first | rfl | cases hc

/-- What comes behind an item ends it. -/
theorem starts_behind_item {es : List Expr} {close : Symbol}
    (h : Derives fits (.furtherItems es) ts) (hc : closes close = true) :
    Starts endsExpression (ts ++ .symbol close :: rest) := by
  cases h with
  | noFurtherItems => exact ⟨_, _, rfl, endsExpression_closing hc⟩
  | someFurtherItems => exact ⟨_, _, rfl, rfl⟩

section

variable {e : Expr} {es : List Expr}

theorem Taken.noItems : Taken fits (.items []) [] :=
  fun _ _ _ _ _ _ _ => .skipSymbol (.pure rfl)

theorem Taken.noFurtherItems : Taken fits (.furtherItems []) [] := by
  intro close fuel n rest hc hfuel hn
  obtain ⟨n, rfl⟩ : ∃ m, n = m + 1 := ⟨n - 1, by omega⟩
  exact .skipSymbol (.pure rfl)

/-- An item and those behind it. -/
theorem Taken.further {close : Symbol} {fuel n : Nat} (he : Taken fits (.expr .assignment e) ts)
    (hd : Derives fits (.furtherItems es) us) (hes : Taken fits (.furtherItems es) us)
    (hc : closes close = true) (hfuel : 8 * (ts.length + us.length) < fuel) (hn : us.length < n) :
    Takes fits (do
        let x ← expression fuel .lowest
        return x :: (← commaSeparatedTail close (expression fuel .lowest) n))
      ((ts ++ us) ++ [.symbol close]) rest fun es' => Expr.bares es' = Expr.bares (e :: es) := by
  obtain ⟨k, vs, hvs, hk⟩ : Starts endsExpression (us ++ .symbol close :: rest) :=
    starts_behind_item hd hc
  have hwhole : Takes fits (expression fuel .lowest) ts (k :: vs) _ := he.whole hk (by omega)
  rw [← hvs] at hwhole
  rw [List.append_assoc]
  refine Takes.bind (P := fun e' => e'.bare = e.bare) (by simpa using hwhole) fun e' he' => ?_
  refine (hes close fuel n rest hc (by omega) hn).last fun es' hes' => .pure ?_
  rw [Expr.bares, Expr.bares, he', hes']

theorem Taken.someItems (hs : Starts startsExpression ts)
    (he : Taken fits (.expr .assignment e) ts) (hd : Derives fits (.furtherItems es) us)
    (hes : Taken fits (.furtherItems es) us) : Taken fits (.items (e :: es)) (ts ++ us) := by
  intro close fuel n rest hc hfuel hn
  rw [List.length_append] at hfuel hn
  obtain ⟨k, vs, rfl, hk⟩ := hs
  exact .noSymbol rfl (ne_closing hk hc) (Taken.further he hd hes hc hfuel (by omega))

theorem Taken.someFurtherItems (he : Taken fits (.expr .assignment e) ts)
    (hd : Derives fits (.furtherItems es) us) (hes : Taken fits (.furtherItems es) us) :
    Taken fits (.furtherItems (e :: es)) (.symbol .comma :: (ts ++ us)) := by
  intro close fuel n rest hc hfuel hn
  rw [List.length_cons, List.length_append] at hfuel hn
  obtain ⟨n, rfl⟩ : ∃ m, n = m + 1 := ⟨n - 1, by omega⟩
  have hne : (.symbol .comma : Token.Kind) ≠ .symbol close := by cases close <;> simp_all [closes]
  exact .noSymbol rfl hne (.expect (Taken.further he hd hes hc (by omega) (by omega)))

theorem Taken.absent : Taken fits (.optional none) [] := by
  intro close fuel rest hc hfuel
  refine Arrives.atSymbol (k := .symbol close) rfl ?_
  rw [isSymbol_iff.2 rfl]
  exact .pure rfl

theorem Taken.present (hs : Starts startsExpression ts) (he : Taken fits (.expr .assignment e) ts) :
    Taken fits (.optional (some e)) ts := by
  intro close fuel rest hc hfuel
  have hwhole : Takes fits (expression fuel .lowest) ts (.symbol close :: rest) _ :=
    he.whole (endsExpression_closing hc) hfuel
  obtain ⟨k, vs, rfl, hk⟩ := hs
  refine Arrives.atSymbol (k := k) rfl ?_
  rw [Bool.eq_false_iff.2 fun h => ne_closing hk hc (isSymbol_iff.1 h)]
  exact Takes.map (hwhole.mono fun e' he' => by simp [he'])

end

/-! ## Functions and their owners -/

theorem takes_furtherNames {close : Symbol} {otherwise : ParseErrorKind} (hc : closes close = true)
    (params : List Identifier) (n : Nat) (hn : params.length < n) :
    Takes fits (commaSeparatedTail close (identifier otherwise) n)
      ((params.flatMap fun other => [.symbol .comma, .identifier other.name]) ++ [.symbol close])
      rest fun params' => params'.map Identifier.bare = params.map Identifier.bare := by
  induction params generalizing n with
  | nil =>
    obtain ⟨n, rfl⟩ : ∃ m, n = m + 1 := ⟨n - 1, by simp at hn; omega⟩
    exact .skipSymbol (.pure rfl)
  | cons name params ih =>
    rw [List.length_cons] at hn
    obtain ⟨n, rfl⟩ : ∃ m, n = m + 1 := ⟨n - 1, by omega⟩
    have hne : (.symbol .comma : Token.Kind) ≠ .symbol close := by
      cases close <;> simp_all [closes]
    refine .noSymbol rfl hne (.expect (.identifier fun name' hname => ?_))
    refine (ih n (by omega)).last fun params' hparams => .pure ?_
    rw [List.map_cons, List.map_cons, hname, hparams]

theorem length_le_length_names (params : List Identifier) :
    params.length ≤ (names params).length := by
  cases params with
  | nil => exact Nat.le_refl _
  | cons name params =>
    have : params.length ≤
        (params.flatMap fun other => [.symbol .comma, .identifier other.name] : Tokens).length := by
      induction params with
      | nil => exact Nat.le_refl _
      | cons other params ih => simp only [List.flatMap_cons, List.length_append,
          List.length_cons, List.length_nil] at ih ⊢; omega
    simpa [names] using this

/-- The parameters of a function, in parentheses. -/
theorem Arrives.parameters {params : List Identifier} {n : Nat} {f : List Identifier → Rule α}
    {R : Rule α → Prop} (hfits : fits params.length) (hn : (names params).length < n)
    (h : ∀ params' : List Identifier, params'.map Identifier.bare = params.map Identifier.bare →
      Arrives fits (f params') ts rest R) :
    Arrives fits (parameters n >>= f)
      (.symbol .leftParen :: (names params ++ .symbol .rightParen :: ts)) rest R := by
  have hlist : Takes fits (commaSeparated .rightParen (Parser.identifier .expectedIdentifier) n)
      (names params ++ [.symbol .rightParen]) (ts ++ rest)
      fun params' => params'.map Identifier.bare = params.map Identifier.bare := by
    have hlen := length_le_length_names params
    cases params with
    | nil => exact .skipSymbol (.pure rfl)
    | cons name params =>
      rw [List.length_cons] at hlen
      refine .noSymbol rfl (by simp) (.identifier fun name' hname => ?_)
      refine (takes_furtherNames rfl params n (by omega)).last fun params' hparams => .pure ?_
      rw [List.map_cons, List.map_cons, hname, hparams]
  have hparameters : Takes fits (Parser.parameters n)
      (.symbol .leftParen :: (names params ++ [.symbol .rightParen])) (ts ++ rest)
      fun params' => params'.map Identifier.bare = params.map Identifier.bare := by
    refine .expect (hlist.last fun params' hparams => .reportSurplus ?_ (.pure hparams))
    have hlen : params'.length = params.length := by simpa using congrArg List.length hparams
    rwa [hlen]
  simpa using hparameters.bind h

variable {body : List Stmt}

/-- Statements and the brace that closes them. -/
theorem Arrives.block {fuel : Nat} {f : List Stmt → Rule α} {R : Rule α → Prop}
    (hb : Taken fits (.declarations body) ts) (hfuel : 8 * ts.length + 3 < fuel)
    (h : ∀ body', Stmt.bares body' = Stmt.bares body → Arrives fits (f body') us rest R) :
    Arrives fits (block fuel >>= f) (ts ++ .symbol .rightBrace :: us) rest R := by
  obtain ⟨n, rfl⟩ : ∃ n, fuel = n + 1 := ⟨fuel - 1, by omega⟩
  have hblock := (hb n n (by omega) (by omega)).1 (us ++ rest)
  simpa using Takes.bind (x := Parser.block (n + 1)) hblock h

section

variable {id : ExprId} {span nameSpan bodySpan : Span} {name : Identifier}
  {params : List Identifier}

theorem Taken.lambda (hfits : fits params.length) (hb : Taken fits (.declarations body) ts) :
    Taken fits (.expr .primary
        ⟨id, span, .lambda ⟨⟨Name.lambda, nameSpan⟩, params, body, false, bodySpan⟩⟩)
      (.keyword .fun :: .symbol .leftParen :: (names params ++ .symbol .rightParen ::
        .symbol .leftBrace :: (ts ++ [.symbol .rightBrace]))) := by
  refine .primary rfl fun fuel rest t ht hfuel => ?_
  simp only [List.length_append, List.length_cons] at hfuel
  rw [primaryNode, ht]
  refine .parameters hfits (by omega) fun params' hparams => .expect (.block hb (by omega)
    fun body' hbody => .spanFrom fun span' => .pure fun id span => ?_)
  simp [Expr.bare, Function.bare, Identifier.bare, hparams, hbody]

theorem Taken.function {isMember : Bool} (hfits : fits params.length)
    (hb : Taken fits (.declarations body) ts) :
    Taken fits (.function isMember ⟨name, params, body, false, span⟩)
      (.identifier name.name :: .symbol .leftParen :: (names params ++ .symbol .rightParen ::
        .symbol .leftBrace :: (ts ++ [.symbol .rightBrace]))) := by
  intro fuel n rest hfuel hn
  simp only [List.length_append, List.length_cons] at hfuel hn
  refine Arrives.current rfl fun t _ => .identifier fun name' hname =>
    .atSymbol (k := .symbol .leftParen) rfl ?_
  rw [show (isMember && (Token.Kind.symbol .leftParen).isSymbol .leftBrace) = false by
    cases isMember <;> rfl]
  refine .parameters hfits (by omega) fun params' hparams => .expect (.block hb (by omega)
    fun body' hbody => .spanFrom fun span' => .pure ?_)
  simp [Function.bare, hname, hparams, hbody]

theorem Taken.getter (hb : Taken fits (.declarations body) ts) :
    Taken fits (.function true ⟨name, [], body, true, span⟩)
      (.identifier name.name :: .symbol .leftBrace :: (ts ++ [.symbol .rightBrace])) := by
  intro fuel n rest hfuel hn
  simp only [List.length_append, List.length_cons] at hfuel
  refine Arrives.current rfl fun t _ => .identifier fun name' hname =>
    .atSymbol (k := .symbol .leftBrace) rfl ?_
  refine .expect (.block hb (by omega) fun body' hbody => .spanFrom fun span' => .pure ?_)
  simp [Function.bare, hname, hbody, Token.Kind.isSymbol]

variable {f : Function} {methods statics : List Function}

theorem Taken.noMembers : Taken fits (.members [] []) [] := by
  intro fuel k n rest hfuel hk hn
  obtain ⟨n, rfl⟩ : ∃ m, n = m + 1 := ⟨n - 1, by omega⟩
  exact .skipSymbol (.pure ⟨rfl, rfl⟩)

theorem Taken.method (hs : Starts startsFunction ts) (hf : Taken fits (.function true f) ts)
    (hfs : Taken fits (.members methods statics) us) :
    Taken fits (.members (f :: methods) statics) (ts ++ us) := by
  intro fuel k n rest hfuel hk hn
  rw [List.length_append] at hfuel hk hn
  obtain ⟨n, rfl⟩ : ∃ m, n = m + 1 := ⟨n - 1, by omega⟩
  obtain ⟨first, vs, rfl, hfirst⟩ := hs
  rw [List.length_cons] at hn
  refine .noSymbol (k := first) rfl (ne_of_starts hfirst rfl) (.atEnd (k := first) rfl ?_)
  rw [Bool.eq_false_iff.2 fun h => ne_of_starts hfirst rfl ((Token.isEndOfFile_iff _).1 h)]
  refine .noKeyword (k := first) rfl (ne_of_starts hfirst rfl) ?_
  rw [List.append_assoc]
  refine (hf fuel k _ (by omega) (by omega)).bind fun f' hf' =>
    (hfs fuel k n rest (by omega) (by omega) (by omega)).last fun fs ⟨hm, hst⟩ => .pure ?_
  exact ⟨by rw [Function.bares, Function.bares, hf', hm], hst⟩

theorem Taken.static (hf : Taken fits (.function true f) ts)
    (hfs : Taken fits (.members methods statics) us) :
    Taken fits (.members methods (f :: statics)) (.keyword .klass :: (ts ++ us)) := by
  intro fuel k n rest hfuel hk hn
  rw [List.length_cons, List.length_append] at hfuel hk hn
  obtain ⟨n, rfl⟩ : ∃ m, n = m + 1 := ⟨n - 1, by omega⟩
  rw [List.cons_append, List.append_assoc]
  refine .noSymbol (k := .keyword .klass) rfl (by simp) (.atEnd (k := .keyword .klass) rfl
    (.skipKeyword ?_))
  refine (hf fuel k _ (by omega) (by omega)).bind fun f' hf' =>
    (hfs fuel k n rest (by omega) (by omega) (by omega)).last fun fs ⟨hm, hst⟩ => .pure ?_
  exact ⟨hm, by rw [Function.bares, Function.bares, hf', hst]⟩

end

/-! ## Declarations -/

theorem bare_mk {r : Reference} {id : ExprId} {name : Identifier} (h : name.bare = r.name.bare) :
    Reference.bare ⟨id, name⟩ = r.bare := by
  rw [Reference.bare, Reference.bare, h]

theorem Arrives.reference {r : Reference} {otherwise : ParseErrorKind} {f : Reference → Rule α}
    {R : Rule α → Prop} (h : ∀ r', Reference.bare r' = r.bare → Arrives fits (f r') ts rest R) :
    Arrives fits (reference otherwise >>= f) (.identifier r.name.name :: ts) rest R := by
  have hreference : Takes fits (Parser.reference otherwise) [.identifier r.name.name] (ts ++ rest)
      fun r' => r'.bare = r.bare :=
    .identifier fun name hname => .freshId fun id => .pure (bare_mk hname)
  exact hreference.bind h

theorem takes_traitNames (r : Reference) (rs : List Reference) (n : Nat) (hn : rs.length < n)
    (hrest : rest.head? ≠ some (.symbol .comma)) :
    Takes fits (traitNames n) (names ((r :: rs).map Reference.name)) rest fun rs' =>
      rs'.map Reference.bare = (r :: rs).map Reference.bare := by
  induction rs generalizing r n with
  | nil =>
    obtain ⟨n, rfl⟩ : ∃ m, n = m + 1 := ⟨n - 1, by simp at hn; omega⟩
    refine .reference fun r' hr' => ?_
    cases rest with
    | nil => exact fun h => absurd rfl h
    | cons k rest =>
      refine .noSymbol (k := k) rfl (by simpa using hrest) (.pure ?_)
      rw [List.map_singleton, List.map_singleton, hr']
  | cons r₂ rs ih =>
    rw [List.length_cons] at hn
    obtain ⟨n, rfl⟩ : ∃ m, n = m + 1 := ⟨n - 1, by omega⟩
    refine .reference fun r' hr' => .skipSymbol ((ih r₂ n (by omega)).last fun rs' hrs' => .pure ?_)
    rw [List.map_cons, List.map_cons, hr', hrs']

theorem Arrives.superclassClause {superclass : Option Reference} {k : Token.Kind}
    {f : Option Reference → Rule α} {R : Rule α → Prop}
    (hk : (ts ++ rest).head? = some k) (hne : k ≠ .symbol .less)
    (h : ∀ superclass' : Option Reference,
      superclass'.map Reference.bare = superclass.map Reference.bare →
        Arrives fits (f superclass') ts rest R) :
    Arrives fits (superclassClause >>= f) (extending superclass ++ ts) rest R := by
  refine Takes.bind (P := fun superclass' : Option Reference =>
    superclass'.map Reference.bare = superclass.map Reference.bare) ?_ h
  cases superclass with
  | none => exact .noSymbol hk hne (.pure rfl)
  | some r =>
    refine .skipSymbol (Takes.map ?_)
    rw [← bind_pure (Parser.reference _)]
    exact Arrives.reference fun r' hr' => .pure (by simp [hr'])

theorem Arrives.traitsClause {traits : List Reference} {n : Nat} {k : Token.Kind}
    {f : List Reference → Rule α} {R : Rule α → Prop} (hn : (composing traits).length < n)
    (hk : (ts ++ rest).head? = some k) (hne : k ≠ .symbol .diamond) (hne' : k ≠ .symbol .comma)
    (h : ∀ traits' : List Reference, traits'.map Reference.bare = traits.map Reference.bare →
      Arrives fits (f traits') ts rest R) :
    Arrives fits (traitsClause n >>= f) (composing traits ++ ts) rest R := by
  refine Takes.bind (P := fun traits' : List Reference =>
    traits'.map Reference.bare = traits.map Reference.bare) ?_ h
  cases traits with
  | nil => exact .noSymbol hk hne (.pure rfl)
  | cons r rs =>
    have hlen := length_le_length_names ((r :: rs).map Reference.name)
    simp only [composing, List.length_cons, List.length_map] at hn hlen
    exact .skipSymbol (takes_traitNames r rs n (by omega) (by simpa [hk] using hne'))

section

variable {span : Span} {name : Identifier} {e : Expr}

theorem takes_declaration {k : Token.Kind} {node : Nat → Rule Stmt.Node} {s : Stmt}
    (hk : ∀ n (t : State), t.current.kind = k → declaration (n + 1) t = stmt (node n) t)
    (h : ∀ n rest, 8 * ts.length + 9 < n →
      Takes fits (node n) (k :: ts) rest fun node => ∀ span, Stmt.bare ⟨span, node⟩ = s.bare) :
    Taken fits (.declaration s) (k :: ts) := by
  intro fuel rest hfuel _
  rw [List.length_cons] at hfuel
  obtain ⟨n, rfl⟩ : ∃ n, fuel = n + 1 := ⟨fuel - 1, by omega⟩
  exact .congr (k := k) rfl (hk n) (Takes.stmt (h n rest (by omega)))

theorem declaration_apply (n : Nat) (s : State) :
    declaration (n + 1) s = (match s.current.kind with
      | .keyword .var => stmt (varDecl (expression n .lowest))
      | .keyword .fun => stmt (funDecl (block n) n)
      | .keyword .klass => stmt (classDecl (block n) n)
      | .keyword .trait => stmt (traitDecl (block n) n)
      | _ => statement n : Rule Stmt) s := rfl

theorem Taken.var : Taken fits (.declaration ⟨span, .varDecl name none⟩)
    [.keyword .var, .identifier name.name, .symbol .semicolon] := by
  refine takes_declaration (fun n t ht => by rw [declaration_apply, ht]) fun n rest _ => ?_
  refine .advance (.identifier fun name' hname =>
    .noSymbol (k := .symbol .semicolon) rfl (by simp) (.expect (.pure fun span => ?_)))
  rw [Stmt.bare_varDecl, Stmt.bare_varDecl, hname]

theorem Taken.varInit (he : Taken fits (.expr .assignment e) ts) :
    Taken fits (.declaration ⟨span, .varDecl name (some e)⟩)
      (.keyword .var :: .identifier name.name :: .symbol .equal ::
        (ts ++ [.symbol .semicolon])) := by
  refine takes_declaration (fun n t ht => by rw [declaration_apply, ht]) fun n rest hfuel => ?_
  simp only [List.length_append, List.length_cons] at hfuel
  have hinit : Takes fits (some <$> expression n .lowest) ts (.symbol .semicolon :: rest)
      fun init => init.map Expr.bare = some e.bare :=
    .map ((he.whole rfl (by omega)).mono fun e' he' => by simp [he'])
  refine .advance (.identifier fun name' hname => .skipSymbol (hinit.bind fun init hinit' =>
    .expect (.pure fun span => ?_)))
  rw [Stmt.bare_varDecl, Stmt.bare_varDecl, hname, hinit', Option.map_some]

theorem Taken.fun {f : Function} (hf : Taken fits (.function false f) ts) :
    Taken fits (.declaration ⟨span, .funDecl f⟩) (.keyword .fun :: ts) := by
  refine takes_declaration (fun n t ht => by rw [declaration_apply, ht]) fun n rest hfuel => ?_
  refine .advance ((hf n n rest (by omega) (by omega)).last fun f' hf' => .pure fun span => ?_)
  simp [Stmt.bare, hf']

variable {methods statics : List Function}

theorem Taken.class {superclass : Option Reference} {traits : List Reference}
    (h : Taken fits (.members methods statics) ts) :
    Taken fits (.declaration ⟨span, .classDecl name superclass traits methods statics⟩)
      (.keyword .klass :: .identifier name.name :: (extending superclass ++
        (composing traits ++ .symbol .leftBrace :: (ts ++ [.symbol .rightBrace])))) := by
  refine takes_declaration (fun n t ht => by rw [declaration_apply, ht]) fun n rest hfuel => ?_
  simp only [List.length_append, List.length_cons] at hfuel
  rw [classDecl_eq]
  obtain ⟨k, hk, hless⟩ : ∃ k : Token.Kind, ((composing traits ++ (.symbol .leftBrace ::
      (ts ++ [.symbol .rightBrace]) : Tokens)) ++ rest).head? = some k ∧ k ≠ .symbol .less := by
    cases traits with
    | nil => exact ⟨.symbol .leftBrace, rfl, by simp⟩
    | cons r rs => exact ⟨.symbol .diamond, rfl, by simp⟩
  refine .advance (.identifier fun name' hname => .superclassClause hk hless fun superclass' hs =>
    .traitsClause (k := .symbol .leftBrace) (by omega) rfl (by simp) (by simp) fun traits' ht =>
      .expect ((h n n n rest (by omega) (by omega) (by omega)).last fun fs ⟨hm, hst⟩ =>
        .pure fun span => ?_))
  simp [Stmt.bare, hname, hs, ht, hm, hst]

theorem Taken.trait (h : Taken fits (.members methods statics) ts) :
    Taken fits (.declaration ⟨span, .traitDecl name methods statics⟩)
      (.keyword .trait :: .identifier name.name :: .symbol .leftBrace ::
        (ts ++ [.symbol .rightBrace])) := by
  refine takes_declaration (fun n t ht => by rw [declaration_apply, ht]) fun n rest hfuel => ?_
  simp only [List.length_append, List.length_cons] at hfuel
  refine .advance (.identifier fun name' hname => .expect
    ((h n n n rest (by omega) (by omega) (by omega)).last fun fs ⟨hm, hst⟩ =>
      .pure fun span => ?_))
  simp [Stmt.bare, hname, hm, hst]

end

/-! ## Statements -/

section

variable {span : Span} {e : Expr} {body yes no : Stmt}

theorem statement_apply (n : Nat) (s : State) :
    statement (n + 1) s = (match s.current.kind with
      | .keyword .print => stmt (printStmt (expression n .lowest))
      | .keyword .if => stmt (ifStmt (expression n .lowest) (statement n))
      | .keyword .while => stmt (whileStmt (expression n .lowest) (statement n))
      | .keyword .for => stmt (forStmt (expression n .lowest) (statement n))
      | .keyword .return => stmt (returnStmt (expression n .lowest))
      | .keyword .break => stmt (loopControl .break)
      | .keyword .continue => stmt (loopControl .continue)
      | .symbol .leftBrace => stmt (do advance; return .block (← block n))
      | _ => stmt (expressionStmt (expression n .lowest)) : Rule Stmt) s := rfl

theorem statement_of_startsExpression {n : Nat} {s : State} {k : Token.Kind}
    (hk : startsExpression k = true) (hs : s.current.kind = k) :
    statement (n + 1) s = stmt (expressionStmt (expression n .lowest)) s := by
  rw [statement_apply, hs]
  unfold startsExpression at hk
  split at hk <;> first | rfl | cases hk

theorem declaration_of_startsStatement {n : Nat} {s : State} {k : Token.Kind}
    (hk : startsStatement k = true) (hne : k ≠ .keyword .fun) (hs : s.current.kind = k) :
    declaration (n + 1) s = statement n s := by
  rw [declaration_apply, hs]
  split
  · cases hk
  · exact absurd rfl hne
  · cases hk
  · cases hk
  · rfl

theorem takes_statement {k : Token.Kind} {node : Nat → Rule Stmt.Node} {s : Stmt}
    (hk : ∀ n (t : State), t.current.kind = k → statement (n + 1) t = stmt (node n) t)
    (h : ∀ n rest, 8 * ts.length + 8 < n →
      (isOpen s = true → rest.head? ≠ some (.keyword .else)) →
      Takes fits (node n) (k :: ts) rest fun node => ∀ span, Stmt.bare ⟨span, node⟩ = s.bare) :
    Taken fits (.statement s) (k :: ts) := by
  intro fuel rest hfuel helse
  rw [List.length_cons] at hfuel
  obtain ⟨n, rfl⟩ : ∃ n, fuel = n + 1 := ⟨fuel - 1, by omega⟩
  exact .congr (k := k) rfl (hk n) (Takes.stmt (h n rest (by omega) helse))

/-- An expression and its semicolon. -/
theorem takes_expressionStmt {n : Nat} (he : Taken fits (.expr .assignment e) ts)
    (hn : 8 * ts.length < n) :
    Takes fits (stmt (expressionStmt (expression n .lowest))) (ts ++ [.symbol .semicolon]) rest
      fun s => s.bare = Stmt.bare ⟨span, .expression e⟩ := by
  refine .stmt ((he.whole rfl hn).bind fun e' he' => .expect (.pure fun span => ?_))
  simp [Stmt.bare, he']

theorem Taken.expression (hs : Starts startsExpression ts)
    (he : Taken fits (.expr .assignment e) ts) :
    Taken fits (.statement ⟨span, .expression e⟩) (ts ++ [.symbol .semicolon]) := by
  intro fuel rest hfuel _
  rw [List.length_append] at hfuel
  obtain ⟨n, rfl⟩ : ∃ n, fuel = n + 1 := ⟨fuel - 1, by omega⟩
  have hstmt : Takes fits (stmt (expressionStmt (Parser.expression n .lowest)))
      (ts ++ [.symbol .semicolon]) rest fun s => s.bare = Stmt.bare ⟨span, .expression e⟩ :=
    takes_expressionStmt he (by omega)
  obtain ⟨k, us, rfl, hk⟩ := hs
  exact .congr (k := k) rfl (fun s hs => statement_of_startsExpression hk hs) hstmt

theorem Taken.print (he : Taken fits (.expr .assignment e) ts) :
    Taken fits (.statement ⟨span, .print e⟩)
      (.keyword .print :: (ts ++ [.symbol .semicolon])) := by
  refine takes_statement (fun n t ht => by rw [statement_apply, ht]) fun n rest hfuel _ => ?_
  rw [List.length_append] at hfuel
  refine .advance ((he.whole rfl (by omega)).bind fun e' he' => .expect (.pure fun span => ?_))
  simp [Stmt.bare, he']

theorem Taken.block {ss : List Stmt} (h : Taken fits (.declarations ss) ts) :
    Taken fits (.statement ⟨span, .block ss⟩)
      (.symbol .leftBrace :: (ts ++ [.symbol .rightBrace])) := by
  refine takes_statement (fun n t ht => by rw [statement_apply, ht]) fun n rest hfuel _ => ?_
  rw [List.length_append] at hfuel
  refine .advance (.block h (by omega) fun ss' hss' => .pure fun span => ?_)
  simp [Stmt.bare, hss']

theorem Taken.ifOnly (hc : Taken fits (.expr .assignment e) ts)
    (hy : Taken fits (.statement yes) us) :
    Taken fits (.statement ⟨span, .ifElse e yes none⟩)
      (.keyword .if :: .symbol .leftParen :: (ts ++ .symbol .rightParen :: us)) := by
  refine takes_statement (fun n t ht => by rw [statement_apply, ht]) fun n rest hfuel helse => ?_
  simp only [List.length_append, List.length_cons] at hfuel
  refine .advance (.expect ((hc.whole rfl (by omega)).bind fun e' he' => .expect
    ((hy n rest (by omega) fun _ => helse rfl).last fun yes' hyes => ?_)))
  cases rest with
  | nil => exact fun h => absurd rfl h
  | cons k rest =>
    refine .noKeyword (k := k) rfl (by simpa using helse rfl) (.pure fun span => ?_)
    rw [Stmt.bare_ifElse, Stmt.bare_ifElse, he', hyes]

theorem Taken.ifElse (hc : Taken fits (.expr .assignment e) ts)
    (hy : Taken fits (.statement yes) us) (hclosed : isOpen yes = false)
    (hn : Taken fits (.statement no) vs) :
    Taken fits (.statement ⟨span, .ifElse e yes (some no)⟩)
      (.keyword .if :: .symbol .leftParen ::
        (ts ++ .symbol .rightParen :: (us ++ .keyword .else :: vs))) := by
  refine takes_statement (fun n t ht => by rw [statement_apply, ht]) fun n rest hfuel helse => ?_
  simp only [List.length_append, List.length_cons] at hfuel
  have hno : Takes fits (some <$> statement n) vs rest fun no' => no'.map Stmt.bare = some no.bare :=
    .map ((hn n rest (by omega) helse).mono fun no' hno' => by simp [hno'])
  refine .advance (.expect ((hc.whole rfl (by omega)).bind fun e' he' => .expect
    ((hy n _ (by omega) fun h => ?_).bind fun yes' hyes => .skipKeyword
      (hno.last fun no' hno' => .pure fun span => ?_))))
  · rw [hclosed] at h
    cases h
  · rw [Stmt.bare_ifElse, Stmt.bare_ifElse, he', hyes, hno', Option.map_some]

theorem Taken.while (hc : Taken fits (.expr .assignment e) ts)
    (hb : Taken fits (.statement body) us) :
    Taken fits (.statement ⟨span, .while e body⟩)
      (.keyword .while :: .symbol .leftParen :: (ts ++ .symbol .rightParen :: us)) := by
  refine takes_statement (fun n t ht => by rw [statement_apply, ht]) fun n rest hfuel helse => ?_
  simp only [List.length_append, List.length_cons] at hfuel
  refine .advance (.expect ((hc.whole rfl (by omega)).bind fun e' he' => .expect
    ((hb n rest (by omega) helse).last fun body' hbody => .pure fun span => ?_)))
  simp [Stmt.bare, he', hbody]

theorem Taken.loopControl {node : Stmt.Node} {word : Keyword}
    (hk : ∀ n (t : State), t.current.kind = .keyword word →
      statement (n + 1) t = stmt (Parser.loopControl node) t)
    (hn : ∀ span', Stmt.bare ⟨span', node⟩ = Stmt.bare ⟨span, node⟩) :
    Taken fits (.statement ⟨span, node⟩) [.keyword word, .symbol .semicolon] := by
  refine takes_statement hk fun n rest _ _ => ?_
  exact .advance (.expect (.pure hn))

theorem Taken.return {value : Option Expr} (hv : Taken fits (.optional value) ts) :
    Taken fits (.statement ⟨span, .return value⟩)
      (.keyword .return :: (ts ++ [.symbol .semicolon])) := by
  refine takes_statement (fun n t ht => by rw [statement_apply, ht]) fun n rest hfuel _ => ?_
  rw [List.length_append] at hfuel
  refine .advance ((hv .semicolon n rest rfl (by omega)).bind fun value' hvalue =>
    .expect (.pure fun span => ?_))
  rw [Stmt.bare_return, Stmt.bare_return, hvalue]

/-! ### Clauses -/

theorem Taken.noClause : Taken fits (.clause none) [.symbol .semicolon] :=
  fun _ _ _ _ => .skipSymbol (.pure rfl)

theorem Taken.varClause {name : Identifier} {init : Option Expr} (hs : ts.head? = some (.keyword .var))
    (h : Taken fits (.declaration ⟨span, .varDecl name init⟩) ts) :
    Taken fits (.clause (some ⟨span, .varDecl name init⟩)) ts := by
  intro fuel rest hfuel helse
  have hdeclaration := h (fuel + 1) rest (by omega) helse
  obtain ⟨us, rfl⟩ := List.head?_eq_some_iff.1 hs
  refine .noSymbol (k := .keyword .var) rfl (by simp) (.current (k := .keyword .var) rfl
    fun t ht => ?_)
  rw [ht, isKeyword_iff.2 rfl, if_pos rfl]
  refine Takes.map (.congr (k := .keyword .var) rfl (fun s hs => ?_)
    (hdeclaration.mono fun s' hs' => by simp [hs']))
  rw [declaration_apply, hs]

theorem Taken.expressionClause (he : Starts startsExpression ts)
    (h : Taken fits (.statement ⟨span, .expression e⟩) ts) :
    Taken fits (.clause (some ⟨span, .expression e⟩)) ts := by
  intro fuel rest hfuel helse
  have hstatement := h (fuel + 1) rest (by omega) nofun
  obtain ⟨k, us, rfl, hk⟩ := he
  refine .noSymbol (k := k) rfl (ne_of_starts hk rfl) (.current (k := k) rfl fun t ht => ?_)
  rw [ht, Bool.eq_false_iff.2 fun h => ne_of_starts hk rfl (isKeyword_iff.1 h)]
  refine Takes.map (.congr (k := k) rfl (fun s hs => ?_)
    (hstatement.mono fun s' hs' => by simp [hs']))
  exact (statement_of_startsExpression hk hs).symm

theorem head?_ne_else_of_optional {value : Option Expr} (h : Derives fits (.optional value) ts)
    (us : Tokens) : (ts ++ .symbol .semicolon :: us).head? ≠ some (.keyword .else) := by
  cases h with
  | absent => simp
  | present he =>
    obtain ⟨k, vs, rfl, hk⟩ := he.starts
    exact fun h => ne_of_starts hk rfl (Option.some.inj h)

theorem Taken.for {init : Option Stmt} {condition step : Option Expr} {ws : Tokens}
    (hi : Taken fits (.clause init) ts) (hd : Derives fits (.optional condition) us)
    (hc : Taken fits (.optional condition) us) (hs : Taken fits (.optional step) vs)
    (hb : Taken fits (.statement body) ws) :
    Taken fits (.statement ⟨span, .for init condition step body⟩)
      (.keyword .for :: .symbol .leftParen ::
        (ts ++ (us ++ .symbol .semicolon :: (vs ++ .symbol .rightParen :: ws)))) := by
  refine takes_statement (fun n t ht => by rw [statement_apply, ht]) fun n rest hfuel helse => ?_
  simp only [List.length_append, List.length_cons] at hfuel
  have hinit := hi n (us ++ .symbol .semicolon :: (vs ++ .symbol .rightParen :: ws) ++ rest) (by omega)
    (by rw [List.append_assoc]; exact head?_ne_else_of_optional hd _)
  have hcondition := hc .semicolon n (vs ++ .symbol .rightParen :: ws ++ rest) rfl (by omega)
  have hstep := hs .rightParen n (ws ++ rest) rfl (by omega)
  refine .advance (.expect (hinit.bind fun init' hinit' => hcondition.bind fun condition' hc' =>
    .expect (hstep.bind fun step' hs' => .expect ((hb n rest (by omega) helse).last
      fun body' hbody => .pure fun span => ?_))))
  rw [Stmt.bare_for, Stmt.bare_for, hinit', hc', hs', hbody]

/-! ### Sequences -/

theorem Taken.noDeclarations : Taken fits (.declarations []) [] := by
  intro fuel n hfuel hn
  obtain ⟨n, rfl⟩ : ∃ m, n = m + 1 := ⟨n - 1, by omega⟩
  exact ⟨fun rest => .atEnd (k := .symbol .rightBrace) rfl (.skipSymbol (.pure rfl)),
    .atEnd (k := .endOfFile) rfl (.pure rfl)⟩

theorem head?_ne_else_of_declarations {ss : List Stmt} {k : Token.Kind}
    (h : Derives fits (.declarations ss) ts) (hk : k ≠ .keyword .else) (us : Tokens) :
    (ts ++ k :: us).head? ≠ some (.keyword .else) := by
  cases h with
  | noDeclarations => simpa using hk
  | someDeclarations hd _ =>
    obtain ⟨k', vs, rfl, hk'⟩ := hd.starts
    exact fun h => ne_of_starts hk' rfl (Option.some.inj h)

/-- Declarations are taken one after another up to the brace that ends them. -/
theorem Taken.someDeclarations {s : Stmt} {ss : List Stmt} (hs : Starts startsDeclaration ts)
    (h : Taken fits (.declaration s) ts) (hd : Derives fits (.declarations ss) us)
    (hss : Taken fits (.declarations ss) us) :
    Taken fits (.declarations (s :: ss)) (ts ++ us) := by
  intro fuel n hfuel hn
  rw [List.length_append] at hfuel hn
  obtain ⟨n, rfl⟩ : ∃ m, n = m + 1 := ⟨n - 1, by omega⟩
  have hlen : 0 < ts.length := by
    obtain ⟨k, vs, rfl, -⟩ := hs
    exact Nat.succ_pos _
  obtain ⟨hblock, hprogram⟩ := hss fuel n (by omega) (by omega)
  have hfirst (rest : Tokens) (hrest : rest.head? ≠ some (.keyword .else)) :=
    (h fuel rest (by omega) hrest).recover
  have hend {k : Token.Kind} (hk : startsDeclaration k = true) : k.isEndOfFile = false :=
    Bool.eq_false_iff.2 fun h => ne_of_starts hk rfl ((Token.isEndOfFile_iff _).1 h)
  obtain ⟨k, vs, rfl, hk⟩ := hs
  refine ⟨fun rest => ?_, ?_⟩
  · refine .atEnd (k := k) rfl ?_
    rw [hend hk]
    refine .noSymbol (k := k) rfl (ne_of_starts hk rfl) ?_
    rw [List.append_assoc]
    have helse := head?_ne_else_of_declarations hd (k := .symbol .rightBrace) (by simp) rest
    refine (hfirst _ (by simpa using helse)).bind ?_
    rintro _ ⟨s', rfl, hs'⟩
    refine (hblock rest).last fun ss' hss' => .pure ?_
    simp [Stmt.bares, hs', hss']
  · refine .atEnd (k := k) rfl ?_
    rw [hend hk]
    have helse := head?_ne_else_of_declarations hd (k := .endOfFile) (by simp) []
    refine (hfirst _ (by simpa using helse)).bind ?_
    rintro _ ⟨s', rfl, hs'⟩
    refine hprogram.last fun ss' hss' => .pure ?_
    simp [Stmt.bares, hs', hss']

/-- A statement that is no function declaration. -/
theorem Taken.statement {s : Stmt} (hs : Starts startsStatement ts)
    (hne : ts.head? ≠ some (.keyword .fun)) (h : Taken fits (.statement s) ts) :
    Taken fits (.declaration s) ts := by
  intro fuel rest hfuel helse
  obtain ⟨n, rfl⟩ : ∃ n, fuel = n + 1 := ⟨fuel - 1, by omega⟩
  have hstatement := h n rest (by omega) fun _ => helse
  obtain ⟨k, us, rfl, hk⟩ := hs
  exact .congr (k := k) rfl (fun s hs => declaration_of_startsStatement hk
    (fun h => hne (by rw [h]; rfl)) hs) hstatement

end

/-! ## All phrases -/

/-- What the grammar derives the rules take, form by form. -/
theorem taken_of_derives {ph : Phrase} (h : Derives fits ph ts) :
    Taken fits ph ts := by
  induction h with
  | looser _ ih => exact ih.looser
  | assign _ ih => exact ih.assign
  | set _ _ ih₁ ih₂ => exact ih₁.set ih₂
  | indexSet _ _ _ ih₁ ih₂ ih₃ => exact ih₁.indexSet ih₂ ih₃
  | ternary _ _ _ ih₁ ih₂ ih₃ => exact ih₁.ternary ih₂ ih₃
  | logical _ _ ih₁ ih₂ => exact ih₁.logical ih₂
  | binary _ _ ih₁ ih₂ => exact ih₁.binary ih₂
  | unary _ ih => exact ih.unary
  | call _ _ hfits ih₁ ih₂ => exact ih₁.call ih₂ hfits
  | index _ _ ih₁ ih₂ => exact ih₁.index ih₂
  | get _ ih => exact ih.get
  | number => exact .token rfl fun _ _ _ t ht => ⟨_, by rw [primaryNode, ht], fun _ _ => rfl⟩
  | string => exact .token rfl fun _ _ _ t ht => ⟨_, by rw [primaryNode, ht], fun _ _ => rfl⟩
  | true => exact .token rfl fun _ _ _ t ht => ⟨_, by rw [primaryNode, ht], fun _ _ => rfl⟩
  | false => exact .token rfl fun _ _ _ t ht => ⟨_, by rw [primaryNode, ht], fun _ _ => rfl⟩
  | nil => exact .token rfl fun _ _ _ t ht => ⟨_, by rw [primaryNode, ht], fun _ _ => rfl⟩
  | «variable» => exact .variable
  | this => exact .token rfl fun _ _ _ t ht => ⟨_, by rw [primaryNode, ht], fun _ _ => rfl⟩
  | super => exact .super
  | group _ ih => exact ih.group
  | array _ ih => exact ih.array
  | lambda hfits _ ih => exact ih.lambda hfits
  | noItems => exact .noItems
  | someItems he hes ih₁ ih₂ => exact .someItems he.starts ih₁ hes ih₂
  | noFurtherItems => exact .noFurtherItems
  | someFurtherItems _ hes ih₁ ih₂ => exact .someFurtherItems ih₁ hes ih₂
  | absent => exact .absent
  | present he ih => exact .present he.starts ih
  | function hfits _ ih => exact .function hfits ih
  | getter _ ih => exact .getter ih
  | noMembers => exact .noMembers
  | method hf _ ih₁ ih₂ => exact .method hf.starts ih₁ ih₂
  | static _ _ ih₁ ih₂ => exact .static ih₁ ih₂
  | expression he ih => exact .expression he.starts ih
  | print _ ih => exact .print ih
  | block _ ih => exact .block ih
  | ifOnly _ _ ih₁ ih₂ => exact .ifOnly ih₁ ih₂
  | ifElse _ _ hclosed _ ih₁ ih₂ ih₃ => exact .ifElse ih₁ ih₂ hclosed ih₃
  | «while» _ _ ih₁ ih₂ => exact .while ih₁ ih₂
  | «for» _ hc _ _ ih₁ ih₂ ih₃ ih₄ => exact .for ih₁ hc ih₂ ih₃ ih₄
  | «break» => exact .loopControl (fun n t ht => by rw [statement_apply, ht]) fun _ => rfl
  | «continue» => exact .loopControl (fun n t ht => by rw [statement_apply, ht]) fun _ => rfl
  | «return» _ ih => exact .return ih
  | var => exact .var
  | varInit _ ih => exact .varInit ih
  | «fun» _ ih => exact .fun ih
  | «class» _ ih => exact .class ih
  | trait _ ih => exact .trait ih
  | statement h hne ih => exact .statement h.starts hne ih
  | noDeclarations => exact .noDeclarations
  | someDeclarations hd hds ih₁ ih₂ => exact .someDeclarations hd.starts ih₁ hds ih₂
  | noClause => exact .noClause
  | varClause h ih => exact .varClause h.head?_of_varDecl ih
  | expressionClause h ih =>
    obtain ⟨us, rfl, he⟩ := h.of_expression
    exact .expressionClause (he.starts.append _) ih

end Parser

end Lox

import Lox.Proofs.Syntax.Lays

/-!
# All rules lay what they return
-/

namespace Lox.Parser

open Grammar

variable {s : State}

/-- An expression has been laid. -/
def LaysExpression (expression : Rule Expr) : Prop :=
  ∀ s, Lays expression s fun e _ us => Laid (.expr e) us

/-- A statement or declaration has been laid. -/
def LaysStatement (statement : Rule Stmt) : Prop :=
  ∀ s, Lays statement s fun st _ us => Laid (.stmt st) us

theorem nodeLaid_keyword {word : Keyword} {node : Stmt.Node} {us : List Token}
    (hs : s.current.kind = .keyword word) (hk : node.keyword? = some word)
    (h : Holds node.pieces us) : NodeLaid s node ([s.current] ++ us) := by
  refine ⟨List.cons_ne_nil _ _, fun k hk' => ?_, .after h⟩
  rw [hk] at hk'
  cases hk'
  exact hs

theorem nodeLaid_none {node : Stmt.Node} {us : List Token} (hus : us ≠ [])
    (hk : node.keyword? = none) (h : Holds node.pieces us) : NodeLaid s node us :=
  ⟨hus, fun _ hk' => (nomatch hk.symm.trans hk'), h⟩

/-! ## Declarations -/

section

variable {body : Rule (List Stmt)} (hb : LaysBody body)
include hb

theorem lays_funDecl (hs : s.current.kind = .keyword .fun) (n : Nat) :
    Lays (funDecl body n) s fun node _ us => NodeLaid s node us := by
  refine (lays_keyword hs).bind fun _ t => (lays_namedFunction hb false n t).bind fun f t₁ => .pure ?_
  rintro us hf _ rfl
  exact nodeLaid_keyword hs rfl (.before hf)

theorem lays_classDecl (hs : s.current.kind = .keyword .klass) (n : Nat) :
    Lays (classDecl body n) s fun node _ us => NodeLaid s node us := by
  rw [classDecl_eq]
  refine (lays_keyword hs).bind fun _ t => (lays_identifier _).bind fun name t₁ =>
    lays_superclassClause.bind fun superclass t₂ => (lays_traitsClause n).bind fun traits t₃ =>
      (lays_expect _ _).bind fun _ t₄ => (lays_members hb n n t₄).bind fun fs t₅ => .pure ?_
  rintro us hfs _ - vs htraits ws hsuperclass xs hname _ rfl
  exact nodeLaid_keyword hs rfl
    (.cons hname (hsuperclass.append (htraits.append (.after (.before hfs)))))

theorem lays_traitDecl (hs : s.current.kind = .keyword .trait) (n : Nat) :
    Lays (traitDecl body n) s fun node _ us => NodeLaid s node us := by
  refine (lays_keyword hs).bind fun _ t => (lays_identifier _).bind fun name t₁ =>
    (lays_expect _ _).bind fun _ t₂ => (lays_members hb n n t₂).bind fun fs t₃ => .pure ?_
  rintro us hfs _ - vs hname _ rfl
  exact nodeLaid_keyword hs rfl (.cons hname (.after (.before hfs)))

theorem lays_blockStmt (hs : s.current.kind = .symbol .leftBrace) :
    Lays (do advance; return .block (← body)) s fun node _ us => NodeLaid s node us := by
  refine (lays_symbol hs).bind fun _ t => (hb t).bind fun body t₁ => .pure ?_
  rintro us hbody _ rfl
  exact nodeLaid_none (List.cons_ne_nil _ _) rfl (.after (.before (.single hbody)))

end

/-! ## Statements -/

section

variable {expression : Rule Expr} (he : LaysExpression expression)
include he

theorem lays_expressionStmt :
    Lays (expressionStmt expression) s fun node _ us => NodeLaid s node us := by
  refine (he s).bind fun e t => (lays_expect _ _).bind fun _ t₁ => .pure ?_
  rintro us hus vs hv
  exact nodeLaid_none (List.append_ne_nil_of_right_ne_nil _ (List.append_ne_nil_of_left_ne_nil hus _))
    rfl (.before (.single hv))

theorem lays_printStmt (hs : s.current.kind = .keyword .print) :
    Lays (printStmt expression) s fun node _ us => NodeLaid s node us := by
  refine (lays_keyword hs).bind fun _ t => (he t).bind fun e t₁ => (lays_expect _ _).bind fun _ t₂ =>
    .pure ?_
  rintro us - vs hv _ rfl
  exact nodeLaid_keyword hs rfl (.before (.single hv))

theorem lays_optional (close : Symbol) :
    Lays (optional expression close) s fun o _ us => Holds (o.toList.map .expr) us := by
  refine (lays_atSymbol _).bind fun b t => ?_
  cases b with
  | true => exact .pure fun _ _ => .nil
  | false => exact (lays_some (he t)).mono fun _ _ _ h _ _ => .after h

theorem lays_returnStmt (hs : s.current.kind = .keyword .return) :
    Lays (returnStmt expression) s fun node _ us => NodeLaid s node us := by
  refine (lays_keyword hs).bind fun _ t => (lays_optional he _).bind fun value t₁ =>
    (lays_expect _ _).bind fun _ t₂ => .pure ?_
  rintro us - vs hv _ rfl
  exact nodeLaid_keyword hs rfl (.before hv)

theorem lays_forInit :
    Lays (forInit expression) s fun init _ us => Holds (init.toList.map .stmt) us := by
  refine (lays_skipSymbol _).bind fun b t => ?_
  cases b with
  | true => exact .pure fun _ _ => .nil
  | false =>
    refine .current ?_
    cases hk : t.current.kind.isKeyword .var with
    | true =>
      exact (lays_some (lays_stmt (lays_varDecl he (isKeyword_iff.1 hk)))).mono
        fun _ _ _ h _ _ => .after h
    | false =>
      exact (lays_some (lays_stmt (lays_expressionStmt he))).mono fun _ _ _ h _ _ => .after h

variable {statement : Rule Stmt} (hst : LaysStatement statement)
include hst

theorem lays_ifStmt (hs : s.current.kind = .keyword .if) :
    Lays (ifStmt expression statement) s fun node _ us => NodeLaid s node us := by
  refine (lays_keyword hs).bind fun _ t => (lays_expect _ _).bind fun _ t₁ =>
    (he t₁).bind fun condition t₂ => (lays_expect _ _).bind fun _ t₃ =>
      (hst t₃).bind fun yes t₄ => (lays_skipKeyword _).bind fun b t₅ => ?_
  have hbehind (no : Option Stmt) (us vs ws xs ys zs : List Token)
      (hno : Holds (no.toList.map .stmt) zs) (hyes : Laid (.stmt yes) ws)
      (hcondition : Laid (.expr condition) us) :
      NodeLaid s (.ifElse condition yes no) ([s.current] ++ (xs ++ (us ++ (vs ++ (ws ++ (ys ++ zs)))))) :=
    nodeLaid_keyword hs rfl (.after (.cons hcondition (.after (.cons hyes (.after hno)))))
  cases b with
  | false =>
    refine .pure ?_
    rintro ys - ws hyes vs - us hcondition xs - _ rfl
    exact hbehind none us vs ws xs ys [] .nil hyes hcondition
  | true =>
    refine (lays_some (hst t₅)).bind fun no t₆ => .pure ?_
    rintro zs hno ys - ws hyes vs - us hcondition xs - _ rfl
    exact hbehind no us vs ws xs ys _ (.before hno) hyes hcondition

theorem lays_whileStmt (hs : s.current.kind = .keyword .while) :
    Lays (whileStmt expression statement) s fun node _ us => NodeLaid s node us := by
  refine (lays_keyword hs).bind fun _ t => (lays_expect _ _).bind fun _ t₁ =>
    (he t₁).bind fun condition t₂ => (lays_expect _ _).bind fun _ t₃ =>
      (hst t₃).bind fun body t₄ => .pure ?_
  rintro us hbody vs - ws hcondition xs - _ rfl
  exact nodeLaid_keyword hs rfl (.after (.cons hcondition (.after (.before (.single hbody)))))

theorem lays_forStmt (hs : s.current.kind = .keyword .for) :
    Lays (forStmt expression statement) s fun node _ us => NodeLaid s node us := by
  refine (lays_keyword hs).bind fun _ t => (lays_expect _ _).bind fun _ t₁ =>
    (lays_forInit he).bind fun init t₂ => (lays_optional he _).bind fun condition t₃ =>
      (lays_expect _ _).bind fun _ t₄ => (lays_optional he _).bind fun step t₅ =>
        (lays_expect _ _).bind fun _ t₆ => (hst t₆).bind fun body t₇ => .pure ?_
  rintro us hbody vs - ws hstep xs - ys hcondition zs hinit _ - _ rfl
  exact nodeLaid_keyword hs rfl (.after (hinit.append (hcondition.append (.after (hstep.append
    (.after (.before (.single hbody))))))))

end

theorem lays_loopControl {node : Stmt.Node} {word : Keyword} (hs : s.current.kind = .keyword word)
    (hk : node.keyword? = some word) (hp : node.pieces = []) :
    Lays (loopControl node) s fun node _ us => NodeLaid s node us := by
  refine (lays_keyword hs).bind fun _ t => (lays_expect _ _).bind fun _ t₁ => .pure ?_
  rintro us - _ rfl
  exact nodeLaid_keyword hs hk (hp ▸ .nil)

/-! ## Expressions -/

/-- What an operator makes of an operand. -/
theorem lays_continuation {expression : Level → Rule Expr} {left : Expr} {op : Operator}
    (he : ∀ outer, LaysExpression (expression outer))
    (hs : Operator.ofToken? s.current.kind = some op) (n : Nat) :
    Lays (continuation expression left op n) s fun node _ us =>
      ∀ vs, Laid (.expr left) vs → Holds node.pieces (vs ++ us) := by
  have hk := ofToken?_eq_some hs
  have hne : s.current.kind ≠ .endOfFile := by
    rw [hk]
    cases op <;> exact Token.Kind.noConfusion
  refine .current ?_
  cases op with
  | binary op =>
    refine (lays_advance hne).bind fun _ t => (he _ t).bind fun right t₁ => .pure ?_
    rintro us hright _ - vs hleft
    exact .cons hleft (.after (.before (.single hright)))
  | logical op =>
    refine (lays_advance hne).bind fun _ t => (he _ t).bind fun right t₁ => .pure ?_
    rintro us hright _ - vs hleft
    exact .cons hleft (.after (.before (.single hright)))
  | assign =>
    refine (lays_advance hne).bind fun _ t => (he _ t).bind fun value t₁ => ?_
    obtain ⟨id, span, target⟩ := left
    cases target with
    | «variable» name =>
      refine .pure ?_
      rintro us hvalue _ - vs hleft
      exact (laid_iff.1 hleft).2.append (.after (.before (.single hvalue)))
    | get object property =>
      refine .pure ?_
      rintro us hvalue _ - vs hleft
      exact (laid_iff.1 hleft).2.append (.after (.before (.single hvalue)))
    | index array position =>
      refine .pure ?_
      rintro us hvalue _ - vs hleft
      exact (laid_iff.1 hleft).2.append (.after (.before (.single hvalue)))
    | _ => exact .fail
  | ternary =>
    refine (lays_advance hne).bind fun _ t => (he _ t).bind fun yes t₁ =>
      (lays_expect _ _).bind fun _ t₂ => (he _ t₂).bind fun no t₃ => .pure ?_
    rintro us hno vs - ws hyes _ - xs hleft
    exact .cons hleft (.after (.cons hyes (.after (.before (.single hno)))))
  | call =>
    refine Lays.bind (P := fun args _ us => Holds (args.map .expr) us) ?_ fun args t => .pure ?_
    · refine (lays_advance hne).bind fun _ t => (lays_commaSeparated (he _) _ n t).bind fun args t₁ =>
        (lays_reportSurplus _ _ args).bind fun _ t₂ => .pure ?_
      rintro us - vs hargs _ -
      exact .after (.before hargs)
    · rintro us hargs vs hleft
      exact .cons hleft (.before hargs)
  | index =>
    refine (lays_advance hne).bind fun _ t => (he _ t).bind fun position t₁ =>
      (lays_expect _ _).bind fun _ t₂ => .pure ?_
    rintro us - vs hposition _ - ws hleft
    exact .cons hleft (.after (.before (.single hposition)))
  | property =>
    refine (lays_advance hne).bind fun _ t => (lays_identifier _).bind fun name t₁ => .pure ?_
    rintro us hname _ - vs hleft
    exact .cons hleft (.after (.before (.single hname)))

theorem lays_primaryNode {expression : Rule Expr} {body : Rule (List Stmt)}
    (he : LaysExpression expression) (hb : LaysBody body) (n : Nat) (first : Token) (s : State) :
    Lays (primaryNode expression body n first) s fun node _ us =>
      Holds node.pieces (first :: us) := by
  obtain ⟨kind, span⟩ := first
  cases kind with
  | number x => exact .pure .nil
  | string text => exact .pure .nil
  | identifier name => exact .pure (.single (laid_name rfl rfl))
  | keyword word =>
    cases word with
    | true | false | nil | this => exact .pure .nil
    | super =>
      refine (lays_expect _ _).bind fun _ t => (lays_identifier _).bind fun name t₁ => .pure ?_
      rintro us hname vs -
      exact .behind (.after (.before (.single hname)))
    | «fun» =>
      refine (lays_parameters n s).bind fun params t => (lays_expect _ _).bind fun _ t₁ =>
        (hb t₁).bind fun body t₂ => (lays_spanFrom _).bind fun span t₃ => .pure ?_
      rintro _ ⟨rfl, -⟩ us hbody _ - vs hparams
      exact .behind
        (.single (laid_function (hparams.append (.after (.before (.single hbody))))))
    | _ => exact .fail
  | symbol sym =>
    cases sym with
    | leftParen =>
      refine (he s).bind fun inner t => (lays_expect _ _).bind fun _ t₁ => .pure ?_
      rintro us - vs hinner
      exact .behind (.before (.single hinner))
    | leftBracket =>
      exact .map ((lays_commaSeparated he _ n s).mono fun _ _ us h => .behind h)
    | _ => exact .fail
  | _ => exact .fail

theorem lays_primary {expression : Rule Expr} {body : Rule (List Stmt)}
    (he : LaysExpression expression) (hb : LaysBody body) (n : Nat) (s : State) :
    Lays (primary expression body n) s fun e t us => us ≠ [] ∧
      e.span = s.current.span.extend t.previous.span ∧ Holds e.node.pieces us := by
  rw [primary_eq]
  refine .behind (fun t u hend a v h => ?_) fun _ t => ?_
  · simp only [primaryNode, hend] at h
    cases h
  · refine (lays_primaryNode he hb n s.current t).bind fun node t₁ =>
      (lays_expr _ node).traced.mono ?_
    rintro e u _ ⟨⟨rfl, rfl, hspan⟩, hpassed, -⟩ us hnode
    have hprevious : u.previous = t₁.previous := hpassed.previous
    exact ⟨List.cons_ne_nil _ _, hprevious ▸ hspan, hnode.before⟩

/-! ## All rules -/

/-- What all rules lay with so much fuel; operators lay the operand before them with the rest. -/
structure LayingRules (n : Nat) : Prop where
  expression : ∀ outer, LaysExpression (Parser.expression n outer)
  operators : ∀ outer left s, Lays (Parser.operators n outer left) s fun e _ us =>
    ∀ lo vs, IsOperand outer lo left (vs.map Token.kind) s → Laid (.expr left) vs →
      vs.getLast? = some s.previous → InLine (vs ++ s.tokens) → Laid (.expr e) (vs ++ us)
  block : LaysBody (Parser.block n)
  declaration : LaysStatement (Parser.declaration n)
  statement : LaysStatement (Parser.statement n)

theorem laid_expr {outer : Level} {lo : Nat} {e : Expr} {us : List Token} {s : State}
    (hoperand : IsOperand outer lo e (us.map Token.kind) s) (hspan : Spans us e.span)
    (h : Holds e.node.pieces us) : Laid (.expr e) us := by
  obtain ⟨ℓ, hd, -⟩ := hoperand.derives
  exact laid_iff.2 ⟨⟨hspan, hd.of_rank_le (Nat.zero_le _)⟩, h⟩

/-- Operators lay what is behind the left operand that has been laid before, up to the last of
them. -/
theorem lays_operators {n : Nat} (ih : LayingRules n) (outer : Level) (left : Expr) (s : State) :
    Lays (operators (n + 1) outer left) s fun e _ us =>
      ∀ lo vs, IsOperand outer lo left (vs.map Token.kind) s → Laid (.expr left) vs →
        vs.getLast? = some s.previous → InLine (vs ++ s.tokens) → Laid (.expr e) (vs ++ us) := by
  have hdone : Lays (pure left) s fun e _ us => ∀ lo vs,
      IsOperand outer lo left (vs.map Token.kind) s → Laid (.expr left) vs →
        vs.getLast? = some s.previous → InLine (vs ++ s.tokens) → Laid (.expr e) (vs ++ us) :=
    .pure fun _ _ _ hleft _ _ => by rwa [List.append_nil]
  refine .current ?_
  cases hop : Operator.ofToken? s.current.kind with
  | none => exact hdone
  | some op =>
    dsimp only
    split
    · next hb =>
      rw [← bind_assoc]
      have hmade : Lays (continuation (Parser.expression n) left op n >>= expr left.span) s
          fun e t us => e.span = left.span.extend t.previous.span ∧
            ∀ vs, Laid (.expr left) vs → Holds e.node.pieces (vs ++ us) := by
        refine (lays_continuation ih.expression hop n).bind fun node t =>
          (lays_expr _ node).traced.mono ?_
        rintro e u _ ⟨⟨rfl, rfl, hspan⟩, hpassed, -⟩ us hnode
        have hprevious : u.previous = t.previous := hpassed.previous
        rw [List.append_nil]
        exact ⟨hprevious ▸ hspan, hnode⟩
      refine (hmade.reads (reads_continued (rules n).toExpressionRules hop hb left)).traced.bind
        fun e t => (ih.operators outer e t).mono ?_
      rintro e' u us₂ hrest us₁ ⟨⟨⟨hspan, hpieces⟩, hoperand⟩, hpassed, -⟩ lo vs hop' hleft hlast hl
      rw [← List.append_assoc]
      have hcontinued := hoperand lo _ hop'
      rw [← List.map_append] at hcontinued
      have htokens : InLine (vs ++ us₁ ++ t.tokens) := by
        rwa [hpassed.tokens, ← List.append_assoc] at hl
      have hlast' := hpassed.getLast? hlast
      obtain ⟨⟨hspans, -⟩, -⟩ := laid_iff.1 hleft
      have hspans' : Spans (vs ++ us₁) e.span :=
        hspan ▸ hspans.extend htokens (List.cons_ne_nil _ _) hlast'
      exact hrest lo _ hcontinued (laid_expr hcontinued hspans' (hpieces vs hleft)) hlast' htokens
    · exact hdone

theorem lays_firstOperand {n : Nat} (ih : LayingRules n) (s : State) :
    Lays (firstOperand n) s fun e t us => us ≠ [] ∧
      e.span = s.current.span.extend t.previous.span ∧ Holds e.node.pieces us := by
  refine .current ?_
  cases hop : unaryOp? s.current.kind with
  | some op =>
    refine (lays_symbol (unaryOp?_eq_some hop)).bind fun _ t => (ih.expression .unary t).bind
      fun operand t₁ => (lays_expr _ _).traced.mono ?_
    rintro e u _ ⟨⟨rfl, hnode, hspan⟩, hpassed, -⟩ us hoperand _ rfl
    have hprevious : u.previous = t₁.previous := hpassed.previous
    refine ⟨List.cons_ne_nil _ _, hprevious ▸ hspan, ?_⟩
    rw [hnode]
    exact .after (.before (.single hoperand))
  | none => exact lays_primary (ih.expression _) ih.block n s

theorem lays_expression {n : Nat} (ih : LayingRules n) (outer : Level) :
    LaysExpression (Parser.expression (n + 1) outer) := by
  intro s
  rw [expression_succ]
  have hreads := reads_firstOperand (rules n).toExpressionRules (rules n).block s
  refine ((lays_firstOperand ih s).reads hreads).traced.bind fun e t =>
    (ih.operators outer e t).mono ?_
  rintro e' u us₂ hrest us₁ ⟨⟨⟨hne, hspan, hpieces⟩, hoperand⟩, hpassed, hl⟩
  have hlast : us₁.getLast? = some t.previous := by
    obtain ⟨last, hlast⟩ := Option.ne_none_iff_exists'.1 (mt List.getLast?_eq_none_iff.1 hne)
    rw [hpassed.previous, hlast]
    rfl
  have hspans : Spans us₁ e.span := hspan ▸ hpassed.spans hl hne
  exact hrest s.nextId us₁ (hoperand outer) (laid_expr (hoperand outer) hspans hpieces) hlast
    (hpassed.tokens ▸ hl)

theorem lays_statement {n : Nat} (ih : LayingRules n) : LaysStatement (statement (n + 1)) := by
  intro s
  have he := ih.expression .lowest
  have hexpr : Lays (stmt (expressionStmt (Parser.expression n .lowest))) s
      fun st _ us => Laid (.stmt st) us := lays_stmt (lays_expressionStmt he)
  refine .current ?_
  cases hk : s.current.kind with
  | keyword word =>
    cases word with
    | print => exact lays_stmt (lays_printStmt he hk)
    | «if» => exact lays_stmt (lays_ifStmt he ih.statement hk)
    | «while» => exact lays_stmt (lays_whileStmt he ih.statement hk)
    | «for» => exact lays_stmt (lays_forStmt he ih.statement hk)
    | «return» => exact lays_stmt (lays_returnStmt he hk)
    | «break» => exact lays_stmt (lays_loopControl hk rfl rfl)
    | «continue» => exact lays_stmt (lays_loopControl hk rfl rfl)
    | _ => exact hexpr
  | symbol sym =>
    cases sym with
    | leftBrace => exact lays_stmt (lays_blockStmt ih.block hk)
    | _ => exact hexpr
  | _ => exact hexpr

theorem lays_declaration {n : Nat} (ih : LayingRules n) : LaysStatement (declaration (n + 1)) := by
  intro s
  refine .current ?_
  cases hk : s.current.kind with
  | keyword word =>
    cases word with
    | var => exact lays_stmt (lays_varDecl (ih.expression _) hk)
    | «fun» => exact lays_stmt (lays_funDecl ih.block hk n)
    | klass => exact lays_stmt (lays_classDecl ih.block hk n)
    | trait => exact lays_stmt (lays_traitDecl ih.block hk n)
    | _ => exact ih.statement s
  | _ => exact ih.statement s

theorem layingRules (n : Nat) : LayingRules n := by
  induction n with
  | zero =>
    exact { expression := fun _ _ => .outOfFuel
            operators := fun _ _ _ => .outOfFuel
            block := fun _ => .outOfFuel
            declaration := fun _ => .outOfFuel
            statement := fun _ => .outOfFuel }
  | succ n ih =>
    exact { expression := lays_expression ih
            operators := lays_operators ih
            block := lays_statements (fun s => lays_recover (ih.declaration s)) n
            declaration := lays_declaration ih
            statement := lays_statement ih }

end Lox.Parser

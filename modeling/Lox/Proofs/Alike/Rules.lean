import Mathlib.Data.List.Forall2
import Lox.Proofs.Alike.Reading
import Lox.Proofs.Syntax.Sound

/-!
# Every rule reads alike
-/

namespace Lox

theorem Expr.Alike.span {L : Likeness} {e e' : Expr} (h : e.Alike L e') : L.span e.span e'.span := by
  cases h; assumption

namespace Parser

variable {C : Comparison} {P : Prop}

/-! ## Fuel -/

/-- The second reading has fuel enough for what the first one does, and no more if errors are
compared. -/
structure Comparison.Fuel (C : Comparison) (n n' : Nat) : Prop where
  le : n ≤ n'
  eq : C.exact → n = n'

theorem Comparison.Fuel.succ {n n' : Nat} (h : C.Fuel (n + 1) n') :
    ∃ m, n' = m + 1 ∧ C.Fuel n m := by
  obtain ⟨m, rfl⟩ : ∃ m, n' = m + 1 := ⟨n' - 1, by have := h.le; omega⟩
  exact ⟨m, rfl, Nat.le_of_succ_le_succ h.le, fun he => Nat.succ.inj (h.eq he)⟩

theorem Mirrors.outOfFuel {α : Type} {A : α → α → Prop} {f : Nat → Rule α} {n' : Nat}
    (hn : C.Fuel 0 n') (h : f 0 = Parser.outOfFuel) :
    Mirrors C P .taking A Parser.outOfFuel (f n') where
  onward := by rintro s _ _ ⟨⟩
  ok := by rintro - s s' - _ _ ⟨⟩
  error := by
    rintro - hexact s s' hs _ _ ⟨⟩
    rw [← hn.eq hexact, h]
    exact ⟨_, _, rfl, .outOfFuel, hs⟩

/-! ## Lists -/

section

variable {α : Type} {A : α → α → Prop} {item item' : Rule α} {n n' : Nat}

theorem mirrors_commaSeparatedTail (hitem : Mirrors C True .loose A item item') (close : Symbol)
    (hn : C.Fuel n n') :
    Mirrors C P .taking (List.Forall₂ A) (commaSeparatedTail close item n)
      (commaSeparatedTail close item' n') := by
  induction n generalizing n' P with
  | zero => exact .outOfFuel hn rfl
  | succ n ih =>
    obtain ⟨m, rfl, hm⟩ := hn.succ
    refine .skip (skipSymbol_apply close) rfl (.pure fun _ => .nil) ?_
    refine (mirrors_expect _ _).bind (r := .taking) fun _ _ => hitem.any.bind (r := .taking)
      fun x x' => (ih hm).bind (r := .firm) fun xs xs' => .pure ?_
    rintro ⟨⟨-, hx⟩, hxs⟩
    exact .cons hx hxs

theorem mirrors_commaSeparated (hitem : Mirrors C True .loose A item item') (close : Symbol)
    (hn : C.Fuel n n') :
    Mirrors C P .taking (List.Forall₂ A) (commaSeparated close item n)
      (commaSeparated close item' n') := by
  refine .skip (skipSymbol_apply close) rfl (.pure fun _ => .nil) ?_
  refine hitem.any.bind (r := .taking) fun x x' =>
    (mirrors_commaSeparatedTail hitem close hn).bind (r := .firm) fun xs xs' => .pure ?_
  rintro ⟨⟨-, hx⟩, hxs⟩
  exact .cons hx hxs

end

variable {expression expression' : Rule Expr} {body body' : Rule (List Stmt)} {n n' : Nat}

theorem mirrors_arguments (he : Mirrors C True .loose (Expr.Alike C.L) expression expression')
    (hn : C.Fuel n n') :
    Mirrors C P .taking (List.Forall₂ (Expr.Alike C.L)) (arguments expression n)
      (arguments expression' n') := by
  refine .advance nofun ((mirrors_commaSeparated he _ hn).bind (r := .firm) fun args args' => ?_)
  refine (mirrors_reportSurplus (R := Expr.Alike C.L) (fun _ _ h => h.span) _ And.right).bind (r := .firm) fun _ _ =>
    .pure ?_
  rintro ⟨⟨-, hargs⟩, -⟩
  exact hargs

theorem mirrors_parameters (hn : C.Fuel n n') :
    Mirrors C P .taking (List.Forall₂ (Identifier.Alike C.L)) (parameters n) (parameters n') := by
  refine (mirrors_expect _ _).bind (r := .taking) fun _ _ =>
    (mirrors_commaSeparated (mirrors_identifier _).loose _ hn).bind (r := .firm) fun _ _ =>
      (mirrors_reportSurplus (R := Identifier.Alike C.L) (fun _ _ h => h.span) _ And.right).bind (r := .firm)
        fun _ _ => .pure ?_
  rintro ⟨⟨-, hparams⟩, -⟩
  exact hparams

theorem forall₂_toList {α β : Type} {R : α → β → Prop} {o : Option α} {o' : Option β}
    (h : Option.Rel R o o') : List.Forall₂ R o.toList o'.toList := by
  cases h with
  | some h => exact .cons h .nil
  | none => exact .nil

section

variable {declaration declaration' : Rule (Option Stmt)}
  (hd : Mirrors C True .taking (Option.Rel (Stmt.Alike C.L)) declaration declaration')
  (hn : C.Fuel n n')

include hd hn

theorem mirrors_statements : Mirrors C P .taking (List.Forall₂ (Stmt.Alike C.L))
    (statements declaration n) (statements declaration' n') := by
  induction n generalizing n' P with
  | zero => exact .outOfFuel hn rfl
  | succ n ih =>
    obtain ⟨m, rfl, hm⟩ := hn.succ
    refine mirrors_atEnd.same (r := .taking) fun b => ?_
    cases b with
    | true => exact .current nofun fun _ _ _ => mirrors_fail _ And.right
    | false =>
      refine .skip (skipSymbol_apply _) rfl (.pure fun _ => .nil) ?_
      refine hd.any.bind (r := .taking) fun first first' => (ih hm).bind (r := .firm)
        fun rest rest' => .pure ?_
      rintro ⟨⟨-, hfirst⟩, hrest⟩
      exact List.rel_append (forall₂_toList hfirst) hrest

theorem mirrors_program : Mirrors C P .loose (List.Forall₂ (Stmt.Alike C.L))
    (program declaration n) (program declaration' n') := by
  induction n generalizing n' P with
  | zero => exact (Mirrors.outOfFuel hn rfl).loose
  | succ n ih =>
    obtain ⟨m, rfl, hm⟩ := hn.succ
    refine mirrors_atEnd.same (r := .loose) fun b => ?_
    cases b with
    | true => exact .loose (.pure fun _ => .nil)
    | false =>
      refine hd.any.bind (r := .loose) fun first first' => (ih hm).bind (r := .firm)
        fun rest rest' => .pure ?_
      rintro ⟨⟨-, hfirst⟩, hrest⟩
      exact List.rel_append (forall₂_toList hfirst) hrest

end

/-! ## Functions and their owners -/

section

variable (hb : Mirrors C True .taking (List.Forall₂ (Stmt.Alike C.L)) body body') (hn : C.Fuel n n')

include hb

theorem mirrors_namedFunction (isMember : Bool) (hn : C.Fuel n n') :
    Mirrors C P .taking (Function.Alike C.L) (namedFunction body isMember n)
      (namedFunction body' isMember n') := by
  refine .current nofun fun _ _ _ => (mirrors_identifier _).bind (r := .taking) fun _ _ =>
    (mirrors_atSymbol _).same (r := .taking) fun brace => ?_
  have hrest {Q : Prop} {params params' : List Identifier} {span span' : Span}
      {name name' : Identifier} (isGetter : Bool) (hspan : Q → C.L.span span span')
      (hname : Q → name.Alike C.L name')
      (hparams : Q → List.Forall₂ (Identifier.Alike C.L) params params') :
      Mirrors C Q .taking (Function.Alike C.L)
        (do
          expect .leftBrace (.expectedBefore .leftBrace .functionBody)
          let body ← body
          return ⟨name, params, body, isGetter, ← spanFrom span⟩)
        (do
          expect .leftBrace (.expectedBefore .leftBrace .functionBody)
          let body ← body'
          return ⟨name', params', body, isGetter, ← spanFrom span'⟩) := by
    refine (mirrors_expect _ _).bind (r := .taking) fun _ _ => hb.any.bind (r := .firm) fun _ _ =>
      (mirrors_spanFrom fun ⟨⟨hq, _⟩, _⟩ => hspan hq).bind (r := .firm) fun _ _ => .pure ?_
    rintro ⟨⟨⟨hq, -⟩, hbody⟩, hspan⟩
    exact .mk (hname hq) (hparams hq) hbody hspan
  cases hg : isMember && brace with
  | true => exact hrest _ (fun h => h.1.2) (fun h => h.2) fun _ => .nil
  | false =>
    refine (mirrors_parameters hn).bind (r := .taking) fun params params' => ?_
    exact hrest _ (fun h => h.1.1.2) (fun h => h.1.2) fun h => h.2

theorem mirrors_lambda {keyword keyword' : Span} (hspan : P → C.L.span keyword keyword')
    (hn : C.Fuel n n') : Mirrors C P .taking (Expr.Node.Alike C.L) (lambda body keyword n)
      (lambda body' keyword' n') := by
  refine (mirrors_parameters hn).bind (r := .taking) fun _ _ =>
    (mirrors_expect _ _).bind (r := .taking) fun _ _ => hb.any.bind (r := .firm) fun _ _ =>
      (mirrors_spanFrom fun ⟨⟨⟨hp, _⟩, _⟩, _⟩ => hspan hp).bind (r := .firm) fun _ _ => .pure ?_
  rintro ⟨⟨⟨⟨hp, hparams⟩, -⟩, hbody⟩, hs⟩
  exact .lambda (.mk ⟨rfl, hspan hp⟩ hparams hbody hs)

end

section

variable (hb : Mirrors C True .taking (List.Forall₂ (Stmt.Alike C.L)) body body') (hn : C.Fuel n n')

include hb hn

theorem mirrors_members {k k' : Nat} (hk : C.Fuel k k') :
    Mirrors C P .taking (fun fs fs' => List.Forall₂ (Function.Alike C.L) fs.1 fs'.1 ∧
        List.Forall₂ (Function.Alike C.L) fs.2 fs'.2)
      (members (namedFunction body true k) n) (members (namedFunction body' true k') n') := by
  induction n generalizing n' P with
  | zero => exact .outOfFuel hn rfl
  | succ n ih =>
    obtain ⟨m, rfl, hm⟩ := hn.succ
    refine .skip (skipSymbol_apply _) rfl (.pure fun _ => ⟨.nil, .nil⟩) ?_
    refine mirrors_atEnd.same (r := .taking) fun b => ?_
    cases b with
    | true => exact .current nofun fun _ _ _ => mirrors_fail _ And.right
    | false =>
      refine .skip (skipKeyword_apply _) rfl ?_ ?_
      · refine .firm ((mirrors_namedFunction hb true hk).bind (r := .taking) fun _ _ =>
          (ih hm).bind (r := .firm) fun _ _ => .pure ?_)
        rintro ⟨⟨-, hf⟩, hmethods, hstatics⟩
        exact ⟨hmethods, .cons hf hstatics⟩
      · refine (mirrors_namedFunction hb true hk).bind (r := .taking) fun _ _ =>
          (ih hm).bind (r := .firm) fun _ _ => .pure ?_
        rintro ⟨⟨-, hf⟩, hmethods, hstatics⟩
        exact ⟨.cons hf hmethods, hstatics⟩

end

/-! ## Declarations -/

theorem Mirrors.some {g : Grip} {α : Type} {A : α → α → Prop} {x x' : Rule α}
    (h : Mirrors C P g A x x') :
    Mirrors C P g (Option.Rel A) (Option.some <$> x) (Option.some <$> x') :=
  h.map fun _ _ _ => .some

theorem mirrors_reference (otherwise : ParseErrorKind) :
    Mirrors C P .taking (Reference.Alike C.L) (reference otherwise) (reference otherwise) :=
  (mirrors_identifier _).bind (r := .firm) fun _ _ => mirrors_freshId.bind (r := .firm) fun _ _ =>
    .pure fun ⟨⟨_, hname⟩, hid⟩ => ⟨hid, hname⟩

theorem mirrors_traitNames (hn : C.Fuel n n') :
    Mirrors C P .loose (List.Forall₂ (Reference.Alike C.L)) (traitNames n) (traitNames n') := by
  induction n generalizing n' P with
  | zero => exact (Mirrors.outOfFuel hn rfl).loose
  | succ n ih =>
    obtain ⟨m, rfl, hm⟩ := hn.succ
    refine (mirrors_reference _).bind (r := .loose) fun _ _ =>
      (mirrors_skipSymbol _).same (r := .loose) fun b => ?_
    cases b with
    | true =>
      refine (ih hm).bind (r := .firm) fun _ _ => .pure ?_
      rintro ⟨⟨-, hfirst⟩, hrest⟩
      exact .cons hfirst hrest
    | false => exact .loose (.pure fun ⟨_, hfirst⟩ => .cons hfirst .nil)

theorem mirrors_superclassClause :
    Mirrors C P .loose (Option.Rel (Reference.Alike C.L)) superclassClause superclassClause := by
  refine (mirrors_skipSymbol _).same (r := .loose) fun b => ?_
  cases b with
  | true => exact (mirrors_reference _).some.loose
  | false => exact .loose (.pure fun _ => .none)

theorem mirrors_traitsClause (hn : C.Fuel n n') :
    Mirrors C P .loose (List.Forall₂ (Reference.Alike C.L)) (traitsClause n) (traitsClause n') := by
  refine (mirrors_skipSymbol _).same (r := .loose) fun b => ?_
  cases b with
  | true => exact mirrors_traitNames hn
  | false => exact .loose (.pure fun _ => .nil)

theorem mirrors_varDecl (he : Mirrors C True .loose (Expr.Alike C.L) expression expression') :
    Mirrors C P .taking (Stmt.Node.Alike C.L) (varDecl expression) (varDecl expression') := by
  refine .advance nofun ((mirrors_identifier _).bind (r := .taking) fun _ _ =>
    (mirrors_skipSymbol _).same (r := .taking) fun b => ?_)
  have hrest {Q : Prop} {name name' : Identifier} {init init' : Option Expr}
      (hname : Q → name.Alike C.L name') (hinit : Q → Option.Rel (Expr.Alike C.L) init init') :
      Mirrors C Q .taking (Stmt.Node.Alike C.L)
        (do
          expect .semicolon (.expectedAfter .semicolon .variableDeclaration)
          return .varDecl name init)
        (do
          expect .semicolon (.expectedAfter .semicolon .variableDeclaration)
          return .varDecl name' init') :=
    (mirrors_expect _ _).bind (r := .firm) fun _ _ => .pure fun ⟨hq, _⟩ =>
      .varDecl (hname hq) (hinit hq)
  cases b with
  | true => exact he.any.some.bind (r := .taking) fun _ _ => hrest (fun h => h.1.2) And.right
  | false => exact hrest And.right fun _ => .none

section

variable (hb : Mirrors C True .taking (List.Forall₂ (Stmt.Alike C.L)) body body') (hn : C.Fuel n n')

include hb hn

theorem mirrors_funDecl :
    Mirrors C P .taking (Stmt.Node.Alike C.L) (funDecl body n) (funDecl body' n') :=
  .advance nofun ((mirrors_namedFunction hb false hn).bind (r := .firm) fun _ _ =>
    .pure fun ⟨_, hf⟩ => .funDecl hf)

theorem mirrors_classDecl :
    Mirrors C P .taking (Stmt.Node.Alike C.L) (classDecl body n) (classDecl body' n') := by
  rw [classDecl_eq, classDecl_eq]
  refine .advance nofun ((mirrors_identifier _).bind (r := .taking) fun _ _ =>
    mirrors_superclassClause.bind (r := .taking) fun _ _ =>
      (mirrors_traitsClause hn).bind (r := .taking) fun _ _ =>
        (mirrors_expect _ _).bind (r := .taking) fun _ _ =>
          (mirrors_members hb hn hn).bind (r := .firm) fun _ _ => .pure ?_)
  rintro ⟨⟨⟨⟨⟨-, hname⟩, hsuper⟩, htraits⟩, -⟩, hmethods, hstatics⟩
  exact .classDecl hname hsuper htraits hmethods hstatics

theorem mirrors_traitDecl :
    Mirrors C P .taking (Stmt.Node.Alike C.L) (traitDecl body n) (traitDecl body' n') := by
  refine .advance nofun ((mirrors_identifier _).bind (r := .taking) fun _ _ =>
    (mirrors_expect _ _).bind (r := .taking) fun _ _ =>
      (mirrors_members hb hn hn).bind (r := .firm) fun _ _ => .pure ?_)
  rintro ⟨⟨⟨-, hname⟩, -⟩, hmethods, hstatics⟩
  exact .traitDecl hname hmethods hstatics

end

/-! ## Statements -/

section

variable {statement statement' : Rule Stmt}
  (he : Mirrors C True .loose (Expr.Alike C.L) expression expression')
  (hs : Mirrors C True .taking (Stmt.Alike C.L) statement statement')

include he

theorem mirrors_expressionStmt : Mirrors C P .taking (Stmt.Node.Alike C.L)
    (expressionStmt expression) (expressionStmt expression') :=
  he.any.bind (r := .taking) fun _ _ => (mirrors_expect _ _).bind (r := .firm) fun _ _ =>
    .pure fun ⟨⟨_, he⟩, _⟩ => .expression he

theorem mirrors_printStmt : Mirrors C P .taking (Stmt.Node.Alike C.L)
    (printStmt expression) (printStmt expression') :=
  .advance nofun (he.any.bind (r := .taking) fun _ _ =>
    (mirrors_expect _ _).bind (r := .firm) fun _ _ => .pure fun ⟨⟨_, he⟩, _⟩ => .print he)

theorem mirrors_optional (close : Symbol) : Mirrors C P .loose (Option.Rel (Expr.Alike C.L))
    (optional expression close) (optional expression' close) := by
  refine (mirrors_atSymbol _).same (r := .loose) fun b => ?_
  cases b with
  | true => exact .loose (.pure fun _ => .none)
  | false => exact he.any.some

theorem mirrors_returnStmt : Mirrors C P .taking (Stmt.Node.Alike C.L)
    (returnStmt expression) (returnStmt expression') :=
  .advance nofun ((mirrors_optional he _).bind (r := .taking) fun _ _ =>
    (mirrors_expect _ _).bind (r := .firm) fun _ _ => .pure fun ⟨⟨_, hvalue⟩, _⟩ => .return hvalue)

theorem mirrors_forInit : Mirrors C P .taking (Option.Rel (Stmt.Alike C.L))
    (forInit expression) (forInit expression') := by
  refine .skip (skipSymbol_apply _) rfl (.pure fun _ => .none) (.current nofun fun kind _ _ => ?_)
  exact .ite (fun _ => rfl) (mirrors_stmt (mirrors_varDecl he)).some
    (mirrors_stmt (mirrors_expressionStmt he)).some

include hs

theorem mirrors_ifStmt : Mirrors C P .taking (Stmt.Node.Alike C.L)
    (ifStmt expression statement) (ifStmt expression' statement') := by
  refine .advance nofun ((mirrors_expect _ _).bind (r := .taking) fun _ _ =>
    he.any.bind (r := .taking) fun _ _ => (mirrors_expect _ _).bind (r := .taking) fun _ _ =>
      hs.any.bind (r := .firm) fun _ _ => mirrors_skipElse.same (r := .firm) fun b => ?_)
  cases b with
  | true =>
    refine hs.any.some.firm.bind (r := .firm) fun _ _ => .pure ?_
    rintro ⟨⟨⟨⟨⟨-, -⟩, hcondition⟩, -⟩, hyes⟩, hno⟩
    exact .ifElse hcondition hyes hno
  | false =>
    refine .pure ?_
    rintro ⟨⟨⟨⟨-, -⟩, hcondition⟩, -⟩, hyes⟩
    exact .ifElse hcondition hyes .none

theorem mirrors_whileStmt : Mirrors C P .taking (Stmt.Node.Alike C.L)
    (whileStmt expression statement) (whileStmt expression' statement') := by
  refine .advance nofun ((mirrors_expect _ _).bind (r := .taking) fun _ _ =>
    he.any.bind (r := .taking) fun _ _ => (mirrors_expect _ _).bind (r := .taking) fun _ _ =>
      hs.any.bind (r := .firm) fun _ _ => .pure ?_)
  rintro ⟨⟨⟨⟨-, -⟩, hcondition⟩, -⟩, hbody⟩
  exact .while hcondition hbody

theorem mirrors_forStmt : Mirrors C P .taking (Stmt.Node.Alike C.L)
    (forStmt expression statement) (forStmt expression' statement') := by
  refine .advance nofun ((mirrors_expect _ _).bind (r := .taking) fun _ _ =>
    (mirrors_forInit he).bind (r := .taking) fun _ _ =>
      (mirrors_optional he _).bind (r := .taking) fun _ _ =>
        (mirrors_expect _ _).bind (r := .taking) fun _ _ =>
          (mirrors_optional he _).bind (r := .taking) fun _ _ =>
            (mirrors_expect _ _).bind (r := .taking) fun _ _ =>
              hs.any.bind (r := .firm) fun _ _ => .pure ?_)
  rintro ⟨⟨⟨⟨⟨⟨⟨-, -⟩, hinit⟩, hcondition⟩, -⟩, hstep⟩, -⟩, hbody⟩
  exact .for hinit hcondition hstep hbody

end

theorem mirrors_loopControl {node : Stmt.Node} (h : node.Alike C.L node) :
    Mirrors C P .taking (Stmt.Node.Alike C.L) (loopControl node) (loopControl node) :=
  .advance nofun ((mirrors_expect _ _).bind (r := .firm) fun _ _ => .pure fun _ => h)

theorem mirrors_blockStmt (hb : Mirrors C True .taking (List.Forall₂ (Stmt.Alike C.L)) body body') :
    Mirrors C P .taking (Stmt.Node.Alike C.L) (do advance; return .block (← body))
      (do advance; return .block (← body')) :=
  .advance nofun (hb.any.bind (r := .firm) fun _ _ => .pure fun ⟨_, hbody⟩ => .block hbody)

/-! ## Expressions -/

theorem mirrors_assignment {target target' value value' : Expr} {operator operator' : Span}
    (htarget : P → target.Alike C.L target') (hvalue : P → value.Alike C.L value')
    (hoperator : P → C.L.span operator operator') :
    Mirrors C P .firm (Expr.Node.Alike C.L) (assignment target value operator)
      (assignment target' value' operator') := by
  have hassignment (hp : P) : Mirrors C True .firm (Expr.Node.Alike C.L)
      (assignment target value operator) (assignment target' value' operator') := by
    obtain ⟨-, -, hnode⟩ := htarget hp
    cases hnode with
    | «variable» hname => exact .pure fun _ => .assign hname (hvalue hp)
    | get hobject hname => exact .pure fun _ => .set hobject hname (hvalue hp)
    | index harray hposition => exact .pure fun _ => .indexSet harray hposition (hvalue hp)
    | _ => exact (mirrors_fail _ fun _ => hoperator hp).firm
  refine ⟨?_, fun hp => (hassignment hp).ok trivial, fun hp => (hassignment hp).error trivial⟩
  intro s node t h he
  have ht : t = s := by
    obtain ⟨id, span, node⟩ := target
    cases node <;> cases h <;> rfl
  subst ht
  exact ⟨he, fun hs => ⟨hs, nofun⟩⟩

theorem mirrors_superName : Mirrors C P .taking (Expr.Node.Alike C.L) superName superName :=
  (mirrors_expect _ _).bind (r := .taking) fun _ _ =>
    (mirrors_identifier _).bind (r := .firm) fun _ _ => .pure fun ⟨_, hname⟩ => .super hname

section

variable (he : Mirrors C True .loose (Expr.Alike C.L) expression expression')

include he

theorem mirrors_grouping :
    Mirrors C P .taking (Expr.Node.Alike C.L) (grouping expression) (grouping expression') :=
  he.any.bind (r := .taking) fun _ _ => (mirrors_expect _ _).bind (r := .firm) fun _ _ =>
    .pure fun ⟨⟨_, hinner⟩, _⟩ => .group hinner

theorem mirrors_primary
    (hb : Mirrors C True .taking (List.Forall₂ (Stmt.Alike C.L)) body body') (hn : C.Fuel n n') :
    Mirrors C P .taking (Expr.Alike C.L) (primary expression body n)
      (primary expression' body' n') := by
  rw [primary_eq, primary_eq]
  refine .next (fun t s a u ht h => ?_) fun kind span span' => ?_
  · obtain ⟨_, _, h, -⟩ := EStateM.bind_eq_ok.1 h
    rw [primaryNode, ht] at h
    cases h
  refine Mirrors.bind (A := Expr.Node.Alike C.L) (g := .firm) (r := .firm) ?_ fun _ _ =>
    mirrors_expr (fun h => h.1.2) And.right
  have hliteral (l : Literal) : Mirrors C (P ∧ C.L.span span span') .firm (Expr.Node.Alike C.L)
      (pure (.literal l)) (pure (.literal l)) := .pure fun _ => .literal l
  have hfail : Mirrors C (P ∧ C.L.span span span') .firm (Expr.Node.Alike C.L)
      (fail span (.expectedExpression kind)) (fail span' (.expectedExpression kind)) :=
    (mirrors_fail _ And.right).firm
  cases kind with
  | number x => exact hliteral _
  | string text => exact hliteral _
  | identifier name => exact .pure fun ⟨_, hspan⟩ => .variable ⟨rfl, hspan⟩
  | keyword word =>
    cases word with
    | true | false | nil => exact hliteral _
    | this => exact .pure fun _ => .this
    | super => exact mirrors_superName.firm
    | «fun» => exact (mirrors_lambda hb And.right hn).firm
    | _ => exact hfail
  | symbol sym =>
    cases sym with
    | leftParen => exact (mirrors_grouping he).firm
    | leftBracket =>
      exact .firm ((mirrors_commaSeparated he _ hn).map fun _ _ _ hes => .array hes)
    | _ => exact hfail
  | _ => exact hfail

end

section

variable {expression expression' : Level → Rule Expr}
  (he : ∀ outer, Mirrors C True .loose (Expr.Alike C.L) (expression outer) (expression' outer))

include he

/-- What comes behind a left operand is read alike, as long as the token that comes is the same. -/
theorem mirrors_continuation {left left' : Expr} (hleft : P → left.Alike C.L left') (op : Operator)
    (hn : C.Fuel n n') :
    Mirrors C P .loose (Expr.Node.Alike C.L) (continuation expression left op n)
      (continuation expression' left' op n') := by
  refine .current nofun fun kind span span' => ?_
  cases op with
  | binary op =>
    refine .advance nofun ((he _).any.bind (r := .firm) fun _ _ => .pure ?_)
    rintro ⟨⟨hp, -⟩, hright⟩
    exact .binary (hleft hp) hright
  | logical op =>
    refine .advance nofun ((he _).any.bind (r := .firm) fun _ _ => .pure ?_)
    rintro ⟨⟨hp, -⟩, hright⟩
    exact .logical (hleft hp) hright
  | assign =>
    exact .advance nofun ((he _).any.bind (r := .firm) fun _ _ =>
      mirrors_assignment (fun h => hleft h.1.1) And.right fun h => h.1.2)
  | ternary =>
    refine .advance nofun ((he _).any.bind (r := .loose) fun _ _ =>
      (mirrors_expect _ _).bind (r := .loose) fun _ _ => (he _).any.bind (r := .firm) fun _ _ =>
        .pure ?_)
    rintro ⟨⟨⟨⟨hp, -⟩, hyes⟩, -⟩, hno⟩
    exact .ternary (hleft hp) hyes hno
  | call =>
    refine .loose ((mirrors_arguments (he _) hn).bind (r := .firm) fun _ _ => .pure ?_)
    rintro ⟨⟨hp, -⟩, hargs⟩
    exact .call (hleft hp) hargs
  | index =>
    refine .advance nofun ((he _).any.bind (r := .loose) fun _ _ =>
      .loose ((mirrors_expect _ _).bind (r := .firm) fun _ _ => .pure ?_))
    rintro ⟨⟨⟨hp, -⟩, hposition⟩, -⟩
    exact .index (hleft hp) hposition
  | property =>
    refine .advance nofun (.loose ((mirrors_identifier _).bind (r := .firm) fun _ _ => .pure ?_))
    rintro ⟨⟨hp, -⟩, hname⟩
    exact .get (hleft hp) hname

end

/-! ## Errors -/

theorem State.Alike.report {s s' : State} {e e' : ParseError} (hs : s.Alike C s')
    (he : e.Alike C.L e') : (s.report e).Alike C (s'.report e') :=
  ⟨hs.previous, hs.input, hs.errors.append (.cons he .nil), hs.nextId⟩

theorem State.Alike.skipStatement (hexact : C.exact) {s s' : State} (hs : s.Alike C s') (n : Nat) :
    (s.skipStatement n).Alike C (s'.skipStatement n) := by
  induction n generalizing s s' with
  | zero => exact hs
  | succ n ih =>
    have hspent := not_spent_of_exact hexact s
    rw [State.skipStatement, State.skipStatement, ← (hs.current hspent).1.kind]
    split
    · exact hs
    · split
      · exact hs.advance hspent
      · exact ih (hs.advance hspent)

theorem State.Alike.synchronize (hexact : C.exact) {s s' : State} (hs : s.Alike C s') :
    s.synchronize.Alike C s'.synchronize := by
  rw [State.synchronize, State.synchronize, ← hs.previous.kind]
  split
  · exact hs
  · obtain ⟨-, ts, ts', hu, hu', hts⟩ := hs.current (not_spent_of_exact hexact s)
    have hbehind' : C.behind' = [] := by
      rcases C.ends with h | ⟨⟨e, he, -⟩, -⟩
      · exact h.2
      · rw [C.of_exact hexact] at he
        cases he
    have hlen : s.upcoming.length = s'.upcoming.length := by
      rw [hu, hu', C.of_exact hexact, hbehind', List.append_nil, List.append_nil, hts.length_eq]
    rw [hlen]
    exact hs.skipStatement hexact _

/-- Where a rule has failed the next statement is found alike, by tokens of the same kinds. -/
theorem mirrors_recover {α : Type} {A : α → α → Prop} {rule rule' : Rule α}
    (h : Mirrors C P .taking A rule rule') :
    Mirrors C P .taking (Option.Rel A) (recover rule) (recover rule') where
  onward := by
    intro s o t hrun he
    unfold recover at hrun
    split at hrun
    · next a u hu =>
      cases hrun
      exact h.onward hu he
    · cases hrun
      have := State.errors_synchronize he
      simp [State.report] at this
    · cases hrun
  ok := by
    intro hp s s' hs o t hrun hgood
    unfold recover at hrun ⊢
    split at hrun
    · next a u hu =>
      cases hrun
      obtain ⟨a', t', hrun', ha, ht⟩ := h.ok hp hs hu hgood
      exact ⟨some a', t', by rw [hrun'], .some ha, ht⟩
    · next e u hu =>
      cases hrun
      have hexact : C.exact := by
        refine hgood.resolve_right fun hend => ?_
        have := State.errors_synchronize hend.1
        simp [State.report] at this
      obtain ⟨_, t', hrun', ⟨he⟩, ht⟩ := h.error hp hexact hs hu
      exact ⟨none, _, by rw [hrun'], .none, (ht.report he).synchronize hexact⟩
    · cases hrun
  error := by
    intro hp hexact s s' hs stop t hrun
    unfold recover at hrun ⊢
    split at hrun
    · cases hrun
    · cases hrun
    · next u hu =>
      cases hrun
      obtain ⟨_, t', hrun', ⟨⟩, ht⟩ := h.error hp hexact hs hu
      exact ⟨.outOfFuel, t', by rw [hrun'], .outOfFuel, ht⟩

/-! ## All rules -/

/-- All rules read alike with so much fuel. -/
structure RulesMirror (C : Comparison) (n n' : Nat) : Prop where
  expression : ∀ outer, Mirrors C True .loose (Expr.Alike C.L) (Parser.expression n outer)
    (Parser.expression n' outer)
  operators : ∀ outer left left', Mirrors C (left.Alike C.L left') .loose (Expr.Alike C.L)
    (Parser.operators n outer left) (Parser.operators n' outer left')
  block : Mirrors C True .taking (List.Forall₂ (Stmt.Alike C.L)) (Parser.block n) (Parser.block n')
  declaration : Mirrors C True .taking (Stmt.Alike C.L) (Parser.declaration n)
    (Parser.declaration n')
  statement : Mirrors C True .taking (Stmt.Alike C.L) (Parser.statement n) (Parser.statement n')

section

variable (ih : RulesMirror C n n') (hn : C.Fuel n n')

include ih

theorem mirrors_statement :
    Mirrors C True .taking (Stmt.Alike C.L) (statement (n + 1)) (statement (n' + 1)) := by
  have he := ih.expression .lowest
  refine .current nofun fun kind _ _ => ?_
  have hexpr {P : Prop} : Mirrors C P .taking (Stmt.Alike C.L)
      (stmt (expressionStmt (Parser.expression n .lowest)))
      (stmt (expressionStmt (Parser.expression n' .lowest))) := mirrors_stmt (mirrors_expressionStmt he)
  cases kind with
  | keyword word =>
    cases word with
    | print => exact mirrors_stmt (mirrors_printStmt he)
    | «if» => exact mirrors_stmt (mirrors_ifStmt he ih.statement)
    | «while» => exact mirrors_stmt (mirrors_whileStmt he ih.statement)
    | «for» => exact mirrors_stmt (mirrors_forStmt he ih.statement)
    | «return» => exact mirrors_stmt (mirrors_returnStmt he)
    | «break» => exact mirrors_stmt (mirrors_loopControl .break)
    | «continue» => exact mirrors_stmt (mirrors_loopControl .continue)
    | _ => exact hexpr
  | symbol sym =>
    cases sym with
    | leftBrace => exact mirrors_stmt (mirrors_blockStmt ih.block)
    | _ => exact hexpr
  | _ => exact hexpr

include hn

theorem mirrors_operators (outer : Level) (left left' : Expr) :
    Mirrors C (left.Alike C.L left') .loose (Expr.Alike C.L) (operators (n + 1) outer left)
      (operators (n' + 1) outer left') := by
  refine .current nofun fun kind _ _ => ?_
  have hstop {Q : Prop} : Mirrors C (left.Alike C.L left' ∧ Q) .loose (Expr.Alike C.L) (pure left)
      (pure left') := .loose (.pure And.left)
  cases Operator.ofToken? kind with
  | none => exact hstop
  | some op =>
    dsimp only
    refine .ite (fun _ => rfl) ?_ hstop
    refine (mirrors_continuation ih.expression And.left op hn).bind (r := .loose) fun _ _ =>
      (mirrors_expr (fun h => h.1.1.span) And.right).bind (r := .loose) fun _ _ =>
        (ih.operators outer _ _).imp And.right

theorem mirrors_expression (outer : Level) :
    Mirrors C True .loose (Expr.Alike C.L) (Parser.expression (n + 1) outer)
      (Parser.expression (n' + 1) outer) := by
  refine .current nofun fun kind span span' => ?_
  dsimp only
  cases unaryOp? kind with
  | some op =>
    refine .advance nofun ((ih.expression .unary).any.bind (r := .loose) fun _ _ =>
      (mirrors_expr (fun h => h.1.2) fun h => .unary h.2).bind (r := .loose) fun _ _ =>
        (ih.operators outer _ _).imp And.right)
  | none =>
    exact (mirrors_primary (ih.expression .lowest) ih.block hn).bind (r := .loose) fun _ _ =>
      (ih.operators outer _ _).imp And.right

theorem mirrors_declaration :
    Mirrors C True .taking (Stmt.Alike C.L) (declaration (n + 1)) (declaration (n' + 1)) := by
  refine .current nofun fun kind _ _ => ?_
  cases kind with
  | keyword word =>
    cases word with
    | var => exact mirrors_stmt (mirrors_varDecl (ih.expression .lowest))
    | «fun» => exact mirrors_stmt (mirrors_funDecl ih.block hn)
    | klass => exact mirrors_stmt (mirrors_classDecl ih.block hn)
    | trait => exact mirrors_stmt (mirrors_traitDecl ih.block hn)
    | _ => exact ih.statement.any
  | _ => exact ih.statement.any

end

theorem rulesMirror (hn : C.Fuel n n') : RulesMirror C n n' := by
  induction n generalizing n' with
  | zero =>
    exact { expression := fun outer =>
              (Mirrors.outOfFuel (f := fun n => expression n outer) hn rfl).loose
            operators := fun outer _ left' =>
              (Mirrors.outOfFuel (f := fun n => operators n outer left') hn rfl).loose
            block := .outOfFuel hn rfl
            declaration := .outOfFuel hn rfl
            statement := .outOfFuel hn rfl }
  | succ n ih =>
    obtain ⟨m, rfl, hm⟩ := hn.succ
    exact { expression := mirrors_expression (ih hm) hm
            operators := mirrors_operators (ih hm) hm
            block := mirrors_statements (mirrors_recover (ih hm).declaration) hm
            declaration := mirrors_declaration (ih hm) hm
            statement := mirrors_statement (ih hm) }

end Parser

end Lox

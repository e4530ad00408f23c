import Lox.Proofs.Scope.Initializer
import Lox.Proofs.Scope.Rules

/-!
# `for` as `while`

A `for` statement whose body does not continue it says the same as a block of its first clause and
a `while` loop with the step at the end of each turn:

    for (init; condition; step) body        { init while (condition) { body step; } }

A desugaring replaces any of the `for` statements of a program so, at whatever depth.  Nothing else
changes: what statements declare, what they read and what their parts are called by is the same.
-/

namespace Lox

/-! ## Continuing -/

mutual

/-- Whether a `continue` in the statement goes on with the loop around it. -/
def Stmt.continues : Stmt → Bool
  | ⟨_, node⟩ =>
    match node with
    | .continue => true
    | .block body => Stmt.anyContinues body
    | .ifElse _ yes no =>
      yes.continues || match no with
        | some s => s.continues
        | none => false
    | _ => false

def Stmt.anyContinues : List Stmt → Bool
  | [] => false
  | s :: ss => s.continues || Stmt.anyContinues ss

end

theorem Stmt.continues_ifElse (span : Span) (condition : Expr) (yes : Stmt) (no : Option Stmt) :
    (⟨span, .ifElse condition yes no⟩ : Stmt).continues =
      (yes.continues || no.any Stmt.continues) := by
  cases no <;> simp only [Stmt.continues, Option.any_none, Option.any_some]

/-! ## Desugarings -/

structure Desugaring where
  /-- Which `for` statements are to be replaced. -/
  picks : Stmt → Bool
  /-- The identity of the conditions that are written for those that are missing. -/
  id : ExprId

namespace Desugaring

variable (D : Desugaring)

/-- Replaces nothing. -/
def still : Desugaring := { D with picks := fun _ => false }

/-- Whether the `for` statement with these parts is replaced: one that its body continues is not. -/
def replaces (span : Span) (init : Option Stmt) (condition step : Option Expr) (body : Stmt) :
    Bool :=
  D.picks ⟨span, .for init condition step body⟩ && !body.continues

/-- The condition of a loop that has none. -/
def always (span : Span) : Expr := ⟨D.id, span, .literal (.boolean true)⟩

/-- One turn of a loop: its body, and the step. -/
def turn (step : Option Expr) (body : Stmt) : Stmt :=
  ⟨body.span, .block (body :: step.toList.map fun e => ⟨e.span, .expression e⟩)⟩

def whileLoop (span : Span) (condition step : Option Expr) (body : Stmt) : Stmt :=
  ⟨span, .while (condition.getD (D.always span)) (turn step body)⟩

/-- The block that says what a `for` statement says. -/
def loopBlock (span : Span) (init : Option Stmt) (condition step : Option Expr) (body : Stmt) :
    Stmt.Node :=
  .block (init.toList ++ [D.whileLoop span condition step body])

mutual

def expr : Expr → Expr
  | ⟨id, span, node⟩ => ⟨id, span,
    match node with
    | .literal value => .literal value
    | .group e => .group (expr e)
    | .binary op a b => .binary op (expr a) (expr b)
    | .unary op e => .unary op (expr e)
    | .logical op a b => .logical op (expr a) (expr b)
    | .ternary a b c => .ternary (expr a) (expr b) (expr c)
    | .variable name => .variable name
    | .assign name value => .assign name (expr value)
    | .call callee args => .call (expr callee) (exprs args)
    | .get object property => .get (expr object) property
    | .set object property value => .set (expr object) property (expr value)
    | .array elements => .array (exprs elements)
    | .index a b => .index (expr a) (expr b)
    | .indexSet a b c => .indexSet (expr a) (expr b) (expr c)
    | .lambda f => .lambda (function f)
    | .this => .this
    | .super method => .super method⟩

def exprs : List Expr → List Expr
  | [] => []
  | e :: es => expr e :: exprs es

def function : Function → Function
  | ⟨name, params, body, isGetter, span⟩ => ⟨name, params, stmts body, isGetter, span⟩

def functions : List Function → List Function
  | [] => []
  | f :: fs => function f :: functions fs

def stmt : Stmt → Stmt
  | ⟨span, node⟩ => ⟨span,
    match node with
    | .expression e => .expression (expr e)
    | .print e => .print (expr e)
    | .varDecl name init =>
      .varDecl name (match init with
        | some e => some (expr e)
        | none => none)
    | .block body => .block (stmts body)
    | .ifElse condition yes no =>
      .ifElse (expr condition) (stmt yes) (match no with
        | some s => some (stmt s)
        | none => none)
    | .while condition body => .while (expr condition) (stmt body)
    | .for init condition step body =>
      (if D.replaces span init condition step body then D.loopBlock span else .for)
        (match init with
          | some s => some (stmt s)
          | none => none)
        (match condition with
          | some e => some (expr e)
          | none => none)
        (match step with
          | some e => some (expr e)
          | none => none)
        (stmt body)
    | .break => .break
    | .continue => .continue
    | .funDecl f => .funDecl (function f)
    | .return value => .return (match value with
      | some e => some (expr e)
      | none => none)
    | .classDecl name superclass traits methods statics =>
      .classDecl name superclass traits (functions methods) (functions statics)
    | .traitDecl name methods statics => .traitDecl name (functions methods) (functions statics)⟩

def stmts : List Stmt → List Stmt
  | [] => []
  | s :: ss => stmt s :: stmts ss

end

section Parts

variable (span : Span)

theorem exprs_eq_map (es : List Expr) : D.exprs es = es.map D.expr := by
  induction es with
  | nil => rfl
  | cons e es ih => rw [exprs, ih, List.map_cons]

theorem functions_eq_map (fs : List Function) : D.functions fs = fs.map D.function := by
  induction fs with
  | nil => rfl
  | cons f fs ih => rw [functions, ih, List.map_cons]

theorem stmts_eq_map (ss : List Stmt) : D.stmts ss = ss.map D.stmt := by
  induction ss with
  | nil => rfl
  | cons s ss ih => rw [stmts, ih, List.map_cons]

theorem function_eq (f : Function) : D.function f = { f with body := D.stmts f.body } := by
  cases f
  rfl

theorem stmt_varDecl (name : Identifier) (init : Option Expr) :
    D.stmt ⟨span, .varDecl name init⟩ = ⟨span, .varDecl name (init.map D.expr)⟩ := by
  cases init <;> rfl

theorem stmt_ifElse (condition : Expr) (yes : Stmt) (no : Option Stmt) :
    D.stmt ⟨span, .ifElse condition yes no⟩ =
      ⟨span, .ifElse (D.expr condition) (D.stmt yes) (no.map D.stmt)⟩ := by
  cases no <;> rfl

theorem stmt_return (value : Option Expr) :
    D.stmt ⟨span, .return value⟩ = ⟨span, .return (value.map D.expr)⟩ := by
  cases value <;> rfl

theorem stmt_for (init : Option Stmt) (condition step : Option Expr) (body : Stmt) :
    D.stmt ⟨span, .for init condition step body⟩ =
      ⟨span, (if D.replaces span init condition step body then D.loopBlock span else .for)
        (init.map D.stmt) (condition.map D.expr) (step.map D.expr) (D.stmt body)⟩ := by
  cases init <;> cases condition <;> cases step <;> rfl

variable {span} {init : Option Stmt} {condition step : Option Expr} {body : Stmt} {D}

theorem stmt_for_of_replaces (h : D.replaces span init condition step body = true) :
    D.stmt ⟨span, .for init condition step body⟩ =
      ⟨span, D.loopBlock span (init.map D.stmt) (condition.map D.expr) (step.map D.expr)
        (D.stmt body)⟩ := by
  rw [stmt_for, if_pos h]

theorem stmt_for_of_not_replaces (h : D.replaces span init condition step body = false) :
    D.stmt ⟨span, .for init condition step body⟩ =
      ⟨span, .for (init.map D.stmt) (condition.map D.expr) (step.map D.expr) (D.stmt body)⟩ := by
  rw [stmt_for, if_neg (by rw [h]; decide)]

theorem continues_eq_false_of_replaces (h : D.replaces span init condition step body = true) :
    body.continues = false := by
  rw [replaces, Bool.and_eq_true, Bool.not_eq_true'] at h
  exact h.2

end Parts

/-! ## What stays as it is -/

section Same

variable {D}

@[simp] theorem name_function (f : Function) : (D.function f).name = f.name := by
  cases f
  rfl

@[simp] theorem params_function (f : Function) : (D.function f).params = f.params := by
  cases f
  rfl

@[simp] theorem body_function (f : Function) : (D.function f).body = D.stmts f.body := by
  cases f
  rfl

@[simp] theorem isDeclaration_stmt (s : Stmt) : (D.stmt s).isDeclaration = s.isDeclaration := by
  obtain ⟨span, node⟩ := s
  cases node with
  | ifElse condition yes no => rw [stmt_ifElse]; rfl
  | «for» init condition step body =>
    rw [stmt_for]
    split <;> rfl
  | _ => rfl

@[simp] theorem isClause_stmt (s : Stmt) : (D.stmt s).isClause = s.isClause := by
  obtain ⟨span, node⟩ := s
  cases node with
  | ifElse condition yes no => rw [stmt_ifElse]; rfl
  | «for» init condition step body =>
    rw [stmt_for]
    split <;> rfl
  | _ => rfl

theorem operands_expr (e : Expr) :
    (D.expr e).node.operands = e.node.operands.map D.expr := by
  obtain ⟨id, span, node⟩ := e
  cases node with
  | call callee args => simp [expr, Expr.Node.operands, exprs_eq_map]
  | array elements => simp [expr, Expr.Node.operands, exprs_eq_map]
  | _ => rfl

/-! ### Declared names -/

@[simp] theorem declared_stmt (s : Stmt) : (D.stmt s).declared = s.declared := by
  obtain ⟨span, node⟩ := s
  cases node with
  | ifElse condition yes no =>
    cases no <;> simp [stmt_ifElse, Stmt.declared, declared_stmt]
  | «while» condition body => simp [stmt, Stmt.declared, declared_stmt]
  | «for» init condition step body =>
    rw [stmt_for]
    split <;> rfl
  | funDecl f => simp [stmt, Stmt.declared]
  | _ => rfl

@[simp] theorem declarations_stmt (s : Stmt) : (D.stmt s).declarations = s.declarations := by
  obtain ⟨span, node⟩ := s
  cases node with
  | ifElse condition yes no =>
    cases no <;> simp [stmt_ifElse, Stmt.declarations, declarations_stmt]
  | «while» condition body => simp [stmt, Stmt.declarations, declarations_stmt]
  | «for» init condition step body =>
    rw [stmt_for]
    split <;> rfl
  | funDecl f => simp [stmt, Stmt.declarations]
  | _ => rfl

theorem declarations_stmts (ss : List Stmt) :
    (D.stmts ss).flatMap Stmt.declarations = ss.flatMap Stmt.declarations := by
  rw [stmts_eq_map, List.flatMap_map]
  exact List.flatMap_congr fun s _ => declarations_stmt s

/-! ### Loop blocks -/

section LoopBlock

variable {span : Span} {init : Option Stmt} {condition step : Option Expr} {body : Stmt}

theorem wellFormed_turn (hs : ∀ e ∈ step, e.WellFormed) (hb : body.WellFormed) :
    (turn step body).WellFormed := by
  refine ⟨hb, (Stmt.allWellFormed_iff _).2 fun s hstep => ?_⟩
  obtain ⟨e, he, rfl⟩ := List.mem_map.1 hstep
  exact hs e (Option.mem_toList.1 he)

theorem wellFormed_loopBlock (hi : ∀ s ∈ init, s.WellFormed) (hc : ∀ e ∈ condition, e.WellFormed)
    (hs : ∀ e ∈ step, e.WellFormed) (hb : body.WellFormed) :
    Stmt.WellFormed ⟨span, D.loopBlock span init condition step body⟩ := by
  refine (Stmt.allWellFormed_iff _).2 (List.forall_mem_append.2
    ⟨fun s hinit => hi s (Option.mem_toList.1 hinit), List.forall_mem_singleton.2 ?_⟩)
  refine ⟨?_, rfl, wellFormed_turn hs hb⟩
  cases condition with
  | none => trivial
  | some e => exact hc e rfl

theorem reads_loopBlock {x : String} (hb : body.declared = []) :
    Stmt.reads x ⟨span, D.loopBlock span init condition step body⟩ =
      ((init.map (Stmt.reads x)).getD false ||
        (!((init.map Stmt.declared).getD []).contains x &&
          ((condition.map (Expr.reads x)).getD false ||
            ((step.map (Expr.reads x)).getD false || body.reads x)))) := by
  have hturn : (turn step body).reads x =
      ((step.map (Expr.reads x)).getD false || body.reads x) := by
    cases step <;> simp [turn, Stmt.reads, Stmt.anyReads, hb, Bool.or_comm]
  have hloop : (D.whileLoop span condition step body).reads x =
      ((condition.map (Expr.reads x)).getD false || (turn step body).reads x) := by
    cases condition <;> rfl
  rw [← hturn, ← hloop]
  cases init <;> simp [loopBlock, Stmt.reads, Stmt.anyReads]

end LoopBlock

/-! ### Form -/

mutual

theorem wellFormed_expr (e : Expr) (h : e.WellFormed) : (D.expr e).WellFormed := by
  obtain ⟨id, span, node⟩ := e
  cases node with
  | literal value => trivial
  | group e => exact wellFormed_expr e h
  | unary op e => exact wellFormed_expr e h
  | get e property => exact wellFormed_expr e h
  | binary op a b => exact ⟨wellFormed_expr a h.1, wellFormed_expr b h.2⟩
  | logical op a b => exact ⟨wellFormed_expr a h.1, wellFormed_expr b h.2⟩
  | index a b => exact ⟨wellFormed_expr a h.1, wellFormed_expr b h.2⟩
  | set a property b => exact ⟨wellFormed_expr a h.1, wellFormed_expr b h.2⟩
  | ternary a b c =>
    exact ⟨wellFormed_expr a h.1, wellFormed_expr b h.2.1, wellFormed_expr c h.2.2⟩
  | indexSet a b c =>
    exact ⟨wellFormed_expr a h.1, wellFormed_expr b h.2.1, wellFormed_expr c h.2.2⟩
  | call callee args => exact ⟨wellFormed_expr callee h.1, wellFormed_exprs args h.2⟩
  | array elements => exact wellFormed_exprs elements h
  | «variable» name => exact h
  | assign name value => exact ⟨h.1, wellFormed_expr value h.2⟩
  | lambda f => exact wellFormed_function f h
  | this => trivial
  | super method => trivial

theorem wellFormed_exprs (es : List Expr) (h : Expr.AllWellFormed es) :
    Expr.AllWellFormed (D.exprs es) := by
  cases es with
  | nil => trivial
  | cons e es => exact ⟨wellFormed_expr e h.1, wellFormed_exprs es h.2⟩

theorem wellFormed_function (f : Function) (h : f.WellFormed) : (D.function f).WellFormed := by
  obtain ⟨name, params, body, isGetter, span⟩ := f
  exact ⟨h.1, h.2.1, wellFormed_stmts body h.2.2⟩

theorem wellFormed_functions (fs : List Function) (h : Function.AllWellFormed fs) :
    Function.AllWellFormed (D.functions fs) := by
  cases fs with
  | nil => trivial
  | cons f fs => exact ⟨wellFormed_function f h.1, wellFormed_functions fs h.2⟩

/-- What statements are replaced by is well-formed if they are. -/
theorem wellFormed_stmt (s : Stmt) (h : s.WellFormed) : (D.stmt s).WellFormed := by
  obtain ⟨span, node⟩ := s
  cases node with
  | expression e => exact wellFormed_expr e h
  | print e => exact wellFormed_expr e h
  | varDecl name init =>
    cases init with
    | none => exact h
    | some e => exact ⟨h.1, wellFormed_expr e h.2⟩
  | block body => exact wellFormed_stmts body h
  | ifElse condition yes no =>
    rw [stmt_ifElse, Stmt.wellFormed_ifElse]
    obtain ⟨hc, hyes, hno⟩ := Stmt.wellFormed_ifElse.1 h
    refine ⟨wellFormed_expr condition hc,
      ⟨(isDeclaration_stmt yes).trans hyes.1, wellFormed_stmt yes hyes.2⟩, ?_⟩
    cases no with
    | none => exact fun _ hs => by cases hs
    | some no =>
      rintro _ ⟨⟩
      exact ⟨(isDeclaration_stmt no).trans (hno no rfl).1, wellFormed_stmt no (hno no rfl).2⟩
  | «while» condition body =>
    exact ⟨wellFormed_expr condition h.1, (isDeclaration_stmt body).trans h.2.1,
      wellFormed_stmt body h.2.2⟩
  | «for» init condition step body =>
    obtain ⟨hi, hc, hs, hd, hb⟩ := Stmt.wellFormed_for.1 h
    have hi : ∀ s ∈ init.map D.stmt, s.isClause = true ∧ s.WellFormed := by
      cases init with
      | none => exact fun _ hs => by cases hs
      | some s =>
        rintro _ ⟨⟩
        exact ⟨(isClause_stmt s).trans (hi s rfl).1, wellFormed_stmt s (hi s rfl).2⟩
    have hc : ∀ e ∈ condition.map D.expr, e.WellFormed := by
      cases condition with
      | none => exact fun _ he => by cases he
      | some e => rintro _ ⟨⟩; exact wellFormed_expr e (hc e rfl)
    have hs : ∀ e ∈ step.map D.expr, e.WellFormed := by
      cases step with
      | none => exact fun _ he => by cases he
      | some e => rintro _ ⟨⟩; exact wellFormed_expr e (hs e rfl)
    have hb := wellFormed_stmt body hb
    rw [stmt_for]
    split
    · exact wellFormed_loopBlock (fun s hs => (hi s hs).2) hc hs hb
    · exact Stmt.wellFormed_for.2 ⟨hi, hc, hs, (isDeclaration_stmt body).trans hd, hb⟩
  | «break» => trivial
  | «continue» => trivial
  | funDecl f =>
    exact ⟨(congrArg Identifier.Plain (name_function f)).mpr h.1, wellFormed_function f h.2⟩
  | «return» value =>
    cases value with
    | none => trivial
    | some e => exact wellFormed_expr e h
  | classDecl name superclass traits methods statics =>
    exact ⟨h.1, h.2.1, h.2.2.1, wellFormed_functions methods h.2.2.2.1,
      wellFormed_functions statics h.2.2.2.2⟩
  | traitDecl name methods statics =>
    exact ⟨h.1, wellFormed_functions methods h.2.1, wellFormed_functions statics h.2.2⟩

theorem wellFormed_stmts (ss : List Stmt) (h : Stmt.AllWellFormed ss) :
    Stmt.AllWellFormed (D.stmts ss) := by
  cases ss with
  | nil => trivial
  | cons s ss => exact ⟨wellFormed_stmt s h.1, wellFormed_stmts ss h.2⟩

end

/-! ### Names that are read -/

variable (x : String)

mutual

theorem reads_expr (e : Expr) (h : e.WellFormed) : (D.expr e).reads x = e.reads x := by
  obtain ⟨id, span, node⟩ := e
  cases node with
  | literal value => rfl
  | group e => exact reads_expr e h
  | unary op e => exact reads_expr e h
  | get e property => exact reads_expr e h
  | binary op a b => exact congrArg₂ or (reads_expr a h.1) (reads_expr b h.2)
  | logical op a b => exact congrArg₂ or (reads_expr a h.1) (reads_expr b h.2)
  | index a b => exact congrArg₂ or (reads_expr a h.1) (reads_expr b h.2)
  | set a property b => exact congrArg₂ or (reads_expr b h.2) (reads_expr a h.1)
  | ternary a b c =>
    exact congrArg₂ or (reads_expr a h.1) (congrArg₂ or (reads_expr b h.2.1) (reads_expr c h.2.2))
  | indexSet a b c =>
    exact congrArg₂ or (reads_expr a h.1) (congrArg₂ or (reads_expr b h.2.1) (reads_expr c h.2.2))
  | call callee args => exact congrArg₂ or (reads_expr callee h.1) (reads_exprs args h.2)
  | array elements => exact reads_exprs elements h
  | «variable» name => rfl
  | assign name value => exact reads_expr value h.2
  | lambda f => exact reads_function f h
  | this => rfl
  | super method => rfl

theorem reads_exprs (es : List Expr) (h : Expr.AllWellFormed es) :
    Expr.anyReads x (D.exprs es) = Expr.anyReads x es := by
  cases es with
  | nil => rfl
  | cons e es => exact congrArg₂ or (reads_expr e h.1) (reads_exprs es h.2)

theorem reads_function (f : Function) (h : f.WellFormed) :
    (D.function f).reads x = f.reads x := by
  obtain ⟨name, params, body, isGetter, span⟩ := f
  exact congrArg (!(params.map Identifier.name).contains x && ·) (reads_stmts body h.2.2)

theorem reads_functions (fs : List Function) (h : Function.AllWellFormed fs) :
    Function.anyReads x (D.functions fs) = Function.anyReads x fs := by
  cases fs with
  | nil => rfl
  | cons f fs => exact congrArg₂ or (reads_function f h.1) (reads_functions fs h.2)

/-- A `for` and what it is replaced by read the same variables around. -/
theorem reads_stmt (s : Stmt) (h : s.WellFormed) : (D.stmt s).reads x = s.reads x := by
  obtain ⟨span, node⟩ := s
  cases node with
  | expression e => exact reads_expr e h
  | print e => exact reads_expr e h
  | varDecl name init =>
    cases init with
    | none => rfl
    | some e => exact congrArg (name.name != x && ·) (reads_expr e h.2)
  | block body => exact reads_stmts body h
  | ifElse condition yes no =>
    obtain ⟨hc, hyes, hno⟩ := Stmt.wellFormed_ifElse.1 h
    cases no with
    | none => simp [stmt_ifElse, Stmt.reads, reads_expr condition hc, reads_stmt yes hyes.2]
    | some no =>
      simp [stmt_ifElse, Stmt.reads, reads_expr condition hc, reads_stmt yes hyes.2,
        reads_stmt no (hno no rfl).2]
  | «while» condition body =>
    exact congrArg₂ or (reads_expr condition h.1) (reads_stmt body h.2.2)
  | «for» init condition step body =>
    obtain ⟨hi, hc, hs, hd, hb⟩ := Stmt.wellFormed_for.1 h
    have hi : (init.map D.stmt).map (Stmt.reads x) = init.map (Stmt.reads x) := by
      cases init with
      | none => rfl
      | some s => exact congrArg some (reads_stmt s (hi s rfl).2)
    have hdeclared : (init.map D.stmt).map Stmt.declared = init.map Stmt.declared := by
      cases init with
      | none => rfl
      | some s => exact congrArg some (declared_stmt s)
    have hc : (condition.map D.expr).map (Expr.reads x) = condition.map (Expr.reads x) := by
      cases condition with
      | none => rfl
      | some e => exact congrArg some (reads_expr e (hc e rfl))
    have hs : (step.map D.expr).map (Expr.reads x) = step.map (Expr.reads x) := by
      cases step with
      | none => rfl
      | some e => exact congrArg some (reads_expr e (hs e rfl))
    have hb' := reads_stmt body hb
    rw [Stmt.reads_for, stmt_for, ← hi, ← hdeclared, ← hc, ← hs, ← hb']
    split
    · refine reads_loopBlock ?_
      rw [declared_stmt, body.declared_eq_nil hb hd]
    · rw [Stmt.reads_for]
  | «break» => rfl
  | «continue» => rfl
  | funDecl f =>
    simp only [stmt, Stmt.reads, name_function, reads_function f h.2]
  | «return» value =>
    cases value with
    | none => rfl
    | some e => exact reads_expr e h
  | classDecl name superclass traits methods statics =>
    simp only [stmt, Stmt.reads, reads_functions methods h.2.2.2.1,
      reads_functions statics h.2.2.2.2]
  | traitDecl name methods statics =>
    simp only [stmt, Stmt.reads, reads_functions methods h.2.1, reads_functions statics h.2.2]

theorem reads_stmts (ss : List Stmt) (h : Stmt.AllWellFormed ss) :
    Stmt.anyReads x (D.stmts ss) = Stmt.anyReads x ss := by
  cases ss with
  | nil => rfl
  | cons s ss =>
    simp only [stmts, Stmt.anyReads, declared_stmt, reads_stmt s h.1, reads_stmts ss h.2]

end

/-! ### Identities -/

section Identities

variable {id : ExprId}

/-- In a loop block the condition that is written for a missing one alone is new. -/
theorem count_loopBlock (hid : id ≠ D.id) {span : Span} {init : Option Stmt}
    {condition step : Option Expr} {body : Stmt} :
    (Stmt.ids ⟨span, D.loopBlock span init condition step body⟩).count id =
      (Stmt.ids ⟨span, .for init condition step body⟩).count id := by
  have hturn : (turn step body).ids.count id =
      ((step.map Expr.ids).getD []).count id + body.ids.count id := by
    cases step <;> simp [turn, Stmt.ids, Stmt.idsOf, Nat.add_comm]
  have hloop : (D.whileLoop span condition step body).ids.count id =
      ((condition.map Expr.ids).getD []).count id + (turn step body).ids.count id := by
    cases condition with
    | none => simp [whileLoop, always, Stmt.ids, Expr.ids, hid.symm]
    | some e => exact List.count_append
  rw [Stmt.ids_for, List.count_append, List.count_append, List.count_append, ← hturn, ← hloop]
  cases init <;> simp [loopBlock, Stmt.ids, Stmt.idsOf]

mutual

theorem count_expr (hid : id ≠ D.id) (e : Expr) : (D.expr e).ids.count id = e.ids.count id := by
  obtain ⟨id', span, node⟩ := e
  cases node with
  | call callee args => simp [expr, Expr.ids, List.count_cons, count_expr hid, count_exprs hid]
  | array elements => simp [expr, Expr.ids, List.count_cons, count_exprs hid]
  | lambda f => simp [expr, Expr.ids, List.count_cons, count_function hid]
  | _ => simp [expr, Expr.ids, List.count_cons, count_expr hid]

theorem count_exprs (hid : id ≠ D.id) (es : List Expr) :
    (Expr.idsOf (D.exprs es)).count id = (Expr.idsOf es).count id := by
  cases es with
  | nil => rfl
  | cons e es => simp [exprs, Expr.idsOf, count_expr hid e, count_exprs hid es]

theorem count_function (hid : id ≠ D.id) (f : Function) :
    (D.function f).ids.count id = f.ids.count id := by
  obtain ⟨name, params, body, isGetter, span⟩ := f
  exact count_stmts hid body

theorem count_functions (hid : id ≠ D.id) (fs : List Function) :
    (Function.idsOf (D.functions fs)).count id = (Function.idsOf fs).count id := by
  cases fs with
  | nil => rfl
  | cons f fs => simp [functions, Function.idsOf, count_function hid f, count_functions hid fs]

theorem count_stmt (hid : id ≠ D.id) (s : Stmt) : (D.stmt s).ids.count id = s.ids.count id := by
  obtain ⟨span, node⟩ := s
  cases node with
  | expression e => exact count_expr hid e
  | print e => exact count_expr hid e
  | varDecl name init =>
    cases init with
    | none => rfl
    | some e => exact count_expr hid e
  | block body => exact count_stmts hid body
  | ifElse condition yes no =>
    cases no <;> simp [stmt_ifElse, Stmt.ids, count_expr hid condition, count_stmt hid]
  | «while» condition body => simp [stmt, Stmt.ids, count_expr hid condition, count_stmt hid body]
  | «for» init condition step body =>
    have hfor : (Stmt.ids ⟨span, .for (init.map D.stmt) (condition.map D.expr) (step.map D.expr)
        (D.stmt body)⟩).count id = (Stmt.ids ⟨span, .for init condition step body⟩).count id := by
      cases init <;> cases condition <;> cases step <;>
        simp [Stmt.ids, count_expr hid, count_stmt hid]
    rw [stmt_for, ← hfor]
    split
    · exact count_loopBlock hid
    · rfl
  | «break» => rfl
  | «continue» => rfl
  | funDecl f => exact count_function hid f
  | «return» value =>
    cases value with
    | none => rfl
    | some e => exact count_expr hid e
  | classDecl name superclass traits methods statics =>
    simp [stmt, Stmt.ids, count_functions hid methods, count_functions hid statics]
  | traitDecl name methods statics =>
    simp [stmt, Stmt.ids, count_functions hid methods, count_functions hid statics]

theorem count_stmts (hid : id ≠ D.id) (ss : List Stmt) :
    (Stmt.idsOf (D.stmts ss)).count id = (Stmt.idsOf ss).count id := by
  cases ss with
  | nil => rfl
  | cons s ss => simp [stmts, Stmt.idsOf, count_stmt hid s, count_stmts hid ss]

end

end Identities

/-! ### Direct actions -/

/-- Of what an expression does directly only the bodies of lambdas are changed. -/
def action (D : Desugaring) : Action → Action
  | .lambda f => .lambda (D.function f)
  | a => a

mutual

theorem direct_expr (e : Expr) : (D.expr e).direct = e.direct.map D.action := by
  obtain ⟨id, span, node⟩ := e
  cases node with
  | call callee args => simp [expr, Expr.direct, direct_expr callee, direct_exprs args]
  | array elements => exact direct_exprs elements
  | _ => simp [expr, Expr.direct, direct_expr, action]

theorem direct_exprs (es : List Expr) :
    Expr.directs (D.exprs es) = (Expr.directs es).map D.action := by
  cases es with
  | nil => rfl
  | cons e es => simp [exprs, Expr.directs, direct_expr e, direct_exprs es]

end

theorem readInLambda_action (x : String) {actions : List Action}
    (h : ∀ a ∈ actions, a.WellFormed) :
    readInLambda x (actions.map D.action) = readInLambda x actions := by
  induction actions with
  | nil => rfl
  | cons a actions ih =>
    obtain ⟨ha, hactions⟩ := List.forall_mem_cons.1 h
    have hfirst : readInLambda x [D.action a] = readInLambda x [a] := by
      cases a with
      | lambda f => simp [readInLambda, action, reads_function x f ha]
      | _ => rfl
    have hcons (a : Action) (rest : List Action) :
        readInLambda x (a :: rest) = (readInLambda x [a] || readInLambda x rest) := by
      simp [readInLambda]
    rw [List.map_cons, hcons, hfirst, ih hactions, ← hcons]

end Same

/-! ## Replacing nothing -/

section Still

@[simp] theorem replaces_still (span : Span) (init : Option Stmt) (condition step : Option Expr)
    (body : Stmt) : D.still.replaces span init condition step body = false := rfl

mutual

theorem expr_still (e : Expr) : D.still.expr e = e := by
  obtain ⟨id, span, node⟩ := e
  cases node with
  | call callee args => simp [expr, expr_still callee, exprs_still args]
  | array elements => simp [expr, exprs_still elements]
  | lambda f => simp [expr, function_still f]
  | _ => simp [expr, expr_still]

theorem exprs_still (es : List Expr) : D.still.exprs es = es := by
  cases es with
  | nil => rfl
  | cons e es => rw [exprs, expr_still, exprs_still]

theorem function_still (f : Function) : D.still.function f = f := by
  obtain ⟨name, params, body, isGetter, span⟩ := f
  rw [function, stmts_still]

theorem functions_still (fs : List Function) : D.still.functions fs = fs := by
  cases fs with
  | nil => rfl
  | cons f fs => rw [functions, function_still, functions_still]

theorem stmt_still (s : Stmt) : D.still.stmt s = s := by
  obtain ⟨span, node⟩ := s
  cases node with
  | expression e => simp [stmt, expr_still]
  | print e => simp [stmt, expr_still]
  | varDecl name init => cases init <;> simp [stmt, expr_still]
  | block body => simp [stmt, stmts_still]
  | ifElse condition yes no => cases no <;> simp [stmt, expr_still, stmt_still]
  | «while» condition body => simp [stmt, expr_still, stmt_still]
  | «for» init condition step body =>
    cases init <;> cases condition <;> cases step <;> simp [stmt, expr_still, stmt_still]
  | «break» => rfl
  | «continue» => rfl
  | funDecl f => simp [stmt, function_still]
  | «return» value => cases value <;> simp [stmt, expr_still]
  | classDecl name superclass traits methods statics => simp [stmt, functions_still]
  | traitDecl name methods statics => simp [stmt, functions_still]

theorem stmts_still (ss : List Stmt) : D.still.stmts ss = ss := by
  cases ss with
  | nil => rfl
  | cons s ss => rw [stmts, stmt_still, stmts_still]

end

end Still

end Desugaring

end Lox

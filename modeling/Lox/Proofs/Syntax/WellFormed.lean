import Lox.Proofs.Scope.Place

/-!
# Well-formed trees

What the grammar says of a tree beyond its form: names that are declared or used are no keywords,
the bodies of `if`, `while` and `for` are no declarations, a `for` begins with a variable or an
expression, and a getter has no parameters.
-/

namespace Lox

/-- The name is no keyword. -/
def Name.Plain (name : String) : Prop := Keyword.ofText? name = none

def Identifier.Plain (name : Identifier) : Prop := Name.Plain name.name

/-- Whether the statement adds a name to the scope around it. -/
def Stmt.isDeclaration (s : Stmt) : Bool :=
  match s.node with
  | .varDecl _ _ | .funDecl _ | .classDecl _ _ _ _ _ | .traitDecl _ _ _ => true
  | _ => false

/-- Whether the statement can be the first clause of a `for`. -/
def Stmt.isClause (s : Stmt) : Bool :=
  match s.node with
  | .varDecl _ _ | .expression _ => true
  | _ => false

mutual

def Expr.WellFormed : Expr → Prop
  | ⟨_, _, node⟩ =>
    match node with
    | .literal _ | .this | .super _ => True
    | .variable name => name.Plain
    | .assign name value => name.Plain ∧ value.WellFormed
    | .group e | .unary _ e | .get e _ => e.WellFormed
    | .binary _ a b | .logical _ a b | .index a b | .set a _ b => a.WellFormed ∧ b.WellFormed
    | .ternary a b c | .indexSet a b c => a.WellFormed ∧ b.WellFormed ∧ c.WellFormed
    | .call callee args => callee.WellFormed ∧ Expr.AllWellFormed args
    | .array elements => Expr.AllWellFormed elements
    | .lambda f => f.WellFormed

def Expr.AllWellFormed : List Expr → Prop
  | [] => True
  | e :: es => e.WellFormed ∧ Expr.AllWellFormed es

def Function.WellFormed : Function → Prop
  | ⟨_, params, body, isGetter, _⟩ =>
    (∀ p ∈ params, p.Plain) ∧ (isGetter = true → params = []) ∧ Stmt.AllWellFormed body

def Function.AllWellFormed : List Function → Prop
  | [] => True
  | f :: fs => f.WellFormed ∧ Function.AllWellFormed fs

def Stmt.WellFormed : Stmt → Prop
  | ⟨_, node⟩ =>
    match node with
    | .expression e | .print e => e.WellFormed
    | .varDecl name init =>
      name.Plain ∧ match init with
        | some e => e.WellFormed
        | none => True
    | .block body => Stmt.AllWellFormed body
    | .ifElse condition yes no =>
      condition.WellFormed ∧ (yes.isDeclaration = false ∧ yes.WellFormed) ∧ match no with
        | some s => s.isDeclaration = false ∧ s.WellFormed
        | none => True
    | .while condition body =>
      condition.WellFormed ∧ body.isDeclaration = false ∧ body.WellFormed
    | .for init condition step body =>
      (match init with
        | some s => s.isClause = true ∧ s.WellFormed
        | none => True) ∧
      (match condition with
        | some e => e.WellFormed
        | none => True) ∧
      (match step with
        | some e => e.WellFormed
        | none => True) ∧ body.isDeclaration = false ∧ body.WellFormed
    | .break | .continue => True
    | .funDecl f => f.name.Plain ∧ f.WellFormed
    | .return value => match value with
      | some e => e.WellFormed
      | none => True
    | .classDecl name superclass traits methods statics =>
      name.Plain ∧ (∀ r ∈ superclass, r.name.Plain) ∧ (∀ r ∈ traits, r.name.Plain) ∧
        Function.AllWellFormed methods ∧ Function.AllWellFormed statics
    | .traitDecl name methods statics =>
      name.Plain ∧ Function.AllWellFormed methods ∧ Function.AllWellFormed statics

def Stmt.AllWellFormed : List Stmt → Prop
  | [] => True
  | s :: ss => s.WellFormed ∧ Stmt.AllWellFormed ss

end

/-! ## Lemmas -/

theorem Expr.allWellFormed_iff (es : List Expr) :
    Expr.AllWellFormed es ↔ ∀ e ∈ es, e.WellFormed := by
  induction es with
  | nil => simp [Expr.AllWellFormed]
  | cons e es ih => simp [Expr.AllWellFormed, ih]

theorem Function.allWellFormed_iff (fs : List Function) :
    Function.AllWellFormed fs ↔ ∀ f ∈ fs, f.WellFormed := by
  induction fs with
  | nil => simp [Function.AllWellFormed]
  | cons f fs ih => simp [Function.AllWellFormed, ih]

theorem Function.wellFormed_iff {f : Function} :
    f.WellFormed ↔ (∀ p ∈ f.params, p.Plain) ∧ (f.isGetter = true → f.params = []) ∧
      Stmt.AllWellFormed f.body := by
  obtain ⟨name, params, body, isGetter, span⟩ := f
  rw [Function.WellFormed]

theorem Stmt.allWellFormed_iff (ss : List Stmt) :
    Stmt.AllWellFormed ss ↔ ∀ s ∈ ss, s.WellFormed := by
  induction ss with
  | nil => simp [Stmt.AllWellFormed]
  | cons s ss ih => simp [Stmt.AllWellFormed, ih]

theorem Stmt.wellFormed_varDecl {span : Span} {name : Identifier} {init : Option Expr} :
    Stmt.WellFormed ⟨span, .varDecl name init⟩ ↔ name.Plain ∧ ∀ e ∈ init, e.WellFormed := by
  cases init <;> simp [Stmt.WellFormed]

theorem Stmt.wellFormed_ifElse {span : Span} {condition : Expr} {yes : Stmt}
    {no : Option Stmt} :
    Stmt.WellFormed ⟨span, .ifElse condition yes no⟩ ↔
      condition.WellFormed ∧ (yes.isDeclaration = false ∧ yes.WellFormed) ∧
        ∀ s ∈ no, s.isDeclaration = false ∧ s.WellFormed := by
  cases no <;> simp [Stmt.WellFormed]

theorem Stmt.wellFormed_for {span : Span} {init : Option Stmt} {condition step : Option Expr}
    {body : Stmt} :
    Stmt.WellFormed ⟨span, .for init condition step body⟩ ↔
      (∀ s ∈ init, s.isClause = true ∧ s.WellFormed) ∧ (∀ e ∈ condition, e.WellFormed) ∧
        (∀ e ∈ step, e.WellFormed) ∧ body.isDeclaration = false ∧ body.WellFormed := by
  cases init <;> cases condition <;> cases step <;> simp [Stmt.WellFormed]

theorem Stmt.wellFormed_return {span : Span} {value : Option Expr} :
    Stmt.WellFormed ⟨span, .return value⟩ ↔ ∀ e ∈ value, e.WellFormed := by
  cases value <;> simp [Stmt.WellFormed]

theorem Expr.wellFormed_of_mem_operands {id : ExprId} {span : Span} {node : Expr.Node}
    {e : Expr} (h : Expr.WellFormed ⟨id, span, node⟩) (he : e ∈ node.operands) :
    e.WellFormed := by
  cases node <;> simp only [Expr.Node.operands, List.mem_cons, List.not_mem_nil, or_false] at he
  case call =>
    rcases he with rfl | he
    · exact h.1
    · exact (Expr.allWellFormed_iff _).1 h.2 _ he
  case array => exact (Expr.allWellFormed_iff _).1 h _ he
  all_goals
    simp only [Expr.WellFormed] at h
    grind

theorem Name.not_plain_this : ¬Name.Plain Name.this := by
  unfold Name.Plain
  decide

theorem Name.not_plain_super : ¬Name.Plain Name.super := by
  unfold Name.Plain
  decide

theorem Name.Plain.ne_super {name : String} (h : Name.Plain name) : name ≠ Name.super := by
  rintro rfl
  exact Name.not_plain_super h

end Lox

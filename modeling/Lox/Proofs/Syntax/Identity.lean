import Lox.Syntax.Tree

/-!
# Identities

The identities of all expressions and references in a part of a program, each as often as it is
there.
-/

namespace Lox

mutual

def Expr.ids : Expr → List ExprId
  | ⟨id, _, node⟩ =>
    id :: match node with
      | .literal _ | .variable _ | .this | .super _ => []
      | .group e | .unary _ e | .assign _ e | .get e _ => e.ids
      | .binary _ a b | .logical _ a b | .index a b | .set b _ a => a.ids ++ b.ids
      | .ternary a b c | .indexSet a b c => a.ids ++ (b.ids ++ c.ids)
      | .call callee args => callee.ids ++ Expr.idsOf args
      | .array elements => Expr.idsOf elements
      | .lambda f => f.ids

def Expr.idsOf : List Expr → List ExprId
  | [] => []
  | e :: es => e.ids ++ Expr.idsOf es

def Function.ids : Function → List ExprId
  | ⟨_, _, body, _, _⟩ => Stmt.idsOf body

def Function.idsOf : List Function → List ExprId
  | [] => []
  | f :: fs => f.ids ++ Function.idsOf fs

def Stmt.ids : Stmt → List ExprId
  | ⟨_, node⟩ =>
    match node with
    | .expression e | .print e => e.ids
    | .varDecl _ init => match init with
      | some e => e.ids
      | none => []
    | .block body => Stmt.idsOf body
    | .ifElse condition yes no =>
      condition.ids ++ (yes.ids ++ match no with
        | some s => s.ids
        | none => [])
    | .while condition body => condition.ids ++ body.ids
    | .for init condition step body =>
      (match init with
        | some s => s.ids
        | none => []) ++
      ((match condition with
        | some e => e.ids
        | none => []) ++
      ((match step with
        | some e => e.ids
        | none => []) ++ body.ids))
    | .break | .continue => []
    | .funDecl f => f.ids
    | .return value => match value with
      | some e => e.ids
      | none => []
    | .classDecl _ superclass traits methods statics =>
      superclass.toList.map Reference.id ++
        (traits.map Reference.id ++ (Function.idsOf methods ++ Function.idsOf statics))
    | .traitDecl _ methods statics => Function.idsOf methods ++ Function.idsOf statics

def Stmt.idsOf : List Stmt → List ExprId
  | [] => []
  | s :: ss => s.ids ++ Stmt.idsOf ss

end

/-! ## Lemmas -/

theorem Stmt.ids_varDecl (span : Span) (name : Identifier) (init : Option Expr) :
    Stmt.ids ⟨span, .varDecl name init⟩ = (init.map Expr.ids).getD [] := by
  cases init <;> rfl

theorem Stmt.ids_ifElse (span : Span) (condition : Expr) (yes : Stmt) (no : Option Stmt) :
    Stmt.ids ⟨span, .ifElse condition yes no⟩ =
      condition.ids ++ (yes.ids ++ (no.map Stmt.ids).getD []) := by
  cases no <;> rfl

theorem Stmt.ids_for (span : Span) (init : Option Stmt) (condition step : Option Expr)
    (body : Stmt) :
    Stmt.ids ⟨span, .for init condition step body⟩ =
      (init.map Stmt.ids).getD [] ++ ((condition.map Expr.ids).getD [] ++
        ((step.map Expr.ids).getD [] ++ body.ids)) := by
  cases init <;> cases condition <;> cases step <;> rfl

theorem Stmt.ids_return (span : Span) (value : Option Expr) :
    Stmt.ids ⟨span, .return value⟩ = (value.map Expr.ids).getD [] := by
  cases value <;> rfl

end Lox

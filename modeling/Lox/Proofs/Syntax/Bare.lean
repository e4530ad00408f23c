import Lox.Syntax.Tree

/-!
# Trees but for identities and spans

What a tree is besides where its parts stand in the source and which identities they have.  Texts
that differ in blanks and comments alone have the same bare tree.
-/

namespace Lox

def Identifier.bare (name : Identifier) : Identifier := ⟨name.name, .nowhere⟩

def Reference.bare (r : Reference) : Reference := ⟨0, r.name.bare⟩

mutual

def Expr.bare : Expr → Expr
  | ⟨_, _, node⟩ =>
    ⟨0, .nowhere, match node with
      | .literal value => .literal value
      | .group inner => .group inner.bare
      | .binary op left right => .binary op left.bare right.bare
      | .unary op operand => .unary op operand.bare
      | .logical op left right => .logical op left.bare right.bare
      | .ternary condition yes no => .ternary condition.bare yes.bare no.bare
      | .variable name => .variable name.bare
      | .assign name value => .assign name.bare value.bare
      | .call callee args => .call callee.bare (Expr.bares args)
      | .get object property => .get object.bare property.bare
      | .set object property value => .set object.bare property.bare value.bare
      | .array elements => .array (Expr.bares elements)
      | .index array position => .index array.bare position.bare
      | .indexSet array position value => .indexSet array.bare position.bare value.bare
      | .lambda f => .lambda f.bare
      | .this => .this
      | .super method => .super method.bare⟩

def Expr.bares : List Expr → List Expr
  | [] => []
  | e :: es => e.bare :: Expr.bares es

def Function.bare : Function → Function
  | ⟨name, params, body, isGetter, _⟩ =>
    ⟨name.bare, params.map Identifier.bare, Stmt.bares body, isGetter, .nowhere⟩

def Function.bares : List Function → List Function
  | [] => []
  | f :: fs => f.bare :: Function.bares fs

def Stmt.bare : Stmt → Stmt
  | ⟨_, node⟩ =>
    ⟨.nowhere, match node with
      | .expression e => .expression e.bare
      | .print e => .print e.bare
      | .varDecl name init => .varDecl name.bare (match init with
        | some e => some e.bare
        | none => none)
      | .block body => .block (Stmt.bares body)
      | .ifElse condition yes no => .ifElse condition.bare yes.bare (match no with
        | some s => some s.bare
        | none => none)
      | .while condition body => .while condition.bare body.bare
      | .for init condition step body =>
        .for (match init with
          | some s => some s.bare
          | none => none)
        (match condition with
          | some e => some e.bare
          | none => none)
        (match step with
          | some e => some e.bare
          | none => none)
        body.bare
      | .break => .break
      | .continue => .continue
      | .funDecl f => .funDecl f.bare
      | .return value => .return (match value with
        | some e => some e.bare
        | none => none)
      | .classDecl name superclass traits methods statics =>
        .classDecl name.bare (superclass.map Reference.bare) (traits.map Reference.bare)
          (Function.bares methods) (Function.bares statics)
      | .traitDecl name methods statics =>
        .traitDecl name.bare (Function.bares methods) (Function.bares statics)⟩

def Stmt.bares : List Stmt → List Stmt
  | [] => []
  | s :: ss => s.bare :: Stmt.bares ss

end

/-! ## Optional parts -/

theorem Stmt.bare_varDecl (span : Span) (name : Identifier) (init : Option Expr) :
    Stmt.bare ⟨span, .varDecl name init⟩ =
      ⟨.nowhere, .varDecl name.bare (init.map Expr.bare)⟩ := by
  cases init <;> rfl

theorem Stmt.bare_ifElse (span : Span) (condition : Expr) (yes : Stmt) (no : Option Stmt) :
    Stmt.bare ⟨span, .ifElse condition yes no⟩ =
      ⟨.nowhere, .ifElse condition.bare yes.bare (no.map Stmt.bare)⟩ := by
  cases no <;> rfl

theorem Stmt.bare_for (span : Span) (init : Option Stmt) (condition step : Option Expr)
    (body : Stmt) :
    Stmt.bare ⟨span, .for init condition step body⟩ =
      ⟨.nowhere, .for (init.map Stmt.bare) (condition.map Expr.bare) (step.map Expr.bare)
        body.bare⟩ := by
  cases init <;> cases condition <;> cases step <;> rfl

theorem Stmt.bare_return (span : Span) (value : Option Expr) :
    Stmt.bare ⟨span, .return value⟩ = ⟨.nowhere, .return (value.map Expr.bare)⟩ := by
  cases value <;> rfl

/-! ## Lists -/

theorem Expr.bares_eq_map (es : List Expr) : Expr.bares es = es.map Expr.bare := by
  induction es with
  | nil => rfl
  | cons e es ih => rw [Expr.bares, List.map_cons, ih]

theorem Expr.length_eq_of_bares_eq {es es' : List Expr} (h : Expr.bares es = Expr.bares es') :
    es.length = es'.length := by
  simpa [Expr.bares_eq_map] using congrArg List.length h

theorem Stmt.bares_eq_map (ss : List Stmt) : Stmt.bares ss = ss.map Stmt.bare := by
  induction ss with
  | nil => rfl
  | cons s ss ih => rw [Stmt.bares, List.map_cons, ih]

/-! ## Names read off a bare tree -/

theorem Expr.exists_of_bare_eq_variable {e : Expr} {id : ExprId} {span : Span} {name : Identifier}
    (h : e.bare = Expr.bare ⟨id, span, .variable name⟩) :
    ∃ name', e.node = .variable name' ∧ name'.bare = name.bare := by
  obtain ⟨_, _, node⟩ := e
  cases node with
  | «variable» name' => exact ⟨name', rfl, by simpa [Expr.bare] using h⟩
  | _ => simp [Expr.bare] at h

theorem Expr.exists_of_bare_eq_get {e object : Expr} {id : ExprId} {span : Span}
    {property : Identifier} (h : e.bare = Expr.bare ⟨id, span, .get object property⟩) :
    ∃ object' property', e.node = .get object' property' ∧ object'.bare = object.bare ∧
      property'.bare = property.bare := by
  obtain ⟨_, _, node⟩ := e
  cases node with
  | get object' property' => exact ⟨object', property', rfl, by simpa [Expr.bare] using h⟩
  | _ => simp [Expr.bare] at h

theorem Expr.exists_of_bare_eq_index {e array position : Expr} {id : ExprId} {span : Span}
    (h : e.bare = Expr.bare ⟨id, span, .index array position⟩) :
    ∃ array' position', e.node = .index array' position' ∧ array'.bare = array.bare ∧
      position'.bare = position.bare := by
  obtain ⟨_, _, node⟩ := e
  cases node with
  | index array' position' => exact ⟨array', position', rfl, by simpa [Expr.bare] using h⟩
  | _ => simp [Expr.bare] at h

end Lox

import Lox.Number.Text
import Lox.Syntax.Tree

/-!
# Outlines

The outline of an expression shows how its parts group, in parentheses with the operator first.
-/

namespace Lox

def Literal.outline : Literal → String
  | number x => Number.Style.plain.text x
  | boolean b => if b then "true" else "false"
  | string s => "\"" ++ s ++ "\""
  | nil => "nil"

/-- Words between parentheses, a blank between each two. -/
def Outline.list (words : List String) : String := "(" ++ " ".intercalate words ++ ")"

mutual

def Expr.outline : Expr → String
  | ⟨_, _, node⟩ => node.outline

def Expr.Node.outline : Expr.Node → String
  | .literal value => value.outline
  | .group inner => Outline.list ["group", inner.outline]
  | .binary op left right => Outline.list [op.text, left.outline, right.outline]
  | .unary op operand => Outline.list [op.text, operand.outline]
  | .logical op left right => Outline.list [op.text, left.outline, right.outline]
  | .ternary condition yes no =>
    Outline.list ["?", condition.outline, yes.outline, no.outline]
  | .variable name => name.name
  | .assign name value => Outline.list ["set", name.name, value.outline]
  | .call callee args =>
    Outline.list ["call", callee.outline, " ".intercalate (Expr.outlines args)]
  | .get object property => Outline.list ["get", object.outline, property.name]
  | .set object property value =>
    Outline.list ["set", object.outline, property.name, value.outline]
  | .array elements => "[" ++ " ".intercalate (Expr.outlines elements) ++ "]"
  | .index array position => Outline.list ["index", array.outline, position.outline]
  | .indexSet array position value =>
    Outline.list ["index-set", array.outline, position.outline, value.outline]
  | .lambda function =>
    Outline.list ["fun", Outline.list (function.params.map Identifier.name)]
  | .this => "this"
  | .super method => Outline.list ["super", method.name]

def Expr.outlines : List Expr → List String
  | [] => []
  | e :: es => e.outline :: Expr.outlines es

end

end Lox

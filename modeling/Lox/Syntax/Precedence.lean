import Lox.Token.Basic
import Lox.Syntax.Tree

/-!
# Operators after an operand

What can follow an operand and continue its expression, and how tightly it binds.  Assignment and
the ternary group to the right, all else to the left.
-/

namespace Lox

/-- How tightly an operator holds its operands, the loosest first. -/
inductive Level
  | lowest | assignment | ternary | or | and | equality | comparison | addition | multiplication
  | unary | property | call
deriving DecidableEq, Repr

namespace Level

def rank : Level → Nat
  | lowest => 0
  | assignment => 1
  | ternary => 2
  | or => 3
  | and => 4
  | equality => 5
  | comparison => 6
  | addition => 7
  | multiplication => 8
  | unary => 9
  | property => 10
  | call => 11

def groupsRight : Level → Bool
  | assignment | ternary => true
  | _ => false

end Level

/-- What continues an expression after its first operand. -/
inductive Operator
  | binary (op : BinaryOp)
  | logical (op : LogicalOp)
  | assign
  | ternary
  | call
  | index
  | property
deriving DecidableEq, Repr

namespace Operator

/-- The operator that a token stands for after an operand. -/
def ofToken? : Token.Kind → Option Operator
  | .symbol .plus => some (binary .add)
  | .symbol .minus => some (binary .subtract)
  | .symbol .star => some (binary .multiply)
  | .symbol .slash => some (binary .divide)
  | .symbol .percent => some (binary .remainder)
  | .symbol .equalEqual => some (binary .equal)
  | .symbol .bangEqual => some (binary .notEqual)
  | .symbol .greater => some (binary .greater)
  | .symbol .greaterEqual => some (binary .greaterEqual)
  | .symbol .less => some (binary .less)
  | .symbol .lessEqual => some (binary .lessEqual)
  | .keyword .and => some (logical .and)
  | .keyword .or => some (logical .or)
  | .symbol .equal => some assign
  | .symbol .question => some ternary
  | .symbol .leftParen => some call
  | .symbol .leftBracket => some index
  | .symbol .dot => some property
  | _ => none

def level : Operator → Level
  | binary .add | binary .subtract => .addition
  | binary .multiply | binary .divide | binary .remainder => .multiplication
  | binary .equal | binary .notEqual => .equality
  | binary .greater | binary .greaterEqual | binary .less | binary .lessEqual => .comparison
  | logical .and => .and
  | logical .or => .or
  | assign => .assignment
  | ternary => .ternary
  | call | index => .call
  | property => .property

/-- Whether the operator may take the operand of an operator at level `outer` away from it. -/
def bindsInside (op : Operator) (outer : Level) : Bool :=
  outer.rank < op.level.rank || (op.level == outer && op.level.groupsRight)

end Operator

end Lox

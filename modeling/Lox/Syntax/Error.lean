import Lox.Token.Basic

/-!
# Errors in a program's text

Why a text is no program, each error with the span it points at.  `ParseError.render` quotes the
text under that span, and says "at end" where there is none.
-/

namespace Lox

/-- The most arguments that a call, and the most parameters that a function can have. -/
def maxArgs : Nat := 255

/-- What an expected symbol stands before or after. -/
inductive Construct
  | expression | variableDeclaration | value | returnValue | loopControl
  | if | while | for | forClauses | condition
  | functionName | functionBody | classBody | traitBody
  | arrayElements | index | thenBranch
deriving DecidableEq, Repr

def Construct.text : Construct → String
  | expression => "expression"
  | variableDeclaration => "variable declaration"
  | value => "value"
  | returnValue => "return value"
  | loopControl => "loop control statement"
  | «if» => "'if'"
  | «while» => "'while'"
  | «for» => "'for'"
  | forClauses => "for clauses"
  | condition => "condition"
  | functionName => "function name"
  | functionBody => "function body"
  | classBody => "class body"
  | traitBody => "trait body"
  | arrayElements => "array elements"
  | index => "index"
  | thenBranch => "then branch of ternary expression"

/-- What is wrong with the text. -/
inductive ParseErrorKind
  | illegalToken (error : LexError)
  | expectedExpression (found : Token.Kind)
  | expectedIdentifier
  | expectedSuperclassName
  | expectedTraitName
  | expectedPropertyName
  | expectedSuperDot
  | expectedSuperMethod
  | expectedComma
  | expectedAfter (symbol : Symbol) (what : Construct)
  | expectedBefore (symbol : Symbol) (what : Construct)
  | invalidTarget
  | unclosedBrace
  | tooManyArguments
  | tooManyParameters
deriving DecidableEq, Repr

def ParseErrorKind.message : ParseErrorKind → String
  | illegalToken error => error.message
  | expectedExpression _ => "Expected an expression."
  | expectedIdentifier => "Expected identifier."
  | expectedSuperclassName => "Expected superclass name."
  | expectedTraitName => "Expected trait name."
  | expectedPropertyName => "Expected property name after '.'."
  | expectedSuperDot => "Expected '.' after 'super'."
  | expectedSuperMethod => "Expected superclass method name."
  | expectedComma => "Expected ',' between arguments."
  | expectedAfter symbol what => "Expected '" ++ symbol.text ++ "' after " ++ what.text ++ "."
  | expectedBefore symbol what => "Expected '" ++ symbol.text ++ "' before " ++ what.text ++ "."
  | invalidTarget => "Invalid assignment target."
  | unclosedBrace => "Expected '\x7d' to close the block."
  | tooManyArguments => "Can't have more than " ++ toString maxArgs ++ " arguments."
  | tooManyParameters => "Can't have more than " ++ toString maxArgs ++ " parameters."

/-- An error and where it is. -/
structure ParseError where
  span : Span
  kind : ParseErrorKind
deriving DecidableEq, Repr

/-- A message about a line. -/
def Span.label (span : Span) (what message : String) : String :=
  "[line " ++ toString span.line ++ "] " ++ what ++ ": " ++ message

namespace ParseError

def message (e : ParseError) : String := e.kind.message

def text (e : ParseError) : String := e.span.label "Error" e.message

/-- The message with the text that it is about, which an illegal token's own message names. -/
def render (e : ParseError) (source : String) : String :=
  match e.kind with
  | .illegalToken _ => e.text
  | _ =>
    match e.span.text? source with
    | some lexeme =>
      if e.span.isEmpty then e.span.label "Error at end" e.message
      else e.span.label ("Error at '" ++ lexeme ++ "'") e.message
    | none => e.span.label "Error at end" e.message

end ParseError

end Lox

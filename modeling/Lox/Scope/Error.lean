import Lox.Syntax.Error

/-!
# Errors and warnings about names

What is wrong with how a program uses names, `return`, loops and classes, and the warning about a
local that nothing reads.
-/

namespace Lox

/-- A rule that a program breaks. -/
inductive ScopeErrorKind
  | redeclared (name : String)
  | readInOwnInitializer (name : String)
  | topLevelReturn
  | valueFromInitializer
  | loopControlOutsideLoop (keyword : Keyword)
  | thisOutsideClass
  | thisInStaticMethod
  | inheritFromSelf
  | superOutsideClass
  | superWithoutSuperclass
  | superInTrait
deriving DecidableEq, Repr

def ScopeErrorKind.message : ScopeErrorKind → String
  | redeclared name => "Redeclared '" ++ name ++ "' variable in this scope."
  | readInOwnInitializer name =>
    "Can't read local variable '" ++ name ++ "' in its own initializer."
  | topLevelReturn => "Can't return from top-level code."
  | valueFromInitializer => "Can't return a value from an initializer."
  | loopControlOutsideLoop keyword => "Unexpected '" ++ keyword.text ++ "' outside of loop."
  | thisOutsideClass => "Can't use 'this' outside of a class."
  | thisInStaticMethod => "Can't use 'this' in a static method."
  | inheritFromSelf => "A class can't inherit from itself."
  | superOutsideClass => "Can't use 'super' outside of a class."
  | superWithoutSuperclass => "Can't use 'super' in a class with no superclass."
  | superInTrait => "Can't use 'super' in a trait."

/-- A broken rule and where. -/
structure ScopeError where
  span : Span
  kind : ScopeErrorKind
deriving DecidableEq, Repr

namespace ScopeError

def message (e : ScopeError) : String := e.kind.message

def text (e : ScopeError) : String := e.span.label "Error" e.message

/-- The message with the text that it is about. -/
def render (e : ScopeError) (source : String) : String :=
  match e.span.text? source with
  | some lexeme =>
    if e.span.isEmpty then e.text
    else e.span.label ("Error at '" ++ lexeme ++ "'") e.message
  | none => e.text

end ScopeError

/-- A local that is declared but never read before its scope closes. -/
structure Warning where
  span : Span
  name : String
deriving DecidableEq, Repr

namespace Warning

def message (w : Warning) : String :=
  "Local variable '" ++ w.name ++ "' is declared but never used."

def text (w : Warning) : String := w.span.label "Warning" w.message

end Warning

end Lox

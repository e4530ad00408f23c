import Lox.Token.Lexer
import Lox.Syntax.Error
import Lox.Syntax.Precedence

/-!
# Reading programs

`Tree.parse` reads a source text as a program or lists all its errors.  After an error the reading
goes on behind the next semicolon, so that one text can show several.

Expressions are read by operator levels: an operand, then every operator that binds inside the
given level, with what belongs to it.  An expression gets its identity when it is complete, so the
parts of an expression come before it.  All rules take fuel for the parts they read; each part
takes at least one token, so a few units a token are enough for a text.
-/

namespace Lox

namespace Parser

/-! ## State -/

/-- What has been read and what comes.  At the end of the text its last token stays current. -/
structure State where
  previous : Token
  current : Token
  upcoming : List Token
  /-- The errors found so far, in order. -/
  errors : List ParseError
  nextId : ExprId

/-- Why a rule gives up: an error that it does not recover from, or too little fuel. -/
inductive Stop
  | error (e : ParseError)
  | outOfFuel

/-- A rule that reads an `α`. -/
abbrev Rule (α : Type) := EStateM Stop State α

namespace State

def report (s : State) (e : ParseError) : State := { s with errors := s.errors ++ [e] }

/-- Makes the first of `tokens` that is valid the current token; invalid ones are errors. -/
def shift (s : State) : List Token → State
  | [] => { s with previous := s.current, upcoming := [] }
  | t :: ts =>
    match t.kind with
    | .invalid e => (s.report ⟨t.span, .illegalToken e⟩).shift ts
    | _ => { s with previous := s.current, current := t, upcoming := ts }

/-- Moves on to the next valid token. -/
def advance (s : State) : State := s.shift s.upcoming

/-- In front of the first token of a text, with identities from `firstId` on. -/
def start (tokens : List Token) (firstId : ExprId) : State :=
  let none : Token := ⟨.endOfFile, .nowhere⟩
  advance ⟨none, none, tokens, [], firstId⟩

/-- Moves on until a semicolon has been passed, for at most `fuel` tokens. -/
def skipStatement : Nat → State → State
  | 0, s => s
  | fuel + 1, s =>
    if s.current.kind.isEndOfFile then s
    else if s.current.kind.isSymbol .semicolon then s.advance
    else skipStatement fuel s.advance

/-- Moves behind the statement that an error was found in. -/
def synchronize (s : State) : State :=
  if s.previous.kind.isSymbol .semicolon then s
  else skipStatement (s.upcoming.length + 1) s

end State

/-! ## Single tokens -/

def fail {α : Type} (span : Span) (kind : ParseErrorKind) : Rule α := throw (.error ⟨span, kind⟩)

def outOfFuel {α : Type} : Rule α := throw .outOfFuel

def advance : Rule Unit := modify State.advance

def report (e : ParseError) : Rule Unit := modify (·.report e)

def currentToken : Rule Token := return (← get).current

def previousToken : Rule Token := return (← get).previous

def atSymbol (s : Symbol) : Rule Bool := return (← currentToken).kind.isSymbol s

def atEnd : Rule Bool := return (← currentToken).kind.isEndOfFile

/-- Moves past the symbol if it is the current token. -/
def skipSymbol (s : Symbol) : Rule Bool := do
  if ← atSymbol s then
    advance
    return true
  return false

/-- Moves past the keyword if it is the current token. -/
def skipKeyword (k : Keyword) : Rule Bool := do
  if (← currentToken).kind.isKeyword k then
    advance
    return true
  return false

/-- Moves past the current token, which has to be the symbol. -/
def expect (s : Symbol) (otherwise : ParseErrorKind) : Rule Unit := do
  advance
  let t ← previousToken
  unless t.kind.isSymbol s do fail t.span otherwise

/-- Moves past the current token, which has to be a name. -/
def identifier (otherwise : ParseErrorKind) : Rule Identifier := do
  advance
  let t ← previousToken
  match t.kind with
  | .identifier name => return ⟨name, t.span⟩
  | _ => fail t.span otherwise

/-! ## Building the tree -/

def freshId : Rule ExprId := modifyGet fun s => (s.nextId, { s with nextId := s.nextId + 1 })

/-- The span from `first` to the token before the current one. -/
def spanFrom (first : Span) : Rule Span := return first.extend (← previousToken).span

/-- An expression that begins with `first` and is complete. -/
def expr (first : Span) (node : Expr.Node) : Rule Expr := do
  let id ← freshId
  return ⟨id, ← spanFrom first, node⟩

/-- A statement with the span of all that `node` reads. -/
def stmt (node : Rule Stmt.Node) : Rule Stmt := do
  let first ← currentToken
  let node ← node
  return ⟨← spanFrom first.span, node⟩

/-! ## Lists -/

/-- Items until `close`, after a first one, with a comma before each. -/
def commaSeparatedTail {α : Type} (close : Symbol) (item : Rule α) : Nat → Rule (List α)
  | 0 => outOfFuel
  | fuel + 1 => do
    if ← skipSymbol close then return []
    expect .comma .expectedComma
    let x ← item
    return x :: (← commaSeparatedTail close item fuel)

/-- Items with commas between them, and `close`. -/
def commaSeparated {α : Type} (close : Symbol) (item : Rule α) (fuel : Nat) :
    Rule (List α) := do
  if ← skipSymbol close then return []
  let x ← item
  return x :: (← commaSeparatedTail close item fuel)

/-- Reports every item past the first `maxArgs`. -/
def reportSurplus {α : Type} (span : α → Span) (kind : ParseErrorKind) (items : List α) :
    Rule Unit :=
  (items.drop maxArgs).forM fun x => report ⟨span x, kind⟩

/-- The arguments of a call, in parentheses. -/
def arguments (expression : Rule Expr) (fuel : Nat) : Rule (List Expr) := do
  advance
  let args ← commaSeparated .rightParen expression fuel
  reportSurplus Expr.span .tooManyArguments args
  return args

/-- The parameters of a function, in parentheses. -/
def parameters (fuel : Nat) : Rule (List Identifier) := do
  expect .leftParen (.expectedAfter .leftParen .functionName)
  let params ← commaSeparated .rightParen (identifier .expectedIdentifier) fuel
  reportSurplus Identifier.span .tooManyParameters params
  return params

/-- Statements up to a closing brace and the brace; bad ones are left out. -/
def statements (declaration : Rule (Option Stmt)) : Nat → Rule (List Stmt)
  | 0 => outOfFuel
  | fuel + 1 => do
    if ← atEnd then fail (← currentToken).span .unclosedBrace
    if ← skipSymbol .rightBrace then return []
    let first ← declaration
    return first.toList ++ (← statements declaration fuel)

/-- The members of a class or trait up to the closing brace, and the brace: those of instances,
and the static ones, which `class` stands before. -/
def members (function : Rule Function) : Nat → Rule (List Function × List Function)
  | 0 => outOfFuel
  | fuel + 1 => do
    if ← skipSymbol .rightBrace then return ([], [])
    if ← atEnd then fail (← currentToken).span .unclosedBrace
    if ← skipKeyword .klass then
      let f ← function
      let (methods, statics) ← members function fuel
      return (methods, f :: statics)
    else
      let f ← function
      let (methods, statics) ← members function fuel
      return (f :: methods, statics)

/-! ## Declarations -/

def reference (otherwise : ParseErrorKind) : Rule Reference := do
  let name ← identifier otherwise
  return ⟨← freshId, name⟩

/-- Trait names with commas between them, at least one. -/
def traitNames : Nat → Rule (List Reference)
  | 0 => outOfFuel
  | fuel + 1 => do
    let first ← reference .expectedTraitName
    if ← skipSymbol .comma then return first :: (← traitNames fuel)
    return [first]

/-- A name, parameters and a body.  A member may leave the parameters out and is a getter then. -/
def namedFunction (body : Rule (List Stmt)) (isMember : Bool) (fuel : Nat) : Rule Function := do
  let first ← currentToken
  let name ← identifier .expectedIdentifier
  let isGetter := isMember && (← atSymbol .leftBrace)
  let params ← if isGetter then pure [] else parameters fuel
  expect .leftBrace (.expectedBefore .leftBrace .functionBody)
  let body ← body
  return ⟨name, params, body, isGetter, ← spanFrom first.span⟩

def varDecl (expression : Rule Expr) : Rule Stmt.Node := do
  advance
  let name ← identifier .expectedIdentifier
  let init ← if ← skipSymbol .equal then some <$> expression else pure none
  expect .semicolon (.expectedAfter .semicolon .variableDeclaration)
  return .varDecl name init

def funDecl (body : Rule (List Stmt)) (fuel : Nat) : Rule Stmt.Node := do
  advance
  return .funDecl (← namedFunction body false fuel)

def classDecl (body : Rule (List Stmt)) (fuel : Nat) : Rule Stmt.Node := do
  advance
  let name ← identifier .expectedIdentifier
  let superclass ←
    if ← skipSymbol .less then some <$> reference .expectedSuperclassName else pure none
  let traits ← if ← skipSymbol .diamond then traitNames fuel else pure []
  expect .leftBrace (.expectedBefore .leftBrace .classBody)
  let (methods, statics) ← members (namedFunction body true fuel) fuel
  return .classDecl name superclass traits methods statics

def traitDecl (body : Rule (List Stmt)) (fuel : Nat) : Rule Stmt.Node := do
  advance
  let name ← identifier .expectedIdentifier
  expect .leftBrace (.expectedBefore .leftBrace .traitBody)
  let (methods, statics) ← members (namedFunction body true fuel) fuel
  return .traitDecl name methods statics

/-! ## Statements -/

def expressionStmt (expression : Rule Expr) : Rule Stmt.Node := do
  let e ← expression
  expect .semicolon (.expectedAfter .semicolon .expression)
  return .expression e

def printStmt (expression : Rule Expr) : Rule Stmt.Node := do
  advance
  let e ← expression
  expect .semicolon (.expectedAfter .semicolon .value)
  return .print e

def ifStmt (expression : Rule Expr) (statement : Rule Stmt) : Rule Stmt.Node := do
  advance
  expect .leftParen (.expectedAfter .leftParen .if)
  let condition ← expression
  expect .rightParen (.expectedAfter .rightParen .condition)
  let yes ← statement
  let no ← if ← skipKeyword .else then some <$> statement else pure none
  return .ifElse condition yes no

def whileStmt (expression : Rule Expr) (statement : Rule Stmt) : Rule Stmt.Node := do
  advance
  expect .leftParen (.expectedAfter .leftParen .while)
  let condition ← expression
  expect .rightParen (.expectedAfter .rightParen .condition)
  return .while condition (← statement)

/-- The first clause of a `for` and its semicolon. -/
def forInit (expression : Rule Expr) : Rule (Option Stmt) := do
  if ← skipSymbol .semicolon then return none
  if (← currentToken).kind.isKeyword .var then some <$> stmt (varDecl expression)
  else some <$> stmt (expressionStmt expression)

/-- An expression, or nothing in front of `close`. -/
def optional (expression : Rule Expr) (close : Symbol) : Rule (Option Expr) := do
  if ← atSymbol close then return none
  some <$> expression

def forStmt (expression : Rule Expr) (statement : Rule Stmt) : Rule Stmt.Node := do
  advance
  expect .leftParen (.expectedAfter .leftParen .for)
  let init ← forInit expression
  let condition ← optional expression .semicolon
  expect .semicolon (.expectedAfter .semicolon .condition)
  let step ← optional expression .rightParen
  expect .rightParen (.expectedAfter .rightParen .forClauses)
  return .for init condition step (← statement)

def loopControl (node : Stmt.Node) : Rule Stmt.Node := do
  advance
  expect .semicolon (.expectedAfter .semicolon .loopControl)
  return node

def returnStmt (expression : Rule Expr) : Rule Stmt.Node := do
  advance
  let value ← optional expression .semicolon
  expect .semicolon (.expectedAfter .semicolon .returnValue)
  return .return value

/-! ## Expressions -/

/-- The expression that an assignment to `target` is. -/
def assignment (target value : Expr) (operator : Span) : Rule Expr.Node :=
  match target.node with
  | .variable name => pure (.assign name value)
  | .get object property => pure (.set object property value)
  | .index array position => pure (.indexSet array position value)
  | _ => fail operator .invalidTarget

/-- A name of the superclass, after `super`. -/
def superName : Rule Expr.Node := do
  expect .dot .expectedSuperDot
  return .super (← identifier .expectedSuperMethod)

def grouping (expression : Rule Expr) : Rule Expr.Node := do
  let inner ← expression
  expect .rightParen (.expectedAfter .rightParen .expression)
  return .group inner

/-- A function without a name; it is called by the span of its keyword. -/
def lambda (body : Rule (List Stmt)) (keyword : Span) (fuel : Nat) : Rule Expr.Node := do
  let params ← parameters fuel
  expect .leftBrace (.expectedBefore .leftBrace .functionBody)
  let body ← body
  return .lambda ⟨⟨Name.lambda, keyword⟩, params, body, false, ← spanFrom keyword⟩

/-- An operand that begins with no operator. -/
def primary (expression : Rule Expr) (body : Rule (List Stmt)) (fuel : Nat) : Rule Expr := do
  advance
  let t ← previousToken
  let node ← match t.kind with
    | .number x => pure (.literal (.number x))
    | .string s => pure (.literal (.string s))
    | .keyword .true => pure (.literal (.boolean true))
    | .keyword .false => pure (.literal (.boolean false))
    | .keyword .nil => pure (.literal .nil)
    | .identifier name => pure (.variable ⟨name, t.span⟩)
    | .keyword .this => pure .this
    | .keyword .super => superName
    | .symbol .leftParen => grouping expression
    | .symbol .leftBracket => .array <$> commaSeparated .rightBracket expression fuel
    | .keyword .fun => lambda body t.span fuel
    | _ => fail t.span (.expectedExpression t.kind)
  expr t.span node

/-- The operator in front of an operand. -/
def unaryOp? : Token.Kind → Option UnaryOp
  | .symbol .bang => some .not
  | .symbol .minus => some .negate
  | _ => none

/-- What an operator, at the current token, makes of the operand before it. -/
def continuation (expression : Level → Rule Expr) (left : Expr) (op : Operator) (fuel : Nat) :
    Rule Expr.Node := do
  let t ← currentToken
  match op with
  | .binary op =>
    advance
    return .binary op left (← expression (Operator.binary op).level)
  | .logical op =>
    advance
    return .logical op left (← expression (Operator.logical op).level)
  | .assign =>
    advance
    assignment left (← expression Operator.assign.level) t.span
  | .ternary =>
    advance
    let yes ← expression .lowest
    expect .colon (.expectedAfter .colon .thenBranch)
    return .ternary left yes (← expression Operator.ternary.level)
  | .call => return .call left (← arguments (expression .lowest) fuel)
  | .index =>
    advance
    let position ← expression .lowest
    expect .rightBracket (.expectedAfter .rightBracket .index)
    return .index left position
  | .property =>
    advance
    return .get left (← identifier .expectedPropertyName)

/-! ## All rules -/

/-- Reads an item; after an error reports it, moves behind the statement and reads none. -/
def recover {α : Type} (rule : Rule α) : Rule (Option α) := fun s =>
  match rule s with
  | .ok a s => .ok (some a) s
  | .error (.error e) s => .ok none (s.report e).synchronize
  | .error .outOfFuel s => .error .outOfFuel s

mutual

/-- An expression whose operators all bind inside `outer`. -/
def expression : Nat → Level → Rule Expr
  | 0, _ => outOfFuel
  | fuel + 1, outer => do
    let t ← currentToken
    match unaryOp? t.kind with
    | some op =>
      advance
      let operand ← expression fuel .unary
      operators fuel outer (← expr t.span (.unary op operand))
    | none =>
      operators fuel outer (← primary (expression fuel .lowest) (block fuel) fuel)

/-- All that continues the expression `left` and binds inside `outer`. -/
def operators : Nat → Level → Expr → Rule Expr
  | 0, _, _ => outOfFuel
  | fuel + 1, outer, left => do
    match Operator.ofToken? (← currentToken).kind with
    | none => return left
    | some op =>
      if op.bindsInside outer then
        let node ← continuation (expression fuel) left op fuel
        operators fuel outer (← expr left.span node)
      else return left

/-- Statements and the brace that closes them. -/
def block : Nat → Rule (List Stmt)
  | 0 => outOfFuel
  | fuel + 1 => statements (recover (declaration fuel)) fuel

/-- A declaration or a statement. -/
def declaration : Nat → Rule Stmt
  | 0 => outOfFuel
  | fuel + 1 => do
    match (← currentToken).kind with
    | .keyword .var => stmt (varDecl (expression fuel .lowest))
    | .keyword .fun => stmt (funDecl (block fuel) fuel)
    | .keyword .klass => stmt (classDecl (block fuel) fuel)
    | .keyword .trait => stmt (traitDecl (block fuel) fuel)
    | _ => statement fuel

/-- A statement, which declares nothing outside it. -/
def statement : Nat → Rule Stmt
  | 0 => outOfFuel
  | fuel + 1 => do
    match (← currentToken).kind with
    | .keyword .print => stmt (printStmt (expression fuel .lowest))
    | .keyword .if => stmt (ifStmt (expression fuel .lowest) (statement fuel))
    | .keyword .while => stmt (whileStmt (expression fuel .lowest) (statement fuel))
    | .keyword .for => stmt (forStmt (expression fuel .lowest) (statement fuel))
    | .keyword .return => stmt (returnStmt (expression fuel .lowest))
    | .keyword .break => stmt (loopControl .break)
    | .keyword .continue => stmt (loopControl .continue)
    | .symbol .leftBrace => stmt (do advance; return .block (← block fuel))
    | _ => stmt (expressionStmt (expression fuel .lowest))

end

/-- Declarations up to the end of the text; bad ones are left out. -/
def program (declaration : Rule (Option Stmt)) : Nat → Rule (List Stmt)
  | 0 => outOfFuel
  | fuel + 1 => do
    if ← atEnd then return []
    let first ← declaration
    return first.toList ++ (← program declaration fuel)

/-- The program that the tokens are, or their errors; nothing if the fuel does not suffice. -/
def run? (fuel : Nat) (tokens : List Token) (firstId : ExprId) :
    Option (Except (List ParseError) Tree) :=
  match program (recover (declaration fuel)) fuel (.start tokens firstId) with
  | .ok body s => some (if s.errors.isEmpty then .ok ⟨body, s.nextId⟩ else .error s.errors)
  | .error (.error e) s => some (.error (s.errors ++ [e]))
  | .error .outOfFuel _ => none

/-- Fuel for so many tokens. -/
def fuelFor (tokens : Nat) : Nat := 8 * (tokens + 2)

end Parser

/-- The program that a text is, its expressions numbered from `firstId` on, or all its errors. -/
def Tree.parse (source : String) (firstId : ExprId) : Except (List ParseError) Tree :=
  let tokens := Token.ofSource source
  (Parser.run? (Parser.fuelFor tokens.length) tokens firstId).getD (.error [])

open Lox.Parser in
/-- The tree of a text is what is read from its tokens if no error shows. -/
theorem Tree.parse_eq_ok {source : String} {firstId : ExprId} {tree : Tree} :
    Tree.parse source firstId = .ok tree ↔
      ∃ s, program (recover (declaration (fuelFor (Token.ofSource source).length)))
          (fuelFor (Token.ofSource source).length) (.start (Token.ofSource source) firstId) =
            .ok tree.body s ∧
        s.errors = [] ∧ s.nextId = tree.nextId := by
  rw [Tree.parse, run?]
  constructor
  · intro h
    split at h
    · next body s hrun =>
      rw [Option.getD_some] at h
      split at h
      · next he =>
        cases h
        exact ⟨s, hrun, List.isEmpty_iff.1 he, rfl⟩
      · cases h
    · cases h
    · cases h
  · rintro ⟨s, hrun, he, hn⟩
    rw [hrun]
    dsimp only [Option.getD_some]
    rw [he, hn]
    rfl

end Lox

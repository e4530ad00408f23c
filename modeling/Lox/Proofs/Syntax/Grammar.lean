import Lox.Syntax.Tree
import Lox.Token.Basic

/-!
# The grammar

Which token sequences are programs, and which tree each of them has.  Expressions come in strata,
one for each precedence: an operand of an operator lies in the stratum of the operator or in the
next tighter one, by the side that the operator groups to.  The rules say nothing of how a text is
read.

    Derives fits (.expr ℓ e) ts             the tokens are an expression of the stratum with the tree
    Derives fits (.declarations body) ts    the tokens are the declarations of a program or block

A call may have as many arguments, and a function as many parameters, as `fits`.  Identities and
spans in a tree are free: tokens have one tree but for these.
-/

namespace Lox.Grammar

/-! ## Strata -/

/-- The strata of expressions, the loosest first. -/
inductive Stratum
  | assignment | ternary | or | and | equality | comparison | term | factor | unary | call
  | primary
deriving DecidableEq, Repr

namespace Stratum

/-- The next tighter stratum. -/
def tighter : Stratum → Stratum
  | assignment => ternary
  | ternary => or
  | or => and
  | and => equality
  | equality => comparison
  | comparison => term
  | term => factor
  | factor => unary
  | unary => call
  | call => primary
  | primary => primary

def rank : Stratum → Nat
  | assignment => 0
  | ternary => 1
  | or => 2
  | and => 3
  | equality => 4
  | comparison => 5
  | term => 6
  | factor => 7
  | unary => 8
  | call => 9
  | primary => 10

def ofBinary : BinaryOp → Stratum
  | .equal | .notEqual => equality
  | .less | .lessEqual | .greater | .greaterEqual => comparison
  | .add | .subtract => term
  | .multiply | .divide | .remainder => factor

def ofLogical : LogicalOp → Stratum
  | .or => or
  | .and => and

end Stratum

/-! ## Spelling -/

abbrev Tokens := List Token.Kind

def binarySymbol : BinaryOp → Symbol
  | .add => .plus
  | .subtract => .minus
  | .multiply => .star
  | .divide => .slash
  | .remainder => .percent
  | .equal => .equalEqual
  | .notEqual => .bangEqual
  | .greater => .greater
  | .greaterEqual => .greaterEqual
  | .less => .less
  | .lessEqual => .lessEqual

def logicalKeyword : LogicalOp → Keyword
  | .and => .and
  | .or => .or

def unarySymbol : UnaryOp → Symbol
  | .negate => .minus
  | .not => .bang

/-- Names with commas between them. -/
def names : List Identifier → Tokens
  | [] => []
  | name :: rest =>
    .identifier name.name ::
      rest.flatMap fun other => [.symbol .comma, .identifier other.name]

/-- What names the superclass of a class. -/
def extending : Option Reference → Tokens
  | none => []
  | some r => [.symbol .less, .identifier r.name.name]

/-- What names the traits of a class. -/
def composing : List Reference → Tokens
  | [] => []
  | r :: rs => .symbol .diamond :: names ((r :: rs).map Reference.name)

/-! ## Statements before `else` -/

/-- Whether an `else` behind the statement would belong to an `if` in it. -/
def isOpen : Stmt → Bool
  | ⟨_, node⟩ =>
    match node with
    | .ifElse _ _ none => true
    | .ifElse _ _ (some no) => isOpen no
    | .while _ body | .for _ _ _ body => isOpen body
    | _ => false

/-! ## Rules -/

inductive Phrase
  | expr (ℓ : Stratum) (e : Expr)
  /-- Expressions with commas between them, or none. -/
  | items (es : List Expr)
  /-- Expressions with a comma before each. -/
  | furtherItems (es : List Expr)
  | optional (e : Option Expr)
  /-- A name and what is behind it; only a member may be a getter. -/
  | function (isMember : Bool) (f : Function)
  | members (methods statics : List Function)
  /-- The first clause of a `for`, with its semicolon. -/
  | clause (init : Option Stmt)
  | statement (s : Stmt)
  | declaration (s : Stmt)
  | declarations (ss : List Stmt)

variable (fits : Nat → Prop)

inductive Derives : Phrase → Tokens → Prop
  -- strata
  | looser {ℓ : Stratum} {e : Expr} {ts : Tokens} :
      Derives (.expr ℓ.tighter e) ts → Derives (.expr ℓ e) ts
  | assign {id : ExprId} {span : Span} {name : Identifier} {value : Expr} {ts : Tokens} :
      Derives (.expr .assignment value) ts →
      Derives (.expr .assignment ⟨id, span, .assign name value⟩)
        (.identifier name.name :: .symbol .equal :: ts)
  | set {id : ExprId} {span : Span} {object value : Expr} {property : Identifier}
      {ts us : Tokens} :
      Derives (.expr .call object) ts → Derives (.expr .assignment value) us →
      Derives (.expr .assignment ⟨id, span, .set object property value⟩)
        (ts ++ .symbol .dot :: .identifier property.name :: .symbol .equal :: us)
  | indexSet {id : ExprId} {span : Span} {array position value : Expr} {ts us vs : Tokens} :
      Derives (.expr .call array) ts → Derives (.expr .assignment position) us →
      Derives (.expr .assignment value) vs →
      Derives (.expr .assignment ⟨id, span, .indexSet array position value⟩)
        (ts ++ .symbol .leftBracket :: (us ++ .symbol .rightBracket :: .symbol .equal :: vs))
  | ternary {id : ExprId} {span : Span} {condition yes no : Expr} {ts us vs : Tokens} :
      Derives (.expr .or condition) ts → Derives (.expr .assignment yes) us →
      Derives (.expr .ternary no) vs →
      Derives (.expr .ternary ⟨id, span, .ternary condition yes no⟩)
        (ts ++ .symbol .question :: (us ++ .symbol .colon :: vs))
  | logical {id : ExprId} {span : Span} {op : LogicalOp} {left right : Expr} {ts us : Tokens} :
      Derives (.expr (.ofLogical op) left) ts →
      Derives (.expr (Stratum.ofLogical op).tighter right) us →
      Derives (.expr (.ofLogical op) ⟨id, span, .logical op left right⟩)
        (ts ++ .keyword (logicalKeyword op) :: us)
  | binary {id : ExprId} {span : Span} {op : BinaryOp} {left right : Expr} {ts us : Tokens} :
      Derives (.expr (.ofBinary op) left) ts →
      Derives (.expr (Stratum.ofBinary op).tighter right) us →
      Derives (.expr (.ofBinary op) ⟨id, span, .binary op left right⟩)
        (ts ++ .symbol (binarySymbol op) :: us)
  | unary {id : ExprId} {span : Span} {op : UnaryOp} {operand : Expr} {ts : Tokens} :
      Derives (.expr .unary operand) ts →
      Derives (.expr .unary ⟨id, span, .unary op operand⟩) (.symbol (unarySymbol op) :: ts)
  | call {id : ExprId} {span : Span} {callee : Expr} {args : List Expr} {ts us : Tokens} :
      Derives (.expr .call callee) ts → Derives (.items args) us → fits args.length →
      Derives (.expr .call ⟨id, span, .call callee args⟩)
        (ts ++ .symbol .leftParen :: (us ++ [.symbol .rightParen]))
  | index {id : ExprId} {span : Span} {array position : Expr} {ts us : Tokens} :
      Derives (.expr .call array) ts → Derives (.expr .assignment position) us →
      Derives (.expr .call ⟨id, span, .index array position⟩)
        (ts ++ .symbol .leftBracket :: (us ++ [.symbol .rightBracket]))
  | get {id : ExprId} {span : Span} {object : Expr} {property : Identifier} {ts : Tokens} :
      Derives (.expr .call object) ts →
      Derives (.expr .call ⟨id, span, .get object property⟩)
        (ts ++ [.symbol .dot, .identifier property.name])
  -- operands
  | number {id : ExprId} {span : Span} {x : Float} :
      Derives (.expr .primary ⟨id, span, .literal (.number x)⟩) [.number x]
  | string {id : ExprId} {span : Span} {text : String} :
      Derives (.expr .primary ⟨id, span, .literal (.string text)⟩) [.string text]
  | true {id : ExprId} {span : Span} :
      Derives (.expr .primary ⟨id, span, .literal (.boolean true)⟩) [.keyword .true]
  | false {id : ExprId} {span : Span} :
      Derives (.expr .primary ⟨id, span, .literal (.boolean false)⟩) [.keyword .false]
  | nil {id : ExprId} {span : Span} :
      Derives (.expr .primary ⟨id, span, .literal .nil⟩) [.keyword .nil]
  | variable {id : ExprId} {span : Span} {name : Identifier} :
      Derives (.expr .primary ⟨id, span, .variable name⟩) [.identifier name.name]
  | this {id : ExprId} {span : Span} : Derives (.expr .primary ⟨id, span, .this⟩) [.keyword .this]
  | super {id : ExprId} {span : Span} {name : Identifier} :
      Derives (.expr .primary ⟨id, span, .super name⟩)
        [.keyword .super, .symbol .dot, .identifier name.name]
  | group {id : ExprId} {span : Span} {inner : Expr} {ts : Tokens} :
      Derives (.expr .assignment inner) ts →
      Derives (.expr .primary ⟨id, span, .group inner⟩)
        (.symbol .leftParen :: (ts ++ [.symbol .rightParen]))
  | array {id : ExprId} {span : Span} {elements : List Expr} {ts : Tokens} :
      Derives (.items elements) ts →
      Derives (.expr .primary ⟨id, span, .array elements⟩)
        (.symbol .leftBracket :: (ts ++ [.symbol .rightBracket]))
  | lambda {id : ExprId} {span nameSpan bodySpan : Span} {params : List Identifier}
      {body : List Stmt} {ts : Tokens} :
      fits params.length → Derives (.declarations body) ts →
      Derives (.expr .primary
          ⟨id, span, .lambda ⟨⟨Name.lambda, nameSpan⟩, params, body, false, bodySpan⟩⟩)
        (.keyword .fun :: .symbol .leftParen :: (names params ++ .symbol .rightParen ::
          .symbol .leftBrace :: (ts ++ [.symbol .rightBrace])))
  -- lists
  | noItems : Derives (.items []) []
  | someItems {e : Expr} {es : List Expr} {ts us : Tokens} :
      Derives (.expr .assignment e) ts → Derives (.furtherItems es) us →
      Derives (.items (e :: es)) (ts ++ us)
  | noFurtherItems : Derives (.furtherItems []) []
  | someFurtherItems {e : Expr} {es : List Expr} {ts us : Tokens} :
      Derives (.expr .assignment e) ts → Derives (.furtherItems es) us →
      Derives (.furtherItems (e :: es)) (.symbol .comma :: (ts ++ us))
  | absent : Derives (.optional none) []
  | present {e : Expr} {ts : Tokens} :
      Derives (.expr .assignment e) ts → Derives (.optional (some e)) ts
  -- functions
  | function {isMember : Bool} {name : Identifier} {params : List Identifier} {span : Span}
      {body : List Stmt} {ts : Tokens} :
      fits params.length → Derives (.declarations body) ts →
      Derives (.function isMember ⟨name, params, body, false, span⟩)
        (.identifier name.name :: .symbol .leftParen :: (names params ++ .symbol .rightParen ::
          .symbol .leftBrace :: (ts ++ [.symbol .rightBrace])))
  | getter {name : Identifier} {span : Span} {body : List Stmt} {ts : Tokens} :
      Derives (.declarations body) ts →
      Derives (.function true ⟨name, [], body, true, span⟩)
        (.identifier name.name :: .symbol .leftBrace :: (ts ++ [.symbol .rightBrace]))
  | noMembers : Derives (.members [] []) []
  | method {f : Function} {methods statics : List Function} {ts us : Tokens} :
      Derives (.function true f) ts → Derives (.members methods statics) us →
      Derives (.members (f :: methods) statics) (ts ++ us)
  | static {f : Function} {methods statics : List Function} {ts us : Tokens} :
      Derives (.function true f) ts → Derives (.members methods statics) us →
      Derives (.members methods (f :: statics)) (.keyword .klass :: (ts ++ us))
  -- statements
  | expression {span : Span} {e : Expr} {ts : Tokens} :
      Derives (.expr .assignment e) ts →
      Derives (.statement ⟨span, .expression e⟩) (ts ++ [.symbol .semicolon])
  | print {span : Span} {e : Expr} {ts : Tokens} :
      Derives (.expr .assignment e) ts →
      Derives (.statement ⟨span, .print e⟩) (.keyword .print :: (ts ++ [.symbol .semicolon]))
  | block {span : Span} {body : List Stmt} {ts : Tokens} :
      Derives (.declarations body) ts →
      Derives (.statement ⟨span, .block body⟩)
        (.symbol .leftBrace :: (ts ++ [.symbol .rightBrace]))
  | ifOnly {span : Span} {condition : Expr} {yes : Stmt} {ts us : Tokens} :
      Derives (.expr .assignment condition) ts → Derives (.statement yes) us →
      Derives (.statement ⟨span, .ifElse condition yes none⟩)
        (.keyword .if :: .symbol .leftParen :: (ts ++ .symbol .rightParen :: us))
  | ifElse {span : Span} {condition : Expr} {yes no : Stmt} {ts us vs : Tokens} :
      Derives (.expr .assignment condition) ts → Derives (.statement yes) us →
      isOpen yes = Bool.false → Derives (.statement no) vs →
      Derives (.statement ⟨span, .ifElse condition yes (some no)⟩)
        (.keyword .if :: .symbol .leftParen ::
          (ts ++ .symbol .rightParen :: (us ++ .keyword .else :: vs)))
  | while {span : Span} {condition : Expr} {body : Stmt} {ts us : Tokens} :
      Derives (.expr .assignment condition) ts → Derives (.statement body) us →
      Derives (.statement ⟨span, .while condition body⟩)
        (.keyword .while :: .symbol .leftParen :: (ts ++ .symbol .rightParen :: us))
  | for {span : Span} {init : Option Stmt} {condition step : Option Expr} {body : Stmt}
      {ts us vs ws : Tokens} :
      Derives (.clause init) ts → Derives (.optional condition) us →
      Derives (.optional step) vs → Derives (.statement body) ws →
      Derives (.statement ⟨span, .for init condition step body⟩)
        (.keyword .for :: .symbol .leftParen ::
          (ts ++ (us ++ .symbol .semicolon :: (vs ++ .symbol .rightParen :: ws))))
  | break {span : Span} :
      Derives (.statement ⟨span, .break⟩) [.keyword .break, .symbol .semicolon]
  | continue {span : Span} :
      Derives (.statement ⟨span, .continue⟩) [.keyword .continue, .symbol .semicolon]
  | return {span : Span} {value : Option Expr} {ts : Tokens} :
      Derives (.optional value) ts →
      Derives (.statement ⟨span, .return value⟩)
        (.keyword .return :: (ts ++ [.symbol .semicolon]))
  -- declarations
  | var {span : Span} {name : Identifier} :
      Derives (.declaration ⟨span, .varDecl name none⟩)
        [.keyword .var, .identifier name.name, .symbol .semicolon]
  | varInit {span : Span} {name : Identifier} {e : Expr} {ts : Tokens} :
      Derives (.expr .assignment e) ts →
      Derives (.declaration ⟨span, .varDecl name (some e)⟩)
        (.keyword .var :: .identifier name.name :: .symbol .equal ::
          (ts ++ [.symbol .semicolon]))
  | fun {span : Span} {f : Function} {ts : Tokens} :
      Derives (.function Bool.false f) ts →
      Derives (.declaration ⟨span, .funDecl f⟩) (.keyword .fun :: ts)
  | class {span : Span} {name : Identifier} {superclass : Option Reference}
      {traits : List Reference} {methods statics : List Function} {ts : Tokens} :
      Derives (.members methods statics) ts →
      Derives (.declaration ⟨span, .classDecl name superclass traits methods statics⟩)
        (.keyword .klass :: .identifier name.name :: (extending superclass ++
          (composing traits ++ .symbol .leftBrace :: (ts ++ [.symbol .rightBrace]))))
  | trait {span : Span} {name : Identifier} {methods statics : List Function} {ts : Tokens} :
      Derives (.members methods statics) ts →
      Derives (.declaration ⟨span, .traitDecl name methods statics⟩)
        (.keyword .trait :: .identifier name.name :: .symbol .leftBrace ::
          (ts ++ [.symbol .rightBrace]))
  | statement {s : Stmt} {ts : Tokens} :
      Derives (.statement s) ts → ts.head? ≠ some (.keyword .fun) → Derives (.declaration s) ts
  | noDeclarations : Derives (.declarations []) []
  | someDeclarations {s : Stmt} {ss : List Stmt} {ts us : Tokens} :
      Derives (.declaration s) ts → Derives (.declarations ss) us →
      Derives (.declarations (s :: ss)) (ts ++ us)
  -- clauses
  | noClause : Derives (.clause none) [.symbol .semicolon]
  | varClause {span : Span} {name : Identifier} {init : Option Expr} {ts : Tokens} :
      Derives (.declaration ⟨span, .varDecl name init⟩) ts →
      Derives (.clause (some ⟨span, .varDecl name init⟩)) ts
  | expressionClause {span : Span} {e : Expr} {ts : Tokens} :
      Derives (.statement ⟨span, .expression e⟩) ts →
      Derives (.clause (some ⟨span, .expression e⟩)) ts

/-! ## Lemmas -/

variable {fits} {e : Expr} {ts : Tokens}

theorem Stratum.rank_tighter (ℓ : Stratum) (h : ℓ ≠ .primary) : ℓ.tighter.rank = ℓ.rank + 1 := by
  cases ℓ
  case primary => exact absurd rfl h
  all_goals rfl

/-- An expression of a stratum is one of each looser stratum. -/
theorem Derives.of_rank_le {ℓ m : Stratum} (h : Derives fits (.expr m e) ts)
    (hle : ℓ.rank ≤ m.rank) : Derives fits (.expr ℓ e) ts := by
  by_cases heq : ℓ = m
  · exact heq ▸ h
  have hp : ℓ ≠ .primary := by
    rintro rfl
    cases m <;> simp_all [Stratum.rank]
  have ht := Stratum.rank_tighter ℓ hp
  have hlt : ℓ.rank < m.rank := by
    refine Nat.lt_of_le_of_ne hle fun hr => heq ?_
    cases ℓ <;> cases m <;> first | rfl | cases hr
  exact .looser (h.of_rank_le (by omega))
termination_by m.rank - ℓ.rank

/-! ### Targets of assignments -/

theorem Derives.eq_of_variable {ℓ : Stratum} {id : ExprId} {span : Span} {name : Identifier}
    (h : Derives fits (.expr ℓ ⟨id, span, .variable name⟩) ts) : ts = [.identifier name.name] := by
  generalize hp : Phrase.expr ℓ ⟨id, span, .variable name⟩ = p at h
  induction h generalizing ℓ with
  | looser _ ih => cases hp; exact ih rfl
  | «variable» => cases hp; rfl
  | _ => cases hp

theorem Derives.of_get {ℓ : Stratum} {id : ExprId} {span : Span} {object : Expr}
    {property : Identifier} (h : Derives fits (.expr ℓ ⟨id, span, .get object property⟩) ts) :
    ∃ us, ts = us ++ [.symbol .dot, .identifier property.name] ∧
      Derives fits (.expr .call object) us := by
  generalize hp : Phrase.expr ℓ ⟨id, span, .get object property⟩ = p at h
  induction h generalizing ℓ with
  | looser _ ih => cases hp; exact ih rfl
  | get ho => cases hp; exact ⟨_, rfl, ho⟩
  | _ => cases hp

theorem Derives.of_index {ℓ : Stratum} {id : ExprId} {span : Span} {array position : Expr}
    (h : Derives fits (.expr ℓ ⟨id, span, .index array position⟩) ts) :
    ∃ us vs, ts = us ++ .symbol .leftBracket :: (vs ++ [.symbol .rightBracket]) ∧
      Derives fits (.expr .call array) us ∧ Derives fits (.expr .assignment position) vs := by
  generalize hp : Phrase.expr ℓ ⟨id, span, .index array position⟩ = p at h
  induction h generalizing ℓ with
  | looser _ ih => cases hp; exact ih rfl
  | index ha hi => cases hp; exact ⟨_, _, rfl, ha, hi⟩
  | _ => cases hp

/-! ### Keywords that are operands -/

theorem Derives.eq_of_this {ℓ : Stratum} {id : ExprId} {span : Span}
    (h : Derives fits (.expr ℓ ⟨id, span, .this⟩) ts) : ts = [.keyword .this] := by
  generalize hp : Phrase.expr ℓ ⟨id, span, .this⟩ = p at h
  induction h generalizing ℓ with
  | looser _ ih => cases hp; exact ih rfl
  | this => cases hp; rfl
  | _ => cases hp

theorem Derives.eq_of_super {ℓ : Stratum} {id : ExprId} {span : Span} {name : Identifier}
    (h : Derives fits (.expr ℓ ⟨id, span, .super name⟩) ts) :
    ts = [.keyword .super, .symbol .dot, .identifier name.name] := by
  generalize hp : Phrase.expr ℓ ⟨id, span, .super name⟩ = p at h
  induction h generalizing ℓ with
  | looser _ ih => cases hp; exact ih rfl
  | super => cases hp; rfl
  | _ => cases hp

/-! ### Statements -/

theorem Derives.of_expression {span : Span}
    (h : Derives fits (.statement ⟨span, .expression e⟩) ts) :
    ∃ us, ts = us ++ [.symbol .semicolon] ∧ Derives fits (.expr .assignment e) us := by
  cases h with
  | expression he => exact ⟨_, rfl, he⟩

theorem Derives.head?_of_varDecl {span : Span} {name : Identifier} {init : Option Expr}
    (h : Derives fits (.declaration ⟨span, .varDecl name init⟩) ts) :
    ts.head? = some (.keyword .var) := by
  cases h with
  | var => rfl
  | varInit => rfl
  | statement hs => cases hs

end Lox.Grammar

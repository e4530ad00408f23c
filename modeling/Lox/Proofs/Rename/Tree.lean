import Lox.Proofs.Scope.Place

/-!
# Renaming a local

A renaming gives one local variable or parameter another name: where it is declared, and in each use
that its table of distances links to the scope of the declaration.  Of the open scopes it is told
apart only whether the local belongs to them.  The tree keeps its identities and spans, and every other name.
-/

namespace Lox

/-! ## Locals -/

/-- The variable that a statement declares. -/
def Stmt.variables : Stmt → List Identifier
  | ⟨_, .varDecl name _⟩ => [name]
  | _ => []

namespace Lexical

namespace Site

/-- The parameters in a scope. -/
def parameters : Site → List Identifier
  | .call f => f.params
  | _ => []

/-- The statements right in a scope, by which it declares names. -/
def statements : Site → List Stmt
  | .stmt ⟨_, .block body⟩ => body
  | .stmt ⟨_, .for init _ _ _⟩ => init.toList
  | .call f => f.body
  | _ => []

/-- The parameters and variables of a scope. -/
def locals (site : Site) : List Identifier :=
  site.parameters ++ site.statements.flatMap Stmt.variables

end Site

/-- The parameters and variables in the scope that a part of a program opens. -/
def Node.variables : Node → List Identifier
  | .stmt s => (Site.stmt s).locals
  | .function _ f => (Site.call f).locals
  | _ => []

/-- A local variable or a parameter of the program. -/
def IsLocal (body : List Stmt) (decl : Identifier) : Prop :=
  ∃ π n, Occurs body π n ∧ decl ∈ n.variables

end Lexical

/-! ## Names -/

mutual

/-- The names that variables are used and declared by; those of members are not among them. -/
def Expr.names : Expr → List String
  | ⟨_, _, node⟩ =>
    match node with
    | .literal _ => []
    | .variable name => [name.name]
    | .assign name value => name.name :: value.names
    | .group e | .unary _ e | .get e _ => e.names
    | .binary _ a b | .logical _ a b | .index a b | .set a _ b => a.names ++ b.names
    | .ternary a b c | .indexSet a b c => a.names ++ (b.names ++ c.names)
    | .call callee args => callee.names ++ Expr.namesOf args
    | .array elements => Expr.namesOf elements
    | .lambda f => f.names
    | .this => [Name.this]
    | .super _ => [Name.super]

def Expr.namesOf : List Expr → List String
  | [] => []
  | e :: es => e.names ++ Expr.namesOf es

def Function.names : Function → List String
  | ⟨_, params, body, _, _⟩ => params.map Identifier.name ++ Stmt.namesOf body

def Function.namesOf : List Function → List String
  | [] => []
  | f :: fs => f.names ++ Function.namesOf fs

def Stmt.names : Stmt → List String
  | ⟨_, node⟩ =>
    match node with
    | .expression e | .print e => e.names
    | .varDecl name init => name.name :: match init with
      | some e => e.names
      | none => []
    | .block body => Stmt.namesOf body
    | .ifElse condition yes no =>
      condition.names ++ (yes.names ++ match no with
        | some s => s.names
        | none => [])
    | .while condition body => condition.names ++ body.names
    | .for init condition step body =>
      (match init with
        | some s => s.names
        | none => []) ++
      ((match condition with
        | some e => e.names
        | none => []) ++
      ((match step with
        | some e => e.names
        | none => []) ++ body.names))
    | .break | .continue => []
    | .funDecl f => f.name.name :: f.names
    | .return value => match value with
      | some e => e.names
      | none => []
    | .classDecl name superclass traits methods statics =>
      name.name :: (superclass.toList.map (·.name.name) ++ (traits.map (·.name.name) ++
        (Function.namesOf methods ++ Function.namesOf statics)))
    | .traitDecl name methods statics =>
      name.name :: (Function.namesOf methods ++ Function.namesOf statics)

def Stmt.namesOf : List Stmt → List String
  | [] => []
  | s :: ss => s.names ++ Stmt.namesOf ss

end

/-! ## Renamings -/

structure Renaming where
  /-- The name of the local. -/
  name : String
  /-- Its other name. -/
  fresh : String
  /-- Which declarations are the local's. -/
  declares : Identifier → Bool
  /-- How many scopes out the local is that a use means. -/
  hops : ExprId → Option Nat

namespace Renaming

/-- Renames the local `decl` of a program, whose names have been resolved. -/
def ofLocal (decl : Identifier) (fresh : String) (r : Resolution) : Renaming where
  name := decl.name
  fresh := fresh
  declares name := name = decl
  hops id := r.distances.lookup id

variable (ρ : Renaming)

/-- Renames nothing. -/
def still : Renaming := { ρ with declares := fun _ => false, hops := fun _ => none }

/-- A name that means something in a scope; `own` tells whether the local belongs to the scope. -/
def rename (own : Bool) (name : String) : String :=
  if own = true ∧ name = ρ.name then ρ.fresh else name

/-- A name where it is declared. -/
def binder (name : Identifier) : Identifier :=
  if ρ.declares name then { name with name := ρ.fresh } else name

/-- Whether one of the names is the local's. -/
def owns (names : List Identifier) : Bool := names.any ρ.declares

/-- Whether a use is linked to a scope that the local belongs to.  Of each open scope, the innermost
first, `scopes` tells whether it is one. -/
def linked (scopes : List Bool) (id : ExprId) : Bool :=
  ((ρ.hops id).bind fun hops => scopes[hops]?).getD false

/-- A name where it is used. -/
def use (scopes : List Bool) (id : ExprId) (name : Identifier) : Identifier :=
  { name with name := ρ.rename (ρ.linked scopes id) name.name }

def reference (scopes : List Bool) (r : Reference) : Reference :=
  { r with name := ρ.use scopes r.id r.name }

/-- The name of a variable where it is declared.  A global keeps its name. -/
def declared (scopes : List Bool) (name : Identifier) : Identifier :=
  if scopes.isEmpty then name else ρ.binder name

mutual

def expr (scopes : List Bool) : Expr → Expr
  | ⟨id, span, node⟩ => ⟨id, span,
    match node with
    | .literal value => .literal value
    | .group e => .group (expr scopes e)
    | .binary op a b => .binary op (expr scopes a) (expr scopes b)
    | .unary op e => .unary op (expr scopes e)
    | .logical op a b => .logical op (expr scopes a) (expr scopes b)
    | .ternary a b c => .ternary (expr scopes a) (expr scopes b) (expr scopes c)
    | .variable name => .variable (ρ.use scopes id name)
    | .assign name value => .assign (ρ.use scopes id name) (expr scopes value)
    | .call callee args => .call (expr scopes callee) (exprs scopes args)
    | .get object property => .get (expr scopes object) property
    | .set object property value => .set (expr scopes object) property (expr scopes value)
    | .array elements => .array (exprs scopes elements)
    | .index a b => .index (expr scopes a) (expr scopes b)
    | .indexSet a b c => .indexSet (expr scopes a) (expr scopes b) (expr scopes c)
    | .lambda f => .lambda (function scopes f)
    | .this => .this
    | .super method => .super method⟩

def exprs (scopes : List Bool) : List Expr → List Expr
  | [] => []
  | e :: es => expr scopes e :: exprs scopes es

def function (scopes : List Bool) : Function → Function
  | ⟨name, params, body, isGetter, span⟩ =>
    let own := ρ.owns (params ++ body.flatMap Stmt.variables)
    ⟨name, params.map ρ.binder, stmts (own :: scopes) body, isGetter, span⟩

def functions (scopes : List Bool) : List Function → List Function
  | [] => []
  | f :: fs => function scopes f :: functions scopes fs

def stmt (scopes : List Bool) : Stmt → Stmt
  | ⟨span, node⟩ => ⟨span,
    match node with
    | .expression e => .expression (expr scopes e)
    | .print e => .print (expr scopes e)
    | .varDecl name init =>
      .varDecl (ρ.declared scopes name) (match init with
        | some e => some (expr scopes e)
        | none => none)
    | .block body => .block (stmts (ρ.owns (body.flatMap Stmt.variables) :: scopes) body)
    | .ifElse condition yes no =>
      .ifElse (expr scopes condition) (stmt scopes yes) (match no with
        | some s => some (stmt scopes s)
        | none => none)
    | .while condition body => .while (expr scopes condition) (stmt scopes body)
    | .for init condition step body =>
      let inner := ρ.owns (init.toList.flatMap Stmt.variables) :: scopes
      .for
        (match init with
          | some s => some (stmt inner s)
          | none => none)
        (match condition with
          | some e => some (expr inner e)
          | none => none)
        (match step with
          | some e => some (expr inner e)
          | none => none)
        (stmt inner body)
    | .break => .break
    | .continue => .continue
    | .funDecl f => .funDecl (function scopes f)
    | .return value => .return (match value with
      | some e => some (expr scopes e)
      | none => none)
    | .classDecl name none traits methods statics =>
      .classDecl name none (traits.map (ρ.reference scopes)) (functions (false :: scopes) methods)
        (functions scopes statics)
    -- the members of a class with a superclass lie in the scope of `super`
    | .classDecl name (some r) traits methods statics =>
      .classDecl name (some (ρ.reference scopes r)) (traits.map (ρ.reference scopes))
        (functions (false :: false :: scopes) methods) (functions (false :: scopes) statics)
    | .traitDecl name methods statics =>
      .traitDecl name (functions (false :: scopes) methods) (functions scopes statics)⟩

def stmts (scopes : List Bool) : List Stmt → List Stmt
  | [] => []
  | s :: ss => stmt scopes s :: stmts scopes ss

end

section Parts

variable (scopes : List Bool) (span : Span)

theorem functions_eq_map (fs : List Function) :
    ρ.functions scopes fs = fs.map (ρ.function scopes) := by
  induction fs with
  | nil => rfl
  | cons f fs ih => rw [functions, ih, List.map_cons]

theorem stmts_eq_map (ss : List Stmt) : ρ.stmts scopes ss = ss.map (ρ.stmt scopes) := by
  induction ss with
  | nil => rfl
  | cons s ss ih => rw [stmts, ih, List.map_cons]

theorem function_eq (f : Function) : ρ.function scopes f =
    { f with
      params := f.params.map ρ.binder
      body := ρ.stmts (ρ.owns (Lexical.Site.call f).locals :: scopes) f.body } := by
  cases f
  rfl

theorem stmt_ifElse (condition : Expr) (yes : Stmt) (no : Option Stmt) :
    ρ.stmt scopes ⟨span, .ifElse condition yes no⟩ =
      ⟨span, .ifElse (ρ.expr scopes condition) (ρ.stmt scopes yes) (no.map (ρ.stmt scopes))⟩ := by
  cases no <;> rfl

theorem stmt_for (init : Option Stmt) (condition step : Option Expr) (body : Stmt) :
    ρ.stmt scopes ⟨span, .for init condition step body⟩ =
      let inner := ρ.owns (init.toList.flatMap Stmt.variables) :: scopes
      ⟨span, .for (init.map (ρ.stmt inner)) (condition.map (ρ.expr inner))
        (step.map (ρ.expr inner)) (ρ.stmt inner body)⟩ := by
  cases init <;> cases condition <;> cases step <;> rfl

theorem stmt_return (value : Option Expr) :
    ρ.stmt scopes ⟨span, .return value⟩ = ⟨span, .return (value.map (ρ.expr scopes))⟩ := by
  cases value <;> rfl

theorem stmt_subclass (name : Identifier) (r : Reference) (traits : List Reference)
    (methods statics : List Function) :
    ρ.stmt scopes ⟨span, .classDecl name (some r) traits methods statics⟩ =
      ⟨span, .classDecl name (some (ρ.reference scopes r)) (traits.map (ρ.reference scopes))
        (ρ.functions (false :: false :: scopes) methods)
        (ρ.functions (false :: scopes) statics)⟩ := rfl

end Parts

/-- The whole program, in which the local has its other name. -/
def program (body : List Stmt) : List Stmt := ρ.stmts [] body

end Renaming

end Lox

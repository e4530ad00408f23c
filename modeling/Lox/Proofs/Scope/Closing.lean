import Mathlib.Data.List.Basic
import Lox.Proofs.Scope.Place
import Lox.Proofs.Scope.Rules

/-!
# The order in which scopes close

The parts right inside a part in the order that they are walked through, and from them the scopes
with declarations of their own, the inner ones before the outer: the order in which they close.
Every one that occurs is there.

    p ∈ closing π n ↔ OccursIn π n p.1 p.2 ∧ p.2.opensScope = true                   (mem_closing)

A use means the scope that `Place.distance?` takes it to.  Scopes are told apart by how many are
open around them, which is the same from wherever one looks.
-/

namespace Lox.Lexical

/-! ## Parts at any depth -/

/-- The parts of the part `n` of a program at any depth, itself too, and their places. -/
inductive OccursIn : Place → Node → Place → Node → Prop
  | self {π : Place} {n : Node} : OccursIn π n π n
  | inside {π ρ π' : Place} {n m n' : Node} :
      Inside π n ρ m → OccursIn ρ m π' n' → OccursIn π n π' n'

theorem OccursIn.trans {π ρ π' : Place} {n m n' : Node} (h : OccursIn π n ρ m)
    (h' : OccursIn ρ m π' n') : OccursIn π n π' n' := by
  induction h with
  | self => exact h'
  | inside hi _ ih => exact .inside hi (ih h')

theorem occurs_iff {body : List Stmt} {π : Place} {n : Node} :
    Occurs body π n ↔ OccursIn .program (.stmts body) π n := by
  constructor
  · intro h
    induction h with
    | program => exact .self
    | inside _ hi ih => exact ih.trans (.inside hi .self)
  · suffices h : ∀ ρ m, OccursIn ρ m π n → Occurs body ρ m → Occurs body π n from
      fun hin => h _ _ hin .program
    intro ρ m hin
    induction hin with
    | self => exact id
    | inside hi _ ih => exact fun ho => ih (ho.inside hi)

/-! ## The parts right inside a part, in order -/

/-- The operands in the order that they are walked through: a value comes before the object that it
is stored in. -/
def operandsInOrder : Expr.Node → List Expr
  | .set object _ value => [value, object]
  | node => node.operands

/-- What is right inside an expression behind its operands. -/
def Node.behindOperands (π : Place) (id : ExprId) : Expr.Node → List (Place × Node)
  | .variable name => [(π, .use id name.name true)]
  | .assign name _ => [(π, .use id name.name false)]
  | .lambda f => [(π, .function .function f)]
  | .this => [(π, .use id Name.this true)]
  | .super _ => [(π, .use id Name.super true)]
  | _ => []

/-- The members of a class or trait, at the place among them. -/
def Node.members (π : Place) (methods statics : List Function) : List (Place × Node) :=
  (methods.map fun f => (π.inReceiver f, .function (methodContext f) f)) ++
    statics.map fun f => (π, .function .staticMethod f)

def Node.innerStmt (π : Place) : Stmt → List (Place × Node)
  | ⟨span, node⟩ =>
    match node with
    | .expression e | .print e => [(π, .expr e)]
    | .varDecl name init => init.toList.map fun e => (π.initializing name.name, .expr e)
    | .block body => [(π.enter (.stmt ⟨span, .block body⟩) [], .stmts body)]
    | .ifElse condition yes no =>
      (π, .expr condition) :: (π, .stmt yes) :: no.toList.map fun s => (π, .stmt s)
    | .while condition body => [(π, .expr condition), (π.inLoop, .stmt body)]
    | .for init condition step body =>
      let ρ := π.enter (.stmt ⟨span, .for init condition step body⟩) []
      (init.toList.map fun s => (ρ, .stmt s)) ++
        ((condition.toList.map fun e => (ρ.afterClause init, .expr e)) ++
          ((step.toList.map fun e => (ρ.afterClause init, .expr e)) ++
            [((ρ.afterClause init).inLoop, .stmt body)]))
    | .break | .continue => []
    | .funDecl f => [(π.declare f.name.name, .function .function f)]
    | .return value => value.toList.map fun e => (π, .expr e)
    | .classDecl name superclass traits ms ss =>
      ((superclass.toList ++ traits).map fun r =>
        (π.declare name.name, .use r.id r.name.name true)) ++
      Node.members (π.inClass ⟨span, .classDecl name superclass traits ms ss⟩ name superclass) ms ss
    | .traitDecl name ms ss => Node.members (π.inTrait name) ms ss

/-- The parts right inside a part, in the order that they are walked through. -/
def Node.inner (π : Place) : Node → List (Place × Node)
  | .stmts [] => []
  | .stmts (s :: ss) => [(π, .stmt s), (π.after s, .stmts ss)]
  | .stmt s => innerStmt π s
  | .expr ⟨id, _, node⟩ =>
    ((operandsInOrder node).map fun e => (π, .expr e)) ++ behindOperands π id node
  | .function kind f => [(π.inFunction kind f, .stmts f.body)]
  | .use _ _ _ => []

theorem mem_operandsInOrder {node : Expr.Node} {e : Expr} :
    e ∈ operandsInOrder node ↔ e ∈ node.operands := by
  cases node <;> simp [operandsInOrder, Expr.Node.operands, or_comm]

theorem mem_inner_of_inside {π ρ : Place} {n m : Node} (h : Inside π n ρ m) :
    (ρ, m) ∈ n.inner π := by
  cases h with
  | @operand id span node e he =>
    exact List.mem_append_left _ (List.mem_map_of_mem (mem_operandsInOrder.2 he))
  | @trait span name superclass traits ms ss r hr =>
    exact List.mem_append_left _ (List.mem_map.2 ⟨r, List.mem_append_right _ hr, rfl⟩)
  | _ => simp_all [Node.inner, Node.behindOperands, Node.innerStmt, Node.members]

/-- What the list has for a part is right inside it: one constructor of `Inside` for each entry. -/
theorem inside_of_mem_inner {π ρ : Place} {n m : Node} (h : (ρ, m) ∈ n.inner π) :
    Inside π n ρ m := by
  cases n with
  | stmts body =>
    cases body with
    | nil => cases h
    | cons s ss =>
      rcases List.mem_pair.1 h with h | h
      · cases h; exact .first
      · cases h; exact .rest
  | expr e =>
    obtain ⟨id, span, node⟩ := e
    rcases List.mem_append.1 h with h | h
    · obtain ⟨e, he, hm⟩ := List.mem_map.1 h
      cases hm
      exact .operand (mem_operandsInOrder.1 he)
    · cases node with
      | «variable» name => cases List.mem_singleton.1 h; exact .variable
      | assign name value => cases List.mem_singleton.1 h; exact .assign
      | lambda f => cases List.mem_singleton.1 h; exact .lambda
      | this => cases List.mem_singleton.1 h; exact .this
      | super name => cases List.mem_singleton.1 h; exact .super
      | _ => cases h
  | function kind f => cases List.mem_singleton.1 h; exact .body
  | use => cases h
  | stmt s =>
    obtain ⟨span, node⟩ := s
    cases node with
    | expression e => cases List.mem_singleton.1 h; exact .expression
    | print e => cases List.mem_singleton.1 h; exact .print
    | varDecl name init =>
      cases init with
      | none => cases h
      | some e => cases List.mem_singleton.1 h; exact .initializer
    | block body => cases List.mem_singleton.1 h; exact .block
    | ifElse condition yes no =>
      rcases List.mem_cons.1 h with h | h
      · cases h; exact .ifCondition
      rcases List.mem_cons.1 h with h | h
      · cases h; exact .ifYes
      cases no with
      | none => cases h
      | some no => cases List.mem_singleton.1 h; exact .ifNo
    | «while» condition body =>
      rcases List.mem_pair.1 h with h | h
      · cases h; exact .whileCondition
      · cases h; exact .whileBody
    | «for» init condition step body =>
      rcases List.mem_append.1 h with h | h
      · cases init with
        | none => cases h
        | some s => cases List.mem_singleton.1 h; exact .forInit
      rcases List.mem_append.1 h with h | h
      · cases condition with
        | none => cases h
        | some e => cases List.mem_singleton.1 h; exact .forCondition
      rcases List.mem_append.1 h with h | h
      · cases step with
        | none => cases h
        | some e => cases List.mem_singleton.1 h; exact .forStep
      · cases List.mem_singleton.1 h; exact .forBody
    | «break» => cases h
    | «continue» => cases h
    | funDecl f => cases List.mem_singleton.1 h; exact .funDecl
    | «return» value =>
      cases value with
      | none => cases h
      | some e => cases List.mem_singleton.1 h; exact .returnValue
    | classDecl name superclass traits ms ss =>
      rcases List.mem_append.1 h with h | h
      · obtain ⟨r, hr, hm⟩ := List.mem_map.1 h
        cases hm
        rcases List.mem_append.1 hr with hr | hr
        · cases superclass with
          | none => cases hr
          | some r => cases List.mem_singleton.1 hr; exact .superclass
        · exact .trait hr
      rcases List.mem_append.1 h with h | h
      · obtain ⟨f, hf, hm⟩ := List.mem_map.1 h
        cases hm
        exact .method hf
      · obtain ⟨f, hf, hm⟩ := List.mem_map.1 h
        cases hm
        exact .static hf
    | traitDecl name ms ss =>
      rcases List.mem_append.1 h with h | h
      · obtain ⟨f, hf, hm⟩ := List.mem_map.1 h
        cases hm
        exact .traitMethod hf
      · obtain ⟨f, hf, hm⟩ := List.mem_map.1 h
        cases hm
        exact .traitStatic hf

/-! ## Closing -/

/-- How deep the part goes. -/
noncomputable def Node.size : Node → Nat
  | .stmts body => sizeOf body + 1
  | .stmt s => sizeOf s + 1
  | .expr e => sizeOf e + 1
  | .function _ f => sizeOf f + 1
  | .use _ _ _ => 0

theorem sizeOf_operand {node : Expr.Node} {e : Expr} (h : e ∈ node.operands) :
    sizeOf e < sizeOf node := by
  cases node <;> simp only [Expr.Node.operands, List.mem_cons, List.not_mem_nil, or_false] at h
  case call callee args =>
    rcases h with rfl | h
    · simp only [Expr.Node.call.sizeOf_spec]; omega
    · have := List.sizeOf_lt_of_mem h
      simp only [Expr.Node.call.sizeOf_spec]; omega
  case array elements =>
    have := List.sizeOf_lt_of_mem h
    simp only [Expr.Node.array.sizeOf_spec]; omega
  all_goals
    rcases h with rfl | h <;> (try rcases h with rfl | rfl) <;> simp <;> omega

theorem Inside.size_lt {π ρ : Place} {n m : Node} (h : Inside π n ρ m) : m.size < n.size := by
  cases h with
  | operand he =>
    have := sizeOf_operand he
    simp only [Node.size, Expr.mk.sizeOf_spec]
    omega
  | @body kind f =>
    obtain ⟨name, params, body, isGetter, span⟩ := f
    simp only [Node.size, Function.mk.sizeOf_spec]
    omega
  | @method span name superclass traits ms ss f hf =>
    have := List.sizeOf_lt_of_mem hf
    simp only [Node.size, Stmt.mk.sizeOf_spec, Stmt.Node.classDecl.sizeOf_spec]
    omega
  | @static span name superclass traits ms ss f hf =>
    have := List.sizeOf_lt_of_mem hf
    simp only [Node.size, Stmt.mk.sizeOf_spec, Stmt.Node.classDecl.sizeOf_spec]
    omega
  | @traitMethod span name ms ss f hf =>
    have := List.sizeOf_lt_of_mem hf
    simp only [Node.size, Stmt.mk.sizeOf_spec, Stmt.Node.traitDecl.sizeOf_spec]
    omega
  | @traitStatic span name ms ss f hf =>
    have := List.sizeOf_lt_of_mem hf
    simp only [Node.size, Stmt.mk.sizeOf_spec, Stmt.Node.traitDecl.sizeOf_spec]
    omega
  | _ => simp [Node.size] <;> omega

def Node.isUse : Node → Bool
  | .use _ _ _ => true
  | _ => false

/-- All that lies in a part at any depth, the inner parts before the outer. -/
def parts (π : Place) (n : Node) : List (Place × Node) :=
  ((n.inner π).attach.flatMap fun ⟨(ρ, m), _⟩ => parts ρ m) ++ [(π, n)]
termination_by n.size
decreasing_by exact (inside_of_mem_inner ‹_›).size_lt

theorem parts_eq (π : Place) (n : Node) :
    parts π n = ((n.inner π).flatMap fun p => parts p.1 p.2) ++ [(π, n)] := by
  rw [parts, List.flatMap_subtype (g := fun p => parts p.1 p.2) fun _ _ => rfl,
    List.unattach_attach]

theorem occursIn_of_mem_parts {π : Place} {n : Node} {p : Place × Node} (h : p ∈ parts π n) :
    OccursIn π n p.1 p.2 := by
  rw [parts_eq, List.mem_append, List.mem_flatMap, List.mem_singleton] at h
  rcases h with ⟨⟨ρ, m⟩, hm, h⟩ | rfl
  · have := (inside_of_mem_inner hm).size_lt
    exact .inside (inside_of_mem_inner hm) (occursIn_of_mem_parts h)
  · exact .self
termination_by n.size

theorem OccursIn.mem_parts {π π' : Place} {n n' : Node} (h : OccursIn π n π' n') :
    (π', n') ∈ parts π n := by
  induction h with
  | self =>
    rw [parts_eq]
    exact List.mem_append_right _ (List.mem_singleton_self _)
  | inside hi _ ih =>
    rw [parts_eq]
    exact List.mem_append_left _ (List.mem_flatMap.2 ⟨_, mem_inner_of_inside hi, ih⟩)

theorem mem_parts {π : Place} {n : Node} {p : Place × Node} :
    p ∈ parts π n ↔ OccursIn π n p.1 p.2 := ⟨occursIn_of_mem_parts, OccursIn.mem_parts⟩

/-- Whether the part opens a scope for the names that it declares itself.  The scopes around members
have only `this` or `super` in them. -/
def Node.opensScope : Node → Bool
  | .stmt ⟨_, .block _⟩ | .stmt ⟨_, .for _ _ _ _⟩ | .function _ _ => true
  | _ => false

/-- The scopes that a part opens at any depth, in the order in which they close. -/
def closing (π : Place) (n : Node) : List (Place × Node) :=
  ((n.inner π).attach.flatMap fun ⟨(ρ, m), _⟩ => closing ρ m) ++
    if n.opensScope then [(π, n)] else []
termination_by n.size
decreasing_by exact (inside_of_mem_inner ‹_›).size_lt

theorem closing_eq (π : Place) (n : Node) :
    closing π n = ((n.inner π).flatMap fun p => closing p.1 p.2) ++
      if n.opensScope then [(π, n)] else [] := by
  rw [closing, List.flatMap_subtype (g := fun p => closing p.1 p.2) fun _ _ => rfl,
    List.unattach_attach]

theorem closing_eq_filter (π : Place) (n : Node) :
    closing π n = (parts π n).filter fun p => p.2.opensScope := by
  induction hs : n.size using Nat.strongRecOn generalizing π n with
  | ind size ih =>
    subst hs
    rw [closing_eq, parts_eq, List.filter_append, List.filter_flatMap]
    refine congrArg₂ (· ++ ·) (List.flatMap_congr fun p hp => ?_) ?_
    · exact ih _ (inside_of_mem_inner hp).size_lt p.1 p.2 rfl
    · cases h : n.opensScope <;> simp [h]

theorem mem_closing {π : Place} {n : Node} {p : Place × Node} :
    p ∈ closing π n ↔ OccursIn π n p.1 p.2 ∧ p.2.opensScope = true := by
  rw [closing_eq_filter, List.mem_filter, mem_parts]

/-! ## Declarations and their uses -/

/-- The variables, functions, classes and traits that a part declares in the scope that it opens. -/
def Node.locals : Node → List Identifier
  | .stmt ⟨_, .block body⟩ => body.flatMap Stmt.declarations
  | .stmt ⟨_, .for init _ _ body⟩ => init.toList.flatMap Stmt.declarations ++ body.declarations
  | .function _ f => f.body.flatMap Stmt.declarations
  | _ => []

/-- The name means the one in the scope around which `depth` others are open. -/
def Place.Means (π : Place) (name : String) (depth : Nat) : Prop :=
  ∃ hops, π.distance? name = some hops ∧ π.openings.length = depth + 1 + hops

/-- Some use in the part reads the name and means the one in the scope around which `depth` others
are open. -/
def ReadIn (p : Place × Node) (name : String) (depth : Nat) : Prop :=
  ∃ π id, OccursIn p.1 p.2 π (.use id name true) ∧ π.Means name depth

/-- Some use reads the name that is declared in the scope which the part opens. -/
def IsRead (scope : Place × Node) (name : String) : Prop :=
  ReadIn scope name scope.1.openings.length

theorem readIn_iff {π : Place} {n : Node} (hn : n.isUse = false) {name : String} {depth : Nat} :
    ReadIn (π, n) name depth ↔ ∃ p ∈ n.inner π, ReadIn p name depth := by
  constructor
  · rintro ⟨ρ, id, hin, hm⟩
    cases hin with
    | self => cases hn
    | inside hi hin => exact ⟨_, mem_inner_of_inside hi, ρ, id, hin, hm⟩
  · rintro ⟨⟨ρ, m⟩, hi, π', id, hin, hm⟩
    exact ⟨π', id, .inside (inside_of_mem_inner hi) hin, hm⟩

theorem readIn_use {π : Place} {id : ExprId} {x name : String} {reads : Bool} {depth : Nat} :
    ReadIn (π, .use id x reads) name depth ↔ reads = true ∧ x = name ∧ π.Means name depth := by
  constructor
  · rintro ⟨ρ, id', hin, hm⟩
    cases hin with
    | self => exact ⟨rfl, rfl, hm⟩
    | inside hi => cases hi
  · rintro ⟨rfl, rfl, hm⟩
    exact ⟨π, id, .self, hm⟩

end Lox.Lexical

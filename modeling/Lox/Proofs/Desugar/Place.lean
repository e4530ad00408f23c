import Lox.Proofs.Desugar.Tree
import Lox.Proofs.Scope.Closing
import Lox.Proofs.Scope.Visit

/-!
# Places in desugared programs

At a place in a desugared program the same scopes are open as at the place in the program itself,
and in between those of turns: where a `for` was, the body is a scope further in.  A list of flags
says which: `true` for a scope that both have open, `false` for one of a turn, in which nothing is
declared.

    Beside D Γ π π' n → Inside π n ρ m →
      ∃ ρ', Inside π' (D.node n) ρ' (D.node m) ∧ Beside D (more ++ Γ) ρ ρ' m      (Beside.inside)

That is so of all parts but a `for` that is replaced, whose parts lie deeper (`Beside.loopBlock`).
-/

namespace Lox

open Lexical

/-! ## Scopes side by side -/

/-- Scopes that have declared the same names. -/
structure Lexical.Opening.Same (o o' : Opening) : Prop where
  ready : o.ready = o'.ready
  pending : o.pending = o'.pending

/-- The open scopes of two places, the second of which has those of turns besides. -/
inductive Aligned : List Bool → List Opening → List Opening → Prop
  | nil : Aligned [] [] []
  | shared {Γ : List Bool} {o o' : Opening} {os os' : List Opening} :
      o.Same o' → Aligned Γ os os' → Aligned (true :: Γ) (o :: os) (o' :: os')
  | extra {Γ : List Bool} {os os' : List Opening} (s : Stmt) :
      Aligned Γ os os' → Aligned (false :: Γ) os (⟨.stmt s, [], none⟩ :: os')

/-- So many scopes out on one side is so many scopes out on the other. -/
inductive Hops : List Bool → Nat → Nat → Prop
  | here {Γ : List Bool} : Hops (true :: Γ) 0 0
  | shared {Γ : List Bool} {k k' : Nat} : Hops Γ k k' → Hops (true :: Γ) (k + 1) (k' + 1)
  | extra {Γ : List Bool} {k k' : Nat} : Hops Γ k k' → Hops (false :: Γ) k (k' + 1)

theorem Lexical.Opening.Same.names {o o' : Opening} (h : o.Same o') : o.names = o'.names := by
  rw [Opening.names, h.ready, h.pending, Opening.names]

namespace Aligned

variable {Γ : List Bool} {os os' : List Opening}

theorem length (h : Aligned Γ os os') : os.length = Γ.count true := by
  induction h with
  | nil => rfl
  | shared _ _ ih => rw [List.length_cons, ih, List.count_cons_self]
  | extra s _ ih => rw [ih, List.count_cons_of_ne (by decide)]

theorem length' (h : Aligned Γ os os') : os'.length = Γ.length := by
  induction h with
  | nil => rfl
  | shared _ _ ih => rw [List.length_cons, ih, List.length_cons]
  | extra s _ ih => rw [List.length_cons, ih, List.length_cons]

/-- Where a name is found among the scopes. -/
abbrev find (name : String) (os : List Opening) : Option Nat := os.findIdx? fun o => name ∈ o.names

theorem find_cons (name : String) (o : Opening) (os : List Opening) :
    find name (o :: os) = if name ∈ o.names then some 0 else (find name os).map (· + 1) := by
  rw [find, List.findIdx?_cons]
  by_cases h : name ∈ o.names <;> simp [h]

/-- A name is found in scopes that belong together, if it is found. -/
theorem find_cases (h : Aligned Γ os os') (name : String) :
    (find name os = none ∧ find name os' = none) ∨
      ∃ k k', find name os = some k ∧ find name os' = some k' ∧ Hops Γ k k' := by
  induction h with
  | nil => exact .inl ⟨rfl, rfl⟩
  | shared ho _ ih =>
    rw [find_cons, find_cons, ← ho.names]
    split
    · exact .inr ⟨0, 0, rfl, rfl, .here⟩
    · rcases ih with ⟨hnone, hnone'⟩ | ⟨k, k', hk, hk', hhops⟩
      · exact .inl ⟨by rw [hnone]; rfl, by rw [hnone']; rfl⟩
      · exact .inr ⟨k + 1, k' + 1, by rw [hk]; rfl, by rw [hk']; rfl, .shared hhops⟩
  | extra s _ ih =>
    rw [find_cons, if_neg (by simp [Opening.names])]
    rcases ih with ⟨hnone, hnone'⟩ | ⟨k, k', hk, hk', hhops⟩
    · exact .inl ⟨hnone, by rw [hnone']; rfl⟩
    · exact .inr ⟨k, k' + 1, hk, by rw [hk']; rfl, .extra hhops⟩

/-- The innermost scopes are changed in the same way, if they belong together. -/
theorem modifyHead (h : Aligned Γ os os') (hΓ : Γ.head? ≠ some false) {g : Opening → Opening}
    (hg : ∀ o o' : Opening, o.Same o' → (g o).Same (g o')) :
    Aligned Γ (os.modifyHead g) (os'.modifyHead g) := by
  cases h with
  | nil => exact .nil
  | shared ho h =>
    rw [List.modifyHead_cons, List.modifyHead_cons]
    exact .shared (hg _ _ ho) h
  | extra s h => exact absurd rfl hΓ

end Aligned

/-! ## Parts side by side -/

/-- Whether the part declares nothing in the scope around it. -/
def Lexical.Node.isBare : Node → Bool
  | .stmts _ => false
  | .stmt s => !s.isDeclaration
  | _ => true

/-- Whether the part consists of statements of the loops around it. -/
def Lexical.Node.isLooped : Node → Bool
  | .stmts _ | .stmt _ => true
  | _ => false

namespace Desugaring

variable {D : Desugaring} {Γ Γ' : List Bool} {π π' ρ ρ' : Lexical.Place} {n m : Node}

/-- What a part is replaced by. -/
def node (D : Desugaring) : Node → Node
  | .stmts body => .stmts (D.stmts body)
  | .stmt s => .stmt (D.stmt s)
  | .expr e => .expr (D.expr e)
  | .function kind f => .function kind (D.function f)
  | .use id name reads => .use id name reads

/-- Whether the part is a `for` statement that is replaced. -/
def isReplaced (D : Desugaring) : Node → Bool
  | .stmt ⟨span, .for init condition step body⟩ => D.replaces span init condition step body
  | _ => false

/-- The part `n` at the place `π`, and at `π'` what it is replaced by. -/
structure Beside (D : Desugaring) (Γ : List Bool) (π π' : Lexical.Place) (n : Node) : Prop where
  aligned : Aligned Γ π.openings π'.openings
  context : π'.context = { π.context with loops := π'.context.loops }
  loops : n.isLooped = true → (π'.context.loops = 0 ↔ π.context.loops = 0)
  bare : Γ.head? = some false → n.isBare = true
  wellFormed : n.WellFormed

namespace Beside

theorem head_ne (h : Beside D Γ π π' n) (hn : n.isBare = false) : Γ.head? ≠ some false := by
  intro hΓ
  rw [h.bare hΓ] at hn
  cases hn

/-- A part right inside, at the same place. -/
theorem here (h : Beside D Γ π π' n) (hi : Inside π n π m)
    (hloops : m.isLooped = true → n.isLooped = true) (hbare : n.isBare = true → m.isBare = true) :
    Beside D Γ π π' m where
  aligned := h.aligned
  context := h.context
  loops hm := h.loops (hloops hm)
  bare hΓ := hbare (h.bare hΓ)
  wellFormed := hi.wellFormed h.wellFormed

theorem aligned_declare (h : Aligned Γ π.openings π'.openings) (hΓ : Γ.head? ≠ some false)
    (name : String) : Aligned Γ (π.declare name).openings (π'.declare name).openings :=
  h.modifyHead hΓ fun _ _ ho => ⟨congrArg (· ++ [name]) ho.ready, rfl⟩

theorem aligned_initializing (h : Aligned Γ π.openings π'.openings) (hΓ : Γ.head? ≠ some false)
    (name : String) : Aligned Γ (π.initializing name).openings (π'.initializing name).openings :=
  h.modifyHead hΓ fun _ _ ho => ⟨ho.ready, rfl⟩

theorem aligned_after (h : Aligned Γ π.openings π'.openings) (hΓ : Γ.head? ≠ some false)
    (s : Stmt) : Aligned Γ (π.after s).openings (π'.after (D.stmt s)).openings := by
  obtain ⟨span, node⟩ := s
  cases node with
  | varDecl name => exact aligned_declare h hΓ _
  | classDecl name => exact aligned_declare h hΓ _
  | traitDecl name => exact aligned_declare h hΓ _
  | funDecl f =>
    obtain ⟨name, params, body, isGetter, span⟩ := f
    exact aligned_declare h hΓ _
  | «for» init condition step body =>
    rw [stmt_for]
    split <;> exact h
  | ifElse condition yes no =>
    rw [stmt_ifElse]
    exact h
  | «return» value =>
    rw [stmt_return]
    exact h
  | _ => exact h

theorem aligned_afterClause (h : Aligned Γ π.openings π'.openings) (hΓ : Γ.head? ≠ some false)
    (init : Option Stmt) :
    Aligned Γ (π.afterClause init).openings (π'.afterClause (init.map D.stmt)).openings := by
  cases init with
  | none => exact h
  | some s => exact aligned_after h hΓ s

theorem length_declare (π : Lexical.Place) (name : String) :
    (π.declare name).openings.length = π.openings.length := List.length_modifyHead ..

theorem length_after (π : Lexical.Place) (s : Stmt) :
    (π.after s).openings.length = π.openings.length := by
  unfold Place.after
  split <;> first | exact length_declare .. | rfl

theorem length_afterClause (π : Lexical.Place) (init : Option Stmt) :
    (π.afterClause init).openings.length = π.openings.length := by
  cases init with
  | none => rfl
  | some s => exact length_after π s

end Beside

/-! ## The parts right inside a part -/

/-- What lies right inside at a place from `π` inward, and what it is replaced by.  The scopes that
are opened on the way are open on both sides. -/
def Partner (D : Desugaring) (Γ : List Bool) (π : Lexical.Place) (p p' : Lexical.Place × Node) :
    Prop :=
  p'.2 = D.node p.2 ∧
    Beside D (List.replicate (p.1.openings.length - π.openings.length) true ++ Γ) p.1 p'.1 p.2

theorem Beside.partner {k : Nat} (h : Beside D (List.replicate k true ++ Γ) ρ ρ' m)
    (hk : ρ.openings.length = π.openings.length + k) :
    D.Partner Γ π (ρ, m) (ρ', D.node m) := by
  refine ⟨rfl, ?_⟩
  rw [hk, Nat.add_sub_cancel_left]
  exact h

section Inner

variable (h : Beside D Γ π π' n)

include h

/-- What lies right inside in the same scopes. -/
theorem Beside.partner_here (hi : Inside π n π m)
    (hloops : m.isLooped = true → n.isLooped = true) (hbare : n.isBare = true → m.isBare = true) :
    D.Partner Γ π (π, m) (π', D.node m) :=
  Beside.partner (k := 0) (h.here hi hloops hbare) rfl

theorem Beside.partner_operand {e : Expr} (hi : Inside π n π (.expr e)) :
    D.Partner Γ π (π, .expr e) (π', .expr (D.expr e)) :=
  h.partner_here hi (fun hm => by cases hm) fun _ => rfl

theorem Beside.partner_use {id : ExprId} {name : String} {reads : Bool}
    (ha : Aligned Γ ρ.openings ρ'.openings)
    (hk : ρ.openings.length = π.openings.length) (hρ : ρ.context = π.context)
    (hρ' : ρ'.context = π'.context) :
    D.Partner Γ π (ρ, .use id name reads) (ρ', .use id name reads) :=
  Beside.partner (k := 0) (m := .use id name reads)
    ⟨ha, by rw [hρ, hρ']; exact h.context, fun hm => (by cases hm), fun _ => rfl, trivial⟩ hk

/-- A function in scopes all of which both sides have open. -/
theorem Beside.partner_function {k : Nat} {kind : Resolution.FunctionContext} {f : Function}
    (hi : Inside π n ρ (.function kind f))
    (ha : Aligned (List.replicate k true ++ Γ) ρ.openings ρ'.openings)
    (hk : ρ.openings.length = π.openings.length + k)
    (hc : ρ'.context = { ρ.context with loops := ρ'.context.loops }) :
    D.Partner Γ π (ρ, .function kind f) (ρ', .function kind (D.function f)) :=
  Beside.partner (m := .function kind f)
    ⟨ha, hc, fun hm => (by cases hm), fun _ => rfl, hi.wellFormed h.wellFormed⟩ hk

end Inner

theorem operandsInOrder_expr (e : Expr) :
    operandsInOrder (D.expr e).node = (operandsInOrder e.node).map D.expr := by
  obtain ⟨id, span, node⟩ := e
  cases node with
  | call callee args => simp [expr, operandsInOrder, Expr.Node.operands, exprs_eq_map]
  | array elements => simp [expr, operandsInOrder, Expr.Node.operands, exprs_eq_map]
  | _ => rfl

theorem inner_expr {e : Expr} (h : Beside D Γ π π' (.expr e)) :
    List.Forall₂ (D.Partner Γ π) (Node.inner π (.expr e)) (Node.inner π' (.expr (D.expr e))) := by
  obtain ⟨id, span, node⟩ := e
  have hoperands : List.Forall₂ (D.Partner Γ π)
      ((operandsInOrder node).map fun e => (π, .expr e))
      ((operandsInOrder (D.expr ⟨id, span, node⟩).node).map fun e => (π', .expr e)) := by
    rw [operandsInOrder_expr, List.map_map, List.forall₂_map_left_iff, List.forall₂_map_right_iff,
      List.forall₂_same]
    exact fun e he => h.partner_operand (.operand (mem_operandsInOrder.1 he))
  rw [expr.eq_def] at hoperands ⊢
  refine List.rel_append hoperands ?_
  cases node with
  | «variable» name =>
    exact .cons (h.partner_here .variable (fun hm => by cases hm) fun _ => rfl) .nil
  | assign name value =>
    exact .cons (h.partner_here .assign (fun hm => by cases hm) fun _ => rfl) .nil
  | lambda f => exact .cons (h.partner_here .lambda (fun hm => by cases hm) fun _ => rfl) .nil
  | this => exact .cons (h.partner_here .this (fun hm => by cases hm) fun _ => rfl) .nil
  | super name => exact .cons (h.partner_here .super (fun hm => by cases hm) fun _ => rfl) .nil
  | _ => exact .nil

/-- The members of a class or trait, around which both sides have the same scopes open. -/
theorem inner_members {k : Nat} {ms ss : List Function} (h : Beside D Γ π π' n)
    (hm : ∀ f ∈ ms, Inside π n (ρ.inReceiver f) (.function (methodContext f) f))
    (hs : ∀ f ∈ ss, Inside π n ρ (.function .staticMethod f))
    (ha : Aligned (List.replicate k true ++ Γ) ρ.openings ρ'.openings)
    (hk : ρ.openings.length = π.openings.length + k)
    (hc : ρ'.context = { ρ.context with loops := ρ'.context.loops }) :
    List.Forall₂ (D.Partner Γ π) (Node.members ρ ms ss)
      (Node.members ρ' (D.functions ms) (D.functions ss)) := by
  unfold Node.members
  rw [functions_eq_map, functions_eq_map, List.map_map, List.map_map]
  refine List.rel_append ?_ ?_
  · rw [List.forall₂_map_left_iff, List.forall₂_map_right_iff, List.forall₂_same]
    intro f hf
    have hcontext : methodContext (D.function f) = methodContext f := by
      rw [methodContext, methodContext, name_function]
    rw [Function.comp, hcontext]
    exact h.partner_function (k := k + 1) (hm f hf) (.shared ⟨rfl, rfl⟩ ha)
      (congrArg (· + 1) hk) hc
  · rw [List.forall₂_map_left_iff, List.forall₂_map_right_iff, List.forall₂_same]
    exact fun f hf => h.partner_function (hs f hf) ha hk hc

theorem Beside.context_inLoop (hc : π'.context = { π.context with loops := π'.context.loops }) :
    π'.inLoop.context = { π.inLoop.context with loops := π'.inLoop.context.loops } := by
  rw [Place.inLoop, hc]
  rfl

/-- In a scope that both sides enter, or further along in it, with equal contexts. -/
theorem Beside.deeper (h : Beside D Γ π π' n) (hi : Inside π n ρ m)
    (ha : Aligned Γ' ρ.openings ρ'.openings) (hΓ : Γ'.head? ≠ some false)
    (hc : ρ'.context = { ρ.context with loops := ρ'.context.loops })
    (hl : m.isLooped = true → (ρ'.context.loops = 0 ↔ ρ.context.loops = 0)) :
    Beside D Γ' ρ ρ' m :=
  ⟨ha, hc, hl, fun hΓ' => absurd hΓ' hΓ, hi.wellFormed h.wellFormed⟩

/-- A `for` that stays has its own scope on both sides. -/
theorem inner_for {span : Span} {init : Option Stmt} {condition step : Option Expr} {body : Stmt}
    (h : Beside D Γ π π' (.stmt ⟨span, .for init condition step body⟩)) :
    List.Forall₂ (D.Partner Γ π) (Node.innerStmt π ⟨span, .for init condition step body⟩)
      (Node.innerStmt π' ⟨span, .for (init.map D.stmt) (condition.map D.expr) (step.map D.expr)
        (D.stmt body)⟩) := by
  let ρ := π.enter (.stmt ⟨span, .for init condition step body⟩) []
  let ρ' := π'.enter (.stmt ⟨span, .for (init.map D.stmt) (condition.map D.expr)
    (step.map D.expr) (D.stmt body)⟩) []
  have ha : Aligned (true :: Γ) ρ.openings ρ'.openings := .shared ⟨rfl, rfl⟩ h.aligned
  have hafter := Beside.aligned_afterClause (D := D) ha (by simp) init
  have hlength : (ρ.afterClause init).openings.length = π.openings.length + 1 :=
    Beside.length_afterClause ρ init
  have hc : (ρ'.afterClause (init.map D.stmt)).context =
      { (ρ.afterClause init).context with
        loops := (ρ'.afterClause (init.map D.stmt)).context.loops } := by
    rw [Place.context_afterClause, Place.context_afterClause]
    exact h.context
  have clause {e : Expr} (hi : Inside π (.stmt ⟨span, .for init condition step body⟩)
      (ρ.afterClause init) (.expr e)) :
      D.Partner Γ π (ρ.afterClause init, .expr e)
        (ρ'.afterClause (init.map D.stmt), .expr (D.expr e)) :=
    Beside.partner (k := 1) (m := .expr e)
      (h.deeper hi hafter (by simp) hc fun hm => by cases hm) hlength
  refine List.rel_append ?_ (List.rel_append ?_ (List.rel_append ?_ (.cons ?_ .nil)))
  · cases init with
    | none => exact .nil
    | some s =>
      exact .cons (Beside.partner (k := 1) (m := .stmt s)
        (h.deeper .forInit ha (by simp) h.context fun _ => h.loops rfl) rfl) .nil
  · cases condition with
    | none => exact .nil
    | some e => exact .cons (clause .forCondition) .nil
  · cases step with
    | none => exact .nil
    | some e => exact .cons (clause .forStep) .nil
  · refine Beside.partner (k := 1) (m := .stmt body)
      (h.deeper .forBody hafter (by simp) (Beside.context_inLoop hc) fun _ => ?_) hlength
    exact iff_of_false (Nat.succ_ne_zero _) (Nat.succ_ne_zero _)

/-- A statement that is not replaced has right inside it what its parts are replaced by. -/
theorem inner_stmt {s : Stmt} (h : Beside D Γ π π' (.stmt s))
    (hs : D.isReplaced (.stmt s) = false) :
    List.Forall₂ (D.Partner Γ π) (Node.inner π (.stmt s)) (Node.inner π' (.stmt (D.stmt s))) := by
  obtain ⟨span, node⟩ := s
  have hf : (Node.stmt ⟨span, node⟩).isBare = false → Γ.head? ≠ some false := h.head_ne
  cases node with
  | expression e => exact .cons (h.partner_operand .expression) .nil
  | print e => exact .cons (h.partner_operand .print) .nil
  | varDecl name init =>
    cases init with
    | none => exact .nil
    | some e =>
      exact .cons (Beside.partner (k := 0) (m := .expr e)
        (h.deeper .initializer (Beside.aligned_initializing h.aligned (hf rfl) _) (hf rfl)
          h.context fun hm => by cases hm) (List.length_modifyHead ..)) .nil
  | block body =>
    exact .cons (Beside.partner (k := 1) (m := .stmts body)
      (h.deeper .block (.shared ⟨rfl, rfl⟩ h.aligned) (by simp) h.context fun _ => h.loops rfl)
      rfl) .nil
  | ifElse condition yes no =>
    obtain ⟨-, ⟨hyes, -⟩, hno⟩ := Stmt.wellFormed_ifElse.1 h.wellFormed
    rw [stmt_ifElse]
    refine .cons (h.partner_operand .ifCondition) (.cons ?_ ?_)
    · exact h.partner_here .ifYes (fun _ => rfl) fun _ => by rw [Node.isBare, hyes]; rfl
    · cases no with
      | none => exact .nil
      | some no =>
        exact .cons (h.partner_here .ifNo (fun _ => rfl) fun _ => by
          rw [Node.isBare, (hno no rfl).1]; rfl) .nil
  | «while» condition body =>
    refine .cons (h.partner_operand .whileCondition) (.cons ?_ .nil)
    refine Beside.partner (k := 0) (m := .stmt body)
      ⟨h.aligned, Beside.context_inLoop h.context, fun _ => ?_, fun _ => ?_, h.wellFormed.2.2⟩ rfl
    · exact iff_of_false (Nat.succ_ne_zero _) (Nat.succ_ne_zero _)
    · rw [Node.isBare, h.wellFormed.2.1]
      rfl
  | «for» init condition step body =>
    rw [stmt_for_of_not_replaces hs]
    exact inner_for h
  | «break» => exact .nil
  | «continue» => exact .nil
  | funDecl f =>
    have ha := Beside.aligned_declare h.aligned (hf rfl) f.name.name
    rw [stmt.eq_def]
    dsimp only [Node.inner, Node.innerStmt]
    rw [name_function]
    exact .cons (h.partner_function (k := 0) .funDecl ha (Beside.length_declare ..) h.context)
      .nil
  | «return» value =>
    cases value with
    | none => exact .nil
    | some e => exact .cons (h.partner_operand .returnValue) .nil
  | classDecl name superclass traits ms ss =>
    have ha := Beside.aligned_declare h.aligned (hf rfl) name.name
    have hlength := Beside.length_declare π name.name
    refine List.rel_append ?_ ?_
    · rw [List.forall₂_map_left_iff, List.forall₂_map_right_iff, List.forall₂_same]
      exact fun r _ => h.partner_use ha hlength rfl rfl
    · have hc (kind : Resolution.ClassContext) : π'.context.enterClass kind =
          { π.context.enterClass kind with loops := (π'.context.enterClass kind).loops } := by
        rw [h.context]
        rfl
      cases superclass with
      | none =>
        exact inner_members (k := 0) h (fun _ => .method) (fun _ => .static) ha hlength (hc _)
      | some r =>
        exact inner_members (k := 1) h (fun _ => .method) (fun _ => .static)
          (.shared ⟨rfl, rfl⟩ ha) (congrArg (· + 1) hlength) (hc _)
  | traitDecl name ms ss =>
    have ha := Beside.aligned_declare h.aligned (hf rfl) name.name
    refine inner_members (k := 0) h (fun _ => .traitMethod) (fun _ => .traitStatic) ha
      (Beside.length_declare ..) ?_
    show π'.context.enterClass .trait = _
    rw [h.context]
    rfl

/-- The parts right inside a part that is not replaced itself, and what they are replaced by. -/
theorem inner_partners (h : Beside D Γ π π' n) (hn : D.isReplaced n = false) :
    List.Forall₂ (D.Partner Γ π) (n.inner π) ((D.node n).inner π') := by
  cases n with
  | stmts ss =>
    cases ss with
    | nil => exact .nil
    | cons s ss =>
      have hΓ := h.head_ne rfl
      refine .cons ?_ (.cons ?_ .nil)
      · exact Beside.partner (k := 0) (m := .stmt s)
          (h.deeper .first h.aligned hΓ h.context fun _ => h.loops rfl) rfl
      · refine Beside.partner (k := 0) (m := .stmts ss)
          (h.deeper .rest (Beside.aligned_after h.aligned hΓ s) hΓ ?_ fun _ => ?_)
          (Beside.length_after π s)
        · rw [Place.context_after, Place.context_after]
          exact h.context
        · rw [Place.context_after, Place.context_after]
          exact h.loops rfl
  | stmt s => exact inner_stmt h hn
  | expr e => exact inner_expr h
  | function kind f =>
    refine .cons ?_ .nil
    rw [body_function]
    refine Beside.partner (k := 1) (m := .stmts f.body)
      (h.deeper .body (.shared ⟨?_, rfl⟩ h.aligned) (by simp) ?_ fun _ => Iff.rfl) rfl
    · rw [params_function]
    · show π'.context.enterFunction kind = _
      rw [h.context]
      rfl
  | use id name reads => exact .nil

/-- What lies right inside lies right inside on the other side as well, and both sides open the same
scopes on the way. -/
theorem Beside.inside (h : Beside D Γ π π' n) (hn : D.isReplaced n = false)
    (hi : Inside π n ρ m) : ∃ ρ', Inside π' (D.node n) ρ' (D.node m) ∧
      Beside D (List.replicate (ρ.openings.length - π.openings.length) true ++ Γ) ρ ρ' m := by
  obtain ⟨⟨ρ', m'⟩, hmem, rfl, hb⟩ : ∃ p' ∈ (D.node n).inner π', D.Partner Γ π (ρ, m) p' := by
    have hpartners := inner_partners h hn
    have hmem := mem_inner_of_inside hi
    generalize n.inner π = ps at hpartners hmem
    generalize (D.node n).inner π' = ps' at hpartners
    induction hpartners with
    | nil => cases hmem
    | cons hp _ ih =>
      rcases List.mem_cons.1 hmem with rfl | hmem
      · exact ⟨_, List.mem_cons_self, hp⟩
      · obtain ⟨p', hp', hpartner⟩ := ih hmem
        exact ⟨p', List.mem_cons_of_mem _ hp', hpartner⟩
  exact ⟨ρ', inside_of_mem_inner hmem, hb⟩

/-! ## Loops that are replaced -/

section Loop

variable (D : Desugaring) (span : Span) (init : Option Stmt) (condition step : Option Expr)
  (body : Stmt)

/-- In the block that a `for` statement is replaced by. -/
def inBlock (π : Lexical.Place) : Lexical.Place :=
  π.enter (.stmt (D.stmt ⟨span, .for init condition step body⟩)) []

/-- In front of the loop in the block. -/
def atLoop (π : Lexical.Place) : Lexical.Place :=
  (D.inBlock span init condition step body π).afterClause (init.map D.stmt)

/-- In a turn of the loop. -/
def inTurn (π : Lexical.Place) : Lexical.Place :=
  (D.atLoop span init condition step body π).inLoop.enter
    (.stmt (turn (step.map D.expr) (D.stmt body))) []

variable {D span init condition step body}

theorem Beside.loop_aligned
    (h : Beside D Γ π π' (.stmt ⟨span, .for init condition step body⟩)) :
    Aligned (true :: Γ)
      ((π.enter (.stmt ⟨span, .for init condition step body⟩) []).afterClause init).openings
      (D.atLoop span init condition step body π').openings := by
  have ha : Aligned (true :: Γ) (π.enter (.stmt ⟨span, .for init condition step body⟩) []).openings
      (D.inBlock span init condition step body π').openings := .shared ⟨rfl, rfl⟩ h.aligned
  exact Beside.aligned_afterClause ha (by simp) init

theorem Beside.loop_context
    (h : Beside D Γ π π' (.stmt ⟨span, .for init condition step body⟩)) :
    (D.atLoop span init condition step body π').context =
      { ((π.enter (.stmt ⟨span, .for init condition step body⟩) []).afterClause init).context with
        loops := (D.atLoop span init condition step body π').context.loops } := by
  rw [atLoop, Place.context_afterClause, Place.context_afterClause]
  exact h.context

theorem Beside.loop_init {s : Stmt}
    (h : Beside D Γ π π' (.stmt ⟨span, .for (some s) condition step body⟩)) :
    Beside D (true :: Γ) (π.enter (.stmt ⟨span, .for (some s) condition step body⟩) [])
      (D.inBlock span (some s) condition step body π') (.stmt s) :=
  h.deeper .forInit (.shared ⟨rfl, rfl⟩ h.aligned) (by simp) h.context fun _ => h.loops rfl

theorem Beside.loop_condition {e : Expr}
    (h : Beside D Γ π π' (.stmt ⟨span, .for init (some e) step body⟩)) :
    Beside D (true :: Γ)
      ((π.enter (.stmt ⟨span, .for init (some e) step body⟩) []).afterClause init)
      (D.atLoop span init (some e) step body π') (.expr e) :=
  h.deeper .forCondition h.loop_aligned (by simp) h.loop_context fun hm => by cases hm

theorem Beside.loop_step {e : Expr}
    (h : Beside D Γ π π' (.stmt ⟨span, .for init condition (some e) body⟩)) :
    Beside D (false :: true :: Γ)
      ((π.enter (.stmt ⟨span, .for init condition (some e) body⟩) []).afterClause init)
      (D.inTurn span init condition (some e) body π') (.expr e) where
  aligned := .extra _ h.loop_aligned
  context := Beside.context_inLoop h.loop_context
  loops hm := by cases hm
  bare _ := rfl
  wellFormed := (Inside.forStep (π := π)).wellFormed h.wellFormed

theorem Beside.loop_body (h : Beside D Γ π π' (.stmt ⟨span, .for init condition step body⟩)) :
    Beside D (false :: true :: Γ)
      ((π.enter (.stmt ⟨span, .for init condition step body⟩) []).afterClause init).inLoop
      (D.inTurn span init condition step body π') (.stmt body) where
  aligned := .extra _ h.loop_aligned
  context := Beside.context_inLoop h.loop_context
  loops _ := iff_of_false (Nat.succ_ne_zero _) (Nat.succ_ne_zero _)
  bare _ := by
    rw [Node.isBare, (Stmt.wellFormed_for.1 h.wellFormed).2.2.2.1]
    rfl
  wellFormed := (Inside.forBody (π := π)).wellFormed h.wellFormed

/-- A statement that declares nothing leaves the place as it is. -/
theorem after_of_not_isDeclaration {s : Stmt} (h : s.isDeclaration = false) (π : Lexical.Place) :
    π.after s = π := by
  obtain ⟨span, node⟩ := s
  cases node <;> first | rfl | cases h

end Loop

end Desugaring

end Lox

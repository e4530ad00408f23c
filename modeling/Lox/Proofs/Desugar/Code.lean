import Lox.Proofs.Desugar.Walk
import Lox.Proofs.Scope.Member

/-!
# Programs and their desugarings side by side

Where a program is run beside its desugaring, what was there before is the same on both sides.  So
two kinds of code are run: the program, of which the other side has the desugaring, and older code.
Both are desugared, the older code by the desugaring that replaces nothing:

    D.still.function f = f                                                       (function_still)

What matters to a run is which scopes are open and how far out the machines look for a name:

    K.Part D Γ (.use id name reads) → K.Links Γ id                                  (Part.links)
-/

namespace Lox

open Lexical

variable {D : Desugaring} {Γ : List Bool} {n m : Node}

/-! ## What machines know -/

/-- How far out the two machines look for the variable that a use means. -/
structure Known where
  hops : ExprId → Option Nat
  hops' : ExprId → Option Nat

namespace Known

/-- A program that one machine has been told, and its desugaring, that the other has. -/
structure Knows (K : Known) (D : Desugaring) (body : List Stmt) : Prop where
  wellFormed : Stmt.AllWellFormed body
  accepted : ∃ r, Resolution.ofProgram body = .ok r
  hops : ∀ {π id name reads}, Occurs body π (.use id name reads) →
    K.hops id = π.distance? name
  hops' : ∀ {π id name reads}, Occurs (D.stmts body) π (.use id name reads) →
    K.hops' id = π.distance? name

/-- The part is one of a program, and what it is replaced by one of its desugaring. -/
def Part (K : Known) (D : Desugaring) (Γ : List Bool) (n : Node) : Prop :=
  ∃ body π π', K.Knows D body ∧ Occurs body π n ∧ Occurs (D.stmts body) π' (D.node n) ∧
    D.Beside Γ π π' n

/-- The machines look for a use in scopes that belong together, or both among the globals. -/
inductive Links (K : Known) (Γ : List Bool) (id : ExprId) : Prop
  | global : K.hops id = none → K.hops' id = none → Links K Γ id
  | local {k k' : Nat} : K.hops id = some k → K.hops' id = some k' → Hops Γ k k' → Links K Γ id

namespace Part

variable {K : Known}

theorem wellFormed (h : K.Part D Γ n) : n.WellFormed := by
  obtain ⟨_, _, _, -, -, -, hbeside⟩ := h
  exact hbeside.wellFormed

theorem head_ne (h : K.Part D Γ n) (hn : n.isBare = false) : Γ.head? ≠ some false := by
  obtain ⟨_, _, _, -, -, -, hbeside⟩ := h
  exact hbeside.head_ne hn

theorem program {body : List Stmt} (h : K.Knows D body) : K.Part D [] (.stmts body) :=
  ⟨body, _, _, h, .program, .program, Desugaring.beside_program D h.wellFormed⟩

/-- A part right inside one that is not replaced, in so many scopes more. -/
theorem inside (h : K.Part D Γ n) (hn : D.isReplaced n = false) (k : Nat)
    (hi : ∀ π, ∃ ρ, Inside π n ρ m ∧ ρ.openings.length = π.openings.length + k) :
    K.Part D (List.replicate k true ++ Γ) m := by
  obtain ⟨body, π, π', hknows, ho, ho', hbeside⟩ := h
  obtain ⟨ρ, hinside, hk⟩ := hi π
  obtain ⟨ρ', hinside', hm⟩ := hbeside.inside hn hinside
  rw [hk, Nat.add_sub_cancel_left] at hm
  exact ⟨body, ρ, ρ', hknows, ho.inside hinside, ho'.inside hinside', hm⟩

/-- A part right inside at its very place. -/
theorem here (h : K.Part D Γ n) (hn : D.isReplaced n = false) (hi : ∀ π, Inside π n π m) :
    K.Part D Γ m := h.inside hn 0 fun π => ⟨π, hi π, rfl⟩

theorem operand {id : ExprId} {span : Span} {node : Expr.Node} {e : Expr}
    (h : K.Part D Γ (.expr ⟨id, span, node⟩)) (he : e ∈ node.operands) : K.Part D Γ (.expr e) :=
  h.here rfl fun _ => .operand he

/-! ### Loops that are replaced -/

section Loop

variable {span : Span} {init : Option Stmt} {condition step : Option Expr} {body : Stmt}
  {program : List Stmt} {π : Lexical.Place}

/-- The loop in the block that a `for` statement is replaced by. -/
theorem occurs_whileLoop (hr : D.replaces span init condition step body = true)
    (h : Occurs program π (.stmt (D.stmt ⟨span, .for init condition step body⟩))) :
    Occurs program (D.atLoop span init condition step body π)
      (.stmt (D.whileLoop span (condition.map D.expr) (step.map D.expr) (D.stmt body))) := by
  unfold Desugaring.atLoop Desugaring.inBlock
  rw [Desugaring.stmt_for_of_replaces hr] at h ⊢
  cases init with
  | none => exact (h.inside .block).inside .first
  | some s => exact ((h.inside .block).inside .rest).inside .first

theorem occurs_turn (hr : D.replaces span init condition step body = true)
    (h : Occurs program π (.stmt (D.stmt ⟨span, .for init condition step body⟩))) :
    Occurs program (D.inTurn span init condition step body π)
      (.stmts (D.stmt body :: (step.map D.expr).toList.map fun e => ⟨e.span, .expression e⟩)) :=
  ((occurs_whileLoop hr h).inside .whileBody).inside .block

theorem loop_body (hr : D.replaces span init condition step body = true)
    (h : K.Part D Γ (.stmt ⟨span, .for init condition step body⟩)) :
    K.Part D (false :: true :: Γ) (.stmt body) := by
  obtain ⟨_, π, π', hknows, ho, ho', hbeside⟩ := h
  exact ⟨_, _, _, hknows, ho.inside .forBody, (occurs_turn hr ho').inside .first, hbeside.loop_body⟩

theorem loop_init {s : Stmt} (hr : D.replaces span (some s) condition step body = true)
    (h : K.Part D Γ (.stmt ⟨span, .for (some s) condition step body⟩)) :
    K.Part D (true :: Γ) (.stmt s) := by
  obtain ⟨_, π, π', hknows, ho, ho', hbeside⟩ := h
  refine ⟨_, _, _, hknows, ho.inside .forInit, ?_, hbeside.loop_init⟩
  unfold Desugaring.inBlock
  rw [Desugaring.node, Desugaring.stmt_for_of_replaces hr] at ho'
  rw [Desugaring.stmt_for_of_replaces hr]
  exact (ho'.inside .block).inside .first

theorem loop_condition {e : Expr} (hr : D.replaces span init (some e) step body = true)
    (h : K.Part D Γ (.stmt ⟨span, .for init (some e) step body⟩)) :
    K.Part D (true :: Γ) (.expr e) := by
  obtain ⟨_, π, π', hknows, ho, ho', hbeside⟩ := h
  exact ⟨_, _, _, hknows, ho.inside .forCondition,
    (occurs_whileLoop hr ho').inside .whileCondition, hbeside.loop_condition⟩

theorem loop_step {e : Expr} (hr : D.replaces span init condition (some e) body = true)
    (h : K.Part D Γ (.stmt ⟨span, .for init condition (some e) body⟩)) :
    K.Part D (false :: true :: Γ) (.expr e) := by
  obtain ⟨_, π, π', hknows, ho, ho', hbeside⟩ := h
  have hdeclares := (Stmt.wellFormed_for.1 hbeside.wellFormed).2.2.2.1
  have hstep := ((occurs_turn hr ho').inside .rest).inside .first
  rw [Desugaring.after_of_not_isDeclaration
    ((Desugaring.isDeclaration_stmt body).trans hdeclares)] at hstep
  exact ⟨_, _, _, hknows, ho.inside .forStep, hstep.inside .expression, hbeside.loop_step⟩

end Loop

/-! ### Uses -/

theorem links {id : ExprId} {name : String} {reads : Bool}
    (h : K.Part D Γ (.use id name reads)) : K.Links Γ id := by
  obtain ⟨_, π, π', hknows, ho, ho', hbeside⟩ := h
  obtain ⟨hnone, hnone'⟩ | ⟨k, k', hk, hk', hhops⟩ :=
    Desugaring.distance?_cases hbeside.aligned name
  · exact .global ((hknows.hops ho).trans hnone) ((hknows.hops' ho').trans hnone')
  · exact .local ((hknows.hops ho).trans hk) ((hknows.hops' ho').trans hk') hhops

end Part

end Known

/-- Right inside the scope of `super` is that of a member. -/
theorem Lexical.Occurs.exists_inside_super {body : List Stmt} {π : Lexical.Place} {id : ExprId}
    {span : Span} {name : Identifier} {r : Resolution}
    (h : Occurs body π (.expr ⟨id, span, .super name⟩)) (hb : Stmt.AllWellFormed body)
    (hr : Resolution.ofProgram body = .ok r) :
    ∃ k o, π.distance? Name.super = some (k + 1) ∧ π.openings[k]? = some o ∧
      ∀ s, o.site ≠ .stmt s := by
  obtain ⟨_, _, _, _, _, _, _, kind, f, k, -, hscopes⟩ := h.super_scopes hb hr
  by_cases hkind : kind = .staticMethod
  · obtain ⟨o, ho, hsite⟩ := hscopes.call
    exact ⟨k, o, (hscopes.static hkind).1, ho, fun s hs => by rw [hsite] at hs; cases hs⟩
  · obtain ⟨-, hsuper, hreceiver, -⟩ := hscopes.method hkind
    exact ⟨k + 1, _, hsuper, hreceiver, nofun⟩

theorem Hops.eq_zero {k : Nat} (h : Hops Γ k 0) : k = 0 := by
  cases h
  rfl

/-- One scope further in than scopes that belong together there are such scopes again, unless it is
that of a turn. -/
theorem Aligned.hops_pred {os os' : List Opening} (h : Aligned Γ os os') {k k' : Nat}
    (hh : Hops Γ k (k' + 1)) {o : Opening} (ho : os'[k']? = some o) (hs : ∀ s, o.site ≠ .stmt s) :
    ∃ j, k = j + 1 ∧ Hops Γ j k' := by
  induction h generalizing k k' with
  | nil => cases hh
  | shared _ _ ih =>
    obtain - | @⟨_, i, _, hh⟩ := hh
    cases k' with
    | zero => exact ⟨0, congrArg (· + 1) hh.eq_zero, .here⟩
    | succ k' =>
      obtain ⟨j, rfl, hj⟩ := ih hh ho
      exact ⟨j + 1, rfl, .shared hj⟩
  | extra s _ ih =>
    obtain - | - | hh := hh
    cases k' with
    | zero =>
      cases ho
      exact absurd rfl (hs s)
    | succ k' =>
      obtain ⟨j, rfl, hj⟩ := ih hh ho
      exact ⟨j, rfl, .extra hj⟩

theorem Known.Part.links_super {K : Known} {id : ExprId} {span : Span} {name : Identifier}
    (h : K.Part D Γ (.expr ⟨id, span, .super name⟩)) :
    ∃ k k', K.hops id = some (k + 1) ∧ K.hops' id = some (k' + 1) ∧ Hops Γ (k + 1) (k' + 1) ∧
      Hops Γ k k' := by
  obtain ⟨body, π, π', hknows, ho, ho', hbeside⟩ := h
  obtain ⟨r', hr'⟩ := (Desugaring.accepted_stmts_iff D hknows.wellFormed).2 hknows.accepted
  obtain ⟨k', o, hk', ho'', hs⟩ := Occurs.exists_inside_super ho'
    (Desugaring.wellFormed_stmts body hknows.wellFormed) hr'
  obtain ⟨-, hnone'⟩ | ⟨k, _, hk, hk'', hhops⟩ :=
    Desugaring.distance?_cases hbeside.aligned Name.super
  · rw [hnone'] at hk'
    cases hk'
  · obtain rfl := Option.some.inj (hk'.symm.trans hk'')
    obtain ⟨j, rfl, hj⟩ := hbeside.aligned.hops_pred hhops ho'' hs
    exact ⟨j, k', (hknows.hops (ho.inside .super)).trans hk,
      (hknows.hops' (ho'.inside .super)).trans hk', hhops, hj⟩

/-! ## Functions -/

/-- A function and what it is replaced by, in the scopes `Γ`. -/
def Function.Desugared (K : Known) (Γ : List Bool) (f f' : Function) : Prop :=
  ∃ D kind, f' = D.function f ∧ K.Part D Γ (.function kind f)

namespace Function.Desugared

variable {K : Known} {f f' : Function}

theorem name (h : Function.Desugared K Γ f f') : f'.name = f.name := by
  obtain ⟨D, _, rfl, -⟩ := h
  exact D.name_function f

theorem arity (h : Function.Desugared K Γ f f') : f'.arity = f.arity := by
  obtain ⟨D, _, rfl, -⟩ := h
  rw [Function.arity, D.params_function, Function.arity]

theorem isGetter (h : Function.Desugared K Γ f f') : f'.isGetter = f.isGetter := by
  obtain ⟨D, _, rfl, -⟩ := h
  rw [D.function_eq]

theorem span (h : Function.Desugared K Γ f f') : f'.span = f.span := by
  obtain ⟨D, _, rfl, -⟩ := h
  rw [D.function_eq]

theorem isEmpty (h : Function.Desugared K Γ f f') : f'.body.isEmpty = f.body.isEmpty := by
  obtain ⟨D, _, rfl, -⟩ := h
  rw [D.body_function, D.stmts_eq_map, List.isEmpty_map]

theorem returnsDirectly (h : Function.Desugared K Γ f f') :
    f'.returnsDirectly = f.returnsDirectly := by
  obtain ⟨D, _, rfl, -⟩ := h
  rw [Function.returnsDirectly, D.body_function, D.stmts_eq_map, List.any_map]
  congr 1
  funext s
  obtain ⟨span, node⟩ := s
  cases node with
  | ifElse condition yes no => rw [Function.comp_apply, D.stmt_ifElse]
  | «for» init condition step body =>
    rw [Function.comp_apply, D.stmt_for]
    cases D.replaces span init condition step body <;> rfl
  | _ => rfl

end Function.Desugared

end Lox

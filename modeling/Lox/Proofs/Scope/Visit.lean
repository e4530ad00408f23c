import Lox.Proofs.Scope.Walk
import Lox.Proofs.Syntax.WellFormed

/-!
# Walks inside walks

A walk through a part that goes well goes through everything inside it, in scopes that have just the
names which the place of the inner part says, and in its context.  With the identities in a part a
walk counts what it records.

    Inside π n π' n' → Contains n.walk n.ids π n'.walk n'.ids π'             (Inside.contains)
-/

namespace Lox

namespace Lexical

open Resolution

/-! ## Parts -/

namespace Node

def WellFormed : Node → Prop
  | stmts body => Stmt.AllWellFormed body
  | stmt s => s.WellFormed
  | expr e => e.WellFormed
  | function _ f => f.WellFormed
  | use _ _ _ => True

def ids : Node → List ExprId
  | stmts body => Stmt.idsOf body
  | stmt s => s.ids
  | expr e => e.ids
  | function _ f => f.ids
  | use id _ _ => [id]

/-- The walk through a part. -/
def walk : Node → Walk Unit
  | stmts body => Resolution.stmts body
  | stmt s => Resolution.stmt s
  | expr e => Resolution.expr e
  | function kind f => Resolution.function kind f
  | use id name reads => modify (·.use id name reads)

end Node

/-- What is right inside a well-formed part is well-formed. -/
theorem Inside.wellFormed {π π' : Place} {n n' : Node} (h : Inside π n π' n')
    (hn : n.WellFormed) : n'.WellFormed := by
  cases h with
  | first => exact hn.1
  | rest => exact hn.2
  | operand he => exact Expr.wellFormed_of_mem_operands hn he
  | lambda => exact hn
  | «variable» => trivial
  | assign => trivial
  | this => trivial
  | super => trivial
  | body => exact (Function.wellFormed_iff.1 hn).2.2
  | expression => exact hn
  | print => exact hn
  | initializer =>
    rw [Node.WellFormed, Stmt.wellFormed_varDecl] at hn
    exact hn.2 _ rfl
  | block => exact hn
  | ifCondition => exact (Stmt.wellFormed_ifElse.1 hn).1
  | ifYes => exact (Stmt.wellFormed_ifElse.1 hn).2.1.2
  | ifNo => exact ((Stmt.wellFormed_ifElse.1 hn).2.2 _ rfl).2
  | whileCondition => exact hn.1
  | whileBody => exact hn.2.2
  | forInit => exact ((Stmt.wellFormed_for.1 hn).1 _ rfl).2
  | forCondition => exact (Stmt.wellFormed_for.1 hn).2.1 _ rfl
  | forStep => exact (Stmt.wellFormed_for.1 hn).2.2.1 _ rfl
  | forBody => exact (Stmt.wellFormed_for.1 hn).2.2.2.2
  | funDecl => exact hn.2
  | returnValue =>
    rw [Node.WellFormed, Stmt.wellFormed_return] at hn
    exact hn _ rfl
  | superclass => trivial
  | trait => trivial
  | method hf => exact (Function.allWellFormed_iff _).1 hn.2.2.2.1 _ hf
  | static hf => exact (Function.allWellFormed_iff _).1 hn.2.2.2.2 _ hf
  | traitMethod hf => exact (Function.allWellFormed_iff _).1 hn.2.1 _ hf
  | traitStatic hf => exact (Function.allWellFormed_iff _).1 hn.2.2 _ hf

/-! ## Names at a place -/

namespace Place

/-- The names in the open scopes, innermost first. -/
def names (π : Place) : List (List String) := π.openings.map Opening.names

/-- Whether the innermost scope is not in the middle of a declaration. -/
def Settled (π : Place) : Prop := ∀ o ∈ π.openings.head?, o.pending = none

theorem names_declare {π : Place} (h : π.Settled) (name : String) :
    (π.declare name).names = π.names.modifyHead (· ++ [name]) := by
  obtain ⟨openings, context⟩ := π
  cases openings with
  | nil => rfl
  | cons o os =>
    have ho : o.pending = none := h o rfl
    simp [names, declare, modifyInnermost, Opening.names, Opening.declare, ho]

theorem names_initializing {π : Place} (h : π.Settled) (name : String) :
    (π.initializing name).names = π.names.modifyHead (· ++ [name]) := by
  obtain ⟨openings, context⟩ := π
  cases openings with
  | nil => rfl
  | cons o os =>
    have ho : o.pending = none := h o rfl
    simp [names, initializing, modifyInnermost, Opening.names, Opening.initializing, ho]

theorem settled_declare {π : Place} (name : String) : (π.declare name).Settled := by
  obtain ⟨openings, context⟩ := π
  cases openings with
  | nil => simp [Settled, declare, modifyInnermost]
  | cons o os => simp [Settled, declare, modifyInnermost, Opening.declare]

theorem settled_enter {π : Place} (site : Site) (names : List String) :
    (π.enter site names).Settled := by
  simp [Settled, enter]

theorem settled_after {π : Place} (h : π.Settled) (s : Stmt) : (π.after s).Settled := by
  unfold after
  split
  all_goals first | exact settled_declare _ | exact h

theorem settled_afterClause {π : Place} (h : π.Settled) (init : Option Stmt) :
    (π.afterClause init).Settled := by
  cases init with
  | none => exact h
  | some s => exact settled_after h s

theorem context_after (π : Place) (s : Stmt) : (π.after s).context = π.context := by
  unfold after
  split <;> rfl

theorem context_afterClause (π : Place) (init : Option Stmt) :
    (π.afterClause init).context = π.context := by
  cases init with
  | none => rfl
  | some s => exact context_after π s

theorem names_after {π : Place} {s : Stmt} (h : π.Settled) (hs : s.WellFormed) :
    (π.after s).names = π.names.modifyHead (· ++ s.declared) := by
  by_cases hd : s.isDeclaration = true
  · obtain ⟨span, node⟩ := s
    cases node <;> simp only [Stmt.isDeclaration, Bool.false_eq_true] at hd
    all_goals exact names_declare h _
  · have hd : s.isDeclaration = false := Bool.not_eq_true _ ▸ hd
    have ha : π.after s = π := by
      obtain ⟨span, node⟩ := s
      cases node <;> first | rfl | simp [Stmt.isDeclaration] at hd
    rw [ha, s.declared_eq_nil hs hd, modifyHead_append_nil]

theorem names_afterClause {π : Place} {init : Option Stmt} (h : π.Settled)
    (hs : ∀ s ∈ init, s.isClause = true ∧ s.WellFormed) :
    (π.afterClause init).names = π.names.modifyHead (· ++ (init.map Stmt.declared).getD []) := by
  cases init with
  | none => exact (modifyHead_append_nil _).symm
  | some s => exact names_after h (hs s rfl).2

end Place

/-- A part that declares something stands where the innermost scope is settled. -/
def Node.Fits (π : Place) : Node → Prop
  | .stmts _ | .stmt _ => π.Settled
  | _ => True

theorem Inside.fits {π π' : Place} {n n' : Node} (h : Inside π n π' n') (hn : n.Fits π) :
    n'.Fits π' := by
  cases h with
  | first => exact hn
  | rest => exact Place.settled_after hn _
  | body => simp [Node.Fits, Place.Settled, Place.inFunction]
  | block => exact Place.settled_enter _ _
  | ifYes => exact hn
  | ifNo => exact hn
  | whileBody => exact hn
  | forInit => exact Place.settled_enter _ _
  | forBody => exact Place.settled_afterClause (Place.settled_enter _ _) _
  | _ => trivial

/-! ## Walks inside walks -/

/-- The scopes of a walk are those of a place. -/
structure At (s : State) (π : Place) : Prop where
  names : s.names = π.names
  context : s.context = π.context

/-- On every way of `w` from `π` that goes well lies a way of `w'` from `π'`, and what `w` does
around it records at most the identities that `ids` has more than `ids'`. -/
def Contains (w : Walk Unit) (ids : List ExprId) (π : Place) (w' : Walk Unit)
    (ids' : List ExprId) (π' : Place) : Prop :=
  ∀ s u, At s π → w s = .ok () u → ∃ s' u', At s' π' ∧ w' s' = .ok () u' ∧
    u'.distances <:+ u.distances ∧
    ∀ id, ids'.count id + s'.uses id + u.uses id ≤ ids.count id + s.uses id + u'.uses id

namespace Contains

variable {w w' v : Walk Unit} {ids ids' more : List ExprId} {π π' ρ : Place}

theorem refl : Contains w ids π w ids π :=
  fun s u hs hw => ⟨s, u, hs, hw, List.suffix_rfl, fun _ => by omega⟩

theorem trans {w'' : Walk Unit} {ids'' : List ExprId} {π'' : Place}
    (h : Contains w ids π w' ids' π') (h' : Contains w' ids' π' w'' ids'' π'') :
    Contains w ids π w'' ids'' π'' := by
  intro s u hs hw
  obtain ⟨s', u', hs', hw', hd, hc⟩ := h s u hs hw
  obtain ⟨s'', u'', hs'', hw'', hd', hc'⟩ := h' s' u' hs' hw'
  refine ⟨s'', u'', hs'', hw'', hd'.trans hd, fun id => ?_⟩
  have := hc id
  have := hc' id
  omega

theorem left (h : Contains w ids π w' ids' π') {a : List String} (hv : Adds v a more) :
    Contains (do w; v) (ids ++ more) π w' ids' π' := by
  intro s u hs hu
  obtain ⟨_, t, hw, hvt⟩ := EStateM.bind_eq_ok.1 hu
  obtain ⟨s', u', hs', hw', hd, hc⟩ := h s t hs hw
  refine ⟨s', u', hs', hw', hd.trans (hv.distances hvt), fun id => ?_⟩
  have := hc id
  have := hv.uses hvt id
  rw [List.count_append]
  omega

/-- Behind a walk that takes the place to `ρ`. -/
theorem right {a : List String} (hv : Adds v a more)
    (hn : ρ.names = π.names.modifyHead (· ++ a)) (hρ : ρ.context = π.context)
    (h : Contains w ids ρ w' ids' π') : Contains (do v; w) (more ++ ids) π w' ids' π' := by
  intro s u hs hu
  obtain ⟨_, t, hvt, hw⟩ := EStateM.bind_eq_ok.1 hu
  have ht : At t ρ :=
    ⟨by rw [hv.names hvt, hs.names, hn], by rw [hv.context hvt, hs.context, hρ]⟩
  obtain ⟨s', u', hs', hw', hd, hc⟩ := h t u ht hw
  refine ⟨s', u', hs', hw', hd, fun id => ?_⟩
  have := hc id
  have := hv.uses hvt id
  rw [List.count_append]
  omega

/-- Behind a walk that records nothing. -/
theorem behind {a : List String} (hv : Adds v a [])
    (hn : ρ.names = π.names.modifyHead (· ++ a)) (hρ : ρ.context = π.context)
    (h : Contains w ids ρ w' ids' π') : Contains (do v; w) ids π w' ids' π' :=
  .right hv hn hρ h

/-- Behind a check. -/
theorem check (hv : Adds v [] []) (h : Contains w ids π w' ids' π') :
    Contains (do v; w) ids π w' ids' π' :=
  .right hv (modifyHead_append_nil _).symm rfl h

/-- Behind a walk that declares nothing. -/
theorem skip (hv : Adds v [] more) (h : Contains w ids π w' ids' π') :
    Contains (do v; w) (more ++ ids) π w' ids' π' :=
  .right hv (modifyHead_append_nil _).symm rfl h

theorem within {region : Region}
    (h : Contains w ids { π with context := region.enter π.context } w' ids' π') :
    Contains (within region w) ids π w' ids' π' := by
  intro s u hs hu
  obtain ⟨t, hw, rfl⟩ := within_eq_ok hu
  have hs' : At { s with context := region.enter s.context }
      { π with context := region.enter π.context } :=
    ⟨hs.names, congrArg region.enter hs.context⟩
  have := h _ _ hs' hw
  exact this

theorem inScope {scope : Scope} {o : Site} {names : List String} (hn : scope.names = names)
    (h : Contains w ids (π.enter o names) w' ids' π') :
    Contains (inScope scope w) ids π w' ids' π' := by
  intro s u hs hu
  obtain ⟨t, hw, rfl⟩ := inScope_eq_ok hu
  have hs' : At { s with scopes := scope :: s.scopes } (π.enter o names) := by
    refine ⟨?_, hs.context⟩
    have := hs.names
    unfold State.names at this ⊢
    simp [Place.names, Place.enter, Opening.names, hn, this]
  have := h _ _ hs' hw
  unfold State.uses at *
  rwa [State.distances_closeScope]

theorem cons (id : ExprId) (h : Contains w ids π w' ids' π') :
    Contains w (id :: ids) π w' ids' π' := by
  intro s u hs hw
  obtain ⟨s', u', hs', hw', hd, hc⟩ := h s u hs hw
  refine ⟨s', u', hs', hw', hd, fun id' => ?_⟩
  have := hc id'
  rw [List.count_cons]
  omega

theorem perm (h : Contains w ids π w' ids' π') (hp : ids.Perm more) :
    Contains w more π w' ids' π' := by
  intro s u hs hw
  obtain ⟨s', u', hs', hw', hd, hc⟩ := h s u hs hw
  exact ⟨s', u', hs', hw', hd, fun id => hp.count_eq id ▸ hc id⟩

/-- A walk that at most records a use, after some check. -/
theorem use {id : ExprId} {name : String} {reads : Bool}
    (h : ∀ s t, w s = .ok () t → t = s.use id name reads) :
    Contains w [id] π (Node.use id name reads).walk [id] π := by
  intro s u hs hw
  refine ⟨s, u, hs, ?_, List.suffix_rfl, fun _ => by omega⟩
  rw [h s u hw]
  rfl

theorem exprs {es : List Expr} {e : Expr} (he : e ∈ es) :
    Contains (Resolution.exprs es) (Expr.idsOf es) π (expr e) e.ids π := by
  induction es with
  | nil => cases he
  | cons e' es ih =>
    rcases List.mem_cons.1 he with rfl | he
    · exact refl.left (adds_exprs es)
    · exact skip (adds_expr e') (ih he)

theorem references {rs : List Reference} {r : Reference} (hr : r ∈ rs) :
    Contains (rs.forM reference) (rs.map Reference.id) π
      (Node.use r.id r.name.name true).walk [r.id] π := by
  induction rs with
  | nil => cases hr
  | cons r' rs ih =>
    rcases List.mem_cons.1 hr with rfl | hr
    · exact left (.use fun _ _ h => (readName_eq_ok h).2) (adds_references rs)
    · exact skip (adds_readName r'.id r'.name) (ih hr)

theorem methods {fs : List Function} {f : Function} (hf : f ∈ fs) :
    Contains (methods fs) (Function.idsOf fs) π (function (methodContext f) f) f.ids
      (π.inReceiver f) := by
  induction fs with
  | nil => cases hf
  | cons f' fs ih =>
    rcases List.mem_cons.1 hf with rfl | hf
    · exact left (inScope rfl refl) (adds_methods fs)
    · exact skip (.inScope (adds_function _ f')) (ih hf)

theorem staticMethods {fs : List Function} {f : Function} (hf : f ∈ fs) :
    Contains (staticMethods fs) (Function.idsOf fs) π (function .staticMethod f) f.ids π := by
  induction fs with
  | nil => cases hf
  | cons f' fs ih =>
    rcases List.mem_cons.1 hf with rfl | hf
    · exact refl.left (adds_staticMethods fs)
    · exact skip (adds_function _ f') (ih hf)

theorem members (ms ss : List Function)
    (h : Contains (Resolution.methods ms) (Function.idsOf ms) π w' ids' π' ∨
      Contains (Resolution.staticMethods ss) (Function.idsOf ss) π w' ids' π') :
    Contains (do Resolution.methods ms; Resolution.staticMethods ss)
      (Function.idsOf ms ++ Function.idsOf ss) π w' ids' π' := by
  rcases h with h | h
  · exact h.left (adds_staticMethods ss)
  · exact skip (adds_methods ms) h

end Contains

/-! ## The parts right inside a part -/

/-- Each way through an expression leads through its operands. -/
theorem contains_operand {π : Place} {id : ExprId} {span : Span} {node : Expr.Node} {e : Expr}
    (he : e ∈ node.operands) :
    Contains (expr ⟨id, span, node⟩) (Expr.ids ⟨id, span, node⟩) π (expr e) e.ids π := by
  cases node <;> simp only [Expr.Node.operands, List.mem_cons, List.not_mem_nil, or_false] at he
  case group => subst he; exact .cons id .refl
  case unary => subst he; exact .cons id .refl
  case get => subst he; exact .cons id .refl
  case assign name value =>
    subst he
    exact (Contains.refl.left (adds_use id name.name false)).perm (List.perm_append_singleton _ _)
  case binary op left right =>
    rcases he with rfl | rfl
    · exact .cons id (.left .refl (adds_expr right))
    · exact .cons id (.skip (adds_expr left) .refl)
  case logical op left right =>
    rcases he with rfl | rfl
    · exact .cons id (.left .refl (adds_expr right))
    · exact .cons id (.skip (adds_expr left) .refl)
  case index array position =>
    rcases he with rfl | rfl
    · exact .cons id (.left .refl (adds_expr position))
    · exact .cons id (.skip (adds_expr array) .refl)
  case set object property value =>
    rcases he with rfl | rfl
    · exact .cons id (.skip (adds_expr value) .refl)
    · exact .cons id (.left .refl (adds_expr object))
  case ternary condition yes no =>
    rcases he with rfl | rfl | rfl
    · exact .cons id (.left .refl ((adds_expr yes).seq (adds_expr no)))
    · exact .cons id (.skip (adds_expr condition) (.left .refl (adds_expr no)))
    · exact .cons id (.skip (adds_expr condition) (.skip (adds_expr yes) .refl))
  case indexSet array position value =>
    rcases he with rfl | rfl | rfl
    · exact .cons id (.left .refl ((adds_expr position).seq (adds_expr value)))
    · exact .cons id (.skip (adds_expr array) (.left .refl (adds_expr value)))
    · exact .cons id (.skip (adds_expr array) (.skip (adds_expr position) .refl))
  case call callee args =>
    rcases he with rfl | he
    · exact .cons id (.left .refl (adds_exprs args))
    · exact .cons id (.skip (adds_expr callee) (.exprs he))
  case array elements => exact .cons id (.exprs he)

theorem adds_clause (clause : Option Expr) :
    Adds (Resolution.optional expr clause) [] ((clause.map Expr.ids).getD []) :=
  .optional clause fun e _ => adds_expr e

theorem adds_firstClause (init : Option Stmt) :
    Adds (Resolution.optional stmt init) ((init.map Stmt.declared).getD [])
      ((init.map Stmt.ids).getD []) := by
  cases init with
  | none => exact .pure
  | some s => exact adds_stmt s

theorem adds_checkSuperclass (name super : Identifier) :
    Adds (checkSuperclass name super) [] [] :=
  .of_eq fun _ _ h => (checkSuperclass_eq_ok h).2

/-- The members of a class are walked through last. -/
theorem contains_member {π π' : Place} {span : Span} {name : Identifier}
    {superclass : Option Reference} {traits : List Reference} {ms ss : List Function}
    {w' : Walk Unit} {ids' : List ExprId} (hf : π.Settled)
    (h : Contains (methods ms) (Function.idsOf ms)
        (π.inClass ⟨span, .classDecl name superclass traits ms ss⟩ name superclass) w' ids' π' ∨
      Contains (staticMethods ss) (Function.idsOf ss)
        (π.inClass ⟨span, .classDecl name superclass traits ms ss⟩ name superclass) w' ids' π') :
    Contains (stmt ⟨span, .classDecl name superclass traits ms ss⟩)
      (Stmt.ids ⟨span, .classDecl name superclass traits ms ss⟩) π w' ids' π' := by
  cases superclass with
  | none =>
    show Contains _ (traits.map Reference.id ++ (Function.idsOf ms ++ Function.idsOf ss)) _ _ _ _
    exact .behind (adds_introduce name true) (Place.names_declare hf _) rfl
      (.skip (adds_references traits) (.within (.members ms ss h)))
  | some super =>
    rw [stmt_subclass]
    show Contains _
      ([super.id] ++ (traits.map Reference.id ++ (Function.idsOf ms ++ Function.idsOf ss))) _ _ _ _
    exact .behind (adds_introduce name true) (Place.names_declare hf _) rfl
      (.check (adds_checkSuperclass name super.name) (.skip (adds_readName super.id super.name)
        (.skip (adds_references traits) (.within (.inScope rfl (.members ms ss h))))))

/-- Each way through a part leads through the parts right inside it. -/
theorem Inside.contains {π π' : Place} {n n' : Node} (h : Inside π n π' n')
    (hn : n.WellFormed) (hf : n.Fits π) : Contains n.walk n.ids π n'.walk n'.ids π' := by
  cases h with
  | @first s ss => exact .left .refl (adds_stmts ss)
  | @rest s ss =>
    exact .right (adds_stmt s) (Place.names_after hf hn.1) (Place.context_after π s) .refl
  | operand he => exact contains_operand he
  | @lambda id span f => exact .cons id .refl
  | «variable» => exact .use fun _ _ h => (readName_eq_ok h).2
  | @assign id span name value =>
    exact (Contains.skip (adds_expr value) .refl).perm (List.perm_append_singleton _ _)
  | this => exact .use fun _ _ h => (receiver_eq_ok h).2.2.2
  | super => exact .use fun _ _ h => (superclass_eq_ok h).2
  | @body kind f =>
    obtain ⟨name, params, body, isGetter, span⟩ := f
    refine .within (.inScope (o := .call ⟨name, params, body, isGetter, span⟩) rfl
      (.behind (ρ := π.inFunction kind ⟨name, params, body, isGetter, span⟩)
        (adds_parameters params) ?_ rfl .refl))
    simp [Place.names, Place.inFunction, Place.enter, Opening.names]
  | expression => exact .refl
  | print => exact .refl
  | @initializer span name e =>
    have he : Contains (do expr e; define name.name) e.ids (π.initializing name.name) (expr e)
        e.ids (π.initializing name.name) := by
      simpa using Contains.refl.left (adds_define name.name)
    exact .behind (adds_declare name true) (Place.names_initializing hf name.name) rfl he
  | block => exact .inScope rfl .refl
  | @ifCondition span condition yes no =>
    cases no with
    | none => exact .left .refl ((adds_stmt yes).bind .pure)
    | some no => exact .left .refl ((adds_stmt yes).bind (adds_stmt no))
  | @ifYes span condition yes no =>
    cases no with
    | none => exact .skip (adds_expr condition) (.left .refl .pure)
    | some no => exact .skip (adds_expr condition) (.left .refl (adds_stmt no))
  | @ifNo span condition yes no =>
    obtain ⟨-, ⟨hd, hw⟩, -⟩ := Stmt.wellFormed_ifElse.1 hn
    have hy : Adds (stmt yes) [] yes.ids := yes.declared_eq_nil hw hd ▸ adds_stmt yes
    exact .skip (adds_expr condition) (.skip hy .refl)
  | @whileCondition span condition body => exact .left .refl (.within (adds_stmt body))
  | @whileBody span condition body => exact .skip (adds_expr condition) (.within .refl)
  | @forInit span init condition step body =>
    have hc := adds_clause condition
    have hs := adds_clause step
    have hb : Adds (within .loop (stmt body)) body.declared body.ids :=
      .within (adds_stmt body)
    rw [Node.walk, stmt_for, Node.ids, Stmt.ids_for]
    exact .inScope rfl (.left .refl (hc.bind (hs.bind hb)))
  | @forCondition span init condition step body =>
    have hs := adds_clause step
    obtain ⟨hi, -⟩ := Stmt.wellFormed_for.1 hn
    rw [Node.walk, stmt_for, Node.ids, Stmt.ids_for]
    refine .inScope rfl (.right (adds_firstClause init) (Place.names_afterClause ?_ hi)
      (Place.context_afterClause _ init) (.left .refl (hs.bind (.within (adds_stmt body)))))
    exact Place.settled_enter _ _
  | @forStep span init condition step body =>
    have hc := adds_clause condition
    obtain ⟨hi, -⟩ := Stmt.wellFormed_for.1 hn
    rw [Node.walk, stmt_for, Node.ids, Stmt.ids_for]
    refine .inScope rfl (.right (adds_firstClause init) (Place.names_afterClause ?_ hi)
      (Place.context_afterClause _ init) (.skip hc (.left .refl (.within (adds_stmt body)))))
    exact Place.settled_enter _ _
  | @forBody span init condition step body =>
    have hc := adds_clause condition
    have hs := adds_clause step
    obtain ⟨hi, -⟩ := Stmt.wellFormed_for.1 hn
    rw [Node.walk, stmt_for, Node.ids, Stmt.ids_for]
    refine .inScope rfl (.right (adds_firstClause init) (Place.names_afterClause ?_ hi)
      (Place.context_afterClause _ init) (.skip hc (.skip hs (.within .refl))))
    exact Place.settled_enter _ _
  | @funDecl span f =>
    exact .behind (adds_introduce f.name true) (Place.names_declare hf _) rfl .refl
  | @returnValue span e =>
    exact .check (adds_returnAt span) (.check (adds_returnValueAt span) .refl)
  | @superclass span name r traits ms ss =>
    have members := (adds_methods ms).seq (adds_staticMethods ss)
    have hmembers : Adds (within (.members .subclass) (inScope superclassScope (do
        Resolution.methods ms; staticMethods ss))) [] (Function.idsOf ms ++ Function.idsOf ss) :=
      .within (.inScope members)
    have rest := (adds_references traits).seq hmembers
    rw [Node.walk, stmt_subclass]
    show Contains _ ([r.id] ++ (traits.map Reference.id ++ _)) _ _ _ _
    exact .behind (adds_introduce name true) (Place.names_declare hf _) rfl
      (.check (adds_checkSuperclass name r.name)
        (.left (.use fun _ _ h => (readName_eq_ok h).2) rest))
  | @trait span name superclass traits ms ss r hr =>
    have members := (adds_methods ms).seq (adds_staticMethods ss)
    cases superclass with
    | none =>
      show Contains _ (traits.map Reference.id ++ (Function.idsOf ms ++ Function.idsOf ss)) _ _ _ _
      exact .behind (adds_introduce name true) (Place.names_declare hf _) rfl
        (.left (.references hr) (.within members))
    | some super =>
      rw [Node.walk, stmt_subclass]
      show Contains _
        ([super.id] ++ (traits.map Reference.id ++ (Function.idsOf ms ++ Function.idsOf ss))) _ _ _ _
      exact .behind (adds_introduce name true) (Place.names_declare hf _) rfl
        (.check (adds_checkSuperclass name super.name) (.skip (adds_readName super.id super.name)
          (.left (.references hr) (.within (.inScope members)))))
  | @method span name superclass traits ms ss f hm =>
    exact contains_member hf (.inl (.methods hm))
  | @static span name superclass traits ms ss f hm =>
    exact contains_member hf (.inr (.staticMethods hm))
  | @traitMethod span name ms ss f hm =>
    exact .behind (adds_introduce name true) (Place.names_declare hf _) rfl
      (.within (.members ms ss (.inl (.methods hm))))
  | @traitStatic span name ms ss f hm =>
    exact .behind (adds_introduce name true) (Place.names_declare hf _) rfl
      (.within (.members ms ss (.inr (.staticMethods hm))))

end Lexical

end Lox

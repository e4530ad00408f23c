import Lox.Proofs.Scope.Visit

/-!
# Accepted programs

In a program that is accepted every part has been walked through, so the rules of `ScopeErrorKind`
hold at every place.  Each use of a name has been recorded with the distance that its place gives
it, or not at all where no open scope has declared the name:

    ofProgram body = .ok r → Occurs body π (.use id name reads) →
      ((id, hops) ∈ r.distances ↔ π.distance? name = some hops)                (mem_distances_iff)
-/

namespace Lox.Lexical

open Resolution

variable {body : List Stmt} {r : Resolution} {π : Place} {n : Node}

/-! ## Visits -/

theorem Occurs.wellFormed (h : Occurs body π n) (hb : Stmt.AllWellFormed body) :
    n.WellFormed := by
  induction h with
  | program => exact hb
  | inside _ hi ih => exact hi.wellFormed ih

theorem Occurs.fits (h : Occurs body π n) : n.Fits π := by
  induction h with
  | program => simp [Node.Fits, Place.Settled, Place.program]
  | inside _ hi ih => exact hi.fits ih

theorem Occurs.contains (h : Occurs body π n) (hb : Stmt.AllWellFormed body) :
    Contains (stmts body) (Stmt.idsOf body) .program n.walk n.ids π := by
  induction h with
  | program => exact .refl
  | inside ho hi ih => exact ih.trans (hi.contains (ho.wellFormed hb) ho.fits)

theorem ofProgram_eq_ok (h : ofProgram body = .ok r) :
    ∃ u, stmts body ⟨[], [], [], .topLevel⟩ = .ok () u ∧ u.distances = r.distances := by
  unfold ofProgram at h
  split at h
  · next u hu => cases h; exact ⟨u, hu, rfl⟩
  · cases h

theorem at_program : At ⟨[], [], [], .topLevel⟩ .program := ⟨rfl, rfl⟩

/-- No rule is broken anywhere in a program that is accepted. -/
theorem Occurs.visited (h : Occurs body π n) (hb : Stmt.AllWellFormed body)
    (hr : ofProgram body = .ok r) : ∃ s t, At s π ∧ n.walk s = .ok () t := by
  obtain ⟨u, hu, -⟩ := ofProgram_eq_ok hr
  obtain ⟨s, t, hs, ht, -⟩ := h.contains hb _ u at_program hu
  exact ⟨s, t, hs, ht⟩

theorem At.distance? {s : State} (h : At s π) (name : String) :
    Resolution.distance? name s.scopes = π.distance? name := by
  rw [State.distance?_eq, h.names, Place.names, List.findIdx?_map]
  rfl

theorem eq_of_mem_of_count_le_one {id : ExprId} {pairs : List (ExprId × Nat)} {a b : Nat}
    (h : (pairs.map Prod.fst).count id ≤ 1) (ha : (id, a) ∈ pairs) (hb : (id, b) ∈ pairs) :
    a = b := by
  induction pairs with
  | nil => cases ha
  | cons pair pairs ih =>
    rw [List.map_cons, List.count_cons] at h
    have absent : ∀ c, pair.1 = id → (id, c) ∉ pairs := by
      intro c hp hc
      have : 0 < (pairs.map Prod.fst).count id :=
        List.count_pos_iff.2 (List.mem_map.2 ⟨(id, c), hc, rfl⟩)
      simp only [hp, beq_self_eq_true, if_true] at h
      omega
    rcases List.mem_cons.1 ha with rfl | ha
    · rcases List.mem_cons.1 hb with hb | hb
      · cases hb; rfl
      · exact absurd hb (absent b rfl)
    · rcases List.mem_cons.1 hb with hb | hb
      · exact absurd ha (absent a (by rw [← hb]))
      · exact ih (by omega) ha hb

/-- A use is recorded with the distance that its place gives it, if its identity is no other's. -/
theorem Occurs.mem_distances_iff_of_count {id : ExprId} {name : String} {reads : Bool} {hops : Nat}
    (h : Occurs body π (.use id name reads)) (hb : Stmt.AllWellFormed body)
    (hone : (Stmt.idsOf body).count id ≤ 1) (hr : ofProgram body = .ok r) :
    (id, hops) ∈ r.distances ↔ π.distance? name = some hops := by
  obtain ⟨u, hu, hur⟩ := ofProgram_eq_ok hr
  obtain ⟨s, t, hs, ht, hsuffix, hcount⟩ := h.contains hb _ u at_program hu
  have hc := hcount id
  cases ht
  have hids : (Node.use id name reads).ids.count id = 1 := by simp [Node.ids]
  rw [← hs.distance? name, ← hur]
  unfold State.uses at *
  rw [State.distances_use] at hsuffix hc
  cases hdist : Resolution.distance? name s.scopes with
  | none =>
    simp only [hdist, Option.map_none, Option.toList_none, List.nil_append, List.map_nil,
      List.count_nil] at hc
    have hzero : (u.distances.map Prod.fst).count id = 0 := by omega
    constructor
    · intro hm
      exact absurd (List.mem_map_of_mem (f := Prod.fst) hm) (List.count_eq_zero.1 hzero)
    · rintro ⟨⟩
  | some found =>
    simp only [hdist, Option.map_some, Option.toList_some, List.singleton_append,
      List.map_cons, List.count_cons_self, List.map_nil, List.count_nil] at hc hsuffix
    have hmem : (id, found) ∈ u.distances := hsuffix.subset (by simp)
    constructor
    · intro hm
      rw [eq_of_mem_of_count_le_one (by omega) hmem hm]
    · rintro ⟨⟩
      exact hmem

theorem Occurs.mem_distances_iff {id : ExprId} {name : String} {reads : Bool} {hops : Nat}
    (h : Occurs body π (.use id name reads)) (hb : Stmt.AllWellFormed body)
    (hd : (Stmt.idsOf body).Nodup) (hr : ofProgram body = .ok r) :
    (id, hops) ∈ r.distances ↔ π.distance? name = some hops :=
  h.mem_distances_iff_of_count hb (List.nodup_iff_count.1 hd id) hr

/-- A program records an identity no more often than it has it. -/
theorem count_distances_le (hr : ofProgram body = .ok r) (id : ExprId) :
    (r.distances.map Prod.fst).count id ≤ (Stmt.idsOf body).count id := by
  obtain ⟨u, hu, hur⟩ := ofProgram_eq_ok hr
  have huses := (adds_stmts body).uses hu id
  rw [← hur]
  simpa [State.uses] using huses

theorem nodup_distances (hr : ofProgram body = .ok r) (hd : (Stmt.idsOf body).Nodup) :
    (r.distances.map Prod.fst).Nodup := by
  rw [List.nodup_iff_count] at hd ⊢
  exact fun id => Nat.le_trans (count_distances_le hr id) (hd id)

theorem mem_idsOf_of_mem_distances {id : ExprId} (hr : ofProgram body = .ok r)
    (h : id ∈ r.distances.map Prod.fst) : id ∈ Stmt.idsOf body :=
  List.count_pos_iff.1 (Nat.lt_of_lt_of_le (List.count_pos_iff.2 h) (count_distances_le hr id))

theorem Occurs.mem_idsOf {id : ExprId} {name : String} {reads : Bool}
    (h : Occurs body π (.use id name reads)) (hb : Stmt.AllWellFormed body)
    (hr : ofProgram body = .ok r) : id ∈ Stmt.idsOf body := by
  obtain ⟨u, hu, -⟩ := ofProgram_eq_ok hr
  obtain ⟨s, t, -, ht, hsuffix, hcount⟩ := h.contains hb _ u at_program hu
  have hids : (Node.use id name reads).ids.count id = 1 := by simp [Node.ids]
  have hle : t.uses id ≤ u.uses id := (hsuffix.sublist.map Prod.fst).count_le id
  have hc := hcount id
  have hzero : State.uses ⟨[], [], [], .topLevel⟩ id = 0 := rfl
  rw [hids, hzero] at hc
  exact List.count_pos_iff.1 (by omega)

/-! ## Rules that hold -/

theorem Occurs.loops_ne_zero {span : Span} {node : Stmt.Node}
    (h : Occurs body π (.stmt ⟨span, node⟩)) (hnode : node = .break ∨ node = .continue)
    (hb : Stmt.AllWellFormed body) (hr : ofProgram body = .ok r) : π.context.loops ≠ 0 := by
  obtain ⟨s, t, hs, ht⟩ := h.visited hb hr
  rw [← hs.context]
  rcases hnode with rfl | rfl
  · exact (loopControl_eq_ok ht).1
  · exact (loopControl_eq_ok ht).1

theorem Occurs.function_ne_none {span : Span} {value : Option Expr}
    (h : Occurs body π (.stmt ⟨span, .return value⟩)) (hb : Stmt.AllWellFormed body)
    (hr : ofProgram body = .ok r) : π.context.function ≠ .none := by
  obtain ⟨s, t, hs, ht⟩ := h.visited hb hr
  rw [Node.walk, stmt_return] at ht
  obtain ⟨_, _, hreturn, -⟩ := EStateM.bind_eq_ok.1 ht
  rw [← hs.context]
  exact (returnAt_eq_ok hreturn).1

theorem Occurs.isSome_distance?_this {id : ExprId} {span : Span}
    (h : Occurs body π (.expr ⟨id, span, .this⟩)) (hb : Stmt.AllWellFormed body)
    (hr : ofProgram body = .ok r) : (π.distance? Name.this).isSome := by
  obtain ⟨s, t, hs, ht⟩ := h.visited hb hr
  rw [← hs.distance?]
  exact (receiver_eq_ok ht).2.2.1

theorem Occurs.owner_eq_subclass {id : ExprId} {span : Span} {name : Identifier}
    (h : Occurs body π (.expr ⟨id, span, .super name⟩)) (hb : Stmt.AllWellFormed body)
    (hr : ofProgram body = .ok r) : π.context.owner = .subclass := by
  obtain ⟨s, t, hs, ht⟩ := h.visited hb hr
  rw [← hs.context]
  exact (superclass_eq_ok ht).1

/-! ## Places that occur -/

/-- What holds at every place of a program. -/
structure Place.Regular (π : Place) : Prop where
  /-- Only the names that the program writes can be in the middle of a declaration. -/
  pending : ∀ o ∈ π.openings, ∀ name ∈ o.pending, Name.Plain name
  /-- Around the members of a class with a superclass a scope has `super`. -/
  super : π.context.owner = .subclass → ∃ o ∈ π.openings, Name.super ∈ o.ready

namespace Place.Regular

variable {f : Opening → Opening}

theorem modifyInnermost (h : π.Regular)
    (hp : ∀ o, (∀ name ∈ o.pending, Name.Plain name) → ∀ name ∈ (f o).pending, Name.Plain name)
    (hr : ∀ o, o.ready ⊆ (f o).ready) : (π.modifyInnermost f).Regular := by
  obtain ⟨_ | ⟨o, os⟩, context⟩ := π
  · exact h
  obtain ⟨hpending, hsuper⟩ := h
  constructor
  · intro o' ho'
    rcases List.mem_cons.1 ho' with rfl | ho'
    · exact hp o (hpending o List.mem_cons_self)
    · exact hpending o' (List.mem_cons_of_mem _ ho')
  · intro howner
    obtain ⟨o', ho', hs⟩ := hsuper howner
    rcases List.mem_cons.1 ho' with rfl | ho'
    · exact ⟨f o', List.mem_cons_self, hr o' hs⟩
    · exact ⟨o', List.mem_cons_of_mem _ ho', hs⟩

theorem declare (h : π.Regular) (name : String) : (π.declare name).Regular :=
  h.modifyInnermost (fun _ _ _ hn => by cases hn) fun _ => List.subset_append_left _ _

theorem initializing (h : π.Regular) {name : String} (hn : Name.Plain name) :
    (π.initializing name).Regular :=
  h.modifyInnermost (fun _ _ _ hx => by cases hx; exact hn) fun _ => List.Subset.refl _

theorem enter (h : π.Regular) (site : Site) (names : List String) : (π.enter site names).Regular :=
  ⟨List.forall_mem_cons.2 ⟨by simp, h.pending⟩, fun ho =>
    (h.super ho).imp fun _ ⟨hm, hs⟩ => ⟨List.mem_cons_of_mem _ hm, hs⟩⟩

theorem after (h : π.Regular) (s : Stmt) : (π.after s).Regular := by
  unfold Place.after
  split
  all_goals first | exact h.declare _ | exact h

theorem afterClause (h : π.Regular) (init : Option Stmt) : (π.afterClause init).Regular := by
  cases init with
  | none => exact h
  | some s => exact h.after s

theorem inLoop (h : π.Regular) : π.inLoop.Regular := ⟨h.pending, h.super⟩

theorem inFunction (h : π.Regular) (kind : FunctionContext) (g : Function) :
    (π.inFunction kind g).Regular :=
  have h' := h.enter (.call g) (g.params.map Identifier.name)
  ⟨h'.pending, h'.super⟩

theorem inTrait (h : π.Regular) (name : Identifier) : (π.inTrait name).Regular :=
  ⟨(h.declare name.name).pending, fun ho => by cases ho⟩

theorem inClass (h : π.Regular) (s : Stmt) (name : Identifier) (superclass : Option Reference) :
    (π.inClass s name superclass).Regular := by
  cases superclass with
  | none => exact ⟨(h.declare name.name).pending, fun ho => by cases ho⟩
  | some r =>
    refine ⟨List.forall_mem_cons.2 ⟨by simp, (h.declare name.name).pending⟩, fun _ => ?_⟩
    exact ⟨_, List.mem_cons_self, List.mem_singleton_self _⟩

end Place.Regular

theorem Inside.regular {π' : Place} {n' : Node} (h : Inside π n π' n') (hn : n.WellFormed)
    (hπ : π.Regular) : π'.Regular := by
  cases h with
  | rest => exact hπ.after _
  | body => exact hπ.inFunction _ _
  | initializer =>
    rw [Node.WellFormed, Stmt.wellFormed_varDecl] at hn
    exact hπ.initializing hn.1
  | block => exact hπ.enter _ _
  | whileBody => exact hπ.inLoop
  | forInit => exact hπ.enter _ _
  | forCondition => exact (hπ.enter _ _).afterClause _
  | forStep => exact (hπ.enter _ _).afterClause _
  | forBody => exact ((hπ.enter _ _).afterClause _).inLoop
  | funDecl => exact hπ.declare _
  | superclass => exact hπ.declare _
  | trait => exact hπ.declare _
  | method => exact (hπ.inClass _ _ _).enter _ _
  | static => exact hπ.inClass _ _ _
  | traitMethod => exact (hπ.inTrait _).enter _ _
  | traitStatic => exact hπ.inTrait _
  | _ => exact hπ

theorem Occurs.regular (h : Occurs body π n) (hb : Stmt.AllWellFormed body) : π.Regular := by
  induction h with
  | program => exact ⟨by simp [Place.program], fun ho => by cases ho⟩
  | inside ho hi ih => exact hi.regular (ho.wellFormed hb) ih

theorem Occurs.isSome_distance?_super {id : ExprId} {span : Span} {name : Identifier}
    (h : Occurs body π (.expr ⟨id, span, .super name⟩)) (hb : Stmt.AllWellFormed body)
    (hr : ofProgram body = .ok r) : (π.distance? Name.super).isSome := by
  obtain ⟨o, ho, hs⟩ := (h.regular hb).super (h.owner_eq_subclass hb hr)
  rw [Place.distance?, List.findIdx?_isSome, List.any_eq_true]
  exact ⟨o, ho, by simpa [Opening.names] using Or.inl hs⟩

end Lox.Lexical

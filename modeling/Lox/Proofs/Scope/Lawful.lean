import Lox.Proofs.Scope.Initializer
import Lox.Proofs.Scope.Unused

/-!
# What programs are accepted

The rules of `ScopeErrorKind` can be told place by place, each of the part that stands there alone
(`Node.Obeys`).  A program is accepted just when all its parts obey:

    (∃ r, ofProgram body = .ok r) ↔ Lawful .program (.stmts body)                  (accepted_iff)

To break a rule is to stop the walk, so the parts of an accepted program obey.  Conversely a walk
that has got to a part that obeys gets past it: the scopes and the context are those of the place,
and no variable is in the middle of its declaration but the one whose initializer the place is in.
-/

namespace Lox.Lexical

open Resolution

/-! ## Rules -/

/-- Whatever reads the name at once comes behind a lambda that reads it. -/
def Defers (x : String) (e : Expr) : Prop :=
  ∀ before id y after, e.direct = before ++ .read id y :: after → y.name = x →
    readInLambda x before = true

/-- The names that the innermost open scope has declared. -/
def Place.innermost (π : Place) : List String := (π.openings.head?.map Opening.names).getD []

/-- No rule is broken by the part itself. -/
def Node.Obeys (π : Place) : Node → Prop
  | .expr ⟨_, _, .this⟩ =>
    π.context.owner ≠ .none ∧ π.context.inStatic = false ∧ (π.distance? Name.this).isSome
  | .expr ⟨_, _, .super _⟩ => π.context.owner = .subclass
  | .function _ f => (f.params.map Identifier.name).Nodup
  | .stmt ⟨_, .break⟩ | .stmt ⟨_, .continue⟩ => π.context.loops ≠ 0
  | .stmt ⟨_, .return value⟩ =>
    π.context.function ≠ .none ∧ (value.isSome → π.context.function ≠ .initializer)
  | .stmt ⟨_, .varDecl name init⟩ =>
    name.name ∉ π.innermost ∧ (π.openings ≠ [] → ∀ e ∈ init, Defers name.name e)
  | .stmt ⟨_, .funDecl f⟩ => f.name.name ∉ π.innermost
  | .stmt ⟨_, .classDecl name superclass _ _ _⟩ =>
    name.name ∉ π.innermost ∧ ∀ r ∈ superclass, r.name.name ≠ name.name
  | .stmt ⟨_, .traitDecl name _ _⟩ => name.name ∉ π.innermost
  | _ => True

/-- No rule is broken anywhere in the part. -/
def Lawful (π : Place) (n : Node) : Prop := ∀ ρ m, OccursIn π n ρ m → m.Obeys ρ

variable {π ρ : Place} {n m : Node} {body : List Stmt}

theorem Lawful.obeys (h : Lawful π n) : n.Obeys π := h π n .self

theorem Lawful.inside (h : Lawful π n) (hi : Inside π n ρ m) : Lawful ρ m :=
  fun σ k hk => h σ k (.inside hi hk)

/-! ## Accepted programs obey -/

theorem At.innermost_eq {s : State} (h : At s π) {scope : Scope} {scopes : List Scope}
    (hs : s.scopes = scope :: scopes) : scope.names = π.innermost := by
  have hn := h.names
  unfold State.names Place.names at hn
  rw [hs, List.map_cons] at hn
  cases ho : π.openings with
  | nil => rw [ho] at hn; cases hn
  | cons o os =>
    rw [ho] at hn
    rw [Place.innermost, ho]
    exact (List.cons.inj hn).1

theorem At.scopes_eq_nil_iff {s : State} (h : At s π) : s.scopes = [] ↔ π.openings = [] := by
  have hlen : s.scopes.length = π.openings.length := by
    simpa [State.names, Place.names] using congrArg List.length h.names
  rw [← List.length_eq_zero_iff, hlen, List.length_eq_zero_iff]

/-- A scope declares no name twice. -/
theorem At.not_mem_innermost {s t : State} (h : At s π) {name : Identifier} {warns : Bool}
    (ht : declare name warns s = .ok () t) : name.name ∉ π.innermost := by
  obtain ⟨hs, -⟩ | ⟨scope, scopes, hs, hnew, -⟩ := declare_eq_ok ht
  · rw [Place.innermost, h.scopes_eq_nil_iff.1 hs]
    exact List.not_mem_nil
  · rw [← h.innermost_eq hs]
    rw [scope.contains_eq] at hnew
    simpa using hnew

theorem introduce_eq_ok {name : Identifier} {warns : Bool} {s u : State}
    (h : introduce name warns s = .ok () u) : ∃ t, declare name warns s = .ok () t := by
  obtain ⟨_, t, ht, -⟩ := EStateM.bind_eq_ok.1 h
  exact ⟨t, ht⟩

/-- A walk in front of others has gone well if they all have. -/
theorem exists_of_bind {w : Walk Unit} {f : Unit → Walk Unit} {s u : State}
    (h : (w >>= f) s = .ok () u) : ∃ t, w s = .ok () t := by
  obtain ⟨_, t, ht, -⟩ := EStateM.bind_eq_ok.1 h
  exact ⟨t, ht⟩

theorem Occurs.defers {r : Resolution} {span : Span} {name : Identifier} {e : Expr}
    (h : Occurs body π (.stmt ⟨span, .varDecl name (some e)⟩)) (hb : Stmt.AllWellFormed body)
    (hr : ofProgram body = .ok r) (hlocal : π.openings ≠ []) : Defers name.name e := by
  intro before id y after he hy
  refine Bool.not_eq_false _ ▸ fun hl => ?_
  obtain ⟨err, herr⟩ := h.not_accepted_of_read hb hlocal he hy hl
  rw [hr] at herr
  cases herr

/-- The parameters of a function have different names. -/
theorem nodup_params {kind : FunctionContext} {f : Function} {s t : State} (hs : At s π)
    (h : function kind f s = .ok () t) : (f.params.map Identifier.name).Nodup := by
  obtain ⟨name, params, body, isGetter, span⟩ := f
  obtain ⟨u, hu, -⟩ := within_eq_ok h
  obtain ⟨v, hv, -⟩ := inScope_eq_ok hu
  obtain ⟨_, hparams⟩ := exists_of_bind hv
  let ρ := { π with context := π.context.enterFunction kind }.enter
    (.call ⟨name, params, body, isGetter, span⟩) []
  have hat : At { s with
      scopes := ∅ :: s.scopes
      context := s.context.enterFunction kind } ρ :=
    ⟨congrArg (List.cons []) hs.names, congrArg (Context.enterFunction kind) hs.context⟩
  have htold := tells_parameters (Place.settled_enter _ _) params _ _ hat hparams
  simpa [List.map_map, Function.comp_def] using htold.distinct (List.cons_ne_nil _ _)

/-- No rule is broken in a program that is accepted. -/
theorem lawful_of_accepted {r : Resolution} (hb : Stmt.AllWellFormed body)
    (hr : ofProgram body = .ok r) : Lawful .program (.stmts body) := by
  intro π n hin
  have h : Occurs body π n := occurs_iff.2 hin
  obtain ⟨s, t, hs, ht⟩ := h.visited hb hr
  cases n with
  | stmts ss => trivial
  | use => trivial
  | function kind f => exact nodup_params hs ht
  | expr e =>
    obtain ⟨id, span, node⟩ := e
    cases node with
    | this =>
      obtain ⟨howner, hstatic, hthis, -⟩ := receiver_eq_ok ht
      rw [hs.context] at howner hstatic
      exact ⟨howner, hstatic, hs.distance? _ ▸ hthis⟩
    | super => exact h.owner_eq_subclass hb hr
    | _ => trivial
  | stmt st =>
    obtain ⟨span, node⟩ := st
    cases node with
    | «break» => exact h.loops_ne_zero (.inl rfl) hb hr
    | «continue» => exact h.loops_ne_zero (.inr rfl) hb hr
    | varDecl name init =>
      refine ⟨?_, fun hlocal e he => ?_⟩
      · rw [Node.walk, stmt_varDecl] at ht
        exact hs.not_mem_innermost (exists_of_bind ht).choose_spec
      · cases he
        exact h.defers hb hr hlocal
    | funDecl f =>
      exact hs.not_mem_innermost (introduce_eq_ok (exists_of_bind ht).choose_spec).choose_spec
    | traitDecl name ms ss =>
      exact hs.not_mem_innermost (introduce_eq_ok (exists_of_bind ht).choose_spec).choose_spec
    | classDecl name superclass traits ms ss =>
      cases superclass with
      | none =>
        refine ⟨?_, fun _ hr => by cases hr⟩
        exact hs.not_mem_innermost (introduce_eq_ok (exists_of_bind ht).choose_spec).choose_spec
      | some c =>
        rw [Node.walk, stmt_subclass] at ht
        obtain ⟨_, u, hu, ht⟩ := EStateM.bind_eq_ok.1 ht
        obtain ⟨_, hcheck⟩ := exists_of_bind ht
        refine ⟨hs.not_mem_innermost (introduce_eq_ok hu).choose_spec, ?_⟩
        rintro _ ⟨⟩
        exact (checkSuperclass_eq_ok hcheck).1
    | «return» value =>
      refine ⟨h.function_ne_none hb hr, fun hvalue => ?_⟩
      obtain ⟨e, rfl⟩ := Option.isSome_iff_exists.1 hvalue
      rw [Node.walk, stmt_return] at ht
      obtain ⟨_, u, hu, hv⟩ := EStateM.bind_eq_ok.1 ht
      obtain ⟨-, rfl⟩ := returnAt_eq_ok hu
      rw [← hs.context]
      exact (returnValueAt_eq_ok (exists_of_bind hv).choose_spec).1
    | _ => trivial

/-! ## Variables in the middle of their declarations -/

/-- What is in the middle of its declaration behind a walk was so before it. -/
theorem Told.declared_of {more : List Declared} {ps : List (Place × Node)} {s t : State}
    (h : Told π more ps s t) (hs : At s π) {x : String} (hx : t.status? x 0 = some .declared) :
    s.status? x 0 = some .declared := by
  obtain ⟨names, hnames, hmem⟩ := t.mem_names_of_status? hx
  cases hscopes : s.scopes with
  | nil =>
    rw [h.names, State.names, hscopes] at hnames
    cases hnames
  | cons scope scopes =>
    obtain ⟨d, hd⟩ : ∃ d, 0 + d + 1 = π.openings.length := by
      have hne : π.openings ≠ [] := fun hnil => by
        rw [hs.scopes_eq_nil_iff.2 hnil] at hscopes
        cases hscopes
      exact ⟨π.openings.length - 1, by have := List.length_pos_iff.2 hne; omega⟩
    have hold (st : Status) (hst : s.status? x 0 = some st) : st = .declared := by
      have hbehind := (h.marks hd hst).symm.trans hx
      unfold behind at hbehind
      split at hbehind
      · cases hbehind
      · exact Option.some.inj hbehind
    cases hst : s.status? x 0 with
    | some st => rw [hold st hst]
    | none =>
      -- the name is new, and new names are readable
      have hnew : x ∈ more.map fun m => m.1.name := by
        rw [h.names, State.names, hscopes, List.map_cons, List.modifyHead_cons] at hnames
        cases hnames
        refine (List.mem_append.1 hmem).resolve_left fun hscope => ?_
        rw [State.status?, hscopes, List.getElem?_cons_zero, Option.bind_some,
          Option.map_eq_none_iff] at hst
        have : scope.contains x = true := by simpa [scope.contains_eq] using hscope
        rw [Table.contains, hst] at this
        cases this
      obtain ⟨m, hm, rfl⟩ := List.mem_map.1 hnew
      have hbehind := (h.news (by omega) m hm).2.symm.trans hx
      unfold behind at hbehind
      split at hbehind <;> cases hbehind

/-- No variable of the innermost scope is in the middle of its declaration. -/
def Clean (s : State) : Prop := ∀ x, s.status? x 0 ≠ some .declared

theorem Told.clean {more : List Declared} {ps : List (Place × Node)} {s t : State}
    (h : Told π more ps s t) (hs : At s π) (hc : Clean s) : Clean t :=
  fun x hx => hc x (h.declared_of hs hx)

/-! ## Walks that go well -/

/-- From the place the walk always goes well. -/
def Works (π : Place) (w : Walk Unit) : Prop := ∀ s, At s π → ∃ t, w s = .ok () t

/-- The walk goes well unless the innermost scope is in the middle of a declaration. -/
def Succeeds (π : Place) (w : Walk Unit) : Prop :=
  ∀ s, At s π → Clean s → ∃ t, w s = .ok () t

theorem Works.succeeds {w : Walk Unit} (h : Works π w) : Succeeds π w := fun s hs _ => h s hs

theorem works_use (id : ExprId) (name : String) (reads : Bool) :
    Works π (modify (·.use id name reads)) := fun _ _ => ⟨_, rfl⟩

namespace Succeeds

variable {w w' : Walk Unit} {a : List Declared} {ps : List (Place × Node)}

theorem pure : Succeeds π (Pure.pure ()) := fun s _ _ => ⟨s, rfl⟩

theorem bind (h : Succeeds π w) (ht : Tells π w a ps)
    (hn : ρ.names = π.names.modifyHead (· ++ a.map fun d => d.1.name))
    (hc : ρ.context = π.context) (h' : Succeeds ρ w') : Succeeds π (do w; w') := by
  intro s hs hclean
  obtain ⟨t, hw⟩ := h s hs hclean
  have htold := ht s t hs hw
  obtain ⟨u, hw'⟩ := h' t (htold.at_behind hs hn hc) (htold.clean hs hclean)
  exact ⟨u, by rw [EStateM.bind_of_ok hw, hw']⟩

/-- A walk that declares nothing, and what comes behind it. -/
theorem seq (h : Succeeds π w) (ht : Tells π w [] ps) (h' : Succeeds π w') :
    Succeeds π (do w; w') :=
  h.bind ht (by rw [List.map_nil]; exact (modifyHead_append_nil _).symm) rfl h'

theorem within {region : Region}
    (h : Succeeds { π with context := region.enter π.context } w) :
    Succeeds π (Resolution.within region w) := by
  intro s hs hclean
  obtain ⟨t, ht⟩ := h { s with context := region.enter s.context }
    ⟨hs.names, congrArg region.enter hs.context⟩ hclean
  exact ⟨{ t with context := region.leave s.context t.context }, by
    simp only [Resolution.within, ht]⟩

/-- In a scope of its own the walk begins anew. -/
theorem inScope (site : Site) {scope : Scope}
    (hscope : ∀ x v, scope.find? x = some v → v.status ≠ .declared)
    (h : Succeeds (π.enter site scope.names) w) : Works π (Resolution.inScope scope w) := by
  intro s hs
  have hat : At { s with scopes := scope :: s.scopes } (π.enter site scope.names) := by
    refine ⟨?_, hs.context⟩
    have := hs.names
    unfold State.names at this ⊢
    simp [Place.names, Place.enter, Opening.names, this]
  obtain ⟨t, ht⟩ := h _ hat fun x hx => by
    rw [State.status?, List.getElem?_cons_zero, Option.bind_some, Option.map_eq_some_iff] at hx
    obtain ⟨v, hv, hd⟩ := hx
    exact hscope x v hv hd
  exact ⟨t.closeScope, by simp only [Resolution.inScope, ht]⟩

theorem inScope_empty (site : Site) (h : Succeeds (π.enter site []) w) :
    Works π (Resolution.inScope ∅ w) :=
  inScope site (fun _ _ hv => by cases hv) h

end Succeeds

theorem Works.within {w : Walk Unit} {region : Region}
    (h : Works { π with context := region.enter π.context } w) :
    Works π (Resolution.within region w) := by
  intro s hs
  obtain ⟨t, ht⟩ := h { s with context := region.enter s.context }
    ⟨hs.names, congrArg region.enter hs.context⟩
  exact ⟨{ t with context := region.leave s.context t.context }, by
    simp only [Resolution.within, ht]⟩

/-! ### Declarations -/

theorem exists_declare_eq_ok {s : State} (hs : At s π) {name : Identifier} (warns : Bool)
    (hn : name.name ∉ π.innermost) : ∃ t, declare name warns s = .ok () t := by
  rw [declare, EStateM.get_bind_apply]
  cases hscopes : s.scopes with
  | nil => exact ⟨s, rfl⟩
  | cons scope scopes =>
    rw [← hs.innermost_eq hscopes] at hn
    have hnew : scope.contains name.name = false := by
      rw [scope.contains_eq]
      simpa using hn
    dsimp only
    rw [if_neg (by rw [hnew]; decide)]
    exact ⟨_, rfl⟩

theorem works_introduce {name : Identifier} (warns : Bool) (hn : name.name ∉ π.innermost) :
    Works π (introduce name warns) := by
  intro s hs
  obtain ⟨t, ht⟩ := exists_declare_eq_ok hs warns hn
  exact ⟨_, by rw [introduce, EStateM.bind_of_ok ht]; rfl⟩

theorem innermost_declare (hπ : π.Settled) (hlocal : π.openings ≠ []) (name : String) :
    (π.declare name).innermost = π.innermost ++ [name] := by
  obtain ⟨openings, context⟩ := π
  cases openings with
  | nil => exact absurd rfl hlocal
  | cons o os =>
    have ho : o.pending = none := hπ o rfl
    simp [Place.innermost, Place.declare, Place.modifyInnermost, Opening.names, Opening.declare,
      ho]

theorem succeeds_parameters (hπ : π.Settled) (hlocal : π.openings ≠ [])
    {params : List Identifier}
    (hd : (π.innermost ++ params.map Identifier.name).Nodup) :
    Succeeds π (params.forM (introduce · false)) := by
  induction params generalizing π with
  | nil => exact .pure
  | cons p ps ih =>
    have hlocal' : (π.declare p.name).openings ≠ [] := by
      simpa [Place.declare, Place.modifyInnermost] using hlocal
    have hp : p.name ∉ π.innermost := fun hmem =>
      (List.nodup_append.1 hd).2.2 _ hmem _ List.mem_cons_self rfl
    refine (works_introduce false hp).succeeds.bind (Tells.introduce hπ p false)
      (Place.names_declare hπ p.name) rfl (ih (Place.settled_declare p.name) hlocal' ?_)
    rw [innermost_declare hπ hlocal, List.append_assoc]
    exact hd

/-! ### Actions -/

/-- At the place the action goes well, unless it reads a variable that is being initialized. -/
def Ready (π : Place) (a : Action) : Prop :=
  ∀ s, At s π → (∀ id y, a = .read id y → s.isInitializing y.name = false) →
    ∃ t, actionWalk a s = .ok () t

theorem tells_action (π : Place) (a : Action) (h : a.WellFormed) :
    ∃ ps, Tells π (actionWalk a) [] ps := by
  cases a with
  | read id name => exact ⟨_, tells_readName π id name⟩
  | write id name => exact ⟨_, .use fun _ _ h => by cases h; rfl⟩
  | lambda f => exact ⟨_, tells_function π .function f h⟩
  | this id span => exact ⟨_, .use fun _ _ h => (receiver_eq_ok h).2.2.2⟩
  | super id span => exact ⟨_, .use fun _ _ h => (superclass_eq_ok h).2⟩

theorem tells_walks (π : Place) {actions : List Action} (h : ∀ a ∈ actions, a.WellFormed) :
    ∃ ps, Tells π (walks actions) [] ps := by
  induction actions with
  | nil => exact ⟨_, .pure⟩
  | cons a actions ih =>
    obtain ⟨ha, hactions⟩ := List.forall_mem_cons.1 h
    obtain ⟨ps, hps⟩ := tells_action π a ha
    obtain ⟨qs, hqs⟩ := ih hactions
    exact ⟨_, hps.seq hqs⟩

theorem Tells.at_behind {w : Walk Unit} {ps : List (Place × Node)} (h : Tells π w [] ps)
    {s t : State} (hs : At s π) (ht : w s = .ok () t) : At t π :=
  (h s t hs ht).at_behind hs (by rw [List.map_nil]; exact (modifyHead_append_nil _).symm) rfl

theorem succeeds_walks {actions : List Action} (h : ∀ a ∈ actions, a.WellFormed)
    (hready : ∀ a ∈ actions, Ready π a) : Succeeds π (walks actions) := by
  induction actions with
  | nil => exact .pure
  | cons a actions ih =>
    obtain ⟨ha, hactions⟩ := List.forall_mem_cons.1 h
    obtain ⟨hfirst, hrest⟩ := List.forall_mem_cons.1 hready
    obtain ⟨ps, hps⟩ := tells_action π a ha
    refine Succeeds.seq (fun s hs hclean => hfirst s hs fun _ y _ => ?_) hps (ih hactions hrest)
    rw [← Bool.not_eq_true, isInitializing_iff]
    exact hclean y.name

/-- The initializer of a local that it defers can be walked through: where a read of the local
comes, a lambda has made it readable. -/
theorem exists_walks_initializer {name : Identifier} {s t : State} {actions : List Action}
    (hx : Name.Plain name.name) (h : ∀ a ∈ actions, a.WellFormed)
    (hready : ∀ a ∈ actions, Ready (π.initializing name.name) a)
    (hdefers : ∀ before id y after, actions = before ++ .read id y :: after →
      y.name = name.name → readInLambda name.name before = true)
    (hat : At t (π.initializing name.name)) (hclean : Clean s) (hs : s.scopes ≠ [])
    (hd : declare name true s = .ok () t) : ∃ u, walks actions t = .ok () u := by
  have hothers {x : String} (hx : t.status? x 0 = some .declared) : x = name.name := by
    obtain ⟨hnil, -⟩ | ⟨scope, scopes, hscopes, -, rfl⟩ := declare_eq_ok hd
    · exact absurd hnil hs
    · by_contra hne
      refine hclean x ?_
      simpa [State.status?, hscopes, Table.find?_insert, Ne.symm hne] using hx
  suffices hall : ∀ before after, actions = before ++ after → ∃ u, walks before t = .ok () u from
    hall actions [] (List.append_nil _).symm
  intro before
  induction before using List.reverseRecOn with
  | nil => exact fun _ _ => ⟨t, rfl⟩
  | append_singleton before a ih =>
    intro after hactions
    rw [List.append_assoc] at hactions
    obtain ⟨u, hu⟩ := ih _ hactions
    have hmem : a ∈ actions := by
      rw [hactions]
      exact List.mem_append_right _ List.mem_cons_self
    have hbefore : ∀ b ∈ before, b.WellFormed := fun b hb => h b (by
      rw [hactions]
      exact List.mem_append_left _ hb)
    obtain ⟨ps, hps⟩ := tells_walks (π.initializing name.name) hbefore
    obtain ⟨v, hv⟩ := hready a hmem u (hps.at_behind hat hu) fun id y ha => by
      subst ha
      rw [← Bool.not_eq_true, isInitializing_iff]
      intro hdeclared
      have hname := hothers ((hps t u hat hu).declared_of hat hdeclared)
      have hread := status?_walks_of_declared hx hbefore hu (status?_declare hd hs)
      rw [hdefers before id y after hactions hname, if_pos rfl, ← hname, hdeclared] at hread
      cases hread
    exact ⟨v, by rw [walks_append, walks_singleton, EStateM.bind_of_ok hu, hv]⟩

/-! ### Parts -/

theorem succeeds_of_ready {e : Expr} (h : e.WellFormed) (hready : ∀ a ∈ e.direct, Ready π a) :
    Succeeds π (expr e) := by
  rw [expr_eq_walks]
  exact succeeds_walks (e.wellFormed_direct h) hready

theorem works_loopControl (span : Span) (keyword : Keyword) (h : π.context.loops ≠ 0) :
    Works π (loopControl span keyword) := by
  intro s hs
  rw [loopControl, EStateM.get_bind_apply, if_neg (by rw [hs.context]; exact h)]
  exact ⟨s, rfl⟩

theorem works_returnAt (span : Span) (h : π.context.function ≠ .none) :
    Works π (returnAt span) := by
  intro s hs
  rw [returnAt, EStateM.get_bind_apply, if_neg (by rw [hs.context]; exact h)]
  exact ⟨s, rfl⟩

theorem works_returnValueAt (span : Span) (h : π.context.function ≠ .initializer) :
    Works π (returnValueAt span) := by
  intro s hs
  rw [returnValueAt, EStateM.get_bind_apply, if_neg (by rw [hs.context]; exact h)]
  exact ⟨s, rfl⟩

theorem succeeds_readName (id : ExprId) (name : Identifier) : Succeeds π (readName id name) := by
  intro s _ hclean
  have hi : ¬s.isInitializing name.name = true := fun hi =>
    hclean name.name ((isInitializing_iff s).1 hi)
  rw [readName, EStateM.get_bind_apply, if_neg hi]
  exact ⟨_, rfl⟩

theorem succeeds_references (π : Place) (rs : List Reference) :
    Succeeds π (rs.forM reference) := by
  induction rs with
  | nil => exact .pure
  | cons r rs ih => exact (succeeds_readName r.id r.name).seq (tells_readName π r.id r.name) ih

theorem status_implicit {name x : String} {v : Variable}
    (h : Table.find? (Table.ofPairs [(name, Variable.implicit)]) x = some v) :
    v.status ≠ .declared := by
  have hsingle : Table.ofPairs [(name, Variable.implicit)] = Table.insert ∅ name .implicit := rfl
  rw [hsingle, Table.find?_insert] at h
  split at h
  · cases h
    decide
  · cases h

mutual

/-- If no part of an expression breaks a rule, all that it does outside its lambdas goes well. -/
theorem ready_expr (π : Place) (e : Expr) (h : e.WellFormed) (hl : Lawful π (.expr e)) :
    ∀ a ∈ e.direct, Ready π a := by
  obtain ⟨id, span, node⟩ := e
  have operand {e : Expr} (he : e ∈ node.operands) : Lawful π (.expr e) :=
    hl.inside (.operand he)
  cases node with
  | literal value => exact fun _ ha => by cases ha
  | group e => exact ready_expr π e h (operand List.mem_cons_self)
  | unary op e => exact ready_expr π e h (operand List.mem_cons_self)
  | get e property => exact ready_expr π e h (operand List.mem_cons_self)
  | binary op a b =>
    exact List.forall_mem_append.2 ⟨ready_expr π a h.1 (operand (by simp [Expr.Node.operands])),
      ready_expr π b h.2 (operand (by simp [Expr.Node.operands]))⟩
  | logical op a b =>
    exact List.forall_mem_append.2 ⟨ready_expr π a h.1 (operand (by simp [Expr.Node.operands])),
      ready_expr π b h.2 (operand (by simp [Expr.Node.operands]))⟩
  | index a b =>
    exact List.forall_mem_append.2 ⟨ready_expr π a h.1 (operand (by simp [Expr.Node.operands])),
      ready_expr π b h.2 (operand (by simp [Expr.Node.operands]))⟩
  | set b property a =>
    exact List.forall_mem_append.2 ⟨ready_expr π a h.2 (operand (by simp [Expr.Node.operands])),
      ready_expr π b h.1 (operand (by simp [Expr.Node.operands]))⟩
  | ternary a b c =>
    exact List.forall_mem_append.2 ⟨ready_expr π a h.1 (operand (by simp [Expr.Node.operands])),
      List.forall_mem_append.2 ⟨ready_expr π b h.2.1 (operand (by simp [Expr.Node.operands])),
        ready_expr π c h.2.2 (operand (by simp [Expr.Node.operands]))⟩⟩
  | indexSet a b c =>
    exact List.forall_mem_append.2 ⟨ready_expr π a h.1 (operand (by simp [Expr.Node.operands])),
      List.forall_mem_append.2 ⟨ready_expr π b h.2.1 (operand (by simp [Expr.Node.operands])),
        ready_expr π c h.2.2 (operand (by simp [Expr.Node.operands]))⟩⟩
  | call callee args =>
    exact List.forall_mem_append.2 ⟨ready_expr π callee h.1 (operand List.mem_cons_self),
      ready_exprs π args h.2 fun e he => operand (List.mem_cons_of_mem _ he)⟩
  | array elements => exact ready_exprs π elements h fun e he => operand he
  | «variable» name =>
    refine List.forall_mem_singleton.2 fun s _ hi => ?_
    rw [actionWalk, readName, EStateM.get_bind_apply, if_neg (by rw [hi id name rfl]; decide)]
    exact ⟨_, rfl⟩
  | assign name value =>
    exact List.forall_mem_append.2 ⟨ready_expr π value h.2 (operand List.mem_cons_self),
      List.forall_mem_singleton.2 fun s hs _ => works_use id name.name false s hs⟩
  | lambda f =>
    exact List.forall_mem_singleton.2 fun s hs _ =>
      works_function π .function f h (hl.inside .lambda) s hs
  | this =>
    obtain ⟨howner, hstatic, hthis⟩ := hl.obeys
    refine List.forall_mem_singleton.2 fun s hs _ => ?_
    rw [← hs.context] at howner hstatic
    rw [← hs.distance?, Option.isSome_iff_ne_none] at hthis
    rw [actionWalk, receiver, EStateM.get_bind_apply, if_neg howner,
      if_neg (by simp [hstatic, hthis])]
    exact ⟨_, rfl⟩
  | super method =>
    have howner : π.context.owner = .subclass := hl.obeys
    refine List.forall_mem_singleton.2 fun s hs _ => ?_
    rw [← hs.context] at howner
    rw [actionWalk, superclass, EStateM.get_bind_apply]
    simp only [howner]
    exact ⟨_, rfl⟩

theorem ready_exprs (π : Place) (es : List Expr) (h : Expr.AllWellFormed es)
    (hl : ∀ e ∈ es, Lawful π (.expr e)) : ∀ a ∈ Expr.directs es, Ready π a := by
  cases es with
  | nil => exact fun _ ha => by cases ha
  | cons e es =>
    obtain ⟨hfirst, hrest⟩ := List.forall_mem_cons.1 hl
    exact List.forall_mem_append.2 ⟨ready_expr π e h.1 hfirst, ready_exprs π es h.2 hrest⟩

theorem works_function (π : Place) (kind : FunctionContext) (f : Function) (h : f.WellFormed)
    (hl : Lawful π (.function kind f)) : Works π (function kind f) := by
  obtain ⟨name, params, body, isGetter, span⟩ := f
  have hd : (params.map Identifier.name).Nodup := hl.obeys
  let f : Function := ⟨name, params, body, isGetter, span⟩
  have hsettled : (π.inFunction kind f).Settled := by simp [Place.Settled, Place.inFunction]
  let ρ := { π with context := π.context.enterFunction kind }.enter (.call f) []
  have hparams : Succeeds ρ (params.forM (introduce · false)) :=
    succeeds_parameters (Place.settled_enter _ _) (List.cons_ne_nil _ _) hd
  have hnames : (π.inFunction kind f).names = ρ.names.modifyHead
      (· ++ (params.map fun p => ((p, false) : Declared)).map fun d => d.1.name) := by
    simp [ρ, f, Place.names, Place.inFunction, Place.enter, Opening.names]
  have hbody := hparams.bind (tells_parameters (Place.settled_enter _ _) params) hnames rfl
    (succeeds_stmts _ hsettled body h.2.2 (hl.inside .body))
  exact .within (hbody.inScope_empty (.call f))

theorem succeeds_methods (π : Place) (fs : List Function) (h : Function.AllWellFormed fs)
    (hl : ∀ f ∈ fs, Lawful (π.inReceiver f) (.function (methodContext f) f)) :
    Succeeds π (methods fs) := by
  cases fs with
  | nil => exact .pure
  | cons f fs =>
    obtain ⟨hfirst, hrest⟩ := List.forall_mem_cons.1 hl
    refine Succeeds.seq (Succeeds.inScope (.receiver f)
      (fun _ _ hv => status_implicit hv) ?_).succeeds
      (Tells.inScope (.receiver f) quiet_receiverScope
        (tells_function (π.inReceiver f) (methodContext f) f h.1))
      (succeeds_methods π fs h.2 hrest)
    exact (works_function (π.inReceiver f) (methodContext f) f h.1 hfirst).succeeds

theorem succeeds_staticMethods (π : Place) (fs : List Function) (h : Function.AllWellFormed fs)
    (hl : ∀ f ∈ fs, Lawful π (.function .staticMethod f)) : Succeeds π (staticMethods fs) := by
  cases fs with
  | nil => exact .pure
  | cons f fs =>
    obtain ⟨hfirst, hrest⟩ := List.forall_mem_cons.1 hl
    exact (works_function π .staticMethod f h.1 hfirst).succeeds.seq
      (tells_function π .staticMethod f h.1) (succeeds_staticMethods π fs h.2 hrest)

theorem succeeds_stmts (π : Place) (hπ : π.Settled) (ss : List Stmt) (h : Stmt.AllWellFormed ss)
    (hl : Lawful π (.stmts ss)) : Succeeds π (stmts ss) := by
  cases ss with
  | nil => exact .pure
  | cons s ss =>
    exact (succeeds_stmt π hπ s h.1 (hl.inside .first)).bind (tells_stmt π hπ s h.1)
      (names_after hπ h.1) (Place.context_after π s)
      (succeeds_stmts _ (Place.settled_after hπ s) ss h.2 (hl.inside .rest))

/-- Where nothing is in the middle of its declaration, a statement is walked through without an
error if no part of it breaks a rule. -/
theorem succeeds_stmt (π : Place) (hπ : π.Settled) (s : Stmt) (h : s.WellFormed)
    (hl : Lawful π (.stmt s)) : Succeeds π (stmt s) := by
  obtain ⟨span, node⟩ := s
  cases node with
  | expression e => exact succeeds_of_ready h (ready_expr π e h (hl.inside .expression))
  | print e => exact succeeds_of_ready h (ready_expr π e h (hl.inside .print))
  | varDecl name init =>
    obtain ⟨hn, hi⟩ := Stmt.wellFormed_varDecl.1 h
    obtain ⟨hfresh, hdefers⟩ := hl.obeys
    rw [stmt_varDecl]
    cases init with
    | none => exact (works_introduce true hfresh).succeeds
    | some e =>
      have hready := ready_expr _ e (hi e rfl) (hl.inside .initializer)
      intro s hs hclean
      obtain ⟨t, ht⟩ := exists_declare_eq_ok hs true hfresh
      have hat : At t (π.initializing name.name) :=
        ⟨by rw [(adds_declare name true).names ht, hs.names, Place.names_initializing hπ],
          ((adds_declare name true).context ht).trans hs.context⟩
      obtain ⟨u, hu⟩ : ∃ u, expr e t = .ok () u := by
        by_cases hscopes : s.scopes = []
        · obtain ⟨-, rfl⟩ | ⟨_, _, hcons, -⟩ := declare_eq_ok ht
          · exact succeeds_of_ready (hi e rfl) hready _ hat hclean
          · rw [hscopes] at hcons
            cases hcons
        · rw [expr_eq_walks]
          exact exists_walks_initializer hn (e.wellFormed_direct (hi e rfl)) hready
            (hdefers (mt hs.scopes_eq_nil_iff.2 hscopes) e rfl) hat hclean hscopes ht
      exact ⟨_, by rw [EStateM.bind_of_ok ht, Resolution.optional, EStateM.bind_of_ok hu]; rfl⟩
  | block body =>
    exact (Succeeds.inScope_empty _
      (succeeds_stmts _ (Place.settled_enter _ _) body h (hl.inside .block))).succeeds
  | ifElse condition yes no =>
    obtain ⟨hc, ⟨hyd, hy⟩, hn⟩ := Stmt.wellFormed_ifElse.1 h
    rw [stmt_ifElse]
    refine (succeeds_of_ready hc (ready_expr π condition hc (hl.inside .ifCondition))).seq
      (tells_expr π condition hc) ?_
    have hyes := tells_stmt π hπ yes hy
    rw [declarations_eq_nil hy hyd] at hyes
    refine (succeeds_stmt π hπ yes hy (hl.inside .ifYes)).seq hyes ?_
    cases no with
    | none => exact .pure
    | some no => exact succeeds_stmt π hπ no (hn no rfl).2 (hl.inside .ifNo)
  | «while» condition body =>
    obtain ⟨hc, hd, hb⟩ := h
    exact (succeeds_of_ready hc (ready_expr π condition hc (hl.inside .whileCondition))).seq
      (tells_expr π condition hc)
      (.within (succeeds_stmt π.inLoop hπ body hb (hl.inside .whileBody)))
  | «for» init condition step body =>
    obtain ⟨hi, hc, hs, hd, hb⟩ := Stmt.wellFormed_for.1 h
    let ρ := π.enter (.stmt ⟨span, .for init condition step body⟩) []
    have hρ : ρ.Settled := Place.settled_enter _ _
    rw [stmt_for]
    refine (Succeeds.inScope_empty (.stmt ⟨span, .for init condition step body⟩) ?_).succeeds
    have hbody : Succeeds (ρ.afterClause init) (within .loop (stmt body)) :=
      .within (succeeds_stmt (ρ.afterClause init).inLoop (Place.settled_afterClause hρ init) body hb
        (hl.inside .forBody))
    have hstep : Succeeds (ρ.afterClause init)
        (do optional expr step; within .loop (stmt body)) := by
      cases step with
      | none => exact hbody
      | some e =>
        have hready := ready_expr _ e (hs e rfl) (hl.inside .forStep)
        exact (succeeds_of_ready (hs e rfl) hready).seq (tells_expr _ e (hs e rfl)) hbody
    have hcondition : Succeeds (ρ.afterClause init) (do
        optional expr condition
        optional expr step
        within .loop (stmt body)) := by
      cases condition with
      | none => exact hstep
      | some e =>
        have hready := ready_expr _ e (hc e rfl) (hl.inside .forCondition)
        exact (succeeds_of_ready (hc e rfl) hready).seq (tells_expr _ e (hc e rfl)) hstep
    cases init with
    | none => exact hcondition
    | some i =>
      exact (succeeds_stmt ρ hρ i (hi i rfl).2 (hl.inside .forInit)).bind
        (tells_stmt ρ hρ i (hi i rfl).2) (names_after hρ (hi i rfl).2) (Place.context_after ρ i)
        hcondition
  | «break» => exact (works_loopControl span .break hl.obeys).succeeds
  | «continue» => exact (works_loopControl span .continue hl.obeys).succeeds
  | funDecl f =>
    have hf := works_function (π.declare f.name.name) .function f h.2 (hl.inside .funDecl)
    exact (works_introduce true hl.obeys).succeeds.bind (Tells.introduce hπ f.name true)
      (Place.names_declare hπ _) rfl hf.succeeds
  | «return» value =>
    obtain ⟨hreturn, hvalue⟩ := hl.obeys
    have hv := Stmt.wellFormed_return.1 h
    rw [stmt_return]
    refine (works_returnAt span hreturn).succeeds.seq
      (.of_eq fun _ _ h => (returnAt_eq_ok h).2) ?_
    cases value with
    | none => exact .pure
    | some e =>
      exact (works_returnValueAt span (hvalue rfl)).succeeds.seq
        (.of_eq fun _ _ h => (returnValueAt_eq_ok h).2)
        (succeeds_of_ready (hv e rfl) (ready_expr π e (hv e rfl) (hl.inside .returnValue)))
  | classDecl name superclass traits ms ss =>
    obtain ⟨-, -, -, hms, hss⟩ := h
    obtain ⟨hfresh, hself⟩ := hl.obeys
    let ρ := π.inClass ⟨span, .classDecl name superclass traits ms ss⟩ name superclass
    have hmembers : Succeeds ρ (do methods ms; staticMethods ss) :=
      (succeeds_methods ρ ms hms fun f hf => hl.inside (.method hf)).seq (tells_methods ρ ms hms)
        (succeeds_staticMethods ρ ss hss fun f hf => hl.inside (.static hf))
    cases superclass with
    | none =>
      exact (works_introduce true hfresh).succeeds.bind (Tells.introduce hπ name true)
        (Place.names_declare hπ _) rfl
        ((succeeds_references _ traits).seq (tells_references _ traits) (.within hmembers))
    | some r =>
      have hcheck : Succeeds (π.declare name.name) (checkSuperclass name r.name) := by
        intro s _ _
        rw [checkSuperclass, if_neg (hself r rfl)]
        exact ⟨s, rfl⟩
      have htells : Tells (π.declare name.name) (checkSuperclass name r.name) [] [] :=
        .of_eq fun _ _ h => (checkSuperclass_eq_ok h).2
      have hscope : Works { π.declare name.name with context := π.context.enterClass .subclass }
          (inScope superclassScope do methods ms; staticMethods ss) :=
        Succeeds.inScope (.stmt ⟨span, .classDecl name (some r) traits ms ss⟩)
          (fun _ _ hv => status_implicit hv) hmembers
      rw [stmt_subclass]
      exact (works_introduce true hfresh).succeeds.bind (Tells.introduce hπ name true)
        (Place.names_declare hπ _) rfl (hcheck.seq htells
          ((succeeds_readName r.id r.name).seq (tells_readName _ r.id r.name)
            ((succeeds_references _ traits).seq (tells_references _ traits)
              (.within hscope.succeeds))))
  | traitDecl name ms ss =>
    have hmembers : Succeeds (π.inTrait name) (do methods ms; staticMethods ss) :=
      (succeeds_methods _ ms h.2.1 fun f hf => hl.inside (.traitMethod hf)).seq
        (tells_methods _ ms h.2.1)
        (succeeds_staticMethods _ ss h.2.2 fun f hf => hl.inside (.traitStatic hf))
    exact (works_introduce true hl.obeys).succeeds.bind (Tells.introduce hπ name true)
      (Place.names_declare hπ _) rfl (.within hmembers)

end

/-! ## Programs -/

theorem accepted_of_lawful (hb : Stmt.AllWellFormed body) (h : Lawful .program (.stmts body)) :
    ∃ r, ofProgram body = .ok r := by
  obtain ⟨t, ht⟩ := succeeds_stmts .program (fun _ ho => by cases ho) body hb h _ at_program
    fun x hx => by cases hx
  exact ⟨_, by rw [ofProgram, ht]⟩

/-- A program is accepted just when no part of it breaks a rule. -/
theorem accepted_iff (hb : Stmt.AllWellFormed body) :
    (∃ r, ofProgram body = .ok r) ↔ Lawful .program (.stmts body) :=
  ⟨fun ⟨_, hr⟩ => lawful_of_accepted hb hr, accepted_of_lawful hb⟩

end Lox.Lexical

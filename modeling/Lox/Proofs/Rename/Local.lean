import Lox.Proofs.Rename.Name
import Lox.Proofs.Scope.Unused

/-!
# Locals of accepted programs

No scope of a program that is accepted declares a name twice.  So in the scope of a local its name is
the local's alone, and there every declaration is renamed as its name is:

    IsLocal body decl → fresh ∉ Stmt.namesOf body → (ofLocal decl fresh r).Sound body  (sound_ofLocal)
-/

namespace Lox

open Resolution (ofProgram)

theorem Stmt.mem_declarations_of_mem_variables {s : Stmt} {name : Identifier}
    (h : name ∈ s.variables) : name ∈ s.declarations := by
  obtain ⟨span, node⟩ := s
  cases node with
  | varDecl => exact h
  | _ => cases h

namespace Lexical

/-! ## Scopes -/

/-- What a scope declares. -/
def Site.declared (site : Site) : List Identifier :=
  site.parameters ++ site.statements.flatMap Stmt.declarations

theorem Site.mem_declared_of_mem_locals {site : Site} {name : Identifier} (h : name ∈ site.locals) :
    name ∈ site.declared := by
  rcases List.mem_append.1 h with h | h
  · exact List.mem_append_left _ h
  · obtain ⟨s, hs, h⟩ := List.mem_flatMap.1 h
    exact List.mem_append_right _
      (List.mem_flatMap.2 ⟨s, hs, Stmt.mem_declarations_of_mem_variables h⟩)

/-- What opened the innermost scope. -/
def Place.site? (π : Place) : Option Site := π.openings.head?.map Opening.site

section

variable {π : Place}

theorem Place.site?_modifyInnermost {f : Opening → Opening} (hf : ∀ o, (f o).site = o.site) :
    (π.modifyInnermost f).site? = π.site? := by
  obtain ⟨openings, context⟩ := π
  cases openings with
  | nil => rfl
  | cons o os => exact congrArg some (hf o)

@[simp] theorem Place.site?_declare (name : String) : (π.declare name).site? = π.site? :=
  site?_modifyInnermost fun _ => rfl

@[simp] theorem Place.site?_initializing (name : String) :
    (π.initializing name).site? = π.site? := site?_modifyInnermost fun _ => rfl

@[simp] theorem Place.site?_enter (site : Site) (names : List String) :
    (π.enter site names).site? = some site := rfl

@[simp] theorem Place.site?_after (s : Stmt) : (π.after s).site? = π.site? := by
  unfold after
  split <;> first | exact site?_declare _ | rfl

@[simp] theorem Place.site?_afterClause (init : Option Stmt) :
    (π.afterClause init).site? = π.site? := by
  cases init with
  | none => rfl
  | some s => exact site?_after s

@[simp] theorem Place.site?_inLoop : π.inLoop.site? = π.site? := rfl

@[simp] theorem Place.site?_inFunction (kind : Resolution.FunctionContext) (f : Function) :
    (π.inFunction kind f).site? = some (.call f) := rfl

end

/-- The statements of the part are those of the scope around it. -/
def Node.LiesIn (site : Site) : Node → Prop
  | .stmts ss => ss ⊆ site.statements
  | .stmt s => s.isDeclaration = true → s ∈ site.statements
  | _ => True

/-- The scope around a part, if there is one, declares no name twice, and the part lies in it. -/
structure Belongs (π : Place) (n : Node) : Prop where
  distinct : ∀ site ∈ π.site?, (site.declared.map Identifier.name).Nodup
  lies : ∀ site ∈ π.site?, n.LiesIn site

section Accepted

variable {body : List Stmt} {r : Resolution} {π : Place} {n : Node}

/-- The parameters and declarations of a function have different names. -/
theorem Occurs.distinct_call {kind : Resolution.FunctionContext} {f : Function}
    (h : Occurs body π (.function kind f)) (hb : Stmt.AllWellFormed body)
    (hr : ofProgram body = .ok r) : ((Site.call f).declared.map Identifier.name).Nodup := by
  have hf := Function.wellFormed_iff.1 (h.wellFormed hb)
  obtain ⟨s, u, hs, hu⟩ := h.visited hb hr
  obtain ⟨name, params, statements, isGetter, span⟩ := f
  obtain ⟨t, ht, -⟩ := Resolution.within_eq_ok hu
  obtain ⟨t', ht', -⟩ := Resolution.inScope_eq_ok ht
  let f : Function := ⟨name, params, statements, isGetter, span⟩
  let outer : Place := { π with context := π.context.enterFunction kind }
  let inner : Place := π.inFunction kind f
  have hsettled : inner.Settled := by simp [inner, Place.Settled, Place.inFunction]
  have hnames : inner.names = (outer.enter (.call f) []).names.modifyHead
      (· ++ (params.map fun p => (p, false)).map fun d : Declared => d.1.name) := by
    simp [inner, outer, f, Place.names, Place.inFunction, Place.enter, Opening.names]
  have htells := (tells_parameters (Place.settled_enter (.call f) []) params).bind hnames rfl
    (tells_stmts inner hsettled statements hf.2.2)
  have hat : At { s with
      scopes := ∅ :: s.scopes
      context := s.context.enterFunction kind } (outer.enter (.call f) []) := by
    refine ⟨?_, congrArg (Resolution.Context.enterFunction kind) hs.context⟩
    have hnames := hs.names
    unfold Resolution.State.names at hnames ⊢
    simp [outer, Place.names, Place.enter, Opening.names, hnames]
  have hdistinct := (htells _ t' hat ht').distinct (List.cons_ne_nil _ _)
  rw [List.map_append, names_warned, List.map_map] at hdistinct
  rw [Site.declared, List.map_append]
  exact hdistinct

/-- The declarations in a block have different names. -/
theorem Occurs.distinct_block {span : Span} {statements : List Stmt}
    (h : Occurs body π (.stmt ⟨span, .block statements⟩)) (hb : Stmt.AllWellFormed body)
    (hr : ofProgram body = .ok r) :
    ((Site.stmt ⟨span, .block statements⟩).declared.map Identifier.name).Nodup := by
  obtain ⟨s, t, hs, ht⟩ := (h.inside .block).visited hb hr
  have told := tells_stmts _ (Place.settled_enter _ _) statements (h.wellFormed hb) s t hs ht
  have hdistinct := told.distinct (List.cons_ne_nil _ _)
  rwa [names_warned] at hdistinct

/-- The first clause of a `for` declares one name at most. -/
theorem distinct_for {span : Span} {init : Option Stmt} {condition step : Option Expr}
    {rest : Stmt} (h : Stmt.WellFormed ⟨span, .for init condition step rest⟩) :
    ((Site.stmt ⟨span, .for init condition step rest⟩).declared.map Identifier.name).Nodup := by
  cases init with
  | none => exact List.nodup_nil
  | some s =>
    obtain ⟨hclause, -⟩ := (Stmt.wellFormed_for.1 h).1 s rfl
    obtain ⟨span, node⟩ := s
    cases node with
    | varDecl => exact List.nodup_singleton _
    | expression => exact List.nodup_nil
    | _ => cases hclause

theorem belongs_of_eq {π' : Place} {n' : Node} (h : Belongs π n) (hsite : π'.site? = π.site?)
    (hlies : ∀ site, n'.LiesIn site) : Belongs π' n' :=
  ⟨hsite ▸ h.distinct, fun site _ => hlies site⟩

theorem belongs_enter {site : Site} {π' : Place} {n' : Node} (hsite : π'.site? = some site)
    (hd : (site.declared.map Identifier.name).Nodup) (hlies : n'.LiesIn site) : Belongs π' n' := by
  constructor
  · rw [hsite]
    rintro _ ⟨⟩
    exact hd
  · rw [hsite]
    rintro _ ⟨⟩
    exact hlies

theorem liesIn_of_not_declaration {s : Stmt} (h : s.isDeclaration = false) (site : Site) :
    (Node.stmt s).LiesIn site := fun h' => by rw [h] at h'; cases h'

/-- Wherever a part of an accepted program stands, the scope around it declares no name twice. -/
theorem Occurs.belongs (h : Occurs body π n) (hb : Stmt.AllWellFormed body)
    (hr : ofProgram body = .ok r) : Belongs π n := by
  induction h with
  | program => exact ⟨nofun, nofun⟩
  | @inside π π' n n' ho hi ih =>
    have hn := ho.wellFormed hb
    cases hi with
    | first => exact ⟨ih.distinct, fun site hs _ => ih.lies site hs List.mem_cons_self⟩
    | @rest s ss =>
      refine ⟨by simpa using ih.distinct, fun site hs => ?_⟩
      rw [Place.site?_after] at hs
      exact List.subset_of_cons_subset (ih.lies site hs)
    | body => exact belongs_enter rfl (ho.distinct_call hb hr) (List.Subset.refl _)
    | block => exact belongs_enter rfl (ho.distinct_block hb hr) (List.Subset.refl _)
    | ifYes =>
      exact belongs_of_eq ih rfl (liesIn_of_not_declaration (Stmt.wellFormed_ifElse.1 hn).2.1.1)
    | ifNo =>
      exact belongs_of_eq ih rfl
        (liesIn_of_not_declaration ((Stmt.wellFormed_ifElse.1 hn).2.2 _ rfl).1)
    | whileBody => exact belongs_of_eq ih rfl (liesIn_of_not_declaration hn.2.1)
    | forInit => exact belongs_enter rfl (distinct_for hn) fun _ => List.mem_singleton_self _
    | forCondition | forStep =>
      exact belongs_enter (Place.site?_afterClause _) (distinct_for hn) trivial
    | forBody =>
      exact belongs_enter (Place.site?_afterClause _) (distinct_for hn)
        (liesIn_of_not_declaration (Stmt.wellFormed_for.1 hn).2.2.2.1 _)
    | initializer => exact belongs_of_eq ih (Place.site?_initializing _) fun _ => trivial
    | funDecl | superclass | trait =>
      exact belongs_of_eq ih (Place.site?_declare _) fun _ => trivial
    | method | traitMethod => exact belongs_enter rfl List.nodup_nil trivial
    | traitStatic => exact belongs_of_eq ih (Place.site?_declare _) fun _ => trivial
    | @static span name superclass traits ms ss f hf =>
      cases superclass with
      | none => exact belongs_of_eq ih (Place.site?_declare _) fun _ => trivial
      | some r => exact belongs_enter rfl List.nodup_nil trivial
    | _ => exact belongs_of_eq ih rfl fun _ => trivial

end Accepted

/-! ## Names -/

/-- The names that a part uses and declares. -/
def Node.names : Node → List String
  | .stmts ss => Stmt.namesOf ss
  | .stmt s => s.names
  | .expr e => e.names
  | .function _ f => f.names
  | .use _ name _ => [name]

end Lexical

theorem Expr.namesOf_eq_flatMap (es : List Expr) : Expr.namesOf es = es.flatMap Expr.names := by
  induction es with
  | nil => rfl
  | cons e es ih => rw [Expr.namesOf, ih, List.flatMap_cons]

theorem Function.namesOf_eq_flatMap (fs : List Function) :
    Function.namesOf fs = fs.flatMap Function.names := by
  induction fs with
  | nil => rfl
  | cons f fs ih => rw [Function.namesOf, ih, List.flatMap_cons]

theorem Function.names_subset_namesOf {f : Function} {fs : List Function} (h : f ∈ fs) :
    f.names ⊆ Function.namesOf fs := by
  rw [Function.namesOf_eq_flatMap]
  exact fun name hn => List.mem_flatMap.2 ⟨f, h, hn⟩

theorem Expr.names_subset_of_mem_operands {id : ExprId} {span : Span} {node : Expr.Node} {e : Expr}
    (h : e ∈ node.operands) : e.names ⊆ Expr.names ⟨id, span, node⟩ := by
  intro name hn
  cases node <;> simp only [Expr.Node.operands, List.mem_cons, List.not_mem_nil, or_false] at h
  case call callee args =>
    rcases h with rfl | h
    · exact List.mem_append_left _ hn
    · refine List.mem_append_right _ ?_
      rw [Expr.namesOf_eq_flatMap]
      exact List.mem_flatMap.2 ⟨e, h, hn⟩
  case array elements =>
    show name ∈ Expr.namesOf elements
    rw [Expr.namesOf_eq_flatMap]
    exact List.mem_flatMap.2 ⟨e, h, hn⟩
  all_goals rcases h with rfl | rfl | rfl <;> simp [Expr.names, hn]

theorem Stmt.names_ifElse (span : Span) (condition : Expr) (yes : Stmt) (no : Option Stmt) :
    Stmt.names ⟨span, .ifElse condition yes no⟩ =
      condition.names ++ (yes.names ++ (no.map Stmt.names).getD []) := by
  cases no <;> rfl

theorem Stmt.names_for (span : Span) (init : Option Stmt) (condition step : Option Expr)
    (body : Stmt) :
    Stmt.names ⟨span, .for init condition step body⟩ = (init.map Stmt.names).getD [] ++
      ((condition.map Expr.names).getD [] ++ ((step.map Expr.names).getD [] ++ body.names)) := by
  cases init <;> cases condition <;> cases step <;> rfl

namespace Lexical

theorem Inside.names_subset {π π' : Place} {n n' : Node} (h : Inside π n π' n') :
    n'.names ⊆ n.names := by
  cases h with
  | operand he => exact Expr.names_subset_of_mem_operands he
  | @method span name superclass traits ms ss f hf =>
    have := Function.names_subset_namesOf hf
    exact fun x hx => by simp [Node.names, Stmt.names, this hx]
  | @static span name superclass traits ms ss f hf =>
    have := Function.names_subset_namesOf hf
    exact fun x hx => by simp [Node.names, Stmt.names, this hx]
  | @traitMethod span name ms ss f hf =>
    have := Function.names_subset_namesOf hf
    exact fun x hx => by simp [Node.names, Stmt.names, this hx]
  | @traitStatic span name ms ss f hf =>
    have := Function.names_subset_namesOf hf
    exact fun x hx => by simp [Node.names, Stmt.names, this hx]
  | @body kind f =>
    obtain ⟨name, params, body, isGetter, span⟩ := f
    exact fun x hx => List.mem_append_right _ hx
  | @trait span name superclass traits ms ss r hr =>
    have : r.name.name ∈ traits.map (·.name.name) := List.mem_map_of_mem hr
    exact fun x hx => by simp_all [Node.names, Stmt.names]
  | ifCondition | ifYes | ifNo => exact fun x hx => by simp_all [Node.names, Stmt.names_ifElse]
  | forInit | forCondition | forStep | forBody =>
    exact fun x hx => by simp_all [Node.names, Stmt.names_for]
  | _ => exact fun x hx => by simp_all [Node.names, Stmt.namesOf, Stmt.names, Expr.names]

theorem Occurs.names_subset {body : List Stmt} {π : Place} {n : Node} (h : Occurs body π n) :
    n.names ⊆ Stmt.namesOf body := by
  induction h with
  | program => exact List.Subset.refl _
  | inside _ hi ih => exact List.Subset.trans hi.names_subset ih

end Lexical

/-! ## Renamings that are right -/

namespace Renaming

open Lexical

/-- What a renaming has to know of the program that it is for. -/
structure Sound (ρ : Renaming) (body : List Stmt) : Prop where
  wellFormed : Stmt.AllWellFormed body
  hops : ∀ {π id name reads}, Occurs body π (.use id name reads) → ρ.hops id = π.distance? name
  used : ∀ {π id name reads}, Occurs body π (.use id name reads) → name ≠ ρ.fresh
  /-- A variable's declaration is renamed as its name is in the scope. -/
  declared : ∀ {π span name init}, Occurs body π (.stmt ⟨span, .varDecl name init⟩) →
    name.name ≠ ρ.fresh ∧
      (ρ.declared (ρ.flags π) name).name = ρ.rename ((ρ.flags π).headD false) name.name
  parameter : ∀ {π kind f}, Occurs body π (.function kind f) → ∀ p ∈ f.params,
    p.name ≠ ρ.fresh ∧ (ρ.binder p).name = ρ.rename (ρ.owns (Site.call f).locals) p.name
  /-- What else is declared does not have the local's name in its scope. -/
  other : ∀ {π s}, Occurs body π (.stmt s) → s.variables = [] → ∀ name ∈ s.declarations,
    name.name ≠ ρ.fresh ∧ ρ.rename ((ρ.flags π).headD false) name.name = name.name
  plain : Name.Plain ρ.name ∧ Name.Plain ρ.fresh

section Sound

variable {ρ : Renaming} {body : List Stmt} (hρ : ρ.Sound body)
include hρ

/-- A use is renamed as names are in the scope that it is linked to. -/
theorem Sound.linked {π : Lexical.Place} {id : ExprId} {name : String} {reads : Bool} {hops : Nat}
    (ho : Occurs body π (.use id name reads)) (h : π.distance? name = some hops) :
    (ρ.flags π)[hops]? = some (ρ.linked (ρ.flags π) id) := by
  obtain ⟨o, hopening, -⟩ := Place.exists_opening_of_distance? h
  have hflag : (ρ.flags π)[hops]? = some (ρ.owns o.site.locals) := by
    rw [flags, List.getElem?_map, hopening]
    rfl
  rw [hflag, Renaming.linked, hρ.hops ho, h, Option.bind_some, hflag]
  rfl

theorem Sound.rename_this (own : Bool) : ρ.rename own Name.this = Name.this :=
  rename_of_ne fun h => Name.not_plain_this (h ▸ hρ.plain.1)

theorem Sound.rename_super (own : Bool) : ρ.rename own Name.super = Name.super :=
  rename_of_ne fun h => Name.not_plain_super (h ▸ hρ.plain.1)

end Sound

section OfLocal

variable {body : List Stmt} {r : Resolution} {decl : Identifier} {fresh : String}

theorem binder_ofLocal (name : Identifier) : (ofLocal decl fresh r).binder name =
    if name = decl then { name with name := fresh } else name := by
  unfold binder ofLocal
  simp only [decide_eq_true_eq]

theorem owns_ofLocal (names : List Identifier) :
    (ofLocal decl fresh r).owns names = true ↔ decl ∈ names := by
  simp [owns, ofLocal]

variable {site : Site} (hd : (site.declared.map Identifier.name).Nodup)
include hd

/-- In the scope of the local its name is its alone. -/
theorem binder_of_mem_locals {name : Identifier} (hn : name ∈ site.locals) :
    ((ofLocal decl fresh r).binder name).name =
      (ofLocal decl fresh r).rename ((ofLocal decl fresh r).owns site.locals) name.name := by
  rw [binder_ofLocal]
  by_cases hdecl : decl ∈ site.locals
  · rw [(owns_ofLocal _).2 hdecl]
    by_cases heq : name = decl
    · rw [if_pos heq, heq]
      simp [rename, ofLocal]
    · have hne : name.name ≠ decl.name := fun hname => heq (List.inj_on_of_nodup_map hd
        (Site.mem_declared_of_mem_locals hn) (Site.mem_declared_of_mem_locals hdecl) hname)
      rw [if_neg heq, rename_of_ne hne]
  · have hne : name ≠ decl := fun heq => hdecl (heq ▸ hn)
    rw [if_neg hne, Bool.eq_false_iff.2 (mt (owns_ofLocal _).1 hdecl), rename_false]

theorem rename_of_mem_declarations {s : Stmt} (hs : s ∈ site.statements) (hv : s.variables = [])
    {name : Identifier} (hn : name ∈ s.declarations) :
    (ofLocal decl fresh r).rename ((ofLocal decl fresh r).owns site.locals) name.name =
      name.name := by
  by_cases hdecl : decl ∈ site.locals
  · refine rename_of_ne fun hname => ?_
    rw [Site.declared, List.map_append, List.map_flatMap] at hd
    obtain ⟨-, hstatements, hdisjoint⟩ := List.nodup_append.1 hd
    have hmem : name.name ∈ site.statements.flatMap fun s => s.declarations.map Identifier.name :=
      List.mem_flatMap.2 ⟨s, hs, List.mem_map_of_mem hn⟩
    rcases List.mem_append.1 hdecl with hdecl | hdecl
    · exact hdisjoint _ (List.mem_map_of_mem hdecl) _ hmem hname.symm
    · obtain ⟨s', hs', hdecl⟩ := List.mem_flatMap.1 hdecl
      have hne : s' ≠ s := by
        rintro rfl
        rw [hv] at hdecl
        cases hdecl
      have hsymm : Std.Symm (Function.onFun List.Disjoint
          fun s : Stmt => s.declarations.map Identifier.name) := ⟨fun _ _ => List.Disjoint.symm⟩
      have hapart := (List.nodup_flatMap.1 hstatements).2.forall hs' hs hne
      refine hapart (List.mem_map_of_mem (Stmt.mem_declarations_of_mem_variables hdecl)) ?_
      have := List.mem_map_of_mem (f := Identifier.name) hn
      rwa [show name.name = decl.name from hname] at this
  · rw [Bool.eq_false_iff.2 (mt (owns_ofLocal _).1 hdecl), rename_false]

end OfLocal

theorem flags_headD {ρ : Renaming} (π : Lexical.Place) :
    (ρ.flags π).headD false = (π.site?.map fun site => ρ.owns site.locals).getD false := by
  obtain ⟨openings, context⟩ := π
  cases openings <;> rfl

theorem declared_of_flags {ρ : Renaming} {π : Lexical.Place} (name : Identifier) :
    ρ.declared (ρ.flags π) name = if π.site?.isNone then name else ρ.binder name := by
  obtain ⟨openings, context⟩ := π
  cases openings <;> rfl

variable {body : List Stmt} {r : Resolution} {decl : Identifier} {fresh : String}

/-- The local has a name as programs write it. -/
theorem plain_of_isLocal (hl : IsLocal body decl) (hb : Stmt.AllWellFormed body) :
    Name.Plain decl.name := by
  obtain ⟨π, n, ho, hdecl⟩ := hl
  have hn := ho.wellFormed hb
  have hstatement {ss : List Stmt} (hss : ∀ s ∈ ss, s.WellFormed)
      (h : decl ∈ ss.flatMap Stmt.variables) : Name.Plain decl.name := by
    obtain ⟨⟨span, node⟩, hs, h⟩ := List.mem_flatMap.1 h
    cases node with
    | varDecl name init =>
      obtain rfl := List.mem_singleton.1 h
      exact (Stmt.wellFormed_varDecl.1 (hss _ hs)).1
    | _ => cases h
  cases n with
  | stmt s =>
    obtain ⟨span, node⟩ := s
    cases node with
    | block statements => exact hstatement ((Stmt.allWellFormed_iff _).1 hn) hdecl
    | «for» init condition step rest =>
      refine hstatement (fun s hs => ?_) hdecl
      exact ((Stmt.wellFormed_for.1 hn).1 s (Option.mem_toList.1 hs)).2
    | _ => cases hdecl
  | function kind f =>
    obtain ⟨hparams, -, hbody⟩ := Function.wellFormed_iff.1 hn
    rcases List.mem_append.1 hdecl with h | h
    · exact hparams _ h
    · exact hstatement ((Stmt.allWellFormed_iff _).1 hbody) h
  | _ => cases hdecl

/-- The table of distances has for each use what its place says. -/
theorem lookup_distances (hb : Stmt.AllWellFormed body) (hd : (Stmt.idsOf body).Nodup)
    (hr : ofProgram body = .ok r) {π : Lexical.Place} {id : ExprId} {name : String} {reads : Bool}
    (ho : Occurs body π (.use id name reads)) : r.distances.lookup id = π.distance? name := by
  refine Option.ext fun hops => ?_
  rw [← ho.mem_distances_iff hb hd hr]
  exact ⟨Table.mem_of_lookup, Table.lookup_of_mem (nodup_distances hr hd)⟩

/-- Any local of an accepted program can be renamed to any plain name that the program does not
have. -/
theorem sound_ofLocal (hb : Stmt.AllWellFormed body) (hd : (Stmt.idsOf body).Nodup)
    (hr : ofProgram body = .ok r) (hl : IsLocal body decl) (hf : Name.Plain fresh)
    (hnew : fresh ∉ Stmt.namesOf body) : (ofLocal decl fresh r).Sound body where
  wellFormed := hb
  hops := lookup_distances hb hd hr
  used ho := by
    rintro rfl
    exact hnew (ho.names_subset (List.mem_singleton_self _))
  declared := by
    intro π span name init ho
    have hmem : name.name ∈ (Node.stmt ⟨span, .varDecl name init⟩).names := by
      cases init <;> exact List.mem_cons_self
    refine ⟨?_, ?_⟩
    · rintro rfl
      exact hnew (ho.names_subset hmem)
    have hbelongs := ho.belongs hb hr
    rw [flags_headD, declared_of_flags]
    cases hsite : π.site? with
    | none => simp
    | some site =>
      have hmem : name ∈ site.locals := List.mem_append_right _
        (List.mem_flatMap.2 ⟨_, hbelongs.lies site hsite rfl, List.mem_singleton_self _⟩)
      exact binder_of_mem_locals (hbelongs.distinct site hsite) hmem
  parameter := by
    intro π kind f ho p hp
    refine ⟨?_, binder_of_mem_locals (ho.distinct_call hb hr) (List.mem_append_left _ hp)⟩
    rintro rfl
    refine hnew (ho.names_subset ?_)
    obtain ⟨name, params, statements, isGetter, span⟩ := f
    exact List.mem_append_left _ (List.mem_map_of_mem hp)
  other := by
    intro π s ho hv name hn
    have hbelongs := ho.belongs hb hr
    have hs : s.isDeclaration = true := by
      by_contra hs
      rw [declarations_eq_nil (ho.wellFormed hb) (Bool.eq_false_iff.2 hs)] at hn
      cases hn
    refine ⟨?_, ?_⟩
    · rintro rfl
      refine hnew (ho.names_subset ?_)
      obtain ⟨span, node⟩ := s
      cases node with
      | funDecl f => cases List.mem_singleton.1 hn; exact List.mem_cons_self
      | classDecl => cases List.mem_singleton.1 hn; exact List.mem_cons_self
      | traitDecl => cases List.mem_singleton.1 hn; exact List.mem_cons_self
      | varDecl => cases hv
      | _ => cases hs
    rw [flags_headD]
    cases hsite : π.site? with
    | none => exact rename_false _
    | some site =>
      exact rename_of_mem_declarations (hbelongs.distinct site hsite)
        (hbelongs.lies site hsite hs) hv hn
  plain := ⟨plain_of_isLocal hl hb, hf⟩

end Renaming

end Lox

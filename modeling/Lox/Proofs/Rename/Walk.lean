import Lox.Proofs.Alike.Walk
import Lox.Proofs.Rename.Local

/-!
# Resolving renamed programs

The walk through a renamed program goes with the walk through the program itself: in the scopes are
the same variables, but for the names of the local, so each use is linked as it was.

    Occurs body π (.stmt s) → Mirrors ρ π (stmt s) (stmt (ρ.stmt (ρ.flags π) s))        (mirrors_stmt)
-/

namespace Lox

open Lexical

variable {ρ : Renaming}

/-- A warning of the same variable, by a name of the local perhaps. -/
structure Warning.Renamed (ρ : Renaming) (w w' : Warning) : Prop where
  span : w'.span = w.span
  name : ∃ own, w'.name = ρ.rename own w.name

namespace Resolution

/-! ## Scopes -/

/-- The open scopes of both walks.  In those of the program the local's other name does not
occur. -/
inductive Scopes (ρ : Renaming) : List Bool → List Scope → List Scope → Prop
  | nil : Scopes ρ [] [] []
  | cons {own : Bool} {Γ : List Bool} {t t' : Scope} {ts ts' : List Scope} :
      Table.Renamed ρ own Eq t t' → t.contains ρ.fresh = false → Scopes ρ Γ ts ts' →
      Scopes ρ (own :: Γ) (t :: ts) (t' :: ts')

section Scopes

variable {own own' : Bool} {t t' : Scope} {name : String}

theorem names_renamed (h : Table.Renamed ρ own Eq t t') :
    t'.names = t.names.map (ρ.rename own) := by
  obtain ⟨entries⟩ := t
  obtain ⟨entries'⟩ := t'
  change List.Forall₂ _ entries entries' at h
  show entries'.map Prod.fst = (entries.map Prod.fst).map (ρ.rename own)
  induction h with
  | nil => rfl
  | cons ha _ ih => rw [List.map_cons, List.map_cons, List.map_cons, ih, ha.1.eq]

/-- A name that is not in the scope does not get into it by renaming. -/
theorem contains_rename (h : Table.Renamed ρ own' Eq t t') (hf : t.contains ρ.fresh = false)
    (hne : name ≠ ρ.fresh) (hn : t.contains name = false) :
    t'.contains (ρ.rename own name) = false := by
  rw [Table.contains_eq, decide_eq_false_iff_not] at hf hn ⊢
  rw [names_renamed h]
  intro hmem
  obtain ⟨key, hkey, heq⟩ := List.mem_map.1 hmem
  have hkf : key ≠ ρ.fresh := by rintro rfl; exact hf hkey
  have hkn : key ≠ name := by rintro rfl; exact hn hkey
  unfold Renaming.rename at heq
  grind

theorem contains_rename_eq (h : Table.Renamed ρ own Eq t t') (hne : name ≠ ρ.fresh) :
    t'.contains (ρ.rename own name) = t.contains name :=
  (h.contains_eq ⟨rfl, fun _ => hne⟩).symm

end Scopes

theorem Scopes.markRead {Γ : List Bool} {own : Bool} {scopes scopes' : List Scope} {name : String}
    (h : Scopes ρ Γ scopes scopes') (hne : name ≠ ρ.fresh) {hops : Nat}
    (hown : Γ[hops]? = some own) :
    Scopes ρ Γ (scopes.modify hops (·.modify name Variable.markRead))
      (scopes'.modify hops (·.modify (ρ.rename own name) Variable.markRead)) := by
  induction h generalizing hops with
  | nil => cases hown
  | @cons own' Γ t t' ts ts' ht hf hts ih =>
    cases hops with
    | zero =>
      obtain rfl : own' = own := Option.some.inj hown
      refine .cons (ht.modify ⟨rfl, fun _ => hne⟩ ?_) ?_ hts
      · rintro v _ rfl
        rfl
      · rw [Table.contains_eq, Table.names_modify, ← Table.contains_eq]
        exact hf
    | succ hops => exact .cons ht hf (ih hown)

/-- A use is linked to the scope that it was linked to. -/
theorem distance?_rename {Γ : List Bool} {own : Bool} {scopes scopes' : List Scope} {name : String}
    (h : Scopes ρ Γ scopes scopes') (hne : name ≠ ρ.fresh)
    (hown : ∀ hops, distance? name scopes = some hops → Γ[hops]? = some own) :
    distance? (ρ.rename own name) scopes' = distance? name scopes := by
  unfold distance? at *
  induction h with
  | nil => rfl
  | @cons own' Γ t t' ts ts' ht hf hts ih =>
    rw [List.findIdx?_cons, List.findIdx?_cons]
    cases hn : t.contains name with
    | true =>
      have := hown 0 (by rw [List.findIdx?_cons, hn]; rfl)
      obtain rfl : own' = own := Option.some.inj this
      rw [contains_rename_eq ht hne, hn]
      rfl
    | false =>
      rw [contains_rename ht hf hne hn, ih fun hops hh => ?_]
      exact hown (hops + 1) (by rw [List.findIdx?_cons, hn]; simp [hh])

/-! ## States -/

structure State.Renamed (ρ : Renaming) (Γ : List Bool) (s s' : State) : Prop where
  scopes : Scopes ρ Γ s.scopes s'.scopes
  distances : s'.distances = s.distances
  warnings : List.Forall₂ (Warning.Renamed ρ) s.warnings s'.warnings
  context : s'.context = s.context

theorem unused_renamed {own : Bool} {t t' : Scope} (h : Table.Renamed ρ own Eq t t') :
    List.Forall₂ (Warning.Renamed ρ) (unused t) (unused t') := by
  rw [unused_eq_filterMap, unused_eq_filterMap]
  refine forall₂_mergeSort (fun a a' b b' ha hb => ?_) (List.rel_filterMap ?_ h)
  · rw [Warning.le, Warning.le, ha.span, hb.span]
  · rintro ⟨name, v⟩ ⟨name', v'⟩ ⟨hname, hv⟩
    dsimp only at hname hv
    subst hv
    unfold warning?
    dsimp only
    split
    · exact .some ⟨rfl, own, hname.eq⟩
    · exact .none

namespace State.Renamed

variable {Γ : List Bool} {own : Bool} {s s' : State}

theorem enter (h : s.Renamed ρ Γ s') {t t' : Scope} (ht : Table.Renamed ρ own Eq t t')
    (hf : t.contains ρ.fresh = false) :
    State.Renamed ρ (own :: Γ) { s with scopes := t :: s.scopes }
      { s' with scopes := t' :: s'.scopes } :=
  { h with scopes := .cons ht hf h.scopes }

theorem closeScope (h : s.Renamed ρ (own :: Γ) s') : s.closeScope.Renamed ρ Γ s'.closeScope := by
  obtain ⟨scopes, distances, warnings, context⟩ := s
  obtain ⟨scopes', distances', warnings', context'⟩ := s'
  obtain ⟨hscopes, hdistances, hwarnings, hcontext⟩ := h
  dsimp only at hscopes
  cases hscopes with
  | cons ht _ hts => exact ⟨hts, hdistances, List.rel_append hwarnings (unused_renamed ht), hcontext⟩

theorem distance?_eq (h : s.Renamed ρ Γ s') {name : String} (hne : name ≠ ρ.fresh)
    (hown : ∀ hops, distance? name s.scopes = some hops → Γ[hops]? = some own) :
    distance? (ρ.rename own name) s'.scopes = distance? name s.scopes :=
  distance?_rename h.scopes hne hown

theorem isInitializing_eq (h : s.Renamed ρ Γ s') {name : String} (hne : name ≠ ρ.fresh)
    (hown : ∀ hops, distance? name s.scopes = some hops → Γ[hops]? = some own) :
    s'.isInitializing (ρ.rename own name) = s.isInitializing name := by
  obtain ⟨scopes, distances, warnings, context⟩ := s
  obtain ⟨scopes', distances', warnings', context'⟩ := s'
  obtain ⟨hscopes, -, -, -⟩ := h
  dsimp only at hscopes hown
  unfold isInitializing
  cases hscopes with
  | nil => rfl
  | @cons own' Γ t t' ts ts' ht hf hts =>
    dsimp only
    cases hn : t.contains name with
    | true =>
      have := hown 0 (by rw [distance?, List.findIdx?_cons, hn]; rfl)
      obtain rfl : own' = own := Option.some.inj this
      have hfind : Option.Rel Eq (t.find? name) (t'.find? (ρ.rename own' name)) :=
        ht.find? ⟨rfl, fun _ => hne⟩
      generalize t.find? name = o at hfind
      generalize t'.find? (ρ.rename own' name) = o' at hfind
      cases hfind with
      | none => rfl
      | some hv => rw [hv]
    | false =>
      have hn' : t'.contains (ρ.rename own name) = false := contains_rename ht hf hne hn
      rw [Table.contains, Option.isSome_eq_false_iff, Option.isNone_iff_eq_none] at hn hn'
      rw [hn, hn']

end State.Renamed

theorem State.Renamed.use {Γ : List Bool} {own : Bool} {s s' : State} (h : s.Renamed ρ Γ s')
    {name : String} (hne : name ≠ ρ.fresh)
    (hown : ∀ hops, distance? name s.scopes = some hops → Γ[hops]? = some own) (id : ExprId)
    (reads : Bool) : (s.use id name reads).Renamed ρ Γ (s'.use id (ρ.rename own name) reads) := by
  unfold State.use
  rw [h.distance?_eq hne hown]
  cases hd : distance? name s.scopes with
  | none => exact h
  | some hops =>
    have hscopes := h.scopes.markRead hne (hown hops hd)
    refine ⟨?_, congrArg ((id, hops) :: ·) h.distances, h.warnings, h.context⟩
    cases reads with
    | false => exact h.scopes
    | true => exact hscopes

/-! ## Walks -/

/-- If the walk through the program goes well, so does the other. -/
def Mirrors (ρ : Renaming) (π : Lexical.Place) (w w' : Walk Unit) : Prop :=
  ∀ s s' t, At s π → s.Renamed ρ (ρ.flags π) s' → w s = .ok () t →
    ∃ t', w' s' = .ok () t' ∧ t.Renamed ρ (ρ.flags π) t'

namespace Mirrors

variable {π π' : Lexical.Place} {v v' w w' : Walk Unit} {a : List String} {ids : List ExprId}

theorem pure : Mirrors ρ π (Pure.pure ()) (Pure.pure ()) := by
  rintro s s' _ - h ⟨⟩
  exact ⟨s', rfl, h⟩

theorem bind (h : Mirrors ρ π v v') (ha : Adds v a ids)
    (hn : π'.names = π.names.modifyHead (· ++ a)) (hc : π'.context = π.context)
    (hf : ρ.flags π' = ρ.flags π) (h' : Mirrors ρ π' w w') :
    Mirrors ρ π (do v; w) (do v'; w') := by
  intro s s' u hs hrenamed hu
  obtain ⟨_, t, ht, hw⟩ := EStateM.bind_eq_ok.1 hu
  obtain ⟨t', ht', hrenamed⟩ := h s s' t hs hrenamed ht
  have hat : At t π' := ⟨by rw [ha.names ht, hs.names, hn], by rw [ha.context ht, hs.context, hc]⟩
  obtain ⟨u', hu', hrenamed⟩ := h' t t' u hat (hf ▸ hrenamed) hw
  exact ⟨u', by rw [EStateM.bind_of_ok ht', hu'], hf ▸ hrenamed⟩

/-- Behind a walk that declares nothing. -/
theorem seq (h : Mirrors ρ π v v') (ha : Adds v [] ids) (h' : Mirrors ρ π w w') :
    Mirrors ρ π (do v; w) (do v'; w') :=
  h.bind ha (modifyHead_append_nil _).symm rfl rfl h'

theorem within {region : Region}
    (h : Mirrors ρ { π with context := region.enter π.context } w w') :
    Mirrors ρ π (Resolution.within region w) (Resolution.within region w') := by
  intro s s' u hs hrenamed hu
  obtain ⟨t, ht, rfl⟩ := within_eq_ok hu
  obtain ⟨t', ht', hrenamed'⟩ := h { s with context := region.enter s.context }
    { s' with context := region.enter s'.context } t ⟨hs.names, congrArg region.enter hs.context⟩
    { hrenamed with context := congrArg region.enter hrenamed.context } ht
  refine ⟨{ t' with context := region.leave s'.context t'.context }, ?_,
    { hrenamed' with context := congrArg₂ region.leave hrenamed.context hrenamed'.context }⟩
  rw [Resolution.within, ht']

theorem inScope {site : Site} {scope : Scope} {names : List String} (hn : scope.names = names)
    (hscope : Table.Renamed ρ (ρ.owns site.locals) Eq scope scope)
    (hf : scope.contains ρ.fresh = false) (h : Mirrors ρ (π.enter site names) w w') :
    Mirrors ρ π (Resolution.inScope scope w) (Resolution.inScope scope w') := by
  intro s s' u hs hrenamed hu
  obtain ⟨t, ht, rfl⟩ := inScope_eq_ok hu
  have hat : At { s with scopes := scope :: s.scopes } (π.enter site names) := by
    refine ⟨?_, hs.context⟩
    have hnames := hs.names
    unfold State.names at hnames ⊢
    simp [Place.names, Place.enter, Opening.names, hn, hnames]
  obtain ⟨t', ht', hrenamed⟩ := h _ _ t hat (hrenamed.enter hscope hf) ht
  exact ⟨t'.closeScope, by rw [Resolution.inScope, ht'], hrenamed.closeScope⟩

/-- A check that the program passes. -/
theorem check {p : State → Prop} (hw : ∀ s t, w s = .ok () t → p s ∧ t = s)
    (hp : ∀ s s', s.Renamed ρ (ρ.flags π) s' → p s → p s')
    (hw' : ∀ s, p s → w' s = .ok () s) : Mirrors ρ π w w' := by
  intro s s' t hs hrenamed ht
  obtain ⟨hps, rfl⟩ := hw s t ht
  exact ⟨s', hw' s' (hp _ s' hrenamed hps), hrenamed⟩

end Mirrors

/-! ## Single steps -/

section Steps

variable {π : Lexical.Place} {body : List Stmt}

theorem declare_of_nil {name : Identifier} {warns : Bool} {s : State} (h : s.scopes = []) :
    declare name warns s = .ok () s := by
  rw [declare, EStateM.get_bind_apply, h]
  rfl

theorem declare_of_new {name : Identifier} {warns : Bool} {s : State} {scope : Scope}
    {scopes : List Scope} (h : s.scopes = scope :: scopes)
    (hnew : scope.contains name.name = false) : declare name warns s = .ok () { s with
      scopes := scope.insert name.name ⟨.declared, name.span, warns⟩ :: scopes } := by
  rw [declare, EStateM.get_bind_apply, h]
  dsimp only
  rw [hnew, if_neg Bool.false_ne_true]
  show EStateM.Result.ok () (State.modifyInnermost _ s) = _
  rw [State.modifyInnermost, h]

variable {name name' : Identifier} (hname : name'.name = ρ.rename ((ρ.flags π).headD false) name.name)
  (hne : name.name ≠ ρ.fresh)
include hname hne

theorem mirrors_declare (hspan : name'.span = name.span) (warns : Bool) :
    Mirrors ρ π (declare name warns) (declare name' warns) := by
  rintro ⟨scopes, distances, warnings, context⟩ ⟨scopes', distances', warnings', context'⟩ t -
    ⟨hscopes, hdistances, hwarnings, hcontext⟩ ht
  dsimp only at hscopes
  generalize ρ.flags π = Γ at hname hscopes ⊢
  obtain ⟨hs, rfl⟩ | ⟨scope, scopes, hs, hnew, rfl⟩ := declare_eq_ok ht <;> cases hs
  · cases hscopes
    exact ⟨_, declare_of_nil rfl, .nil, hdistances, hwarnings, hcontext⟩
  · cases hscopes with
    | @cons own Γ _ scope' _ scopes' hscope hfresh hrest =>
      have hboth : ρ.Names own name.name name'.name := ⟨hname, fun _ => hne⟩
      refine ⟨_, declare_of_new rfl ((hscope.contains_eq hboth).symm.trans hnew),
        .cons (hscope.insert hboth (by rw [hspan])) ?_ hrest, hdistances, hwarnings, hcontext⟩
      rw [Table.contains_eq, decide_eq_false_iff_not] at hfresh ⊢
      rw [Table.names_insert hnew]
      exact List.not_mem_append hfresh fun h => hne (List.mem_singleton.1 h).symm

theorem mirrors_define : Mirrors ρ π (define name.name) (define name'.name) := by
  rintro ⟨scopes, distances, warnings, context⟩ ⟨scopes', distances', warnings', context'⟩ t -
    ⟨hscopes, hdistances, hwarnings, hcontext⟩ ⟨⟩
  dsimp only at hscopes
  refine ⟨_, rfl, ?_⟩
  generalize ρ.flags π = Γ at hname hscopes ⊢
  cases hscopes with
  | nil => exact ⟨.nil, hdistances, hwarnings, hcontext⟩
  | @cons own Γ scope scope' _ scopes' hscope hfresh hrest =>
    have hboth : ρ.Names own name.name name'.name := ⟨hname, fun _ => hne⟩
    refine ⟨.cons (hscope.modify hboth ?_) ?_ hrest, hdistances, hwarnings, hcontext⟩
    · rintro v _ rfl
      rfl
    · rw [Table.contains_eq, Table.names_modify, ← Table.contains_eq]
      exact hfresh

/-- A local whose initializer is walked through in between. -/
theorem Mirrors.declaring {w w' : Walk Unit} {ids : List ExprId} (hspan : name'.span = name.span)
    (hπ : π.Settled) (ha : Adds w [] ids) (h : Mirrors ρ (π.initializing name.name) w w')
    (warns : Bool) :
    Mirrors ρ π (do declare name warns; w; define name.name)
      (do declare name' warns; w'; define name'.name) := by
  refine (mirrors_declare hname hne hspan warns).bind (adds_declare name warns)
    (Place.names_initializing hπ name.name) rfl (Renaming.flags_initializing _) (h.seq ha ?_)
  exact mirrors_define (by rwa [Renaming.flags_initializing]) hne

theorem mirrors_introduce (hspan : name'.span = name.span) (hπ : π.Settled) (warns : Bool) :
    Mirrors ρ π (introduce name warns) (introduce name' warns) :=
  (mirrors_declare hname hne hspan warns).bind (adds_declare name warns)
    (Place.names_declare hπ name.name) rfl (Renaming.flags_declare _)
    (mirrors_define (by rwa [Renaming.flags_declare]) hne)

end Steps

section Uses

variable {π : Lexical.Place} {body : List Stmt} (hρ : ρ.Sound body)
include hρ

theorem linked_at {s : State} {id : ExprId} {name : String} {reads : Bool} (hs : At s π)
    (ho : Occurs body π (.use id name reads)) : ∀ hops, distance? name s.scopes = some hops →
      (ρ.flags π)[hops]? = some (ρ.linked (ρ.flags π) id) :=
  fun _ h => hρ.linked ho ((hs.distance? name).symm.trans h)

theorem mirrors_readName {id : ExprId} {name : Identifier}
    (ho : Occurs body π (.use id name.name true)) :
    Mirrors ρ π (readName id name) (readName id (ρ.use (ρ.flags π) id name)) := by
  intro s s' t hs hrenamed ht
  obtain ⟨hinit, rfl⟩ := readName_eq_ok ht
  have hown := linked_at hρ hs ho
  refine ⟨_, ?_, hrenamed.use (hρ.used ho) hown id true⟩
  have hinit' : s'.isInitializing (ρ.use (ρ.flags π) id name).name = false :=
    (hrenamed.isInitializing_eq (hρ.used ho) hown).trans hinit
  rw [readName, EStateM.get_bind_apply, if_neg (Bool.eq_false_iff.1 hinit')]
  rfl

theorem mirrors_assign {id : ExprId} {name : Identifier}
    (ho : Occurs body π (.use id name.name false)) :
    Mirrors ρ π (modify (·.use id name.name false))
      (modify (·.use id (ρ.use (ρ.flags π) id name).name false)) := by
  rintro s s' _ hs hrenamed ⟨⟩
  exact ⟨_, rfl, hrenamed.use (hρ.used ho) (linked_at hρ hs ho) id false⟩

theorem mirrors_references {rs : List Reference}
    (ho : ∀ r ∈ rs, Occurs body π (.use r.id r.name.name true)) :
    Mirrors ρ π (rs.forM reference) ((rs.map (ρ.reference (ρ.flags π))).forM reference) := by
  induction rs with
  | nil => exact .pure
  | cons r rs ih =>
    obtain ⟨hr, hrs⟩ := List.forall_mem_cons.1 ho
    exact (mirrors_readName hρ hr).seq (adds_readName r.id r.name) (ih hrs)

theorem mirrors_receiver {id : ExprId} {span : Span}
    (ho : Occurs body π (.use id Name.this true)) :
    Mirrors ρ π (receiver id span) (receiver id span) := by
  intro s s' t hs hrenamed ht
  obtain ⟨howner, hstatic, hthis, rfl⟩ := receiver_eq_ok ht
  have hown := linked_at hρ hs ho
  have huse := hrenamed.use (hρ.used ho) hown id true
  have hd := hrenamed.distance?_eq (hρ.used ho) hown
  rw [hρ.rename_this] at huse hd
  refine ⟨_, ?_, huse⟩
  rw [receiver, EStateM.get_bind_apply, hrenamed.context, hd, if_neg howner, hstatic, if_neg]
  · rfl
  · simp [Option.isSome_iff_ne_none.1 hthis]

theorem mirrors_superclass {id : ExprId} {span : Span}
    (ho : Occurs body π (.use id Name.super true)) :
    Mirrors ρ π (superclass id span) (superclass id span) := by
  intro s s' t hs hrenamed ht
  obtain ⟨howner, rfl⟩ := superclass_eq_ok ht
  have huse := hrenamed.use (hρ.used ho) (linked_at hρ hs ho) id true
  rw [hρ.rename_super] at huse
  refine ⟨_, ?_, huse⟩
  rw [superclass, EStateM.get_bind_apply, hrenamed.context, howner]
  rfl

end Uses

/-! ## Checks -/

section Checks

variable {π : Lexical.Place}

theorem mirrors_loopControl (span : Span) (keyword : Keyword) :
    Mirrors ρ π (loopControl span keyword) (loopControl span keyword) := by
  refine .check (fun _ _ h => loopControl_eq_ok h) (fun s s' h hs => ?_) fun s hs => ?_
  · rwa [h.context]
  · rw [loopControl, EStateM.get_bind_apply, if_neg hs]
    rfl

theorem mirrors_returnAt (span : Span) : Mirrors ρ π (returnAt span) (returnAt span) := by
  refine .check (fun _ _ h => returnAt_eq_ok h) (fun s s' h hs => ?_) fun s hs => ?_
  · rwa [h.context]
  · rw [returnAt, EStateM.get_bind_apply, if_neg hs]
    rfl

theorem mirrors_returnValueAt (span : Span) :
    Mirrors ρ π (returnValueAt span) (returnValueAt span) := by
  refine .check (fun _ _ h => returnValueAt_eq_ok h) (fun s s' h hs => ?_) fun s hs => ?_
  · rwa [h.context]
  · rw [returnValueAt, EStateM.get_bind_apply, if_neg hs]
    rfl

theorem mirrors_checkSuperclass {scopes : List Bool} {id : ExprId} {name super : Identifier}
    (hne : name.name ≠ ρ.fresh) :
    Mirrors ρ π (checkSuperclass name super) (checkSuperclass name (ρ.use scopes id super)) := by
  refine .check (fun _ _ h => checkSuperclass_eq_ok h) (fun _ _ _ h => h) fun s hs => ?_
  have hs' : (ρ.use scopes id super).name ≠ name.name := by
    show ρ.rename _ _ ≠ _
    unfold Renaming.rename
    split
    · exact hne.symm
    · exact hs
  rw [checkSuperclass, if_neg hs']
  rfl

end Checks

/-! ## The walk -/

variable {body : List Stmt}

theorem mirrors_parameters {π : Lexical.Place} (hπ : π.Settled) {params : List Identifier}
    (h : ∀ p ∈ params, p.name ≠ ρ.fresh ∧
      (ρ.binder p).name = ρ.rename ((ρ.flags π).headD false) p.name) :
    Mirrors ρ π (params.forM (introduce · false))
      ((params.map ρ.binder).forM (introduce · false)) := by
  induction params generalizing π with
  | nil => exact .pure
  | cons p ps ih =>
    obtain ⟨⟨hne, hname⟩, hps⟩ := List.forall_mem_cons.1 h
    refine (mirrors_introduce hname hne (Renaming.span_binder p) hπ false).bind
      (adds_introduce p false) (Place.names_declare hπ p.name) rfl (Renaming.flags_declare _)
      (ih (Place.settled_declare p.name) ?_)
    rwa [Renaming.flags_declare]

/-- The scope of an implicit name. -/
theorem renamed_implicit (hρ : ρ.Sound body) {name : String} (hn : ¬Name.Plain name) :
    Table.Renamed ρ false Eq (Table.ofPairs [(name, Variable.implicit)])
      (Table.ofPairs [(name, Variable.implicit)]) ∧
    (Table.ofPairs [(name, Variable.implicit)]).contains ρ.fresh = false := by
  refine ⟨.single (.other name) rfl, ?_⟩
  rw [Table.contains_eq, decide_eq_false_iff_not]
  intro h
  obtain rfl : ρ.fresh = name := List.mem_singleton.1 h
  exact hn hρ.plain.2

mutual

/-- The names that an expression uses are renamed just where they mean the local. -/
theorem mirrors_expr (hρ : ρ.Sound body) {π : Lexical.Place} (e : Expr) (ho : Occurs body π (.expr e)) :
    Mirrors ρ π (expr e) (expr (ρ.expr (ρ.flags π) e)) := by
  obtain ⟨id, span, node⟩ := e
  cases node with
  | literal value => exact .pure
  | group e => exact mirrors_expr hρ e (ho.inside (.operand (by simp [Expr.Node.operands])))
  | unary op e => exact mirrors_expr hρ e (ho.inside (.operand (by simp [Expr.Node.operands])))
  | binary op a b =>
    exact (mirrors_expr hρ a (ho.inside (.operand (by simp [Expr.Node.operands])))).seq (adds_expr a)
      (mirrors_expr hρ b (ho.inside (.operand (by simp [Expr.Node.operands]))))
  | logical op a b =>
    exact (mirrors_expr hρ a (ho.inside (.operand (by simp [Expr.Node.operands])))).seq (adds_expr a)
      (mirrors_expr hρ b (ho.inside (.operand (by simp [Expr.Node.operands]))))
  | ternary a b c =>
    exact (mirrors_expr hρ a (ho.inside (.operand (by simp [Expr.Node.operands])))).seq (adds_expr a)
      ((mirrors_expr hρ b (ho.inside (.operand (by simp [Expr.Node.operands])))).seq (adds_expr b)
        (mirrors_expr hρ c (ho.inside (.operand (by simp [Expr.Node.operands])))))
  | «variable» name => exact mirrors_readName hρ (ho.inside .variable)
  | assign name value =>
    exact (mirrors_expr hρ value (ho.inside (.operand (by simp [Expr.Node.operands])))).seq
      (adds_expr value) (mirrors_assign hρ (ho.inside .assign))
  | call callee args =>
    exact (mirrors_expr hρ callee (ho.inside (.operand (by simp [Expr.Node.operands])))).seq
      (adds_expr callee) (mirrors_exprs hρ args fun e he =>
        ho.inside (.operand (by simp [Expr.Node.operands, he])))
  | get object property =>
    exact mirrors_expr hρ object (ho.inside (.operand (by simp [Expr.Node.operands])))
  | set object property value =>
    exact (mirrors_expr hρ value (ho.inside (.operand (by simp [Expr.Node.operands])))).seq
      (adds_expr value) (mirrors_expr hρ object (ho.inside (.operand (by simp [Expr.Node.operands]))))
  | array elements =>
    exact mirrors_exprs hρ elements fun e he => ho.inside (.operand (by simp [Expr.Node.operands, he]))
  | index a b =>
    exact (mirrors_expr hρ a (ho.inside (.operand (by simp [Expr.Node.operands])))).seq (adds_expr a)
      (mirrors_expr hρ b (ho.inside (.operand (by simp [Expr.Node.operands]))))
  | indexSet a b c =>
    exact (mirrors_expr hρ a (ho.inside (.operand (by simp [Expr.Node.operands])))).seq (adds_expr a)
      ((mirrors_expr hρ b (ho.inside (.operand (by simp [Expr.Node.operands])))).seq (adds_expr b)
        (mirrors_expr hρ c (ho.inside (.operand (by simp [Expr.Node.operands])))))
  | lambda f => exact mirrors_function hρ .function f (ho.inside .lambda)
  | this => exact mirrors_receiver hρ (ho.inside .this)
  | super method => exact mirrors_superclass hρ (ho.inside .super)

theorem mirrors_exprs (hρ : ρ.Sound body) {π : Lexical.Place} (es : List Expr) (ho : ∀ e ∈ es, Occurs body π (.expr e)) :
    Mirrors ρ π (exprs es) (exprs (ρ.exprs (ρ.flags π) es)) := by
  cases es with
  | nil => exact .pure
  | cons e es =>
    obtain ⟨he, hes⟩ := List.forall_mem_cons.1 ho
    exact (mirrors_expr hρ e he).seq (adds_expr e) (mirrors_exprs hρ es hes)

theorem mirrors_function (hρ : ρ.Sound body) {π : Lexical.Place} (kind : FunctionContext) (f : Function)
    (ho : Occurs body π (.function kind f)) :
    Mirrors ρ π (function kind f) (function kind (ρ.function (ρ.flags π) f)) := by
  have hparams := hρ.parameter ho
  obtain ⟨name, params, statements, isGetter, span⟩ := f
  let f : Function := ⟨name, params, statements, isGetter, span⟩
  have hbody : Mirrors ρ (π.inFunction kind f) (stmts statements)
      (stmts (ρ.stmts (ρ.owns (Site.call f).locals :: ρ.flags π) statements)) :=
    mirrors_stmts hρ statements (ho.inside .body)
  let outer : Lexical.Place := { π with context := π.context.enterFunction kind }
  have hparameters : Mirrors ρ (outer.enter (.call f) []) _ _ :=
    mirrors_parameters (Place.settled_enter _ _) hparams
  refine .within (.inScope rfl .empty rfl (hparameters.bind (adds_parameters params) ?_ ?_ ?_
    hbody))
  · simp [outer, f, Place.names, Place.inFunction, Place.enter, Opening.names]
  · rfl
  · rfl

theorem mirrors_methods (hρ : ρ.Sound body) {π : Lexical.Place} (fs : List Function)
    (ho : ∀ f ∈ fs, Occurs body (π.inReceiver f) (.function (methodContext f) f)) :
    Mirrors ρ π (methods fs) (methods (ρ.functions (false :: ρ.flags π) fs)) := by
  cases fs with
  | nil => exact .pure
  | cons f fs =>
    obtain ⟨hf, hfs⟩ := List.forall_mem_cons.1 ho
    obtain ⟨hscope, hfresh⟩ := renamed_implicit hρ Name.not_plain_this
    have hmember : Mirrors ρ (π.enter (.receiver f) [Name.this]) _ _ :=
      mirrors_function hρ (methodContext f) f hf
    refine Mirrors.seq ?_ (.inScope (adds_function _ f)) (mirrors_methods hρ fs hfs)
    obtain ⟨name, params, statements, isGetter, span⟩ := f
    refine .inScope rfl ?_ hfresh hmember
    exact hscope

theorem mirrors_staticMethods (hρ : ρ.Sound body) {π : Lexical.Place} (fs : List Function)
    (ho : ∀ f ∈ fs, Occurs body π (.function .staticMethod f)) :
    Mirrors ρ π (staticMethods fs) (staticMethods (ρ.functions (ρ.flags π) fs)) := by
  cases fs with
  | nil => exact .pure
  | cons f fs =>
    obtain ⟨hf, hfs⟩ := List.forall_mem_cons.1 ho
    exact (mirrors_function hρ .staticMethod f hf).seq (adds_function _ f)
      (mirrors_staticMethods hρ fs hfs)

theorem mirrors_stmts (hρ : ρ.Sound body) {π : Lexical.Place} (ss : List Stmt) (ho : Occurs body π (.stmts ss)) :
    Mirrors ρ π (stmts ss) (stmts (ρ.stmts (ρ.flags π) ss)) := by
  cases ss with
  | nil => exact .pure
  | cons s ss =>
    have hwellFormed := ho.wellFormed hρ.wellFormed
    have hrest := mirrors_stmts hρ ss (ho.inside .rest)
    rw [Renaming.flags_after] at hrest
    exact (mirrors_stmt hρ s (ho.inside .first)).bind (adds_stmt s)
      (Place.names_after ho.fits hwellFormed.1) (Place.context_after π s)
      (Renaming.flags_after s) hrest

/-- Statement by statement the walk through the renamed program mirrors the one through the program;
which names are renamed in a part is told by the scopes around it. -/
theorem mirrors_stmt (hρ : ρ.Sound body) {π : Lexical.Place} (s : Stmt) (ho : Occurs body π (.stmt s)) :
    Mirrors ρ π (stmt s) (stmt (ρ.stmt (ρ.flags π) s)) := by
  obtain ⟨span, node⟩ := s
  have hπ : π.Settled := ho.fits
  have hwellFormed := ho.wellFormed hρ.wellFormed
  cases node with
  | expression e => exact mirrors_expr hρ e (ho.inside .expression)
  | print e => exact mirrors_expr hρ e (ho.inside .print)
  | varDecl name init =>
    obtain ⟨hne, hname⟩ := hρ.declared ho
    have hspan : (ρ.declared (ρ.flags π) name).span = name.span := Renaming.span_declared _ _
    cases init with
    | none => exact .declaring hname hne hspan hπ .pure .pure true
    | some e =>
      have he := mirrors_expr hρ e (ho.inside .initializer)
      rw [Renaming.flags_initializing] at he
      exact .declaring hname hne hspan hπ (adds_expr e) he true
  | block statements =>
    exact .inScope rfl .empty rfl (mirrors_stmts hρ statements (ho.inside .block))
  | ifElse condition yes no =>
    rw [stmt_ifElse, Renaming.stmt_ifElse, stmt_ifElse]
    obtain ⟨-, ⟨hdeclares, hyes⟩, -⟩ := Stmt.wellFormed_ifElse.1 hwellFormed
    have hadds := adds_stmt yes
    rw [yes.declared_eq_nil hyes hdeclares] at hadds
    refine (mirrors_expr hρ condition (ho.inside .ifCondition)).seq (adds_expr condition)
      ((mirrors_stmt hρ yes (ho.inside .ifYes)).seq hadds ?_)
    cases no with
    | none => exact .pure
    | some no => exact mirrors_stmt hρ no (ho.inside .ifNo)
  | «while» condition loop =>
    exact (mirrors_expr hρ condition (ho.inside .whileCondition)).seq (adds_expr condition)
      (.within (mirrors_stmt hρ loop (ho.inside .whileBody)))
  | «for» init condition step loop =>
    let inner := π.enter (.stmt ⟨span, .for init condition step loop⟩) []
    have hinner : inner.Settled := Place.settled_enter _ _
    have hflags : ρ.flags (inner.afterClause init) =
        ρ.owns (init.toList.flatMap Stmt.variables) :: ρ.flags π :=
      Renaming.flags_afterClause init
    have hinit : Mirrors ρ inner (optional stmt init) (optional stmt (init.map (ρ.stmt
        (ρ.owns (init.toList.flatMap Stmt.variables) :: ρ.flags π)))) := by
      cases init with
      | none => exact .pure
      | some s => exact mirrors_stmt hρ s (ho.inside .forInit)
    have hcondition : Mirrors ρ (inner.afterClause init) (optional expr condition)
        (optional expr (condition.map (ρ.expr (ρ.flags (inner.afterClause init))))) := by
      cases condition with
      | none => exact .pure
      | some e => exact mirrors_expr hρ e (ho.inside .forCondition)
    have hstep : Mirrors ρ (inner.afterClause init) (optional expr step)
        (optional expr (step.map (ρ.expr (ρ.flags (inner.afterClause init))))) := by
      cases step with
      | none => exact .pure
      | some e => exact mirrors_expr hρ e (ho.inside .forStep)
    have hloop : Mirrors ρ (inner.afterClause init) (within .loop (stmt loop))
        (within .loop (stmt (ρ.stmt (ρ.flags (inner.afterClause init)) loop))) :=
      .within (mirrors_stmt hρ loop (ho.inside .forBody))
    rw [hflags] at hcondition hstep hloop
    rw [stmt_for, Renaming.stmt_for, stmt_for]
    refine .inScope rfl .empty rfl (hinit.bind (adds_firstClause init)
      (Place.names_afterClause hinner (Stmt.wellFormed_for.1 hwellFormed).1)
      (Place.context_afterClause inner init) (Renaming.flags_afterClause init)
      (hcondition.seq (adds_clause condition) (hstep.seq (adds_clause step) hloop)))
  | «break» => exact mirrors_loopControl span .break
  | «continue» => exact mirrors_loopControl span .continue
  | funDecl f =>
    obtain ⟨hne, hname⟩ := hρ.other ho rfl f.name (List.mem_singleton_self _)
    have hf := mirrors_function hρ .function f (ho.inside .funDecl)
    rw [Renaming.flags_declare] at hf
    obtain ⟨name, params, statements, isGetter, fspan⟩ := f
    exact (mirrors_introduce hname.symm hne rfl hπ true).bind (adds_introduce name true)
      (Place.names_declare hπ _) rfl (Renaming.flags_declare _) hf
  | «return» value =>
    rw [stmt_return, Renaming.stmt_return, stmt_return]
    refine (mirrors_returnAt span).seq (adds_returnAt span) ?_
    cases value with
    | none => exact .pure
    | some e =>
      exact (mirrors_returnValueAt span).seq (adds_returnValueAt span)
        (mirrors_expr hρ e (ho.inside .returnValue))
  | classDecl name superclass traits ms ss =>
    obtain ⟨hne, hname⟩ := hρ.other ho rfl name (List.mem_singleton_self _)
    have hdeclare := mirrors_introduce hname.symm hne rfl hπ true
    have htraits := mirrors_references hρ fun r hr => ho.inside (.trait hr)
    have hms := mirrors_methods hρ ms fun f hf => ho.inside (.method hf)
    have hss := mirrors_staticMethods hρ ss fun f hf => ho.inside (.static hf)
    rw [Renaming.flags_declare] at htraits
    have members := hms.seq (adds_methods ms) hss
    cases superclass with
    | none =>
      rw [Renaming.flags_inClass_none] at members
      exact hdeclare.bind (adds_introduce name true) (Place.names_declare hπ _) rfl
        (Renaming.flags_declare _) (htraits.seq (adds_references traits) (.within members))
    | some r =>
      let s : Stmt := ⟨span, .classDecl name (some r) traits ms ss⟩
      let π' : Lexical.Place := { π.declare name.name with context := π.context.enterClass .subclass }
      obtain ⟨hscope, hfresh⟩ := renamed_implicit hρ Name.not_plain_super
      rw [Renaming.flags_inClass_some] at members
      have members : Mirrors ρ (π'.enter (.stmt s) [Name.super]) (do methods ms; staticMethods ss)
          (do methods (ρ.functions (false :: false :: ρ.flags π) ms);
              staticMethods (ρ.functions (false :: ρ.flags π) ss)) := members
      have check : Mirrors ρ (π.declare name.name) (checkSuperclass name r.name)
          (checkSuperclass name (ρ.use (ρ.flags π) r.id r.name)) := mirrors_checkSuperclass hne
      have hr := mirrors_readName hρ (ho.inside .superclass)
      rw [Renaming.flags_declare] at hr
      rw [stmt_subclass, Renaming.stmt_subclass, stmt_subclass]
      refine hdeclare.bind (adds_introduce name true) (Place.names_declare hπ _) rfl
        (Renaming.flags_declare _) (check.seq (adds_checkSuperclass name r.name)
          (hr.seq (adds_readName r.id r.name) (htraits.seq (adds_references traits)
            (.within (.inScope rfl ?_ hfresh members)))))
      exact hscope
  | traitDecl name ms ss =>
    obtain ⟨hne, hname⟩ := hρ.other ho rfl name (List.mem_singleton_self _)
    have hms := mirrors_methods hρ ms fun f hf => ho.inside (.traitMethod hf)
    have hss := mirrors_staticMethods hρ ss fun f hf => ho.inside (.traitStatic hf)
    rw [Renaming.flags_inTrait] at hms hss
    exact (mirrors_introduce hname.symm hne rfl hπ true).bind (adds_introduce name true)
      (Place.names_declare hπ _) rfl (Renaming.flags_declare _)
      (.within (hms.seq (adds_methods ms) hss))

end

/-- A program whose local has another name is accepted with the same distances. -/
theorem ofProgram_renamed (hρ : ρ.Sound body) {r : Resolution} (hr : ofProgram body = .ok r) :
    ∃ r', ofProgram (ρ.program body) = .ok r' ∧ r'.distances = r.distances ∧
      List.Forall₂ (Warning.Renamed ρ) r.warnings r'.warnings := by
  unfold ofProgram at hr ⊢
  split at hr
  · next t ht =>
    cases hr
    obtain ⟨t', ht', hrenamed⟩ := mirrors_stmts hρ body .program _ _ t at_program
      ⟨.nil, rfl, .nil, rfl⟩ ht
    refine ⟨⟨t'.distances, t'.warnings⟩, ?_, hrenamed.distances, hrenamed.warnings⟩
    rw [Renaming.program]
    rw [Renaming.flags_program] at ht'
    rw [ht']
  · cases hr

end Resolution

end Lox

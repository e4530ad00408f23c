import Lox.Proofs.Rename.Local

/-!
# Programs and their renamings side by side

While a renamed program runs, what was there before it still means what it meant.  So two kinds of
code are run: that of the program, in which the local has its other name, and older code, in which
nothing has.  Both are translated, one by the renaming and the other by the one that changes nothing:

    ρ.still.function Γ f = f                                                     (function_still)

What matters to a run is where translated names are looked for, as the machine knows (`ρ.hops`), and
which names they are declared by (`Translates`).
-/

namespace Lox

open Lexical

namespace Renaming

variable {ρ σ : Renaming} {body : List Stmt}

/-! ## No renaming -/

section Still

variable (ρ)

@[simp] theorem linked_still (scopes : List Bool) (id : ExprId) :
    ρ.still.linked scopes id = false := rfl

@[simp] theorem use_still (scopes : List Bool) (id : ExprId) (name : Identifier) :
    ρ.still.use scopes id name = name := by
  unfold use
  rw [linked_still, rename_false]

@[simp] theorem reference_still (scopes : List Bool) (r : Reference) :
    ρ.still.reference scopes r = r := by
  unfold reference
  rw [use_still]

@[simp] theorem references_still (scopes : List Bool) (rs : List Reference) :
    rs.map (ρ.still.reference scopes) = rs := by
  induction rs with
  | nil => rfl
  | cons r rs ih => rw [List.map_cons, reference_still, ih]

@[simp] theorem binder_still (name : Identifier) : ρ.still.binder name = name := rfl

@[simp] theorem declared_still (scopes : List Bool) (name : Identifier) :
    ρ.still.declared scopes name = name := by
  unfold declared
  rw [binder_still, ite_self]

@[simp] theorem owns_still (names : List Identifier) : ρ.still.owns names = false := by
  simp [owns, still]

theorem binders_still (names : List Identifier) : names.map ρ.still.binder = names :=
  List.map_id names

mutual

theorem expr_still (scopes : List Bool) (e : Expr) : ρ.still.expr scopes e = e := by
  obtain ⟨id, span, node⟩ := e
  cases node with
  | literal value => rfl
  | group e => simp [expr, expr_still]
  | binary op a b => simp [expr, expr_still]
  | unary op e => simp [expr, expr_still]
  | logical op a b => simp [expr, expr_still]
  | ternary a b c => simp [expr, expr_still]
  | «variable» name => simp [expr]
  | assign name value => simp [expr, expr_still]
  | call callee args => simp [expr, expr_still, exprs_still]
  | get object property => simp [expr, expr_still]
  | set object property value => simp [expr, expr_still]
  | array elements => simp [expr, exprs_still]
  | index a b => simp [expr, expr_still]
  | indexSet a b c => simp [expr, expr_still]
  | lambda f => simp [expr, function_still]
  | this => rfl
  | super method => rfl

theorem exprs_still (scopes : List Bool) (es : List Expr) : ρ.still.exprs scopes es = es := by
  cases es with
  | nil => rfl
  | cons e es => rw [exprs, expr_still, exprs_still]

theorem function_still (scopes : List Bool) (f : Function) : ρ.still.function scopes f = f := by
  obtain ⟨name, params, body, isGetter, span⟩ := f
  rw [function, binders_still, stmts_still]

theorem functions_still (scopes : List Bool) (fs : List Function) :
    ρ.still.functions scopes fs = fs := by
  cases fs with
  | nil => rfl
  | cons f fs => rw [functions, function_still, functions_still]

theorem stmt_still (scopes : List Bool) (s : Stmt) : ρ.still.stmt scopes s = s := by
  obtain ⟨span, node⟩ := s
  cases node with
  | expression e => simp [stmt, expr_still]
  | print e => simp [stmt, expr_still]
  | varDecl name init => cases init <;> simp [stmt, expr_still]
  | block body => simp [stmt, stmts_still]
  | ifElse condition yes no => cases no <;> simp [stmt, expr_still, stmt_still]
  | «while» condition body => simp [stmt, expr_still, stmt_still]
  | «for» init condition step body =>
    cases init <;> cases condition <;> cases step <;> simp [stmt, expr_still, stmt_still]
  | «break» => rfl
  | «continue» => rfl
  | funDecl f => simp [stmt, function_still]
  | «return» value => cases value <;> simp [stmt, expr_still]
  | classDecl name superclass traits methods statics =>
    cases superclass <;> simp [stmt, functions_still]
  | traitDecl name methods statics => simp [stmt, functions_still]

theorem stmts_still (scopes : List Bool) (ss : List Stmt) : ρ.still.stmts scopes ss = ss := by
  cases ss with
  | nil => rfl
  | cons s ss => rw [stmts, stmt_still, stmts_still]

end

end Still

/-! ## Translations -/

/-- Two names for a use stand for each other in the scope where a machine looks for them, if it is
not a global. -/
structure Links (ρ : Renaming) (scopes : List Bool) (id : ExprId) (name name' : String) : Prop where
  linked : ∀ hops, ρ.hops id = some hops → ∃ own, scopes[hops]? = some own ∧
    ρ.Names own name name'
  global : ρ.hops id = none → name = name'

theorem Links.exists_rename {scopes : List Bool} {id : ExprId} {name name' : String}
    (h : ρ.Links scopes id name name') : ∃ own, name' = ρ.rename own name := by
  cases hhops : ρ.hops id with
  | none => exact ⟨false, by rw [rename_false, h.global hhops]⟩
  | some hops =>
    obtain ⟨own, -, hn⟩ := h.linked hops hhops
    exact ⟨own, hn.eq⟩

/-- The names of a program and those that `σ` gives it stand for each other. -/
structure Translates (ρ σ : Renaming) (body : List Stmt) : Prop where
  links : ∀ {π id name reads}, Occurs body π (.use id name reads) →
    ρ.Links (σ.flags π) id name (σ.rename (σ.linked (σ.flags π) id) name)
  declared : ∀ {π span name init}, Occurs body π (.stmt ⟨span, .varDecl name init⟩) →
    ρ.Names ((σ.flags π).headD false) name.name (σ.declared (σ.flags π) name).name
  parameter : ∀ {π kind f}, Occurs body π (.function kind f) → ∀ p ∈ f.params,
    ρ.Names (σ.owns (Site.call f).locals) p.name (σ.binder p).name
  other : ∀ {π s}, Occurs body π (.stmt s) → s.variables = [] → ∀ name ∈ s.declarations,
    ρ.Names ((σ.flags π).headD false) name.name name.name

/-- A renaming that is right, on a machine that knows the program. -/
theorem Sound.translates (h : σ.Sound body) {known : ExprId → Option Nat}
    (hknown : ∀ {π id name reads}, Occurs body π (.use id name reads) →
      known id = π.distance? name) : Translates { σ with hops := known } σ body where
  links ho := by
    refine ⟨fun hops hhops => ?_, fun hhops => ?_⟩
    · have hd := (hknown ho).symm.trans hhops
      exact ⟨_, h.linked ho hd, rfl, fun _ => h.used ho⟩
    · have hd := (hknown ho).symm.trans hhops
      rw [Renaming.linked, h.hops ho, hd]
      exact (rename_false _).symm
  declared ho := ⟨(h.declared ho).2, fun _ => (h.declared ho).1⟩
  parameter ho p hp := ⟨(h.parameter ho p hp).2, fun _ => (h.parameter ho p hp).1⟩
  other ho hv name hn := ⟨(h.other ho hv name hn).2.symm, fun _ => (h.other ho hv name hn).1⟩

theorem headD_flags_still (π : Lexical.Place) : (ρ.still.flags π).headD false = false := by
  rw [flags_headD]
  cases π.site? with
  | none => rfl
  | some site => exact owns_still ρ site.locals

theorem translates_still (hknown : ∀ {π id name reads}, Occurs body π (.use id name reads) →
    ρ.hops id = π.distance? name) : Translates ρ ρ.still body where
  links ho := by
    rw [linked_still, rename_false]
    refine ⟨fun hops hhops => ⟨false, ?_, .other _⟩, fun _ => rfl⟩
    obtain ⟨o, hopening, -⟩ :=
      Place.exists_opening_of_distance? ((hknown ho).symm.trans hhops)
    rw [flags, List.getElem?_map, hopening, Option.map_some, owns_still]
  declared _ := by
    rw [declared_still, headD_flags_still]
    exact .other _
  parameter _ _ _ := by
    rw [owns_still, binder_still]
    exact .other _
  other _ _ _ _ := by
    rw [headD_flags_still]
    exact .other _

end Renaming

open Renaming (Translates)

/-- A function of a program and its translation, in scopes of which it is known whether the local
belongs to them. -/
inductive Function.Translated (ρ : Renaming) : List Bool → Function → Function → Prop
  | mk {σ : Renaming} {body : List Stmt} {π : Lexical.Place} {kind : Resolution.FunctionContext}
      {f : Function} : Translates ρ σ body → Occurs body π (.function kind f) →
      Function.Translated ρ (σ.flags π) f (σ.function (σ.flags π) f)

namespace Function.Translated

variable {ρ : Renaming} {Γ : List Bool} {f f' : Function}

theorem name (h : Function.Translated ρ Γ f f') : f'.name = f.name := by
  obtain ⟨-, -⟩ := h
  rw [Renaming.function_eq]

theorem arity (h : Function.Translated ρ Γ f f') : f'.arity = f.arity := by
  obtain ⟨-, -⟩ := h
  rw [Renaming.function_eq, arity, List.length_map, arity]

theorem isGetter (h : Function.Translated ρ Γ f f') : f'.isGetter = f.isGetter := by
  obtain ⟨-, -⟩ := h
  rw [Renaming.function_eq]

theorem isEmpty (h : Function.Translated ρ Γ f f') : f'.body.isEmpty = f.body.isEmpty := by
  obtain ⟨-, -⟩ := h
  rw [Renaming.function_eq, Renaming.stmts_eq_map, List.isEmpty_map]

theorem returnsDirectly (h : Function.Translated ρ Γ f f') :
    f'.returnsDirectly = f.returnsDirectly := by
  obtain ⟨-, -⟩ := h
  rw [Renaming.function_eq, Function.returnsDirectly, Renaming.stmts_eq_map, List.any_map]
  congr 1
  funext s
  obtain ⟨span, node⟩ := s
  cases node with
  | ifElse condition yes no => rw [Function.comp_apply, Renaming.stmt_ifElse]
  | «for» init condition step body => rw [Function.comp_apply, Renaming.stmt_for]
  | classDecl name superclass => cases superclass <;> rfl
  | _ => rfl

end Function.Translated

end Lox

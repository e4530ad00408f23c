import Lox.Proofs.Scope.Accepted

/-!
# Places in members

What lies in a member of a class, and in no class or trait that is nested in that, has the scopes of
the member around it: those that are open in its body, then that of `this` if it is an instance
member, then that of `super` if the class has a superclass.  Between the place and the two there are
only names that programs declare, so both are found where the member has them:

    π.distance? Name.super = some k        π.distance? Name.this = some (k - 1)
                                                     (InMember.method_scopes, InMember.static_scopes)
-/

namespace Lox.Lexical

open Resolution

/-! ## Parts of a member -/

/-- The part is a member of a class or trait. -/
def Node.IsMember : Node → Prop
  | .function kind _ => kind ≠ .function
  | _ => False

/-- A part lies within another, and within no member of a class or trait nested in that. -/
inductive Within (π₀ : Place) (n₀ : Node) : Place → Node → Prop
  | self : Within π₀ n₀ π₀ n₀
  | inside {π π' : Place} {n n' : Node} :
      Within π₀ n₀ π n → Inside π n π' n' → ¬n'.IsMember → Within π₀ n₀ π' n'

/-- The part lies in the member `f` of the class or trait that `s` declares, which is the innermost
one around it. -/
structure InMember (body : List Stmt) (s : Stmt) (π₀ : Place) (kind : FunctionContext)
    (f : Function) (π : Place) (n : Node) : Prop where
  declared : Occurs body π₀ (.stmt s)
  member : ∃ π₁, Inside π₀ (.stmt s) π₁ (.function kind f) ∧ kind ≠ .function ∧
    Within π₁ (.function kind f) π n

variable {body : List Stmt} {s : Stmt} {kind : FunctionContext} {f : Function}
  {π₀ π π' : Place} {n n' : Node}

theorem methodContext_ne_function (f : Function) : methodContext f ≠ .function := by
  unfold methodContext
  split <;> decide

theorem methodContext_ne_static (f : Function) : methodContext f ≠ .staticMethod := by
  unfold methodContext
  split <;> decide

/-- Only members are in a class or trait of their own. -/
theorem Inside.owner_eq (h : Inside π n π' n') (hn : ¬n'.IsMember) :
    π'.context.owner = π.context.owner := by
  cases h with
  | rest =>
    unfold Place.after
    split <;> rfl
  | forCondition | forStep | forBody =>
    unfold Place.afterClause Place.after
    split
    · split <;> rfl
    · rfl
  | method | traitMethod => exact absurd (methodContext_ne_function _) hn
  | static | traitStatic => exact absurd (fun h => by cases h) hn
  | _ => rfl

/-- What lies in some class or trait lies in a member of it. -/
theorem Occurs.inMember (h : Occurs body π n) (ho : π.context.owner ≠ .none) :
    ∃ s π₀ kind f, InMember body s π₀ kind f π n := by
  induction h with
  | program => exact absurd rfl ho
  | @inside π π' n n' hn hi ih =>
    by_cases hm : n'.IsMember
    · cases n' with
      | function kind f =>
        cases hi with
        | lambda | funDecl => exact absurd rfl hm
        | method hf => exact ⟨_, π, _, _, hn, _, .method hf, hm, .self⟩
        | static hf => exact ⟨_, π, _, _, hn, _, .static hf, hm, .self⟩
        | traitMethod hf => exact ⟨_, π, _, _, hn, _, .traitMethod hf, hm, .self⟩
        | traitStatic hf => exact ⟨_, π, _, _, hn, _, .traitStatic hf, hm, .self⟩
      | _ => exact absurd hm id
    · rw [hi.owner_eq hm] at ho
      obtain ⟨s, π₀, kind, f, hs, π₁, hi₁, hkind, hw⟩ := ih ho
      exact ⟨s, π₀, kind, f, hs, π₁, hi₁, hkind, hw.inside hi hm⟩

theorem Within.owner_eq {n₀ : Node} (h : Within π₀ n₀ π n) :
    π.context.owner = π₀.context.owner := by
  induction h with
  | self => rfl
  | inside _ hi hn ih => rw [hi.owner_eq hn, ih]

/-! ## Scopes in a body -/

/-- Inside the body of `f` its scope is open, and perhaps others in that, all with names that
programs can declare. -/
def Place.InBody (f : Function) (around : List Opening) (π : Place) : Prop :=
  ∃ inner o, π.openings = inner ++ o :: around ∧ o.site = .call f ∧
    (∀ name ∈ o.names, Name.Plain name) ∧ ∀ o' ∈ inner, ∀ name ∈ o'.names, Name.Plain name

namespace Place.InBody

variable {around : List Opening}

theorem modifyInnermost (h : π.InBody f around) {g : Opening → Opening}
    (hsite : ∀ o, (g o).site = o.site)
    (hg : ∀ o, (∀ name ∈ o.names, Name.Plain name) → ∀ name ∈ (g o).names, Name.Plain name) :
    (π.modifyInnermost g).InBody f around := by
  obtain ⟨inner, o, hopenings, ho, hplain, hinner⟩ := h
  cases inner with
  | nil =>
    refine ⟨[], g o, ?_, (hsite o).trans ho, hg o hplain, hinner⟩
    rw [Place.modifyInnermost, hopenings]
    rfl
  | cons o' inner =>
    obtain ⟨hfirst, hrest⟩ := List.forall_mem_cons.1 hinner
    refine ⟨g o' :: inner, o, ?_, ho, hplain, List.forall_mem_cons.2 ⟨hg o' hfirst, hrest⟩⟩
    rw [Place.modifyInnermost, hopenings]
    rfl

theorem declare (h : π.InBody f around) {name : String} (hn : Name.Plain name) :
    (π.declare name).InBody f around := by
  refine h.modifyInnermost (fun _ => rfl) fun o ho other hother => ?_
  simp only [Opening.names, Opening.declare, Option.toList_none, List.append_nil,
    List.mem_append, List.mem_singleton] at hother
  rcases hother with hready | rfl
  · exact ho other (List.mem_append_left _ hready)
  · exact hn

theorem initializing (h : π.InBody f around) {name : String} (hn : Name.Plain name) :
    (π.initializing name).InBody f around := by
  refine h.modifyInnermost (fun _ => rfl) fun o ho other hother => ?_
  rcases List.mem_append.1 hother with hready | hpending
  · exact ho other (List.mem_append_left _ hready)
  · cases Option.mem_toList.1 hpending
    exact hn

theorem enter (h : π.InBody f around) (site : Site) {names : List String}
    (hn : ∀ name ∈ names, Name.Plain name) : (π.enter site names).InBody f around := by
  obtain ⟨inner, o, hopenings, ho, hplain, hinner⟩ := h
  refine ⟨⟨site, names, none⟩ :: inner, o, ?_, ho, hplain, List.forall_mem_cons.2 ⟨?_, hinner⟩⟩
  · rw [Place.enter, hopenings]
    rfl
  · simpa [Opening.names] using hn

theorem after (h : π.InBody f around) {s : Stmt} (hs : s.WellFormed) :
    (π.after s).InBody f around := by
  obtain ⟨span, node⟩ := s
  cases node with
  | varDecl => exact h.declare (Stmt.wellFormed_varDecl.1 hs).1
  | classDecl | traitDecl | funDecl => exact h.declare hs.1
  | _ => exact h

theorem afterClause (h : π.InBody f around) {init : Option Stmt}
    (hs : ∀ s ∈ init, s.isClause = true ∧ s.WellFormed) :
    (π.afterClause init).InBody f around := by
  cases init with
  | none => exact h
  | some s => exact h.after (hs s rfl).2

end Place.InBody

/-- Further inside the scopes of the body stay open. -/
theorem Inside.inBody {around : List Opening} (h : Inside π n π' n') (hn : n.WellFormed)
    (hm : ¬n'.IsMember) (hπ : π.InBody f around) : π'.InBody f around := by
  cases h with
  | rest => exact hπ.after hn.1
  | @body _ g =>
    have hg : g.WellFormed := hn
    refine hπ.enter (.call g) fun name hname => ?_
    obtain ⟨p, hp, rfl⟩ := List.mem_map.1 hname
    exact (Function.wellFormed_iff.1 hg).1 p hp
  | initializer =>
    rw [Node.WellFormed, Stmt.wellFormed_varDecl] at hn
    exact hπ.initializing hn.1
  | block => exact hπ.enter _ (fun _ h => by cases h)
  | forInit => exact hπ.enter _ (fun _ h => by cases h)
  | forCondition | forStep | forBody =>
    exact (hπ.enter _ (fun _ h => by cases h)).afterClause (Stmt.wellFormed_for.1 hn).1
  | funDecl => exact hπ.declare hn.1
  | superclass | trait => exact hπ.declare hn.1
  | method | traitMethod => exact absurd (methodContext_ne_function _) hm
  | static | traitStatic => exact absurd (fun h => by cases h) hm
  | _ => exact hπ

/-- Within a function there is the function itself, and what lies in its body. -/
theorem Within.inBody (h : Within π₀ (.function kind f) π n) (hf : f.WellFormed) :
    n = .function kind f ∧ π = π₀ ∨ n.WellFormed ∧ π.InBody f π₀.openings := by
  induction h with
  | self => exact .inl ⟨rfl, rfl⟩
  | inside _ hi hm ih =>
    rcases ih with ⟨rfl, rfl⟩ | ⟨hn, hπ⟩
    · refine .inr ⟨hi.wellFormed hf, ?_⟩
      cases hi with
      | body =>
        refine ⟨[], _, rfl, rfl, fun name hname => ?_, fun _ h => by cases h⟩
        rw [Opening.names, Option.toList_none, List.append_nil] at hname
        obtain ⟨p, hp, rfl⟩ := List.mem_map.1 hname
        exact (Function.wellFormed_iff.1 hf).1 p hp
    · exact .inr ⟨hi.wellFormed hn, hi.inBody hn hm hπ⟩

/-- Names that no program can declare are found around the body. -/
theorem Place.InBody.exists_depth {around : List Opening} (h : π.InBody f around) :
    ∃ k, (∃ o, π.openings[k]? = some o ∧ o.site = .call f) ∧
      (∀ i, π.openings[k + 1 + i]? = around[i]?) ∧ ∀ name, ¬Name.Plain name →
        π.distance? name = (around.findIdx? fun o => name ∈ o.names).map (k + 1 + ·) := by
  obtain ⟨inner, o, hopenings, ho, hplain, hinner⟩ := h
  refine ⟨inner.length, ⟨o, by simp [hopenings], ho⟩, fun i => ?_, fun name hn => ?_⟩
  · rw [hopenings, List.getElem?_append_right (by omega),
      show inner.length + 1 + i - inner.length = i + 1 by omega, List.getElem?_cons_succ]
  · have hnone : inner.findIdx? (fun o => name ∈ o.names) = none :=
      List.findIdx?_eq_none_iff.2 fun o' ho' => by
        simpa using fun hname => hn (hinner o' ho' name hname)
    have hfirst : name ∉ o.names := fun hname => hn (hplain name hname)
    rw [Place.distance?, hopenings, List.findIdx?_append, hnone, List.findIdx?_cons]
    simp only [hfirst, decide_false, Option.none_or]
    cases around.findIdx? fun o => name ∈ o.names with
    | none => rfl
    | some i => simp; omega

/-! ## Scopes of a member -/

/-- The scopes around a place in the member `f` of a class that `s` declares with a superclass: that
of the member is `k` scopes out, and further out those of `this` and `super`. -/
structure InMember.Scopes (s : Stmt) (kind : FunctionContext) (f : Function) (π : Place) (k : Nat) :
    Prop where
  call : ∃ o, π.openings[k]? = some o ∧ o.site = .call f
  static : kind = .staticMethod → π.distance? Name.super = some (k + 1) ∧
    π.openings[k + 1]? = some ⟨.stmt s, [Name.super], none⟩
  method : kind ≠ .staticMethod → π.distance? Name.this = some (k + 1) ∧
    π.distance? Name.super = some (k + 2) ∧
    π.openings[k + 1]? = some ⟨.receiver f, [Name.this], none⟩ ∧
    π.openings[k + 2]? = some ⟨.stmt s, [Name.super], none⟩

/-- Around a use of `super` there is a member of a class with a superclass. -/
theorem Occurs.super_scopes {id : ExprId} {span : Span} {name : Identifier} {r : Resolution}
    (h : Occurs body π (.expr ⟨id, span, .super name⟩)) (hb : Stmt.AllWellFormed body)
    (hr : ofProgram body = .ok r) :
    ∃ span' x c traits methods statics π₀ kind f k,
      InMember body ⟨span', .classDecl x (some c) traits methods statics⟩ π₀ kind f π
        (.expr ⟨id, span, .super name⟩) ∧
      InMember.Scopes ⟨span', .classDecl x (some c) traits methods statics⟩ kind f π k := by
  have howner := h.owner_eq_subclass hb hr
  obtain ⟨s, π₀, kind, f, hin⟩ := h.inMember (by rw [howner]; decide)
  obtain ⟨hs, π₁, hi, hkind, hw⟩ := hin
  have hf : f.WellFormed := hi.wellFormed (hs.wellFormed hb)
  rw [hw.owner_eq] at howner
  obtain ⟨⟨⟩, -⟩ | ⟨-, hbody⟩ := hw.inBody hf
  obtain ⟨k, hcall, hopenings, hdistance⟩ := hbody.exists_depth
  have hthis := hdistance Name.this Name.not_plain_this
  have hsuper := hdistance Name.super Name.not_plain_super
  have hfirst := hopenings 0
  have hsecond := hopenings 1
  cases hi with
  | funDecl => exact absurd rfl hkind
  | traitMethod | traitStatic => cases howner
  | @method span' x superclass traits methods statics _ hf =>
    cases superclass with
    | none => cases howner
    | some c =>
      refine ⟨_, _, _, _, _, _, _, _, _, k, ⟨hs, _, .method hf, hkind, hw⟩, hcall, ?_, ?_⟩
      · exact fun hstatic => absurd hstatic (methodContext_ne_static f)
      · exact fun _ => ⟨hthis, hsuper, hfirst, hsecond⟩
  | @static span' x superclass traits methods statics _ hf =>
    cases superclass with
    | none => cases howner
    | some c =>
      refine ⟨_, _, _, _, _, _, _, _, _, k, ⟨hs, _, .static hf, hkind, hw⟩, hcall, ?_, ?_⟩
      · exact fun _ => ⟨hsuper, hfirst⟩
      · exact fun hmethod => absurd rfl hmethod

end Lox.Lexical

import Lox.Proofs.Desugar.Place
import Lox.Proofs.Scope.Lawful

/-!
# Walking through desugared programs

A program and its desugaring consist of the same parts: those of the one have mates among those of
the other, and what the other has besides is idle, breaking no rule and declaring nothing.  Their
order differs, as a `for` has its step before its body.

    Beside D Γ π π' n → Matches D Γ (parts π n) (parts π' (D.node n))               (matches_parts)

Mates keep to the same rules, and their uses mean the same scopes.  So both programs are accepted or
neither is, and they are warned of the same.
-/

namespace Lox

open Lexical Resolution

namespace Desugaring

variable {D : Desugaring} {Γ Γ' : List Bool} {π π' ρ ρ' : Lexical.Place} {n m : Node}

/-! ## Rules -/

section Rules

variable (h : Aligned Γ π.openings π'.openings)

include h

theorem distance?_cases (name : String) :
    (π.distance? name = none ∧ π'.distance? name = none) ∨
      ∃ k k', π.distance? name = some k ∧ π'.distance? name = some k' ∧ Hops Γ k k' :=
  h.find_cases name

theorem isSome_distance? (name : String) :
    (π'.distance? name).isSome = (π.distance? name).isSome := by
  obtain ⟨hnone, hnone'⟩ | ⟨k, k', hk, hk', -⟩ := distance?_cases h name
  · rw [hnone, hnone']
  · rw [hk, hk']
    rfl

theorem innermost_eq (hΓ : Γ.head? ≠ some false) : π'.innermost = π.innermost := by
  unfold Place.innermost
  generalize π.openings = os at h
  generalize π'.openings = os' at h
  cases h with
  | nil => rfl
  | shared ho _ => exact ho.names.symm
  | extra s _ => exact absurd rfl hΓ

theorem openings_eq_nil_iff (hΓ : Γ.head? ≠ some false) :
    π'.openings = [] ↔ π.openings = [] := by
  generalize π.openings = os at h
  generalize π'.openings = os' at h
  cases h with
  | nil => exact Iff.rfl
  | shared ho _ => simp
  | extra s _ => exact absurd rfl hΓ

end Rules

theorem defers_expr {x : String} {e : Expr} (he : e.WellFormed) :
    Defers x (D.expr e) ↔ Defers x e := by
  unfold Defers
  rw [direct_expr]
  constructor
  · intro h before id y after hsplit hy
    have hb : ∀ a ∈ before, a.WellFormed := fun a ha =>
      e.wellFormed_direct he a (hsplit ▸ List.mem_append_left _ ha)
    rw [← readInLambda_action (D := D) x hb]
    exact h _ id y (after.map D.action) (by rw [hsplit, List.map_append]; rfl) hy
  · intro h before' id y after' hsplit hy
    obtain ⟨before, rest, hdirect, rfl, hrest⟩ := List.map_eq_append_iff.1 hsplit
    obtain ⟨a, after, rfl, ha, -⟩ := List.map_eq_cons_iff.1 hrest
    have hb : ∀ a ∈ before, a.WellFormed := fun a ha =>
      e.wellFormed_direct he a (hdirect ▸ List.mem_append_left _ ha)
    obtain rfl : a = .read id y := by cases a <;> first | exact ha | cases ha
    rw [readInLambda_action x hb]
    exact h before id y after hdirect hy

/-- A part breaks a rule just when what it is replaced by does. -/
theorem Beside.obeys_iff (h : Beside D Γ π π' n) : (D.node n).Obeys π' ↔ n.Obeys π := by
  have hc := h.context
  cases n with
  | stmts ss => exact Iff.rfl
  | use => exact Iff.rfl
  | function kind f =>
    show ((D.function f).params.map _).Nodup ↔ _
    rw [params_function]
    exact Iff.rfl
  | expr e =>
    obtain ⟨id, span, node⟩ := e
    cases node with
    | this =>
      show (π'.context.owner ≠ .none ∧ π'.context.inStatic = false ∧ _) ↔ _
      rw [isSome_distance? h.aligned, hc]
      exact Iff.rfl
    | super =>
      show π'.context.owner = .subclass ↔ _
      rw [hc]
      exact Iff.rfl
    | _ => exact Iff.rfl
  | stmt s =>
    obtain ⟨span, node⟩ := s
    have hΓ : (Node.stmt ⟨span, node⟩).isBare = false → Γ.head? ≠ some false := h.head_ne
    cases node with
    | ifElse condition yes no =>
      rw [Desugaring.node, stmt_ifElse]
      exact Iff.rfl
    | «for» init condition step body =>
      rw [Desugaring.node, stmt_for]
      split <;> exact Iff.rfl
    | «break» => exact not_congr (h.loops rfl)
    | «continue» => exact not_congr (h.loops rfl)
    | «return» value =>
      rw [Desugaring.node, stmt_return]
      show (π'.context.function ≠ .none ∧
        ((value.map D.expr).isSome → π'.context.function ≠ .initializer)) ↔ _
      rw [hc, Option.isSome_map]
      exact Iff.rfl
    | varDecl name init =>
      rw [Desugaring.node, stmt_varDecl]
      show (name.name ∉ π'.innermost ∧
        (π'.openings ≠ [] → ∀ e ∈ init.map D.expr, Defers name.name e)) ↔ _
      rw [innermost_eq h.aligned (hΓ rfl), Ne, openings_eq_nil_iff h.aligned (hΓ rfl)]
      refine and_congr Iff.rfl (imp_congr_right fun _ => ?_)
      cases init with
      | none => simp
      | some e => simpa using defers_expr h.wellFormed.2
    | funDecl f =>
      show (D.function f).name.name ∉ π'.innermost ↔ _
      rw [name_function, innermost_eq h.aligned (hΓ rfl)]
      exact Iff.rfl
    | classDecl name superclass traits ms ss =>
      show (name.name ∉ π'.innermost ∧ _) ↔ _
      rw [innermost_eq h.aligned (hΓ rfl)]
      exact Iff.rfl
    | traitDecl name ms ss =>
      show name.name ∉ π'.innermost ↔ _
      rw [innermost_eq h.aligned (hΓ rfl)]
      exact Iff.rfl
    | _ => exact Iff.rfl

/-! ## What names mean -/

/-- The scope that both sides have open in front of `more` is that many scopes out on both. -/
theorem hops_iff {more : List Bool} {k k' : Nat} (h : Hops (more ++ true :: Γ) k k') :
    k' = more.length ↔ k = more.count true := by
  induction more generalizing k k' with
  | nil =>
    cases h with
    | here => exact Iff.rfl
    | shared _ => exact iff_of_false (Nat.succ_ne_zero _) (Nat.succ_ne_zero _)
  | cons flag more ih =>
    cases h with
    | here => simp
    | shared h => simp [ih h]
    | extra h => simp [ih h]

/-- A name means a scope that both sides have open on both sides. -/
theorem means_iff {more : List Bool} (h : Aligned (more ++ true :: Γ) ρ.openings ρ'.openings)
    (x : String) : ρ'.Means x Γ.length ↔ ρ.Means x (Γ.count true) := by
  unfold Place.Means
  rw [h.length, h.length']
  obtain ⟨hnone, hnone'⟩ | ⟨k, k', hk, hk', hhops⟩ := distance?_cases h x
  · simp [hnone, hnone']
  · have := hops_iff hhops
    simp only [hk, hk', Option.some.injEq, exists_eq_left', List.length_append, List.length_cons,
      List.count_append, List.count_cons_self]
    omega

/-! ## Mates -/

/-- A part and what it is replaced by, at places both of which lie in the scopes `Γ`. -/
def Mate (D : Desugaring) (Γ : List Bool) (p p' : Lexical.Place × Node) : Prop :=
  p'.2 = D.node p.2 ∧ ∃ more, Beside D (more ++ Γ) p.1 p'.1 p.2

/-- A part of which nothing depends. -/
structure Idle (p : Lexical.Place × Node) : Prop where
  obeys : p.2.Obeys p.1
  isUse : p.2.isUse = false
  locals : p.2.locals = []

/-- What is found on both sides: mates, and on the other side idle parts besides. -/
inductive Matches (D : Desugaring) (Γ : List Bool) :
    List (Lexical.Place × Node) → List (Lexical.Place × Node) → Prop
  | nil : Matches D Γ [] []
  | mate {p p' : Lexical.Place × Node} {ps ps' : List (Lexical.Place × Node)} :
      D.Mate Γ p p' → Matches D Γ ps ps' → Matches D Γ (p :: ps) (p' :: ps')
  | idle {p' : Lexical.Place × Node} {ps ps' : List (Lexical.Place × Node)} :
      Idle p' → Matches D Γ ps ps' → Matches D Γ ps (p' :: ps')
  | perm {ps qs ps' qs' : List (Lexical.Place × Node)} :
      Matches D Γ ps ps' → ps.Perm qs → ps'.Perm qs' → Matches D Γ qs qs'

namespace Matches

variable {ps ps' qs qs' : List (Lexical.Place × Node)}

theorem append (h : Matches D Γ ps ps') (hq : Matches D Γ qs qs') :
    Matches D Γ (ps ++ qs) (ps' ++ qs') := by
  induction h with
  | nil => exact hq
  | mate hp _ ih => exact .mate hp ih
  | idle hp _ ih => exact .idle hp ih
  | perm _ hps hps' ih => exact ih.perm (hps.append_right _) (hps'.append_right _)

theorem weaken (inner : List Bool) (h : Matches D (inner ++ Γ) ps ps') : Matches D Γ ps ps' := by
  induction h with
  | nil => exact .nil
  | mate hp _ ih =>
    obtain ⟨heq, more, hb⟩ := hp
    exact .mate ⟨heq, more ++ inner, by rwa [List.append_assoc]⟩ ih
  | idle hp _ ih => exact .idle hp ih
  | perm _ hps hps' ih => exact ih.perm hps hps'

/-- The parts of parts that belong together. -/
theorem flatMap {α β : Type} {R : α → β → Prop} {as : List α} {bs : List β}
    {f : α → List (Lexical.Place × Node)} {g : β → List (Lexical.Place × Node)}
    (h : List.Forall₂ R as bs) (hfg : ∀ a ∈ as, ∀ b, R a b → Matches D Γ (f a) (g b)) :
    Matches D Γ (as.flatMap f) (bs.flatMap g) := by
  induction h with
  | nil => exact .nil
  | cons hab _ ih =>
    rw [List.flatMap_cons, List.flatMap_cons]
    exact (hfg _ List.mem_cons_self _ hab).append
      (ih fun a ha => hfg a (List.mem_cons_of_mem _ ha))

/-- Something idle behind. -/
theorem enclose (h : Matches D Γ ps ps') {p' : Lexical.Place × Node} (hp : Idle p') :
    Matches D Γ ps (ps' ++ [p']) :=
  (h.idle hp).perm (.refl ps) (List.perm_append_singleton p' ps').symm

end Matches

/-! ## The parts of both sides -/

/-- All that lies in the parts at any depth. -/
def partsIn (ps : List (Lexical.Place × Node)) : List (Lexical.Place × Node) :=
  ps.flatMap fun p => parts p.1 p.2

theorem parts_eq_partsIn (π : Lexical.Place) (n : Node) :
    parts π n = partsIn (n.inner π) ++ [(π, n)] := parts_eq π n

theorem partsIn_append (ps qs : List (Lexical.Place × Node)) :
    partsIn (ps ++ qs) = partsIn ps ++ partsIn qs := List.flatMap_append

theorem partsIn_singleton (p : Lexical.Place × Node) : partsIn [p] = parts p.1 p.2 :=
  List.flatMap_singleton ..

theorem partsIn_pair (p q : Lexical.Place × Node) :
    partsIn [p, q] = parts p.1 p.2 ++ parts q.1 q.2 := by
  rw [← List.singleton_append, partsIn_append, partsIn_singleton, partsIn_singleton]

namespace Matches

variable {ps qs : List (Lexical.Place × Node)} {span : Span} {s : Stmt} {ss : List Stmt}

theorem stmts_nil : Matches D Γ [] (parts π (.stmts [])) := by
  rw [parts_eq_partsIn]
  exact .enclose .nil ⟨trivial, rfl, rfl⟩

theorem stmts_cons (hs : Matches D Γ ps (parts π (.stmt s)))
    (hss : Matches D Γ qs (parts (π.after s) (.stmts ss))) :
    Matches D Γ (ps ++ qs) (parts π (.stmts (s :: ss))) := by
  rw [parts_eq_partsIn]
  refine .enclose ?_ ⟨trivial, rfl, rfl⟩
  exact (partsIn_pair _ _).symm ▸ hs.append hss

theorem literal {id : ExprId} {l : Literal} :
    Matches D Γ [] (parts π (.expr ⟨id, span, .literal l⟩)) := by
  rw [parts_eq_partsIn]
  exact .enclose .nil ⟨trivial, rfl, rfl⟩

theorem expression {e : Expr} (he : Matches D Γ ps (parts π (.expr e))) :
    Matches D Γ ps (parts π (.stmt ⟨span, .expression e⟩)) := by
  rw [parts_eq_partsIn]
  refine .enclose ?_ ⟨trivial, rfl, rfl⟩
  exact (partsIn_singleton _).symm ▸ he

theorem «while» {condition : Expr} {body : Stmt} (hc : Matches D Γ ps (parts π (.expr condition)))
    (hb : Matches D Γ qs (parts π.inLoop (.stmt body))) :
    Matches D Γ (ps ++ qs) (parts π (.stmt ⟨span, .while condition body⟩)) := by
  rw [parts_eq_partsIn]
  refine .enclose ?_ ⟨trivial, rfl, rfl⟩
  exact (partsIn_pair _ _).symm ▸ hc.append hb

/-- A block that declares nothing. -/
theorem block (hl : ss.flatMap Stmt.declarations = [])
    (hss : Matches D Γ ps (parts (π.enter (.stmt ⟨span, .block ss⟩) []) (.stmts ss))) :
    Matches D Γ ps (parts π (.stmt ⟨span, .block ss⟩)) := by
  rw [parts_eq_partsIn]
  refine .enclose ?_ ⟨trivial, rfl, hl⟩
  exact (partsIn_singleton _).symm ▸ hss

end Matches

section Loop

variable {span : Span} {init : Option Stmt} {condition step : Option Expr} {body : Stmt}
  (h : Beside D Γ π π' (.stmt ⟨span, .for init condition step body⟩))
  (ih : ∀ {Γ' ρ ρ' m}, Inside π (.stmt ⟨span, .for init condition step body⟩) ρ m →
    Beside D Γ' ρ ρ' m → Matches D Γ' (parts ρ m) (parts ρ' (D.node m)))

include h ih

/-- The step and the body of a loop, in its turns. -/
theorem Beside.matches_turn :
    let around := (π.enter (.stmt ⟨span, .for init condition step body⟩) []).afterClause init
    Matches D (true :: Γ)
      (partsIn (step.toList.map fun e => (around, .expr e)) ++ parts around.inLoop (.stmt body))
      (parts (D.atLoop span init condition step body π').inLoop
        (.stmt (turn (step.map D.expr) (D.stmt body)))) := by
  intro around
  obtain ⟨-, -, -, hdeclares, hb⟩ := Stmt.wellFormed_for.1 h.wellFormed
  have hbody : Matches D (true :: Γ) (parts around.inLoop (.stmt body))
      (parts (D.inTurn span init condition step body π') (.stmt (D.stmt body))) :=
    (ih .forBody h.loop_body).weaken [false]
  refine .block ?_ ?_
  · rw [List.flatMap_cons, declarations_stmt, declarations_eq_nil hb hdeclares]
    cases step <;> rfl
  · cases step with
    | none => exact (hbody.stmts_cons .stmts_nil).perm List.perm_append_comm (.refl _)
    | some e =>
      have hstep := (ih .forStep h.loop_step).weaken [false]
      have hafter : (D.inTurn span init condition (some e) body π').after (D.stmt body) =
          D.inTurn span init condition (some e) body π' :=
        after_of_not_isDeclaration ((isDeclaration_stmt body).trans hdeclares) _
      refine (hbody.stmts_cons (.stmts_cons (.expression ?_) .stmts_nil)).perm
        List.perm_append_comm (.refl _)
      rw [hafter]
      exact hstep

/-- The parts of a loop and those of the block that it is replaced by. -/
theorem Beside.matches_loop (hr : D.replaces span init condition step body = true) :
    Matches D (true :: Γ)
      (partsIn (Node.inner π (.stmt ⟨span, .for init condition step body⟩)))
      (partsIn (Node.inner π' (.stmt (D.stmt ⟨span, .for init condition step body⟩)))) := by
  let around := (π.enter (.stmt ⟨span, .for init condition step body⟩) []).afterClause init
  have hloop : Matches D (true :: Γ)
      (partsIn (condition.toList.map fun e => (around, .expr e)) ++
        (partsIn (step.toList.map fun e => (around, .expr e)) ++ parts around.inLoop (.stmt body)))
      (parts (D.atLoop span init condition step body π')
        (.stmts [D.whileLoop span (condition.map D.expr) (step.map D.expr) (D.stmt body)])) := by
    refine .perm (.stmts_cons (.while ?_ (h.matches_turn ih)) .stmts_nil)
      (.of_eq (List.append_nil _)) (.refl _)
    cases condition with
    | none => exact .literal
    | some e => exact (partsIn_singleton _).symm ▸ ih .forCondition h.loop_condition
  have hinner : partsIn (Node.inner π' (.stmt (D.stmt ⟨span, .for init condition step body⟩))) =
      parts (D.inBlock span init condition step body π') (.stmts ((init.map D.stmt).toList ++
        [D.whileLoop span (condition.map D.expr) (step.map D.expr) (D.stmt body)])) := by
    unfold inBlock
    rw [stmt_for_of_replaces hr]
    exact partsIn_singleton _
  rw [hinner]
  dsimp only [Node.inner, Node.innerStmt]
  rw [partsIn_append, partsIn_append, partsIn_append, partsIn_singleton]
  cases init with
  | none => exact hloop
  | some s => exact .stmts_cons ((partsIn_singleton _).symm ▸ ih .forInit h.loop_init) hloop

end Loop

/-- The parts right inside a part that opens a scope are a scope further in. -/
theorem length_of_inside (hi : Inside π n ρ m) (ho : n.opensScope = true) :
    ρ.openings.length = π.openings.length + 1 := by
  cases hi with
  | block => rfl
  | body => rfl
  | forInit => rfl
  | forCondition => exact Beside.length_afterClause _ _
  | forStep => exact Beside.length_afterClause _ _
  | forBody => exact Beside.length_afterClause _ _
  | _ => cases ho

/-- The scopes of what lies inside a part. -/
def within (Γ : List Bool) (n : Node) : List Bool := if n.opensScope then true :: Γ else Γ

/-- The parts inside a part and those inside what it is replaced by. -/
theorem Beside.matches_inner (h : Beside D Γ π π' n)
    (ih : ∀ {Γ' ρ ρ' m}, Inside π n ρ m → Beside D Γ' ρ ρ' m →
      Matches D Γ' (parts ρ m) (parts ρ' (D.node m))) :
    Matches D (within Γ n) (partsIn (n.inner π)) (partsIn ((D.node n).inner π')) := by
  cases hn : D.isReplaced n with
  | true =>
    obtain ⟨span, init, condition, step, body, rfl⟩ :
        ∃ span init condition step body, n = .stmt ⟨span, .for init condition step body⟩ := by
      unfold isReplaced at hn
      split at hn
      · exact ⟨_, _, _, _, _, rfl⟩
      · cases hn
    exact h.matches_loop ih hn
  | false =>
    refine .flatMap (inner_partners h hn) fun p hp p' ⟨heq, hb⟩ => ?_
    have hi := inside_of_mem_inner hp
    rw [heq]
    refine (?_ : ∃ more, List.replicate (p.1.openings.length - π.openings.length) true ++ Γ =
      more ++ within Γ n).elim fun more hmore => Matches.weaken more (hmore ▸ ih hi hb)
    unfold within
    split
    · next ho =>
      rw [length_of_inside hi ho, Nat.add_sub_cancel_left]
      exact ⟨[], rfl⟩
    · exact ⟨_, rfl⟩

/-- The parts of a part and those of what it is replaced by. -/
theorem Beside.matches_parts (h : Beside D Γ π π' n) :
    Matches D Γ (parts π n) (parts π' (D.node n)) := by
  induction hs : n.size using Nat.strongRecOn generalizing Γ π π' n with
  | ind size ih =>
    subst hs
    rw [parts_eq_partsIn, parts_eq_partsIn]
    have hinner := h.matches_inner fun hi hb => ih _ hi.size_lt hb rfl
    have hself : Matches D Γ [(π, n)] [(π', D.node n)] := .mate ⟨rfl, [], h⟩ .nil
    refine Matches.append ?_ hself
    unfold within at hinner
    split at hinner
    · exact hinner.weaken [true]
    · exact hinner

/-! ## What both sides have in common -/

section Common

variable {ps ps' : List (Lexical.Place × Node)}

theorem Matches.obey_iff (h : Matches D Γ ps ps') :
    (∀ p ∈ ps', p.2.Obeys p.1) ↔ ∀ p ∈ ps, p.2.Obeys p.1 := by
  induction h with
  | nil => exact Iff.rfl
  | mate hp _ ih =>
    obtain ⟨heq, more, hb⟩ := hp
    rw [List.forall_mem_cons, List.forall_mem_cons, ih, heq, hb.obeys_iff]
  | idle hp _ ih =>
    rw [List.forall_mem_cons, ih]
    exact and_iff_right hp.obeys
  | perm _ hps hps' ih =>
    simp only [← hps.mem_iff, ← hps'.mem_iff]
    exact ih

/-- A program keeps to the rules just when its desugaring does. -/
theorem Beside.lawful_iff (h : Beside D Γ π π' n) : Lawful π' (D.node n) ↔ Lawful π n := by
  have (π : Lexical.Place) (n : Node) : Lawful π n ↔ ∀ p ∈ parts π n, p.2.Obeys p.1 :=
    ⟨fun hl p hp => hl p.1 p.2 (mem_parts.1 hp), fun hl ρ m hm => hl (ρ, m) (mem_parts.2 hm)⟩
  rw [this, this]
  exact h.matches_parts.obey_iff

/-- Some of the parts is a use that reads the name and means the scope around which `depth` others
are open. -/
def Reads (ps : List (Lexical.Place × Node)) (x : String) (depth : Nat) : Prop :=
  ∃ p ∈ ps, (∃ id, p.2 = .use id x true) ∧ p.1.Means x depth

theorem readIn_iff_reads (hn : n.isUse = false) {x : String} {depth : Nat} :
    ReadIn (π, n) x depth ↔ Reads (partsIn (n.inner π)) x depth := by
  constructor
  · rintro ⟨ρ, id, hin, hm⟩
    cases hin with
    | self => cases hn
    | inside hi hin =>
      have hp : (ρ, Node.use id x true) ∈ partsIn (n.inner π) :=
        List.mem_flatMap.2 ⟨_, mem_inner_of_inside hi, mem_parts.2 hin⟩
      exact ⟨_, hp, ⟨id, rfl⟩, hm⟩
  · rintro ⟨⟨ρ, m⟩, hp, ⟨id, rfl⟩, hm⟩
    obtain ⟨q, hq, hp⟩ := List.mem_flatMap.1 hp
    exact ⟨ρ, id, .inside (inside_of_mem_inner hq) (mem_parts.1 hp), hm⟩

theorem reads_cons (p : Lexical.Place × Node) (ps : List (Lexical.Place × Node)) (x : String)
    (depth : Nat) : Reads (p :: ps) x depth ↔
      (∃ id, p.2 = .use id x true) ∧ p.1.Means x depth ∨ Reads ps x depth := by
  simp [Reads]

/-- In a scope that both sides have open the same names are read on both. -/
theorem Matches.reads_iff (h : Matches D (true :: Γ) ps ps') (x : String) :
    Reads ps' x Γ.length ↔ Reads ps x (Γ.count true) := by
  induction h with
  | nil => exact iff_of_false (fun ⟨_, hp, _⟩ => by cases hp) fun ⟨_, hp, _⟩ => by cases hp
  | @mate p p' _ _ hp _ ih =>
    obtain ⟨heq, more, hb⟩ := hp
    have huse : (∃ id, p'.2 = .use id x true) ↔ ∃ id, p.2 = .use id x true := by
      rw [heq]
      cases p.2 <;> simp [node]
    rw [reads_cons, reads_cons, ih, huse, means_iff hb.aligned]
  | idle hp _ ih =>
    rw [reads_cons, ih]
    refine or_iff_right fun ⟨⟨id, huse⟩, _⟩ => ?_
    have := hp.isUse
    rw [huse] at this
    cases this
  | perm _ hps hps' ih =>
    unfold Reads at ih ⊢
    simp only [← hps.mem_iff, ← hps'.mem_iff]
    exact ih

theorem locals_node (h : n.WellFormed) : (D.node n).locals = n.locals := by
  cases n with
  | function kind f =>
    show (D.function f).body.flatMap Stmt.declarations = _
    rw [body_function, declarations_stmts]
    rfl
  | stmt s =>
    obtain ⟨span, node⟩ := s
    cases node with
    | block body => exact declarations_stmts body
    | ifElse condition yes no =>
      rw [Desugaring.node, stmt_ifElse]
      rfl
    | «for» init condition step body =>
      obtain ⟨-, -, -, hdeclares, hb⟩ := Stmt.wellFormed_for.1 h
      have hnone := declarations_eq_nil hb hdeclares
      have hinit : (init.map D.stmt).toList.flatMap Stmt.declarations =
          init.toList.flatMap Stmt.declarations := by cases init <;> simp
      rw [Desugaring.node, stmt_for]
      split
      · show ((init.map D.stmt).toList ++ [_]).flatMap Stmt.declarations = _
        rw [List.flatMap_append, hinit]
        exact congrArg _ hnone.symm
      · show (init.map D.stmt).toList.flatMap Stmt.declarations ++ (D.stmt body).declarations = _
        rw [hinit, declarations_stmt]
        rfl
    | _ => rfl
  | _ => rfl

theorem opensScope_node (n : Node) : (D.node n).opensScope = n.opensScope := by
  cases n with
  | stmt s =>
    obtain ⟨span, node⟩ := s
    cases node with
    | «for» init condition step body =>
      rw [Desugaring.node, stmt_for]
      split <;> rfl
    | ifElse condition yes no =>
      rw [Desugaring.node, stmt_ifElse]
      rfl
    | _ => rfl
  | _ => rfl

theorem isUse_eq_false_of_opensScope (h : n.opensScope = true) : n.isUse = false := by
  cases n <;> first | rfl | cases h

theorem Beside.leftUnread_eq (h : Beside D Γ π π' n) (ho : n.opensScope = true) :
    leftUnread (π', D.node n) = leftUnread (π, n) := by
  have hinner := h.matches_inner fun _ hb => hb.matches_parts
  rw [within, if_pos ho] at hinner
  have hread (x : String) : IsRead (π', D.node n) x ↔ IsRead (π, n) x := by
    unfold IsRead
    rw [readIn_iff_reads (isUse_eq_false_of_opensScope ho),
      readIn_iff_reads (isUse_eq_false_of_opensScope ((opensScope_node n).trans ho)),
      h.aligned.length, h.aligned.length']
    exact hinner.reads_iff x
  have hunread : unread (π', D.node n) = unread (π, n) := by
    unfold unread
    rw [locals_node h.wellFormed]
    exact List.filter_congr fun name _ => decide_eq_decide.2 (not_congr (hread name.name))
  rw [leftUnread, hunread, leftUnread]

/-- The warnings that a part leaves itself. -/
noncomputable def warningsOf (p : Lexical.Place × Node) : List Warning :=
  if p.2.opensScope then leftUnread p else []

theorem closing_flatMap_leftUnread (π : Lexical.Place) (n : Node) :
    (closing π n).flatMap leftUnread = (parts π n).flatMap warningsOf := by
  rw [closing_eq_filter]
  generalize parts π n = ps
  induction ps with
  | nil => rfl
  | cons p ps ih =>
    rw [List.flatMap_cons, ← ih, warningsOf, List.filter_cons]
    split
    · rw [List.flatMap_cons]
    · rw [List.nil_append]

theorem Idle.warningsOf_eq {p : Lexical.Place × Node} (h : Idle p) : warningsOf p = [] := by
  unfold warningsOf leftUnread unread
  rw [h.locals]
  split
  · exact List.mergeSort_nil
  · rfl

theorem Matches.warnings (h : Matches D Γ ps ps') :
    (ps'.flatMap warningsOf).Perm (ps.flatMap warningsOf) := by
  induction h with
  | nil => exact .nil
  | @mate p p' ps ps' hp _ ih =>
    obtain ⟨heq, more, hb⟩ := hp
    have hwarnings : warningsOf p' = warningsOf p := by
      obtain ⟨π, n⟩ := p
      obtain ⟨π', n'⟩ := p'
      obtain rfl : n' = D.node n := heq
      unfold warningsOf
      rw [opensScope_node]
      split
      · next ho => exact hb.leftUnread_eq ho
      · rfl
    rw [List.flatMap_cons, List.flatMap_cons, hwarnings]
    exact ih.append_left _
  | idle hp _ ih =>
    rw [List.flatMap_cons, hp.warningsOf_eq, List.nil_append]
    exact ih
  | perm _ hps hps' ih =>
    exact (hps'.flatMap_right _).symm.trans (ih.trans (hps.flatMap_right _))

end Common

/-! ## Programs -/

variable {body : List Stmt}

/-- A program beside its desugaring. -/
theorem beside_program (D : Desugaring) (hb : Stmt.AllWellFormed body) :
    Beside D [] .program .program (.stmts body) :=
  ⟨.nil, rfl, fun _ => Iff.rfl, nofun, hb⟩

/-- A program is accepted just when its desugaring is. -/
theorem accepted_stmts_iff (D : Desugaring) (hb : Stmt.AllWellFormed body) :
    (∃ r, ofProgram (D.stmts body) = .ok r) ↔ ∃ r, ofProgram body = .ok r := by
  rw [accepted_iff hb, accepted_iff (wellFormed_stmts body hb)]
  exact (beside_program D hb).lawful_iff

/-- Both are warned of the same, if not in the same order. -/
theorem warnings_perm (hb : Stmt.AllWellFormed body) {r r' : Resolution}
    (hr : ofProgram body = .ok r) (hr' : ofProgram (D.stmts body) = .ok r') :
    r'.warnings.Perm r.warnings := by
  rw [warnings_eq hb hr, warnings_eq (wellFormed_stmts body hb) hr', closing_flatMap_leftUnread,
    closing_flatMap_leftUnread]
  exact (beside_program D hb).matches_parts.warnings

end Desugaring

end Lox

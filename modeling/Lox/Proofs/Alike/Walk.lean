import Mathlib.Data.List.Forall2
import Lox.Proofs.Alike.Content
import Lox.Proofs.Alike.Tree
import Lox.Proofs.Scope.Walk

/-!
# Resolutions that are alike

Trees that are alike are resolved alike: the uses of locals are the same, at the same distances, and
so are the warnings, in the same order; or the same rule is broken, in places that are alike.  The
second walk may have come from another program before, which shows in no scope.

    List.Forall₂ (Stmt.Alike L) body body' → s.Alike L ds ws s' →
      Ends L ds ws (stmts body s) (stmts body' s')                                  (agree_stmts)
-/

namespace Lox

variable {L : Likeness}

/-- Identities that come next are taken for each other, and spans that others are put together to,
if these are. -/
structure Likeness.Closed (L : Likeness) : Prop where
  next : ∀ {id id'}, L.id id id' → L.id (id + 1) (id' + 1)
  extend : ∀ {a a' b b'}, L.span a a' → L.span b b' → L.span (a.extend b) (a'.extend b')

/-- Besides, spans that are taken for each other stand in the same order, and so do their heads. -/
structure Likeness.Regular (L : Likeness) : Prop extends L.Closed where
  head : ∀ {a a'} (n : Nat), L.span a a' → L.span (a.head n) (a'.head n)
  order : ∀ {a a' b b'}, L.span a a' → L.span b b' → (a.start ≤ b.start ↔ a'.start ≤ b'.start)

/-- Sorting keeps related lists related if it cannot tell them apart. -/
theorem forall₂_mergeSort {α β : Type} {R : α → β → Prop} {le : α → α → Bool} {le' : β → β → Bool}
    (hle : ∀ a a' b b', R a a' → R b b' → le a b = le' a' b') {xs : List α} {ys : List β}
    (h : List.Forall₂ R xs ys) : List.Forall₂ R (xs.mergeSort le) (ys.mergeSort le') := by
  -- the pairs of related elements are sorted once
  obtain ⟨ps, hps, rfl, rfl⟩ : ∃ ps : List (α × β), (∀ p ∈ ps, R p.1 p.2) ∧
      ps.map Prod.fst = xs ∧ ps.map Prod.snd = ys := by
    induction h with
    | nil => exact ⟨[], List.forall_mem_nil _, rfl, rfl⟩
    | @cons a b _ _ hab _ ih =>
      obtain ⟨ps, hps, rfl, rfl⟩ := ih
      exact ⟨(a, b) :: ps, List.forall_mem_cons.2 ⟨hab, hps⟩, rfl, rfl⟩
  rw [← List.map_mergeSort (r := fun p q => le p.1 q.1) fun _ _ _ _ => rfl,
    ← List.map_mergeSort (r := fun p q => le p.1 q.1) fun p hp q hq =>
      hle _ _ _ _ (hps p hp) (hps q hq),
    List.forall₂_map_left_iff, List.forall₂_map_right_iff, List.forall₂_same]
  exact fun p hp => hps p (List.mem_mergeSort.1 hp)

theorem forall₂_modify {α β : Type} {R : α → β → Prop} {f : α → α} {g : β → β}
    (hf : ∀ a b, R a b → R (f a) (g b)) {xs : List α} {ys : List β} (h : List.Forall₂ R xs ys)
    (i : Nat) : List.Forall₂ R (xs.modify i f) (ys.modify i g) := by
  induction h generalizing i with
  | nil =>
    rw [List.modify_nil, List.modify_nil]
    exact .nil
  | cons hab hrest ih =>
    cases i with
    | zero =>
      rw [List.modify_zero_cons, List.modify_zero_cons]
      exact .cons (hf _ _ hab) hrest
    | succ i =>
      rw [List.modify_succ_cons, List.modify_succ_cons]
      exact .cons hab (ih i)

structure Warning.Alike (L : Likeness) (w w' : Warning) : Prop where
  span : L.span w.span w'.span
  name : w.name = w'.name

structure ScopeError.Alike (L : Likeness) (e e' : ScopeError) : Prop where
  span : L.span e.span e'.span
  kind : e.kind = e'.kind

namespace Resolution

/-! ## States -/

/-- Only of a variable that can be warned about does it matter where it stands. -/
structure Variable.Alike (L : Likeness) (v v' : Variable) : Prop where
  status : v.status = v'.status
  warns : v.warns = v'.warns
  span : v.warns = true → L.span v.span v'.span

/-- The use of a local at the same distance. -/
structure UsesAlike (L : Likeness) (use use' : ExprId × Nat) : Prop where
  id : L.id use.1 use'.1
  hops : use.2 = use'.2

/-- The second walk has come from elsewhere with `ds` and `ws`. -/
structure State.Alike (L : Likeness) (ds : List (ExprId × Nat)) (ws : List Warning)
    (s s' : State) : Prop where
  scopes : List.Forall₂ (Table.Alike (Variable.Alike L)) s.scopes s'.scopes
  distances : ∃ uses, s'.distances = uses ++ ds ∧ List.Forall₂ (UsesAlike L) s.distances uses
  warnings : ∃ more, s'.warnings = ws ++ more ∧ List.Forall₂ (Warning.Alike L) s.warnings more
  context : s.context = s'.context

/-- Both walks end well in states that are alike, or both break the same rule. -/
inductive Ends (L : Likeness) (ds : List (ExprId × Nat)) (ws : List Warning) :
    EStateM.Result ScopeError State Unit → EStateM.Result ScopeError State Unit → Prop
  | ok {s s' : State} : s.Alike L ds ws s' → Ends L ds ws (.ok () s) (.ok () s')
  | error {e e' : ScopeError} {s s' : State} : e.Alike L e' →
      Ends L ds ws (.error e s) (.error e' s')

variable {ds : List (ExprId × Nat)} {ws : List Warning}

/-- From states that are alike, both walks end alike. -/
def Agree (L : Likeness) (ds : List (ExprId × Nat)) (ws : List Warning) (w w' : Walk Unit) : Prop :=
  ∀ s s', s.Alike L ds ws s' → Ends L ds ws (w s) (w' s')

namespace Agree

variable {v v' w w' : Walk Unit}

theorem pure : Agree L ds ws (Pure.pure ()) (Pure.pure ()) := fun _ _ hs => .ok hs

theorem seq (hv : Agree L ds ws v v') (hw : Agree L ds ws w w') :
    Agree L ds ws (do v; w) (do v'; w') := by
  intro s s' hs
  have h := hv s s' hs
  generalize hr : v s = r at h
  generalize hr' : v' s' = r' at h
  cases h with
  | ok ht =>
    rw [EStateM.bind_of_ok hr, EStateM.bind_of_ok hr']
    exact hw _ _ ht
  | error he =>
    rw [EStateM.bind_of_error hr, EStateM.bind_of_error hr']
    exact .error he

theorem modify {f f' : State → State}
    (hf : ∀ s s', s.Alike L ds ws s' → (f s).Alike L ds ws (f' s')) :
    Agree L ds ws (modify f) (modify f') := fun _ _ hs => .ok (hf _ _ hs)

theorem get {f f' : State → Walk Unit}
    (hf : ∀ s s', s.Alike L ds ws s' → Ends L ds ws (f s s) (f' s' s')) :
    Agree L ds ws (get >>= f) (get >>= f') := hf

theorem within (region : Region) (hw : Agree L ds ws w w') :
    Agree L ds ws (within region w) (within region w') := by
  intro s s' hs
  have h := hw { s with context := region.enter s.context }
    { s' with context := region.enter s'.context }
    { hs with context := congrArg region.enter hs.context }
  unfold Resolution.within
  generalize w { s with context := region.enter s.context } = r at h
  generalize w' { s' with context := region.enter s'.context } = r' at h
  cases h with
  | ok ht => exact .ok { ht with context := congrArg₂ region.leave hs.context ht.context }
  | error he => exact .error he

end Agree

theorem ends_fail {span span' : Span} (hspan : L.span span span') (kind : ScopeErrorKind)
    (s s' : State) : Ends L ds ws (fail span kind s) (fail span' kind s') :=
  .error ⟨hspan, rfl⟩

/-! ## Scopes -/

theorem unused_alike (hL : L.Regular) {scope scope' : Scope}
    (h : Table.Alike (Variable.Alike L) scope scope') :
    List.Forall₂ (Warning.Alike L) (unused scope) (unused scope') := by
  refine forall₂_mergeSort (fun a a' b b' ha hb => ?_) (List.rel_filterMap ?_ h)
  · exact decide_eq_decide.2 (hL.order ha.span hb.span)
  · rintro ⟨name, v⟩ ⟨name', v'⟩ ⟨hname, hv⟩
    dsimp only at hname hv ⊢
    rw [← hv.status, ← hv.warns, ← hname]
    split
    · next hw =>
      rw [Bool.and_eq_true] at hw
      exact .some ⟨hv.span hw.1, rfl⟩
    · exact .none

namespace State.Alike

variable {s s' : State}

theorem closeScope (hL : L.Regular) (hs : s.Alike L ds ws s') :
    s.closeScope.Alike L ds ws s'.closeScope := by
  obtain ⟨scopes, distances, warnings, context⟩ := s
  obtain ⟨scopes', distances', warnings', context'⟩ := s'
  obtain ⟨hscopes, hdistances, ⟨more, hmore, hwarnings⟩, hcontext⟩ := hs
  dsimp only at hscopes hmore hwarnings
  unfold State.closeScope
  cases hscopes with
  | nil => exact ⟨.nil, hdistances, ⟨more, hmore, hwarnings⟩, hcontext⟩
  | @cons scope scope' _ _ hscope hscopes =>
    refine ⟨hscopes, hdistances, ⟨more ++ unused scope', ?_,
      List.rel_append hwarnings (unused_alike hL hscope)⟩, hcontext⟩
    rw [← List.append_assoc, ← hmore]

theorem modifyInnermost (hs : s.Alike L ds ws s') {f f' : Scope → Scope}
    (hf : ∀ t t', Table.Alike (Variable.Alike L) t t' →
      Table.Alike (Variable.Alike L) (f t) (f' t')) :
    (s.modifyInnermost f).Alike L ds ws (s'.modifyInnermost f') := by
  obtain ⟨scopes, distances, warnings, context⟩ := s
  obtain ⟨scopes', distances', warnings', context'⟩ := s'
  obtain ⟨hscopes, hdistances, hwarnings, hcontext⟩ := hs
  dsimp only at hscopes
  unfold State.modifyInnermost
  cases hscopes with
  | nil => exact ⟨.nil, hdistances, hwarnings, hcontext⟩
  | cons hscope hscopes => exact ⟨.cons (hf _ _ hscope) hscopes, hdistances, hwarnings, hcontext⟩

theorem isInitializing_eq (hs : s.Alike L ds ws s') (name : String) :
    s.isInitializing name = s'.isInitializing name := by
  have hscopes := hs.scopes
  unfold State.isInitializing
  generalize s.scopes = scopes at hscopes
  generalize s'.scopes = scopes' at hscopes
  cases hscopes with
  | nil => rfl
  | @cons scope scope' _ _ hscope _ =>
    have hv := hscope.find? name
    dsimp only
    generalize scope.find? name = o at hv
    generalize scope'.find? name = o' at hv
    cases hv with
    | none => rfl
    | some hv => simp only [hv.status]

theorem distance?_eq (hs : s.Alike L ds ws s') (name : String) :
    distance? name s.scopes = distance? name s'.scopes := by
  have hscopes := hs.scopes
  unfold distance?
  generalize s.scopes = scopes at hscopes
  generalize s'.scopes = scopes' at hscopes
  induction hscopes with
  | nil => rfl
  | cons hscope _ ih => rw [List.findIdx?_cons, List.findIdx?_cons, hscope.contains_eq, ih]

theorem use (hs : s.Alike L ds ws s') {id id' : ExprId} (hid : L.id id id') (name : String)
    (reads : Bool) : (s.use id name reads).Alike L ds ws (s'.use id' name reads) := by
  unfold State.use
  rw [← hs.distance?_eq name]
  cases distance? name s.scopes with
  | none => exact hs
  | some hops =>
    obtain ⟨hscopes, ⟨uses, huses, hdistances⟩, hwarnings, hcontext⟩ := hs
    refine ⟨?_, ⟨(id', hops) :: uses, ?_, .cons ⟨hid, rfl⟩ hdistances⟩, hwarnings, hcontext⟩
    · cases reads with
      | false => exact hscopes
      | true =>
        exact forall₂_modify (fun _ _ ht => ht.modify name fun _ _ hv => { hv with status := rfl })
          hscopes hops
    · dsimp only
      rw [huses, List.cons_append]

end State.Alike

/-! ## Steps -/

theorem agree_inScope (hL : L.Regular) {scope scope' : Scope}
    (hscope : Table.Alike (Variable.Alike L) scope scope') {w w' : Walk Unit}
    (hw : Agree L ds ws w w') : Agree L ds ws (inScope scope w) (inScope scope' w') := by
  intro s s' hs
  have h := hw { s with scopes := scope :: s.scopes } { s' with scopes := scope' :: s'.scopes }
    { hs with scopes := .cons hscope hs.scopes }
  unfold inScope
  generalize w { s with scopes := scope :: s.scopes } = r at h
  generalize w' { s' with scopes := scope' :: s'.scopes } = r' at h
  cases h with
  | ok ht => exact .ok (ht.closeScope hL)
  | error he => exact .error he

theorem agree_declare {name name' : Identifier} (hn : name.Alike L name') (warns : Bool) :
    Agree L ds ws (declare name warns) (declare name' warns) := by
  refine Agree.get fun s s' hs => ?_
  have hscopes := hs.scopes
  generalize s.scopes = scopes at hscopes
  generalize s'.scopes = scopes' at hscopes
  cases hscopes with
  | nil => exact .ok hs
  | cons hscope _ =>
    dsimp only
    rw [← hn.name, ← hscope.contains_eq]
    split
    · exact ends_fail hn.span _ _ _
    · exact .ok (hs.modifyInnermost fun _ _ ht => ht.insert _ ⟨rfl, rfl, fun _ => hn.span⟩)

theorem agree_define (name : String) : Agree L ds ws (define name) (define name) := by
  refine .modify fun s s' hs => hs.modifyInnermost fun _ _ ht => ht.modify name fun v v' hv => ?_
  unfold Variable.define
  rw [← hv.status]
  split
  · exact { hv with status := rfl }
  · exact hv

theorem agree_introduce {name name' : Identifier} (hn : name.Alike L name') (warns : Bool) :
    Agree L ds ws (introduce name warns) (introduce name' warns) := by
  unfold introduce
  rw [← hn.name]
  exact (agree_declare hn warns).seq (agree_define _)

theorem agree_readName {id id' : ExprId} (hid : L.id id id') {name name' : Identifier}
    (hn : name.Alike L name') : Agree L ds ws (readName id name) (readName id' name') := by
  refine Agree.get fun s s' hs => ?_
  rw [← hn.name, ← hs.isInitializing_eq]
  split
  · exact ends_fail hn.span _ _ _
  · exact .ok (hs.use hid _ _)

theorem agree_reference {r r' : Reference} (hr : r.Alike L r') :
    Agree L ds ws (reference r) (reference r') := agree_readName hr.id hr.name

theorem agree_receiver {id id' : ExprId} (hid : L.id id id') {span span' : Span}
    (hspan : L.span span span') : Agree L ds ws (receiver id span) (receiver id' span') := by
  refine Agree.get fun s s' hs => ?_
  rw [← hs.context, ← hs.distance?_eq]
  split
  · exact ends_fail hspan _ _ _
  · split
    · exact ends_fail hspan _ _ _
    · exact .ok (hs.use hid _ _)

theorem agree_superclass (hL : L.Regular) {id id' : ExprId} (hid : L.id id id') {span span' : Span}
    (hspan : L.span span span') : Agree L ds ws (superclass id span) (superclass id' span') := by
  refine Agree.get fun s s' hs => ?_
  rw [← hs.context]
  cases s.context.owner with
  | subclass => exact .ok (hs.use hid _ _)
  | _ => exact ends_fail (hL.head _ hspan) _ _ _

theorem agree_loopControl (hL : L.Regular) {span span' : Span} (hspan : L.span span span')
    (keyword : Keyword) : Agree L ds ws (loopControl span keyword) (loopControl span' keyword) := by
  refine Agree.get fun s s' hs => ?_
  rw [← hs.context]
  split
  · exact ends_fail (hL.head _ hspan) _ _ _
  · exact .ok hs

theorem agree_returnAt (hL : L.Regular) {span span' : Span} (hspan : L.span span span') :
    Agree L ds ws (returnAt span) (returnAt span') := by
  refine Agree.get fun s s' hs => ?_
  rw [← hs.context]
  split
  · exact ends_fail (hL.head _ hspan) _ _ _
  · exact .ok hs

theorem agree_returnValueAt (hL : L.Regular) {span span' : Span} (hspan : L.span span span') :
    Agree L ds ws (returnValueAt span) (returnValueAt span') := by
  refine Agree.get fun s s' hs => ?_
  rw [← hs.context]
  split
  · exact ends_fail (hL.head _ hspan) _ _ _
  · exact .ok hs

theorem agree_references {rs rs' : List Reference}
    (hrs : List.Forall₂ (Reference.Alike L) rs rs') :
    Agree L ds ws (rs.forM reference) (rs'.forM reference) := by
  induction hrs with
  | nil => exact .pure
  | cons hr _ ih => exact (agree_reference hr).seq ih

theorem agree_parameters {params params' : List Identifier}
    (hparams : List.Forall₂ (Identifier.Alike L) params params') :
    Agree L ds ws (params.forM (introduce · false)) (params'.forM (introduce · false)) := by
  induction hparams with
  | nil => exact .pure
  | cons hn _ ih => exact (agree_introduce hn false).seq ih

theorem agree_checkSuperclass {name name' super super' : Identifier} (hn : name.Alike L name')
    (hsuper : super.Alike L super') :
    Agree L ds ws (checkSuperclass name super) (checkSuperclass name' super') := by
  intro s s' hs
  unfold checkSuperclass
  rw [← hn.name, ← hsuper.name]
  split
  · exact ends_fail hsuper.span _ _ _
  · exact .ok hs

theorem implicit_alike (name : String) :
    Table.Alike (Variable.Alike L) (.ofPairs [(name, .implicit)]) (.ofPairs [(name, .implicit)]) :=
  .ofPairs (.cons ⟨rfl, rfl, rfl, fun h => Bool.noConfusion h⟩ .nil)

/-! ## The walk -/

mutual

/-- Expressions that are alike are resolved alike. -/
theorem agree_expr (hL : L.Regular) {e e' : Expr} (h : e.Alike L e') :
    Agree L ds ws (expr e) (expr e') := by
  obtain ⟨id, span, node⟩ := e
  obtain ⟨hid, hspan, hnode⟩ := h
  cases node with
  | literal value =>
    cases hnode with | literal => exact .pure
  | group a =>
    cases hnode with | group h =>
    have ha : Agree L ds ws (expr a) _ := agree_expr hL h
    exact ha
  | binary op a b =>
    cases hnode with | binary h₁ h₂ => exact (agree_expr hL h₁).seq (agree_expr hL h₂)
  | unary op a =>
    cases hnode with | unary h =>
    have ha : Agree L ds ws (expr a) _ := agree_expr hL h
    exact ha
  | logical op a b =>
    cases hnode with | logical h₁ h₂ => exact (agree_expr hL h₁).seq (agree_expr hL h₂)
  | ternary a b c =>
    cases hnode with | ternary h₁ h₂ h₃ =>
    exact (agree_expr hL h₁).seq ((agree_expr hL h₂).seq (agree_expr hL h₃))
  | «variable» name =>
    cases hnode with | «variable» hn => exact agree_readName hid hn
  | assign name a =>
    cases hnode with | @assign _ name' _ _ hn h =>
    refine (agree_expr hL h).seq (.modify fun s s' hs => ?_)
    rw [← hn.name]
    exact hs.use hid _ _
  | call a args =>
    cases hnode with | call h hargs => exact (agree_expr hL h).seq (agree_exprs hL hargs)
  | get a name =>
    cases hnode with | get h hn =>
    have ha : Agree L ds ws (expr a) _ := agree_expr hL h
    exact ha
  | set a name b =>
    cases hnode with | set h₁ hn h₂ => exact (agree_expr hL h₂).seq (agree_expr hL h₁)
  | array es =>
    cases hnode with | array hes => exact agree_exprs hL hes
  | index a b =>
    cases hnode with | index h₁ h₂ => exact (agree_expr hL h₁).seq (agree_expr hL h₂)
  | indexSet a b c =>
    cases hnode with | indexSet h₁ h₂ h₃ =>
    exact (agree_expr hL h₁).seq ((agree_expr hL h₂).seq (agree_expr hL h₃))
  | lambda f =>
    cases hnode with | lambda hf => exact agree_function hL .function hf
  | this =>
    cases hnode with | this => exact agree_receiver hid hspan
  | super name =>
    cases hnode with | super hn => exact agree_superclass hL hid hspan
termination_by structural e

theorem agree_exprs (hL : L.Regular) {es es' : List Expr}
    (h : List.Forall₂ (Expr.Alike L) es es') : Agree L ds ws (exprs es) (exprs es') := by
  cases es with
  | nil => cases h; exact .pure
  | cons e es =>
    obtain - | ⟨he, hes⟩ := h
    exact (agree_expr hL he).seq (agree_exprs hL hes)
termination_by structural es

theorem agree_function (hL : L.Regular) (kind : FunctionContext) {f f' : Function}
    (h : f.Alike L f') : Agree L ds ws (function kind f) (function kind f') := by
  obtain ⟨name, params, body, isGetter, span⟩ := f
  obtain ⟨hn, hparams, hbody, hspan⟩ := h
  exact (agree_inScope hL .empty ((agree_parameters hparams).seq (agree_stmts hL hbody))).within _
termination_by structural f

theorem agree_methods (hL : L.Regular) {fs fs' : List Function}
    (h : List.Forall₂ (Function.Alike L) fs fs') : Agree L ds ws (methods fs) (methods fs') := by
  cases fs with
  | nil => cases h; exact .pure
  | cons f fs =>
    obtain - | ⟨hf, hfs⟩ := h
    refine (agree_inScope hL (implicit_alike _) ?_).seq (agree_methods hL hfs)
    rw [hf.name.name]
    exact agree_function hL _ hf
termination_by structural fs

theorem agree_staticMethods (hL : L.Regular) {fs fs' : List Function}
    (h : List.Forall₂ (Function.Alike L) fs fs') :
    Agree L ds ws (staticMethods fs) (staticMethods fs') := by
  cases fs with
  | nil => cases h; exact .pure
  | cons f fs =>
    obtain - | ⟨hf, hfs⟩ := h
    exact (agree_function hL _ hf).seq (agree_staticMethods hL hfs)
termination_by structural fs

theorem agree_stmts (hL : L.Regular) {ss ss' : List Stmt}
    (h : List.Forall₂ (Stmt.Alike L) ss ss') : Agree L ds ws (stmts ss) (stmts ss') := by
  cases ss with
  | nil => cases h; exact .pure
  | cons s ss =>
    obtain - | ⟨hs, hss⟩ := h
    exact (agree_stmt hL hs).seq (agree_stmts hL hss)
termination_by structural ss

/-- Statements that are alike are resolved alike. -/
theorem agree_stmt (hL : L.Regular) {s s' : Stmt} (h : s.Alike L s') :
    Agree L ds ws (stmt s) (stmt s') := by
  obtain ⟨span, node⟩ := s
  obtain ⟨span', node'⟩ := s'
  obtain ⟨hspan, hnode⟩ := h
  cases node with
  | expression e =>
    cases hnode with | expression h => exact agree_expr hL h
  | print e =>
    cases hnode with | print h => exact agree_expr hL h
  | varDecl name init =>
    cases hnode with | @varDecl _ _ _ init' hn hinit =>
    have hi : Agree L ds ws (optional expr init) (optional expr init') := by
      cases init with
      | none => cases hinit; exact .pure
      | some e => cases hinit with | some h => exact agree_expr hL h
    rw [stmt_varDecl, stmt_varDecl, ← hn.name]
    exact (agree_declare hn true).seq (hi.seq (agree_define _))
  | block body =>
    cases hnode with | block hbody => exact agree_inScope hL .empty (agree_stmts hL hbody)
  | ifElse condition yes no =>
    cases hnode with | @ifElse _ _ _ _ _ no' h hyes hno =>
    have hn : Agree L ds ws (optional stmt no) (optional stmt no') := by
      cases no with
      | none => cases hno; exact .pure
      | some s => cases hno with | some h => exact agree_stmt hL h
    rw [stmt_ifElse, stmt_ifElse]
    exact (agree_expr hL h).seq ((agree_stmt hL hyes).seq hn)
  | «while» condition body =>
    cases hnode with | «while» h hbody =>
    exact (agree_expr hL h).seq ((agree_stmt hL hbody).within _)
  | «for» init condition step body =>
    cases hnode with | @«for» _ init' _ condition' _ step' _ _ hinit hcondition hstep hbody =>
    have hi : Agree L ds ws (optional stmt init) (optional stmt init') := by
      cases init with
      | none => cases hinit; exact .pure
      | some s => cases hinit with | some h => exact agree_stmt hL h
    have hc : Agree L ds ws (optional expr condition) (optional expr condition') := by
      cases condition with
      | none => cases hcondition; exact .pure
      | some e => cases hcondition with | some h => exact agree_expr hL h
    have hs : Agree L ds ws (optional expr step) (optional expr step') := by
      cases step with
      | none => cases hstep; exact .pure
      | some e => cases hstep with | some h => exact agree_expr hL h
    rw [stmt_for, stmt_for]
    exact agree_inScope hL .empty (hi.seq (hc.seq (hs.seq ((agree_stmt hL hbody).within _))))
  | «break» =>
    cases hnode with | «break» => exact agree_loopControl hL hspan .break
  | «continue» =>
    cases hnode with | «continue» => exact agree_loopControl hL hspan .continue
  | funDecl f =>
    cases hnode with | funDecl hf =>
    exact (agree_introduce hf.name true).seq (agree_function hL .function hf)
  | «return» value =>
    cases hnode with | @«return» _ value' hvalue =>
    have hv : Agree L ds ws (optional (fun e => do returnValueAt span; expr e) value)
        (optional (fun e => do returnValueAt span'; expr e) value') := by
      cases value with
      | none => cases hvalue; exact .pure
      | some e =>
        cases hvalue with | some h => exact (agree_returnValueAt hL hspan).seq (agree_expr hL h)
    rw [stmt_return, stmt_return]
    exact (agree_returnAt hL hspan).seq hv
  | classDecl name superclass traits ms ss =>
    cases hnode with | classDecl hn hsuperclass htraits hmethods hstatics =>
    have members : Agree L ds ws (do methods ms; staticMethods ss) _ :=
      (agree_methods hL hmethods).seq (agree_staticMethods hL hstatics)
    cases superclass with
    | none =>
      cases hsuperclass
      exact (agree_introduce hn true).seq ((agree_references htraits).seq (members.within _))
    | some r =>
      cases hsuperclass with | some hr =>
      rw [stmt_subclass, stmt_subclass]
      exact (agree_introduce hn true).seq ((agree_checkSuperclass hn hr.name).seq
        ((agree_reference hr).seq ((agree_references htraits).seq
          ((agree_inScope hL (implicit_alike _) members).within _))))
  | traitDecl name ms ss =>
    cases hnode with | traitDecl hn hmethods hstatics =>
    exact (agree_introduce hn true).seq
      (((agree_methods hL hmethods).seq (agree_staticMethods hL hstatics)).within _)
termination_by structural s

end

/-! ## Programs -/

/-- One resolution is that of the other program but for identities and spans. -/
structure Alike (L : Likeness) (r r' : Resolution) : Prop where
  distances : List.Forall₂ (UsesAlike L) r.distances r'.distances
  warnings : List.Forall₂ (Warning.Alike L) r.warnings r'.warnings

/-- Programs that are alike are resolved alike or break the same rule. -/
theorem ofProgram_alike (hL : L.Regular) {body body' : List Stmt}
    (h : List.Forall₂ (Stmt.Alike L) body body') :
    (∃ r r', ofProgram body = .ok r ∧ ofProgram body' = .ok r' ∧ r.Alike L r') ∨
      ∃ e e', ofProgram body = .error e ∧ ofProgram body' = .error e' ∧ e.Alike L e' := by
  have hs : State.Alike L [] [] ⟨[], [], [], .topLevel⟩ ⟨[], [], [], .topLevel⟩ :=
    ⟨.nil, ⟨[], rfl, .nil⟩, ⟨[], rfl, .nil⟩, rfl⟩
  have hends := agree_stmts hL h _ _ hs
  unfold ofProgram
  generalize stmts body ⟨[], [], [], .topLevel⟩ = x at hends
  generalize stmts body' ⟨[], [], [], .topLevel⟩ = x' at hends
  cases hends with
  | error he => exact .inr ⟨_, _, rfl, rfl, he⟩
  | ok ht =>
    obtain ⟨-, ⟨uses, huses, hdistances⟩, ⟨more, hmore, hwarnings⟩, -⟩ := ht
    rw [List.append_nil] at huses
    rw [List.nil_append] at hmore
    exact .inl ⟨_, _, rfl, rfl, ⟨huses ▸ hdistances, hmore ▸ hwarnings⟩⟩

theorem stmts_append (ss ts : List Stmt) : stmts (ss ++ ts) = (do stmts ss; stmts ts) := by
  induction ss with
  | nil => rfl
  | cons s ss ih =>
    rw [List.cons_append, stmts, stmts, ih]
    exact (bind_assoc _ _ _).symm

/-- At the top level no scope is open behind a program either, so what comes behind it is resolved
as by itself. -/
theorem ofProgram_append (hL : L.Regular) {body rest rest' : List Stmt} {r q : Resolution}
    (hbody : ofProgram body = .ok r) (hrest : ofProgram rest = .ok q)
    (h : List.Forall₂ (Stmt.Alike L) rest rest') :
    ∃ q', ofProgram (body ++ rest') = .ok ⟨q'.distances ++ r.distances, r.warnings ++ q'.warnings⟩ ∧
      q.Alike L q' := by
  unfold ofProgram at hbody hrest
  split at hbody
  case h_2 => cases hbody
  next s hs =>
  split at hrest
  case h_2 => cases hrest
  next t ht =>
  cases hbody
  cases hrest
  have hnames : s.scopes = [] := by
    have := (adds_stmts body).names hs
    simpa [State.names] using this
  have hcontext : s.context = .topLevel := (adds_stmts body).context hs
  have hstart : State.Alike L s.distances s.warnings ⟨[], [], [], .topLevel⟩ s :=
    ⟨by rw [hnames]; exact .nil, ⟨[], rfl, .nil⟩, ⟨[], (List.append_nil _).symm, .nil⟩, hcontext.symm⟩
  have hends := agree_stmts hL h _ _ hstart
  rw [ht] at hends
  generalize hr : stmts rest' s = x at hends
  cases hends with
  | ok hu =>
    obtain ⟨-, ⟨uses, huses, hdistances⟩, ⟨more, hmore, hwarnings⟩, -⟩ := hu
    refine ⟨⟨uses, more⟩, ?_, hdistances, hwarnings⟩
    rw [ofProgram, stmts_append, EStateM.bind_of_ok hs, hr]
    dsimp only
    rw [huses, hmore]

end Resolution

end Lox

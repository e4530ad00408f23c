import Lox.Proofs.Scope.Walk

/-!
# What a walk leaves as it was

A walk through a statement or an expression, also one that ends in an error, is behind it in the
context and at the depth of scopes that it began in.  It adds names to no scope but the innermost,
and only those that the statement declares there; an expression declares none.  The variables that
were there before are there behind it, each with a status that has not gone back.

    Restored s.declared before ((stmt s).behind before)                         (restores_stmt)
    Restored [] before ((expr e).behind before)                                 (restores_expr)

A region of the program puts back only the parts of the context that it has changed itself, so this
rests on every walk inside it leaving the others alone.
-/

namespace Lox.Resolution

/-- How a status changes in time. -/
inductive Status.Forward : Status → Status → Prop
  | same (a : Status) : Forward a a
  | defined : Forward .declared .defined
  | read (a : Status) : Forward a .read

/-- The variable that it was, its status the same or a later one. -/
structure Variable.Forward (v v' : Variable) : Prop where
  status : v.status.Forward v'.status
  span : v'.span = v.span
  warns : v'.warns = v.warns

/-- The variable `name` of the scope that is `hops` scopes out. -/
def State.declared? (s : State) (hops : Nat) (name : String) : Option Variable :=
  s.scopes[hops]?.bind (·.find? name)

/-- The state that a walk ends in, with or without an error. -/
def Walk.behind (w : Walk Unit) (s : State) : State :=
  match w s with
  | .ok _ t | .error _ t => t

/-- Nothing has changed but that some of `names` are declared in the innermost scope, and that
variables have moved forward. -/
structure Restored (names : List String) (s t : State) : Prop where
  context : t.context = s.context
  depth : t.scopes.length = s.scopes.length
  names : ∃ more, more ⊆ names ∧ t.names = s.names.modifyHead (· ++ more)
  moves : ∀ hops name v, s.declared? hops name = some v →
    ∃ v', t.declared? hops name = some v' ∧ v.Forward v'

/-- The walk leaves every state so, whether or not it finds a rule broken. -/
def Restores (names : List String) (w : Walk Unit) : Prop :=
  ∀ s, Restored names s (w.behind s)

/-! ## Variables -/

theorem Status.Forward.trans {a b c : Status} (h : a.Forward b) (h' : b.Forward c) :
    a.Forward c := by
  cases h' with
  | same => exact h
  | read => exact .read a
  | defined =>
    cases h with
    | same => exact .defined

namespace Variable

theorem Forward.refl (v : Variable) : v.Forward v := ⟨.same _, rfl, rfl⟩

theorem Forward.trans {v₁ v₂ v₃ : Variable} (h : v₁.Forward v₂) (h' : v₂.Forward v₃) :
    v₁.Forward v₃ :=
  ⟨h.status.trans h'.status, h'.span.trans h.span, h'.warns.trans h.warns⟩

theorem forward_define (v : Variable) : v.Forward v.define := by
  unfold define
  split
  · next h => exact ⟨h ▸ .defined, rfl, rfl⟩
  · exact .refl v

theorem forward_markRead (v : Variable) : v.Forward v.markRead := ⟨.read _, rfl, rfl⟩

end Variable

/-! ## Composing walks -/

theorem Walk.behind_of_ok {w : Walk Unit} {s t : State} (h : w s = .ok () t) : w.behind s = t := by
  rw [behind, h]

theorem Walk.behind_of_error {w : Walk Unit} {s t : State} {e : ScopeError}
    (h : w s = .error e t) : w.behind s = t := by
  rw [behind, h]

theorem Walk.behind_modify (f : State → State) (s : State) :
    Walk.behind (modify f) s = f s := rfl

theorem State.length_closeScope (s : State) : s.closeScope.scopes.length = s.scopes.length - 1 := by
  unfold closeScope
  split
  · next h => simp [h]
  · next h => simp [h]

namespace Restored

variable {a b : List String} {s t u : State}

theorem refl (s : State) : Restored a s s where
  context := rfl
  depth := rfl
  names := ⟨[], List.nil_subset a, (modifyHead_append_nil s.names).symm⟩
  moves _ _ v hv := ⟨v, hv, Variable.Forward.refl v⟩

theorem mono (h : Restored a s t) (hab : a ⊆ b) : Restored b s t :=
  { h with
    names :=
      let ⟨more, hmore, hnames⟩ := h.names
      ⟨more, List.Subset.trans hmore hab, hnames⟩ }

theorem trans (h : Restored a s t) (h' : Restored b t u) : Restored (a ++ b) s u where
  context := h'.context.trans h.context
  depth := h'.depth.trans h.depth
  names := by
    obtain ⟨more, hmore, hnames⟩ := h.names
    obtain ⟨more', hmore', hnames'⟩ := h'.names
    refine ⟨more ++ more', List.append_subset.2 ⟨?_, ?_⟩, ?_⟩
    · exact List.Subset.trans hmore (List.subset_append_left a b)
    · exact List.Subset.trans hmore' (List.subset_append_right a b)
    · rw [hnames', hnames, List.modifyHead_modifyHead]
      congr 1
      funext names
      exact List.append_assoc _ _ _
  moves hops name v hv := by
    obtain ⟨v', hv', hforward⟩ := h.moves hops name v hv
    obtain ⟨v'', hv'', hforward'⟩ := h'.moves hops name v' hv'
    exact ⟨v'', hv'', hforward.trans hforward'⟩

/-- Changing a variable in some scope, if it only moves forward. -/
theorem modify {f : Variable → Variable} (hf : ∀ v, Variable.Forward v (f v)) (hops : Nat) (name : String)
    (hc : t.context = s.context) (ht : t.scopes = s.scopes.modify hops (·.modify name f)) :
    Restored [] s t where
  context := hc
  depth := by rw [ht, List.length_modify]
  names := by
    refine ⟨[], List.nil_subset _, ?_⟩
    rw [modifyHead_append_nil, State.names, State.names, ht]
    refine List.ext_getElem? fun i => ?_
    rw [List.getElem?_map, List.getElem?_modify, List.getElem?_map]
    cases s.scopes[i]? with
    | none => rfl
    | some scope => by_cases hi : hops = i <;> simp [hi]
  moves i x v hv := by
    obtain ⟨scope, hscope, hv⟩ := Option.bind_eq_some_iff.1 hv
    rw [State.declared?, ht, List.getElem?_modify, hscope]
    by_cases hi : hops = i
    · by_cases hx : name = x
      · exact ⟨f v, by simp [hi, hx, Table.find?_modify, hv], hf v⟩
      · exact ⟨v, by simp [hi, hx, Table.find?_modify, hv], .refl v⟩
    · exact ⟨v, by simp [hi, hv], .refl v⟩

end Restored

namespace Restores

variable {a b : List String} {w w' : Walk Unit}

/-- A check, with or without an error. -/
theorem of_eq (h : ∀ s, w.behind s = s) : Restores a w := fun s => (h s).symm ▸ Restored.refl s

theorem get {f : State → Walk Unit} (h : ∀ s, Restored a s ((f s).behind s)) :
    Restores a (MonadState.get >>= f) := h

theorem pure : Restores a (Pure.pure ()) := .of_eq fun _ => rfl

/-- Behind an error of the first walk the second one is not begun. -/
theorem bind (h : Restores a w) (h' : Restores b w') : Restores (a ++ b) (do w; w') := by
  intro s
  have hw := h s
  cases hr : w s with
  | error e t =>
    rw [Walk.behind_of_error hr] at hw
    rw [Walk.behind_of_error (EStateM.bind_of_error hr _)]
    exact hw.mono (List.subset_append_left a b)
  | ok _ t =>
    rw [Walk.behind_of_ok hr] at hw
    rw [Walk.behind, EStateM.bind_of_ok hr]
    exact hw.trans (h' t)

/-- Two walks of which neither declares anything. -/
theorem seq (h : Restores [] w) (h' : Restores [] w') : Restores [] (do w; w') := h.bind h'

/-- Nothing is declared in the last walk. -/
theorem bindLast (h : Restores a w) (h' : Restores [] w') : Restores a (do w; w') :=
  List.append_nil a ▸ h.bind h'

theorem optional {α : Type} {walk : α → Walk Unit} (part : Option α)
    (h : ∀ x ∈ part, Restores a (walk x)) : Restores a (Resolution.optional walk part) := by
  cases part with
  | none => exact .pure
  | some x => exact h x rfl

theorem forM {α : Type} {walk : α → Walk Unit} {names : α → List String} (xs : List α)
    (h : ∀ x, Restores (names x) (walk x)) : Restores (xs.flatMap names) (xs.forM walk) := by
  induction xs with
  | nil => exact .pure
  | cons x xs ih => exact (h x).bind ih

/-- A region puts back what it has changed, and its inside puts back the rest. -/
theorem within {region : Region} (h : Restores a w) : Restores a (within region w) := by
  intro s
  have hw := h { s with context := region.enter s.context }
  have hbehind : (Resolution.within region w).behind s =
      let t := w.behind { s with context := region.enter s.context }
      { t with context := region.leave s.context t.context } := by
    unfold Walk.behind Resolution.within
    cases w { s with context := region.enter s.context } <;> rfl
  rw [hbehind]
  exact ⟨region.leave_eq hw.context, hw.depth, hw.names, hw.moves⟩

/-- The scope that is closed is the one that was opened: those further out are at their depth. -/
theorem inScope {scope : Scope} (h : Restores a w) : Restores [] (inScope scope w) := by
  intro s
  have hw := h { s with scopes := scope :: s.scopes }
  have hbehind : (Resolution.inScope scope w).behind s =
      (w.behind { s with scopes := scope :: s.scopes }).closeScope := by
    unfold Walk.behind Resolution.inScope
    cases w { s with scopes := scope :: s.scopes } <;> rfl
  rw [hbehind]
  generalize w.behind { s with scopes := scope :: s.scopes } = t at hw
  obtain ⟨more, -, hnames⟩ := hw.names
  refine ⟨(State.context_closeScope t).trans hw.context, ?_, ⟨[], List.nil_subset _, ?_⟩, ?_⟩
  · rw [State.length_closeScope, hw.depth]
    rfl
  · rw [State.names_closeScope, hnames, modifyHead_append_nil]
    rfl
  · intro hops name v hv
    obtain ⟨v', hv', hforward⟩ := hw.moves (hops + 1) name v hv
    refine ⟨v', ?_, hforward⟩
    unfold State.declared? State.closeScope at *
    split
    · next hnil => simp [hnil] at hv'
    · next hcons => rwa [hcons] at hv'

end Restores

/-! ## Single steps -/

theorem restores_declare (name : Identifier) (warns : Bool) :
    Restores [name.name] (declare name warns) := by
  refine .get fun s => ?_
  cases hs : s.scopes with
  | nil => exact .refl s
  | cons scope scopes =>
    dsimp only
    split
    · exact .refl s
    · next hnew =>
      rw [Bool.not_eq_true] at hnew
      rw [Walk.behind_modify]
      refine ⟨?_, ?_, ⟨[name.name], List.Subset.refl _, ?_⟩, ?_⟩
      · simp [State.modifyInnermost, hs]
      · simp [State.modifyInnermost, hs]
      · simp [State.names, State.modifyInnermost, hs, Table.names_insert hnew]
      · intro hops x v hv
        refine ⟨v, ?_, .refl v⟩
        cases hops with
        | zero =>
          have hx : name.name ≠ x := by
            rintro rfl
            simp [State.declared?, hs] at hv
            simp [Table.contains, hv] at hnew
          simpa [State.declared?, State.modifyInnermost, hs, hx] using hv
        | succ hops => simpa [State.declared?, State.modifyInnermost, hs] using hv

theorem State.modifyInnermost_eq (f : Scope → Scope) (s : State) :
    s.modifyInnermost f = { s with scopes := s.scopes.modify 0 f } := by
  obtain ⟨scopes, distances, warnings, context⟩ := s
  cases scopes <;> rfl

theorem restores_define (name : String) : Restores [] (define name) := by
  intro s
  show Restored [] s (s.modifyInnermost _)
  rw [State.modifyInnermost_eq]
  exact .modify Variable.forward_define 0 name rfl rfl

theorem restores_introduce (name : Identifier) (warns : Bool) :
    Restores [name.name] (introduce name warns) :=
  (restores_declare name warns).bindLast (restores_define name.name)

theorem restored_use (s : State) (id : ExprId) (name : String) (reads : Bool) :
    Restored [] s (s.use id name reads) := by
  unfold State.use
  split
  · next hops _ =>
    cases reads with
    | true => exact .modify Variable.forward_markRead hops name rfl rfl
    | false =>
      have hsame : Restored [] s s := .refl s
      exact ⟨hsame.context, hsame.depth, hsame.names, hsame.moves⟩
  · exact .refl s

theorem restores_use (id : ExprId) (name : String) (reads : Bool) :
    Restores [] (modify (·.use id name reads)) := fun s => restored_use s id name reads

theorem restores_readName (id : ExprId) (name : Identifier) : Restores [] (readName id name) := by
  refine .get fun s => ?_
  split
  · exact .refl s
  · exact restored_use s id name.name true

theorem restores_receiver (id : ExprId) (span : Span) : Restores [] (receiver id span) := by
  refine .get fun s => ?_
  split
  · exact .refl s
  · split
    · exact .refl s
    · exact restored_use s id Name.this true

theorem restores_superclass (id : ExprId) (span : Span) : Restores [] (superclass id span) := by
  refine .get fun s => ?_
  cases s.context.owner with
  | subclass => exact restored_use s id Name.super true
  | _ => exact .refl s

theorem restores_loopControl (span : Span) (keyword : Keyword) :
    Restores [] (loopControl span keyword) := by
  refine .get fun s => ?_
  split <;> exact .refl s

theorem restores_returnAt (span : Span) : Restores [] (returnAt span) := by
  refine .get fun s => ?_
  split <;> exact .refl s

theorem restores_returnValueAt (span : Span) : Restores [] (returnValueAt span) := by
  refine .get fun s => ?_
  split <;> exact .refl s

theorem restores_checkSuperclass (name super : Identifier) :
    Restores [] (checkSuperclass name super) := by
  refine .of_eq fun s => ?_
  unfold checkSuperclass
  split <;> rfl

theorem restores_references (rs : List Reference) : Restores [] (rs.forM reference) := by
  have := Restores.forM rs fun r => restores_readName r.id r.name
  rwa [List.flatMap_eq_nil_iff.2 fun _ _ => rfl] at this

/-! ## The walk -/

mutual

theorem restores_expr (e : Expr) : Restores [] (expr e) := by
  obtain ⟨id, span, node⟩ := e
  cases node with
  | literal value => exact .pure
  | group e | unary op e => exact restores_expr e
  | binary op left right | logical op left right =>
    exact (restores_expr left).seq (restores_expr right)
  | ternary condition yes no =>
    exact (restores_expr condition).seq ((restores_expr yes).seq (restores_expr no))
  | «variable» name => exact restores_readName id name
  | assign name value => exact (restores_expr value).seq (restores_use id name.name false)
  | call callee args => exact (restores_expr callee).seq (restores_exprs args)
  | get object property => exact restores_expr object
  | set object property value => exact (restores_expr value).seq (restores_expr object)
  | array elements => exact restores_exprs elements
  | index array position => exact (restores_expr array).seq (restores_expr position)
  | indexSet array position value =>
    exact (restores_expr array).seq ((restores_expr position).seq (restores_expr value))
  | lambda f => exact restores_function .function f
  | this => exact restores_receiver id span
  | super method => exact restores_superclass id span

theorem restores_exprs (es : List Expr) : Restores [] (exprs es) := by
  cases es with
  | nil => exact .pure
  | cons e es => exact (restores_expr e).seq (restores_exprs es)

theorem restores_function (kind : FunctionContext) (f : Function) :
    Restores [] (function kind f) := by
  obtain ⟨name, params, body, isGetter, span⟩ := f
  exact .within (.inScope ((Restores.forM params fun p => restores_introduce p false).bind
    (restores_stmts body)))

theorem restores_methods (fs : List Function) : Restores [] (methods fs) := by
  cases fs with
  | nil => exact .pure
  | cons f fs => exact (Restores.inScope (restores_function _ f)).seq (restores_methods fs)

theorem restores_staticMethods (fs : List Function) : Restores [] (staticMethods fs) := by
  cases fs with
  | nil => exact .pure
  | cons f fs => exact (restores_function _ f).seq (restores_staticMethods fs)

theorem restores_stmts (ss : List Stmt) : Restores (ss.flatMap Stmt.declared) (stmts ss) := by
  cases ss with
  | nil => exact .pure
  | cons s ss => exact (restores_stmt s).bind (restores_stmts ss)

/-- However a statement is left, the scopes around it are as they were but for what it declares and
reads. -/
theorem restores_stmt (s : Stmt) : Restores s.declared (stmt s) := by
  obtain ⟨span, node⟩ := s
  cases node with
  | expression e | print e => exact restores_expr e
  | varDecl name init =>
    rw [stmt_varDecl]
    exact (restores_declare name true).bindLast
      ((Restores.optional init fun e _ => restores_expr e).seq (restores_define name.name))
  | block body => exact .inScope (restores_stmts body)
  | ifElse condition yes no =>
    cases no with
    | none => exact (restores_expr condition).bind ((restores_stmt yes).bind .pure)
    | some s => exact (restores_expr condition).bind ((restores_stmt yes).bind (restores_stmt s))
  | «while» condition body => exact (restores_expr condition).bind (.within (restores_stmt body))
  | «for» init condition step body =>
    have hcondition := Restores.optional condition fun e _ => restores_expr e
    have hstep := Restores.optional step fun e _ => restores_expr e
    have hbody : Restores body.declared (within .loop (stmt body)) := .within (restores_stmt body)
    have hbehind := hcondition.bind (hstep.bind hbody)
    rw [stmt_for]
    cases init with
    | none => exact .inScope (Restores.bind (a := []) .pure hbehind)
    | some i => exact .inScope ((restores_stmt i).bind hbehind)
  | «break» => exact restores_loopControl span .break
  | «continue» => exact restores_loopControl span .continue
  | funDecl f => exact (restores_introduce f.name true).bindLast (restores_function .function f)
  | «return» value =>
    rw [stmt_return]
    exact (restores_returnAt span).seq (.optional value fun e _ =>
      (restores_returnValueAt span).seq (restores_expr e))
  | classDecl name superclass traits ms ss =>
    have hmembers := (restores_methods ms).seq (restores_staticMethods ss)
    cases superclass with
    | none =>
      exact (restores_introduce name true).bindLast
        ((restores_references traits).seq (.within hmembers))
    | some r =>
      rw [stmt_subclass]
      exact (restores_introduce name true).bindLast ((restores_checkSuperclass name r.name).seq
        ((restores_readName r.id r.name).seq
          ((restores_references traits).seq (.within (.inScope hmembers)))))
  | traitDecl name ms ss =>
    exact (restores_introduce name true).bindLast
      (.within ((restores_methods ms).seq (restores_staticMethods ss)))

end

/-- Every step of the walk restores what it works in: the context, the number of scopes, the names
in all scopes but the innermost, and there all but those newly declared.  The variables that there
are stay, and come forward only. -/
theorem steps_restore (before : State) :
    (∀ s : Stmt, Restored s.declared before ((stmt s).behind before)) ∧
      ∀ e : Expr, Restored [] before ((expr e).behind before) :=
  ⟨fun s => restores_stmt s before, fun e => restores_expr e before⟩

end Lox.Resolution

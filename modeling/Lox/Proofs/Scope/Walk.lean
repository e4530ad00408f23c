import Lox.Proofs.Sequence
import Lox.Proofs.Scope.Place
import Lox.Proofs.Syntax.Identity
import Lox.Proofs.Syntax.WellFormed

/-!
# What walking does to the scopes

A walk that finds no rule broken adds names to the innermost scope and distances to those recorded,
and is back in the context that it began in.  Which names it adds shows in the text: those that a
statement declares (`Stmt.declared`); an expression declares none.

    stmt st s = .ok () t → t.names = s.names.modifyHead (· ++ st.declared)          (adds_stmt)
-/

namespace Lox

/-- The names that a statement declares in the scope around it. -/
def Stmt.declared : Stmt → List String
  | ⟨_, node⟩ =>
    match node with
    | .varDecl name _ | .classDecl name _ _ _ _ | .traitDecl name _ _ => [name.name]
    | .funDecl f => [f.name.name]
    | .ifElse _ yes no =>
      yes.declared ++ match no with
        | some s => s.declared
        | none => []
    | .while _ body => body.declared
    | _ => []

/-- A statement that is no declaration has none inside it either, outside blocks. -/
theorem Stmt.declared_eq_nil (s : Stmt) (h : s.WellFormed) (hd : s.isDeclaration = false) :
    s.declared = [] := by
  obtain ⟨span, node⟩ := s
  cases node with
  | ifElse condition yes no =>
    obtain ⟨-, ⟨hy, hyes⟩, hno⟩ := Stmt.wellFormed_ifElse.1 h
    have := yes.declared_eq_nil hyes hy
    cases no with
    | none => simpa [Stmt.declared] using this
    | some no =>
      obtain ⟨hn, hno⟩ := hno no rfl
      simpa [Stmt.declared, this] using no.declared_eq_nil hno hn
  | «while» condition body => exact body.declared_eq_nil h.2.2 h.2.1
  | varDecl name init => simp [Stmt.isDeclaration] at hd
  | funDecl f => simp [Stmt.isDeclaration] at hd
  | classDecl name superclass traits ms ss => simp [Stmt.isDeclaration] at hd
  | traitDecl name ms ss => simp [Stmt.isDeclaration] at hd
  | _ => rfl

namespace Resolution

/-- The names in the open scopes, innermost first. -/
def State.names (s : State) : List (List String) := s.scopes.map Table.names

/-- How often a use of the identity has been recorded. -/
def State.uses (s : State) (id : ExprId) : Nat := (s.distances.map Prod.fst).count id

/-- If the walk goes well it adds `more` to the innermost scope, and distances of at most `ids`. -/
structure Adds (w : Walk Unit) (more : List String) (ids : List ExprId) : Prop where
  names : ∀ {s t}, w s = .ok () t → t.names = s.names.modifyHead (· ++ more)
  context : ∀ {s t}, w s = .ok () t → t.context = s.context
  distances : ∀ {s t}, w s = .ok () t → s.distances <:+ t.distances
  uses : ∀ {s t}, w s = .ok () t → ∀ id, t.uses id ≤ s.uses id + ids.count id

theorem State.distance?_eq (s : State) (name : String) :
    distance? name s.scopes = s.names.findIdx? (name ∈ ·) := by
  unfold distance? names
  rw [List.findIdx?_map]
  congr 1
  funext scope
  exact scope.contains_eq name

/-! ## Composing walks -/

theorem modifyHead_append_nil (names : List (List String)) :
    names.modifyHead (· ++ []) = names := by
  cases names <;> simp

/-- A check changes nothing. -/
theorem Adds.of_eq {w : Walk Unit} (h : ∀ s t, w s = .ok () t → t = s) : Adds w [] [] where
  names ht := by rw [h _ _ ht, modifyHead_append_nil]
  context ht := by rw [h _ _ ht]
  distances ht := by cases h _ _ ht; exact List.suffix_rfl
  uses ht _ := by cases h _ _ ht; exact Nat.le_add_right _ _

theorem Adds.pure : Adds (Pure.pure ()) [] [] :=
  .of_eq fun _ _ h => by cases h; rfl

theorem Adds.bind {w w' : Walk Unit} {a b : List String} {ids ids' : List ExprId}
    (h : Adds w a ids) (h' : Adds w' b ids') : Adds (do w; w') (a ++ b) (ids ++ ids') where
  names {s u} hu := by
    obtain ⟨_, t, hw, hw'⟩ := EStateM.bind_eq_ok.1 hu
    rw [h'.names hw', h.names hw, List.modifyHead_modifyHead]
    congr 1
    funext names
    exact List.append_assoc _ _ _
  context hu := by
    obtain ⟨_, t, hw, hw'⟩ := EStateM.bind_eq_ok.1 hu
    exact (h'.context hw').trans (h.context hw)
  distances hu := by
    obtain ⟨_, t, hw, hw'⟩ := EStateM.bind_eq_ok.1 hu
    exact (h.distances hw).trans (h'.distances hw')
  uses hu id := by
    obtain ⟨_, t, hw, hw'⟩ := EStateM.bind_eq_ok.1 hu
    have := h.uses hw id
    have := h'.uses hw' id
    rw [List.count_append]
    omega

/-- Two walks of which neither declares anything. -/
theorem Adds.seq {w w' : Walk Unit} {ids ids' : List ExprId} (h : Adds w [] ids)
    (h' : Adds w' [] ids') : Adds (do w; w') [] (ids ++ ids') :=
  h.bind h'

/-- A last walk that records nothing. -/
theorem Adds.bindLast {w w' : Walk Unit} {a b : List String} {ids : List ExprId}
    (h : Adds w a ids) (h' : Adds w' b []) : Adds (do w; w') (a ++ b) ids := by
  simpa using h.bind h'

/-- The identity of an expression comes before those of its parts. -/
theorem Adds.rotate {w : Walk Unit} {more : List String} {ids : List ExprId} {id : ExprId}
    (h : Adds w more (ids ++ [id])) : Adds w more (id :: ids) :=
  { h with
    uses := fun ht id' => by
      have := h.uses ht id'
      rw [List.count_append] at this
      rw [List.count_cons]
      simp only [List.count_singleton] at this
      omega }

theorem Adds.cons {w : Walk Unit} {more : List String} {ids : List ExprId} (h : Adds w more ids)
    (id : ExprId) : Adds w more (id :: ids) :=
  { h with
    uses := fun ht id' => by
      have := h.uses ht id'
      rw [List.count_cons]
      omega }

/-- Behind a region the context is the one before it, if its inside leaves the context alone. -/
theorem Region.leave_eq (region : Region) {c c' : Context} (h : c' = region.enter c) :
    region.leave c c' = c := by
  rw [h, region.leave_enter]

theorem within_eq_ok {region : Region} {w : Walk Unit} {s u : State}
    (h : within region w s = .ok () u) :
    ∃ t, w { s with context := region.enter s.context } = .ok () t ∧
      u = { t with context := region.leave s.context t.context } := by
  unfold within at h
  split at h
  · next t hw => cases h; exact ⟨t, hw, rfl⟩
  · cases h

theorem within_eq_error {region : Region} {w : Walk Unit} {s u : State} {e : ScopeError}
    (h : within region w s = .error e u) :
    ∃ t, w { s with context := region.enter s.context } = .error e t := by
  unfold within at h
  split at h
  · cases h
  · next t hw => cases h; exact ⟨t, hw⟩

theorem Adds.within {region : Region} {w : Walk Unit} {more : List String}
    {ids : List ExprId} (h : Adds w more ids) : Adds (within region w) more ids := by
  constructor <;> intro s u hu <;> obtain ⟨t, hw, rfl⟩ := within_eq_ok hu
  · have := h.names hw
    exact this
  · exact region.leave_eq (h.context hw)
  · have := h.distances hw
    exact this
  · have := h.uses hw
    exact this

theorem State.names_closeScope (s : State) : s.closeScope.names = s.names.tail := by
  unfold closeScope names
  cases h : s.scopes <;> simp [h]

theorem State.context_closeScope (s : State) : s.closeScope.context = s.context := by
  unfold closeScope
  split <;> rfl

theorem State.distances_closeScope (s : State) : s.closeScope.distances = s.distances := by
  unfold closeScope
  split <;> rfl

theorem inScope_eq_ok {scope : Scope} {w : Walk Unit} {s u : State}
    (h : inScope scope w s = .ok () u) :
    ∃ t, w { s with scopes := scope :: s.scopes } = .ok () t ∧ u = t.closeScope := by
  unfold inScope at h
  split at h
  · next t hw => cases h; exact ⟨t, hw, rfl⟩
  · cases h

theorem inScope_eq_error {scope : Scope} {w : Walk Unit} {s u : State} {e : ScopeError}
    (h : inScope scope w s = .error e u) :
    ∃ t, w { s with scopes := scope :: s.scopes } = .error e t := by
  unfold inScope at h
  split at h
  · cases h
  · next t hw => cases h; exact ⟨t, hw⟩

/-- What is declared in a scope of its own is gone behind it. -/
theorem Adds.inScope {scope : Scope} {w : Walk Unit} {more : List String} {ids : List ExprId}
    (h : Adds w more ids) : Adds (inScope scope w) [] ids := by
  constructor <;> intro s u hu <;> obtain ⟨t, hw, rfl⟩ := inScope_eq_ok hu
  · rw [State.names_closeScope, h.names hw, modifyHead_append_nil]
    simp [State.names]
  · have := h.context hw
    exact (State.context_closeScope t).trans this
  · have := h.distances hw
    rw [State.distances_closeScope]
    exact this
  · intro id
    have := h.uses hw id
    unfold State.uses
    rw [State.distances_closeScope]
    exact this

/-! ## Names -/

theorem declare_eq_ok {name : Identifier} {warns : Bool} {s t : State}
    (h : declare name warns s = .ok () t) :
    (s.scopes = [] ∧ t = s) ∨
      ∃ scope scopes, s.scopes = scope :: scopes ∧ scope.contains name.name = false ∧
        t = { s with scopes := scope.insert name.name ⟨.declared, name.span, warns⟩ :: scopes } := by
  rw [declare, EStateM.get_bind_apply] at h
  cases hs : s.scopes with
  | nil =>
    simp only [hs] at h
    cases h
    exact .inl ⟨rfl, rfl⟩
  | cons scope scopes =>
    simp only [hs] at h
    split at h
    · cases h
    · next hnew =>
      cases h
      exact .inr ⟨scope, scopes, rfl, Bool.not_eq_true _ ▸ hnew, by simp [State.modifyInnermost, hs]⟩

theorem adds_declare (name : Identifier) (warns : Bool) :
    Adds (declare name warns) [name.name] [] := by
  constructor <;> intro s t h <;>
    obtain ⟨hs, rfl⟩ | ⟨scope, scopes, hs, hnew, rfl⟩ := declare_eq_ok h
  · simp [State.names, hs]
  · simp [State.names, hs, Table.names_insert hnew]
  · rfl
  · rfl
  · exact List.suffix_rfl
  · exact List.suffix_rfl
  · simp
  · simp [State.uses]

theorem adds_define (name : String) : Adds (define name) [] [] := by
  constructor <;> rintro s t ⟨⟩ <;> cases hs : s.scopes <;>
    simp [State.names, State.modifyInnermost, State.uses, hs]

theorem adds_introduce (name : Identifier) (warns : Bool) :
    Adds (introduce name warns) [name.name] [] :=
  (adds_declare name warns).bind (adds_define name.name)

theorem names_modify_markRead (scopes : List Scope) (i : Nat) (name : String) :
    (scopes.modify i (·.modify name Variable.markRead)).map Table.names =
      scopes.map Table.names := by
  induction scopes generalizing i with
  | nil => simp
  | cons scope scopes ih =>
    cases i with
    | zero => simp
    | succ i => simp [ih]

theorem State.names_use (s : State) (id : ExprId) (name : String) (reads : Bool) :
    (s.use id name reads).names = s.names := by
  unfold use names
  split
  · cases reads with
    | true => exact names_modify_markRead _ _ _
    | false => rfl
  · rfl

theorem State.context_use (s : State) (id : ExprId) (name : String) (reads : Bool) :
    (s.use id name reads).context = s.context := by
  unfold use
  split <;> rfl

theorem State.distances_use (s : State) (id : ExprId) (name : String) (reads : Bool) :
    (s.use id name reads).distances =
      ((Resolution.distance? name s.scopes).map fun hops => (id, hops)).toList ++ s.distances := by
  unfold use
  split
  · next h => simp [h]
  · next h => simp [h]

theorem adds_use (id : ExprId) (name : String) (reads : Bool) :
    Adds (modify (·.use id name reads)) [] [id] where
  names := by
    rintro s t ⟨⟩
    rw [modifyHead_append_nil, State.names_use]
  context := by
    rintro s t ⟨⟩
    exact s.context_use id name reads
  distances := by
    rintro s t ⟨⟩
    rw [State.distances_use]
    exact List.suffix_append _ _
  uses := by
    rintro s t ⟨⟩ id'
    unfold State.uses
    rw [State.distances_use, List.map_append, List.count_append]
    cases Resolution.distance? name s.scopes <;> simp [Nat.add_comm]

/-- A name that is read may be read. -/
theorem readName_eq_ok {id : ExprId} {name : Identifier} {s t : State}
    (h : readName id name s = .ok () t) :
    s.isInitializing name.name = false ∧ t = s.use id name.name true := by
  rw [readName, EStateM.get_bind_apply] at h
  split at h
  · cases h
  · next hi => cases h; exact ⟨Bool.not_eq_true _ ▸ hi, rfl⟩

theorem receiver_eq_ok {id : ExprId} {span : Span} {s t : State}
    (h : receiver id span s = .ok () t) :
    s.context.owner ≠ .none ∧ s.context.inStatic = false ∧
      (distance? Name.this s.scopes).isSome ∧ t = s.use id Name.this true := by
  rw [receiver, EStateM.get_bind_apply] at h
  split at h
  · cases h
  · next ho =>
    split at h
    · cases h
    · next hs =>
      cases h
      simp only [not_or, Bool.not_eq_true] at hs
      exact ⟨ho, hs.1, by simpa [Option.isSome_iff_ne_none] using hs.2, rfl⟩

theorem superclass_eq_ok {id : ExprId} {span : Span} {s t : State}
    (h : superclass id span s = .ok () t) :
    s.context.owner = .subclass ∧ t = s.use id Name.super true := by
  rw [superclass, EStateM.get_bind_apply] at h
  cases ho : s.context.owner <;> simp only [ho] at h <;> cases h
  exact ⟨rfl, rfl⟩

theorem loopControl_eq_ok {span : Span} {keyword : Keyword} {s t : State}
    (h : loopControl span keyword s = .ok () t) : s.context.loops ≠ 0 ∧ t = s := by
  rw [loopControl, EStateM.get_bind_apply] at h
  split at h
  · cases h
  · next hl => cases h; exact ⟨hl, rfl⟩

theorem returnAt_eq_ok {span : Span} {s t : State} (h : returnAt span s = .ok () t) :
    s.context.function ≠ .none ∧ t = s := by
  rw [returnAt, EStateM.get_bind_apply] at h
  split at h
  · cases h
  · next hf => cases h; exact ⟨hf, rfl⟩

theorem returnValueAt_eq_ok {span : Span} {s t : State}
    (h : returnValueAt span s = .ok () t) :
    s.context.function ≠ .initializer ∧ t = s := by
  rw [returnValueAt, EStateM.get_bind_apply] at h
  split at h
  · cases h
  · next hf => cases h; exact ⟨hf, rfl⟩

/-! ## Single steps -/

/-- A walk that at most records a use, after some check. -/
theorem Adds.of_use {w : Walk Unit} {id : ExprId} {name : String} {reads : Bool}
    (h : ∀ s t, w s = .ok () t → t = s.use id name reads) : Adds w [] [id] where
  names ht := by rw [h _ _ ht]; exact (adds_use id name reads).names rfl
  context ht := by rw [h _ _ ht]; exact (adds_use id name reads).context rfl
  distances ht := by rw [h _ _ ht]; exact (adds_use id name reads).distances rfl
  uses ht := by rw [h _ _ ht]; exact (adds_use id name reads).uses rfl

theorem adds_readName (id : ExprId) (name : Identifier) : Adds (readName id name) [] [id] :=
  .of_use fun _ _ h => (readName_eq_ok h).2

theorem adds_receiver (id : ExprId) (span : Span) : Adds (receiver id span) [] [id] :=
  .of_use fun _ _ h => (receiver_eq_ok h).2.2.2

theorem adds_superclass (id : ExprId) (span : Span) : Adds (superclass id span) [] [id] :=
  .of_use fun _ _ h => (superclass_eq_ok h).2

theorem adds_loopControl (span : Span) (keyword : Keyword) :
    Adds (loopControl span keyword) [] [] :=
  .of_eq fun _ _ h => (loopControl_eq_ok h).2

theorem adds_returnAt (span : Span) : Adds (returnAt span) [] [] :=
  .of_eq fun _ _ h => (returnAt_eq_ok h).2

theorem adds_returnValueAt (span : Span) : Adds (returnValueAt span) [] [] :=
  .of_eq fun _ _ h => (returnValueAt_eq_ok h).2

theorem adds_references (rs : List Reference) :
    Adds (rs.forM reference) [] (rs.map Reference.id) := by
  induction rs with
  | nil => exact .pure
  | cons r rs ih => exact (adds_readName r.id r.name).seq ih

theorem adds_parameters (params : List Identifier) :
    Adds (params.forM (introduce · false)) (params.map Identifier.name) [] := by
  induction params with
  | nil => exact .pure
  | cons p ps ih => exact (adds_introduce p false).bind ih

/-! ## Statements as sequences

The walk through a statement, with what may be missing from it as one step. -/

/-- Walks through a part that may be missing. -/
def optional {α : Type} (walk : α → Walk Unit) : Option α → Walk Unit
  | some a => walk a
  | none => pure ()

theorem Adds.optional {α : Type} {walk : α → Walk Unit} {ids : α → List ExprId}
    (part : Option α) (h : ∀ a ∈ part, Adds (walk a) [] (ids a)) :
    Adds (Resolution.optional walk part) [] ((part.map ids).getD []) := by
  cases part with
  | none => exact .pure
  | some a => exact h a rfl

/-- A class may not name itself as its superclass. -/
def checkSuperclass (name super : Identifier) : Walk Unit :=
  if super.name = name.name then fail super.span .inheritFromSelf else pure ()

theorem checkSuperclass_eq_ok {name super : Identifier} {s t : State}
    (h : checkSuperclass name super s = .ok () t) : super.name ≠ name.name ∧ t = s := by
  unfold checkSuperclass at h
  split at h
  · cases h
  · next hn => cases h; exact ⟨hn, rfl⟩

theorem stmt_varDecl (span : Span) (name : Identifier) (init : Option Expr) :
    stmt ⟨span, .varDecl name init⟩ =
      (do declare name true; optional expr init; define name.name) := by
  cases init <;> rfl

theorem stmt_ifElse (span : Span) (condition : Expr) (yes : Stmt) (no : Option Stmt) :
    stmt ⟨span, .ifElse condition yes no⟩ =
      (do expr condition; stmt yes; optional stmt no) := by
  cases no <;> rfl

theorem stmt_for (span : Span) (init : Option Stmt) (condition step : Option Expr) (body : Stmt) :
    stmt ⟨span, .for init condition step body⟩ =
      inScope ∅ (do
        optional stmt init
        optional expr condition
        optional expr step
        within .loop (stmt body)) := by
  cases init <;> cases condition <;> cases step <;> rfl

theorem stmt_return (span : Span) (value : Option Expr) :
    stmt ⟨span, .return value⟩ =
      (do returnAt span; optional (fun e => do returnValueAt span; expr e) value) := by
  cases value <;> rfl

theorem stmt_subclass (span : Span) (name : Identifier) (r : Reference)
    (traits : List Reference) (ms ss : List Function) :
    stmt ⟨span, .classDecl name (some r) traits ms ss⟩ = (do
      introduce name true
      checkSuperclass name r.name
      reference r
      traits.forM reference
      within (.members .subclass) (inScope superclassScope do
        methods ms; staticMethods ss)) := by
  funext s
  simp only [stmt, checkSuperclass]
  split <;> rfl

/-! ## The walk -/

mutual

theorem adds_expr (e : Expr) : Adds (expr e) [] e.ids := by
  obtain ⟨id, span, node⟩ := e
  cases node with
  | literal value => exact Adds.pure.cons id
  | group e => exact (adds_expr e).cons id
  | unary op e => exact (adds_expr e).cons id
  | binary op left right => exact ((adds_expr left).seq (adds_expr right)).cons id
  | logical op left right => exact ((adds_expr left).seq (adds_expr right)).cons id
  | ternary condition yes no =>
    exact ((adds_expr condition).seq ((adds_expr yes).seq (adds_expr no))).cons id
  | «variable» name => exact adds_readName id name
  | assign name value => exact ((adds_expr value).seq (adds_use id name.name false)).rotate
  | call callee args => exact ((adds_expr callee).seq (adds_exprs args)).cons id
  | get object property => exact (adds_expr object).cons id
  | set object property value => exact ((adds_expr value).seq (adds_expr object)).cons id
  | array elements => exact (adds_exprs elements).cons id
  | index array position => exact ((adds_expr array).seq (adds_expr position)).cons id
  | indexSet array position value =>
    exact ((adds_expr array).seq ((adds_expr position).seq (adds_expr value))).cons id
  | lambda f => exact (adds_function .function f).cons id
  | this => exact adds_receiver id span
  | super method => exact adds_superclass id span

theorem adds_exprs (es : List Expr) : Adds (exprs es) [] (Expr.idsOf es) := by
  cases es with
  | nil => exact .pure
  | cons e es => exact (adds_expr e).seq (adds_exprs es)

theorem adds_function (kind : FunctionContext) (f : Function) :
    Adds (function kind f) [] f.ids := by
  obtain ⟨name, params, body, isGetter, span⟩ := f
  exact .within (.inScope ((adds_parameters params).bind (adds_stmts body)))

theorem adds_methods (fs : List Function) : Adds (methods fs) [] (Function.idsOf fs) := by
  cases fs with
  | nil => exact .pure
  | cons f fs => exact (Adds.inScope (adds_function _ f)).seq (adds_methods fs)

theorem adds_staticMethods (fs : List Function) :
    Adds (staticMethods fs) [] (Function.idsOf fs) := by
  cases fs with
  | nil => exact .pure
  | cons f fs => exact (adds_function _ f).seq (adds_staticMethods fs)

theorem adds_stmts (ss : List Stmt) :
    Adds (stmts ss) (ss.flatMap Stmt.declared) (Stmt.idsOf ss) := by
  cases ss with
  | nil => exact .pure
  | cons s ss => exact (adds_stmt s).bind (adds_stmts ss)

/-- A statement adds what it declares to the innermost scope and leaves the others open as they
are. -/
theorem adds_stmt (s : Stmt) : Adds (stmt s) s.declared s.ids := by
  obtain ⟨span, node⟩ := s
  cases node with
  | expression e => exact adds_expr e
  | print e => exact adds_expr e
  | varDecl name init =>
    have hi := Adds.optional init fun e _ => adds_expr e
    rw [stmt_varDecl, Stmt.ids_varDecl]
    exact (adds_declare name true).bind (hi.bindLast (adds_define name.name))
  | block body => exact .inScope (adds_stmts body)
  | ifElse condition yes no =>
    cases no with
    | none => exact (adds_expr condition).bind ((adds_stmt yes).bind .pure)
    | some s => exact (adds_expr condition).bind ((adds_stmt yes).bind (adds_stmt s))
  | «while» condition body => exact (adds_expr condition).bind (.within (adds_stmt body))
  | «for» init condition step body =>
    have hc := Adds.optional condition fun e _ => adds_expr e
    have hs := Adds.optional step fun e _ => adds_expr e
    have hb : Adds (within .loop (stmt body)) body.declared body.ids :=
      .within (adds_stmt body)
    have rest := hc.bind (hs.bind hb)
    rw [stmt_for, Stmt.ids_for]
    cases init with
    | none => exact .inScope (Adds.pure.bind rest)
    | some i => exact .inScope ((adds_stmt i).bind rest)
  | «break» => exact adds_loopControl span .break
  | «continue» => exact adds_loopControl span .continue
  | funDecl f => exact (adds_introduce f.name true).bind (adds_function .function f)
  | «return» value =>
    have hv := Adds.optional value fun e _ =>
      (adds_returnValueAt span).seq (adds_expr e)
    rw [stmt_return, Stmt.ids_return]
    exact (adds_returnAt span).seq hv
  | classDecl name superclass traits ms ss =>
    have members := (adds_methods ms).seq (adds_staticMethods ss)
    cases superclass with
    | none =>
      exact (adds_introduce name true).bind ((adds_references traits).seq (.within members))
    | some r =>
      have check : Adds (checkSuperclass name r.name) [] [] :=
        .of_eq fun _ _ h => (checkSuperclass_eq_ok h).2
      rw [stmt_subclass]
      exact (adds_introduce name true).bind (check.seq
        ((adds_readName r.id r.name).seq
          ((adds_references traits).seq (.within (.inScope members)))))
  | traitDecl name ms ss =>
    exact (adds_introduce name true).bind
      (.within ((adds_methods ms).seq (adds_staticMethods ss)))

end

end Resolution

end Lox

import Lox.Proofs.Scope.Walk
import Lox.Proofs.Syntax.WellFormed

/-!
# What a walk marks as read

Whether a part of a program reads a name of the scopes around it shows in the text (`Stmt.reads`):
some use reads the name, and no scope inside the part has declared it by then.  A walk that goes
well marks the variable that the name means as read in that case, and in that case only.  The scope
it is in may be any number of scopes out.

    stmt st s = .ok () t → s.status? x k = some st →
      t.status? x k = some (if st.reads x ∧ distance? x s.scopes = some k then .read else st)
                                                                              (reading_stmt)
-/

namespace Lox

mutual

/-- Whether the expression reads the name, in lambdas too. -/
def Expr.reads (x : String) : Expr → Bool
  | ⟨_, _, node⟩ =>
    match node with
    | .literal _ | .this | .super _ => false
    | .variable name => name.name == x
    | .group e | .unary _ e | .assign _ e | .get e _ => e.reads x
    | .binary _ a b | .logical _ a b | .index a b | .set b _ a => a.reads x || b.reads x
    | .ternary a b c | .indexSet a b c => a.reads x || (b.reads x || c.reads x)
    | .call callee args => callee.reads x || Expr.anyReads x args
    | .array elements => Expr.anyReads x elements
    | .lambda f => f.reads x

def Expr.anyReads (x : String) : List Expr → Bool
  | [] => false
  | e :: es => e.reads x || Expr.anyReads x es

/-- Whether the function reads the name from around it. -/
def Function.reads (x : String) : Function → Bool
  | ⟨_, params, body, _, _⟩ =>
    !(params.map Identifier.name).contains x && Stmt.anyReads x body

def Function.anyReads (x : String) : List Function → Bool
  | [] => false
  | f :: fs => f.reads x || Function.anyReads x fs

/-- Whether the statement reads the name from around it. -/
def Stmt.reads (x : String) : Stmt → Bool
  | ⟨_, node⟩ =>
    match node with
    | .expression e | .print e => e.reads x
    | .varDecl name init =>
      name.name != x && match init with
        | some e => e.reads x
        | none => false
    | .block body => Stmt.anyReads x body
    | .ifElse condition yes no =>
      condition.reads x || (yes.reads x || match no with
        | some s => s.reads x
        | none => false)
    | .while condition body => condition.reads x || body.reads x
    | .for init condition step body =>
      (match init with
        | some s => s.reads x
        | none => false) ||
      (!((init.map Stmt.declared).getD []).contains x &&
        ((match condition with
          | some e => e.reads x
          | none => false) ||
        ((match step with
          | some e => e.reads x
          | none => false) || body.reads x)))
    | .break | .continue => false
    | .funDecl f => f.name.name != x && f.reads x
    | .return value => match value with
      | some e => e.reads x
      | none => false
    | .classDecl name superclass traits methods statics =>
      name.name != x && ((superclass.toList ++ traits).any (·.name.name == x) ||
        (Function.anyReads x methods || Function.anyReads x statics))
    | .traitDecl name methods statics =>
      name.name != x && (Function.anyReads x methods || Function.anyReads x statics)

/-- Whether the statements read the name before the scope around them declares it. -/
def Stmt.anyReads (x : String) : List Stmt → Bool
  | [] => false
  | s :: ss => s.reads x || (!s.declared.contains x && Stmt.anyReads x ss)

end

theorem Stmt.reads_varDecl (x : String) (span : Span) (name : Identifier)
    (init : Option Expr) :
    Stmt.reads x ⟨span, .varDecl name init⟩ =
      (name.name != x && (init.map (Expr.reads x)).getD false) := by
  cases init <;> rfl

theorem Stmt.reads_for (x : String) (span : Span) (init : Option Stmt)
    (condition step : Option Expr) (body : Stmt) :
    Stmt.reads x ⟨span, .for init condition step body⟩ =
      ((init.map (Stmt.reads x)).getD false ||
        (!((init.map Stmt.declared).getD []).contains x &&
          ((condition.map (Expr.reads x)).getD false ||
            ((step.map (Expr.reads x)).getD false || body.reads x)))) := by
  cases init <;> cases condition <;> cases step <;> rfl

namespace Resolution

/-! ## Variables in the scopes -/

/-- How far the variable `x` of the scope `k` scopes out has come. -/
def State.status? (s : State) (x : String) (k : Nat) : Option Status :=
  (s.scopes[k]?).bind fun scope => (scope.find? x).map Variable.status

theorem State.mem_names_of_status? {s : State} {x : String} {k : Nat} {st : Status}
    (h : s.status? x k = some st) : ∃ names, s.names[k]? = some names ∧ x ∈ names := by
  unfold status? at h
  obtain ⟨scope, hs, hst⟩ := Option.bind_eq_some_iff.1 h
  refine ⟨scope.names, by simp [State.names, hs], ?_⟩
  have : scope.contains x = true := by
    unfold Table.contains
    cases hf : scope.find? x with
    | none => simp [hf] at hst
    | some v => rfl
  simpa [scope.contains_eq x] using this

theorem status?_declare {name : Identifier} {warns : Bool} {s t : State}
    (h : declare name warns s = .ok () t) (hs : s.scopes ≠ []) :
    t.status? name.name 0 = some .declared := by
  obtain ⟨hnil, -⟩ | ⟨scope, scopes, -, -, rfl⟩ := declare_eq_ok h
  · exact absurd hnil hs
  · simp [State.status?]

theorem State.status?_closeScope (s : State) (x : String) (k : Nat) :
    s.closeScope.status? x k = s.status? x (k + 1) := by
  unfold closeScope status?
  cases h : s.scopes <;> simp [h]

theorem State.status?_use (s : State) (id : ExprId) (name x : String) (reads : Bool) (k : Nat) :
    (s.use id name reads).status? x k =
      if reads = true ∧ name = x ∧ distance? x s.scopes = some k then
        (s.status? x k).map fun _ => .read
      else s.status? x k := by
  unfold use status?
  cases hd : distance? name s.scopes with
  | none =>
    by_cases hx : name = x
    · subst hx; simp [hd]
    · simp [hx]
  | some hops =>
    cases reads with
    | false => simp
    | true =>
      simp only [if_true, List.getElem?_modify]
      by_cases hx : name = x
      · subst hx
        by_cases hk : hops = k
        · subst hk
          cases s.scopes[hops]? with
          | none => simp
          | some scope =>
            cases hf : scope.find? name <;>
              simp [hd, hf, Table.find?_modify, Variable.markRead]
        · simp [hd, hk]
      · cases s.scopes[k]? with
        | none => simp
        | some scope =>
          by_cases hk : hops = k <;> simp [hk, hx, Table.find?_modify]

/-! ## Composing walks -/

/-- If the walk goes well it adds `more` to the innermost scope, and where `reads` it marks as read
the variable that `x` means. -/
structure Reading (x : String) (w : Walk Unit) (more : List String) (reads : Bool) : Prop where
  names : ∀ {s t}, w s = .ok () t → t.names = s.names.modifyHead (· ++ more)
  /-- What is added has not been there. -/
  fresh : ∀ {s t}, w s = .ok () t → x ∈ more → s.status? x 0 = none
  status : ∀ {s t}, w s = .ok () t → ∀ k st, s.status? x k = some st →
    t.status? x k = some (if reads = true ∧ distance? x s.scopes = some k then .read else st)

variable {x : String}

namespace Reading

variable {w w' : Walk Unit} {a b : List String} {r r' : Bool}

theorem of_eq (h : ∀ s t, w s = .ok () t → t = s) : Reading x w [] false where
  names ht := by rw [h _ _ ht, modifyHead_append_nil]
  fresh _ hx := by cases hx
  status ht := by rw [h _ _ ht]; simp

theorem pure : Reading x (Pure.pure ()) [] false := .of_eq fun _ _ h => by cases h; rfl

theorem of_use {id : ExprId} {name : String} {reads : Bool}
    (h : ∀ s t, w s = .ok () t → t = s.use id name reads) :
    Reading x w [] (reads && name == x) where
  names ht := by rw [h _ _ ht, State.names_use, modifyHead_append_nil]
  fresh _ hx := by cases hx
  status {s t} ht k st hst := by
    rw [h _ _ ht, State.status?_use, hst]
    by_cases hx : name = x <;> cases reads <;> simp [hx]
    split <;> rfl

/-- A use that does not read `x`. -/
theorem of_other_use {id : ExprId} {name : String} {reads : Bool}
    (h : ∀ s t, w s = .ok () t → t = s.use id name reads) (hx : reads = false ∨ name ≠ x) :
    Reading x w [] false := by
  have hfalse : (reads && name == x) = false := by
    rcases hx with rfl | hx <;> simp [*]
  exact hfalse ▸ of_use h

/-- A read in the second walk is one of the variable outside, if the first has not declared `x`. -/
theorem bind (h : Reading x w a r) (h' : Reading x w' b r') :
    Reading x (do w; w') (a ++ b) (r || (!a.contains x && r')) where
  names {s u} hu := by
    obtain ⟨_, t, hw, hw'⟩ := EStateM.bind_eq_ok.1 hu
    rw [h'.names hw', h.names hw, List.modifyHead_modifyHead]
    congr 1
    funext names
    exact List.append_assoc _ _ _
  fresh {s u} hu hx := by
    obtain ⟨_, t, hw, hw'⟩ := EStateM.bind_eq_ok.1 hu
    rcases List.mem_append.1 hx with hx | hx
    · exact h.fresh hw hx
    · cases hs : s.status? x 0 with
      | none => rfl
      | some st => simpa [h.status hw 0 st hs] using h'.fresh hw' hx
  status {s u} hu k st hst := by
    obtain ⟨_, t, hw, hw'⟩ := EStateM.bind_eq_ok.1 hu
    rw [h'.status hw' k _ (h.status hw k st hst)]
    obtain ⟨names, hk, hx⟩ := s.mem_names_of_status? hst
    rw [t.distance?_eq, h.names hw, s.distance?_eq]
    by_cases ha : x ∈ a
    · have hzero : k ≠ 0 := by
        rintro rfl
        rw [h.fresh hw ha] at hst
        cases hst
      cases hn : s.names with
      | nil => simp [hn] at hk
      | cons first rest =>
        have : (some 0 : Option Nat) ≠ some k := by simpa using fun h => hzero h.symm
        simp [List.findIdx?_cons, ha, this]
    · have : (s.names.modifyHead (· ++ a)).findIdx? (x ∈ ·) = s.names.findIdx? (x ∈ ·) := by
        cases s.names <;> simp [List.findIdx?_cons, ha]
      rw [this]
      by_cases hd : s.names.findIdx? (x ∈ ·) = some k
      · cases r <;> cases r' <;> simp [hd, ha]
      · simp [hd]

/-- Behind the declaration of a name. -/
theorem declaring {name : String} (h : Reading x w [name] false) (h' : Reading x w' b r) :
    Reading x (do w; w') (name :: b) (name != x && r) := by
  have hc : ([name] : List String).contains x = (name == x) := by simp [eq_comm, Bool.beq_eq_decide_eq]
  have := h.bind h'
  rw [hc, Bool.false_or] at this
  exact this

/-- Two walks of which the first declares nothing. -/
theorem seq (h : Reading x w [] r) (h' : Reading x w' b r') :
    Reading x (do w; w') b (r || r') := by
  simpa using h.bind h'

theorem within {region : Region} (h : Reading x w a r) :
    Reading x (within region w) a r := by
  constructor <;> intro s u hu <;> obtain ⟨t, hw, rfl⟩ := within_eq_ok hu
  · have := h.names hw
    exact this
  · have := h.fresh hw
    exact this
  · have := h.status hw
    exact this

theorem inScope {scope : Scope} (hx : x ∉ scope.names) (h : Reading x w a r) :
    Reading x (inScope scope w) [] r := by
  constructor <;> intro s u hu <;> obtain ⟨t, hw, rfl⟩ := inScope_eq_ok hu
  · rw [State.names_closeScope, h.names hw, modifyHead_append_nil]
    simp [State.names]
  · exact fun hm => by cases hm
  · intro k st hst
    have hstep := h.status hw (k + 1) st hst
    have hout : distance? x (scope :: s.scopes) = (distance? x s.scopes).map (· + 1) := by
      simp [distance?, List.findIdx?_cons, scope.contains_eq x, hx]
    rw [State.status?_closeScope, hstep, hout]
    simp

end Reading

/-! ## Names -/

theorem reading_declare (name : Identifier) (warns : Bool) :
    Reading x (declare name warns) [name.name] false where
  names := (adds_declare name warns).names
  fresh {s t} h hx := by
    obtain rfl := List.mem_singleton.1 hx
    obtain ⟨hs, -⟩ | ⟨scope, scopes, hs, hnew, -⟩ := declare_eq_ok h
    · simp [State.status?, hs]
    · have : scope.find? name.name = none := by simpa [Table.contains] using hnew
      simp [State.status?, hs, this]
  status {s t} h k st hst := by
    obtain ⟨hs, rfl⟩ | ⟨scope, scopes, hs, hnew, rfl⟩ := declare_eq_ok h
    · simpa using hst
    · cases k with
      | succ k => simpa [State.status?, hs] using hst
      | zero =>
        have hne : name.name ≠ x := by
          rintro rfl
          have : scope.find? name.name = none := by simpa [Table.contains] using hnew
          simp [State.status?, hs, this] at hst
        simpa [State.status?, hs, hne] using hst

theorem status?_define {name : String} {s t : State} {k : Nat} (h : define name s = .ok () t)
    (hk : name ≠ x ∨ k ≠ 0) : t.status? x k = s.status? x k := by
  cases h
  obtain ⟨_ | ⟨scope, scopes⟩, distances, warnings, context⟩ := s
  · rfl
  · cases k with
    | succ k => rfl
    | zero =>
      have hne : name ≠ x := hk.resolve_right (by simp)
      simp [State.modifyInnermost, State.status?, Table.find?_modify, hne]

/-- A declaration ends with making its name readable. -/
theorem Reading.define {w : Walk Unit} {name : String} {r : Bool} (h : Reading x w [name] r) :
    Reading x (do w; define name) [name] r where
  names := by
    intro s u hu
    obtain ⟨_, t, hw, hd⟩ := EStateM.bind_eq_ok.1 hu
    rw [(adds_define name).names hd, h.names hw, modifyHead_append_nil]
  fresh := by
    intro s u hu hx
    obtain ⟨_, t, hw, -⟩ := EStateM.bind_eq_ok.1 hu
    exact h.fresh hw hx
  status := by
    intro s u hu k st hst
    obtain ⟨_, t, hw, hd⟩ := EStateM.bind_eq_ok.1 hu
    rw [status?_define hd, h.status hw k st hst]
    by_cases hx : name = x
    · right
      rintro rfl
      rw [h.fresh hw (by simp [hx])] at hst
      cases hst
    · exact .inl hx

theorem reading_introduce (name : Identifier) (warns : Bool) :
    Reading x (introduce name warns) [name.name] false :=
  (reading_declare name warns).define

theorem reading_readName (id : ExprId) (name : Identifier) :
    Reading x (readName id name) [] (name.name == x) := by
  have huse : ∀ s t, readName id name s = .ok () t → t = s.use id name.name true :=
    fun _ _ h => (readName_eq_ok h).2
  simpa using Reading.of_use (x := x) huse

theorem reading_references (rs : List Reference) :
    Reading x (rs.forM reference) [] (rs.any (·.name.name == x)) := by
  induction rs with
  | nil => exact .pure
  | cons r rs ih => exact (reading_readName r.id r.name).seq ih

theorem reading_parameters (params : List Identifier) :
    Reading x (params.forM (introduce · false)) (params.map Identifier.name) false := by
  induction params with
  | nil => exact .pure
  | cons p ps ih => simpa using (reading_introduce p false).bind ih

/-! ## The walk -/

mutual

/-- An expression marks the variable that `x` means as read if it reads `x` anywhere. -/
theorem reading_expr (hx : Name.Plain x) (e : Expr) (h : e.WellFormed) :
    Reading x (expr e) [] (e.reads x) := by
  obtain ⟨id, span, node⟩ := e
  cases node with
  | literal value => exact .pure
  | group e => exact reading_expr hx e h
  | unary op e => exact reading_expr hx e h
  | binary op left right => exact (reading_expr hx left h.1).seq (reading_expr hx right h.2)
  | logical op left right => exact (reading_expr hx left h.1).seq (reading_expr hx right h.2)
  | ternary condition yes no =>
    exact (reading_expr hx condition h.1).seq
      ((reading_expr hx yes h.2.1).seq (reading_expr hx no h.2.2))
  | «variable» name => exact reading_readName id name
  | assign name value =>
    have hwrite : Reading x (modify (·.use id name.name false)) [] false :=
      .of_other_use (fun _ _ h => by cases h; rfl) (.inl rfl)
    have := (reading_expr hx value h.2).seq hwrite
    rw [Bool.or_false] at this
    exact this
  | call callee args => exact (reading_expr hx callee h.1).seq (reading_exprs hx args h.2)
  | get object property => exact reading_expr hx object h
  | set object property value =>
    exact (reading_expr hx value h.2).seq (reading_expr hx object h.1)
  | array elements => exact reading_exprs hx elements h
  | index array position =>
    exact (reading_expr hx array h.1).seq (reading_expr hx position h.2)
  | indexSet array position value =>
    exact (reading_expr hx array h.1).seq
      ((reading_expr hx position h.2.1).seq (reading_expr hx value h.2.2))
  | lambda f => exact reading_function hx .function f h
  | this =>
    exact .of_other_use (fun _ _ h => (receiver_eq_ok h).2.2.2)
      (.inr fun hname => Name.not_plain_this (hname ▸ hx))
  | super method =>
    exact .of_other_use (fun _ _ h => (superclass_eq_ok h).2)
      (.inr fun hname => Name.not_plain_super (hname ▸ hx))

theorem reading_exprs (hx : Name.Plain x) (es : List Expr) (h : Expr.AllWellFormed es) :
    Reading x (exprs es) [] (Expr.anyReads x es) := by
  cases es with
  | nil => exact .pure
  | cons e es => exact (reading_expr hx e h.1).seq (reading_exprs hx es h.2)

theorem reading_function (hx : Name.Plain x) (kind : FunctionContext) (f : Function)
    (h : f.WellFormed) : Reading x (function kind f) [] (f.reads x) := by
  obtain ⟨name, params, body, isGetter, span⟩ := f
  exact .within (.inScope (by simp) ((reading_parameters params).bind
    (reading_stmts hx body h.2.2)))

theorem reading_methods (hx : Name.Plain x) (fs : List Function)
    (h : Function.AllWellFormed fs) : Reading x (methods fs) [] (Function.anyReads x fs) := by
  cases fs with
  | nil => exact .pure
  | cons f fs =>
    have hthis : x ∉ receiverScope.names := by
      rintro hm
      obtain rfl := List.mem_singleton.1 hm
      exact Name.not_plain_this hx
    exact (Reading.inScope hthis (reading_function hx _ f h.1)).seq (reading_methods hx fs h.2)

theorem reading_staticMethods (hx : Name.Plain x) (fs : List Function)
    (h : Function.AllWellFormed fs) :
    Reading x (staticMethods fs) [] (Function.anyReads x fs) := by
  cases fs with
  | nil => exact .pure
  | cons f fs =>
    exact (reading_function hx _ f h.1).seq (reading_staticMethods hx fs h.2)

theorem reading_stmts (hx : Name.Plain x) (ss : List Stmt) (h : Stmt.AllWellFormed ss) :
    Reading x (stmts ss) (ss.flatMap Stmt.declared) (Stmt.anyReads x ss) := by
  cases ss with
  | nil => exact .pure
  | cons s ss => exact (reading_stmt hx s h.1).bind (reading_stmts hx ss h.2)

/-- A statement marks the variable that `x` means as read if it reads `x` in some part where no
nearer declaration is. -/
theorem reading_stmt (hx : Name.Plain x) (s : Stmt) (h : s.WellFormed) :
    Reading x (stmt s) s.declared (s.reads x) := by
  obtain ⟨span, node⟩ := s
  cases node with
  | expression e => exact reading_expr hx e h
  | print e => exact reading_expr hx e h
  | varDecl name init =>
    obtain ⟨-, hi⟩ := Stmt.wellFormed_varDecl.1 h
    have hinit : Reading x (optional expr init) [] ((init.map (Expr.reads x)).getD false) := by
      cases init with
      | none => exact .pure
      | some e => exact reading_expr hx e (hi e rfl)
    rw [stmt_varDecl, Stmt.reads_varDecl, ← bind_assoc]
    exact ((reading_declare name true).declaring hinit).define
  | block body => exact .inScope (by simp) (reading_stmts hx body h)
  | ifElse condition yes no =>
    have hd : Stmt.declared ⟨span, .ifElse condition yes no⟩ = [] :=
      Stmt.declared_eq_nil _ h rfl
    obtain ⟨hc, ⟨hyd, hy⟩, hn⟩ := Stmt.wellFormed_ifElse.1 h
    have hyes := reading_stmt hx yes hy
    rw [yes.declared_eq_nil hy hyd] at hyes
    rw [hd]
    cases no with
    | none => exact (reading_expr hx condition hc).seq (hyes.seq .pure)
    | some no =>
      obtain ⟨hnd, hn⟩ := hn no rfl
      have hno := reading_stmt hx no hn
      rw [no.declared_eq_nil hn hnd] at hno
      exact (reading_expr hx condition hc).seq (hyes.seq hno)
  | «while» condition body =>
    exact (reading_expr hx condition h.1).seq (.within (reading_stmt hx body h.2.2))
  | «for» init condition step body =>
    obtain ⟨hi, hc, hs, -, hb⟩ := Stmt.wellFormed_for.1 h
    have hcondition :
        Reading x (optional expr condition) [] ((condition.map (Expr.reads x)).getD false) := by
      cases condition with
      | none => exact .pure
      | some e => exact reading_expr hx e (hc e rfl)
    have hstep : Reading x (optional expr step) [] ((step.map (Expr.reads x)).getD false) := by
      cases step with
      | none => exact .pure
      | some e => exact reading_expr hx e (hs e rfl)
    have hbody : Reading x (within .loop (stmt body)) _ _ :=
      .within (reading_stmt hx body hb)
    have rest := hcondition.seq (hstep.seq hbody)
    rw [stmt_for, Stmt.reads_for]
    cases init with
    | none => exact .inScope (by simp) (Reading.pure.bind rest)
    | some i => exact .inScope (by simp) ((reading_stmt hx i (hi i rfl).2).bind rest)
  | «break» => exact .of_eq fun _ _ h => (loopControl_eq_ok h).2
  | «continue» => exact .of_eq fun _ _ h => (loopControl_eq_ok h).2
  | funDecl f =>
    exact (reading_introduce f.name true).declaring (reading_function hx .function f h.2)
  | «return» value =>
    have hreturn : Reading x (returnAt span) [] false := .of_eq fun _ _ h => (returnAt_eq_ok h).2
    have hvalueAt : Reading x (returnValueAt span) [] false :=
      .of_eq fun _ _ h => (returnValueAt_eq_ok h).2
    have hv := Stmt.wellFormed_return.1 h
    cases value with
    | none => exact hreturn.seq .pure
    | some e => exact hreturn.seq (hvalueAt.seq (reading_expr hx e (hv e rfl)))
  | classDecl name superclass traits ms ss =>
    obtain ⟨-, -, -, hms, hss⟩ := h
    have members := (reading_methods hx ms hms).seq (reading_staticMethods hx ss hss)
    cases superclass with
    | none =>
      exact (reading_introduce name true).declaring
        ((reading_references traits).seq (.within members))
    | some r =>
      have check : Reading x (checkSuperclass name r.name) [] false :=
        .of_eq fun _ _ h => (checkSuperclass_eq_ok h).2
      have hsuper : x ∉ superclassScope.names := by
        intro hm
        obtain rfl := List.mem_singleton.1 hm
        exact Name.not_plain_super hx
      have hr : Reading x (reference r) [] (r.name.name == x) := reading_readName r.id r.name
      have hmembers : Reading x (within (.members .subclass) (inScope superclassScope _))
          _ _ := .within (.inScope hsuper members)
      have hrest := hr.seq ((reading_references traits).seq hmembers)
      rw [stmt_subclass]
      have := (reading_introduce name true).declaring (check.seq hrest)
      rw [Bool.false_or, ← Bool.or_assoc] at this
      exact this
  | traitDecl name ms ss =>
    exact (reading_introduce name true).declaring
      (.within ((reading_methods hx ms h.2.1).seq (reading_staticMethods hx ss h.2.2)))

end

end Resolution

end Lox

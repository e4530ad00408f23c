import Lox.Proofs.Scope.Rules
import Lox.Proofs.Scope.Walk

/-!
# The rules are enforced

What the walk keeps of what encloses it, saved and put back around each function, class and loop, is
what the layers around the part say (`contextAt`).  So a walk that goes well finds everything right
in its part, and one that ends in an error has found what the error says, or a local that is read in
its own initializer:

    FindsAt path (stmt s) (Offends path (.stmt s)) s.declarations                    (finds_stmt)
-/

namespace Lox

theorem Stmt.declared_eq (s : Stmt) : s.declared = s.declarations.map Identifier.name := by
  obtain ⟨span, node⟩ := s
  cases node with
  | ifElse condition yes no =>
    cases no with
    | none => simp [Stmt.declared, Stmt.declarations, yes.declared_eq]
    | some s => simp [Stmt.declared, Stmt.declarations, yes.declared_eq, s.declared_eq]
  | «while» condition body => simp [Stmt.declared, Stmt.declarations, body.declared_eq]
  | _ => rfl

namespace Nesting

open Resolution (Context FunctionContext ClassContext)

/-! ## Contexts of parts -/

def Owner.context : Owner → ClassContext
  | .class true => .subclass
  | .class false => .plain
  | .trait => .trait

def Member.context (m : Member) : FunctionContext :=
  if m.isStatic then .staticMethod else Lexical.methodContext m.function

/-- What the layers around a part make of the context. -/
def contextAt : List Layer → Context
  | [] => .topLevel
  | .loop :: path => (contextAt path).enterLoop
  | .function :: path => (contextAt path).enterFunction .function
  | .member m :: path => ((contextAt path).enterClass m.owner.context).enterFunction m.context

/-- Whether `this` is known at a part. -/
def knowsThis (path : List Layer) : Bool := ((member? path).map (!·.isStatic)).getD false

theorem Member.context_of_isStatic {m : Member} (h : m.isStatic = true) :
    m.context = .staticMethod := if_pos h

theorem Member.context_of_not_isStatic {m : Member} (h : m.isStatic = false) :
    m.context = Lexical.methodContext m.function := if_neg (Bool.eq_false_iff.1 h)

theorem owner_contextAt (path : List Layer) :
    (contextAt path).owner = ((member? path).map (·.owner.context)).getD .none := by
  induction path with
  | nil => rfl
  | cons layer path ih =>
    cases layer with
    | loop | function => exact ih
    | member m => rfl

theorem inStatic_contextAt (path : List Layer) :
    (contextAt path).inStatic = ((member? path).map (·.isStatic)).getD false := by
  induction path with
  | nil => rfl
  | cons layer path ih =>
    cases layer with
    | loop | function => exact ih
    | member m =>
      cases hm : m.isStatic with
      | true => simp [contextAt, member?, Context.enterFunction, m.context_of_isStatic hm, hm]
      | false =>
        have hcontext := m.context_of_not_isStatic hm
        unfold Lexical.methodContext at hcontext
        split at hcontext <;> simp [contextAt, member?, Context.enterFunction, hcontext, hm]

theorem function_contextAt_eq_none_iff (path : List Layer) :
    (contextAt path).function = .none ↔ ¬InFunction path := by
  unfold InFunction
  induction path with
  | nil => simp [contextAt, function?, Context.topLevel]
  | cons layer path ih =>
    cases layer with
    | loop => exact ih
    | function => simp [contextAt, function?, Context.enterFunction]
    | member m =>
      cases hm : m.isStatic with
      | true => simp [contextAt, function?, Context.enterFunction, m.context_of_isStatic hm]
      | false =>
        have hcontext := m.context_of_not_isStatic hm
        unfold Lexical.methodContext at hcontext
        split at hcontext <;> simp [contextAt, function?, Context.enterFunction, hcontext]

theorem function_contextAt_eq_initializer_iff (path : List Layer) :
    (contextAt path).function = .initializer ↔ InInitializer path := by
  unfold InInitializer
  induction path with
  | nil => simp [contextAt, function?, Context.topLevel]
  | cons layer path ih =>
    cases layer with
    | loop => exact ih
    | function => simp [contextAt, function?, Context.enterFunction]
    | member m =>
      cases hm : m.isStatic with
      | true => simp [contextAt, function?, Context.enterFunction, m.context_of_isStatic hm, hm]
      | false =>
        simp [contextAt, function?, Context.enterFunction, m.context_of_not_isStatic hm,
          Lexical.methodContext, hm]

theorem loops_contextAt_eq_zero_iff (path : List Layer) :
    (contextAt path).loops = 0 ↔ ¬InLoop path := by
  unfold InLoop
  cases path with
  | nil => simp [contextAt, Context.topLevel]
  | cons layer path =>
    cases layer <;> simp [contextAt, Context.enterLoop, Context.enterFunction]

end Nesting

namespace Resolution

open Nesting

/-! ## What a walk finds -/

/-- A local is read in its own initializer. -/
def IsOwnRead (e : ScopeError) : Prop := ∃ name, e.kind = .readInOwnInitializer name

/-- The walk is in the context, and `this` is in a scope if it is said to be known. -/
structure Starts (c : Context) (this : Bool) (s : State) : Prop where
  context : s.context = c
  this : this = true → ∃ names ∈ s.names, Name.this ∈ names

/-- In the context, what the walk does not pass is just what `V` says and what is declared twice
once the names in `declarations` are added to the innermost scope. -/
structure Finds (c : Context) (this : Bool) (w : Walk Unit) (V : ScopeError → Prop)
    (declarations : List Identifier) : Prop where
  ok : ∀ {s t}, Starts c this s → w s = .ok () t →
    (∀ e, ¬V e) ∧ ∀ names ∈ s.names.head?, ∀ e, ¬Repeats names declarations e
  error : ∀ {s t e}, Starts c this s → w s = .error e t →
    IsOwnRead e ∨ V e ∨ ∃ names ∈ s.names.head?, Repeats names declarations e

/-- The same at a path. -/
def FindsAt (path : List Layer) : Walk Unit → (ScopeError → Prop) → List Identifier → Prop :=
  Finds (contextAt path) (knowsThis path)

section

variable {c : Context} {this : Bool} {w w' : Walk Unit} {V V' : ScopeError → Prop}
  {ds ds' : List Identifier}

theorem Starts.enter {s : State} (h : Starts c this s) (scope : Scope) :
    Starts c this { s with scopes := scope :: s.scopes } where
  context := h.context
  this hthis := by
    obtain ⟨names, hmem, hname⟩ := h.this hthis
    exact ⟨names, List.mem_cons_of_mem _ hmem, hname⟩

theorem Starts.enterReceiver {s : State} (h : Starts c this s) :
    Starts c true { s with scopes := receiverScope :: s.scopes } where
  context := h.context
  this _ := ⟨receiverScope.names, List.mem_cons_self, List.mem_singleton_self _⟩

theorem Starts.inContext {s : State} (h : Starts c this s) (enter : Context → Context) :
    Starts (enter c) this { s with context := enter s.context } where
  context := congrArg enter h.context
  this := h.this

theorem Starts.of_adds {s t : State} {more : List String} {ids : List ExprId} (h : Starts c this s)
    (hw : Adds w more ids) (ht : w s = .ok () t) : Starts c this t where
  context := (hw.context ht).trans h.context
  this hthis := by
    obtain ⟨names, hmem, hname⟩ := h.this hthis
    rw [hw.names ht]
    cases hs : s.names with
    | nil => simp [hs] at hmem
    | cons first rest =>
      rw [hs] at hmem
      rcases List.mem_cons.1 hmem with rfl | hmem
      · exact ⟨_, List.mem_cons_self, List.mem_append_left _ hname⟩
      · exact ⟨names, List.mem_cons_of_mem _ hmem, hname⟩

namespace Finds

theorem iff (h : Finds c this w V ds) (hV : ∀ e, V e ↔ V' e) : Finds c this w V' ds := by
  obtain rfl : V = V' := funext fun e => propext (hV e)
  exact h

theorem pure : Finds c this (Pure.pure ()) (fun _ => False) [] where
  ok _ _ := ⟨fun _ => id, fun _ _ _ => not_repeats_nil⟩
  error _ h := by cases h

/-- A walk that says nothing of its own but that a local is read in its own initializer. -/
theorem of_ownRead (h : ∀ s t e, w s = .error e t → IsOwnRead e) :
    Finds c this w (fun _ => False) [] where
  ok _ _ := ⟨fun _ => id, fun _ _ _ => not_repeats_nil⟩
  error _ he := .inl (h _ _ _ he)

theorem mono {this' : Bool} (h : Finds c this w V ds) (hthis : this = true → this' = true) :
    Finds c this' w V ds where
  ok hs := h.ok ⟨hs.context, fun h => hs.this (hthis h)⟩
  error hs := h.error ⟨hs.context, fun h => hs.this (hthis h)⟩

theorem bind (h : Finds c this w V ds) {ids : List ExprId}
    (ha : Adds w (ds.map Identifier.name) ids) (h' : Finds c this w' V' ds') :
    Finds c this (do w; w') (fun e => V e ∨ V' e) (ds ++ ds') where
  ok {s u} hs hu := by
    obtain ⟨_, t, ht, hu⟩ := EStateM.bind_eq_ok.1 hu
    obtain ⟨hV, hds⟩ := h.ok hs ht
    obtain ⟨hV', hds'⟩ := h'.ok (hs.of_adds ha ht) hu
    refine ⟨fun e he => he.elim (hV e) (hV' e), fun names hnames e he => ?_⟩
    rcases repeats_append.1 he with he | he
    · exact hds names hnames e he
    · refine hds' _ ?_ e he
      rw [ha.names ht, List.head?_modifyHead, hnames]
      rfl
  error {s u e} hs hu := by
    rcases EStateM.bind_eq_error.1 hu with hfirst | ⟨_, t, ht, hu⟩
    · rcases h.error hs hfirst with hown | hV | ⟨names, hnames, he⟩
      · exact .inl hown
      · exact .inr (.inl (.inl hV))
      · exact .inr (.inr ⟨names, hnames, repeats_append.2 (.inl he)⟩)
    · rcases h'.error (hs.of_adds ha ht) hu with hown | hV | ⟨names, hnames, he⟩
      · exact .inl hown
      · exact .inr (.inl (.inr hV))
      · rw [ha.names ht, List.head?_modifyHead] at hnames
        obtain ⟨names', hnames', rfl⟩ := Option.map_eq_some_iff.1 hnames
        exact .inr (.inr ⟨names', hnames', repeats_append.2 (.inr he)⟩)

/-- Two walks of which the first declares nothing. -/
theorem seq (h : Finds c this w V []) {ids : List ExprId} (ha : Adds w [] ids)
    (h' : Finds c this w' V' ds) : Finds c this (do w; w') (fun e => V e ∨ V' e) ds :=
  h.bind ha h'

theorem within {region : Region} (h : Finds (region.enter c) this w V ds) :
    Finds c this (within region w) V ds where
  ok {s u} hs hu := by
    obtain ⟨t, hw, rfl⟩ := within_eq_ok hu
    have hfound := h.ok (hs.inContext region.enter) hw
    exact hfound
  error {s u e} hs hu := by
    obtain ⟨t, hw⟩ := within_eq_error hu
    have hfound := h.error (hs.inContext region.enter) hw
    exact hfound

/-- In a scope of its own nothing is declared twice either. -/
theorem inScope {scope : Scope} (h : Finds c this w V ds) :
    Finds c this (inScope scope w) (fun e => Repeats scope.names ds e ∨ V e) [] where
  ok {s u} hs hu := by
    obtain ⟨t, hw, rfl⟩ := inScope_eq_ok hu
    obtain ⟨hV, hds⟩ := h.ok (hs.enter scope) hw
    exact ⟨fun e he => he.elim (hds _ rfl e) (hV e), fun _ _ _ => not_repeats_nil⟩
  error {s u e} hs hu := by
    obtain ⟨t, hw⟩ := inScope_eq_error hu
    rcases h.error (hs.enter scope) hw with hown | hV | ⟨names, hnames, he⟩
    · exact .inl hown
    · exact .inr (.inl (.inr hV))
    · cases hnames
      exact .inr (.inl (.inl he))

/-- In a scope that declares nothing but has `this`. -/
theorem inReceiver (h : Finds c true w V []) :
    Finds c this (Resolution.inScope receiverScope w) V [] where
  ok {s u} hs hu := by
    obtain ⟨t, hw, rfl⟩ := inScope_eq_ok hu
    exact ⟨(h.ok hs.enterReceiver hw).1, fun _ _ _ => not_repeats_nil⟩
  error {s u e} hs hu := by
    obtain ⟨t, hw⟩ := inScope_eq_error hu
    rcases h.error hs.enterReceiver hw with hown | hV | ⟨names, -, he⟩
    · exact .inl hown
    · exact .inr (.inl hV)
    · exact absurd he not_repeats_nil

end Finds

/-! ## Single steps -/

theorem finds_declare (name : Identifier) (warns : Bool) :
    Finds c this (declare name warns) (fun _ => False) [name] where
  ok {s t} _ ht := by
    refine ⟨fun _ => id, fun names hnames e he => ?_⟩
    obtain ⟨hs, -⟩ | ⟨scope, scopes, hs, hnew, -⟩ := declare_eq_ok ht
    · simp [State.names, hs] at hnames
    · simp only [State.names, hs, List.map_cons, List.head?_cons, Option.mem_def,
        Option.some.injEq] at hnames
      subst hnames
      rcases repeats_cons.1 he with ⟨hmem, -⟩ | he
      · simp [Table.contains_eq, hmem] at hnew
      · exact not_repeats_nil he
  error {s t e} _ he := by
    rw [declare, EStateM.get_bind_apply] at he
    cases hs : s.scopes with
    | nil =>
      simp only [hs] at he
      cases he
    | cons scope scopes =>
      simp only [hs] at he
      split at he
      · next hold =>
        cases he
        refine .inr (.inr ⟨scope.names, by simp [State.names, hs], repeats_cons.2 (.inl ⟨?_, rfl⟩)⟩)
        simpa [Table.contains_eq] using hold
      · cases he

theorem finds_define (name : String) : Finds c this (define name) (fun _ => False) [] :=
  .of_ownRead fun _ _ _ h => by cases h

theorem finds_introduce (name : Identifier) (warns : Bool) :
    Finds c this (introduce name warns) (fun _ => False) [name] :=
  ((finds_declare name warns).bind (adds_declare name warns) (finds_define name.name)).iff
    fun _ => or_self_iff

theorem finds_use (id : ExprId) (name : String) (reads : Bool) :
    Finds c this (modify (·.use id name reads)) (fun _ => False) [] :=
  .of_ownRead fun _ _ _ h => by cases h

theorem finds_readName (id : ExprId) (name : Identifier) :
    Finds c this (readName id name) (fun _ => False) [] := by
  refine .of_ownRead fun s t e h => ?_
  rw [readName, EStateM.get_bind_apply] at h
  split at h
  · cases h
    exact ⟨name.name, rfl⟩
  · cases h

theorem finds_references (rs : List Reference) :
    Finds c this (rs.forM reference) (fun _ => False) [] := by
  induction rs with
  | nil => exact .pure
  | cons r rs ih =>
    exact ((finds_readName r.id r.name).seq (adds_readName r.id r.name) ih).iff fun _ => or_self_iff

theorem finds_parameters (params : List Identifier) :
    Finds c this (params.forM (introduce · false)) (fun _ => False) params := by
  induction params with
  | nil => exact .pure
  | cons p ps ih =>
    exact ((finds_introduce p false).bind (adds_introduce p false) ih).iff fun _ => or_self_iff

/-! ## Steps with a rule of their own -/

variable {path : List Layer} {id : ExprId} {span : Span}

/-- For `this` the rules ask for a class around, and for no static method in between. -/
theorem finds_receiver :
    FindsAt path (receiver id span) (Offends path (.expr ⟨id, span, .this⟩)) [] where
  ok {s t} hs ht := by
    obtain ⟨howner, hstatic, -, -⟩ := receiver_eq_ok ht
    rw [hs.context, owner_contextAt] at howner
    rw [hs.context, inStatic_contextAt] at hstatic
    refine ⟨fun e he => ?_, fun _ _ _ => not_repeats_nil⟩
    rcases offends_iff.1 he with hb | ⟨p, hp, -⟩
    · cases hb with
      | redeclared he => exact not_repeats_nil he
      | thisOutside hm => simp [hm] at howner
      | thisInStatic hm h => simp [hm, h] at hstatic
    · cases hp
  error {s t e} hs he := by
    rw [receiver, EStateM.get_bind_apply, hs.context, owner_contextAt, inStatic_contextAt] at he
    refine .inr (.inl (offends_iff.2 (.inl ?_)))
    cases hm : member? path with
    | none =>
      simp only [hm, Option.map_none, Option.getD_none, if_true] at he
      cases he
      exact .thisOutside hm
    | some m =>
      have howner : m.owner.context ≠ .none := by
        rcases m.owner with ⟨_ | _⟩ | _ <;> exact ClassContext.noConfusion
      simp only [hm, Option.map_some, Option.getD_some, if_neg howner] at he
      cases hstatic : m.isStatic with
      | true =>
        simp only [hstatic, true_or, if_true] at he
        cases he
        exact .thisInStatic hm hstatic
      | false =>
        -- in a member of instances `this` is in a scope
        have hfound : (distance? Name.this s.scopes).isNone = false := by
          obtain ⟨names, hnames, hthis⟩ := hs.this (by simp [knowsThis, hm, hstatic])
          rw [State.distance?_eq, Option.isNone_eq_false_iff, List.findIdx?_isSome,
            List.any_eq_true]
          exact ⟨names, hnames, decide_eq_true hthis⟩
        simp only [hstatic, hfound, Bool.false_eq_true, or_self, if_false] at he
        cases he

theorem finds_superclass {name : Identifier} :
    FindsAt path (superclass id span) (Offends path (.expr ⟨id, span, .super name⟩)) [] where
  ok {s t} hs ht := by
    obtain ⟨howner, -⟩ := superclass_eq_ok ht
    rw [hs.context, owner_contextAt] at howner
    refine ⟨fun e he => ?_, fun _ _ _ => not_repeats_nil⟩
    rcases offends_iff.1 he with hb | ⟨p, hp, -⟩
    · cases hb with
      | redeclared he => exact not_repeats_nil he
      | superOutside hm => simp [hm] at howner
      | superWithout hm h | superInTrait hm h => simp [hm, h, Owner.context] at howner
    · cases hp
  error {s t e} hs he := by
    rw [superclass, EStateM.get_bind_apply, hs.context, owner_contextAt] at he
    refine .inr (.inl (offends_iff.2 (.inl ?_)))
    cases hm : member? path with
    | none =>
      simp only [hm] at he
      cases he
      exact .superOutside hm
    | some m =>
      rcases howner : m.owner with ⟨_ | _⟩ | _ <;>
        simp only [hm, howner, Owner.context, Option.map_some, Option.getD_some] at he <;> cases he
      · exact .superWithout hm howner
      · exact .superInTrait hm howner

theorem finds_loopControl {node : Stmt.Node} {keyword : Keyword}
    (hnode : node = .break ∧ keyword = .break ∨ node = .continue ∧ keyword = .continue) :
    FindsAt path (loopControl span keyword) (Offends path (.stmt ⟨span, node⟩)) [] where
  ok {s t} hs ht := by
    have hloops := (loopControl_eq_ok ht).1
    rw [hs.context, Ne, loops_contextAt_eq_zero_iff] at hloops
    refine ⟨fun e he => ?_, fun _ _ _ => not_repeats_nil⟩
    rcases hnode with ⟨rfl, rfl⟩ | ⟨rfl, rfl⟩ <;> rcases offends_iff.1 he with hb | ⟨p, hp, -⟩
    · cases hb with
      | redeclared he => exact not_repeats_nil he
      | «break» hnot => exact hloops hnot
    · cases hp
    · cases hb with
      | redeclared he => exact not_repeats_nil he
      | «continue» hnot => exact hloops hnot
    · cases hp
  error {s t e} hs he := by
    rw [loopControl, EStateM.get_bind_apply, hs.context] at he
    split at he
    · next hloops =>
      cases he
      rw [loops_contextAt_eq_zero_iff] at hloops
      refine .inr (.inl (offends_iff.2 (.inl ?_)))
      rcases hnode with ⟨rfl, rfl⟩ | ⟨rfl, rfl⟩
      · exact .break hloops
      · exact .continue hloops
    · cases he

theorem finds_returnAt : FindsAt path (returnAt span) (fun e => ¬InFunction path ∧
    e = ⟨span.head Keyword.return.text.utf8ByteSize, .topLevelReturn⟩) [] where
  ok {s t} hs ht := by
    have hfunction := (returnAt_eq_ok ht).1
    rw [hs.context, Ne, function_contextAt_eq_none_iff] at hfunction
    exact ⟨fun e he => hfunction he.1, fun _ _ _ => not_repeats_nil⟩
  error {s t e} hs he := by
    rw [returnAt, EStateM.get_bind_apply, hs.context] at he
    split at he
    · next hfunction =>
      cases he
      exact .inr (.inl ⟨(function_contextAt_eq_none_iff path).1 hfunction, rfl⟩)
    · cases he

theorem finds_returnValueAt : FindsAt path (returnValueAt span) (fun e => InInitializer path ∧
    e = ⟨span.head Keyword.return.text.utf8ByteSize, .valueFromInitializer⟩) [] where
  ok {s t} hs ht := by
    have hfunction := (returnValueAt_eq_ok ht).1
    rw [hs.context, Ne, function_contextAt_eq_initializer_iff] at hfunction
    exact ⟨fun e he => hfunction he.1, fun _ _ _ => not_repeats_nil⟩
  error {s t e} hs he := by
    rw [returnValueAt, EStateM.get_bind_apply, hs.context] at he
    split at he
    · next hfunction =>
      cases he
      exact .inr (.inl ⟨(function_contextAt_eq_initializer_iff path).1 hfunction, rfl⟩)
    · cases he

theorem finds_checkSuperclass (name super : Identifier) :
    Finds c this (checkSuperclass name super)
      (fun e => super.name = name.name ∧ e = ⟨super.span, .inheritFromSelf⟩) [] where
  ok {s t} _ ht := ⟨fun _ he => (checkSuperclass_eq_ok ht).1 he.1, fun _ _ _ => not_repeats_nil⟩
  error {s t e} _ he := by
    unfold checkSuperclass at he
    split at he
    · next heq =>
      cases he
      exact .inr (.inl ⟨heq, rfl⟩)
    · cases he

theorem offends_return_iff {value : Option Expr} {e : ScopeError} :
    Offends path (.stmt ⟨span, .return value⟩) e ↔
      (¬InFunction path ∧ e = ⟨span.head Keyword.return.text.utf8ByteSize, .topLevelReturn⟩) ∨
      ∃ x ∈ value, (InInitializer path ∧
        e = ⟨span.head Keyword.return.text.utf8ByteSize, .valueFromInitializer⟩) ∨
        Offends path (.expr x) e := by
  constructor
  · intro he
    rcases offends_iff.1 he with hb | ⟨p, hp, hinner⟩
    · cases hb with
      | redeclared he => exact absurd he not_repeats_nil
      | «return» hnot => exact .inl ⟨hnot, rfl⟩
      | value hin => exact .inr ⟨_, rfl, .inl ⟨hin, rfl⟩⟩
    · obtain ⟨x, hx, rfl⟩ := List.mem_map.1 hp
      exact .inr ⟨x, Option.mem_toList.1 hx, .inr hinner⟩
  · rintro (⟨hnot, rfl⟩ | ⟨x, rfl, ⟨hin, rfl⟩ | hinner⟩)
    · exact offends_iff.2 (.inl (.return hnot))
    · exact offends_iff.2 (.inl (.value hin))
    · exact offends_iff.2 (.inr ⟨_, List.mem_singleton_self _, hinner⟩)

theorem offends_subclass_iff {name : Identifier} {r : Reference} {traits : List Reference}
    {ms ss : List Function} {e : ScopeError} :
    Offends path (.stmt ⟨span, .classDecl name (some r) traits ms ss⟩) e ↔
      (r.name.name = name.name ∧ e = ⟨r.name.span, .inheritFromSelf⟩) ∨
      (∃ f ∈ ms, Offends (.member ⟨.class true, f, false⟩ :: path) (.function f) e) ∨
      ∃ f ∈ ss, Offends (.member ⟨.class true, f, true⟩ :: path) (.function f) e := by
  rw [offends_iff]
  refine or_congr ⟨fun hb => ?_, fun hself => ?_⟩ (by simp [Part.inner])
  · cases hb with
    | redeclared he => exact absurd he not_repeats_nil
    | superclass hself => exact ⟨hself, rfl⟩
  · obtain ⟨hself, rfl⟩ := hself
    exact .superclass hself

/-! ## The walk -/

theorem finds_none {α : Type} {walk : α → Walk Unit} {W : α → ScopeError → Prop} :
    Finds c this (optional walk none) (fun e => ∃ a ∈ (none : Option α), W a e) [] :=
  Finds.pure.iff fun _ => by simp

theorem finds_some {α : Type} {walk : α → Walk Unit} {W : α → ScopeError → Prop} {a : α}
    (h : Finds c this (walk a) (W a) ds) :
    Finds c this (optional walk (some a)) (fun e => ∃ b ∈ some a, W b e) ds :=
  h.iff fun _ => by simp

theorem adds_optionalExpr (part : Option Expr) :
    Adds (optional expr part) [] ((part.map Expr.ids).getD []) :=
  .optional part fun x _ => adds_expr x

/-- A part that there is no rule for finds what the parts inside it find. -/
theorem Finds.inside {part : Part} (h : Finds c this w V ds) (hrule : part.isRuled = false)
    (hscope : part.declarations = []) (hV : ∀ e, V e ↔ SomeOffends path part.inner e) :
    Finds c this w (Offends path part) ds :=
  h.iff fun e => by
    rw [offends_iff_of_not_isRuled hrule, hscope, hV]
    simp

/-- The same if the part opens a scope. -/
theorem Finds.inScopeOf {part : Part} (h : Finds c this w V part.declarations)
    (hrule : part.isRuled = false) (hV : ∀ e, V e ↔ SomeOffends path part.inner e) :
    Finds c this (Resolution.inScope ∅ w) (Offends path part) [] :=
  h.inScope.iff fun e => by
    rw [offends_iff_of_not_isRuled hrule, hV]
    rfl

theorem offends_stmts_iff {ss : List Stmt} {e : ScopeError} :
    Offends path (.stmts ss) e ↔ ∃ s ∈ ss, Offends path (.stmt s) e := by
  rw [offends_iff_of_not_isRuled rfl]
  simp [Part.declarations, Part.inner]

end

mutual

/-- The walk through an expression finds an error just of the rules that its parts break. -/
theorem finds_expr (path : List Layer) (x : Expr) :
    FindsAt path (expr x) (Offends path (.expr x)) [] := by
  obtain ⟨id, span, node⟩ := x
  cases node with
  | literal value =>
    exact Finds.pure.inside rfl rfl fun _ => by simp [Part.inner, Expr.Node.operands]
  | group e =>
    exact (finds_expr path e).inside rfl rfl fun _ => by simp [Part.inner, Expr.Node.operands]
  | unary op e =>
    exact (finds_expr path e).inside rfl rfl fun _ => by simp [Part.inner, Expr.Node.operands]
  | binary op left right =>
    exact ((finds_expr path left).seq (adds_expr left) (finds_expr path right)).inside rfl rfl
      fun _ => by simp [Part.inner, Expr.Node.operands]
  | logical op left right =>
    exact ((finds_expr path left).seq (adds_expr left) (finds_expr path right)).inside rfl rfl
      fun _ => by simp [Part.inner, Expr.Node.operands]
  | ternary condition yes no =>
    exact ((finds_expr path condition).seq (adds_expr condition)
      ((finds_expr path yes).seq (adds_expr yes) (finds_expr path no))).inside rfl rfl
        fun _ => by simp [Part.inner, Expr.Node.operands]
  | «variable» name =>
    exact (finds_readName id name).inside rfl rfl fun _ => by simp [Part.inner, Expr.Node.operands]
  | assign name value =>
    exact ((finds_expr path value).seq (adds_expr value) (finds_use id name.name false)).inside
      rfl rfl fun _ => by simp [Part.inner, Expr.Node.operands]
  | call callee args =>
    exact ((finds_expr path callee).seq (adds_expr callee) (finds_exprs path args)).inside rfl rfl
      fun _ => by simp [Part.inner, Expr.Node.operands]
  | get object property =>
    exact (finds_expr path object).inside rfl rfl fun _ => by simp [Part.inner, Expr.Node.operands]
  | set object property value =>
    exact ((finds_expr path value).seq (adds_expr value) (finds_expr path object)).inside rfl rfl
      fun _ => by simp [Part.inner, Expr.Node.operands, or_comm]
  | array elements =>
    exact (finds_exprs path elements).inside rfl rfl
      fun _ => by simp [Part.inner, Expr.Node.operands]
  | index array position =>
    exact ((finds_expr path array).seq (adds_expr array) (finds_expr path position)).inside rfl rfl
      fun _ => by simp [Part.inner, Expr.Node.operands]
  | indexSet array position value =>
    exact ((finds_expr path array).seq (adds_expr array)
      ((finds_expr path position).seq (adds_expr position) (finds_expr path value))).inside rfl rfl
        fun _ => by simp [Part.inner, Expr.Node.operands]
  | lambda f =>
    exact (finds_function (.function :: path) f rfl fun h => h).inside rfl rfl
      fun _ => by simp [Part.inner]
  | this => exact finds_receiver
  | super method => exact finds_superclass

theorem finds_exprs (path : List Layer) (es : List Expr) :
    FindsAt path (exprs es) (fun e => ∃ x ∈ es, Offends path (.expr x) e) [] := by
  cases es with
  | nil => exact Finds.pure.iff fun _ => by simp
  | cons x es =>
    exact ((finds_expr path x).seq (adds_expr x) (finds_exprs path es)).iff fun _ => by simp

/-- The function's own path is told by the context that its body is walked in. -/
theorem finds_function {c : Context} {this : Bool} (path : List Layer) (f : Function)
    {kind : FunctionContext}
    (hc : c.enterFunction kind = contextAt path) (hthis : knowsThis path = true → this = true) :
    Finds c this (function kind f) (Offends path (.function f)) [] := by
  obtain ⟨name, params, body, isGetter, span⟩ := f
  have hbody : FindsAt path (do params.forM (introduce · false); stmts body)
      (fun e => ∃ s ∈ body, Offends path (.stmt s) e) (params ++ body.flatMap Stmt.declarations) :=
    ((finds_parameters params).bind (adds_parameters params) (finds_stmts path body)).iff
      fun _ => by simp
  refine .within ?_
  show Finds (c.enterFunction kind) _ _ _ _
  rw [hc]
  refine (hbody.mono hthis).inScopeOf rfl fun _ => ?_
  simp [Part.inner, offends_stmts_iff]

theorem finds_methods {c : Context} {this : Bool} (path : List Layer) (owner : Owner)
    (fs : List Function)
    (hc : c = (contextAt path).enterClass owner.context) :
    Finds c this (methods fs)
      (fun e => ∃ f ∈ fs, Offends (.member ⟨owner, f, false⟩ :: path) (.function f) e) [] := by
  cases fs with
  | nil => exact Finds.pure.iff fun _ => by simp
  | cons f fs =>
    have hf : Finds c true (function (Lexical.methodContext f) f)
        (Offends (.member ⟨owner, f, false⟩ :: path) (.function f)) [] :=
      finds_function (.member ⟨owner, f, false⟩ :: path) f (by rw [hc]; rfl) fun _ => rfl
    exact (hf.inReceiver.seq (.inScope (adds_function _ f)) (finds_methods path owner fs hc)).iff
      fun _ => by simp

theorem finds_staticMethods {c : Context} {this : Bool} (path : List Layer) (owner : Owner)
    (fs : List Function)
    (hc : c = (contextAt path).enterClass owner.context) :
    Finds c this (staticMethods fs)
      (fun e => ∃ f ∈ fs, Offends (.member ⟨owner, f, true⟩ :: path) (.function f) e) [] := by
  cases fs with
  | nil => exact Finds.pure.iff fun _ => by simp
  | cons f fs =>
    have hf : Finds c this (function .staticMethod f)
        (Offends (.member ⟨owner, f, true⟩ :: path) (.function f)) [] :=
      finds_function (.member ⟨owner, f, true⟩ :: path) f (by rw [hc]; rfl) fun h => by cases h
    exact (hf.seq (adds_function _ f) (finds_staticMethods path owner fs hc)).iff fun _ => by simp

theorem finds_stmts (path : List Layer) (ss : List Stmt) :
    FindsAt path (stmts ss) (fun e => ∃ s ∈ ss, Offends path (.stmt s) e)
      (ss.flatMap Stmt.declarations) := by
  cases ss with
  | nil => exact Finds.pure.iff fun _ => by simp
  | cons s ss =>
    have hs : Adds (stmt s) (s.declarations.map Identifier.name) s.ids :=
      s.declared_eq ▸ adds_stmt s
    exact ((finds_stmt path s).bind hs (finds_stmts path ss)).iff fun _ => by simp

/-- The walk through a statement finds an error just of the rules that its parts break. -/
theorem finds_stmt (path : List Layer) (s : Stmt) :
    FindsAt path (stmt s) (Offends path (.stmt s)) s.declarations := by
  obtain ⟨span, node⟩ := s
  cases node with
  | expression e => exact (finds_expr path e).inside rfl rfl fun _ => by simp [Part.inner]
  | print e => exact (finds_expr path e).inside rfl rfl fun _ => by simp [Part.inner]
  | «break» => exact finds_loopControl (.inl ⟨rfl, rfl⟩)
  | «continue» => exact finds_loopControl (.inr ⟨rfl, rfl⟩)
  | varDecl name init =>
    rw [stmt_varDecl]
    have hinit : FindsAt path (optional expr init)
        (fun e => ∃ x ∈ init, Offends path (.expr x) e) [] := by
      cases init with
      | none => exact finds_none
      | some x => exact finds_some (finds_expr path x)
    refine ((finds_declare name true).bind (adds_declare name true)
      (hinit.seq (adds_optionalExpr init) (finds_define name.name))).inside rfl rfl fun _ => ?_
    simp [Part.inner]
  | block body =>
    have hbody : FindsAt path (stmts body) (fun e => ∃ s ∈ body, Offends path (.stmt s) e)
        (Part.stmt ⟨span, .block body⟩).declarations := finds_stmts path body
    exact hbody.inScopeOf rfl fun _ => by simp [Part.inner, offends_stmts_iff]
  | ifElse condition yes no =>
    rw [stmt_ifElse]
    have hyes : Adds (stmt yes) (yes.declarations.map Identifier.name) yes.ids :=
      yes.declared_eq ▸ adds_stmt yes
    cases no with
    | none =>
      exact ((finds_expr path condition).seq (adds_expr condition)
        ((finds_stmt path yes).bind hyes .pure)).inside rfl rfl fun _ => by simp [Part.inner]
    | some s =>
      exact ((finds_expr path condition).seq (adds_expr condition)
        ((finds_stmt path yes).bind hyes (finds_stmt path s))).inside rfl rfl
          fun _ => by simp [Part.inner]
  | «while» condition body =>
    have hbody : FindsAt path (within .loop (stmt body)) (Offends (.loop :: path) (.stmt body)) _ :=
      .within (finds_stmt (.loop :: path) body)
    exact ((finds_expr path condition).seq (adds_expr condition) hbody).inside rfl rfl
      fun _ => by simp [Part.inner]
  | «for» init condition step body =>
    rw [stmt_for]
    have hinit : FindsAt path (optional stmt init) (fun e => ∃ s ∈ init, Offends path (.stmt s) e)
        (init.toList.flatMap Stmt.declarations) := by
      cases init with
      | none => exact finds_none
      | some s => exact List.flatMap_singleton _ _ ▸ finds_some (finds_stmt path s)
    have hadds : Adds (optional stmt init)
        ((init.toList.flatMap Stmt.declarations).map Identifier.name)
        ((init.map Stmt.ids).getD []) := by
      cases init with
      | none => exact .pure
      | some s => simpa [s.declared_eq, optional] using adds_stmt s
    have hcondition : FindsAt path (optional expr condition)
        (fun e => ∃ x ∈ condition, Offends path (.expr x) e) [] := by
      cases condition with
      | none => exact finds_none
      | some x => exact finds_some (finds_expr path x)
    have hstep : FindsAt path (optional expr step)
        (fun e => ∃ x ∈ step, Offends path (.expr x) e) [] := by
      cases step with
      | none => exact finds_none
      | some x => exact finds_some (finds_expr path x)
    have hbody : FindsAt path (within .loop (stmt body)) (Offends (.loop :: path) (.stmt body)) _ :=
      .within (finds_stmt (.loop :: path) body)
    exact (hinit.bind hadds (hcondition.seq (adds_optionalExpr condition)
      (hstep.seq (adds_optionalExpr step) hbody))).inScopeOf rfl
        fun _ => by simp [Part.inner]
  | funDecl f =>
    have hf : FindsAt path (function .function f) (Offends (.function :: path) (.function f)) [] :=
      finds_function (.function :: path) f rfl fun h => h
    exact ((finds_introduce f.name true).bind (adds_introduce f.name true) hf).inside rfl rfl
      fun _ => by simp [Part.inner]
  | «return» value =>
    rw [stmt_return]
    have hadds : Adds (returnAt span) [] [] := adds_returnAt span
    cases value with
    | none =>
      exact (finds_returnAt.seq hadds .pure).iff fun _ => by simp [offends_return_iff]
    | some x =>
      exact (finds_returnAt.seq hadds (finds_returnValueAt.seq (adds_returnValueAt span)
        (finds_expr path x))).iff fun _ => by simp [offends_return_iff]
  | classDecl name superclass traits ms ss =>
    have hmembers (owner : Owner) (b : Bool) : Finds ((contextAt path).enterClass owner.context) b
        (do methods ms; staticMethods ss)
        (fun e => (∃ f ∈ ms, Offends (.member ⟨owner, f, false⟩ :: path) (.function f) e) ∨
          ∃ f ∈ ss, Offends (.member ⟨owner, f, true⟩ :: path) (.function f) e) [] :=
      (finds_methods path owner ms rfl).seq (adds_methods ms)
        (finds_staticMethods path owner ss rfl)
    cases superclass with
    | none =>
      exact ((finds_introduce name true).bind (adds_introduce name true)
        ((finds_references traits).seq (adds_references traits)
          (.within (hmembers (.class false) _)))).inside rfl rfl fun _ => by simp [Part.inner]
    | some r =>
      rw [stmt_subclass]
      have hcheck : Adds (checkSuperclass name r.name) [] [] :=
        .of_eq fun _ _ h => (checkSuperclass_eq_ok h).2
      exact ((finds_introduce name true).bind (adds_introduce name true)
        ((finds_checkSuperclass name r.name).seq hcheck
          ((finds_readName r.id r.name).seq (adds_readName r.id r.name)
            ((finds_references traits).seq (adds_references traits)
              (.within (hmembers (.class true) _).inScope))))).iff
                fun _ => by simp [offends_subclass_iff]
  | traitDecl name ms ss =>
    exact ((finds_introduce name true).bind (adds_introduce name true)
      (.within ((finds_methods path .trait ms rfl).seq (adds_methods ms)
        (finds_staticMethods path .trait ss rfl)))).inside rfl rfl fun _ => by simp [Part.inner]

end

/-! ## Programs -/

theorem starts_program : Starts (contextAt []) (knowsThis []) ⟨[], [], [], .topLevel⟩ :=
  ⟨rfl, fun h => by cases h⟩

theorem rules_of_ofProgram {body : List Stmt} {r : Resolution} (h : ofProgram body = .ok r) :
    Rules body := by
  refine rules_iff.2 fun path part hl e hb => ?_
  unfold ofProgram at h
  split at h
  · next t ht =>
    obtain ⟨hV, -⟩ := (finds_stmts [] body).ok starts_program ht
    exact hV e (offends_stmts_iff.1 ⟨path, part, hl, hb⟩)
  · cases h

theorem breaks_of_ofProgram {body : List Stmt} {e : ScopeError} (h : ofProgram body = .error e) :
    IsOwnRead e ∨ ∃ path part, Lies body path part ∧ Breaks path part e := by
  unfold ofProgram at h
  split at h
  · cases h
  · next t ht =>
    cases h
    rcases (finds_stmts [] body).error starts_program ht with hown | hV | ⟨names, hnames, -⟩
    · exact .inl hown
    · exact .inr (offends_stmts_iff.2 hV)
    · cases hnames

/-- The rules are kept by what is accepted.  What keeps to them is accepted, unless a local is read
in its own initializer, and any other error is where a part breaks the rule that the error names. -/
theorem enforces_rules (body : List Stmt) :
    (∀ r, ofProgram body = .ok r → Rules body) ∧
    (Rules body → (∃ r, ofProgram body = .ok r) ∨ ∃ e, ofProgram body = .error e ∧ IsOwnRead e) ∧
    ∀ e, ofProgram body = .error e → ¬IsOwnRead e →
      ¬Rules body ∧ ∃ path part, Lies body path part ∧ Breaks path part e := by
  have herror (e : ScopeError) (he : ofProgram body = .error e) (hown : ¬IsOwnRead e) :
      ¬Rules body ∧ ∃ path part, Lies body path part ∧ Breaks path part e := by
    obtain ⟨path, part, hl, hb⟩ := (breaks_of_ofProgram he).resolve_left hown
    exact ⟨fun hrules => rules_iff.1 hrules path part hl e hb, path, part, hl, hb⟩
  refine ⟨fun r hr => rules_of_ofProgram hr, fun hrules => ?_, herror⟩
  cases h : ofProgram body with
  | ok r => exact .inl ⟨r, rfl⟩
  | error e => exact .inr ⟨e, rfl, Classical.byContradiction fun hown => (herror e h hown).1 hrules⟩

/-- A `break` in a loop, and one outside. -/
theorem enforces_rules_break :
    let condition : Expr := ⟨0, .onLine 7 10, .literal .nil⟩
    let leave : Stmt := ⟨.onLine 12 18, .break⟩
    let loop : Stmt := ⟨.onLine 0 18, .while condition leave⟩
    Rules [loop] ∧ ((∃ r, ofProgram [loop] = .ok r) ∨
        ∃ e, ofProgram [loop] = .error e ∧ IsOwnRead e) ∧
      ¬Rules [loop, leave] ∧ ∃ path part, Lies [loop, leave] path part ∧
        Breaks path part ⟨.onLine 12 17, .loopControlOutsideLoop .break⟩ := by
  intro condition leave loop
  obtain ⟨haccepted, hkept, -⟩ := enforces_rules [loop]
  obtain ⟨-, -, hrejected⟩ := enforces_rules [loop, leave]
  have hrules : Rules [loop] := haccepted _ rfl
  have herror : ofProgram [loop, leave] =
      .error ⟨.onLine 12 17, .loopControlOutsideLoop .break⟩ := rfl
  refine ⟨hrules, hkept hrules, hrejected _ herror ?_⟩
  rintro ⟨name, hname⟩
  cases hname

end Resolution

end Lox

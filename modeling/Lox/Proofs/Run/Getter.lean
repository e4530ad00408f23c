import Lox.Proofs.Class.Static
import Lox.Proofs.Run.Inert
import Lox.Proofs.Run.Super

/-!
# Where getters are

Getters are in the tables of classes and traits, and are taken from there only to be run: by an
access, or as the initializer of a new instance.  No variable, element or field ever is one, no
operand, argument or result (`Clean`), whatever the host has done:

    Reached log → log.Visited stack c → c.Clean                                (Reached.clean)

So an access to a field, which would run a getter, never runs anything: it gives what was stored
there last.
-/

namespace Lox

/-! ## Members and fields -/

namespace Heap

/-- The function is from the table of a class, or a copy of one that is. -/
def HasMember (h : Heap) (f : Closure) : Prop :=
  ∃ k ∈ h.classes, ∃ name g, (k.methods.find? name = some g ∨ k.statics.find? name = some g) ∧
    g.function = f.function ∧ g.kind = f.kind

/-- Upward from a class, the nearest that has a static member of the name itself. -/
inductive Nearest (h : Heap) (name : String) : ClassId → ClassId → Prop
  | own {c : ClassId} : (h.ownStatic? c name).isSome → Nearest h name c c
  | inherited {c s d : ClassId} {k : Class} :
      h.classes[c.index]? = some k → h.ownStatic? c name = none → k.superclass = some s →
      s.index < c.index → Nearest h name s d → Nearest h name c d

/-- The field that an instance or a class answers with has that value. -/
inductive FieldOf (h : Heap) (name : String) (v : Value) : Value → Prop
  | field {i : InstanceId} : h.field? i name = some v → FieldOf h name v (.object i)
  | static {c d : ClassId} :
      h.Nearest name c d → h.staticField? d name = some v → FieldOf h name v (.klass c)

/-- The value is what was stored last in that field: at some time `w` was, and then what the edits
since then have stored there. -/
inductive LastStored (h : Heap) (name : String) (v : Value) : Value → Prop
  | field {h₀ : Heap} {i : InstanceId} {w : Value} {es : List Edit} :
      i.index < h₀.instances.size → h = (h₀.setField i name w).edits es →
      v = (last (Edit.inField i name) es).getD w → LastStored h name v (.object i)
  | static {h₀ : Heap} {c d : ClassId} {w : Value} {es : List Edit} :
      h.Nearest name c d → d.index < h₀.classes.size → h = (h₀.setStatic d name w).edits es →
      v = (last (Edit.inStatic d name) es).getD w → LastStored h name v (.klass c)

/-- The instance or class is there. -/
def HasHolder (h : Heap) : Value → Prop
  | .object i => i.index < h.instances.size
  | .klass c => c.index < h.classes.size
  | _ => False

variable {h h' : Heap}

theorem HasMember.of_classes_eq {f : Closure} (hc : h'.classes = h.classes) (hf : h.HasMember f) :
    h'.HasMember f := by
  unfold HasMember
  rwa [hc]

theorem hasMember_of_method? {c : ClassId} {name : String} {f g : Closure}
    (hf : h.method? c name = some f) (hfunction : f.function = g.function)
    (hkind : f.kind = g.kind) : h.HasMember g := by
  fun_induction Heap.method? h c name with
  | case1 c k hk f' hf' =>
    cases hf
    exact ⟨k, Array.mem_of_getElem? hk, _, _, .inl hf', hfunction, hkind⟩
  | case2 c k hk hn s hs hlt ih => exact ih hf
  | case3 | case4 | case5 => cases hf

/-- A static member is a field, or from the table of a class. -/
theorem Tidy.hasMember_of_static? (hh : h.Tidy) {c : ClassId} {name : String} {f : Closure}
    (hf : h.static? c name = some (.function f)) (hg : f.isGetter = true) : h.HasMember f := by
  fun_induction Heap.static? h c name with
  | case1 c k hk v hv =>
    cases hf
    have hinert := (hh.classes k (Array.mem_of_getElem? hk)).fields.find? hv
    rw [Value.inert_function_iff.1 hinert] at hg
    cases hg
  | case2 c k hk hn g hs =>
    cases hf
    exact ⟨k, Array.mem_of_getElem? hk, _, _, .inr hs, rfl, rfl⟩
  | case3 c k hk hn hs s hsuper hlt ih => exact ih hf
  | case4 | case5 | case6 => cases hf

theorem Nearest.of_field {name : String} {c : ClassId} {v : Value}
    (hv : h.staticField? c name = some v) : h.Nearest name c c := by
  refine .own ?_
  rw [ownStatic?, hv, Option.some_or]
  rfl

theorem Nearest.static? {name : String} {c d : ClassId} (hd : h.Nearest name c d) :
    h.static? c name = h.ownStatic? d name := by
  induction hd with
  | @own c hc =>
    cases hk : h.classes[c.index]? with
    | none => simp [ownStatic?, staticField?, staticMethod?, hk] at hc
    | some k => rw [static?_eq hk, Option.or_of_isSome hc]
  | inherited hk hnone hs hlt _ ih =>
    rw [static?_eq hk, hnone, hs]
    simp only [if_pos hlt, ih, Option.none_or]

theorem Nearest.static?_of_field {name : String} {c d : ClassId} {v : Value}
    (hd : h.Nearest name c d) (hv : h.staticField? d name = some v) :
    h.static? c name = some v := by
  rw [hd.static?, ownStatic?, hv, Option.some_or]

theorem Tidy.fieldOf (hh : h.Tidy) {name : String} {v target : Value}
    (hv : h.FieldOf name v target) : v.Inert := by
  cases hv with
  | field hv => exact hh.field? hv
  | static _ hv => exact hh.staticField? hv

/-- What was stored last in a field is what it has. -/
theorem LastStored.fieldOf {name : String} {v target : Value} (hv : h.LastStored name v target) :
    h.FieldOf name v target := by
  cases hv with
  | @field h₀ i w es hi hh hv =>
    refine .field ?_
    have hsize : i.index < (h₀.setField i name w).instances.size := by simpa [setField] using hi
    rw [hh, field?_edits hsize, field?_setField hi, hv, Option.or_some]
  | @static h₀ c d w es hd hi hh hv =>
    refine .static hd ?_
    have hsize : d.index < (h₀.setStatic d name w).classes.size := by simpa [setStatic] using hi
    rw [hh, staticField?_edits hsize, staticField?_setStatic hi, hv, Option.or_some]

end Heap

namespace Eval

open Run

variable {m : Machine} {name : Identifier} {v : Value}

/-- A write stores the value, and nothing since. -/
theorem setProperty_stores {target : Value} (ht : m.heap.HasHolder target) :
    (machineOf (setProperty target name v m)).heap.LastStored name.name v target := by
  cases target with
  | object i =>
    have hwritten : m.heap.setField i name.name v = (m.heap.setField i name.name v).edits [] := rfl
    exact .field ht hwritten rfl
  | klass c =>
    have hwritten : m.heap.setStatic c name.name v = (m.heap.setStatic c name.name v).edits [] := rfl
    exact .static (.of_field (Heap.staticField?_setStatic ht name.name v)) ht hwritten rfl
  | _ => cases ht

theorem property_of_field {target : Value} (hv : m.heap.FieldOf name.name v target) :
    property target name m = .ok v m := by
  cases hv with
  | @field i hv =>
    have hm : m.heap.member? i name.name = some (.field v) := by
      unfold Heap.field? at hv
      unfold Heap.member?
      cases ho : m.heap.instances[i.index]? with
      | none =>
        rw [ho] at hv
        cases hv
      | some o =>
        rw [ho] at hv
        have hfield : o.fields.find? name.name = some v := hv
        simp only [hfield]
    refine (EStateM.get_bind_apply _ m).trans ?_
    rw [hm]
    rfl
  | static hd hv =>
    refine (EStateM.get_bind_apply _ m).trans ?_
    rw [hd.static?_of_field hv]
    rfl

theorem access_of_inert {apply : Closure → List Value → Eval Value} (hv : v.Inert) :
    access apply v m = .ok v m := by
  cases v with
  | function f =>
    unfold access
    dsimp only
    rw [Value.inert_function_iff.1 hv]
    rfl
  | _ => rfl

/-- A getter that an instance or a class answers with is from a table. -/
theorem hasMember_of_property (hm : m.heap.Tidy) {target : Value} {f : Closure} {m' : Machine}
    (h : property target name m = .ok (.function f) m') (hg : f.isGetter = true) :
    m'.heap.HasMember f := by
  cases target with
  | object i =>
    rw [property, EStateM.get_bind_apply] at h
    cases hi : m.heap.member? i name.name with
    | none => rw [hi] at h; cases h
    | some member =>
      rw [hi] at h
      unfold Heap.member? at hi
      split at hi
      · next o ho =>
        split at hi
        · next w hw =>
          cases hi
          cases h
          have hinert := (hm.instances o (Array.mem_of_getElem? ho)).find? hw
          rw [Value.inert_function_iff.1 hinert] at hg
          cases hg
        · obtain ⟨f', hf', rfl⟩ := Option.map_eq_some_iff.1 hi
          cases h
          exact (Heap.hasMember_of_method? hf' rfl rfl).of_classes_eq rfl
      · cases hi
  | klass c =>
    rw [property, EStateM.get_bind_apply] at h
    cases hc : m.heap.static? c name.name with
    | none => rw [hc] at h; cases h
    | some v =>
      rw [hc] at h
      cases h
      exact hm.hasMember_of_static? hc hg
  | _ => cases h

/-- A getter that is found by way of `super` is from a table. -/
theorem hasMember_of_superProperty (hm : m.heap.Tidy) {id : ExprId} {span : Span} {f : Closure}
    {m' : Machine} (h : superProperty id name span m = .ok (.function f) m')
    (hg : f.isGetter = true) : m'.heap.HasMember f := by
  cases hd : m.distances[id]? with
  | none =>
    rw [superProperty, EStateM.get_bind_apply, hd] at h
    cases h
  | some hops =>
    cases hk : m.heap.getAt? hops m.frame Name.super with
    | none =>
      rw [superProperty, EStateM.get_bind_apply] at h
      simp only [hd, hk] at h
      cases h
    | some w =>
      cases w with
      | klass k =>
        have hstatic (hnone : receiver? m hops = none ∨ m.heap.method? k name.name = none) :
            m'.heap.HasMember f := by
          obtain ⟨hfound, hmissing⟩ := superProperty_of_static hd hk hnone span
          cases hs : m.heap.static? k name.name with
          | none => rw [hmissing hs] at h; cases h
          | some v =>
            rw [hfound v hs] at h
            cases h
            exact hm.hasMember_of_static? hs hg
        cases hr : receiver? m hops with
        | none => exact hstatic (.inl hr)
        | some receiver =>
          cases hf : m.heap.method? k name.name with
          | none => exact hstatic (.inr hf)
          | some f' =>
            rw [superProperty_of_method hd hk hr hf] at h
            cases h
            exact (Heap.hasMember_of_method? hf rfl rfl).of_classes_eq rfl
      | _ =>
        rw [superProperty, EStateM.get_bind_apply] at h
        simp only [hd, hk] at h
        cases h

end Eval

namespace Run

open Eval

/-! ## Tasks -/

/-- The operands of a task, or its callee and arguments. -/
def Task.values : Task → List Value
  | .act _ _ _ vs => vs
  | .call callee args _ => callee :: args
  | .apply _ args => args
  | .bind _ receiver => [receiver]
  | _ => []

/-- The function that a task has taken from where it was, to bind, access or run it. -/
def Task.function? : Task → Option Closure
  | .bind f _ | .apply f _ | .access (.function f) => some f
  | _ => none

end Run

/-- The value that is returned. -/
def Signal.values : Signal → List Value
  | .return v => [v]
  | _ => []

namespace Run

open Eval

/-- What is of interest in a result, if there is one. -/
def valuesOf {α : Type} (values : α → List Value) : EStateM.Result Stop Machine α → List Value
  | .ok a _ => values a
  | .error _ _ => []

/-- The values that come of a task. -/
def Config.given (c : Config) : List Value :=
  match c.task with
  | .program _ | .use _ _ _ | .members _ | .bind _ _ => []
  | .stmts ss => valuesOf Signal.values (stmts (stmt c.fuel) ss c.machine)
  | .stmt s => valuesOf Signal.values (stmt c.fuel s c.machine)
  | .loop condition body step k =>
    valuesOf Signal.values (turns c.fuel condition body step k c.machine)
  | .exprs es => valuesOf id (exprs (expr c.fuel) es c.machine)
  | .expr e => valuesOf (fun v => [v]) (expr c.fuel e c.machine)
  | .act id span node vs => valuesOf (fun v => [v]) (act c.fuel id span node vs c.machine)
  | .call callee args span => valuesOf (fun v => [v]) (call c.fuel callee args span c.machine)
  | .apply f args => valuesOf (fun v => [v]) (apply c.fuel f args c.machine)
  | .access v => valuesOf (fun v => [v]) (access (apply c.fuel) v c.machine)

/-- No getter has got out where the task begins.  One that it is about is from a table. -/
structure Config.Clean (c : Config) : Prop where
  tidy : c.machine.heap.Tidy
  values : ∀ v ∈ c.task.values, v.Inert
  member : ∀ f, c.task.function? = some f → f.isGetter = true → c.machine.heap.HasMember f

namespace Config.Clean

/-- A task that is about no function, on a heap with no getter in it. -/
theorem of_tidy {n : Nat} {task : Task} {m : Machine} (hm : m.heap.Tidy)
    (hvalues : ∀ v ∈ task.values, v.Inert) (hnone : task.function? = none) :
    Clean ⟨n, task, m⟩ where
  tidy := hm
  values := hvalues
  member f hf := by
    rw [show task.function? = some f from hf] at hnone
    cases hnone

/-- A task on the machine that an evaluation leaves. -/
theorem behind {α : Type} {Q : α → Prop} {x : Eval α} (hx : Deals Q x) {n : Nat} {task : Task}
    {m m' : Machine} {a : α} (hm : m.heap.Tidy) (h : x m = .ok a m')
    (hvalues : Q a → ∀ v ∈ task.values, v.Inert) (hnone : task.function? = none) :
    Clean ⟨n, task, m'⟩ := by
  obtain ⟨hedits, ha⟩ := (hx m hm).of_ok h
  exact of_tidy (hedits.tidy hm) (hvalues ha) hnone

theorem enter {n : Nat} {task : Task} {m : Machine} (hm : m.heap.Tidy) {outer : FrameId}
    {bindings : Table Value} (hb : bindings.All Value.Inert)
    (hvalues : ∀ v ∈ task.values, v.Inert) (hnone : task.function? = none) :
    Clean ⟨n, task, m.enter outer bindings⟩ :=
  of_tidy (hm.edit (e := .frame outer bindings) hb) hvalues hnone

/-- A method that is taken from a class to be bound. -/
theorem bind {n : Nat} {m : Machine} {f : Closure} {receiver : Value} (hm : m.heap.Tidy)
    (hr : receiver.Inert) {k : ClassId} {name : String} (hf : m.heap.method? k name = some f) :
    Clean ⟨n, .bind f receiver, m⟩ where
  tidy := hm
  values := List.forall_mem_singleton.2 hr
  member g hg _ := by
    cases hg
    exact Heap.hasMember_of_method? hf rfl rfl

theorem access {n : Nat} {m : Machine} {v : Value} (hm : m.heap.Tidy)
    (hv : ∀ f, v = .function f → f.isGetter = true → m.heap.HasMember f) :
    Clean ⟨n, .access v, m⟩ where
  tidy := hm
  values := by simp [Task.values]
  member f hf := by
    cases v with
    | function =>
      cases hf
      exact hv f rfl
    | _ => cases hf

end Config.Clean

/-- What a clean task is made of is clean. -/
theorem Calls.clean {c d : Config} (hcall : Calls c d) (hc : c.Clean) : d.Clean := by
  obtain ⟨hm, hvalues, hmember⟩ := hc
  have hnone {task : Task} (h : task.values = []) : ∀ v ∈ task.values, v.Inert := by simp [h]
  cases hcall with
  | programFirst | stmtsFirst | exprsFirst | expression | print | initializer | ifCondition
  | «while» | returnValue | condition | operands | logicalLeft | ternaryCondition | «variable»
  | assign | this | super => exact .of_tidy hm (hnone rfl) rfl
  | programRest h | stmtsRest h => exact .behind ((dealsIn _).stmt _) hm h (fun _ => hnone rfl) rfl
  | exprsRest h => exact .behind ((dealsIn _).expr _) hm h (fun _ => hnone rfl) rfl
  | ifYes h | ifNo h | logicalRight h | ternaryYes h | ternaryNo h =>
    exact .behind ((dealsIn _).expr _) hm h (fun _ => hnone rfl) rfl
  | block | forInit => exact .enter hm .empty (hnone rfl) rfl
  | @«for» _ _ _ _ _ _ m _ h =>
    have henter := hm.edit (e := .frame m.frame ∅) .empty
    exact .behind ((dealsIn _).firstClause _) henter h (fun _ => hnone rfl) rfl
  | classReference =>
    exact .of_tidy (hm.edit (e := .variable _ _ .nil) (.of_ne fun _ => Value.noConfusion))
      (hnone rfl) rfl
  | members h => exact .behind (.classHeader _ _ _) hm h (fun _ => hnone rfl) rfl
  | turn h => exact .behind ((dealsIn _).test _) hm h (fun _ => hnone rfl) rfl
  | step h h' =>
    have htest := (((dealsIn _).test _ _ hm).of_ok h).1.tidy hm
    exact .behind ((dealsIn _).stmt _) htest h' (fun _ => hnone rfl) rfl
  | turns h h' _ h'' =>
    have htest := (((dealsIn _).test _ _ hm).of_ok h).1.tidy hm
    have hturn := (((dealsIn _).stmt _ _ htest).of_ok h').1.tidy htest
    exact .behind ((dealsIn _).after _) hturn h'' (fun _ => hnone rfl) rfl
  | act _ h => exact .behind (.exprs (dealsIn _).expr _) hm h (fun hvs => hvs) rfl
  | bindMember hf =>
    unfold Heap.member? at hf
    split at hf
    · split at hf
      · cases hf
      · obtain ⟨f', hf', heq⟩ := Option.map_eq_some_iff.1 hf
        cases heq
        exact .bind hm (.of_ne fun _ => Value.noConfusion) hf'
    · cases hf
  | access h =>
    have hafter := (((Deals.property _ _) _ hm).of_ok h).1.tidy hm
    exact .access hafter fun f hf hg => by
      subst hf
      exact hasMember_of_property hm h hg
  | bindSuper _ _ hr hf => exact .bind hm (Deals.receiver hr) hf
  | accessSuper h =>
    have hafter := (((Deals.superProperty _ _ _) _ hm).of_ok h).1.tidy hm
    exact .access hafter fun f hf hg => by
      subst hf
      exact hasMember_of_superProperty hm h hg
  | getter hg => exact ⟨hm, hnone rfl, fun f hf => by cases hf; exact hmember _ rfl⟩
  | call => exact .of_tidy hm hvalues rfl
  | apply =>
    obtain ⟨hf, hargs⟩ := List.forall_mem_cons.1 hvalues
    refine ⟨hm, hargs, fun f hf' hg => ?_⟩
    cases hf'
    rw [Value.inert_function_iff.1 hf] at hg
    cases hg
  | bindInit hm₁ hf =>
    subst hm₁
    exact .bind (hm.edit (e := .object _) trivial) (.of_ne fun _ => Value.noConfusion) hf
  | @applyInit _ c _ _ f _ _ m _ hm₁ hf _ hbind =>
    subst hm₁
    have hobject : (Value.object (m.heap.newInstance c).1).Inert :=
      .of_ne fun _ => Value.noConfusion
    have hnew := hm.edit (e := .object c) trivial
    obtain ⟨rfl, rfl⟩ := Prod.ext_iff.1 hbind
    refine ⟨(Heap.Onward.bind _ f hobject).tidy hnew, (List.forall_mem_cons.1 hvalues).2,
      fun g hg _ => ?_⟩
    cases hg
    exact (Heap.hasMember_of_method? hf rfl rfl).of_classes_eq rfl
  | body =>
    refine .enter hm (.ofPairs fun p hp => ?_) (hnone rfl) rfl
    exact hvalues p.2 (List.of_mem_zip hp).2

/-- A clean task makes edits that fit, and no getter comes of it. -/
theorem Config.Clean.ends {c : Config} (hc : c.Clean) :
    c.machine.heap.Onward c.last.heap ∧ ∀ v ∈ c.given, v.Inert := by
  have hends {α : Type} {Q : α → Prop} {values : α → List Value} {x : Eval α} (hx : Deals Q x)
      (hq : ∀ a, Q a → ∀ v ∈ values a, v.Inert) :
      c.machine.heap.Onward (machineOf (discard x c.machine)).heap ∧
        ∀ v ∈ valuesOf values (x c.machine), v.Inert := by
    obtain ⟨hedits, hgiven⟩ := hx c.machine hc.tidy
    refine ⟨machineOf_discard x c.machine ▸ hedits, fun v hv => ?_⟩
    cases h : x c.machine with
    | ok a m =>
      rw [h] at hv
      exact hq a (hgiven a m h) v hv
    | error stop m =>
      rw [h] at hv
      cases hv
  have hvalue (v : Value) (hv : v.Inert) : ∀ w ∈ [v], w.Inert := List.forall_mem_singleton.2 hv
  have hsignal (signal : Signal) (hs : signal.Inert) : ∀ v ∈ signal.values, v.Inert := by
    cases signal with
    | «return» v => exact hvalue v hs
    | _ => exact fun v hv => by cases hv
  have hnothing : ∀ v ∈ ([] : List Value), v.Inert := fun v hv => by cases hv
  obtain ⟨n, task, m⟩ := c
  have hin := dealsIn n
  cases task with
  | program ss => exact ⟨(deals_program n ss m hc.tidy).1, hnothing⟩
  | stmts ss => exact hends (.stmts hin.stmt ss) hsignal
  | stmt s => exact hends (hin.stmt s) hsignal
  | loop condition body step k => exact hends (hin.turns condition body step k) hsignal
  | exprs es => exact hends (.exprs hin.expr es) fun vs hvs => hvs
  | expr e => exact hends (hin.expr e) hvalue
  | act id span node vs => exact hends (hin.act id span node hc.values) hvalue
  | call callee args span =>
    have hargs := (List.forall_mem_cons.1 hc.values).2
    exact hends (.callValue hin.apply callee hargs span) hvalue
  | apply f args => exact hends (hin.apply f args hc.values) hvalue
  | access v => exact hends (.access hin.apply v) hvalue
  | use | members | bind => exact ⟨.refl _, hnothing⟩

/-! ## Fields -/

/-- The task gives the value, and runs nothing. -/
structure Config.Answers (c : Config) (v : Value) : Prop where
  given : c.given = [v]
  last : c.last = c.machine
  calls : ∀ d e, Calls c d → ¬Calls d e

/-- Writes to fields store there, and accesses to fields give what the fields have. -/
structure Config.UsesFields (c : Config) : Prop where
  set : ∀ {id span object name value target v},
    c.task = .act id span (.set object name value) [target, v] →
    c.machine.heap.HasHolder target → c.last.heap.LastStored name.name v target
  get : ∀ {id span object name target v}, c.task = .act id span (.get object name) [target] →
    c.machine.heap.FieldOf name.name v target → c.Answers v
  super : ∀ {id span name vs hops k v}, c.task = .act id span (.super name) vs →
    c.machine.distances[id]? = some hops →
    c.machine.heap.getAt? hops c.machine.frame Name.super = some (.klass k) →
    receiver? c.machine hops = none ∨ c.machine.heap.method? k name.name = none →
    c.machine.heap.FieldOf name.name v (.klass k) → c.Answers v

theorem not_calls_access {n : Nat} {v : Value} {m : Machine} {d : Config} (hv : v.Inert) :
    ¬Calls ⟨n, .access v, m⟩ d := by
  intro hd
  cases hd with
  | getter hg =>
    rw [Value.inert_function_iff.1 hv] at hg
    cases hg

/-- A task answers as the evaluation of its expression does. -/
theorem Config.Answers.of_act {n : Nat} {id : ExprId} {span : Span} {node : Expr.Node}
    {vs : List Value} {m : Machine} {v : Value} (hact : act n id span node vs m = .ok v m)
    (hcalls : ∀ d e, Calls ⟨n, .act id span node vs, m⟩ d → ¬Calls d e) :
    Answers ⟨n, .act id span node vs, m⟩ v where
  given := by
    show valuesOf (fun v => [v]) (act n id span node vs m) = [v]
    rw [hact]
    rfl
  last := by
    rw [Config.last, Config.eval, machineOf_discard]
    show machineOf (act n id span node vs m) = m
    rw [hact]
    rfl
  calls := hcalls

/-- As what is clean has no getters for values, an access to a field runs nothing. -/
theorem Config.Clean.usesFields {c : Config} (hc : c.Clean) : c.UsesFields := by
  obtain ⟨n, task, m⟩ := c
  have hm := hc.tidy
  constructor
  case set =>
    intro id span object name value target v htask ht
    cases htask
    have hact : act n id span (.set object name value) [target, v] =
        setProperty target name v >>= fun _ => pure v := by simp only [act]
    have hlast : machineOf (act n id span (.set object name value) [target, v] m) =
        machineOf (setProperty target name v m) := by
      rw [hact]
      cases target with
      | object | klass => rfl
      | _ => cases ht
    rw [Config.last, Config.eval, machineOf_discard]
    show (machineOf (act n id span _ _ m)).heap.LastStored name.name v target
    rw [hlast]
    exact setProperty_stores ht
  case get =>
    intro id span object name target v htask hv
    cases htask
    have hproperty := property_of_field hv
    refine .of_act ?_ fun d e hd he => ?_
    · exact (EStateM.bind_of_ok hproperty _).trans (access_of_inert (hm.fieldOf hv))
    · cases hd with
      | bindMember => cases he
      | access h =>
        cases hproperty.symm.trans h
        exact not_calls_access (hm.fieldOf hv) he
  case super =>
    intro id span name vs hops k v htask hd hk hnone hv
    cases htask
    have hstatic : m.heap.static? k name.name = some v := by
      cases hv with
      | static hd hv => exact hd.static?_of_field hv
    have hsuper := (superProperty_of_static hd hk hnone span).1 v hstatic
    refine .of_act ?_ fun d e hd he => ?_
    · have hact : act n id span (.super name) vs =
          superProperty id name span >>= Eval.access (apply n) := by simp only [act]
      rw [hact, EStateM.bind_of_ok hsuper]
      exact access_of_inert (hm.fieldOf hv)
    · cases hd with
      | super | bindSuper => cases he
      | accessSuper h =>
        cases hsuper.symm.trans h
        exact not_calls_access (hm.fieldOf hv) he

/-- A getter is called for an access to it, or as the initializer of an instance. -/
theorem Config.Clean.caller {parent : Config} (hp : parent.Clean) {n : Nat} {f : Closure}
    {args : List Value} {m : Machine} (hcall : Calls parent ⟨n, .apply f args, m⟩)
    (hg : f.isGetter = true) :
    parent.task = .access (.function f) ∨
      ∃ k args span, parent.task = .call (.klass k) args span := by
  cases hcall with
  | getter => exact .inl rfl
  | apply =>
    have hf := (List.forall_mem_cons.1 hp.values).1
    rw [Value.inert_function_iff.1 hf] at hg
    cases hg
  | applyInit => exact .inr ⟨_, _, _, rfl⟩

/-! ## Sessions -/

/-- The host has no getter, and has left none in the heap. -/
structure Log.Tidy (log : Log) : Prop where
  onward : Heap.start.Onward log.session.machine.heap
  values : ∀ v ∈ log.values, v.Inert
  runs : ∀ c ∈ log.runs, c.Clean ∧ c.task.function? = none

theorem Log.Tidy.heap {log : Log} (h : log.Tidy) : log.session.machine.heap.Tidy :=
  h.onward.tidy Heap.tidy_start

theorem Log.Tidy.has {log : Log} (h : log.Tidy) {v : Value} (hv : log.Has v) : v.Inert :=
  hv.elim (h.values v) .of_ne

theorem Log.Tidy.ran {log : Log} (h : log.Tidy) {fuel : Nat} {task : Task} {s : Session}
    {values : List Value} (hv : ∀ v ∈ task.values, v.Inert) (hnone : task.function? = none)
    (hlast : s.machine = Config.last ⟨fuel, task, log.session.machine⟩)
    (hgiven : ∀ v ∈ values, v ∈ Config.given ⟨fuel, task, log.session.machine⟩) :
    (log.ran fuel task s values).Tidy := by
  have hc : Config.Clean ⟨fuel, task, log.session.machine⟩ := .of_tidy h.heap hv hnone
  obtain ⟨hedits, hout⟩ := hc.ends
  constructor
  case onward =>
    show Heap.start.Onward s.machine.heap
    rw [hlast]
    exact h.onward.trans hedits
  case values =>
    intro v hmem
    exact (List.mem_append.1 hmem).elim (fun hnew => hout v (hgiven v hnew)) (h.values v)
  case runs => exact List.forall_mem_cons.2 ⟨⟨hc, hnone⟩, h.runs⟩

/-- The host comes by what the evaluation gives. -/
theorem mem_valuesOf_of_evaluate {x : Eval Value} {s s' : Session} {outcome : Outcome Value}
    (he : s.evaluate x = (outcome, s')) :
    ∀ v ∈ outcome.values, v ∈ valuesOf (fun v => [v]) (x s.machine) := by
  unfold Session.evaluate at he
  cases hx : x s.machine with
  | ok w m =>
    simp only [hx, Prod.mk.injEq] at he
    obtain ⟨rfl, -⟩ := he
    exact fun v hv => hv
  | error stop m =>
    cases stop
    all_goals
      simp only [hx, Prod.mk.injEq] at he
      obtain ⟨rfl, -⟩ := he
      exact fun v hv => by cases hv

theorem Reached.tidy {log : Log} (h : Reached log) : log.Tidy := by
  induction h with
  | start => exact ⟨.refl _, fun v hv => (by cases hv), fun c hc => (by cases hc)⟩
  | @step log log' _ hstep ih =>
    cases hstep with
    | prepared hp =>
      obtain ⟨tree, r, -, -, -, rfl⟩ := Session.prepare_eq_ok hp
      exact ⟨ih.onward, ih.values, ih.runs⟩
    | rejected hp =>
      obtain ⟨hm, -⟩ := Session.prepare_eq_error hp
      exact ⟨hm ▸ ih.onward, ih.values, ih.runs⟩
    | @executed p fuel outcome s hp he =>
      have hlast := log.session.machine_evaluate (Eval.program fuel p.body)
      rw [show log.session.evaluate _ = (outcome, s) from he] at hlast
      exact ih.ran (by simp [Task.values]) rfl hlast fun v hv => by cases hv
    | @evaluated p span e fuel outcome s hp hmem he =>
      have hlast := log.session.machine_evaluate (Eval.expr fuel e)
      rw [he, ← Eval.machineOf_discard] at hlast
      exact ih.ran (by simp [Task.values]) rfl hlast (mem_valuesOf_of_evaluate he)
    | @called f args span fuel outcome s hf hargs he =>
      have hlast := log.session.machine_evaluate (Eval.call fuel f args span)
      rw [he, ← Eval.machineOf_discard] at hlast
      have hvalues := List.forall_mem_cons.2 ⟨ih.has hf, fun v hv => ih.has (hargs v hv)⟩
      exact ih.ran hvalues rfl hlast (mem_valuesOf_of_evaluate he)

/-- Whatever has happened, an expression among the statements of an accepted program can be
evaluated. -/
theorem Reached.evaluate {log : Log} (h : Reached log) {p : Program} (hp : p ∈ log.programs)
    {span : Span} {e : Expr} (he : ⟨span, .expression e⟩ ∈ p.body) (fuel : Nat) :
    ∃ log', Reached log' ∧ log'.Visited [] ⟨fuel, .expr e, log.session.machine⟩ :=
  ⟨_, h.step (.evaluated hp he rfl), _, List.mem_cons_self, .start⟩

/-- Whatever has happened, all that a run comes by is clean. -/
theorem Reached.clean {log : Log} (h : Reached log) {stack : List Config} {c : Config}
    (hv : log.Visited stack c) : c.Clean := by
  obtain ⟨c₀, hc₀, hv⟩ := hv
  induction hv with
  | start => exact (h.tidy.runs c₀ hc₀).1
  | call _ hcall ih => exact hcall.clean ih

/-- A task that runs a getter has been called. -/
theorem Reached.caller {log : Log} (h : Reached log) {stack : List Config} {c : Config}
    (hv : log.Visited stack c) {f : Closure} {args : List Value}
    (htask : c.task = .apply f args) (hg : f.isGetter = true) :
    ∃ parent rest, stack = parent :: rest ∧ (parent.task = .access (.function f) ∨
      ∃ k args span, parent.task = .call (.klass k) args span) := by
  obtain ⟨n, task, m⟩ := c
  cases htask
  cases stack with
  | nil =>
    obtain ⟨c₀, hc₀, hv⟩ := hv
    cases hv
    cases (h.tidy.runs _ hc₀).2
  | cons parent rest =>
    obtain ⟨hparent, hcall⟩ := hv.of_cons
    exact ⟨parent, rest, rfl, (h.clean hparent).caller hcall hg⟩

/-- Getters are never values.  Whatever the host has done, it has none, and none is a variable, an
element of an array, a field of an instance or a static field; nor is one an operand, a callee, an
argument or a result of anything that a run comes by.  All that runs do to the heap are edits that
write none.  A getter that is bound, accessed or run is from the table of a class, and it is run for
an access to it or as the initializer of a new instance.  So an access to a field, by an instance, a
class, a subclass or `super`, gives what the field has and runs nothing, and what a field has is
what was stored there last. -/
theorem Reached.getters_stay_members {log : Log} (h : Reached log) :
    log.session.machine.heap.Tidy ∧ (∀ v ∈ log.values, v.Inert) ∧
    (∀ stack c, log.Visited stack c →
      c.machine.heap.Tidy ∧ c.last.heap.Tidy ∧ c.machine.heap.Onward c.last.heap ∧
      (∀ v ∈ c.task.values ++ c.given, v.Inert) ∧
      (∀ f, c.task.function? = some f → f.isGetter = true → c.machine.heap.HasMember f ∧
        ∀ args, c.task = .apply f args →
          ∃ parent rest, stack = parent :: rest ∧ (parent.task = .access (.function f) ∨
            ∃ k args span, parent.task = .call (.klass k) args span)) ∧
      c.UsesFields) ∧
    ∀ (heap : Heap) name v target, heap.LastStored name v target → heap.FieldOf name v target := by
  refine ⟨h.tidy.heap, h.tidy.values, fun stack c hv => ?_, fun _ _ _ _ => Heap.LastStored.fieldOf⟩
  have hc := h.clean hv
  obtain ⟨hedits, hgiven⟩ := hc.ends
  refine ⟨hc.tidy, hedits.tidy hc.tidy, hedits, fun v hmem => ?_, fun f hf hg => ?_,
    hc.usesFields⟩
  · exact (List.mem_append.1 hmem).elim (hc.values v) (hgiven v)
  · exact ⟨hc.member f hf hg, fun args htask => h.caller hv htask hg⟩

/-- The getter in `class A{class g{return nil;}}fun f(){}A.x=f;A.x;`. -/
def staticGetter : Function :=
  ⟨⟨"g", .onLine 14 15⟩, [],
    [⟨.onLine 16 27, .return (some ⟨0, .onLine 23 26, .literal .nil⟩)⟩], true, .onLine 14 28⟩

/-- The access to the field in `class A{class g{return nil;}}fun f(){}A.x=f;A.x;`. -/
def fieldAccess : Expr :=
  ⟨6, .onLine 44 47, .get ⟨5, .onLine 44 45, .variable ⟨"A", .onLine 44 45⟩⟩ ⟨"x", .onLine 46 47⟩⟩

/-- `class A{class g{return nil;}}fun f(){}A.x=f;A.x;` -/
def getterProgram : List Stmt := [
  ⟨.onLine 0 29, .classDecl ⟨"A", .onLine 6 7⟩ none [] [] [staticGetter]⟩,
  ⟨.onLine 29 38, .funDecl ⟨⟨"f", .onLine 33 34⟩, [], [], false, .onLine 33 38⟩⟩,
  ⟨.onLine 38 44, .expression ⟨4, .onLine 38 43, .set
    ⟨1, .onLine 38 39, .variable ⟨"A", .onLine 38 39⟩⟩ ⟨"x", .onLine 40 41⟩
    ⟨3, .onLine 42 43, .variable ⟨"f", .onLine 42 43⟩⟩⟩⟩,
  ⟨.onLine 44 48, .expression fieldAccess⟩]

/-- The machine behind that program. -/
def getterMachine : Machine :=
  machineOf (Eval.program 4 getterProgram ((Machine.start none (fun _ => 0)).learn []))

/-- A class with a getter, and a static field with a function that is not run when it is
accessed. -/
theorem getters_stay_members_static : ∃ log stack c name f g, Reached log ∧ log.Visited stack c ∧
    c.machine.heap.staticMethod? ⟨0⟩ "g" = some g ∧ g.isGetter = true ∧
    c.machine.heap.FieldOf name (.function f) (.klass ⟨0⟩) ∧ c.Answers (.function f) := by
  have hparse : Tree.parse "class A{class g{return nil;}}fun f(){}A.x=f;A.x;" 0 =
      .ok ⟨getterProgram, 7⟩ := by cbv
  have hresolve : Resolution.ofProgram getterProgram = .ok ⟨[], []⟩ := by cbv
  have hprepared := (Reached.start none (fun _ => 0)).step
    (.prepared (Session.prepare_of_parse hparse hresolve))
  obtain ⟨outcome, s, hexecute⟩ : ∃ outcome s, Session.execute
      ⟨(Machine.start none (fun _ => 0)).learn [], 7⟩ 4 ⟨getterProgram, []⟩ = (outcome, s) := ⟨_, _, rfl⟩
  have hmachine : s.machine = getterMachine := by
    have hlast := Session.machine_evaluate ⟨(Machine.start none (fun _ => 0)).learn [], 7⟩
      (Eval.program 4 getterProgram)
    rwa [show Session.evaluate _ _ = (outcome, s) from hexecute] at hlast
  have hexecuted := hprepared.step (.executed List.mem_cons_self hexecute)
  have hmem : (⟨.onLine 44 48, .expression fieldAccess⟩ : Stmt) ∈ getterProgram := by
    simp [getterProgram]
  obtain ⟨log, hreached, hroot⟩ := hexecuted.evaluate List.mem_cons_self hmem 2
  have hlookup : getterMachine.lookup 5 "A" = .ok (.klass ⟨0⟩) := by cbv
  have hvariable : Eval.expr 1 ⟨5, .onLine 44 45, .variable ⟨"A", .onLine 44 45⟩⟩ getterMachine =
      .ok (.klass ⟨0⟩) getterMachine := by
    show Eval.located _ (getterMachine.lookup 5 "A") getterMachine = _
    rw [hlookup]
    rfl
  have hfield : getterMachine.heap.staticField? ⟨0⟩ "x" =
      some (.function ⟨1, ⟨⟨"f", .onLine 33 34⟩, [], [], false, .onLine 33 38⟩, ⟨0⟩, .function⟩) := by
    cbv
  have hgetter : getterMachine.heap.staticMethod? ⟨0⟩ "g" =
      some ⟨0, staticGetter, ⟨0⟩, .staticMethod⟩ := by cbv
  rw [← hmachine] at hvariable hfield hgetter
  have hact := hroot.call (.act rfl ((EStateM.bind_of_ok hvariable _).trans rfl))
  have hfieldOf := Heap.FieldOf.static (.of_field hfield) hfield
  obtain ⟨-, -, hvisited, -⟩ := hreached.getters_stay_members
  obtain ⟨-, -, -, -, -, hfields⟩ := hvisited _ _ hact
  exact ⟨_, _, _, "x", _, _, hreached, hact, hgetter, rfl, hfieldOf, hfields.get rfl hfieldOf⟩

/-- The getter in `class A{init{return;}}A();`. -/
def initGetter : Function :=
  ⟨⟨"init", .onLine 8 12⟩, [], [⟨.onLine 13 20, .return none⟩], true, .onLine 8 21⟩

/-- The class in `class A{init{return;}}A();`. -/
def initGetterClass : Stmt :=
  ⟨.onLine 0 22, .classDecl ⟨"A", .onLine 6 7⟩ none [] [initGetter] []⟩

/-- The callee in `class A{init{return;}}A();`. -/
def instantiated : Expr := ⟨0, .onLine 22 23, .variable ⟨"A", .onLine 22 23⟩⟩

/-- The call in `class A{init{return;}}A();`. -/
def instantiation : Stmt :=
  ⟨.onLine 22 26, .expression ⟨1, .onLine 22 25, .call instantiated []⟩⟩

/-- The machine when the class is called. -/
def instantiationMachine : Machine :=
  machineOf (Eval.stmt 4 initGetterClass ((Machine.start none fun _ => 0).learn []))

/-- A class that is called runs a getter, if its `init` is one: what it runs is bound to the new
instance, so it is in no table, and nothing is accessed meanwhile. -/
theorem getter_runs_as_initializer : ∃ log stack c f, Reached log ∧ log.Visited stack c ∧
    c.task = .apply f [] ∧ f.isGetter = true ∧ (∀ d ∈ stack, ∀ v, d.task ≠ .access v) ∧
    (∀ k ∈ c.machine.heap.classes, k.methods.All (· ≠ f) ∧ k.statics.All (· ≠ f)) ∧
    c.machine.heap.traits = #[] := by
  have hparse : Tree.parse "class A{init{return;}}A();" 0 =
      .ok ⟨[initGetterClass, instantiation], 2⟩ := by cbv
  have hresolve : Resolution.ofProgram [initGetterClass, instantiation] = .ok ⟨[], []⟩ := by cbv
  obtain ⟨log, hreached, -, hrun⟩ :=
    (Reached.start none fun _ => 0).executes hparse hresolve 4
  have hclass : Eval.stmt 4 initGetterClass ((Machine.start none fun _ => 0).learn []) =
      .ok .next instantiationMachine := by cbv
  have hlookup : instantiationMachine.lookup 0 "A" = .ok (.klass ⟨0⟩) := by cbv
  have hinit : (instantiationMachine.heap.newInstance ⟨0⟩).2.method? ⟨0⟩ Name.init =
      some ⟨0, initGetter, ⟨0⟩, .initializer⟩ := by cbv
  have hclasses : instantiationMachine.heap.classes =
      #[⟨"A", none, ⟨[("init", ⟨0, initGetter, ⟨0⟩, .initializer⟩)]⟩, ∅, ∅⟩] := by cbv
  have hclosures : instantiationMachine.heap.closures = 1 := by cbv
  have hcallee : Eval.expr 1 instantiated instantiationMachine =
      .ok (.klass ⟨0⟩) instantiationMachine := by
    show Eval.located _ (instantiationMachine.lookup 0 "A") instantiationMachine = _
    rw [hlookup]
    rfl
  have hoperands : Eval.exprs (Eval.expr 1) [instantiated] instantiationMachine =
      .ok [.klass ⟨0⟩] instantiationMachine := (EStateM.bind_of_ok hcallee _).trans rfl
  have hvisited := (((((Log.Visited.call ⟨_, hrun, .start⟩ (.programRest hclass)).call
    .programFirst).call .expression).call (.act rfl hoperands)).call .call).call
    (.applyInit rfl hinit rfl rfl)
  refine ⟨log, _, _, _, hreached, hvisited, rfl, rfl, ?_, ?_, ?_⟩
  · simp
  · intro k hk
    replace hk : k ∈ instantiationMachine.heap.classes := hk
    rw [hclasses] at hk
    obtain rfl := List.mem_singleton.1 (Array.mem_toList_iff.2 hk)
    refine ⟨List.forall_mem_singleton.2 fun heq => ?_, .empty⟩
    -- what is run has been made after what is in the table
    have hidentity : 0 = instantiationMachine.heap.closures := congrArg Closure.identity heq
    rw [hclosures] at hidentity
    cases hidentity
  · cbv

end Run

end Lox

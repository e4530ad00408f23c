import Lox.Proofs.Class.Initializer
import Lox.Proofs.Scope.Lawful

/-!
# As many arguments as parameters

Only a call compares how many arguments there are with how many are needed; a function begins its
body without asking, and so does the access to a getter.  All the same a body is never begun with
too few arguments or too many, and each parameter is there in its frame:

    log.Visited stack ⟨n, .apply f args, m⟩ → Calls ⟨n, .apply f args, m⟩ d →
      f.function.params.map (d.machine.heap.getIn? d.machine.frame ·.name) = args.map some
                                                                (Reached.arguments_supplied)

What a function would do with another number of arguments makes no difference to any call or access
that a run comes by.  A call with another number ends in an error at once, on the machine as it was.
-/

namespace Lox

/-! ## Calls -/

namespace Eval

variable {n k : Nat} {m : Machine} {callee : Value} {args : List Value} {span : Span}
  {apply' : Closure → List Value → Eval Value}

/-- The same wherever a function gets as many arguments as it has parameters. -/
def SameOnArity (apply apply' : Closure → List Value → Eval Value) : Prop :=
  ∀ f args, f.arity = args.length → apply f args = apply' f args

theorem call_of_arity?_eq_none (ha : m.heap.arity? callee = none) :
    call n callee args span m = .error (.error ⟨span, .notCallable⟩) m := by
  unfold call callValue
  rw [EStateM.get_bind_apply, ha]
  rfl

theorem call_of_arity_ne (ha : m.heap.arity? callee = some k) (hne : k ≠ args.length) :
    call n callee args span m = .error (.error ⟨span, .wrongArity k args.length⟩) m := by
  unfold call callValue
  rw [EStateM.get_bind_apply, ha]
  dsimp only
  rw [if_pos hne]
  rfl

/-- The initializer of a class is called with what the class is called with. -/
theorem instantiate_same (h : SameOnArity (apply n) apply') {c : ClassId}
    (ha : m.heap.arity? (.klass c) = some args.length) :
    instantiate (apply n) c args m = instantiate apply' c args m := by
  unfold instantiate
  simp only [EStateM.bind_of_ok (Run.World.make_eq_ok.2 ⟨rfl, rfl⟩), EStateM.get_bind_apply]
  cases hf : (m.heap.newInstance c).2.method? c Name.init with
  | none => rfl
  | some f =>
    have hbound : (((m.heap.newInstance c).2).bind f (.object (m.heap.newInstance c).1)).1.arity =
        args.length := Option.some.inj ((Heap.arity?_of_newInstance hf).symm.trans ha)
    simp only [EStateM.bind_of_ok (Run.World.make_eq_ok.2 ⟨rfl, rfl⟩), h _ _ hbound]

theorem callValue_same (h : SameOnArity (apply n) apply') :
    call n callee args span m = callValue apply' callee args span m := by
  unfold call callValue
  rw [EStateM.get_bind_apply, EStateM.get_bind_apply]
  cases ha : m.heap.arity? callee with
  | none => rfl
  | some k =>
    by_cases hk : k = args.length
    · subst hk
      simp only [ne_eq, not_true_eq_false, if_false]
      cases callee with
      | function f => exact congrFun (h f args (Option.some.inj ha)) m
      | klass c => exact instantiate_same h ha
      | _ => rfl
    · simp only [ne_eq, hk, not_false_eq_true, if_true]
      rfl

theorem access_same (h : SameOnArity (apply n) apply') {v : Value}
    (hv : ∀ f, v = .function f → f.isGetter = true → f.arity = 0) :
    access (apply n) v = access apply' v := by
  cases v with
  | function f =>
    unfold access
    by_cases hg : f.isGetter = true
    · simp only [h f [] (hv f rfl hg)]
    · simp only [if_neg hg]
  | _ => rfl

/-- A native that gets as many arguments as it takes does not miss any. -/
theorem callNative_ne_wrongArity {f : Native} (ha : f.arity = args.length) (j k : Nat)
    (m m' : Machine) :
    callNative f args span m ≠ .error (.error ⟨span, .wrongArity j k⟩) m' := by
  match f, args, ha with
  | .clock, [], _ => nofun
  | .str, [v], _ => nofun
  | .append, [a, v], _ => cases a <;> nofun
  | .len, [a], _ => cases a <;> nofun

end Eval

/-! ## Parameters -/

theorem Table.find?_ofPairs_zip {α : Type} {names : List String} {values : List α}
    (hd : names.Nodup) (hl : names.length = values.length) :
    names.map (Table.ofPairs (names.zip values)).find? = values.map some := by
  refine List.ext_getElem (by simpa using hl) fun i hi hi' => ?_
  rw [List.length_map] at hi hi'
  have hmem : (names[i], values[i]) ∈ (names.zip values).reverse := by
    rw [List.mem_reverse, ← List.getElem_zip (h := by simpa using ⟨hi, hi'⟩)]
    exact List.getElem_mem _
  have hkeys : ((names.zip values).reverse.map Prod.fst).Nodup := by
    rw [List.map_reverse, List.nodup_reverse, List.map_fst_zip (Nat.le_of_eq hl)]
    exact hd
  rw [List.getElem_map, List.getElem_map]
  show (Table.insertAll ∅ _).find? _ = _
  rw [find?_insertAll, lookup_of_mem hkeys hmem, Option.some_or]

namespace Run

open Lexical

variable {log : Log} {stack : List Config} {c d : Config}

/-- The parameters of a function that can be called have different names. -/
theorem World.Callable.nodup_params {W : World} {h : Heap} {f : Closure} (hf : W.Callable h f) :
    (f.function.params.map Identifier.name).Nodup := by
  obtain ⟨π, ⟨body, hbody, ho⟩, -⟩ := hf
  obtain ⟨hb, r, hr⟩ := W.accepted body hbody
  obtain ⟨s, t, hs, ht⟩ := ho.visited hb hr
  exact Lexical.nodup_params hs ht

/-- A call with another number of arguments runs nothing. -/
theorem not_calls_of_arity {n : Nat} {callee : Value} {args : List Value} {span : Span} {m : Machine}
    (ha : m.heap.arity? callee ≠ some args.length) :
    ¬ Calls ⟨n, .call callee args span, m⟩ d := by
  have hinit {k : ClassId} {f : Closure}
      (hf : (m.heap.newInstance k).2.method? k Name.init = some f) (hl : f.arity = args.length) :
      m.heap.arity? (.klass k) = some args.length :=
    (Heap.arity?_of_newInstance hf).trans (congrArg some hl)
  intro hcall
  cases hcall with
  | apply hf => exact ha (congrArg some hf)
  | bindInit hm hf hl =>
    subst hm
    exact ha (hinit hf hl)
  | applyInit hm hf hl =>
    subst hm
    exact ha (hinit hf hl)

/-- What is wrong with a call with another number of arguments. -/
def refusal (h : Heap) (callee : Value) (args : List Value) : RuntimeErrorKind :=
  match h.arity? callee with
  | some k => .wrongArity k args.length
  | none => .notCallable

/-- What holds where arguments are passed. -/
structure Config.Supplied (c : Config) : Prop where
  /-- A body begins with an argument for each parameter, which is bound to it in a new frame. -/
  body : ∀ f args, c.task = .apply f args → f.arity = args.length ∧
    ∀ d, Calls c d → d.machine.frame = ⟨c.machine.heap.frames.size⟩ ∧
      f.function.params.map (fun p => d.machine.heap.getIn? d.machine.frame p.name) = args.map some
  /-- A call with another number of arguments runs nothing and changes nothing. -/
  refused : ∀ callee args span, c.task = .call callee args span →
    c.machine.heap.arity? callee ≠ some args.length → (∀ d, ¬ Calls c d) ∧
      Eval.call c.fuel callee args span c.machine =
        .error (.error ⟨span, refusal c.machine.heap callee args⟩) c.machine
  /-- A native that is called gets what it takes. -/
  native : ∀ f args span, c.task = .call (.native f) args span → f.arity = args.length →
    Eval.call c.fuel (.native f) args span c.machine = Eval.callNative f args span c.machine ∧
      ∀ j k m, Eval.callNative f args span c.machine ≠ .error (.error ⟨span, .wrongArity j k⟩) m
  /-- In particular the native that gives the text of a value is given one. -/
  str : ∀ args span, c.task = .call (.native .str) args span → args.length = 1 →
    ∃ v, args = [v] ∧ Eval.call c.fuel (.native .str) args span c.machine =
      .ok (.string (c.machine.heap.text v)) c.machine
  /-- No call depends on what functions do with another number of arguments. -/
  call : ∀ callee args span, c.task = .call callee args span →
    ∀ apply', Eval.SameOnArity (Eval.apply c.fuel) apply' →
      Eval.call c.fuel callee args span c.machine =
        Eval.callValue apply' callee args span c.machine
  /-- No access to a member does. -/
  access : ∀ v, c.task = .access v → ∀ apply', Eval.SameOnArity (Eval.apply c.fuel) apply' →
    Eval.access (Eval.apply c.fuel) v = Eval.access apply' v

/-- The parameters are bound to the arguments in the frame that a body begins in. -/
theorem World.Callable.supplied {W : World} {n : Nat} {m : Machine} {f : Closure}
    {args : List Value} (hf : W.Callable m.heap f) (ha : f.arity = args.length)
    (hcall : Calls ⟨n, .apply f args, m⟩ d) :
    d.machine.frame = ⟨m.heap.frames.size⟩ ∧
      f.function.params.map (fun p => d.machine.heap.getIn? d.machine.frame p.name) =
        args.map some := by
  cases hcall with
  | body =>
    refine ⟨rfl, ?_⟩
    have hbound (p : Identifier) :
        (m.enter f.frame (Eval.arguments f args)).heap.getIn? ⟨m.heap.frames.size⟩ p.name =
          (Eval.arguments f args).find? p.name := by
      rw [Machine.enter, Heap.getIn?_newFrame, if_pos rfl]
    have hlength : (f.function.params.map Identifier.name).length = args.length := by
      rw [List.length_map]
      exact ha
    have hzip := Table.find?_ofPairs_zip hf.nodup_params hlength
    rw [← hzip, List.map_map]
    exact List.map_congr_left fun p _ => hbound p

/-- No body begins with too few or too many arguments, by whatever way it is called, and a call
with the wrong number of them fails before it does anything. -/
theorem Reached.arguments_supplied (h : Reached log) (hv : log.Visited stack c) : c.Supplied := by
  obtain ⟨W, -, hready, -⟩ := h.visited hv
  obtain ⟨n, task, m⟩ := c
  constructor
  case body =>
    rintro f args rfl
    obtain ⟨-, -, hf, ha, -⟩ := hready
    exact ⟨ha, fun d hcall => hf.supplied ha hcall⟩
  case refused =>
    rintro callee args span rfl ha
    refine ⟨fun d => not_calls_of_arity ha, ?_⟩
    unfold refusal
    cases harity : m.heap.arity? callee with
    | none => exact Eval.call_of_arity?_eq_none harity
    | some k => exact Eval.call_of_arity_ne harity fun hk => ha (hk ▸ harity)
  case native =>
    rintro f args span rfl ha
    have harity : m.heap.arity? (.native f) = some args.length := congrArg some ha
    exact ⟨call_of_arity harity,
      fun j k m' => Eval.callNative_ne_wrongArity ha j k m m'⟩
  case str =>
    rintro args span rfl ha
    obtain ⟨v, rfl⟩ := List.length_eq_one_iff.1 ha
    exact ⟨v, rfl, rfl⟩
  case call =>
    rintro callee args span rfl apply' hsame
    exact Eval.callValue_same hsame
  case access =>
    rintro v rfl apply' hsame
    obtain ⟨-, -, hok⟩ := hready
    refine Eval.access_same hsame fun f hf hgetter => ?_
    subst hf
    exact World.arity_of_isGetter (World.ok_function_iff.1 hok) hgetter

/-- A call with one argument of a function with one parameter. -/
theorem arguments_supplied_lambda : ∃ log stack c f v, Reached log ∧ log.Visited stack c ∧
    c.task = .apply f [v] ∧ f.function.params.length = 1 ∧ c.Supplied := by
  let f : Function := ⟨⟨"lambda", .onLine 1 4⟩, [⟨"a", .onLine 6 7⟩], [], false, .onLine 1 11⟩
  let group : Expr := ⟨1, .onLine 0 12, .group ⟨0, .onLine 1 11, .lambda f⟩⟩
  let arg : Expr := ⟨2, .onLine 13 17, .literal (.boolean true)⟩
  let body : List Stmt := [⟨.onLine 0 19, .expression ⟨3, .onLine 0 18, .call group [arg]⟩⟩]
  let m : Machine := (Machine.start none (fun _ => 0)).learn []
  have hparse : Tree.parse "(fun (a) {})(true);" 0 = .ok ⟨body, 4⟩ := by cbv
  have hresolve : Resolution.ofProgram body = .ok ⟨[], []⟩ := by cbv
  obtain ⟨log, hreached, -, hrun⟩ := (Reached.start none (fun _ => 0)).executes hparse hresolve 4
  have hstart : log.Visited [] ⟨4, .program body, m⟩ := ⟨_, hrun, .start⟩
  have hoperands : Eval.exprs (Eval.expr 2) [group, arg] m =
      .ok [.function ⟨0, f, Heap.globals, .function⟩, .boolean true]
        { m with heap := { m.heap with closures := 1 } } := rfl
  have hexpr := (hstart.call .programFirst).call .expression
  have happly := ((hexpr.call (.act rfl hoperands)).call .call).call (.apply rfl)
  exact ⟨log, _, _, _, _, hreached, happly, rfl, rfl, hreached.arguments_supplied happly⟩

end Run

end Lox

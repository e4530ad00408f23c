import Lox.Proofs.Run.Kept
import Lox.Proofs.Scope.Member

/-!
# What `super` finds

The frame of `super` was made when the class around the code was declared, and has the superclass
that was found then; no program can write it.  Just inside it is the frame of `this` in an instance
member, and the frame of the call in a static one, which has no `this`: so the receiver is found
where there is one, and nothing is taken for it where there is none.

    super.name     instance member     S.method? name, bound to `this`, else S.static? name
                   static member       S.static? name                       (Reached.super_finds)

Here `S` is the superclass at the time of the declaration, whatever has become of its name, and
whatever class the receiver is of.
-/

namespace Lox

/-! ## Access by way of `super` -/

namespace Eval

variable {m : Machine} {id : ExprId} {hops : Nat} {k : ClassId} {name : Identifier}

/-- A method is bound to the instance that it is taken from. -/
theorem property_of_method {i : InstanceId} {f : Closure}
    (hf : m.heap.member? i name.name = some (.method f)) :
    property (.object i) name m = .ok (.function (m.heap.bind f (.object i)).1)
      { m with heap := (m.heap.bind f (.object i)).2 } := by
  refine (EStateM.get_bind_apply _ m).trans ?_
  rw [hf]
  rfl

/-- With a receiver, a method of the superclass is bound to it. -/
theorem superProperty_of_method (hd : m.distances[id]? = some hops)
    (hk : m.heap.getAt? hops m.frame Name.super = some (.klass k)) {receiver : Value}
    (hr : receiver? m hops = some receiver) {f : Closure}
    (hf : m.heap.method? k name.name = some f) (span : Span) :
    superProperty id name span m = .ok (.function (m.heap.bind f receiver).1)
      { m with heap := (m.heap.bind f receiver).2 } := by
  unfold superProperty
  rw [EStateM.get_bind_apply]
  simp only [hd, hk, hr, hf]
  rfl

/-- Without a receiver or such a method, the static members of the superclass are asked. -/
theorem superProperty_of_static (hd : m.distances[id]? = some hops)
    (hk : m.heap.getAt? hops m.frame Name.super = some (.klass k))
    (hnone : receiver? m hops = none ∨ m.heap.method? k name.name = none) (span : Span) :
    (∀ v, m.heap.static? k name.name = some v → superProperty id name span m = .ok v m) ∧
      (m.heap.static? k name.name = none → superProperty id name span m =
        .error (.error ⟨name.span, .undefinedProperty name.name⟩) m) := by
  unfold superProperty
  rw [EStateM.get_bind_apply]
  rcases hnone with hr | hf
  · simp only [hd, hk, hr]
    exact ⟨fun v hv => by rw [hv]; rfl, fun hv => by rw [hv]; rfl⟩
  · cases hr : receiver? m hops <;> simp only [hd, hk, hr, hf]
    all_goals exact ⟨fun v hv => by rw [hv]; rfl, fun hv => by rw [hv]; rfl⟩

theorem expr_super {n : Nat} {span : Span} {v : Value} {m' : Machine}
    (h : superProperty id name span m = .ok v m') :
    expr (n + 1) ⟨id, span, .super name⟩ m = access (apply n) v m' :=
  EStateM.bind_of_ok h (access (apply n))

theorem expr_super_of_error {n : Nat} {span : Span} {stop : Stop} {m' : Machine}
    (h : superProperty id name span m = .error stop m') :
    expr (n + 1) ⟨id, span, .super name⟩ m = .error stop m' :=
  EStateM.bind_of_error h (access (apply n))

/-- A class declaration goes on with its superclass when that is found and is a class. -/
theorem classHeader_superclass {x : Identifier} {r : Reference} {traits : List Reference}
    {found : Option ClassId × List TraitId} {m' : Machine}
    (h : classHeader x (some r) traits m = .ok found m') :
    ∃ k, found.1 = some k ∧
      ({ m with heap := m.heap.define m.frame x.name .nil }).lookup r.id r.name.name =
        .ok (.klass k) := by
  obtain ⟨_, m₁, hdefine, h⟩ := EStateM.bind_eq_ok.1 h
  cases hdefine
  obtain ⟨superclass, m₂, hsuper, h⟩ := EStateM.bind_eq_ok.1 h
  obtain ⟨ts, m₃, -, h⟩ := EStateM.bind_eq_ok.1 h
  cases h
  obtain ⟨k, hk, rfl⟩ := EStateM.map_eq_ok.1 hsuper
  refine ⟨k, rfl, ?_⟩
  obtain ⟨v, m₄, hlookup, hv⟩ := EStateM.bind_eq_ok.1 hk
  cases v with
  | klass c =>
    cases hv
    unfold lookup at hlookup
    rw [EStateM.get_bind_apply] at hlookup
    cases hfound : Machine.lookup { m with heap := m.heap.define m.frame x.name .nil } r.id
        r.name.name with
    | ok w =>
      rw [hfound] at hlookup
      cases hlookup
      rfl
    | error e =>
      rw [hfound] at hlookup
      cases hlookup
  | _ => cases hv

/-- A class declaration that has found its superclass makes a frame for `super`, and leaves it. -/
theorem since_classFrame {x : Identifier} {r : Reference} {traits : List Reference} {k : ClassId}
    {ts : List TraitId} {m' : Machine} (hne : x.name ≠ Name.super)
    (h : classHeader x (some r) traits m = .ok (some k, ts) m') (n : Nat) (span : Span)
    (methods statics : List Function) :
    Since Name.super
      { m' with heap := (m'.heap.newFrame m'.frame (.ofPairs [(Name.super, .klass k)])).2 }
      (stmt (n + 1) ⟨span, .classDecl x (some r) traits methods statics⟩) m := by
  have heq : stmt (n + 1) ⟨span, .classDecl x (some r) traits methods statics⟩ =
    declareClass x (some r) traits methods statics >>= fun _ => pure Signal.next := rfl
  rw [heq, declareClass_eq]
  have hframe : classFrame (some k) m' = .ok ⟨m'.heap.frames.size⟩ { m' with
    heap := (m'.heap.newFrame m'.frame (.ofPairs [(Name.super, .klass k)])).2 } := rfl
  exact .bind (.behind h (.behind hframe (.classMembers hne _ _ _ _ _))) fun _ _ _ => .pure _

end Eval

namespace Run

open Lexical

variable {log : Log} {stack : List Config} {c : Config} {g outer : FrameId}

/-! ## What is in the frames -/

/-- A run of the class declaration `s` found the superclass that `r` names to be `k`, and then made
the frame `g` for the members. -/
def Log.Declared (log : Log) (s : Stmt) (r : Reference) (k : ClassId) (g : FrameId) : Prop :=
  ∃ stack d use members outer, log.Visited stack d ∧ d.task = .stmt s ∧
    Calls d use ∧ use.task = .use r.id r.name.name true ∧
    use.machine.lookup r.id r.name.name = .ok (.klass k) ∧
    Calls d members ∧ members.Makes (.stmt s) g outer

theorem Config.Makes.task_of_receiver {f : Function} (h : c.Makes (.receiver f) g outer) :
    ∃ f' v, c.task = .bind f' v ∧ f'.function = f := by
  obtain ⟨hopening, -⟩ := h
  unfold Config.opening? at hopening
  split at hopening <;> cases hopening
  next f' v htask => exact ⟨f', v, htask, rfl⟩

theorem Config.Makes.task_of_call {f : Function} (h : c.Makes (.call f) g outer) :
    ∃ n f' args, c.fuel = n + 1 ∧ c.task = .apply f' args := by
  obtain ⟨hopening, -⟩ := h
  unfold Config.opening? at hopening
  split at hopening <;> cases hopening
  next f' args n htask hfuel => exact ⟨n, f', args, hfuel, htask⟩

theorem Config.Makes.task_of_class {span : Span} {x : Identifier} {r : Option Reference}
    {traits : List Reference} {methods statics : List Function}
    (h : c.Makes (.stmt ⟨span, .classDecl x r traits methods statics⟩) g outer) :
    c.task = .members ⟨span, .classDecl x r traits methods statics⟩ := by
  obtain ⟨hopening, -⟩ := h
  unfold Config.opening? at hopening
  split at hopening <;> cases hopening
  next htask => exact htask

theorem getIn?_bind (h : Heap) (f : Closure) (receiver : Value) :
    (h.bind f receiver).2.getIn? ⟨h.frames.size⟩ Name.this = some receiver := by
  show (h.newFrame f.frame (.ofPairs [(Name.this, receiver)])).2.getIn? _ _ = _
  rw [Heap.getIn?_newFrame, if_pos rfl]
  rfl

theorem receiver?_eq_object {m : Machine} {hops : Nat} {v : Value}
    (h : Eval.receiver? m hops = some v) : ∃ i, v = .object i := by
  unfold Eval.receiver? at h
  split at h
  · cases h
  · split at h
    · cases h
      exact ⟨_, rfl⟩
    · cases h

/-- Around an instance member, `this` is the instance that the member was bound to. -/
theorem Reached.this_of_receiver (h : Reached log) (hv : log.Visited stack c) {f : Function}
    (hm : c.Makes (.receiver f) g outer) :
    ∃ f' i, c.task = .bind f' (.object i) ∧ f'.function = f ∧
      log.session.machine.heap.getIn? g Name.this = some (.object i) := by
  -- behind the binding the frame is there, in the task that goes on with the bound method
  have hend {stack' : List Config} {d : Config} {m : Machine} {f : Closure} {i : InstanceId}
      (hd : log.Visited stack' d) (hheap : d.machine.heap = (m.heap.bind f (.object i)).2) :
      log.session.machine.heap.getIn? ⟨m.heap.frames.size⟩ Name.this = some (.object i) := by
    have hbound := getIn?_bind m.heap f (.object i)
    rw [← hheap] at hbound
    rw [h.getIn?_eq Name.not_plain_this hd ?_, hbound]
    rw [hheap]
    simp [Heap.bind, Heap.newClosure, Heap.newFrame]
  obtain ⟨parent, stack', hparent, hcall⟩ :=
    h.exists_parent hv (Option.isSome_of_eq_some hm.1)
  obtain ⟨f', v, htask, hfunction⟩ := hm.task_of_receiver
  obtain ⟨-, rfl⟩ := hm
  obtain ⟨n, task, m⟩ := c
  subst htask
  cases hcall with
  | bindMember hf =>
    have hbehind := hparent.call (.access (Eval.property_of_method hf))
    exact ⟨f', _, rfl, hfunction, hend hbehind rfl⟩
  | bindSuper hd hk hr hf =>
    obtain ⟨i, rfl⟩ := receiver?_eq_object hr
    have hbehind := hparent.call (.accessSuper (Eval.superProperty_of_method hd hk hr hf _))
    exact ⟨f', i, rfl, hfunction, hend hbehind rfl⟩
  | bindInit hm₁ hf ha =>
    exact ⟨f', _, rfl, hfunction, hend (hparent.call (.applyInit hm₁ hf ha rfl)) rfl⟩

/-- The frame of a call has no `this` of its own. -/
theorem Reached.this_of_call (h : Reached log) (hv : log.Visited stack c) {f : Function}
    (hm : c.Makes (.call f) g outer) :
    log.session.machine.heap.getIn? g Name.this = none := by
  obtain ⟨n, f', args, hfuel, htask⟩ := hm.task_of_call
  obtain ⟨-, rfl⟩ := hm
  obtain ⟨_, _, m⟩ := c
  subst hfuel htask
  obtain ⟨W, -, ⟨-, -, hf, ha, -⟩, -⟩ := h.visited hv
  have hnone : (Eval.arguments f' args).find? Name.this = none := by
    rw [← Option.not_isSome_iff_eq_none, World.isSome_find?_arguments ha]
    intro hthis
    obtain ⟨p, hp, hname⟩ := List.mem_map.1 hthis
    exact Name.not_plain_this (hname ▸ (Function.wellFormed_iff.1 hf.wellFormed).1 p hp)
  have hbody := hv.call .body
  rw [h.getIn?_eq Name.not_plain_this hbody]
  · show (m.heap.newFrame _ _).2.getIn? _ _ = none
    rw [Heap.getIn?_newFrame, Config.nextFrame, if_pos rfl, hnone]
  · simp [Config.nextFrame, Machine.enter, Heap.newFrame]

/-- Around the members of a class with a superclass, `super` is the superclass that its declaration
found. -/
theorem Reached.super_of_class (h : Reached log) (hv : log.Visited stack c) {span : Span}
    {x : Identifier} {r : Reference} {traits : List Reference} {methods statics : List Function}
    (hm : c.Makes (.stmt ⟨span, .classDecl x (some r) traits methods statics⟩) g outer) :
    ∃ k, log.Declared ⟨span, .classDecl x (some r) traits methods statics⟩ r k g ∧
      log.session.machine.heap.getIn? g Name.super = some (.klass k) := by
  obtain ⟨parent, stack', hparent, hcall⟩ :=
    h.exists_parent hv (Option.isSome_of_eq_some hm.1)
  have htask := hm.task_of_class
  have hframe := hm.2
  obtain ⟨n, task, m'⟩ := c
  subst htask hframe
  cases hcall with
  | @members _ _ _ _ _ _ _ found m _ hheader =>
    obtain ⟨k, hk, hlookup⟩ := Eval.classHeader_superclass hheader
    refine ⟨k, ⟨stack', _, _, _, outer, hparent, rfl, .classReference List.mem_cons_self, rfl,
      hlookup, .members hheader, hm⟩, ?_⟩
    obtain ⟨found, ts⟩ := found
    cases hk
    have hne : x.name ≠ Name.super := fun heq =>
      h.not_mem_writes Name.not_plain_super hparent (List.mem_singleton.2 heq.symm)
    have hlast := h.fixed Name.not_plain_super hparent
    rw [Config.last, Config.eval, Eval.machineOf_discard] at hlast
    have hsince := (Eval.since_classFrame hne hheader n span methods statics).trans hlast
    refine (hsince.same ⟨m'.heap.frames.size⟩ ?_).trans ?_
    · simp [Heap.newFrame]
    · rw [Heap.getIn?_newFrame, if_pos rfl]
      rfl

/-! ## Runs -/

/-- What a name that no program can write is in the frame of an open scope, it is since the frame
was made. -/
theorem Reached.exists_maker (h : Reached log) (hv : log.Visited stack c) {os : List Opening}
    (hc : (log.during stack).Chain c.machine.heap os c.machine.frame) {i : Nat} {o : Opening}
    (ho : os[i]? = some o) :
    ∃ g outer stack' d, c.machine.heap.ancestor? i c.machine.frame = some g ∧
      log.Visited stack' d ∧ d.Makes o.site g outer ∧ ∀ name, ¬Name.Plain name →
        c.machine.heap.getAt? i c.machine.frame name =
          log.session.machine.heap.getIn? g name := by
  obtain ⟨g, outer, hg, ha, hrest⟩ := hc.ancestor? ho
  obtain ⟨d, ⟨stack', hd⟩, hmakes, -⟩ := ha.made
  have hchain : (log.during stack).Chain c.machine.heap (o :: os.drop (i + 1)) g :=
    ⟨outer, ha, hrest⟩
  refine ⟨g, outer, stack', d, hg, hd, hmakes, fun name hn => ?_⟩
  rw [Heap.getAt?, hg, h.getIn?_eq hn hv (hchain.index_lt (List.cons_ne_nil _ _))]

/-- What is to be known of the frames around a use of `super`. -/
structure Log.Around (log : Log) (m : Machine) (s : Stmt) (r : Reference)
    (kind : Resolution.FunctionContext) (π : Lexical.Place) (hops : Nat) (k : ClassId) (g : FrameId) :
    Prop where
  distance : π.distance? Name.super = some hops
  frame : m.heap.ancestor? hops m.frame = some g
  declared : log.Declared s r k g
  super : m.heap.getAt? hops m.frame Name.super = some (.klass k)
  method : kind ≠ .staticMethod → ∃ i this, π.distance? Name.this = some this ∧
    m.heap.getAt? this m.frame Name.this = some (.object i) ∧
    Eval.receiver? m hops = some (.object i)
  static : kind = .staticMethod → Eval.receiver? m hops = none

theorem Reached.around (h : Reached log) (hv : log.Visited stack c) {π : Lexical.Place}
    (hc : (log.during stack).Chain c.machine.heap π.openings c.machine.frame) {span : Span}
    {x : Identifier} {r : Reference} {traits : List Reference} {methods statics : List Function}
    {kind : Resolution.FunctionContext} {f : Function} {i : Nat}
    (hs : InMember.Scopes ⟨span, .classDecl x (some r) traits methods statics⟩ kind f π i) :
    ∃ hops k g, log.Around c.machine ⟨span, .classDecl x (some r) traits methods statics⟩ r kind π
      hops k g := by
  by_cases hkind : kind = .staticMethod
  · obtain ⟨hdistance, hopening⟩ := hs.static hkind
    obtain ⟨o, ho, hsite⟩ := hs.call
    obtain ⟨g, outer, stack', d, hg, hd, hmakes, hget⟩ := h.exists_maker hv hc hopening
    obtain ⟨k, hdeclared, hk⟩ := h.super_of_class hd hmakes
    obtain ⟨g', _, _, d', -, hd', hmakes', hget'⟩ := h.exists_maker hv hc ho
    rw [hsite] at hmakes'
    have hthis := (hget' _ Name.not_plain_this).trans (h.this_of_call hd' hmakes')
    refine ⟨i + 1, k, g, hdistance, hg, hdeclared, (hget _ Name.not_plain_super).trans hk,
      fun hm => absurd hkind hm, fun _ => ?_⟩
    rw [Eval.receiver?, hthis]
  · obtain ⟨hthis, hdistance, hreceiver, hopening⟩ := hs.method hkind
    obtain ⟨g, outer, stack', d, hg, hd, hmakes, hget⟩ := h.exists_maker hv hc hopening
    obtain ⟨k, hdeclared, hk⟩ := h.super_of_class hd hmakes
    obtain ⟨g', _, _, d', -, hd', hmakes', hget'⟩ := h.exists_maker hv hc hreceiver
    obtain ⟨-, j, -, -, hj⟩ := h.this_of_receiver hd' hmakes'
    have hobject := (hget' _ Name.not_plain_this).trans hj
    refine ⟨i + 2, k, g, hdistance, hg, hdeclared, (hget _ Name.not_plain_super).trans hk,
      fun _ => ⟨j, i + 1, hthis, hobject, ?_⟩, fun hm => absurd hm hkind⟩
    rw [Eval.receiver?, hobject]

/-- Wherever a run of accepted programs comes to `super.name`, it is in a member `f` of a class with
a superclass, and in no class or trait nested in that.  The frame of `super` is the one that was
made when the class was declared, and the search starts at the superclass `k` that its declaration
found.  In an instance member a method of `k` is bound to the instance that `this` denotes there; if
there is none, and always in a static member, the static members of `k` are asked, and that `k` has
none of the name is the only error.  Getters are run. -/
theorem Reached.super_finds {n : Nat} {id : ExprId} {span : Span} {name : Identifier} {m : Machine}
    (h : Reached log) (hv : log.Visited stack ⟨n + 1, .expr ⟨id, span, .super name⟩, m⟩) :
    ∃ p ∈ log.programs, ∃ span' x r traits methods statics π₀ kind f hops k g,
      ∃ π : Lexical.Place,
      InMember p.body ⟨span', .classDecl x (some r) traits methods statics⟩ π₀ kind f π
        (.expr ⟨id, span, .super name⟩) ∧
      π.distance? Name.super = some hops ∧ m.distances[id]? = some hops ∧
      m.heap.ancestor? hops m.frame = some g ∧
      log.Declared ⟨span', .classDecl x (some r) traits methods statics⟩ r k g ∧
      (kind ≠ .staticMethod → ∃ i this, π.distance? Name.this = some this ∧
        (∀ id', m.distances[id']? = some this → m.lookup id' Name.this = .ok (.object i)) ∧
        ∀ found, m.heap.method? k name.name = some found →
          Eval.expr (n + 1) ⟨id, span, .super name⟩ m =
            Eval.access (Eval.apply n) (.function (m.heap.bind found (.object i)).1)
              { m with heap := (m.heap.bind found (.object i)).2 }) ∧
      (kind = .staticMethod ∨ m.heap.method? k name.name = none →
        (∀ v, m.heap.static? k name.name = some v →
          Eval.expr (n + 1) ⟨id, span, .super name⟩ m = Eval.access (Eval.apply n) v m) ∧
        (m.heap.static? k name.name = none →
          Eval.expr (n + 1) ⟨id, span, .super name⟩ m =
            .error (.error ⟨name.span, .undefinedProperty name.name⟩) m)) ∧
      ∀ stop m', Eval.superProperty id name span m = .error stop m' →
        stop = .error ⟨name.span, .undefinedProperty name.name⟩ := by
  obtain ⟨W, hle, ⟨π, hc, hp⟩, -⟩ := h.visited hv
  have hknows := hc.sound.knows (hp.inside .super)
  obtain ⟨body, hb, ho⟩ := (hle.later m.heap).part hp
  obtain ⟨⟨p, hpm, rfl⟩, hwf, r, hr⟩ := hb
  have hchain := (hle.later m.heap).chain hc.chain
  obtain ⟨span', x, r, traits, methods, statics, π₀, kind, f, i, hin, hscopes⟩ :=
    ho.super_scopes hwf hr
  obtain ⟨hops, k, g, ha⟩ := h.around hv hchain hscopes
  have hd : m.distances[id]? = some hops := hknows.trans ha.distance
  have hstatic (hnone : kind = .staticMethod ∨ m.heap.method? k name.name = none) :=
    Eval.superProperty_of_static hd ha.super (hnone.imp_left ha.static) span
  refine ⟨p, hpm, span', x, r, traits, methods, statics, π₀, kind, f, hops, k, g, π, hin,
    ha.distance, hd, ha.frame, ha.declared, fun hkind => ?_, fun hnone => ?_,
    fun stop m' hstop => ?_⟩
  · obtain ⟨i, this, hthis, hobject, hreceiver⟩ := ha.method hkind
    refine ⟨i, this, hthis, fun id' hid' => ?_, fun f hf => ?_⟩
    · simp only [Machine.lookup, hid', hobject]
    · exact Eval.expr_super (Eval.superProperty_of_method hd ha.super hreceiver hf span)
  · obtain ⟨hfound, hmissing⟩ := hstatic hnone
    exact ⟨fun v hv => Eval.expr_super (hfound v hv),
      fun hv => Eval.expr_super_of_error (hmissing hv)⟩
  · by_cases hnone : kind = .staticMethod ∨ m.heap.method? k name.name = none
    · obtain ⟨hfound, hmissing⟩ := hstatic hnone
      cases hs : m.heap.static? k name.name with
      | some v =>
        rw [hfound v hs] at hstop
        cases hstop
      | none =>
        rw [hmissing hs] at hstop
        cases hstop
        rfl
    · obtain ⟨hkind, hmethod⟩ := not_or.1 hnone
      obtain ⟨i, -, -, -, hreceiver⟩ := ha.method hkind
      obtain ⟨f, hf⟩ := Option.ne_none_iff_exists'.1 hmethod
      rw [Eval.superProperty_of_method hd ha.super hreceiver hf span] at hstop
      cases hstop

/-- The initializer in `class A{}class B<A{init(){super.f;}}`. -/
def superInitializer : Function :=
  ⟨⟨"init", .onLine 19 23⟩, [],
    [⟨.onLine 26 34, .expression ⟨1, .onLine 26 33, .super ⟨"f", .onLine 32 33⟩⟩⟩], false,
    .onLine 19 35⟩

/-- `class A{}class B<A{init(){super.f;}}` -/
def superProgram : List Stmt := [
  ⟨.onLine 0 9, .classDecl ⟨"A", .onLine 6 7⟩ none [] [] []⟩,
  ⟨.onLine 9 36, .classDecl ⟨"B", .onLine 15 16⟩ (some ⟨0, ⟨"A", .onLine 17 18⟩⟩) []
    [superInitializer] []⟩]

/-- A use of `super` in an initializer that the host comes to by a call of the class. -/
theorem super_finds_initializer : ∃ log stack n id span name m s r hops k g, Reached log ∧
    log.Visited stack ⟨n + 1, .expr ⟨id, span, .super name⟩, m⟩ ∧
    m.heap.ancestor? hops m.frame = some g ∧ log.Declared s r k g := by
  have hparse : Tree.parse "class A{}class B<A{init(){super.f;}}" 0 = .ok ⟨superProgram, 2⟩ := by
    cbv
  have hresolve : Resolution.ofProgram superProgram = .ok ⟨[(1, 2)], []⟩ := by cbv
  let m₀ : Machine := (Machine.start none (fun _ => 0)).learn [(1, 2)]
  have hinit : ((machineOf (Eval.program 2 superProgram m₀)).heap.newInstance ⟨1⟩).2.method? ⟨1⟩
      Name.init = some ⟨0, superInitializer, ⟨1⟩, .initializer⟩ := by cbv
  have hprepared := (Reached.start none (fun _ => 0)).step
    (.prepared (Session.prepare_of_parse hparse hresolve))
  obtain ⟨log₁, hexecuted, hsession⟩ := hprepared.execute List.mem_cons_self 2
  obtain ⟨log, hreached, hcall⟩ := hexecuted.call (f := .klass ⟨1⟩) (.inr fun _ => Value.noConfusion)
    (fun _ h => absurd h List.not_mem_nil) .nowhere 4
  have hmachine : log₁.session.machine = machineOf (Eval.program 2 superProgram m₀) := by
    rw [hsession]
    exact Session.machine_evaluate _ _
  rw [hmachine] at hcall
  have hbody := (hcall.call (.applyInit rfl hinit rfl rfl)).call .body
  have huse := (hbody.call .stmtsFirst).call .expression
  obtain ⟨p, -, span, x, r, traits, methods, statics, π₀, kind, f, hops, k, g, π, -, -, -, hframe,
    hdeclared, -⟩ := hreached.super_finds huse
  exact ⟨log, _, _, _, _, _, _, _, r, hops, k, g, hreached, huse, hframe, hdeclared⟩

end Run

end Lox

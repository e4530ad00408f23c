import Lox.Proofs.Run.Log

/-!
# What names find

Which scope a name means is settled before a program runs, and while it runs the name finds the
frame of that scope: the one that was made when the scope was opened around the code that is being
run, whatever has been declared since then in frames nearer by.  A name that was not recorded is
declared by none of the scopes around it and is looked up among the globals.

    m.distances[id]? = π.distance? name                                        (Reached.use_finds)

So a name that was recorded is missing only while its variable is being initialized, or after its
initializer has failed, and `this` and `super` are never missing.
-/

namespace Lox.Run

open Lexical

/-! ## Names that programs cannot declare -/

theorem isSome_distance?_this {body : List Stmt} {r : Resolution} {π : Lexical.Place} {id : ExprId}
    {reads : Bool} (h : Occurs body π (.use id Name.this reads)) (hb : Stmt.AllWellFormed body)
    (hr : Resolution.ofProgram body = .ok r) : (π.distance? Name.this).isSome := by
  generalize hname : Name.this = name at h ⊢
  cases h with
  | inside ho hi =>
    have hwf := ho.wellFormed hb
    cases hi with
    | «variable» => exact absurd (hname ▸ hwf) Name.not_plain_this
    | assign => exact absurd (hname ▸ hwf.1) Name.not_plain_this
    | this => exact hname ▸ ho.isSome_distance?_this hb hr
    | super => exact absurd hname (by decide)
    | superclass => exact absurd (hname ▸ hwf.2.1 _ rfl) Name.not_plain_this
    | trait ht => exact absurd (hname ▸ hwf.2.2.1 _ ht) Name.not_plain_this

theorem isSome_distance?_super {body : List Stmt} {r : Resolution} {π : Lexical.Place} {id : ExprId}
    {reads : Bool} (h : Occurs body π (.use id Name.super reads)) (hb : Stmt.AllWellFormed body)
    (hr : Resolution.ofProgram body = .ok r) : (π.distance? Name.super).isSome := by
  generalize hname : Name.super = name at h ⊢
  cases h with
  | inside ho hi =>
    have hwf := ho.wellFormed hb
    cases hi with
    | «variable» => exact absurd (hname ▸ hwf) Name.not_plain_super
    | assign => exact absurd (hname ▸ hwf.1) Name.not_plain_super
    | this => exact absurd hname (by decide)
    | super => exact hname ▸ ho.isSome_distance?_super hb hr
    | superclass => exact absurd (hname ▸ hwf.2.1 _ rfl) Name.not_plain_super
    | trait ht => exact absurd (hname ▸ hwf.2.2.1 _ ht) Name.not_plain_super

/-! ## Names that are recorded -/

/-- What a name finds that was recorded: the frame `g` that is of an activation of the scope `o`,
the innermost scope that has declared the name.  The name is read and written there and nowhere
else. -/
structure World.Finds (W : World) (m : Machine) (π : Lexical.Place) (name : String) (hops : Nat)
    (o : Opening) (g outer : FrameId) : Prop where
  opening : π.openings[hops]? = some o
  declared : name ∈ o.names
  nearest : ∀ i o', i < hops → π.openings[i]? = some o' → name ∉ o'.names
  ancestor : m.heap.ancestor? hops m.frame = some g
  activation : W.Activation m.heap o g outer
  reads : m.heap.getAt? hops m.frame name = m.heap.getIn? g name
  writes : ∀ v, (m.heap.assignAt hops m.frame name v).1 = (m.heap.getIn? g name).isSome

variable {W : World} {m : Machine} {π : Lexical.Place} {name : String} {hops : Nat}

theorem World.Chain.finds (hc : W.Chain m.heap π.openings m.frame)
    (hd : π.distance? name = some hops) : ∃ o g outer, W.Finds m π name hops o g outer := by
  obtain ⟨hlt, hname, hnearest⟩ := List.findIdx?_eq_some_iff_getElem.1 hd
  have ho : π.openings[hops]? = some π.openings[hops] := List.getElem?_eq_getElem hlt
  obtain ⟨g, outer, hg, ha, -⟩ := hc.ancestor? ho
  refine ⟨_, g, outer, ho, by simpa using hname, fun i o' hi ho' => ?_, hg, ha, ?_, fun v => ?_⟩
  · obtain ⟨hi', rfl⟩ := List.getElem?_eq_some_iff.1 ho'
    simpa using hnearest i hi
  · rw [Heap.getAt?, hg]
  · rw [Heap.assignAt, Heap.ownerAt?, hg]
    cases hv : (m.heap.getIn? g name).isSome <;> simp [hv]

/-- A name that is not there is that of a variable being initialized. -/
theorem World.Finds.pending {o : Opening} {g outer : FrameId}
    (hf : W.Finds m π name hops o g outer) (hn : m.heap.getIn? g name = none) :
    o.pending = some name ∧ W.Begun m.heap name g := by
  rcases List.mem_append.1 hf.declared with hready | hpending
  · have hsome := hf.activation.ready name hready
    rw [hn] at hsome
    cases hsome
  · have hpending := Option.mem_toList.1 hpending
    exact ⟨hpending, hf.activation.pending name hpending⟩

/-- A name that no program can declare is there. -/
theorem World.Finds.isSome {o : Opening} {g outer : FrameId}
    (hf : W.Finds m π name hops o g outer) (hr : π.Regular) (hn : ¬Name.Plain name) :
    (m.heap.getIn? g name).isSome := by
  cases hv : m.heap.getIn? g name with
  | some v => rfl
  | none =>
    have ho := List.mem_of_getElem? hf.opening
    exact absurd (hr.pending o ho name (hf.pending hv).1) hn

theorem World.Finds.lookup {o : Opening} {g outer : FrameId} (hf : W.Finds m π name hops o g outer)
    {id : ExprId} (hd : m.distances[id]? = some hops) {v : Value}
    (hv : m.heap.getIn? g name = some v) : m.lookup id name = .ok v := by
  simp only [Machine.lookup, hd, hf.reads, hv]

/-! ## Names that are not -/

theorem lookup_global {id : ExprId} (hd : m.distances[id]? = none) {v : Value} :
    m.lookup id name = .ok v ↔ m.heap.getIn? Heap.globals name = some v := by
  simp only [Machine.lookup, hd, Heap.get?_globals]
  cases m.heap.getIn? Heap.globals name <;> simp

theorem assign_global (h : Heap) (v : Value) :
    (h.assign Heap.globals name v).1 = (h.getIn? Heap.globals name).isSome := by
  rw [Heap.assign_globals]
  cases (h.getIn? Heap.globals name).isSome <;> rfl

/-! ## Runs -/

/-- Wherever a run of accepted programs comes to a use of a name, the current frame is that of the
innermost call, block or `for`, the frames from it outward are those of the scopes around the use,
and the distance that the machine knows is that of the scope that has declared the name, whose frame
it leads to.  There the name can be missing only while its declaration is under way or after that
has failed.  A name without a distance is declared by no scope and looked up among the globals, and
`this` and `super` are always there. -/
theorem Reached.use_finds {log : Log} {stack : List Config} {n : Nat} {id : ExprId} {reads : Bool}
    (h : Reached log) (hv : log.Visited stack ⟨n, .use id name reads, m⟩) :
    m.frame = Config.frameOf stack ∧ ∃ p ∈ log.programs, ∃ r, ∃ π : Lexical.Place,
      Resolution.ofProgram p.body = .ok r ∧ Occurs p.body π (.use id name reads) ∧
      (log.during stack).Chain m.heap π.openings m.frame ∧
      (∀ hops, (id, hops) ∈ r.distances ↔ m.distances[id]? = some hops) ∧
      m.distances[id]? = π.distance? name ∧
      (∀ hops, m.distances[id]? = some hops → ∃ o g outer,
        (log.during stack).Finds m π name hops o g outer ∧
        (m.heap.getIn? g name = none → o.pending = some name ∧
          ∃ d, d.Begins name g ∧ d.machine.heap.Extends m.heap ∧
            (d ∈ stack ∨ (∃ s, log.Visited s d) ∧ d.Fails))) ∧
      (m.distances[id]? = none → (∀ o ∈ π.openings, name ∉ o.names) ∧
        (∀ v, m.lookup id name = .ok v ↔ m.heap.getIn? Heap.globals name = some v) ∧
        ∀ v, (m.heap.assign Heap.globals name v).1 = (m.heap.getIn? Heap.globals name).isSome) ∧
      (name = Name.this → ∃ v, m.lookup id name = .ok v) ∧
      (name = Name.super → ∃ c, m.lookup id name = .ok (.klass c)) := by
  obtain ⟨W, hle, ⟨π, hc, hp⟩, hframe⟩ := h.visited hv
  have hknows := hc.sound.knows hp
  obtain ⟨body, hb, ho⟩ := (hle.later m.heap).part hp
  obtain ⟨⟨p, hpm, rfl⟩, hwf, r, hr⟩ := hb
  have hchain := (hle.later m.heap).chain hc.chain
  have hthere : ∀ {hops}, ¬Name.Plain name → π.distance? name = some hops →
      ∃ g v, m.heap.getIn? g name = some v ∧ m.lookup id name = .ok v := by
    intro hops hn hd
    obtain ⟨o, g, outer, hf⟩ := World.Chain.finds hchain hd
    obtain ⟨v, hv⟩ := Option.isSome_iff_exists.1 (hf.isSome (ho.regular hwf) hn)
    exact ⟨g, v, hv, hf.lookup (hknows.trans hd) hv⟩
  have hrecorded : ∀ hops, (id, hops) ∈ r.distances ↔ m.distances[id]? = some hops := by
    intro hops
    rw [ho.mem_distances_iff hwf (h.sound.distinct p hpm) hr, hknows]
  refine ⟨hframe, p, hpm, r, π, hr, ho, hchain, hrecorded, hknows, fun hops hd => ?_, fun hd => ?_, ?_, ?_⟩
  · rw [hknows] at hd
    obtain ⟨o, g, outer, hf⟩ := World.Chain.finds hchain hd
    refine ⟨o, g, outer, hf, fun hn => ?_⟩
    obtain ⟨hpending, d, hd, hbegins, hbefore, hend⟩ := hf.pending hn
    refine ⟨hpending, d, hbegins, hbefore, ?_⟩
    rcases hend with hrunning | hfails | hsome
    · exact .inl hrunning
    · exact .inr ⟨hd, hfails⟩
    · rw [hn] at hsome
      cases hsome
  · refine ⟨?_, fun v => lookup_global hd, assign_global m.heap⟩
    rwa [hknows, Lexical.Place.distance?_eq_none_iff] at hd
  · rintro rfl
    obtain ⟨hops, hd⟩ := Option.isSome_iff_exists.1 (isSome_distance?_this ho hwf hr)
    obtain ⟨g, v, -, hlookup⟩ := hthere Name.not_plain_this hd
    exact ⟨v, hlookup⟩
  · rintro rfl
    obtain ⟨hops, hd⟩ := Option.isSome_iff_exists.1 (isSome_distance?_super ho hwf hr)
    obtain ⟨g, v, hv, hlookup⟩ := hthere Name.not_plain_super hd
    obtain ⟨c, rfl⟩ := hc.sound.heap.supers g v hv
    exact ⟨c, hlookup⟩

/-- The use of a variable in the block that declares it. -/
theorem use_finds_block : ∃ log stack m π o g outer, Reached log ∧
    log.Visited stack ⟨0, .use 0 "x" true, m⟩ ∧ m.frame = Config.frameOf stack ∧
    (log.during stack).Finds m π "x" 0 o g outer := by
  let declaration : Stmt := ⟨.onLine 2 8, .varDecl ⟨"x", .onLine 6 7⟩ none⟩
  let use : Stmt := ⟨.onLine 9 11, .expression ⟨0, .onLine 9 10, .variable ⟨"x", .onLine 9 10⟩⟩⟩
  let body : List Stmt := [⟨.onLine 0 13, .block [declaration, use]⟩]
  let m₀ : Machine := (Machine.start none (fun _ => 0)).learn [(0, 0)]
  let m₁ : Machine := m₀.enter Heap.globals ∅
  have hparse : Tree.parse "{ var x; x; }" 0 = .ok ⟨body, 1⟩ := by cbv
  have hresolve : Resolution.ofProgram body = .ok ⟨[(0, 0)], []⟩ := by cbv
  obtain ⟨log, hreached, hprograms, hrun⟩ :=
    (Reached.start none (fun _ => 0)).executes hparse hresolve 3
  have hstart : log.Visited [] ⟨3, .program body, m₀⟩ := ⟨_, hrun, .start⟩
  have hdeclared : Eval.stmt 2 declaration m₁ =
      .ok .next { m₁ with heap := m₁.heap.define m₁.frame "x" .nil } := rfl
  have hstmts := (hstart.call .programFirst).call .block
  have hexpr := ((hstmts.call (.stmtsRest hdeclared)).call .stmtsFirst).call .expression
  have hvisited := (hexpr.call (.act rfl rfl)).call .variable
  obtain ⟨hframe, p, hp, r, π, hr, -, -, hrecorded, -, hfinds, -⟩ := hreached.use_finds hvisited
  obtain rfl := List.mem_singleton.1 (hprograms ▸ hp)
  cases hresolve.symm.trans hr
  obtain ⟨o, g, outer, hfound, -⟩ := hfinds 0 ((hrecorded 0).1 List.mem_cons_self)
  exact ⟨log, _, _, π, o, g, outer, hreached, hvisited, hframe, hfound⟩

end Lox.Run

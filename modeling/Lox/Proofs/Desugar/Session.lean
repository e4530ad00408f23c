import Lox.Proofs.Desugar.Run
import Lox.Proofs.Run.Log

/-!
# A `for` means its `while`

A program that a session has read, and the one in which any of its `for` statements are replaced by
blocks of `while` loops, are accepted together and with the same warnings.  Executed in whatever
state the session is they end alike, normally or in one error, and print the same: what was there
before is the same for both, so at its start each run finds in the session what the other finds:

    W.Sound m → (m.learn ds).Desugared K (tiesOf m.heap) Heap.globals Heap.globals (m.learn ds')
                                                                              (desugared_start)

Neither outlasts the other.  With four times the fuel the desugared program gets as far as the
original does, and the original as far as the desugared one with the same: what the one has printed
the other has printed, be it that both go on for ever, and where the one has ended so has the other.
-/

namespace Lox

open Lexical Run

/-! ## Uses -/

namespace Desugaring

variable {D : Desugaring} {Γ : List Bool} {body : List Stmt} {id : ExprId} {name : String}
  {reads : Bool}

/-- Nothing is used that was not used before. -/
theorem Matches.exists_use {ps ps' : List (Lexical.Place × Node)} (h : Matches D Γ ps ps')
    {p' : Lexical.Place × Node} (hp : p' ∈ ps') (hu : p'.2 = .use id name reads) :
    ∃ p ∈ ps, p.2 = .use id name reads := by
  induction h with
  | nil => cases hp
  | @mate q q' _ _ hq _ ih =>
    rcases List.mem_cons.1 hp with rfl | hp
    · refine ⟨q, List.mem_cons_self, ?_⟩
      have heq : D.node q.2 = .use id name reads := hq.1.symm.trans hu
      cases hn : q.2 with
      | use => rwa [hn] at heq
      | _ => rw [hn] at heq; cases heq
    · obtain ⟨p, hmem, hp⟩ := ih hp
      exact ⟨p, List.mem_cons_of_mem _ hmem, hp⟩
  | idle hq _ ih =>
    rcases List.mem_cons.1 hp with rfl | hp
    · have hidle := hq.isUse
      rw [hu] at hidle
      cases hidle
    · exact ih hp
  | perm _ hps hps' ih =>
    obtain ⟨p, hmem, hp⟩ := ih (hps'.mem_iff.2 hp)
    exact ⟨p, hps.mem_iff.1 hmem, hp⟩

theorem exists_use_of_stmts (hb : Stmt.AllWellFormed body) {π' : Lexical.Place}
    (h : Occurs (D.stmts body) π' (.use id name reads)) :
    ∃ π, Occurs body π (.use id name reads) := by
  have hmatches := (beside_program D hb).matches_parts
  have hmem := mem_parts (p := (π', Node.use id name reads)).2 (occurs_iff.1 h)
  obtain ⟨⟨π, n⟩, hp, rfl⟩ := hmatches.exists_use hmem rfl
  exact ⟨π, occurs_iff.2 (mem_parts.1 hp)⟩

end Desugaring

/-! ## What machines know -/

/-- What two machines know that have been told of different programs. -/
def Known.ofMachines (m m' : Machine) : Known :=
  ⟨fun id => m.distances[id]?, fun id => m'.distances[id]?⟩

namespace Desugaring

variable {D : Desugaring} {body : List Stmt} {lo hi : ExprId} {r r' : Resolution} {m : Machine}

/-- The expressions of the desugared program are new. -/
theorem le_of_mem_idsOf_stmts (hf : Fresh lo hi (Stmt.idsOf body)) {id : ExprId} (hlo : lo ≤ D.id)
    (h : id ∈ Stmt.idsOf (D.stmts body)) : lo ≤ id := by
  by_cases hid : id = D.id
  · rw [hid]
    exact hlo
  · have hcount := count_stmts hid body
    have hpos := List.count_pos_iff.2 h
    rw [hcount] at hpos
    exact (hf.2 id (List.count_pos_iff.1 hpos)).1

section Knows

variable (hb : Stmt.AllWellFormed body) (hf : Fresh lo hi (Stmt.idsOf body)) (hD : hi ≤ D.id)
  (hr : Resolution.ofProgram body = .ok r) (hr' : Resolution.ofProgram (D.stmts body) = .ok r')

include hf hr hr'

include hb hD in
/-- The one machine has been told of the program, and the other of its desugaring. -/
theorem knows_new (hm : ∀ id hops, m.distances[id]? = some hops → id < lo) :
    (Known.ofMachines (m.learn r.distances) (m.learn r'.distances)).Knows D body where
  wellFormed := hb
  accepted := ⟨r, hr⟩
  hops ho := Log.learn_new hr hb hf hm ho
  hops' {π id name reads} ho := by
    obtain ⟨_, ho₀⟩ := exists_use_of_stmts hb ho
    have hid := hf.2 id (ho₀.mem_idsOf hb hr)
    have hne : id ≠ D.id := Nat.ne_of_lt (Nat.lt_of_lt_of_le hid.2 hD)
    have hone : (Stmt.idsOf (D.stmts body)).count id ≤ 1 := by
      rw [count_stmts hne]
      exact List.nodup_iff_count.1 hf.1 id
    refine Log.learn_use hr' (wellFormed_stmts body hb) hone ho ?_
    cases hold : m.distances[id]? with
    | none => rfl
    | some hops => exact absurd (hm id hops hold) (Nat.not_lt.2 hid.1)

/-- Older programs both know as they did. -/
theorem knows_old {body₀ : List Stmt} (hlo : lo ≤ D.id) (hb₀ : Stmt.AllWellFormed body₀)
    {r₀ : Resolution} (hr₀ : Resolution.ofProgram body₀ = .ok r₀)
    (hids : ∀ id ∈ Stmt.idsOf body₀, id < lo)
    (hm : ∀ {π id name reads}, Occurs body₀ π (.use id name reads) →
      m.distances[id]? = π.distance? name) :
    (Known.ofMachines (m.learn r.distances) (m.learn r'.distances)).Knows D.still body₀ where
  wellFormed := hb₀
  accepted := ⟨r₀, hr₀⟩
  hops {π id name reads} ho := by
    have hlt := hids id (ho.mem_idsOf hb₀ hr₀)
    exact (Log.learn_old hr hf hlt).trans (hm ho)
  hops' {π id name reads} ho := by
    rw [D.stmts_still] at ho
    have hlt := hids id (ho.mem_idsOf hb₀ hr₀)
    have habsent : id ∉ r'.distances.map Prod.fst := fun hmem =>
      absurd (le_of_mem_idsOf_stmts hf hlo (mem_idsOf_of_mem_distances hr' hmem))
        (Nat.not_le.2 hlt)
    exact (m.distances_learn_of_not_mem habsent).trans (hm ho)

end Knows

end Desugaring

/-! ## What a session has -/

namespace Desugaring

/-- Each frame stands for itself. -/
def tiesOf (h : Heap) : Ties :=
  h.frames.toList.mapIdx fun i f => .shared ⟨i⟩ f.enclosing f.enclosing

theorem getElem?_tiesOf (h : Heap) (i : Nat) :
    (tiesOf h)[i]? = h.frames[i]?.map fun f => .shared ⟨i⟩ f.enclosing f.enclosing := by
  rw [tiesOf, List.getElem?_mapIdx, Array.getElem?_toList]

/-- The frames of a place are those of scopes that both sides have open. -/
theorem reaches_tiesOf {W : World} {h : Heap} {os : List Opening} {g : FrameId}
    (hc : W.Chain h os g) : (tiesOf h).Reaches (List.replicate os.length true) g g := by
  induction os generalizing g with
  | nil => exact ⟨hc, hc⟩
  | cons o os ih =>
    obtain ⟨outer, ha, hrest⟩ := hc
    refine ⟨outer, outer, ?_, ih hrest⟩
    rw [getElem?_tiesOf]
    have henclosing := ha.enclosing
    unfold Heap.enclosing? at henclosing
    cases hf : h.frames[g.index]? with
    | none => simp [hf] at henclosing
    | some f =>
      simp only [hf] at henclosing
      rw [Option.map_some, henclosing]

end Desugaring

theorem Aligned.self (os : List Opening) : Aligned (List.replicate os.length true) os os := by
  induction os with
  | nil => exact .nil
  | cons o os ih => exact .shared ⟨rfl, rfl⟩ ih

theorem Desugaring.head?_replicate_ne (n : Nat) : (List.replicate n true).head? ≠ some false := by
  cases n <;> simp [List.replicate_succ]

theorem Desugaring.node_still (D : Desugaring) (n : Node) : D.still.node n = n := by
  cases n with
  | stmts body => exact congrArg Node.stmts (D.stmts_still body)
  | stmt s => exact congrArg Node.stmt (D.stmt_still s)
  | expr e => exact congrArg Node.expr (D.expr_still e)
  | function kind f => exact congrArg (Node.function kind) (D.function_still f)
  | use id name reads => rfl

/-- A part of an older program, beside itself. -/
theorem Known.Part.self {K : Known} {D : Desugaring} {body : List Stmt} {π : Lexical.Place}
    {n : Node} (hk : K.Knows D.still body) (ho : Occurs body π n) :
    K.Part D.still (List.replicate π.openings.length true) n := by
  have ho' : Occurs (D.still.stmts body) π (D.still.node n) := by
    rwa [D.stmts_still, D.node_still]
  refine ⟨body, π, π, hk, ho, ho', .self _, rfl, fun _ => Iff.rfl, fun hΓ => ?_,
    ho.wellFormed hk.wellFormed⟩
  exact absurd hΓ (Desugaring.head?_replicate_ne _)

theorem Function.Desugared.self {K : Known} {D : Desugaring} {body : List Stmt} {π : Lexical.Place}
    {kind : Resolution.FunctionContext} {f : Function} (hk : K.Knows D.still body)
    (ho : Occurs body π (.function kind f)) :
    Function.Desugared K (List.replicate π.openings.length true) f f :=
  ⟨D.still, kind, (D.function_still f).symm, .self hk ho⟩

namespace Desugaring

section Start

variable {K : Known} {D : Desugaring} {W : World} {m : Machine} (hm : W.Sound m)
  (hK : ∀ body, W.programs body → K.Knows D.still body)

include hK

theorem Closure.desugared_of_callable {f : Closure} (hf : W.Callable m.heap f) :
    f.Desugared K [] (tiesOf m.heap) f := by
  obtain ⟨π, ⟨body, hb, ho⟩, hc⟩ := hf
  exact ⟨rfl, rfl, _, reaches_tiesOf hc, .self (hK body hb) ho,
    fun _ => Desugaring.head?_replicate_ne _⟩

theorem Closure.desugared_of_method {f : Closure} (hf : W.Method m.heap f) :
    f.Desugared K [true] (tiesOf m.heap) f := by
  obtain ⟨π, ⟨body, hb, ho⟩, hc⟩ := hf
  exact ⟨rfl, rfl, _, reaches_tiesOf hc, .self (hK body hb) ho, nofun⟩

theorem Value.desugared_of_ok {v : Value} (hv : W.Ok m.heap v) :
    v.Desugared K (tiesOf m.heap) v := by
  cases v with
  | function f => exact .function (Closure.desugared_of_callable hK (hv f rfl))
  | _ => exact .same rfl

include hm

/-- A heap that has nothing of the new program yet, beside itself. -/
theorem heap_desugared_start : m.heap.Desugared K (tiesOf m.heap) m.heap where
  toRelated := hm.heap.related (fun _ => Value.desugared_of_ok hK)
    fun _ => Closure.desugared_of_method hK
  size' := by simp [tiesOf]
  shared {i g around around'} htie := by
    rw [getElem?_tiesOf] at htie
    obtain ⟨f, hf, heq⟩ := Option.map_eq_some_iff.1 htie
    cases heq
    refine ⟨f, f, hf, hf, rfl, rfl, fun name => ?_⟩
    cases hv : f.bindings.find? name with
    | none => exact .none
    | some v =>
      have hget : m.heap.getIn? ⟨i⟩ name = some v := by simp only [Heap.getIn?, hf, hv]
      exact .some (Value.desugared_of_ok hK (hm.heap.bindings _ _ _ hget))
  extra htie := by
    rw [getElem?_tiesOf] at htie
    obtain ⟨f, -, heq⟩ := Option.map_eq_some_iff.1 htie
    cases heq
  unique {g g₁ g₂} h₁ h₂ := by
    have hself {g' : FrameId} (h : (tiesOf m.heap).Joins g g') : g = g' := by
      obtain ⟨_, _, htie⟩ := h
      rw [getElem?_tiesOf] at htie
      obtain ⟨f, -, heq⟩ := Option.map_eq_some_iff.1 htie
      cases heq
      rfl
    exact (hself h₁).symm.trans (hself h₂)
  globals := by
    cases hf : m.heap.frames[Heap.globals.index]? with
    | none => exact absurd hm.globals (Nat.not_lt.2 (Array.getElem?_eq_none_iff.1 hf))
    | some f => exact ⟨f.enclosing, f.enclosing, by rw [getElem?_tiesOf, hf]; rfl⟩

end Start

/-- A machine that has been told of a program and one that has been told of another, before they run
anything of it. -/
theorem desugared_start {D : Desugaring} {W : World} {m : Machine} (hm : W.Sound m)
    (hframe : m.frame = Heap.globals) {ds ds' : List (ExprId × Nat)}
    (hK : ∀ body, W.programs body →
      (Known.ofMachines (m.learn ds) (m.learn ds')).Knows D.still body) :
    Machine.Desugared (Known.ofMachines (m.learn ds) (m.learn ds')) (tiesOf m.heap) Heap.globals
      Heap.globals (m.learn ds) (m.learn ds') where
  heap := heap_desugared_start hm hK
  frame := hframe
  frame' := hframe
  distances _ := rfl
  distances' _ := rfl
  output := rfl
  time := rfl

end Desugaring

/-! ## Outcomes -/

/-- The second run gets as far as the first: it has printed all that this has, and if this has
ended, it has ended in the same way and printed the same. -/
structure Session.AsFar (ran ran' : Outcome Unit × Session) : Prop where
  printed : ran.2.machine.output.Begins ran'.2.machine.output
  ended : ran.1 ≠ .outOfFuel →
    ran'.1 = ran.1 ∧ ran'.2.machine.output = ran.2.machine.output

theorem Session.AsFar.of_eq {ran ran' : Outcome Unit × Session} (h : ran'.1 = ran.1)
    (houtput : ran'.2.machine.output = ran.2.machine.output) : AsFar ran ran' where
  printed := houtput ▸ .refl _
  ended _ := ⟨h, houtput⟩

namespace Desugaring.Ends

variable {K : Known} {P : Ties} {F F' : FrameId} {x x' : Eval Unit} {s s' : Session}

/-- The desugared program gets as far as the original, if this alone may run out of fuel. -/
theorem asFar (h : Ends K .original P F F' (fun _ => Eq) (x s.machine) (x' s'.machine)) :
    Session.AsFar (s.evaluate x) (s'.evaluate x') := by
  obtain ⟨m, nextId⟩ := s
  obtain ⟨m', nextId'⟩ := s'
  simp only [Session.evaluate]
  dsimp only at h
  generalize x m = r at h
  generalize x' m' = r' at h
  cases h with
  | ok _ hm _ => exact .of_eq rfl hm.output.symm
  | error e houtput => exact .of_eq rfl houtput.symm
  | original _ hprinted =>
    refine ⟨?_, fun hended => absurd rfl hended⟩
    cases r' with
    | ok => exact hprinted
    | error stop => cases stop <;> exact hprinted
  | desugared hside => cases hside

/-- The original program gets as far as the desugared, if this alone may run out of fuel. -/
theorem asFar' (h : Ends K .desugared P F F' (fun _ => Eq) (x s.machine) (x' s'.machine)) :
    Session.AsFar (s'.evaluate x') (s.evaluate x) := by
  obtain ⟨m, nextId⟩ := s
  obtain ⟨m', nextId'⟩ := s'
  simp only [Session.evaluate]
  dsimp only at h
  generalize x m = r at h
  generalize x' m' = r' at h
  cases h with
  | ok _ hm _ => exact .of_eq rfl hm.output
  | error e houtput => exact .of_eq rfl houtput
  | original hside => cases hside
  | desugared _ hprinted =>
    refine ⟨?_, fun hended => absurd rfl hended⟩
    cases r with
    | ok => exact hprinted
    | error stop => cases stop <;> exact hprinted

end Desugaring.Ends

/-! ## Sessions -/

theorem Session.resolve_eq_ok {s t : Session} {body : List Stmt} {p : Program} :
    s.resolve body = (.ok p, t) ↔ ∃ r, Resolution.ofProgram body = .ok r ∧
      p = ⟨body, r.warnings⟩ ∧ t = { s with machine := s.machine.learn r.distances } := by
  unfold resolve
  cases hr : Resolution.ofProgram body with
  | ok r =>
    constructor
    · rintro ⟨⟩
      exact ⟨r, rfl, rfl, rfl⟩
    · rintro ⟨_, ⟨⟩, rfl, rfl⟩
      rfl
  | error e =>
    constructor
    · rintro ⟨⟩
    · rintro ⟨_, ⟨⟩, -⟩

theorem Session.accepts_iff {s : Session} {body : List Stmt} :
    (∃ p, (s.resolve body).1 = .ok p) ↔ ∃ r, Resolution.ofProgram body = .ok r := by
  constructor
  · rintro ⟨p, hp⟩
    obtain ⟨r, hr, -⟩ := resolve_eq_ok.1 (Prod.ext hp rfl)
    exact ⟨r, hr⟩
  · rintro ⟨r, hr⟩
    exact ⟨_, congrArg Prod.fst (resolve_eq_ok.2 ⟨r, hr, rfl, rfl⟩)⟩

theorem Session.parse_eq_ok {s s' : Session} {source : String} {body : List Stmt} :
    s.parse source = (.ok body, s') ↔ ∃ tree, Tree.parse source s.nextId = .ok tree ∧
      body = tree.body ∧ s' = { s with nextId := tree.nextId } := by
  unfold parse
  cases Tree.parse source s.nextId with
  | ok tree =>
    constructor
    · rintro ⟨⟩
      exact ⟨tree, rfl, rfl, rfl⟩
    · rintro ⟨_, ⟨⟩, rfl, rfl⟩
      rfl
  | error errors =>
    constructor
    · rintro ⟨⟩
    · rintro ⟨_, ⟨⟩, -⟩

namespace Run

/-- Whichever `for` statements of a program are replaced by what they mean, the program is accepted
just if it was, and warned of the same.  From the state in which the session is the one run is as
good as the other: each prints what the other prints, and if one ends so does the other, normally or
by the same error. -/
theorem Reached.for_desugared {log : Log} (h : Reached log) {source : String} {body : List Stmt}
    {s : Session} (hparse : log.session.parse source = (.ok body, s)) (D : Desugaring)
    (hD : s.nextId ≤ D.id) :
    ((∃ p', (s.resolve (D.stmts body)).1 = .ok p') ↔ ∃ p, (s.resolve body).1 = .ok p) ∧
    ∀ p p' t t', s.resolve body = (.ok p, t) → s.resolve (D.stmts body) = (.ok p', t') →
      p'.warnings.Perm p.warnings ∧ ∀ fuel fuel',
        (4 * fuel ≤ fuel' → Session.AsFar (t.execute fuel p) (t'.execute fuel' p')) ∧
        (fuel ≤ fuel' → Session.AsFar (t'.execute fuel p') (t.execute fuel' p)) := by
  obtain ⟨tree, htree, rfl, rfl⟩ := Session.parse_eq_ok.1 hparse
  have hlog := h.sound
  obtain ⟨hle, hf⟩ := fresh_of_parse htree
  have hb := wellFormed_of_parse htree
  refine ⟨?_, fun p p' t t' hresolve hresolve' => ?_⟩
  · rw [Session.accepts_iff, Session.accepts_iff]
    exact D.accepted_stmts_iff hb
  obtain ⟨r, hr, rfl, rfl⟩ := Session.resolve_eq_ok.1 hresolve
  obtain ⟨r', hr', rfl, rfl⟩ := Session.resolve_eq_ok.1 hresolve'
  refine ⟨D.warnings_perm hb hr hr', ?_⟩
  let m := log.session.machine
  let K := Known.ofMachines (m.learn r.distances) (m.learn r'.distances)
  have hnew : K.Knows D tree.body := Desugaring.knows_new hb hf hD hr hr' hlog.known
  have hold (body₀ : List Stmt) (hb₀ : log.world.programs body₀) : K.Knows D.still body₀ := by
    obtain ⟨⟨q, hq, rfl⟩, hwf, r₀, hr₀⟩ := id hb₀
    exact Desugaring.knows_old hf hr hr' (Nat.le_trans hle hD) hwf hr₀ (hlog.numbered q hq)
      fun ho => hlog.machine.knows ⟨q.body, hb₀, ho⟩
  have hstart := Desugaring.desugared_start hlog.machine hlog.frame hold
  have hruns : K.Runs D (Desugaring.tiesOf m.heap) Heap.globals Heap.globals []
    (.stmts tree.body) := ⟨.program hnew, rfl, rfl⟩
  refine fun fuel fuel' => ⟨fun hfuel => ?_, fun hfuel => ?_⟩
  · have hfits : Desugaring.Side.original.Fits fuel fuel' := hfuel
    exact (Desugaring.agree_program hfits hruns _ _ hstart).asFar
  · have hfits : Desugaring.Side.desugared.Fits fuel' fuel := hfuel
    exact (Desugaring.agree_program hfits hruns _ _ hstart).asFar'

/-- A loop that prints `true` once, and the block that it means. -/
theorem for_desugared_once : ∃ (log : Log) (body : List Stmt) (s : Session) (D : Desugaring)
    (p p' : Program) (t t' : Session), Reached log ∧
    log.session.parse "for (var b = true; b; b = false) print b;" = (.ok body, s) ∧
    s.nextId ≤ D.id ∧
    D.stmts body = [⟨.onLine 0 41, .block [
      ⟨.onLine 5 18, .varDecl ⟨"b", .onLine 9 10⟩
        (some ⟨0, .onLine 13 17, .literal (.boolean true)⟩)⟩,
      ⟨.onLine 0 41, .while ⟨1, .onLine 19 20, .variable ⟨"b", .onLine 19 20⟩⟩
        ⟨.onLine 33 41, .block [
          ⟨.onLine 33 41, .print ⟨5, .onLine 39 40, .variable ⟨"b", .onLine 39 40⟩⟩⟩,
          ⟨.onLine 22 31, .expression ⟨4, .onLine 22 31, .assign ⟨"b", .onLine 22 23⟩
            ⟨3, .onLine 26 31, .literal (.boolean false)⟩⟩⟩]⟩⟩]⟩] ∧
    s.resolve body = (.ok p, t) ∧ s.resolve (D.stmts body) = (.ok p', t') ∧
    (t'.execute 40 p').1 = .done () ∧
    (t'.execute 40 p').2.machine.output = (t.execute 10 p).2.machine.output := by
  let var (id start : Nat) : Expr :=
    ⟨id, .onLine start (start + 1), .variable ⟨"b", .onLine start (start + 1)⟩⟩
  let body : List Stmt := [⟨.onLine 0 41, .for
    (some ⟨.onLine 5 18, .varDecl ⟨"b", .onLine 9 10⟩
      (some ⟨0, .onLine 13 17, .literal (.boolean true)⟩)⟩)
    (some (var 1 19))
    (some ⟨4, .onLine 22 31, .assign ⟨"b", .onLine 22 23⟩
      ⟨3, .onLine 26 31, .literal (.boolean false)⟩⟩)
    ⟨.onLine 33 41, .print (var 5 39)⟩⟩]
  let D : Desugaring := ⟨fun _ => true, 6⟩
  have htree : Tree.parse "for (var b = true; b; b = false) print b;" 0 = .ok ⟨body, 6⟩ := by cbv
  have hparse : (Session.start none (fun _ => 0)).parse "for (var b = true; b; b = false) print b;" =
      (.ok body, ⟨.start none (fun _ => 0), 6⟩) := Session.parse_eq_ok.2 ⟨_, htree, rfl, rfl⟩
  have hr : Resolution.ofProgram body = .ok ⟨[(5, 0), (4, 0), (1, 0)], []⟩ := by cbv
  have hr' : Resolution.ofProgram (D.stmts body) = .ok ⟨[(4, 1), (5, 1), (1, 0)], []⟩ := by cbv
  have hresolve := (Session.resolve_eq_ok (s := ⟨.start none (fun _ => 0), 6⟩)).2 ⟨_, hr, rfl, rfl⟩
  have hresolve' := (Session.resolve_eq_ok (s := ⟨.start none (fun _ => 0), 6⟩)).2 ⟨_, hr', rfl, rfl⟩
  have hdone : (Session.execute ⟨(Machine.start none (fun _ => 0)).learn [(5, 0), (4, 0), (1, 0)], 6⟩ 10
    ⟨body, []⟩).1 = .done () := by cbv
  obtain ⟨-, hends⟩ := (Reached.start none (fun _ => 0)).for_desugared hparse D (Nat.le_refl 6)
  obtain ⟨-, hfar⟩ := hends _ _ _ _ hresolve hresolve'
  have hended : (Session.execute _ 10 ⟨body, []⟩).1 ≠ .outOfFuel := fun h => by
    cases hdone.symm.trans h
  obtain ⟨houtcome, houtput⟩ := ((hfar 10 40).1 (Nat.le_refl 40)).ended hended
  exact ⟨_, body, _, D, _, _, _, _, .start none (fun _ => 0), hparse, Nat.le_refl 6, rfl, hresolve, hresolve',
    houtcome.trans hdone, houtput⟩

end Run

end Lox

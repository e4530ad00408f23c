import Lox.Session
import Lox.Proofs.Run.Visit
import Lox.Proofs.Syntax.Parsed

/-!
# Sessions and their runs

A host prepares sources, executes programs that were accepted, evaluates the expressions among
their statements and calls values that it has come by, all as often and in what order it likes.  A
log has what has happened; whatever has been reached, all that its runs come by was ready to be run,
in a world that the log has grown out of:

    Reached log → log.Visited stack c →
      ∃ W, W.Le (log.during stack) ∧ W.Ready c ∧ c.machine.frame = Config.frameOf stack
                                                                              (Reached.visited)
-/

namespace Lox

/-- The values that the host comes by. -/
def Outcome.values : Outcome Value → List Value
  | .done v => [v]
  | .failed _ | .outOfFuel => []

namespace Run

open Lexical

/-! ## Logs -/

structure Log where
  session : Session
  /-- The programs that were accepted. -/
  programs : List Program
  /-- The runs, each as it was started. -/
  runs : List Config
  /-- The values that the host has come by. -/
  values : List Value

namespace Log

def start (limit : Option Nat) (time : Nat → Float) : Log := ⟨.start limit time, [], [], []⟩

/-- After one more run. -/
def ran (log : Log) (fuel : Nat) (task : Task) (s : Session) (values : List Value) : Log where
  session := s
  programs := log.programs
  runs := ⟨fuel, task, log.session.machine⟩ :: log.runs
  values := values ++ log.values

/-- The host has all values but functions by itself. -/
def Has (log : Log) (v : Value) : Prop := v ∈ log.values ∨ ∀ f, v ≠ .function f

/-- What the host can do. -/
inductive Step (log : Log) : Log → Prop
  | prepared {source : String} {p : Program} {s : Session} :
      log.session.prepare source = (.ok p, s) →
      Step log { log with session := s, programs := p :: log.programs }
  | rejected {source : String} {f : Failure} {s : Session} :
      log.session.prepare source = (.error f, s) → Step log { log with session := s }
  | executed {p : Program} {fuel : Nat} {outcome : Outcome Unit} {s : Session} :
      p ∈ log.programs → log.session.execute fuel p = (outcome, s) →
      Step log (log.ran fuel (.program p.body) s [])
  | evaluated {p : Program} {span : Span} {e : Expr} {fuel : Nat} {outcome : Outcome Value}
      {s : Session} :
      p ∈ log.programs → ⟨span, .expression e⟩ ∈ p.body →
      log.session.evaluate (Eval.expr fuel e) = (outcome, s) →
      Step log (log.ran fuel (.expr e) s outcome.values)
  | called {f : Value} {args : List Value} {span : Span} {fuel : Nat} {outcome : Outcome Value}
      {s : Session} :
      log.Has f → (∀ v ∈ args, log.Has v) →
      log.session.evaluate (Eval.call fuel f args span) = (outcome, s) →
      Step log (log.ran fuel (.call f args span) s outcome.values)

end Log

/-- What can have happened. -/
inductive Reached : Log → Prop
  | start (limit : Option Nat) (time : Nat → Float) : Reached (.start limit time)
  | step {log log' : Log} : Reached log → log.Step log' → Reached log'

namespace Log

/-- A run comes by a task in the course of others, the innermost first. -/
def Visited (log : Log) (stack : List Config) (c : Config) : Prop :=
  ∃ c₀ ∈ log.runs, Visits c₀ stack c

theorem Visited.call {log : Log} {stack : List Config} {c c' : Config}
    (hv : log.Visited stack c) (h : Calls c c') : log.Visited (c :: stack) c' := by
  obtain ⟨c₀, hc₀, hv⟩ := hv
  exact ⟨c₀, hc₀, hv.call h⟩

theorem Visited.of_cons {log : Log} {parent c : Config} {stack : List Config}
    (hv : log.Visited (parent :: stack) c) : log.Visited stack parent ∧ Calls parent c := by
  obtain ⟨c₀, hc₀, hv⟩ := hv
  cases hv with
  | call hv hcall => exact ⟨⟨c₀, hc₀, hv⟩, hcall⟩

/-- What the runs of a log take place in. -/
def world (log : Log) : World where
  programs body := (∃ p ∈ log.programs, p.body = body) ∧
    Stmt.AllWellFormed body ∧ ∃ r, Resolution.ofProgram body = .ok r
  accepted _ h := h.2
  visited c := ∃ stack, log.Visited stack c
  running _ := False

/-- The same in the course of the tasks in `stack`. -/
def during (log : Log) (stack : List Config) : World :=
  { log.world with running := fun c => c ∈ stack }

end Log

/-- Nothing is lost from one world to the other. -/
structure World.Le (W W' : World) : Prop where
  programs : ∀ body, W.programs body → W'.programs body
  visited : ∀ c, W.visited c → W'.visited c
  running : ∀ c, W.running c → W'.running c

namespace World.Le

variable {W W' W'' : World}

theorem refl (W : World) : W.Le W := ⟨fun _ => id, fun _ => id, fun _ => id⟩

theorem trans (a : W.Le W') (b : W'.Le W'') : W.Le W'' :=
  ⟨fun body hb => b.programs body (a.programs body hb),
    fun c hc => b.visited c (a.visited c hc), fun c hc => b.running c (a.running c hc)⟩

theorem later (hle : W.Le W') (h : Heap) : World.Later W W' h h :=
  .of_le hle.programs hle.visited hle.running

end World.Le

/-! ## What is always so -/

namespace Log

/-- What holds of a log whatever has happened. -/
structure Sound (log : Log) : Prop where
  accepted : ∀ p ∈ log.programs, log.world.programs p.body
  distinct : ∀ p ∈ log.programs, (Stmt.idsOf p.body).Nodup
  /-- The expressions of all programs have been numbered. -/
  numbered : ∀ p ∈ log.programs, ∀ id ∈ Stmt.idsOf p.body, id < log.session.nextId
  known : ∀ id hops, log.session.machine.distances[id]? = some hops → id < log.session.nextId
  frame : log.session.machine.frame = Heap.globals
  machine : log.world.Sound log.session.machine
  runs : ∀ c ∈ log.runs, ∃ W : World, W.Le log.world ∧ W.Ready c ∧
    c.machine.frame = Heap.globals
  values : ∀ v ∈ log.values, log.world.Ok log.session.machine.heap v

theorem getIn?_start {g : FrameId} {name : String} {v : Value}
    (h : Heap.start.getIn? g name = some v) :
    (Table.ofPairs (Native.all.map fun f => (f.name, .native f))).find? name = some v := by
  obtain ⟨_ | i⟩ := g
  · exact h
  · simp [Heap.getIn?, Heap.start, Array.singleton] at h

theorem holds_start {V : Value → Prop} {M : Closure → Prop}
    (hv : ∀ v, (∀ f, v ≠ .function f) → V v) : Heap.start.Holds V M where
  bindings g name v hg := by
    refine (Table.All.ofPairs fun p hp => ?_).find? (getIn?_start hg)
    obtain ⟨f, -, rfl⟩ := List.mem_map.1 hp
    exact hv _ fun _ => Value.noConfusion
  supers g v hg := by
    have hsome := Option.isSome_of_eq_some (getIn?_start hg)
    rw [Table.isSome_find?_ofPairs] at hsome
    exact absurd hsome (by decide)
  arrays a ha := absurd ha (Array.not_mem_empty a)
  instances o ho := absurd ho (Array.not_mem_empty o)
  classes k hk := absurd hk (Array.not_mem_empty k)
  traits k hk := absurd hk (Array.not_mem_empty k)

theorem sound_start (limit : Option Nat) (time : Nat → Float) : (start limit time).Sound where
  accepted _ hp := by cases hp
  distinct _ hp := by cases hp
  numbered _ hp := by cases hp
  known id hops h := by
    rw [start, Session.start, Machine.start, Std.TreeMap.getElem?_emptyc] at h
    cases h
  frame := rfl
  machine := by
    refine ⟨fun hp => ?_, holds_start fun v hv => .of_ne hv, Nat.one_pos⟩
    obtain ⟨_, ⟨⟨p, hp, -⟩, -⟩, -⟩ := hp
    cases hp
  runs _ hc := by cases hc
  values _ hv := by cases hv

end Log

end Run

/-! ## Preparing -/

theorem Machine.distances_learn_of_not_mem (m : Machine) {pairs : List (ExprId × Nat)}
    {id : ExprId} (h : id ∉ pairs.map Prod.fst) :
    (m.learn pairs).distances[id]? = m.distances[id]? := by
  unfold learn
  refine Std.TreeMap.getElem?_insertMany_list_of_contains_eq_false ?_
  simpa using h

theorem Machine.learn_cons (m : Machine) (pair : ExprId × Nat) (pairs : List (ExprId × Nat)) :
    m.learn (pair :: pairs) =
      Machine.learn { m with distances := m.distances.insert pair.1 pair.2 } pairs := by
  unfold learn
  rw [Std.TreeMap.insertMany_cons]

theorem Machine.distances_learn_of_count (m : Machine) {pairs : List (ExprId × Nat)} {id : ExprId}
    {hops : Nat} (hone : (pairs.map Prod.fst).count id ≤ 1) (h : (id, hops) ∈ pairs) :
    (m.learn pairs).distances[id]? = some hops := by
  induction pairs generalizing m with
  | nil => cases h
  | cons pair pairs ih =>
    rw [List.map_cons, List.count_cons] at hone
    rw [m.learn_cons]
    rcases List.mem_cons.1 h with rfl | h
    · have habsent : id ∉ pairs.map Prod.fst := by
        rw [← List.count_eq_zero]
        simpa using hone
      rw [distances_learn_of_not_mem _ habsent]
      exact Std.TreeMap.getElem?_insert_self
    · exact ih _ (by omega) h

theorem Machine.distances_learn_of_mem (m : Machine) {pairs : List (ExprId × Nat)}
    (hd : (pairs.map Prod.fst).Nodup) {id : ExprId} {hops : Nat} (h : (id, hops) ∈ pairs) :
    (m.learn pairs).distances[id]? = some hops :=
  m.distances_learn_of_count (List.nodup_iff_count.1 hd id) h

theorem Session.prepare_eq_ok {s s' : Session} {source : String} {p : Program}
    (h : s.prepare source = (.ok p, s')) :
    ∃ tree r, Tree.parse source s.nextId = .ok tree ∧ Resolution.ofProgram tree.body = .ok r ∧
      p.body = tree.body ∧ s' = ⟨s.machine.learn r.distances, tree.nextId⟩ := by
  unfold prepare parse resolve at h
  cases htree : Tree.parse source s.nextId with
  | error errors => simp [htree] at h
  | ok tree =>
    cases hr : Resolution.ofProgram tree.body with
    | error e => simp [htree, hr] at h
    | ok r =>
      simp only [htree, hr, Prod.mk.injEq, Except.ok.injEq] at h
      obtain ⟨rfl, rfl⟩ := h
      exact ⟨tree, r, rfl, hr, rfl, rfl⟩

theorem Session.prepare_of_parse {s : Session} {source : String} {tree : Tree} {r : Resolution}
    (hparse : Tree.parse source s.nextId = .ok tree)
    (hr : Resolution.ofProgram tree.body = .ok r) :
    s.prepare source =
      (.ok ⟨tree.body, r.warnings⟩, ⟨s.machine.learn r.distances, tree.nextId⟩) := by
  simp only [prepare, parse, hparse, resolve, hr]

theorem Session.prepare_eq_error {s s' : Session} {source : String} {f : Failure}
    (h : s.prepare source = (.error f, s')) : s'.machine = s.machine ∧ s.nextId ≤ s'.nextId := by
  unfold prepare parse resolve at h
  cases htree : Tree.parse source s.nextId with
  | error errors =>
    simp only [htree, Prod.mk.injEq] at h
    obtain ⟨-, rfl⟩ := h
    exact ⟨rfl, Nat.le_refl _⟩
  | ok tree =>
    have hle := (fresh_of_parse htree).1
    cases hr : Resolution.ofProgram tree.body with
    | error e =>
      simp only [htree, hr, Prod.mk.injEq] at h
      obtain ⟨-, rfl⟩ := h
      exact ⟨rfl, hle⟩
    | ok r => simp [htree, hr] at h

namespace Run.Log

open Lexical

variable {log log' : Log}

/-- A machine that is told of the locals of a program knows a use, if its identity is no other's and
new to the machine. -/
theorem learn_use {m : Machine} {body : List Stmt} {r : Resolution}
    (hr : Resolution.ofProgram body = .ok r) (hb : Stmt.AllWellFormed body) {π : Lexical.Place}
    {id : ExprId} {name : String} {reads : Bool} (hone : (Stmt.idsOf body).count id ≤ 1)
    (ho : Occurs body π (.use id name reads)) (hold : m.distances[id]? = none) :
    (m.learn r.distances).distances[id]? = π.distance? name := by
  have hiff (hops : Nat) : (id, hops) ∈ r.distances ↔ π.distance? name = some hops :=
    ho.mem_distances_iff_of_count hb hone hr
  cases hd : π.distance? name with
  | some hops =>
    have hcount := Nat.le_trans (count_distances_le hr id) hone
    exact m.distances_learn_of_count hcount ((hiff hops).2 hd)
  | none =>
    have habsent : id ∉ r.distances.map Prod.fst := by
      intro hmem
      obtain ⟨⟨_, hops⟩, hpair, rfl⟩ := List.mem_map.1 hmem
      rw [(hiff hops).1 hpair] at hd
      cases hd
    rw [m.distances_learn_of_not_mem habsent, hold]

/-- A machine that is told of the locals of a new program knows them. -/
theorem learn_new {m : Machine} {body : List Stmt} {r : Resolution} {lo hi : ExprId}
    (hr : Resolution.ofProgram body = .ok r) (hb : Stmt.AllWellFormed body)
    (hf : Fresh lo hi (Stmt.idsOf body))
    (hm : ∀ id hops, m.distances[id]? = some hops → id < lo) {π : Lexical.Place} {id : ExprId}
    {name : String} {reads : Bool} (ho : Occurs body π (.use id name reads)) :
    (m.learn r.distances).distances[id]? = π.distance? name := by
  refine learn_use hr hb (List.nodup_iff_count.1 hf.1 id) ho ?_
  cases hold : m.distances[id]? with
  | none => rfl
  | some hops =>
    have hge := (hf.2 id (ho.mem_idsOf hb hr)).1
    exact absurd (hm id hops hold) (Nat.not_lt.2 hge)

/-- A machine that is told of the locals of a new program still knows the old ones. -/
theorem learn_old {m : Machine} {body : List Stmt} {r : Resolution} {lo hi : ExprId}
    (hr : Resolution.ofProgram body = .ok r) (hf : Fresh lo hi (Stmt.idsOf body)) {id : ExprId}
    (hid : id < lo) : (m.learn r.distances).distances[id]? = m.distances[id]? := by
  refine m.distances_learn_of_not_mem fun hmem => ?_
  have hge := (hf.2 id (mem_idsOf_of_mem_distances hr hmem)).1
  exact absurd hid (Nat.not_lt.2 hge)

/-- A program that is accepted later has other expressions than those before it. -/
theorem Sound.prepared (h : log.Sound) {source : String} {p : Program} {s : Session}
    (hp : log.session.prepare source = (.ok p, s)) :
    Sound { log with session := s, programs := p :: log.programs } := by
  obtain ⟨tree, r, htree, hr, hbody, rfl⟩ := Session.prepare_eq_ok hp
  obtain ⟨hle, hf⟩ := fresh_of_parse htree
  have hwf := wellFormed_of_parse htree
  rw [← hbody] at hr hf hwf
  have hgrown : log.world.Le (world { log with
      session := ⟨log.session.machine.learn r.distances, tree.nextId⟩
      programs := p :: log.programs }) :=
    ⟨fun body ⟨⟨q, hq, hqb⟩, hb⟩ => ⟨⟨q, List.mem_cons_of_mem _ hq, hqb⟩, hb⟩, fun _ => id, fun _ => id⟩
  constructor
  case accepted =>
    refine List.forall_mem_cons.2 ⟨⟨⟨p, List.mem_cons_self, rfl⟩, hwf, r, hr⟩, fun q hq => ?_⟩
    exact hgrown.programs q.body (h.accepted q hq)
  case distinct => exact List.forall_mem_cons.2 ⟨hf.1, h.distinct⟩
  case numbered =>
    refine List.forall_mem_cons.2 ⟨fun id hid => (hf.2 id hid).2, fun q hq id hid => ?_⟩
    exact Nat.lt_of_lt_of_le (h.numbered q hq id hid) hle
  case known =>
    intro id hops hid
    by_cases hmem : id ∈ r.distances.map Prod.fst
    · exact (hf.2 id (mem_idsOf_of_mem_distances hr hmem)).2
    · rw [Machine.distances_learn_of_not_mem _ hmem] at hid
      exact Nat.lt_of_lt_of_le (h.known id hops hid) hle
  case frame => exact h.frame
  case machine =>
    refine ⟨fun {π id name reads} hpart => ?_, (hgrown.later _).holds h.machine.heap,
      h.machine.globals⟩
    obtain ⟨body, ⟨⟨q, hq, rfl⟩, hq', r', hr'⟩, ho⟩ := hpart
    rcases List.mem_cons.1 hq with rfl | hq
    · exact learn_new hr hwf hf h.known ho
    · rw [learn_old hr hf (h.numbered q hq id (ho.mem_idsOf hq' hr'))]
      exact h.machine.knows ⟨q.body, h.accepted q hq, ho⟩
  case runs =>
    intro c hc
    obtain ⟨W, hW, hready⟩ := h.runs c hc
    exact ⟨W, hW.trans hgrown, hready⟩
  case values => exact fun v hv => (hgrown.later _).ok (h.values v hv)

theorem Sound.rejected (h : log.Sound) {source : String} {f : Failure} {s : Session}
    (hp : log.session.prepare source = (.error f, s)) : Sound { log with session := s } := by
  obtain ⟨hm, hle⟩ := Session.prepare_eq_error hp
  exact {
    accepted := h.accepted
    distinct := h.distinct
    numbered := fun p hp id hid => Nat.lt_of_lt_of_le (h.numbered p hp id hid) hle
    known := fun id hops hid => by
      rw [hm] at hid
      exact Nat.lt_of_lt_of_le (h.known id hops hid) hle
    frame := by rw [hm]; exact h.frame
    machine := by rw [hm]; exact h.machine
    runs := h.runs
    values := by rw [hm]; exact h.values }

/-! ## Running -/

theorem evaluate_safe {α : Type} {W : World} {e : Eval α} {Q : α → Heap → Prop} {s s' : Session}
    {outcome : Outcome α} (h : s.evaluate e = (outcome, s')) (he : W.Safe e s.machine Q) :
    W.Step s.machine s'.machine ∧ s'.nextId = s.nextId ∧
      ∀ a, outcome = .done a → Q a s'.machine.heap := by
  unfold Session.evaluate at h
  cases hr : e s.machine with
  | ok a m =>
    obtain ⟨hs, hq⟩ := he.of_ok hr
    simp only [hr, Prod.mk.injEq] at h
    obtain ⟨rfl, rfl⟩ := h
    exact ⟨hs, rfl, fun _ hb => by cases hb; exact hq⟩
  | error stop m =>
    have hs := he.of_error hr
    cases stop with
    | error e =>
      simp only [hr, Prod.mk.injEq] at h
      obtain ⟨rfl, rfl⟩ := h
      exact ⟨hs, rfl, nofun⟩
    | outOfFuel =>
      simp only [hr, Prod.mk.injEq] at h
      obtain ⟨rfl, rfl⟩ := h
      exact ⟨hs, rfl, nofun⟩

/-- One more run leaves the log as it should be, if it is ready and safe. -/
theorem Sound.ran (h : log.Sound) {α : Type} {fuel : Nat} {task : Task} {e : Eval α}
    {outcome : Outcome α} {s : Session} {g : α → List Value} {values : List Value}
    (he : log.session.evaluate e = (outcome, s))
    (hv : ∀ v ∈ values, ∃ a, outcome = .done a ∧ v ∈ g a)
    (hrun : ∀ W : World, log.world.Le W → W.Covers ⟨fuel, task, log.session.machine⟩ →
      W.Sound log.session.machine → W.Ready ⟨fuel, task, log.session.machine⟩ ∧
        W.Safe e log.session.machine fun a h => ∀ v ∈ g a, W.Ok h v) :
    (log.ran fuel task s values).Sound := by
  have hgrown : log.world.Le (log.ran fuel task s values).world :=
    ⟨fun _ => id, fun c ⟨stack, c₀, hc₀, hv⟩ => ⟨stack, c₀, List.mem_cons_of_mem _ hc₀, hv⟩, fun _ => id⟩
  have hcovers : (log.ran fuel task s values).world.Covers ⟨fuel, task, log.session.machine⟩ :=
    fun stack c hc => ⟨stack, _, List.mem_cons_self, hc⟩
  obtain ⟨hready, hsafe⟩ := hrun _ hgrown hcovers
    ((hgrown.later _).sound h.machine fun _ => id)
  obtain ⟨hs, hid, hgiven⟩ := evaluate_safe he hsafe
  constructor
  case accepted => exact h.accepted
  case distinct => exact h.distinct
  case numbered =>
    intro p hp id hmem
    show id < s.nextId
    rw [hid]
    exact h.numbered p hp id hmem
  case known =>
    intro id hops hk
    show id < s.nextId
    rw [hid]
    exact h.known id hops (hs.distances ▸ hk)
  case frame => exact hs.frame.trans h.frame
  case machine => exact hs.sound
  case runs =>
    refine List.forall_mem_cons.2 ⟨⟨_, .refl _, hready, h.frame⟩, fun c hc => ?_⟩
    obtain ⟨W, hW, hc⟩ := h.runs c hc
    exact ⟨W, hW.trans hgrown, hc⟩
  case values =>
    intro v hmem
    rcases List.mem_append.1 hmem with hnew | hold
    · obtain ⟨a, ha, hva⟩ := hv v hnew
      exact hgiven a ha v hva
    · exact ((hgrown.later _).ok (h.values v hold)).mono hs.grown

theorem mem_values {outcome : Outcome Value} :
    ∀ v ∈ outcome.values, ∃ w, outcome = .done w ∧ v ∈ [w] := by
  cases outcome with
  | done w => exact fun v hv => ⟨w, rfl, hv⟩
  | failed | outOfFuel => exact fun v hv => by cases hv

theorem Sound.stands (h : log.Sound) {W : World} {fuel : Nat} {task : Task}
    (hc : W.Covers ⟨fuel, task, log.session.machine⟩) (hm : W.Sound log.session.machine) :
    W.Stands ⟨fuel, task, log.session.machine⟩ .program :=
  ⟨hc, hm, h.frame⟩

theorem Sound.has (h : log.Sound) {W : World} (hle : log.world.Le W) {v : Value}
    (hv : log.Has v) : W.Ok log.session.machine.heap v :=
  hv.elim (fun hmem => (hle.later _).ok (h.values v hmem)) .of_ne

theorem part_of_mem {W : World} {body ss : List Stmt} {s : Stmt} (hb : W.programs body)
    (ho : Occurs body .program (.stmts ss)) (hs : s ∈ ss) : W.Part .program (.stmt s) := by
  induction ss with
  | nil => cases hs
  | cons first rest ih =>
    rcases List.mem_cons.1 hs with rfl | hs
    · exact ⟨body, hb, ho.inside .first⟩
    · have hrest := ho.inside .rest
      rw [World.after_program] at hrest
      exact ih hrest hs

theorem Sound.step (h : log.Sound) (hstep : log.Step log') : log'.Sound := by
  cases hstep with
  | prepared hp => exact h.prepared hp
  | rejected hp => exact h.rejected hp
  | @executed p fuel outcome s hp he =>
    refine h.ran (g := fun _ => []) he (fun v hv => by cases hv) fun W hle hc hm => ?_
    have hstands := h.stands hc hm
    have hpart : W.Part .program (.stmts p.body) :=
      ⟨p.body, hle.programs _ (h.accepted p hp), .program⟩
    exact ⟨⟨hstands, hpart⟩, (World.program_safe (World.soundAt W fuel) hstands hpart).mono
      fun _ _ _ _ _ v hv => by cases hv⟩
  | @evaluated p span e fuel outcome s hp hmem he =>
    refine h.ran (g := fun v => [v]) he mem_values fun W hle hc hm => ?_
    have hstands := h.stands hc hm
    have hpart := (part_of_mem (hle.programs _ (h.accepted p hp)) .program hmem).inside .expression
    exact ⟨⟨.program, hstands, hpart⟩, ((World.soundAt W fuel).expr hstands hpart).mono
      fun _ _ _ _ hv => List.forall_mem_singleton.2 hv⟩
  | @called f args span fuel outcome s hf hargs he =>
    refine h.ran (g := fun v => [v]) he mem_values fun W hle hc hm => ?_
    have hf := h.has hle hf
    have hargs := fun v hv => h.has hle (hargs v hv)
    exact ⟨⟨hc, hm, hf, hargs⟩, (World.call_safe (World.soundAt W fuel) hc hm hf hargs).mono
      fun _ _ _ _ hv => List.forall_mem_singleton.2 hv⟩

end Run.Log

namespace Run

variable {log : Log}

theorem Reached.sound (h : Reached log) : log.Sound := by
  induction h with
  | start limit time => exact Log.sound_start limit time
  | step _ hstep ih => exact ih.step hstep

/-- Whatever has happened, a source text that is accepted can be run. -/
theorem Reached.executes (h : Reached log) {source : String} {tree : Tree} {r : Resolution}
    (hparse : Tree.parse source log.session.nextId = .ok tree)
    (hr : Resolution.ofProgram tree.body = .ok r) (fuel : Nat) :
    ∃ log', Reached log' ∧ log'.programs = ⟨tree.body, r.warnings⟩ :: log.programs ∧
      ⟨fuel, .program tree.body, log.session.machine.learn r.distances⟩ ∈ log'.runs :=
  ⟨_, (h.step (.prepared (Session.prepare_of_parse hparse hr))).step
    (.executed List.mem_cons_self rfl), rfl, List.mem_cons_self⟩

/-- Whatever has happened, a program that was accepted can be run again. -/
theorem Reached.execute (h : Reached log) {p : Program} (hp : p ∈ log.programs) (fuel : Nat) :
    ∃ log', Reached log' ∧ log'.session = (log.session.execute fuel p).2 :=
  ⟨_, h.step (.executed hp rfl), rfl⟩

/-- Whatever has happened, the values that the host has can be called. -/
theorem Reached.call (h : Reached log) {f : Value} {args : List Value} (hf : log.Has f)
    (hargs : ∀ v ∈ args, log.Has v) (span : Span) (fuel : Nat) :
    ∃ log', Reached log' ∧ log'.Visited [] ⟨fuel, .call f args span, log.session.machine⟩ :=
  ⟨_, h.step (.called hf hargs rfl), _, List.mem_cons_self, .start⟩

/-- Each run was ready when it started. -/
theorem Reached.ready (h : Reached log) {c : Config} (hc : c ∈ log.runs) :
    ∃ W : World, W.Le log.world ∧ W.Ready c ∧ c.machine.frame = Heap.globals :=
  h.sound.runs c hc

/-- A run comes by nothing that is not ready. -/
theorem Reached.visited (h : Reached log) {stack : List Config} {c : Config}
    (hv : log.Visited stack c) :
    ∃ W : World, W.Le (log.during stack) ∧ W.Ready c ∧
      c.machine.frame = Config.frameOf stack := by
  obtain ⟨c₀, hc₀, hv⟩ := hv
  obtain ⟨W, hle, hready, hframe⟩ := h.ready hc₀
  obtain ⟨W', hunder, hc⟩ := hready.visits hframe hv
  refine ⟨W', ⟨fun body hb => ?_, fun d hd => ?_, fun d hd => ?_⟩, hc⟩
  · rw [hunder.programs] at hb
    exact hle.programs body hb
  · rw [hunder.visited] at hd
    exact hle.visited d hd
  · exact (hunder.running d hd).elim (fun hr => (hle.running d hr).elim) id

end Run

end Lox

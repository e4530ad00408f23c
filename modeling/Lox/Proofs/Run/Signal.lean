import Lox.Proofs.Run.Log

/-!
# How far signals go

`break`, `continue` and `return` leave statements by signals, and what they leave has been checked
before the program runs.  So a signal never gets beyond what it means to leave: a loop stops the
first two, and a call all three.

    log.Visited (parent :: stack) c → c.Ends signal →
      parent.task = .program ss → signal = .next                              (Reached.signal_stops)
-/

namespace Lox.Run

open Lexical

/-- The statement, or the statements, come to an end with the signal. -/
def Config.Ends (c : Config) (signal : Signal) : Prop :=
  match c.task with
  | .stmt s => ∃ m, Eval.stmt c.fuel s c.machine = .ok signal m
  | .stmts ss => ∃ m, Eval.stmts (Eval.stmt c.fuel) ss c.machine = .ok signal m
  | _ => False

/-! ## Statements that are left -/

theorem signal_of_return {n : Nat} {s : Stmt} {value : Option Expr} (hs : s.node = .return value)
    {m m' : Machine} {signal : Signal} (h : Eval.stmt n s m = .ok signal m') :
    ∃ v, signal = .return v := by
  obtain ⟨span, node⟩ := s
  subst hs
  cases n with
  | zero => cases h
  | succ n =>
    cases value with
    | none =>
      cases h
      exact ⟨.nil, rfl⟩
    | some e =>
      obtain ⟨v, _, -, h⟩ := EStateM.bind_eq_ok.1 h
      cases h
      exact ⟨v, rfl⟩

/-- Statements among which is a `return` are not passed. -/
theorem signal_ne_next {n : Nat} {ss : List Stmt}
    (hr : ∃ s ∈ ss, ∃ value, s.node = .return value) {m m' : Machine} {signal : Signal}
    (h : Eval.stmts (Eval.stmt n) ss m = .ok signal m') : signal ≠ .next := by
  induction ss generalizing m with
  | nil => obtain ⟨_, hmem, -⟩ := hr; cases hmem
  | cons s ss ih =>
    obtain ⟨first, m₁, hfirst, hrest⟩ := EStateM.bind_eq_ok.1 h
    cases first with
    | next =>
      -- the `return` is not this statement, which has been passed
      obtain ⟨t, ht, value, hvalue⟩ := hr
      rcases List.mem_cons.1 ht with rfl | ht
      · obtain ⟨v, hv⟩ := signal_of_return hvalue hfirst
        cases hv
      · exact ih ⟨t, ht, value, hvalue⟩ hrest
    | «break» | «continue» | «return» v => cases hrest; exact nofun

theorem exists_return_of_returnsDirectly {f : Function} (h : f.returnsDirectly = true) :
    ∃ s ∈ f.body, ∃ value, s.node = .return value := by
  obtain ⟨s, hs, hreturn⟩ := List.any_eq_true.1 h
  refine ⟨s, hs, ?_⟩
  split at hreturn
  · next value hnode => exact ⟨value, hnode⟩
  · cases hreturn

/-! ## Signals where they come to an end -/

namespace World

variable {W : World} {n : Nat} {m m' : Machine} {signal : Signal}

theorem Leaves.eq_next {h : Heap} (hl : W.Leaves .topLevel h signal) : signal = .next := by
  cases signal with
  | next => rfl
  | «break» | «continue» => exact absurd rfl hl
  | «return» v => exact absurd rfl hl.1

theorem Leaves.next_or_return {c : Resolution.Context} {h : Heap} (hl : W.Leaves c h signal)
    (hc : c.loops = 0) : signal = .next ∨ ∃ v, signal = .return v := by
  cases signal with
  | next => exact .inl rfl
  | «break» | «continue» => exact absurd hc hl
  | «return» v => exact .inr ⟨v, rfl⟩

/-- A statement of a program is passed. -/
theorem Ready.program_signal {ss : List Stmt} {c : Config}
    (h : W.Ready ⟨n, .program ss, m⟩) (hcall : Calls ⟨n, .program ss, m⟩ c)
    (hs : c.Ends signal) : signal = .next := by
  obtain ⟨hc, hp⟩ := h
  cases hcall with
  | programFirst =>
    obtain ⟨m', hrun⟩ := hs
    have hfirst := (soundAt W n).stmt (hc.call .programFirst hc.refl) (hp.inside .first)
    exact (hfirst.of_ok hrun).2.1.eq_next
  | programRest => exact hs.elim

/-- A call stops all signals but `return`. -/
theorem Ready.apply_signal {f : Closure} {args : List Value} {c : Config}
    (h : W.Ready ⟨n, .apply f args, m⟩) (hcall : Calls ⟨n, .apply f args, m⟩ c)
    (hs : c.Ends signal) : signal = .next ∨ ∃ v, signal = .return v := by
  obtain ⟨hcovers, hm, hf, ha, hargs⟩ := h
  cases hcall with
  | @body n =>
    obtain ⟨m', hrun⟩ := hs
    obtain ⟨π, hc, hp, hloops⟩ := stands_body hcovers hm hf ha hargs
    exact ((stmts_safe (soundAt W n) hc hp).of_ok hrun).2.next_or_return hloops

theorem Ready.for_signal {span : Span} {init : Option Stmt} {condition step : Option Expr}
    {body : Stmt} {c : Config} (h : W.Ready ⟨n, .stmt ⟨span, .for init condition step body⟩, m⟩)
    (hcall : Calls ⟨n, .stmt ⟨span, .for init condition step body⟩, m⟩ c) (hs : c.Ends signal) :
    signal = .next := by
  obtain ⟨π, hc, hp⟩ := h
  have hwf : Stmt.WellFormed ⟨span, .for init condition step body⟩ := hp.wellFormed
  cases hcall with
  | forInit =>
    obtain ⟨m', hrun⟩ := hs
    exact signal_of_isClause ((Stmt.wellFormed_for.1 hwf).1 _ rfl).1 hrun
  | «for» => exact hs.elim

end World

theorem returnsDirectly_of_access {n : Nat} {v : Value} {m : Machine} {c : Config}
    (hcall : Calls ⟨n, .access v, m⟩ c) : ∃ f, c.task = .apply f [] ∧
      f.function.returnsDirectly = true := by
  cases hcall with
  | getter _ hr => exact ⟨_, rfl, hr⟩

theorem apply_signal_ne_next {n : Nat} {f : Closure} {args : List Value} {m : Machine} {c : Config}
    (hr : f.function.returnsDirectly = true) (hcall : Calls ⟨n, .apply f args, m⟩ c)
    {signal : Signal} (hs : c.Ends signal) : signal ≠ .next := by
  cases hcall with
  | body =>
    obtain ⟨m', hrun⟩ := hs
    exact signal_ne_next (exists_return_of_returnsDirectly hr) hrun

/-! ## Runs -/

/-- Wherever a run of accepted programs comes by statements that end well, they end with the signals
that what they are part of can stop: none at the top level and as the first clause of a `for`, only
`return` as the body of a call, and nothing else than `return` as that of a getter that is run. -/
theorem Reached.signal_stops {log : Log} {stack : List Config} {parent c : Config} {signal : Signal}
    (h : Reached log) (hv : log.Visited (parent :: stack) c) (hs : c.Ends signal) :
    (∀ ss, parent.task = .program ss → signal = .next) ∧
    (∀ f args, parent.task = .apply f args → signal = .next ∨ ∃ v, signal = .return v) ∧
    (∀ span init condition step body,
      parent.task = .stmt ⟨span, .for init condition step body⟩ → signal = .next) ∧
    (∀ f args caller rest v, parent.task = .apply f args → stack = caller :: rest →
      caller.task = .access v → ∃ w, signal = .return w) := by
  obtain ⟨hvp, hcall⟩ := hv.of_cons
  obtain ⟨W, -, hready, -⟩ := h.visited hvp
  obtain ⟨n, task, m⟩ := parent
  have happly : ∀ f args, task = .apply f args → signal = .next ∨ ∃ v, signal = .return v := by
    rintro f args rfl
    exact hready.apply_signal hcall hs
  refine ⟨?_, happly, ?_, ?_⟩
  · rintro ss ⟨⟩
    exact hready.program_signal hcall hs
  · rintro span init condition step body ⟨⟩
    exact hready.for_signal hcall hs
  · rintro f args ⟨k, task', m'⟩ rest v htask rfl htask'
    obtain rfl : task = .apply f args := htask
    obtain rfl : task' = .access v := htask'
    obtain ⟨g, hg, hr⟩ := returnsDirectly_of_access hvp.of_cons.2
    cases hg
    rcases happly f [] rfl with hnext | hreturn
    · exact absurd hnext (apply_signal_ne_next hr hcall hs)
    · exact hreturn

/-- The call of a lambda that returns. -/
theorem signal_stops_call : ∃ log stack n f m c, Reached log ∧
    log.Visited (⟨n, .apply f [], m⟩ :: stack) c ∧ c.Ends (.return .nil) ∧
    (.return .nil = Signal.next ∨ ∃ v, .return .nil = Signal.return v) := by
  let f : Function :=
    ⟨⟨"lambda", .onLine 1 4⟩, [], [⟨.onLine 10 17, .return none⟩], false, .onLine 1 19⟩
  let group : Expr := ⟨1, .onLine 0 20, .group ⟨0, .onLine 1 19, .lambda f⟩⟩
  let body : List Stmt := [⟨.onLine 0 23, .expression ⟨2, .onLine 0 22, .call group []⟩⟩]
  let m : Machine := (Machine.start none (fun _ => 0)).learn []
  have hparse : Tree.parse "(fun () { return; })();" 0 = .ok ⟨body, 3⟩ := by cbv
  have hresolve : Resolution.ofProgram body = .ok ⟨[], []⟩ := by cbv
  obtain ⟨log, hreached, -, hrun⟩ := (Reached.start none (fun _ => 0)).executes hparse hresolve 4
  have hstart : log.Visited [] ⟨4, .program body, m⟩ := ⟨_, hrun, .start⟩
  have hcallee : Eval.exprs (Eval.expr 2) [group] m =
      .ok [.function ⟨0, f, Heap.globals, .function⟩]
        { m with heap := { m.heap with closures := 1 } } := rfl
  have hexpr := (hstart.call .programFirst).call .expression
  have happly := ((hexpr.call (.act rfl hcallee)).call .call).call (.apply rfl)
  have hbody := happly.call .body
  have hends (m : Machine) : Config.Ends ⟨1, .stmts f.body, m⟩ (.return .nil) := ⟨m, rfl⟩
  exact ⟨log, _, _, _, _, _, hreached, hbody, hends _,
    (hreached.signal_stops hbody (hends _)).2.1 _ _ rfl⟩

end Lox.Run

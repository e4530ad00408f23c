import Lox.Proofs.Rename.Run
import Lox.Proofs.Rename.Walk

/-!
# Renaming a local changes nothing

A program that a session has accepted and the one in which a local variable or a parameter has
another name, which occurs nowhere in it, are resolved to one table of distances, and executed in
whatever state the session is they print the same and end alike.  Nothing that was there before has
been renamed, so at its start each run finds in the session what the other finds:

    W.Sound m → m.Renamed ρ (planOf m.heap) Heap.globals m                         (renamed_start)
-/

namespace Lox

open Lexical Run

/-! ## What a session has -/

namespace Renaming

variable {ρ σ : Renaming} {body : List Stmt}

/-- No frame that is there belongs to a scope of the local. -/
def planOf (h : Heap) : Plan := h.frames.toList.map fun f => (f.enclosing, false)

theorem getElem?_planOf (h : Heap) (i : Nat) :
    (planOf h)[i]? = h.frames[i]?.map fun f => (f.enclosing, false) := by
  rw [planOf, List.getElem?_map, Array.getElem?_toList]

/-- The frames of a place are those of scopes that the local does not belong to. -/
theorem reaches_planOf {W : World} {h : Heap} {os : List Opening} {g : FrameId}
    (hc : W.Chain h os g) (context : Resolution.Context) :
    (planOf h).Reaches (ρ.still.flags ⟨os, context⟩) g := by
  induction os generalizing g with
  | nil => exact hc
  | cons o os ih =>
    obtain ⟨outer, ha, hrest⟩ := hc
    refine ⟨outer, ?_, ih hrest⟩
    show (planOf h)[g.index]? = some (some outer, ρ.still.owns o.site.locals)
    rw [owns_still, getElem?_planOf]
    have henclosing := ha.enclosing
    unfold Heap.enclosing? at henclosing
    cases hf : h.frames[g.index]? with
    | none => simp [hf] at henclosing
    | some f => simpa [hf] using henclosing

section Start

variable {W : World} {m : Machine} (hm : W.Sound m)
  (hhops : ∀ id : ExprId, m.distances[id]? = ρ.hops id)

include hm hhops

/-- What a machine knows of a program that has been told it. -/
theorem translates_of_sound (hb : W.programs body) : Translates ρ ρ.still body :=
  translates_still fun ho => (hhops _).symm.trans (hm.knows ⟨body, hb, ho⟩)

theorem Closure.renamed_of_callable {f : Closure} (hf : W.Callable m.heap f) :
    f.Renamed ρ [] (planOf m.heap) f := by
  obtain ⟨π, ⟨body, hb, ho⟩, hc⟩ := hf
  have hcode : Function.Translated ρ (ρ.still.flags π) f.function
      (ρ.still.function (ρ.still.flags π) f.function) :=
    ⟨translates_of_sound hm hhops hb, ho⟩
  rw [function_still] at hcode
  exact ⟨rfl, rfl, rfl, _, reaches_planOf hc π.context, hcode⟩

theorem Closure.renamed_of_method {f : Closure} (hf : W.Method m.heap f) :
    f.Renamed ρ [false] (planOf m.heap) f := by
  obtain ⟨π, ⟨body, hb, ho⟩, hc⟩ := hf
  have hcode : Function.Translated ρ (ρ.still.flags (π.inReceiver f.function)) f.function
      (ρ.still.function (ρ.still.flags (π.inReceiver f.function)) f.function) :=
    ⟨translates_of_sound hm hhops hb, ho⟩
  rw [function_still] at hcode
  exact ⟨rfl, rfl, rfl, _, reaches_planOf hc π.context, hcode⟩

theorem Value.renamed_of_ok {v : Value} (hv : W.Ok m.heap v) :
    v.Renamed ρ (planOf m.heap) v := by
  cases v with
  | function f => exact .function (Closure.renamed_of_callable hm hhops (hv f rfl))
  | _ => exact .same rfl

/-- A machine that has nothing of the renamed program yet, beside itself. -/
theorem renamed_start (hplain : Name.Plain ρ.name ∧ Name.Plain ρ.fresh)
    (hframe : m.frame = Heap.globals) : m.Renamed ρ (planOf m.heap) Heap.globals m where
  heap := {
    hm.heap.related (fun _ => Value.renamed_of_ok hm hhops)
      fun _ => Closure.renamed_of_method hm hhops with
    plain := hplain
    size := (List.length_map _).symm
    size' := (List.length_map _).symm
    frames := by
      intro i e he
      rw [getElem?_planOf] at he
      obtain ⟨f, hf, rfl⟩ := Option.map_eq_some_iff.1 he
      refine ⟨f, f, hf, hf, rfl, rfl, fun {name name'} hn => ?_⟩
      obtain rfl : name' = name := hn.eq.trans (rename_false name)
      cases hv : f.bindings.find? name' with
      | none => exact .none
      | some v =>
        have hv : m.heap.getIn? ⟨i⟩ name' = some v := by simp only [Heap.getIn?, hf, hv]
        exact .some (Value.renamed_of_ok hm hhops (hm.heap.bindings _ _ _ hv))
    globals := by
      rw [getElem?_planOf]
      cases hf : m.heap.frames[Heap.globals.index]? with
      | none => exact absurd hm.globals (Nat.not_lt.2 (Array.getElem?_eq_none_iff.1 hf))
      | some f => exact ⟨f.enclosing, rfl⟩ }
  frame := hframe
  frame' := hframe
  distances := hhops
  distances' := hhops
  output := rfl
  time := rfl

end Start

end Renaming

/-! ## Outcomes -/

/-- Both are done, both run out of fuel, or both fail by an error of one kind at one place. -/
inductive Outcome.Renamed (ρ : Renaming) : Outcome Unit → Outcome Unit → Prop
  | done : Outcome.Renamed ρ (.done ()) (.done ())
  | failed {e e' : RuntimeError} : e.Renamed ρ e' →
      Outcome.Renamed ρ (.failed (.runtime e)) (.failed (.runtime e'))
  | outOfFuel : Outcome.Renamed ρ .outOfFuel .outOfFuel

/-- What errors tell has nothing to do with distances. -/
theorem RuntimeErrorKind.Renamed.of_hops {ρ : Renaming} {hops : ExprId → Option Nat}
    {kind kind' : RuntimeErrorKind} (h : kind.Renamed { ρ with hops := hops } kind') :
    kind.Renamed ρ kind' := by
  cases h with
  | same kind => exact .same kind
  | undefinedVariable own name => exact .undefinedVariable own name
  | notATrait own name => exact .notATrait own name

/-- Evaluations that end alike have such outcomes, and the same output. -/
theorem Renaming.Ends.evaluate {ρ : Renaming} {hops : ExprId → Option Nat} {P : Plan} {F : FrameId}
    {x x' : Eval Unit} {s : Session}
    (h : { ρ with hops := hops }.Ends P F (fun _ => Eq) (x s.machine) (x' s.machine)) :
    Outcome.Renamed ρ (s.evaluate x).1 (s.evaluate x').1 ∧
      (s.evaluate x).2.machine.output = (s.evaluate x').2.machine.output := by
  obtain ⟨m, nextId⟩ := s
  simp only [Session.evaluate]
  dsimp only at h
  generalize x m = r at h
  generalize x' m = r' at h
  cases h with
  | ok _ hm _ => exact ⟨.done, hm.output⟩
  | error hstop houtput =>
    cases hstop with
    | error he => exact ⟨.failed ⟨he.span, he.kind.of_hops⟩, houtput⟩
    | outOfFuel => exact ⟨.outOfFuel, houtput⟩

namespace Run

/-- The program in which the local has its other name is accepted with the same distances, which are
all that a machine is told of a program.  In whatever state a session is that has been told them, it
prints what the program prints and ends as the program does. -/
theorem Reached.local_renamed {log : Log} (h : Reached log) {p : Program} (hp : p ∈ log.programs)
    {r : Resolution} (hr : Resolution.ofProgram p.body = .ok r) {decl : Identifier}
    (hl : IsLocal p.body decl) {fresh : String} (hplain : Name.Plain fresh)
    (hfresh : fresh ∉ Stmt.namesOf p.body) :
    let ρ := Renaming.ofLocal decl fresh r
    ∃ r', Resolution.ofProgram (ρ.program p.body) = .ok r' ∧ r'.distances = r.distances ∧
      List.Forall₂ (Warning.Renamed ρ) r.warnings r'.warnings ∧ ∀ fuel,
        let ran := log.session.execute fuel p
        let ran' := log.session.execute fuel ⟨ρ.program p.body, r'.warnings⟩
        Outcome.Renamed ρ ran.1 ran'.1 ∧ ran.2.machine.output = ran'.2.machine.output := by
  intro ρ
  have hlog := h.sound
  have hbody := hlog.accepted p hp
  have hρ : ρ.Sound p.body :=
    Renaming.sound_ofLocal hbody.2.1 (hlog.distinct p hp) hr hl hplain hfresh
  obtain ⟨r', hr', hdistances, hwarnings⟩ := Resolution.ofProgram_renamed hρ hr
  refine ⟨r', hr', hdistances, hwarnings, fun fuel => ?_⟩
  let known (id : ExprId) : Option Nat := log.session.machine.distances[id]?
  have htranslates : Renaming.Translates { ρ with hops := known } ρ p.body :=
    hρ.translates fun ho => hlog.machine.knows ⟨p.body, hbody, ho⟩
  have hstart := Renaming.renamed_start (ρ := { ρ with hops := known }) hlog.machine
    (fun _ => rfl) hρ.plain hlog.frame
  have hruns : Renaming.Runs { ρ with hops := known } ρ (Renaming.planOf log.session.machine.heap)
      Heap.globals (ρ.flags .program) (.stmts p.body) := .mk htranslates .program rfl
  exact (Renaming.agree_program fuel hruns _ _ hstart).evaluate

/-- In `{ var x; print x; }` the variable may as well be `y`. -/
theorem local_renamed_block : ∃ log p r, Reached log ∧ p ∈ log.programs ∧
    Resolution.ofProgram p.body = .ok r ∧ IsLocal p.body ⟨"x", .onLine 6 7⟩ ∧
    Name.Plain "y" ∧ "y" ∉ Stmt.namesOf p.body ∧
    let ρ := Renaming.ofLocal ⟨"x", .onLine 6 7⟩ "y" r
    ρ.program p.body = [⟨.onLine 0 19, .block [⟨.onLine 2 8, .varDecl ⟨"y", .onLine 6 7⟩ none⟩,
      ⟨.onLine 9 17, .print ⟨0, .onLine 15 16, .variable ⟨"y", .onLine 15 16⟩⟩⟩]⟩] ∧
    ∀ fuel, ∃ warnings,
      (log.session.execute fuel p).2.machine.output =
        (log.session.execute fuel ⟨ρ.program p.body, warnings⟩).2.machine.output := by
  let declaration : Stmt := ⟨.onLine 2 8, .varDecl ⟨"x", .onLine 6 7⟩ none⟩
  let use : Stmt := ⟨.onLine 9 17, .print ⟨0, .onLine 15 16, .variable ⟨"x", .onLine 15 16⟩⟩⟩
  let body : List Stmt := [⟨.onLine 0 19, .block [declaration, use]⟩]
  have hparse : Tree.parse "{ var x; print x; }" 0 = .ok ⟨body, 1⟩ := by cbv
  have hresolve : Resolution.ofProgram body = .ok ⟨[(0, 0)], []⟩ := by cbv
  have hreached : Reached _ :=
    (Reached.start none (fun _ => 0)).step (.prepared (Session.prepare_of_parse hparse hresolve))
  have hlocal : IsLocal body ⟨"x", .onLine 6 7⟩ :=
    ⟨_, _, Occurs.program.inside .first, List.mem_cons_self⟩
  have hfresh : "y" ∉ Stmt.namesOf body := by decide
  have hplain : Name.Plain "y" := by unfold Name.Plain; decide
  obtain ⟨r', -, -, -, hran⟩ :=
    hreached.local_renamed List.mem_cons_self hresolve hlocal hplain hfresh
  exact ⟨_, ⟨body, []⟩, _, hreached, List.mem_cons_self, hresolve, hlocal, hplain, hfresh, rfl,
    fun fuel => ⟨r'.warnings, (hran fuel).2⟩⟩

end Run

end Lox

import Lox.Proofs.Session.Host

/-!
# Programs that do not disturb each other

The expressions of every text that a session reads get identities of their own, so what the machine
learns of one program is never about another.  That is why a program can be executed whenever and as
often as the host likes, as if its text were run just then, and why a request that comes to nothing
can as well be left out.

    h.Idle r later → (h.reports (r :: later)).tail = h.reports later                  (reports_idle)
-/

namespace Lox

variable {L : Likeness}

/-! ## Identities -/

/-- A tree that a text has been read as, and the first identity that was free for it. -/
structure Reading where
  first : ExprId
  tree : Tree

def Request.source? : Request → Option String
  | .prepare _ source | .run source _ => some source
  | .execute _ _ => none

namespace Session

/-- Running a text goes on from where preparing it has got. -/
theorem le_run_of_prepare (s : Session) (fuel : Nat) (source : String) :
    (s.prepare source).2.Le (s.run fuel source).2 ∧
      (s.run fuel source).2.nextId = (s.prepare source).2.nextId := by
  cases hp : s.prepare source with
  | mk result s₁ =>
    cases result with
    | error f =>
      rw [run_of_error hp]
      exact ⟨.refl s₁, rfl⟩
    | ok p =>
      rw [run_of_prepare hp]
      exact ⟨s₁.le_execute fuel p, s₁.nextId_evaluate _⟩

theorem le_run (s : Session) (fuel : Nat) (source : String) : s.Le (s.run fuel source).2 :=
  (s.le_prepare source).trans (s.le_run_of_prepare fuel source).1

end Session

namespace Host

/-- The tree that is read to serve a request, if one is. -/
def reading? (h : Host) (r : Request) : Option Reading :=
  r.source?.bind fun source =>
    (Tree.parse source h.session.nextId).toOption.map (⟨h.session.nextId, ·⟩)

/-- The trees that are read to serve requests one after another. -/
def readings : Host → List Request → List Reading
  | _, [] => []
  | h, r :: rs => (h.reading? r).toList ++ (h.serve r).2.readings rs

theorem le_serve (h : Host) (r : Request) : h.session.Le (h.serve r).2.session := by
  cases r with
  | prepare label source =>
    have hle := h.session.le_prepare source
    unfold serve
    dsimp only
    cases hp : h.session.prepare source with
    | mk result s =>
      rw [hp] at hle
      cases result <;> exact hle
  | execute label fuel =>
    unfold serve
    dsimp only
    cases h.programs.find? label with
    | none => exact .refl _
    | some k => exact h.session.le_execute fuel k.program
  | run source fuel => exact h.session.le_run fuel source

/-- What has been read has got identities from the first free one on up to the next. -/
theorem reading?_eq_some {h : Host} {r : Request} {t : Reading} (ht : h.reading? r = some t) :
    t.first = h.session.nextId ∧ Fresh t.first t.tree.nextId (Stmt.idsOf t.tree.body) ∧
      (h.serve r).2.session.nextId = t.tree.nextId := by
  obtain ⟨source, hsource, ht⟩ := Option.bind_eq_some_iff.1 ht
  obtain ⟨tree, htree, rfl⟩ := Option.map_eq_some_iff.1 ht
  cases hparse : Tree.parse source h.session.nextId with
  | error errors => rw [hparse] at htree; cases htree
  | ok t =>
    rw [hparse] at htree
    cases htree
    have hnext := (h.session.nextId_prepare source).1 tree hparse
    refine ⟨rfl, (fresh_of_parse hparse).2, ?_⟩
    cases r with
    | execute label fuel => cases hsource
    | run source fuel =>
      cases hsource
      exact (h.session.le_run_of_prepare fuel source).2.trans hnext
    | prepare label source =>
      cases hsource
      rw [← hnext]
      unfold serve
      dsimp only
      cases h.session.prepare source with
      | mk result s => cases result <;> rfl

theorem readings_apart (h : Host) (rs : List Request) :
    (∀ t ∈ h.readings rs, h.session.nextId ≤ t.first ∧
      Fresh t.first t.tree.nextId (Stmt.idsOf t.tree.body)) ∧
    (h.readings rs).Pairwise fun t t' => t.tree.nextId ≤ t'.first := by
  induction rs generalizing h with
  | nil => exact ⟨List.forall_mem_nil _, .nil⟩
  | cons r rs ih =>
    obtain ⟨hrest, hpairwise⟩ := ih (h.serve r).2
    have hle := (h.le_serve r).nextId
    rw [readings]
    cases ht : h.reading? r with
    | none => exact ⟨fun t ht => ⟨Nat.le_trans hle (hrest t ht).1, (hrest t ht).2⟩, hpairwise⟩
    | some t =>
      obtain ⟨hfirst, hfresh, hnext⟩ := reading?_eq_some ht
      refine ⟨List.forall_mem_cons.2 ⟨⟨Nat.le_of_eq hfirst.symm, hfresh⟩, fun t ht =>
        ⟨Nat.le_trans hle (hrest t ht).1, (hrest t ht).2⟩⟩, .cons (fun t' ht' => ?_) hpairwise⟩
      rw [← hnext]
      exact (hrest t' ht').1

end Host

/-! ## Programs that are kept -/

namespace Session

/-- The session has prepared the program some time and knows its locals. -/
def Has (s : Session) (k : Prepared) : Prop :=
  ∃ n t r, Tree.parse k.source n = .ok t ∧ Resolution.ofProgram t.body = .ok r ∧
    k.program = ⟨t.body, r.warnings⟩ ∧ t.nextId ≤ s.nextId ∧
    ∀ id, n ≤ id → id < t.nextId → ∀ hops,
      s.machine.distances[id]? = some hops ↔ (id, hops) ∈ r.distances

theorem Has.later {s s' : Session} {k : Prepared} (h : s.Has k) (hle : s.Le s') : s'.Has k := by
  obtain ⟨n, t, r, ht, hr, hp, hn, hknown⟩ := h
  refine ⟨n, t, r, ht, hr, hp, Nat.le_trans hn hle.nextId, fun id hlo hhi hops => ?_⟩
  rw [hle.distances id (Nat.lt_of_lt_of_le hhi hn)]
  exact hknown id hlo hhi hops

theorem has_of_prepare {s s' : Session} (hs : s.Numbered) {source : String} {p : Program}
    (h : s.prepare source = (.ok p, s')) : s'.Has ⟨source, p⟩ := by
  obtain ⟨t, r, ht, hr, -, rfl⟩ := prepare_eq_ok h
  rw [prepare_of_parse ht hr] at h
  cases h
  exact ⟨s.nextId, t, r, ht, hr, rfl, Nat.le_refl _, fun id hlo _ hops =>
    hs.learnt ht hr hlo hops⟩

/-- The text of a program that is kept is prepared again as a program like it. -/
theorem Alike.again {s : Session} (hs : s.Alike L s) (hspan : ∀ a, L.span a a) {k : Prepared}
    (hk : s.Has k) : ∃ L' p s', L.Grows L' ∧ s.prepare k.source = (.ok p, s') ∧
      k.program.Alike L' p ∧ s.Alike L' s' := by
  obtain ⟨n, t, r, ht, hr, hp, hn, hknown⟩ := hk
  obtain ⟨t', r', ht', hr', htree, huses, hwarnings⟩ := counted_again ht hr s.nextId
  refine ⟨_, _, _, L.grows_counting n s.nextId t.nextId, prepare_of_parse ht' hr', ?_, ?_⟩
  · rw [hp]
    exact ⟨Stmt.Alike.imps htree.body (Likeness.covers_counting hspan (fresh_of_parse ht).2),
      hwarnings⟩
  refine hs.counting (.refl s) (le_learn ht' hr') rfl rfl hs.numbered (hs.numbered.learn ht' hr')
    fun j hj => ⟨Nat.lt_of_lt_of_le hj hn, htree.lt_nextId hj, ?_⟩
  exact known_eq huses (hknown _ (Nat.le_add_right _ _) hj)
    (hs.numbered.learnt ht' hr' (Nat.le_add_right _ _))

end Session

namespace Host

/-- Whatever has been served, the host is like itself. -/
theorem alike_after (limit : Option Nat) (time : Nat → Float) (rs : List Request) :
    ∃ S, ((start limit time).after rs).Alike ⟨S, Eq⟩ none ((start limit time).after rs) := by
  obtain ⟨⟨S, _⟩, ⟨-, hL⟩, -, stale, hnone, hafter⟩ :=
    (alike_start Eq limit time).reports (fun _ => rfl) rs nofun
  cases hL
  rw [hnone rfl] at hafter
  exact ⟨S, hafter⟩

theorem has_serve {h : Host} (hn : h.session.Numbered)
    (hh : ∀ label k, h.programs.find? label = some k → h.session.Has k) (r : Request)
    (label : String) (k : Prepared) (hk : (h.serve r).2.programs.find? label = some k) :
    (h.serve r).2.session.Has k := by
  have hle := h.le_serve r
  have hold (hk : h.programs.find? label = some k) : (h.serve r).2.session.Has k :=
    (hh label k hk).later hle
  cases r with
  | run source fuel => exact hold hk
  | execute other fuel =>
    unfold serve at hk
    dsimp only at hk
    cases hf : h.programs.find? other with
    | none => rw [hf] at hk; exact hold hk
    | some k' => rw [hf] at hk; exact hold hk
  | prepare other source =>
    cases hp : h.session.prepare source with
    | mk result s =>
      simp only [serve, hp] at hk hold ⊢
      cases result with
      | error f => exact hold hk
      | ok p =>
        dsimp only at hk hold ⊢
        rw [Table.find?_insert] at hk
        split at hk
        · cases hk
          exact Session.has_of_prepare hn hp
        · exact hold hk

/-- What is kept has been prepared. -/
theorem has_after (limit : Option Nat) (time : Nat → Float) (rs : List Request) (label : String)
    (k : Prepared) (hk : ((start limit time).after rs).programs.find? label = some k) :
    ((start limit time).after rs).session.Has k := by
  induction rs using List.reverseRecOn generalizing label k with
  | nil => cases hk
  | append_singleton rs r ih =>
    rw [after_append] at hk ⊢
    obtain ⟨S, hh⟩ := alike_after limit time rs
    exact has_serve hh.session.numbered ih r label k hk

/-! ## Requests that can be left out -/

/-- A request that comes to nothing: its text is not accepted, or its program is never executed. -/
inductive Idle (h : Host) (later : List Request) : Request → Prop
  | notPrepared {label source : String} : h.Rejects source → Idle h later (.prepare label source)
  | notRun {source : String} {fuel : Nat} : h.Rejects source → Idle h later (.run source fuel)
  | notExecuted {label source : String} :
      Unused label (h.serve (.prepare label source)).2 later →
      Idle h later (.prepare label source)

theorem serve_of_rejects {h : Host} {source : String} (hr : h.Rejects source) :
    (∀ label, (h.serve (.prepare label source)).2 =
      { h with session := (h.session.prepare source).2 }) ∧
    ∀ fuel, (h.serve (.run source fuel)).2 =
      { h with session := (h.session.prepare source).2 } := by
  obtain ⟨f, hf⟩ := hr
  cases hp : h.session.prepare source with
  | mk result s =>
    rw [hp] at hf
    cases hf
    constructor
    · intro label
      simp only [serve, hp]
    · intro fuel
      simp only [serve, Session.run_of_error hp]

/-- Behind a request that comes to nothing a host is like one that has not got it. -/
theorem Alike.idle {S : ExprId → ExprId → Prop} {h : Host} (hh : h.Alike ⟨S, Eq⟩ none h)
    {r : Request} {later : List Request} (hr : h.Idle later r) :
    ∃ S' stale, (h.serve r).2.Alike ⟨S', Eq⟩ stale h ∧
      ∀ label, stale = some label → Unused label (h.serve r).2 later := by
  cases hr with
  | @notPrepared label source hrejects =>
    obtain ⟨⟨S', _⟩, hL, hs⟩ := hh.session.prepareLeft source
    obtain rfl := hL.span
    rw [(serve_of_rejects hrejects).1]
    exact ⟨S', none, hh.withSession hL hs, nofun⟩
  | @notRun source fuel hrejects =>
    obtain ⟨⟨S', _⟩, hL, hs⟩ := hh.session.prepareLeft source
    obtain rfl := hL.span
    rw [(serve_of_rejects hrejects).2]
    exact ⟨S', none, hh.withSession hL hs, nofun⟩
  | @notExecuted label source hunused =>
    obtain ⟨⟨S', _⟩, hL, hs⟩ := hh.session.prepareLeft source
    obtain rfl := hL.span
    refine ⟨S', some label, ?_, fun _ heq => Option.some.inj heq ▸ hunused⟩
    have hkept := hh.withSession hL hs
    cases hp : h.session.prepare source with
    | mk result s =>
      rw [hp] at hkept
      unfold Host.serve
      dsimp only
      rw [hp]
      cases result with
      | error f => exact ⟨hkept.session, fun other _ => hkept.programs other nofun⟩
      | ok p =>
        refine ⟨hkept.session, fun other hother => ?_⟩
        dsimp only
        rw [Table.find?_insert, if_neg fun heq => hother (congrArg some heq)]
        exact hkept.programs other nofun

theorem reports_idle {S : ExprId → ExprId → Prop} {h : Host} (hh : h.Alike ⟨S, Eq⟩ none h)
    {r : Request} {later : List Request} (hr : h.Idle later r) :
    (h.serve r).2.reports later = h.reports later := by
  obtain ⟨S', stale, hserved, hstale⟩ := hh.idle hr
  exact hserved.reports_eq later hstale

/-- To execute a program comes to the same as to run its text. -/
theorem reports_execute {S : ExprId → ExprId → Prop} {h : Host} (hh : h.Alike ⟨S, Eq⟩ none h)
    {label : String} {k : Prepared} (hk : h.programs.find? label = some k)
    (hhas : h.session.Has k) (fuel : Nat) (later : List Request) :
    ∃ outcome output reports,
      h.reports (.execute label fuel :: later) = ⟨.executed outcome, output⟩ :: reports ∧
      h.reports (.run k.source fuel :: later) =
        ⟨.ran (outcome.map fun _ => k.program.warnings), output⟩ :: reports := by
  obtain ⟨⟨S', _⟩, p, s', hL, hprepare, hp, hs⟩ := hh.session.again (fun _ => rfl) hhas
  obtain rfl := hL.span
  obtain ⟨houtcome, hsession⟩ := hs.execute hp fuel
  have hexecute : h.serve (.execute label fuel) =
      (.executed (h.session.execute fuel k.program).1,
        { h with session := (h.session.execute fuel k.program).2 }) := by
    simp only [serve, hk]
  have hrun : h.serve (.run k.source fuel) =
      (.ran ((s'.execute fuel p).1.map fun _ => p.warnings),
        { h with session := (s'.execute fuel p).2 }) := by
    simp only [serve, Session.run_of_prepare hprepare]
  have heq := (hh.withSession hL hsession).reports_eq later nofun
  refine ⟨(h.session.execute fuel k.program).1,
    (h.session.execute fuel k.program).2.machine.output,
    reports { h with session := (h.session.execute fuel k.program).2 } later, ?_, ?_⟩
  · rw [Host.reports, report, hexecute]
  · rw [Host.reports, report, hrun, houtcome.eq, hp.warnings, heq, hsession.machine.output]

/-! ## Whole sessions -/

/-- In a session of any requests, each text that is read gets identities of its own, and the machine
is never told again of an expression that it knows.  So a request that comes to nothing can be left
out, and a program that is kept can be executed at any time instead of running its text: no other
report changes. -/
theorem programs_undisturbed (limit : Option Nat) (time : Nat → Float) (before : List Request) :
    (((start limit time).readings before).Pairwise fun t t' =>
      (Stmt.idsOf t.tree.body).Disjoint (Stmt.idsOf t'.tree.body)) ∧
    (∀ t ∈ (start limit time).readings before, (Stmt.idsOf t.tree.body).Nodup ∧
      ∀ id ∈ Stmt.idsOf t.tree.body, t.first ≤ id ∧ id < t.tree.nextId) ∧
    (∀ source t r, Tree.parse source ((start limit time).after before).session.nextId = .ok t →
      Resolution.ofProgram t.body = .ok r → (r.distances.map Prod.fst).Nodup ∧
        ∀ id ∈ r.distances.map Prod.fst,
          ((start limit time).after before).session.machine.distances[id]? = none) ∧
    (∀ r later, ((start limit time).after before).Idle later r →
      ((start limit time).reports (before ++ r :: later)).eraseIdx before.length =
        (start limit time).reports (before ++ later)) ∧
    ∀ label k fuel later, ((start limit time).after before).programs.find? label = some k →
      ∃ outcome output reports,
        (start limit time).reports (before ++ .execute label fuel :: later) =
          (start limit time).reports before ++ ⟨.executed outcome, output⟩ :: reports ∧
        (start limit time).reports (before ++ .run k.source fuel :: later) =
          (start limit time).reports before ++
            ⟨.ran (outcome.map fun _ => k.program.warnings), output⟩ :: reports := by
  obtain ⟨hreadings, hapart⟩ := readings_apart (start limit time) before
  obtain ⟨S, hh⟩ := alike_after limit time before
  refine ⟨?_, fun t ht => (hreadings t ht).2, fun source t r ht hr => ?_, fun r later hr => ?_,
    fun label k fuel later hk => ?_⟩
  · refine hapart.imp_of_mem fun {t t'} ht ht' hle id hid hid' => ?_
    have hbelow := ((hreadings t ht).2.2 id hid).2
    have habove := ((hreadings t' ht').2.2 id hid').1
    exact absurd (Nat.lt_of_lt_of_le hbelow hle) (Nat.not_lt.2 habove)
  · obtain ⟨-, hf⟩ := fresh_of_parse ht
    refine ⟨Lexical.nodup_distances hr hf.1, fun id hid => ?_⟩
    refine Option.eq_none_iff_forall_ne_some.2 fun hops hknown => ?_
    have hbelow := hh.session.numbered id hops hknown
    have habove := (hf.2 id (Lexical.mem_idsOf_of_mem_distances hr hid)).1
    exact absurd hbelow (Nat.not_lt.2 habove)
  · have hlength := length_reports (start limit time) before
    rw [reports_append, reports_append, reports, ← hlength,
      List.eraseIdx_append_of_length_le (Nat.le_refl _), Nat.sub_self, List.eraseIdx_cons_zero,
      reports_idle hh hr]
  · obtain ⟨outcome, output, reports, hexecute, hrun⟩ :=
      reports_execute hh hk (has_after limit time before label k hk) fuel later
    exact ⟨outcome, output, reports, by rw [reports_append, hexecute],
      by rw [reports_append, hrun]⟩

/-- A program with a local, which the machine knows the distance of. -/
def localProgram : String := "{ var x = true; print x; }"

/-- A program that is prepared and then executed or run, twice.  Another one with a local that is
prepared in between, and a text that is not accepted, can as well be left out. -/
theorem programs_undisturbed_local : ∃ k outcome output reports,
    ((start none fun _ => 0).after [.prepare "a" localProgram]).programs.find? "a" = some k ∧
    ((start none fun _ => 0).after [.prepare "a" localProgram]).session.machine.distances[1]? =
      some 0 ∧
    ((start none fun _ => 0).reports
      [.prepare "a" localProgram, .prepare "b" "{ var y; y; }", .execute "a" 4]).eraseIdx 1 =
        (start none fun _ => 0).reports [.prepare "a" localProgram, .execute "a" 4] ∧
    ((start none fun _ => 0).reports
      [.prepare "a" localProgram, .run "return nil;" 4, .execute "a" 4]).eraseIdx 1 =
        (start none fun _ => 0).reports [.prepare "a" localProgram, .execute "a" 4] ∧
    (start none fun _ => 0).reports
      [.prepare "a" localProgram, .execute "a" 4, .execute "a" 4] =
        (start none fun _ => 0).reports [.prepare "a" localProgram] ++
          ⟨.executed outcome, output⟩ :: reports ∧
    (start none fun _ => 0).reports
      [.prepare "a" localProgram, .run k.source 4, .execute "a" 4] =
        (start none fun _ => 0).reports [.prepare "a" localProgram] ++
          ⟨.ran (outcome.map fun _ => k.program.warnings), output⟩ :: reports ∧
    ((start none fun _ => 0).reports
      [.prepare "a" localProgram, .run localProgram 4, .execute "a" 4]).map (·.output.written) =
        ["".toUTF8, "true\n".toUTF8, "true\ntrue\n".toUTF8] := by
  obtain ⟨ss, hkept⟩ : ∃ ss, ((start none fun _ => 0).after
    [.prepare "a" localProgram]).programs.find? "a" = some ⟨localProgram, ss, []⟩ := ⟨_, by cbv⟩
  have hrejects : ((start none fun _ => 0).after [.prepare "a" localProgram]).Rejects
    "return nil;" := ⟨_, by cbv⟩
  have hunused : Unused "b" (((start none fun _ => 0).after [.prepare "a" localProgram]).serve
      (.prepare "b" "{ var y; y; }")).2 [.execute "a" 4] :=
    .cons (fun fuel => by simp) .nil
  obtain ⟨-, -, -, hidle, hexecute⟩ :=
    programs_undisturbed none (fun _ => 0) [.prepare "a" localProgram]
  obtain ⟨outcome, output, reports, hexecuted, hran⟩ := hexecute "a" _ 4 [.execute "a" 4] hkept
  refine ⟨_, outcome, output, reports, hkept, ?_, hidle _ _ (.notExecuted hunused),
    hidle _ _ (.notRun hrejects), hexecuted, hran, ?_⟩
  · cbv
  · cbv

end Host

end Lox

import Lox.Proofs.Alike.Session

/-!
# Hosts

A host asks a session to prepare texts, to execute the programs that it keeps and to run texts, in
any order.  For each request it gets an answer, and it sees what has been printed.  Hosts whose
sessions are alike and which keep programs that are alike get answers that are alike to the same
requests; a program that no request executes any more need not be.

    h.Alike L none h' → ∃ L', L.Grows L' ∧
      List.Forall₂ (Report.Alike L') (h.reports rs) (h'.reports rs)                        (reports)
-/

namespace Lox

/-! ## Requests and reports -/

inductive Request
  /-- To prepare a text and to keep the program, if it is one, under a label. -/
  | prepare (label source : String)
  /-- To execute the program that is kept under a label. -/
  | execute (label : String) (fuel : Nat)
  | run (source : String) (fuel : Nat)

inductive Answer
  | prepared (result : Except Failure (List Warning))
  | executed (outcome : Outcome Unit)
  | ran (outcome : Outcome (List Warning))
  /-- No program is kept under the label. -/
  | unknown

/-- The answer to a request, and all that has been printed until then. -/
structure Report where
  answer : Answer
  output : Output

/-- A program, and the text that it is the program of. -/
structure Prepared where
  source : String
  program : Program

/-- A session, and the programs that are kept for it under labels. -/
structure Host where
  session : Session
  programs : Table Prepared

namespace Host

def start (limit : Option Nat) (time : Nat → Float) : Host := ⟨.start limit time, ∅⟩

/-- The answer to a request, and the host behind it. -/
def serve (h : Host) : Request → Answer × Host
  | .prepare label source =>
    match h.session.prepare source with
    | (.ok p, s) => (.prepared (.ok p.warnings), ⟨s, h.programs.insert label ⟨source, p⟩⟩)
    | (.error f, s) => (.prepared (.error f), { h with session := s })
  | .execute label fuel =>
    match h.programs.find? label with
    | some k =>
      let (outcome, s) := h.session.execute fuel k.program
      (.executed outcome, { h with session := s })
    | none => (.unknown, h)
  | .run source fuel =>
    let (outcome, s) := h.session.run fuel source
    (.ran outcome, { h with session := s })

/-- The report on a request. -/
def report (h : Host) (r : Request) : Report :=
  ⟨(h.serve r).1, (h.serve r).2.session.machine.output⟩

/-- The host behind requests that are served one after another. -/
def after (h : Host) (rs : List Request) : Host := rs.foldl (fun h r => (h.serve r).2) h

/-- The reports on requests that are served one after another. -/
def reports : Host → List Request → List Report
  | _, [] => []
  | h, r :: rs => h.report r :: (h.serve r).2.reports rs

/-- What a host can come to. -/
def Reached (h : Host) : Prop := ∃ limit time rs, h = (start limit time).after rs

theorem after_append (h : Host) (rs rs' : List Request) :
    h.after (rs ++ rs') = (h.after rs).after rs' := List.foldl_append

theorem reports_append (h : Host) (rs rs' : List Request) :
    h.reports (rs ++ rs') = h.reports rs ++ (h.after rs).reports rs' := by
  induction rs generalizing h with
  | nil => rfl
  | cons r rs ih => exact congrArg (_ :: ·) (ih _)

theorem length_reports (h : Host) (rs : List Request) : (h.reports rs).length = rs.length := by
  induction rs generalizing h with
  | nil => rfl
  | cons r rs ih => exact congrArg (· + 1) (ih _)

/-! ## Programs that are not executed any more -/

/-- The text is not accepted. -/
def Rejects (h : Host) (source : String) : Prop := ∃ f, (h.session.prepare source).1 = .error f

/-- The program under a label is not executed before the label is given to another one. -/
inductive Unused (label : String) : Host → List Request → Prop
  | nil {h : Host} : Unused label h []
  | replaced {h : Host} {source : String} {rs : List Request} :
      ¬ h.Rejects source → Unused label h (.prepare label source :: rs)
  | cons {h : Host} {r : Request} {rs : List Request} :
      (∀ fuel, r ≠ .execute label fuel) → Unused label (h.serve r).2 rs →
      Unused label h (r :: rs)

end Host

/-! ## Hosts that are alike -/

variable {L L' : Likeness}

inductive Answer.Alike (L : Likeness) : Answer → Answer → Prop
  | prepared (result : Except Failure (List Warning)) :
      Answer.Alike L (.prepared result) (.prepared result)
  | executed {o o' : Outcome Unit} : o.Alike L Eq o' → Answer.Alike L (.executed o) (.executed o')
  | ran {o o' : Outcome (List Warning)} : o.Alike L Eq o' → Answer.Alike L (.ran o) (.ran o')
  | unknown : Answer.Alike L .unknown .unknown

structure Report.Alike (L : Likeness) (r r' : Report) : Prop where
  answer : r.answer.Alike L r'.answer
  output : r.output = r'.output

theorem Report.Alike.imp {r r' : Report} (h : r.Alike L r')
    (hspan : ∀ a b, L.span a b → L'.span a b) : r.Alike L' r' := by
  obtain ⟨answer, output⟩ := r
  obtain ⟨answer', output'⟩ := r'
  obtain ⟨ha, houtput⟩ := h
  refine ⟨?_, houtput⟩
  cases ha with
  | prepared result => exact .prepared result
  | executed ho => exact .executed (ho.imp hspan)
  | ran ho => exact .ran (ho.imp hspan)
  | unknown => exact .unknown

theorem Report.Alike.eq {S : ExprId → ExprId → Prop} {r r' : Report} (h : r.Alike ⟨S, Eq⟩ r') :
    r = r' := by
  obtain ⟨answer, output⟩ := r
  obtain ⟨answer', output'⟩ := r'
  obtain ⟨ha, ⟨⟩⟩ := h
  cases ha with
  | prepared | unknown => rfl
  | executed ho => rw [ho.eq]
  | ran ho => rw [ho.eq]

structure Prepared.Alike (L : Likeness) (k k' : Prepared) : Prop where
  source : k.source = k'.source
  program : k.program.Alike L k'.program

namespace Host

/-- Alike but for the program under the stale label. -/
structure Alike (L : Likeness) (stale : Option String) (h h' : Host) : Prop where
  session : h.session.Alike L h'.session
  programs : ∀ label, stale ≠ some label →
    Option.Rel (Prepared.Alike L) (h.programs.find? label) (h'.programs.find? label)

namespace Alike

variable {h h' : Host} {stale : Option String}

theorem withSession (hh : h.Alike L stale h') (hL : L.Grows L') {s s' : Session}
    (hs : s.Alike L' s') :
    Alike L' stale { h with session := s } { h' with session := s' } :=
  ⟨hs, fun label hl => rel_imp (hh.programs label hl) fun _ _ hk =>
    ⟨hk.source, hk.program.mono hL.le⟩⟩

/-- After a program has been kept that is alike, a stale label need not be any more. -/
theorem keep (hh : h.Alike L stale h') (hL : L.Grows L') {s s' : Session} (hs : s.Alike L' s')
    {p p' : Program} (hp : p.Alike L' p') (label source : String) {stale' : Option String}
    (hstale : ∀ other, stale' ≠ some other → other ≠ label → stale ≠ some other) :
    Alike L' stale' ⟨s, h.programs.insert label ⟨source, p⟩⟩
      ⟨s', h'.programs.insert label ⟨source, p'⟩⟩ := by
  refine ⟨hs, fun other hother => ?_⟩
  dsimp only
  rw [Table.find?_insert, Table.find?_insert]
  by_cases heq : label = other
  · rw [if_pos heq, if_pos heq]
    exact .some ⟨rfl, hp⟩
  · rw [if_neg heq, if_neg heq]
    exact rel_imp (hh.programs other (hstale other hother (Ne.symm heq))) fun _ _ hk =>
      ⟨hk.source, hk.program.mono hL.le⟩

/-- A request is answered alike, unless it is to execute the program under the stale label. -/
theorem serve (hh : h.Alike L stale h') (hspan : ∀ a, L.span a a) {r : Request}
    (hr : ∀ label fuel, r = .execute label fuel → stale ≠ some label) :
    ∃ L', L.Grows L' ∧ (h.serve r).1.Alike L' (h'.serve r).1 ∧
      (h.serve r).2.Alike L' stale (h'.serve r).2 := by
  cases r with
  | prepare label source =>
    obtain ⟨L', hL, hprepares⟩ := hh.session.prepare hspan source
    refine ⟨L', hL, ?_⟩
    unfold Host.serve
    dsimp only
    generalize h.session.prepare source = x at hprepares
    generalize h'.session.prepare source = x' at hprepares
    cases hprepares with
    | ok hp hs =>
      dsimp only
      rw [hp.warnings]
      exact ⟨.prepared _, hh.keep hL hs hp label source fun _ hother _ => hother⟩
    | error f hs => exact ⟨.prepared _, hh.withSession hL hs⟩
  | execute label fuel =>
    refine ⟨L, .refl L, ?_⟩
    have hk := hh.programs label (hr label fuel rfl)
    unfold Host.serve
    dsimp only
    generalize h.programs.find? label = o at hk
    generalize h'.programs.find? label = o' at hk
    cases hk with
    | none => exact ⟨.unknown, hh⟩
    | some hk =>
      have hends := hh.session.execute hk.program fuel
      exact ⟨.executed hends.outcome, hh.withSession (.refl L) hends.session⟩
  | run source fuel =>
    obtain ⟨L', hL, hends⟩ := hh.session.run hspan source fuel
    exact ⟨L', hL, .ran hends.outcome, hh.withSession hL hends.session⟩

/-- Where a program is accepted, the label that it is kept under is not stale any more. -/
theorem replace {label : String} (hh : h.Alike L (some label) h') (hspan : ∀ a, L.span a a)
    {source : String} (hr : ¬ h.Rejects source) :
    ∃ L', L.Grows L' ∧ (h.serve (.prepare label source)).1.Alike L'
        (h'.serve (.prepare label source)).1 ∧
      (h.serve (.prepare label source)).2.Alike L' none (h'.serve (.prepare label source)).2 := by
  obtain ⟨L', hL, hprepares⟩ := hh.session.prepare hspan source
  refine ⟨L', hL, ?_⟩
  unfold Host.serve
  unfold Rejects at hr
  dsimp only
  generalize h.session.prepare source = x at hprepares hr
  generalize h'.session.prepare source = x' at hprepares
  cases hprepares with
  | error f hs => exact absurd ⟨f, rfl⟩ hr
  | ok hp hs =>
    dsimp only
    rw [hp.warnings]
    refine ⟨.prepared _, hh.keep hL hs hp label source fun other _ hne => ?_⟩
    exact fun heq => hne (Option.some.inj heq).symm

theorem report {r : Request} (ha : (h.serve r).1.Alike L (h'.serve r).1)
    (hh : (h.serve r).2.Alike L stale (h'.serve r).2) :
    (h.report r).Alike L (h'.report r) :=
  ⟨ha, hh.session.machine.output⟩

/-- Requests are answered alike, one after another. -/
theorem reports (hh : h.Alike L stale h') (hspan : ∀ a, L.span a a) (rs : List Request)
    (hstale : ∀ label, stale = some label → Unused label h rs) :
    ∃ L', L.Grows L' ∧ List.Forall₂ (Report.Alike L') (h.reports rs) (h'.reports rs) ∧
      ∃ stale', (stale = none → stale' = none) ∧ (h.after rs).Alike L' stale' (h'.after rs) := by
  induction rs generalizing L stale h h' with
  | nil => exact ⟨L, .refl L, .nil, stale, id, hh⟩
  | cons r rs ih =>
    obtain ⟨L₁, stale₁, hL₁, hnone, ha, hh₁, hstale₁⟩ : ∃ L₁ stale₁, L.Grows L₁ ∧
        (stale = none → stale₁ = none) ∧ (h.serve r).1.Alike L₁ (h'.serve r).1 ∧
        (h.serve r).2.Alike L₁ stale₁ (h'.serve r).2 ∧
        ∀ label, stale₁ = some label → Unused label (h.serve r).2 rs := by
      cases stale with
      | none =>
        obtain ⟨L₁, hL₁, ha, hh₁⟩ := hh.serve hspan (r := r) fun _ _ _ => nofun
        exact ⟨L₁, none, hL₁, id, ha, hh₁, nofun⟩
      | some label =>
        cases hstale label rfl with
        | replaced hr =>
          obtain ⟨L₁, hL₁, ha, hh₁⟩ := hh.replace hspan hr
          exact ⟨L₁, none, hL₁, nofun, ha, hh₁, nofun⟩
        | cons hr hu =>
          obtain ⟨L₁, hL₁, ha, hh₁⟩ := hh.serve hspan (r := r) fun other fuel he heq => by
            cases heq
            exact hr fuel he
          refine ⟨L₁, some label, hL₁, nofun, ha, hh₁, fun other heq => ?_⟩
          cases heq
          exact hu
    obtain ⟨L₂, hL₂, hreports, stale₂, hnone₂, hafter⟩ :=
      ih hh₁ (fun a => hL₁.span ▸ hspan a) hstale₁
    exact ⟨L₂, hL₁.trans hL₂, .cons ((report ha hh₁).imp hL₂.le.2) hreports, stale₂,
      fun hs => hnone₂ (hnone hs), hafter⟩

/-- Where no span is taken for another, the reports are the same. -/
theorem reports_eq {S : ExprId → ExprId → Prop} (hh : h.Alike ⟨S, Eq⟩ stale h') (rs : List Request)
    (hstale : ∀ label, stale = some label → Unused label h rs) : h.reports rs = h'.reports rs := by
  obtain ⟨⟨S', _⟩, hL, hreports, -⟩ := hh.reports (fun _ => rfl) rs hstale
  obtain rfl := hL.span
  have heq := hreports.imp fun _ _ => Report.Alike.eq
  rwa [List.forall₂_eq_eq_eq] at heq

end Alike

/-- At the start nothing is kept. -/
theorem alike_start (S : Span → Span → Prop) (limit : Option Nat) (time : Nat → Float) :
    (start limit time).Alike ⟨fun _ _ => False, S⟩ none (start limit time) :=
  ⟨Session.alike_start S limit time, fun _ _ => .none⟩

end Host

end Lox

import Lox.Proofs.Session.Located
import Lox.Proofs.Session.Undisturbed

/-!
# Texts in pieces

Two texts that can be prepared can be run one after the other or as one text, the second on the
lines behind the first.  That prints the same, ends alike and is followed by the same, but for the
places in the second text, which have moved.

    h.session.prepare a = (.ok p, t) → t.prepare b = (.ok q, u) →
      ∃ body, (h.session.prepare (a ++ "\n" ++ b)).1 = .ok ⟨p.body ++ body, _⟩ ∧
        List.Forall₂ (Stmt.Alike ⟨Eq, fun x y => y = x.moved (.behind a)⟩) q.body body

What is reported from the second text on is a list `xs` that says for each place of that text what
the reports are.

    h'.reports (.run (Text.lowered k b) fuel :: later) = xs.map (· (.down k))
    h.reports (.run (a ++ "\n" ++ b) fuel :: later) = xs.map (· (.behind a))    (p.warnings first)
-/

namespace Lox

theorem Likeness.covers_same {L : Likeness} {n hi : ExprId} {ids : List ExprId}
    (hf : Fresh n hi ids) {S T : Span → Span → Prop} (hspan : ∀ a b, T a b → S a b) :
    Likeness.Covers ⟨(L.counting n n hi).id, S⟩ ⟨Eq, T⟩ ids := by
  refine ⟨fun id hid id' heq => .inr ⟨(hf.2 id hid).2, id - n, ?_, ?_⟩, hspan⟩
  · exact (Nat.add_sub_cancel' (hf.2 id hid).1).symm
  · exact heq ▸ (Nat.add_sub_cancel' (hf.2 id hid).1).symm

/-! ## Programs in a row -/

theorem Eval.program_append (fuel : Nat) (ss ts : List Stmt) :
    program fuel (ss ++ ts) = (do program fuel ss; program fuel ts) := by
  induction ss with
  | nil => rfl
  | cons s ss ih =>
    rw [List.cons_append, program, program, ih]
    exact (bind_assoc _ _ _).symm

namespace Session

variable {L : Likeness} {I : ExprId → ExprId → Prop} {S T : Span → Span → Prop}

/-- What comes behind a part that goes well is evaluated from there. -/
theorem evaluate_bind_of_done {α β : Type} {s s₁ : Session} {e : Eval α} {a : α}
    (h : s.evaluate e = (.done a, s₁)) (f : α → Eval β) :
    s.evaluate (e >>= f) = s₁.evaluate (f a) := by
  obtain ⟨m, n⟩ := s
  unfold evaluate at h ⊢
  dsimp only at h ⊢
  cases hr : e m with
  | ok b m' =>
    rw [hr] at h
    cases h
    rw [EStateM.bind_of_ok hr]
  | error stop m' =>
    rw [hr] at h
    cases stop <;> cases h

theorem evaluate_bind_of_not_done {α : Type} {s s₁ : Session} {e : Eval α} {o : Outcome α}
    (h : s.evaluate e = (o, s₁)) (ho : ∀ a, o ≠ .done a) (f : α → Eval α) :
    s.evaluate (e >>= f) = (o, s₁) := by
  obtain ⟨m, n⟩ := s
  unfold evaluate at h ⊢
  dsimp only at h ⊢
  cases hr : e m with
  | ok b m' =>
    rw [hr] at h
    cases h
    exact absurd rfl (ho b)
  | error stop m' =>
    rw [hr] at h
    rw [EStateM.bind_of_error hr]
    exact h

/-- More spans are taken for each other. -/
theorem Alike.loosen {s s' : Session} (hs : s.Alike ⟨I, S⟩ s') (h : ∀ a b, S a b → T a b) :
    s.Alike ⟨I, T⟩ s' :=
  ⟨{ hs.machine with heap := hs.machine.heap.mono ⟨fun _ _ => id, h⟩ }, hs.ids, hs.numbered,
    hs.numbered'⟩

/-! ## Preparing two texts as one -/

/-- The text `whole` is read and resolved as `source` and then as `more`, the spans of which are
taken for others there. -/
structure Joint (S : Span → Span → Prop) (n : ExprId) (source more whole : String) (t t' : Tree)
    (r r' : Resolution) (body : List Stmt) (ws : List Warning) : Prop where
  parse : Tree.parse source n = .ok t
  resolve : Resolution.ofProgram t.body = .ok r
  parseMore : Tree.parse more t.nextId = .ok t'
  resolveMore : Resolution.ofProgram t'.body = .ok r'
  parseWhole : Tree.parse whole n = .ok ⟨t.body ++ body, t'.nextId⟩
  resolveWhole : Resolution.ofProgram (t.body ++ body) =
    .ok ⟨r'.distances ++ r.distances, r.warnings ++ ws⟩
  body : List.Forall₂ (Stmt.Alike ⟨Eq, S⟩) t'.body body
  warnings : List.Forall₂ (Warning.Alike ⟨Eq, S⟩) r'.warnings ws

/-- A text whose tokens are those of one text and then, elsewhere, those of another is joint. -/
theorem exists_joint (hS : Likeness.Regular ⟨Eq, S⟩) {source more whole : String}
    {ts us : List Token} {e : Token} (htokens : Token.ofSource source = ts ++ [e])
    (hwhole : Token.ofSource whole = ts ++ us)
    (hus : List.Forall₂ (Token.Alike ⟨Eq, S⟩) (Token.ofSource more) us) {n : ExprId} {t t' : Tree}
    {r r' : Resolution} (ht : Tree.parse source n = .ok t)
    (hr : Resolution.ofProgram t.body = .ok r) (ht' : Tree.parse more t.nextId = .ok t')
    (hr' : Resolution.ofProgram t'.body = .ok r') :
    ∃ body ws, Joint S n source more whole t t' r r' body ws := by
  obtain ⟨body, hparse, hbody⟩ := Tree.parse_joined hS htokens hwhole hus ht ht'
  obtain ⟨q, hq, hdistances, hwarnings⟩ := Resolution.ofProgram_append hS hr hr' hbody
  have huses : r'.distances = q.distances := by
    rw [← List.forall₂_eq_eq_eq]
    exact hdistances.imp fun _ _ huse => Prod.ext huse.id huse.hops
  exact ⟨body, q.warnings, ht, hr, ht', hr', hparse, huses ▸ hq, hbody, hwarnings⟩

/-! ## Running them -/

namespace Joint

variable {s : Session} {n : ExprId} {source more whole : String} {t t' : Tree} {r r' : Resolution}
  {body : List Stmt} {ws : List Warning}

/-- The first text has no expressions of the second. -/
theorem mem_distances (hj : Joint S n source more whole t t' r r' body ws) {id hops : Nat} :
    ((id, hops) ∈ r'.distances ++ r.distances ↔
      if id < t.nextId then (id, hops) ∈ r.distances else (id, hops) ∈ r'.distances) := by
  have hfirst (h : (id, hops) ∈ r.distances) : id < t.nextId :=
    ((fresh_of_parse hj.parse).2.2 id
      (Lexical.mem_idsOf_of_mem_distances hj.resolve (List.mem_map_of_mem h))).2
  have hsecond (h : (id, hops) ∈ r'.distances) : ¬ id < t.nextId := Nat.not_lt.2
    ((fresh_of_parse hj.parseMore).2.2 id
      (Lexical.mem_idsOf_of_mem_distances hj.resolveMore (List.mem_map_of_mem h))).1
  rw [List.mem_append]
  split
  · next hlt => exact or_iff_right fun h => hsecond h hlt
  · next hlt => exact or_iff_left fun h => hlt (hfirst h)

/-- The session that has prepared the first text is like the one that has prepared both. -/
theorem first (hj : Joint S s.nextId source more whole t t' r r' body ws)
    (hs : s.Alike ⟨I, Eq⟩ s) :
    Alike (Likeness.counting ⟨I, Eq⟩ s.nextId s.nextId t.nextId)
      ⟨s.machine.learn r.distances, t.nextId⟩
      ⟨s.machine.learn (r'.distances ++ r.distances), t'.nextId⟩ := by
  have hle := (fresh_of_parse hj.parseMore).1
  refine hs.counting (le_learn hj.parse hj.resolve) (le_learn hj.parseWhole hj.resolveWhole) rfl rfl
    (hs.numbered.learn hj.parse hj.resolve) (hs.numbered.learn hj.parseWhole hj.resolveWhole)
    fun j hlt => ⟨hlt, Nat.lt_of_lt_of_le hlt hle, ?_⟩
  refine Option.ext fun hops => ?_
  refine (hs.numbered.learnt hj.parseWhole hj.resolveWhole (Nat.le_add_right _ _) hops).trans
    (Iff.trans ?_ (hs.numbered.learnt hj.parse hj.resolve (Nat.le_add_right _ _) hops).symm)
  rw [hj.mem_distances, if_pos hlt]

/-- Once the first text has been run, the session that prepares the second is like the one that has
prepared both. -/
theorem second (hj : Joint S s.nextId source more whole t t' r r' body ws) {L : Likeness}
    (hs : s.Numbered) {u v : Session} (huv : u.Alike L v) (hu : u.nextId = t.nextId)
    (hv : v.nextId = t'.nextId)
    (hd : v.machine.distances = (s.machine.learn (r'.distances ++ r.distances)).distances) :
    Alike (L.counting t.nextId t.nextId t'.nextId) ⟨u.machine.learn r'.distances, t'.nextId⟩
      v := by
  have hpu : Tree.parse more u.nextId = .ok t' := hu ▸ hj.parseMore
  have hle : s.nextId ≤ t.nextId := (fresh_of_parse hj.parse).1
  refine huv.counting (le_learn hpu hj.resolveMore) (.refl v) rfl rfl
    (huv.numbered.learn hpu hj.resolveMore) huv.numbered' fun j hlt => ⟨hlt, hv ▸ hlt, ?_⟩
  refine Option.ext fun hops => ?_
  rw [hd, hs.learnt hj.parseWhole hj.resolveWhole (Nat.le_trans hle (Nat.le_add_right _ _))]
  refine Iff.trans ?_
    (huv.numbered.learnt hpu hj.resolveMore (hu ▸ Nat.le_add_right _ _) hops).symm
  rw [hj.mem_distances, if_neg (Nat.not_lt.2 (Nat.le_add_right _ _))]

/-- The second text is executed alike by itself and behind the first. -/
theorem execute_second (hj : Joint S s.nextId source more whole t t' r r' body ws)
    (hs : s.Numbered) {u v : Session} (huv : u.Alike ⟨I, Eq⟩ v) (hu : u.nextId = t.nextId)
    (hv : v.nextId = t'.nextId)
    (hd : v.machine.distances = (s.machine.learn (r'.distances ++ r.distances)).distances)
    (hST : ∀ a b, S a b → T a b) (hT : ∀ a, T a a) (fuel : Nat) :
    Ends ⟨(Likeness.counting ⟨I, Eq⟩ t.nextId t.nextId t'.nextId).id, T⟩ Eq
      (execute ⟨u.machine.learn r'.distances, t'.nextId⟩ fuel ⟨t'.body, r'.warnings⟩)
      (v.execute fuel ⟨body, r'.warnings⟩) := by
  have hthen := (hj.second hs huv hu hv hd).loosen (T := T) fun _ _ h => h ▸ hT _
  have hcovers := Likeness.covers_same (L := ⟨I, Eq⟩) (fresh_of_parse hj.parseMore).2 hST
  have hprogram : Program.Alike _ ⟨t'.body, r'.warnings⟩ ⟨body, r'.warnings⟩ :=
    ⟨Stmt.Alike.imps hj.body hcovers, rfl⟩
  exact hthen.execute hprogram fuel

theorem distances_execute (s : Session) (fuel : Nat) (p : Program) :
    (s.execute fuel p).2.machine.distances = s.machine.distances := by
  rw [execute, machine_evaluate]
  exact Eval.program_keeps_distances fuel p.body s.machine

/-- What comes of the first text decides whether the second is run.  Where it is, what comes of it
differs by places that are taken for each other, and by the warnings of the first text, which are
found with it if both are prepared as one. -/
theorem run (hj : Joint S s.nextId source more whole t t' r r' body ws) (hs : s.Alike ⟨I, Eq⟩ s)
    (hST : ∀ a b, S a b → T a b) (hT : ∀ a, T a a) (fuel : Nat) :
    ((s.run fuel source).1 = .done r.warnings → ∃ I', (∀ i j, I i j → I' i j) ∧
      Ends ⟨I', T⟩ (fun us us' => ∃ more, us' = r.warnings ++ more ∧
          List.Forall₂ (Warning.Alike ⟨Eq, S⟩) us more)
        ((s.run fuel source).2.run fuel more) (s.run fuel whole)) ∧
    ((s.run fuel source).1 ≠ .done r.warnings → ∃ I', (∀ i j, I i j → I' i j) ∧
      (s.run fuel whole).1 = (s.run fuel source).1 ∧
      (s.run fuel source).2.Alike ⟨I', Eq⟩ (s.run fuel whole).2) := by
  have hfirst := hj.first hs
  obtain ⟨t₀, _, ht₀, -, hself, -⟩ := counted_again hj.parse hj.resolve s.nextId
  rw [hj.parse] at ht₀
  cases ht₀
  have hp : Program.Alike (Likeness.counting ⟨I, Eq⟩ s.nextId s.nextId t.nextId)
      ⟨t.body, r.warnings⟩ ⟨t.body, r.warnings⟩ :=
    ⟨Stmt.Alike.imps hself.body
      (Likeness.covers_counting (fun _ => rfl) (fresh_of_parse hj.parse).2), rfl⟩
  have hends := hfirst.execute hp fuel
  have hnext := nextId_evaluate ⟨s.machine.learn r.distances, t.nextId⟩
    (Eval.program fuel t.body)
  have hnext' := nextId_evaluate ⟨s.machine.learn (r'.distances ++ r.distances), t'.nextId⟩
    (Eval.program fuel t.body)
  have hdistances := distances_execute
    ⟨s.machine.learn (r'.distances ++ r.distances), t'.nextId⟩ fuel ⟨t.body, r.warnings⟩
  rw [run_of_prepare (prepare_of_parse hj.parse hj.resolve),
    run_of_prepare (prepare_of_parse hj.parseWhole hj.resolveWhole)]
  simp only [execute, Eval.program_append] at hends hnext hnext' hdistances ⊢
  generalize hx : evaluate ⟨s.machine.learn r.distances, t.nextId⟩ _ = x at hends hnext
  generalize hy : evaluate ⟨s.machine.learn (r'.distances ++ r.distances), t'.nextId⟩
    (Eval.program fuel t.body) = y at hends hnext' hdistances
  obtain ⟨o, u⟩ := x
  obtain ⟨o', v⟩ := y
  obtain ⟨ho, huv⟩ := hends
  obtain rfl := ho.eq
  have hgrows := (Likeness.grows_counting ⟨I, Eq⟩ s.nextId s.nextId t.nextId).id
  refine ⟨fun hdone => ?_, fun hne => ?_⟩
  · cases o with
    | failed | outOfFuel => cases hdone
    | done x =>
      obtain ⟨houtcome, hsession⟩ :=
        hj.execute_second hs.numbered huv hnext hnext' hdistances hST hT fuel
      have hpu : Tree.parse more u.nextId = .ok t' := hnext.symm ▸ hj.parseMore
      have hrun : Session.run u fuel more = _ :=
        run_of_prepare (prepare_of_parse hpu hj.resolveMore) fuel
      rw [evaluate_bind_of_done hy, hrun]
      refine ⟨_, fun i j h => .inl (hgrows i j h), ?_, hsession⟩
      exact houtcome.map fun _ _ _ => ⟨ws, rfl, hj.warnings⟩
  · cases o with
    | done x => exact absurd rfl hne
    | failed | outOfFuel =>
      rw [evaluate_bind_of_not_done hy fun _ heq => by cases heq]
      exact ⟨_, hgrows, rfl, huv⟩

end Joint

end Session

/-! ## The second text in other places -/

namespace Session

theorem parse_empty (n : ExprId) : Tree.parse "" n = .ok ⟨[], n⟩ := by
  rw [Tree.parse, Token.ofSource_empty]
  rfl

/-- A text on later lines is joint to the empty one, as it is on other lines. -/
theorem exists_joint_lowered (source : String) (j k : Nat) {n : ExprId} {t : Tree} {r : Resolution}
    (ht : Tree.parse (Text.lowered j source) n = .ok t)
    (hr : Resolution.ofProgram t.body = .ok r) :
    ∃ body ws, Joint (Span.SamePart source (.down j) (.down k)) n "" (Text.lowered j source)
      (Text.lowered k source) ⟨[], n⟩ t ⟨[], []⟩ r body ws := by
  have hempty : Token.ofSource "" = [] ++ [_] := Token.ofSource_empty
  have hlowered : Token.ofSource (Text.lowered k source) = [] ++ _ :=
    Token.ofSource_lowered k source
  refine exists_joint (Likeness.regular_samePart source _ _) hempty hlowered ?_ (parse_empty n) rfl
    ht hr
  rw [Token.ofSource_lowered]
  exact Token.forall₂_samePart source _ _

/-- A text on later lines is joint to any text that it comes behind. -/
theorem exists_joint_behind {source more : String} {n : ExprId} {t t' : Tree} {r r' : Resolution}
    (k : Nat) (ht : Tree.parse source n = .ok t) (hr : Resolution.ofProgram t.body = .ok r)
    (ht' : Tree.parse (Text.lowered k more) t.nextId = .ok t')
    (hr' : Resolution.ofProgram t'.body = .ok r') :
    ∃ body ws, Joint (Span.SamePart more (.down k) (.behind source)) n source
      (Text.lowered k more) (source ++ "\n" ++ more) t t' r r' body ws := by
  obtain ⟨ts, e, hts, hwhole⟩ :=
    Token.ofSource_joined source more ((parse_iff_isProgram source n).2 t ht).1.valid
  refine exists_joint (Likeness.regular_samePart more _ _) hts hwhole ?_ ht hr ht' hr'
  rw [Token.ofSource_lowered]
  exact Token.forall₂_samePart more _ _

theorem run_empty (s : Session) (fuel : Nat) : s.run fuel "" = (.done [], s) :=
  run_of_prepare (prepare_of_parse (parse_empty s.nextId) rfl) fuel

end Session

namespace Host

open Session (Joint)

variable {host : Host} {I : ExprId → ExprId → Prop}

theorem Reached.serve (h : host.Reached) (r : Request) : (host.serve r).2.Reached := by
  obtain ⟨limit, time, rs, rfl⟩ := h
  exact ⟨limit, time, rs ++ [r], (after_append _ rs [r]).symm⟩

theorem Reached.alike (h : host.Reached) : ∃ I, host.Alike ⟨I, Eq⟩ none host := by
  obtain ⟨limit, time, rs, rfl⟩ := h
  exact alike_after limit time rs

variable {d d' : Offset} {source more whole part : String} {t t' : Tree} {r r' : Resolution}
  {body : List Stmt} {ws : List Warning}

/-- Where the first text goes well, the reports from the second on are those on the whole, but for
where the part stands. -/
theorem reports_joint (hhost : host.Alike ⟨I, Eq⟩ none host)
    (hj : Joint (Span.SamePart part d d') host.session.nextId source more whole t t' r r' body ws)
    {fuel : Nat} (hdone : (host.session.run fuel source).1 = .done r.warnings)
    (later : List Request) :
    ∃ x xs, host.reports (.run whole fuel :: later) = x.behind r.warnings :: xs ∧
      List.Forall₂ (Report.Same part d d')
        ((host.serve (.run source fuel)).2.reports (.run more fuel :: later)) (x :: xs) := by
  let T := Span.SamePlace part d d'
  obtain ⟨I', hI', houtcome, hsession⟩ :=
    (hj.run (T := T) hhost.session (fun _ _ => .inl) (fun _ => .inr rfl) fuel).1 hdone
  have hloose : host.Alike ⟨I, T⟩ none host :=
    ⟨hhost.session.loosen fun _ _ h => .inr h, fun label hl => rel_imp
      (hhost.programs label hl) fun _ _ hk => ⟨hk.source, hk.program.mono
        ⟨fun _ _ => id, fun _ _ h => .inr h⟩⟩⟩
  have hgrows : Likeness.Grows ⟨I, T⟩ ⟨I', T⟩ := ⟨hI', rfl⟩
  obtain ⟨⟨I'', _⟩, hL, hreports, -⟩ :=
    (hloose.withSession hgrows hsession).reports (fun _ => .inr rfl) later nofun
  cases hL.span
  obtain ⟨x, hx, hsame⟩ :=
    houtcome.exists_behind (host.session.run fuel whole).2.machine.output
  refine ⟨x, _, congrArg (· :: _) hx.symm, .cons ?_ (hreports.imp fun _ _ h => h.same)⟩
  rw [← hsession.machine.output] at hsame
  exact hsame

/-- Further down the text is run with the same reports, but for where it stands. -/
theorem reports_lowered (hhost : host.Alike ⟨I, Eq⟩ none host)
    (ht : Tree.parse part host.session.nextId = .ok t)
    (hr : Resolution.ofProgram t.body = .ok r) (fuel : Nat) (j k : Nat) (later : List Request) :
    List.Forall₂ (Report.Same part (.down j) (.down k))
      (host.reports (.run (Text.lowered j part) fuel :: later))
      (host.reports (.run (Text.lowered k part) fuel :: later)) := by
  obtain ⟨body, ws, hj⟩ := Session.exists_joint_lowered part 0 j ht hr
  obtain ⟨body', ws', hk⟩ := Session.exists_joint_lowered part j k hj.parseWhole hj.resolveWhole
  have hempty := host.session.run_empty fuel
  obtain ⟨x, xs, hreports, hsame⟩ := reports_joint hhost hk (congrArg Prod.fst hempty) later
  have hserve : (host.serve (.run "" fuel)).2 = host := by
    simp only [Host.serve, hempty]
  rw [hserve] at hsame
  rw [hreports, Report.behind_nil]
  exact hsame

/-- Behind a text that goes well the part is reported on as it is on any later line, in the place
that it has there. -/
theorem exists_placed (hreached : host.Reached) (ht : Tree.parse source host.session.nextId = .ok t)
    (hr : Resolution.ofProgram t.body = .ok r) (ht' : Tree.parse part t.nextId = .ok t')
    (hr' : Resolution.ofProgram t'.body = .ok r') {fuel : Nat}
    (hdone : (host.session.run fuel source).1 = .done r.warnings) (later : List Request) :
    ∃ x xs, (∀ y ∈ x :: xs, Report.Placed part y) ∧
      (∀ k, (host.serve (.run source fuel)).2.reports (.run (Text.lowered k part) fuel :: later) =
        (x :: xs).map (· (.down k))) ∧
      host.reports (.run (source ++ "\n" ++ part) fuel :: later) =
        (x (.behind source)).behind r.warnings :: xs.map (· (.behind source)) := by
  obtain ⟨I, hhost⟩ := hreached.alike
  obtain ⟨I', hhost'⟩ := (hreached.serve (.run source fuel)).alike
  have hnext : (host.serve (.run source fuel)).2.session.nextId = t.nextId := by
    have hrun := (host.session.le_run_of_prepare fuel source).2
    rwa [Session.prepare_of_parse ht hr] at hrun
  have hlowered (j k : Nat) := reports_lowered hhost' (hnext ▸ ht') hr' fuel j k later
  have hwhole (k : Nat) : ∃ x xs, host.reports (.run (source ++ "\n" ++ part) fuel :: later) =
        x.behind r.warnings :: xs ∧
      List.Forall₂ (Report.Same part (.down k) (.behind source))
        ((host.serve (.run source fuel)).2.reports (.run (Text.lowered k part) fuel :: later))
        (x :: xs) := by
    obtain ⟨_, _, hj⟩ := Session.exists_joint_lowered part 0 k ht' hr'
    obtain ⟨_, _, hj'⟩ := Session.exists_joint_behind k ht hr hj.parseWhole hj.resolveWhole
    exact reports_joint hhost hj' hdone later
  obtain ⟨y, ys, hy, hsame⟩ := hwhole 0
  obtain ⟨y', ys', hy', hsame'⟩ := hwhole 1
  obtain ⟨hhead, rfl⟩ := List.cons.inj (hy.symm.trans hy')
  obtain rfl := Report.behind_injective _ hhead
  obtain ⟨xs, hplaced, hxs⟩ := Report.exists_all_placed (hlowered 0 1)
  have hbehind := hxs (.behind source) _ hsame hsame'
  cases xs with
  | nil => cases hbehind
  | cons x xs =>
    obtain ⟨rfl, rfl⟩ := List.cons.inj hbehind
    exact ⟨x, xs, hplaced, fun k => hxs (.down k) _ (hlowered 0 k) (hlowered 1 k), hy⟩

/-- To run a text of two that can be prepared is to run the first and, if it ends well, the second,
but for the places in the second.  Which these are the second text shows by itself, when it is run
on later lines: a report on it, or on what is requested later, is about it if its places go down
with it and lie in it, and it is not about it if they stay. -/
theorem run_joined {host : Host} (hreached : host.Reached) {a b : String} {p p' : Program}
    {t t' : Session} (hp : host.session.prepare a = (.ok p, t))
    (hp' : host.session.prepare b = (.ok p', t')) :
    ∃ q u body v, t.prepare b = (.ok q, u) ∧
      p'.Alike (.counted host.session.nextId t.nextId) q ∧
      List.Forall₂ (Stmt.Alike ⟨Eq, fun x y => y = x.moved (.behind a)⟩) q.body body ∧
      host.session.prepare (a ++ "\n" ++ b) = (.ok ⟨p.body ++ body,
        p.warnings ++ p'.warnings.map (.mapSpan (.moved (.behind a)))⟩, v) ∧
      ∀ fuel later,
        let whole := Request.run (a ++ "\n" ++ b) fuel
        let first := Request.run a fuel
        let second (k : Nat) := Request.run (Text.lowered k b) fuel
        ((host.serve first).1 = .ran (.done p.warnings) → ∃ x xs,
          (∀ y ∈ x :: xs, Report.Placed b y) ∧
          (∀ k, (host.serve first).2.reports (second k :: later) = (x :: xs).map (· (.down k))) ∧
          host.reports (whole :: later) =
            (x (.behind a)).behind p.warnings :: xs.map (· (.behind a))) ∧
        ((host.serve first).1 ≠ .ran (.done p.warnings) →
          host.reports (whole :: later) = host.reports (first :: later)) := by
  obtain ⟨A, r, hA, hr, -, -⟩ := Session.prepare_eq_ok hp
  rw [Session.prepare_of_parse hA hr] at hp
  cases hp
  obtain ⟨B₀, r₀, hB₀, hr₀, -, -⟩ := Session.prepare_eq_ok hp'
  rw [Session.prepare_of_parse hB₀ hr₀] at hp'
  cases hp'
  obtain ⟨B, r', hB, hr', htree, -, hwarnings⟩ := Session.counted_again hB₀ hr₀ A.nextId
  obtain ⟨body, ws, hj⟩ := Session.exists_joint_behind 0 hA hr hB hr'
  have hbody : List.Forall₂ (Stmt.Alike ⟨Eq, fun x y => y = x.moved (.behind a)⟩) B.body body := by
    refine Stmt.Alike.imps hj.body ⟨fun _ _ _ => id, ?_⟩
    rintro _ _ ⟨x, -, rfl, rfl⟩
    rfl
  obtain ⟨us, -, hus, hws⟩ := Warning.exists_moved hj.warnings
  obtain rfl : us = r'.warnings := (List.map_id us).symm.trans hus.symm
  refine ⟨_, _, body, _, Session.prepare_of_parse hB hr', ⟨htree.body, hwarnings⟩, hbody,
    hwarnings ▸ hws ▸ Session.prepare_of_parse hj.parseWhole hj.resolveWhole, fun fuel later =>
    ⟨fun hdone => exists_placed hreached hA hr hB hr' (Answer.ran.inj hdone) later, fun hne => ?_⟩⟩
  obtain ⟨I, hhost⟩ := hreached.alike
  obtain ⟨I', hI', houtcome, hsession⟩ := (hj.run (T := Span.SamePlace b (.down 0) (.behind a))
    hhost.session (fun _ _ => .inl) (fun _ => .inr rfl) fuel).2 fun h => hne (congrArg Answer.ran h)
  have hgrows : Likeness.Grows ⟨I, Eq⟩ ⟨I', Eq⟩ := ⟨hI', rfl⟩
  have heq := (hhost.withSession hgrows hsession).reports_eq later nofun
  refine congrArg₂ List.cons ?_ heq.symm
  simp only [report, serve, houtcome, hsession.machine.output]

/-- A local that is never read, and a function that fails when it is called. -/
def joinedFirst : String := "{ var x = nil; } fun f() { nil(); }"

/-- Another such function, and a failure of its own. -/
def joinedSecond : String := "fun g() { nil(); } nil();"

def joinedLater : List Request := [.run "g();" 9, .run "f();" 9]

/-- Behind the first text what fails in the second is on the second line, at once and later; what
fails in the first is where it is anyway. -/
theorem run_joined_functions : ∃ (p q : Program) (u v : Session) (body : List Stmt)
    (x : Offset → Report) (xs : List (Offset → Report)), p.warnings = [⟨.onLine 6 7, "x"⟩] ∧
    ((start none fun _ => 0).session.prepare joinedFirst).2.prepare joinedSecond = (.ok q, u) ∧
    List.Forall₂ (Stmt.Alike ⟨Eq, fun x y => y = x.moved (.behind joinedFirst)⟩) q.body body ∧
    (start none fun _ => 0).session.prepare (joinedFirst ++ "\n" ++ joinedSecond) =
      (.ok ⟨p.body ++ body, p.warnings⟩, v) ∧
    (∀ y ∈ x :: xs, Report.Placed joinedSecond y) ∧
    ((start none fun _ => 0).serve (.run joinedFirst 9)).2.reports
      (.run joinedSecond 9 :: joinedLater) = (x :: xs).map (· (.down 0)) ∧
    (start none fun _ => 0).reports (.run (joinedFirst ++ "\n" ++ joinedSecond) 9 :: joinedLater) =
      (x (.behind joinedFirst)).behind p.warnings :: xs.map (· (.behind joinedFirst)) ∧
    (((start none fun _ => 0).serve (.run joinedFirst 9)).2.reports
      (.run joinedSecond 9 :: joinedLater)).map Report.spans =
        [[.onLine 19 24], [.onLine 10 15], [.onLine 27 32]] ∧
    ((start none fun _ => 0).reports
      (.run (joinedFirst ++ "\n" ++ joinedSecond) 9 :: joinedLater)).map Report.spans =
        [[⟨⟨55, 2, 20⟩, ⟨60, 2, 25⟩⟩], [⟨⟨46, 2, 11⟩, ⟨51, 2, 16⟩⟩], [.onLine 27 32]] := by
  obtain ⟨ss, hp⟩ : ∃ ss, ((start none fun _ => 0).session.prepare joinedFirst).1 =
    .ok ⟨ss, [⟨.onLine 6 7, "x"⟩]⟩ := ⟨_, by cbv⟩
  obtain ⟨ss', hp'⟩ : ∃ ss', ((start none fun _ => 0).session.prepare joinedSecond).1 =
    .ok ⟨ss', []⟩ := ⟨_, by cbv⟩
  have hdone : ((start none fun _ => 0).serve (.run joinedFirst 9)).1 =
    .ran (.done [⟨.onLine 6 7, "x"⟩]) := by cbv
  obtain ⟨q, u, body, v, hq, -, hbody, hwhole, hrun⟩ :=
    run_joined ⟨none, fun _ => 0, [], rfl⟩ (Prod.ext hp rfl) (Prod.ext hp' rfl)
  obtain ⟨x, xs, hplaced, hlowered, hreports⟩ := (hrun 9 joinedLater).1 hdone
  refine ⟨_, q, u, v, body, x, xs, rfl, hq, hbody, hwhole, hplaced, hlowered 0, hreports, ?_, ?_⟩
  · cbv
  · cbv

end Host

end Lox

import Lox.Proofs.Alike.Parse
import Lox.Proofs.Alike.Run
import Lox.Proofs.Run.Frame

/-!
# Sessions that are alike

Two sessions are alike if their machines are and if the identities that are taken for each other
have all been given to expressions.  A text that is read in both gets new identities in both: they
are taken for each other from there on, in the order of the text, and the sessions stay alike.

    s.Alike L s' → ∃ L', L.Grows L' ∧ Prepares L' (s.prepare source) (s'.prepare source)   (prepare)
    s.Alike L s' → p.Alike L p' → Ends L Eq (s.execute fuel p) (s'.execute fuel p')        (execute)
-/

namespace Lox

variable {L L' L'' : Likeness}

/-! ## Identities that are counted alike -/

namespace Likeness

/-- More identities are taken for each other, and the same spans. -/
structure Grows (L L' : Likeness) : Prop where
  id : ∀ id id', L.id id id' → L'.id id id'
  span : L'.span = L.span

theorem Grows.refl (L : Likeness) : L.Grows L := ⟨fun _ _ h => h, rfl⟩

theorem Grows.trans (h : L.Grows L') (h' : L'.Grows L'') : L.Grows L'' :=
  ⟨fun _ _ hab => h'.id _ _ (h.id _ _ hab), h'.span.trans h.span⟩

theorem Grows.le (h : L.Grows L') : L ≤ L' := ⟨h.id, fun _ _ hab => h.span ▸ hab⟩

/-- Those that come as long after `n` as after `n'`, in the same places. -/
def counted (n n' : ExprId) : Likeness := ⟨fun id id' => ∃ k, id = n + k ∧ id' = n' + k, Eq⟩

theorem regular_counted (n n' : ExprId) : (counted n n').Regular where
  next := by
    rintro _ _ ⟨k, rfl, rfl⟩
    exact ⟨k + 1, rfl, rfl⟩
  extend := by rintro _ _ _ _ ⟨⟩ ⟨⟩; rfl
  head := by rintro _ _ _ ⟨⟩; rfl
  order := by rintro _ _ _ _ ⟨⟩ ⟨⟩; rfl

/-- Besides those of `L` also those from `n` and `n'` on, up to `stop`. -/
def counting (L : Likeness) (n n' stop : ExprId) : Likeness :=
  ⟨fun id id' => L.id id id' ∨ id < stop ∧ (counted n n').id id id', L.span⟩

theorem grows_counting (L : Likeness) (n n' stop : ExprId) : L.Grows (L.counting n n' stop) :=
  ⟨fun _ _ => .inl, rfl⟩

theorem covers_counting (hspan : ∀ a, L.span a a) {n n' lo hi : ExprId} {ids : List ExprId}
    (hf : Fresh lo hi ids) : (L.counting n n' hi).Covers (counted n n') ids :=
  ⟨fun id hid _ h => .inr ⟨(hf.2 id hid).2, h⟩, fun a _ h => h ▸ hspan a⟩

end Likeness

/-! ## Errors that do not differ -/

section

variable {S : ExprId → ExprId → Prop}

theorem ParseError.Alike.eq {e e' : ParseError} (h : e.Alike ⟨S, Eq⟩ e') : e = e' := by
  cases e
  cases e'
  exact congrArg₂ _ h.span h.kind

theorem ScopeError.Alike.eq {e e' : ScopeError} (h : e.Alike ⟨S, Eq⟩ e') : e = e' := by
  cases e
  cases e'
  exact congrArg₂ _ h.span h.kind

theorem Warning.Alike.eq {w w' : Warning} (h : w.Alike ⟨S, Eq⟩ w') : w = w' := by
  cases w
  cases w'
  exact congrArg₂ _ h.span h.name

theorem RuntimeError.Alike.eq {e e' : RuntimeError} (h : e.Alike ⟨S, Eq⟩ e') : e = e' := by
  cases e
  cases e'
  exact congrArg₂ _ h.span h.kind

end

theorem Tree.Alike.lt_nextId {n n' j : ExprId} {t t' : Tree} (h : t.Alike (.counted n n') t')
    (hj : n + j < t.nextId) : n' + j < t'.nextId := by
  obtain ⟨k, hk, hk'⟩ := h.nextId
  rw [hk] at hj
  rw [hk']
  exact Nat.add_lt_add_left (Nat.lt_of_add_lt_add_left hj) _

/-! ## Programs, outcomes and sessions -/

/-- The outcome with another result. -/
def Outcome.map {α β : Type} (f : α → β) : Outcome α → Outcome β
  | .done a => .done (f a)
  | .failed e => .failed e
  | .outOfFuel => .outOfFuel

structure Program.Alike (L : Likeness) (p p' : Program) : Prop where
  body : List.Forall₂ (Stmt.Alike L) p.body p'.body
  warnings : p.warnings = p'.warnings

theorem Program.Alike.mono {p p' : Program} (h : p.Alike L p') (hle : L ≤ L') : p.Alike L' p' :=
  ⟨Stmt.Alike.imps h.body (Likeness.covers_of_le hle _), h.warnings⟩

/-- One failure, or runtime errors that are alike. -/
inductive Failure.Alike (L : Likeness) : Failure → Failure → Prop
  | same (f : Failure) : Failure.Alike L f f
  | runtime {e e' : RuntimeError} : e.Alike L e' → Failure.Alike L (.runtime e) (.runtime e')

/-- Both have ended well with related results, or both have been stopped by the same. -/
inductive Outcome.Alike {α : Type} (L : Likeness) (R : α → α → Prop) :
    Outcome α → Outcome α → Prop
  | done {a a' : α} : R a a' → Outcome.Alike L R (.done a) (.done a')
  | failed {f f' : Failure} : f.Alike L f' → Outcome.Alike L R (.failed f) (.failed f')
  | outOfFuel : Outcome.Alike L R .outOfFuel .outOfFuel

theorem Failure.Alike.imp {f f' : Failure} (h : f.Alike L f')
    (hspan : ∀ a b, L.span a b → L'.span a b) : f.Alike L' f' := by
  cases h with
  | same f => exact .same f
  | runtime h => exact .runtime ⟨hspan _ _ h.span, h.kind⟩

theorem Outcome.Alike.imp {α : Type} {R : α → α → Prop} {o o' : Outcome α} (h : o.Alike L R o')
    (hspan : ∀ a b, L.span a b → L'.span a b) : o.Alike L' R o' := by
  cases h with
  | done h => exact .done h
  | failed h => exact .failed (h.imp hspan)
  | outOfFuel => exact .outOfFuel

theorem Outcome.Alike.map {α β : Type} {R : α → α → Prop} {S : β → β → Prop} {o o' : Outcome α}
    (h : o.Alike L R o') {f f' : α → β} (hf : ∀ a a', R a a' → S (f a) (f' a')) :
    (o.map f).Alike L S (o'.map f') := by
  cases h with
  | done h => exact .done (hf _ _ h)
  | failed h => exact .failed h
  | outOfFuel => exact .outOfFuel

theorem Outcome.Alike.eq {α : Type} {S : ExprId → ExprId → Prop} {o o' : Outcome α}
    (h : o.Alike ⟨S, Eq⟩ Eq o') : o = o' := by
  cases h with
  | done h => rw [h]
  | failed h =>
    cases h with
    | same => rfl
    | runtime h => rw [h.eq]
  | outOfFuel => rfl

/-- At the start there are no functions but natives. -/
theorem Heap.alike_start (L : Likeness) : Heap.start.Alike L Heap.start := by
  have hbindings : List.Forall₂ (fun a b : String × Value => a.1 = b.1 ∧ a.2.Alike L b.2)
      (Native.all.map fun f => (f.name, .native f)) (Native.all.map fun f => (f.name, .native f)) :=
    List.forall₂_same.2 fun a ha => by
      obtain ⟨f, -, rfl⟩ := List.mem_map.1 ha
      exact ⟨rfl, .same rfl⟩
  exact {
    frames := .of_forall₂ (.cons ⟨rfl, .ofPairs hbindings⟩ .nil)
    arrays := .of_forall₂ .nil
    classes := .of_forall₂ .nil
    instances := .of_forall₂ .nil
    traits := .of_forall₂ .nil
    closures := rfl }

namespace Session

/-- All locals that the machine knows of are in expressions that have been read. -/
def Numbered (s : Session) : Prop :=
  ∀ id hops, s.machine.distances[id]? = some hops → id < s.nextId

structure Alike (L : Likeness) (s s' : Session) : Prop where
  machine : s.machine.Alike L s'.machine
  ids : ∀ id id', L.id id id' → id < s.nextId ∧ id' < s'.nextId
  numbered : s.Numbered
  numbered' : s'.Numbered

/-- A text has been prepared in both, or has been found in both to have the same errors. -/
inductive Prepares (L : Likeness) :
    Except Failure Program × Session → Except Failure Program × Session → Prop
  | ok {p p' : Program} {s s' : Session} : p.Alike L p' → s.Alike L s' →
      Prepares L (.ok p, s) (.ok p', s')
  | error (f : Failure) {s s' : Session} : s.Alike L s' → Prepares L (.error f, s) (.error f, s')

/-- Both have ended alike and left the sessions alike. -/
structure Ends {α : Type} (L : Likeness) (R : α → α → Prop) (x x' : Outcome α × Session) :
    Prop where
  outcome : x.1.Alike L R x'.1
  session : x.2.Alike L x'.2

theorem numbered_start (limit : Option Nat) (time : Nat → Float) : (start limit time).Numbered := by
  intro id hops hid
  rw [start, Machine.start, Std.TreeMap.getElem?_emptyc] at hid
  cases hid

/-- At the start nothing has been read, and no function been made. -/
theorem alike_start (S : Span → Span → Prop) (limit : Option Nat) (time : Nat → Float) :
    Alike ⟨fun _ _ => False, S⟩ (start limit time) (start limit time) :=
  ⟨⟨Heap.alike_start _, rfl, fun _ _ => False.elim, rfl, rfl⟩, fun _ _ => False.elim,
    numbered_start limit time, numbered_start limit time⟩

/-! ## Preparing -/

theorem Numbered.advance {s : Session} (h : s.Numbered) {n : ExprId} (hn : s.nextId ≤ n) :
    Numbered { s with nextId := n } :=
  fun id hops hid => Nat.lt_of_lt_of_le (h id hops hid) hn

theorem Numbered.learn {s : Session} (h : s.Numbered) {tree : Tree} {r : Resolution}
    {source : String} (htree : Tree.parse source s.nextId = .ok tree)
    (hr : Resolution.ofProgram tree.body = .ok r) :
    Numbered ⟨s.machine.learn r.distances, tree.nextId⟩ := by
  obtain ⟨hle, hf⟩ := fresh_of_parse htree
  intro id hops hid
  by_cases hmem : id ∈ r.distances.map Prod.fst
  · exact (hf.2 id (Lexical.mem_idsOf_of_mem_distances hr hmem)).2
  · replace hid : (s.machine.learn r.distances).distances[id]? = some hops := hid
    rw [Machine.distances_learn_of_not_mem _ hmem] at hid
    exact Nat.lt_of_lt_of_le (h id hops hid) hle


/-- A machine that is told of the locals of a new text knows of its expressions what it is told. -/
theorem Numbered.learnt {s : Session} (h : s.Numbered) {tree : Tree} {r : Resolution}
    {source : String} (htree : Tree.parse source s.nextId = .ok tree)
    (hr : Resolution.ofProgram tree.body = .ok r) {id : ExprId} (hid : s.nextId ≤ id)
    (hops : Nat) :
    (s.machine.learn r.distances).distances[id]? = some hops ↔ (id, hops) ∈ r.distances := by
  obtain ⟨-, hf⟩ := fresh_of_parse htree
  have hnodup := Lexical.nodup_distances hr hf.1
  refine ⟨fun hknown => ?_, fun hmem => Machine.distances_learn_of_mem _ hnodup hmem⟩
  by_cases hmem : id ∈ r.distances.map Prod.fst
  · obtain ⟨⟨_, hops'⟩, hpair, rfl⟩ := List.mem_map.1 hmem
    rw [Machine.distances_learn_of_mem _ hnodup hpair] at hknown
    cases hknown
    exact hpair
  · rw [Machine.distances_learn_of_not_mem _ hmem] at hknown
    exact absurd (h id hops hknown) (Nat.not_lt.2 hid)

/-- What the session knows of the expressions that it has numbered is what it goes on knowing. -/
structure Le (s s' : Session) : Prop where
  nextId : s.nextId ≤ s'.nextId
  distances : ∀ id < s.nextId, s'.machine.distances[id]? = s.machine.distances[id]?

theorem Le.refl (s : Session) : s.Le s := ⟨Nat.le_refl _, fun _ _ => rfl⟩

theorem Le.trans {s s' s'' : Session} (h : s.Le s') (h' : s'.Le s'') : s.Le s'' :=
  ⟨Nat.le_trans h.nextId h'.nextId, fun id hid =>
    (h'.distances id (Nat.lt_of_lt_of_le hid h.nextId)).trans (h.distances id hid)⟩

theorem nextId_prepare (s : Session) (source : String) :
    (∀ t, Tree.parse source s.nextId = .ok t → (s.prepare source).2.nextId = t.nextId) ∧
      ∀ errors, Tree.parse source s.nextId = .error errors →
        (s.prepare source).2.nextId = s.nextId := by
  constructor
  · intro t ht
    cases hr : Resolution.ofProgram t.body with
    | ok r => rw [prepare_of_parse ht hr]
    | error e => simp only [prepare, parse, ht, resolve, hr]
  · intro errors he
    simp only [prepare, parse, he]

theorem le_learn {s : Session} {source : String} {t : Tree} {r : Resolution}
    (ht : Tree.parse source s.nextId = .ok t) (hr : Resolution.ofProgram t.body = .ok r) :
    s.Le ⟨s.machine.learn r.distances, t.nextId⟩ :=
  ⟨(fresh_of_parse ht).1, fun _ hid => Run.Log.learn_old hr (fresh_of_parse ht).2 hid⟩

theorem le_prepare (s : Session) (source : String) : s.Le (s.prepare source).2 := by
  cases hp : s.prepare source with
  | mk result s' =>
    cases result with
    | error f =>
      obtain ⟨hm, hle⟩ := prepare_eq_error hp
      exact ⟨hle, fun id _ => by rw [hm]⟩
    | ok p =>
      obtain ⟨t, r, ht, hr, -, rfl⟩ := prepare_eq_ok hp
      exact le_learn ht hr

theorem biUnique_usesAlike (n n' : ExprId) :
    Relator.BiUnique (Resolution.UsesAlike (Likeness.counted n n')) := by
  constructor
  · rintro ⟨_, _⟩ ⟨_, _⟩ ⟨_, _⟩ ⟨⟨k, rfl, rfl⟩, ⟨⟩⟩ ⟨⟨k', rfl, h⟩, ⟨⟩⟩
    exact Prod.ext (congrArg (n + ·) (Nat.add_left_cancel h)) rfl
  · rintro ⟨_, _⟩ ⟨_, _⟩ ⟨_, _⟩ ⟨⟨k, rfl, rfl⟩, ⟨⟩⟩ ⟨⟨k', h, rfl⟩, ⟨⟩⟩
    exact Prod.ext (congrArg (n' + ·) (Nat.add_left_cancel h)) rfl

/-- The same is known of two expressions that have been counted alike. -/
theorem known_eq {n n' j : ExprId} {uses uses' : List (ExprId × Nat)}
    (huses : List.Forall₂ (Resolution.UsesAlike (Likeness.counted n n')) uses uses')
    {o o' : Option Nat} (ho : ∀ hops, o = some hops ↔ (n + j, hops) ∈ uses)
    (ho' : ∀ hops, o' = some hops ↔ (n' + j, hops) ∈ uses') : o' = o := by
  refine Option.ext fun hops => ?_
  have hpair : Resolution.UsesAlike (Likeness.counted n n') (n + j, hops) (n' + j, hops) :=
    ⟨⟨j, rfl, rfl⟩, rfl⟩
  rw [ho, ho']
  exact (List.rel_mem (biUnique_usesAlike n n') hpair huses).symm

/-- Sessions that have learnt the same of expressions that are counted alike stay alike. -/
theorem Alike.counting {s s' t t' : Session} (hs : s.Alike L s') (hle : s.Le t) (hle' : s'.Le t')
    (hm : t.machine = { s.machine with distances := t.machine.distances })
    (hm' : t'.machine = { s'.machine with distances := t'.machine.distances })
    (ht : t.Numbered) (ht' : t'.Numbered) {n n' stop : ExprId}
    (hnew : ∀ j, n + j < stop → n + j < t.nextId ∧ n' + j < t'.nextId ∧
      t'.machine.distances[n' + j]? = t.machine.distances[n + j]?) :
    t.Alike (L.counting n n' stop) t' := by
  refine ⟨?_, ?_, ht, ht'⟩
  · rw [hm, hm']
    refine { hs.machine with
      heap := hs.machine.heap.mono (Likeness.grows_counting _ _ _ _).le, distances := ?_ }
    rintro id id' (hold | ⟨hlt, j, rfl, rfl⟩)
    · obtain ⟨hid, hid'⟩ := hs.ids id id' hold
      dsimp only
      rw [hle.distances id hid, hle'.distances id' hid']
      exact hs.machine.distances id id' hold
    · exact (hnew j hlt).2.2
  · rintro id id' (hold | ⟨hlt, j, rfl, rfl⟩)
    · obtain ⟨hid, hid'⟩ := hs.ids id id' hold
      exact ⟨Nat.lt_of_lt_of_le hid hle.nextId, Nat.lt_of_lt_of_le hid' hle'.nextId⟩
    · exact ⟨(hnew j hlt).1, (hnew j hlt).2.1⟩

/-- Whatever comes of preparing a text, the machine learns distances at most. -/
theorem machine_prepare (s : Session) (source : String) :
    (s.prepare source).2.machine =
      { s.machine with distances := (s.prepare source).2.machine.distances } := by
  cases hp : s.prepare source with
  | mk result s' =>
    cases result with
    | error f =>
      rw [(prepare_eq_error hp).1]
    | ok p =>
      obtain ⟨t, r, -, -, -, rfl⟩ := prepare_eq_ok hp
      rfl

theorem Numbered.prepare {s : Session} (hs : s.Numbered) (source : String) :
    (s.prepare source).2.Numbered := by
  cases hp : s.prepare source with
  | mk result s' =>
    cases result with
    | error f =>
      obtain ⟨hm, hle⟩ := prepare_eq_error hp
      intro id hops hid
      rw [hm] at hid
      exact Nat.lt_of_lt_of_le (hs id hops hid) hle
    | ok p =>
      obtain ⟨t, r, ht, hr, -, rfl⟩ := prepare_eq_ok hp
      exact hs.learn ht hr

/-- A text that is prepared in one session alone does not matter. -/
theorem Alike.prepareLeft {s s' : Session} (hs : s.Alike L s') (source : String) :
    ∃ L', L.Grows L' ∧ (s.prepare source).2.Alike L' s' :=
  ⟨_, L.grows_counting 0 0 0, hs.counting (s.le_prepare source) (.refl s')
    (s.machine_prepare source) rfl (hs.numbered.prepare source) hs.numbered' fun _ => nofun⟩

/-- A text that can be prepared can be prepared wherever its expressions are counted from. -/
theorem counted_again {source : String} {n : ExprId} {t : Tree} {r : Resolution}
    (ht : Tree.parse source n = .ok t) (hr : Resolution.ofProgram t.body = .ok r) (n' : ExprId) :
    ∃ t' r', Tree.parse source n' = .ok t' ∧ Resolution.ofProgram t'.body = .ok r' ∧
      t.Alike (.counted n n') t' ∧
      List.Forall₂ (Resolution.UsesAlike (.counted n n')) r.distances r'.distances ∧
      r.warnings = r'.warnings := by
  have hL := Likeness.regular_counted n n'
  have hparse : Parser.Alike (.counted n n') (Tree.parse source n) (Tree.parse source n') :=
    Tree.parse_alike hL.toClosed (fun _ => rfl) ⟨0, rfl, rfl⟩ source
  rw [ht] at hparse
  generalize ht' : Tree.parse source n' = x at hparse
  cases hparse with
  | @ok _ t' htree =>
  rcases Resolution.ofProgram_alike hL htree.body with ⟨r₁, r', hr₁, hr', hrr⟩ | ⟨e, e', he, -⟩
  case inr => rw [hr] at he; cases he
  rw [hr] at hr₁
  cases hr₁
  have hwarnings := hrr.warnings.imp fun _ _ hw => hw.eq
  rw [List.forall₂_eq_eq_eq] at hwarnings
  exact ⟨t', r', rfl, hr', htree, hrr.distances, hwarnings⟩

/-- A text is prepared alike in sessions that are alike. -/
theorem Alike.prepare {s s' : Session} (hs : s.Alike L s') (hspan : ∀ a, L.span a a)
    (source : String) :
    ∃ L', L.Grows L' ∧ Prepares L' (s.prepare source) (s'.prepare source) := by
  have hL := Likeness.regular_counted s.nextId s'.nextId
  have hparse := Tree.parse_alike hL.toClosed (fun _ => rfl) ⟨0, rfl, rfl⟩ source
  generalize ht : Tree.parse source s.nextId = x at hparse
  generalize ht' : Tree.parse source s'.nextId = x' at hparse
  cases hparse with
  | error herrors =>
    refine ⟨L, .refl L, ?_⟩
    have heq := herrors.imp fun _ _ he => he.eq
    rw [List.forall₂_eq_eq_eq] at heq
    rw [Session.prepare, Session.prepare, parse, parse, ht, ht', heq]
    exact .error _ hs
  | @ok t t' htree =>
    obtain ⟨hle, hf⟩ := fresh_of_parse ht
    obtain ⟨hle', -⟩ := fresh_of_parse ht'
    rcases Resolution.ofProgram_alike hL htree.body with
      ⟨r, r', hr, hr', hrr⟩ | ⟨e, e', he, he', hee⟩
    · refine ⟨_, L.grows_counting s.nextId s'.nextId t.nextId, ?_⟩
      rw [prepare_of_parse ht hr, prepare_of_parse ht' hr']
      refine .ok ⟨Stmt.Alike.imps htree.body (Likeness.covers_counting hspan hf), ?_⟩ ?_
      · exact List.forall₂_eq_eq_eq ▸ hrr.warnings.imp fun w w' hw => hw.eq
      refine hs.counting (le_learn ht hr) (le_learn ht' hr') rfl rfl (hs.numbered.learn ht hr)
        (hs.numbered'.learn ht' hr') fun j hj => ⟨hj, htree.lt_nextId hj, ?_⟩
      exact known_eq hrr.distances (hs.numbered.learnt ht hr (Nat.le_add_right _ _))
        (hs.numbered'.learnt ht' hr' (Nat.le_add_right _ _))
    · refine ⟨L, .refl L, ?_⟩
      simp only [Session.prepare, parse, ht, ht', resolve, he, he', hee.eq]
      refine .error _ ⟨hs.machine, fun id id' hid => ?_, hs.numbered.advance hle,
        hs.numbered'.advance hle'⟩
      obtain ⟨hlt, hlt'⟩ := hs.ids id id' hid
      exact ⟨Nat.lt_of_lt_of_le hlt hle, Nat.lt_of_lt_of_le hlt' hle'⟩

/-! ## Running -/

theorem nextId_evaluate {α : Type} (s : Session) (e : Eval α) :
    (s.evaluate e).2.nextId = s.nextId := by
  obtain ⟨m, n⟩ := s
  unfold evaluate
  dsimp only
  cases e m with
  | ok a m' => rfl
  | error stop m' => cases stop <;> rfl

theorem le_execute (s : Session) (fuel : Nat) (p : Program) : s.Le (s.execute fuel p).2 := by
  refine ⟨Nat.le_of_eq (s.nextId_evaluate _).symm, fun id _ => ?_⟩
  have := Eval.program_keeps_distances fuel p.body s.machine
  rw [execute, machine_evaluate, this]

/-- An evaluation that agrees with another leaves sessions alike that are. -/
theorem Alike.evaluate {α : Type} {R : α → α → Prop} {s s' : Session} (hs : s.Alike L s')
    {e e' : Eval α} (h : Eval.Agree L R e e')
    (hd : (Run.machineOf (e s.machine)).distances = s.machine.distances)
    (hd' : (Run.machineOf (e' s'.machine)).distances = s'.machine.distances) :
    Ends L R (s.evaluate e) (s'.evaluate e') := by
  have hends := h _ _ hs.machine
  obtain ⟨m, n⟩ := s
  obtain ⟨m', n'⟩ := s'
  have hafter (t t' : Machine) (ht : t.Alike L t') (heq : t.distances = m.distances)
      (heq' : t'.distances = m'.distances) : Alike L ⟨t, n⟩ ⟨t', n'⟩ :=
    ⟨ht, hs.ids, fun id hops hid => hs.numbered id hops (heq ▸ hid),
      fun id hops hid => hs.numbered' id hops (heq' ▸ hid)⟩
  unfold Session.evaluate
  dsimp only at hends hd hd' ⊢
  generalize e m = r at hends hd
  generalize e' m' = r' at hends hd'
  cases hends with
  | ok ha ht => exact ⟨.done ha, hafter _ _ ht hd hd'⟩
  | error hstop ht =>
    cases hstop with
    | error he => exact ⟨.failed (.runtime he), hafter _ _ ht hd hd'⟩
    | outOfFuel => exact ⟨.outOfFuel, hafter _ _ ht hd hd'⟩

/-- Programs that are alike run alike. -/
theorem Alike.execute {s s' : Session} (hs : s.Alike L s') {p p' : Program} (hp : p.Alike L p')
    (fuel : Nat) : Ends L Eq (s.execute fuel p) (s'.execute fuel p') :=
  have hdistances (m : Machine) (ss : List Stmt) :
      (Run.machineOf (Eval.program fuel ss m)).distances = m.distances :=
    Eval.program_keeps_distances fuel ss m
  hs.evaluate (Eval.agree_program fuel hp.body) (hdistances _ _) (hdistances _ _)

/-- To run a text that can be prepared is to execute it. -/
theorem run_of_prepare {s s₁ : Session} {source : String} {p : Program}
    (h : s.prepare source = (.ok p, s₁)) (fuel : Nat) :
    s.run fuel source =
      ((s₁.execute fuel p).1.map fun _ => p.warnings, (s₁.execute fuel p).2) := by
  simp only [Session.run, h]
  cases s₁.execute fuel p with
  | mk outcome s₂ => cases outcome <;> rfl

theorem run_of_error {s s₁ : Session} {source : String} {f : Failure}
    (h : s.prepare source = (.error f, s₁)) (fuel : Nat) :
    s.run fuel source = (.failed f, s₁) := by
  simp only [Session.run, h]

/-- A text is run alike in sessions that are alike. -/
theorem Alike.run {s s' : Session} (hs : s.Alike L s') (hspan : ∀ a, L.span a a)
    (source : String) (fuel : Nat) :
    ∃ L', L.Grows L' ∧ Ends L' Eq (s.run fuel source) (s'.run fuel source) := by
  obtain ⟨L', hgrows, hprepares⟩ := hs.prepare hspan source
  refine ⟨L', hgrows, ?_⟩
  generalize hp : s.prepare source = x at hprepares
  generalize hp' : s'.prepare source = x' at hprepares
  cases hprepares with
  | error f hs =>
    rw [run_of_error hp, run_of_error hp']
    exact ⟨.failed (.same f), hs⟩
  | ok hprogram hs =>
    obtain ⟨houtcome, hsession⟩ := hs.execute hprogram fuel
    rw [run_of_prepare hp, run_of_prepare hp']
    exact ⟨houtcome.map fun _ _ _ => hprogram.warnings, hsession⟩

end Session

end Lox

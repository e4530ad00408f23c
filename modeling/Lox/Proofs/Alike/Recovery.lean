import Lox.Proofs.Alike.Fence
import Lox.Proofs.Alike.Parse
import Lox.Proofs.Alike.Tokens
import Lox.Proofs.Syntax.Fuel

/-!
# Errors of a text in segments

A text on several lines is read segment by segment, if each segment is either a program of its own
or one statement that ends with its only semicolon: reading it among the others finds the errors
that reading it alone finds, moved to its place, and goes on with the segment behind it.

    Passable ts es    whatever opens behind the tokens `ts`, the program is read up to there with
                      the errors `es`, and from there on as it would have been read anyway

Both kinds of segments are passable with their errors, what is passable can be put in a row, and at
the end of the text the errors are those of all segments together.
-/

namespace Lox

open Lox.Parser Grammar

/-! ## Segments -/

def ParseError.moved (d : Offset) (e : ParseError) : ParseError := { e with span := e.span.moved d }

/-- The errors that are shown instead of a program. -/
def Tree.faults (source : String) (firstId : ExprId) : List ParseError :=
  match Tree.parse source firstId with
  | .ok _ => []
  | .error es => es

/-- The tokens of one statement, be it well-formed or not: its only semicolon is the last of them,
there is no opening brace and no `for`, and it does not begin with `else`. -/
structure Token.OneStatement (ts : List Token) : Prop where
  ends : ∃ us t, ts = us ++ [t] ∧ t.kind = .symbol .semicolon ∧
    ∀ u ∈ us, u.kind ≠ .symbol .semicolon
  brace : ∀ t ∈ ts, t.kind ≠ .symbol .leftBrace
  «for» : ∀ t ∈ ts, t.kind ≠ .keyword .for
  «else» : ts.head?.map Token.kind ≠ some (.keyword .else)

/-- A text without illegal tokens that can be read by itself, or that is one statement. -/
structure Segment (firstId : ExprId) (source : String) : Prop where
  valid : ∀ t ∈ Token.ofSource source, ∀ e, t.kind ≠ .invalid e
  form : (∃ tree, Tree.parse source firstId = .ok tree) ∨
    ∃ ts e, Token.ofSource source = ts ++ [e] ∧ Token.OneStatement ts

/-- The errors of all segments, each moved as far as the text before it is long. -/
def Segment.faults (firstId : ExprId) : List String → List ParseError
  | [] => []
  | source :: rest =>
    Tree.faults source firstId ++ (faults firstId rest).map (.moved (.behind source))

/-! ## Offsets in a row -/

namespace Offset

/-- Both ways one after the other. -/
def andThen (d d' : Offset) : Offset := ⟨d.bytes + d'.bytes, d.lines + d'.lines⟩

theorem moved_zero_token : Token.moved ⟨0, 0⟩ = id := rfl

theorem moved_zero_error : ParseError.moved ⟨0, 0⟩ = id := rfl

variable (d d' : Offset)

theorem moved_moved_span (a : Span) : (a.moved d).moved d' = a.moved (d.andThen d') := by
  simp only [Span.moved, Position.moved, andThen, Nat.add_assoc]

theorem map_moved_map_moved_token (ts : List Token) :
    (ts.map (Token.moved d)).map (Token.moved d') = ts.map (Token.moved (d.andThen d')) := by
  rw [List.map_map]
  refine List.map_congr_left fun t _ => ?_
  exact congrArg (Token.mk t.kind) (moved_moved_span d d' t.span)

theorem map_moved_map_moved_error (es : List ParseError) :
    (es.map (ParseError.moved d)).map (ParseError.moved d') =
      es.map (ParseError.moved (d.andThen d')) := by
  rw [List.map_map]
  refine List.map_congr_left fun e _ => ?_
  exact congrArg (ParseError.mk · e.kind) (moved_moved_span d d' e.span)

end Offset

/-! ## Passing tokens -/

namespace Parser

/-- In the tokens `ts` the errors `es` are found, and behind them the program is read on, whatever
it is. -/
structure Passable (ts : List Token) (es : List ParseError) : Prop where
  opens : ∀ rest, Token.Opens rest → Token.Opens (ts ++ rest)
  reads : ∀ (n : Nat) (s : State) (rest : List Token), fuelFor (ts.length + 1) ≤ n →
    Token.Opens rest → s.current :: s.upcoming = ts ++ rest →
      ∃ body t c, c ≤ ts.length ∧ t.current :: t.upcoming = rest ∧ t.errors = s.errors ++ es ∧
        ∀ k, program (recover (declaration n)) (k + c) s =
          ((body ++ ·) <$> program (recover (declaration n)) k) t

variable {ts us : List Token} {es fs : List ParseError}

theorem Passable.nil : Passable [] [] where
  opens _ ho := ho
  reads n s rest _ _ hs :=
    ⟨[], s, 0, Nat.zero_le _, hs, (List.append_nil _).symm, fun _ => by simp⟩

theorem Passable.append (h : Passable ts es) (h' : Passable us fs) :
    Passable (ts ++ us) (es ++ fs) where
  opens rest ho := by
    rw [List.append_assoc]
    exact h.opens _ (h'.opens rest ho)
  reads n s rest hn ho hs := by
    unfold fuelFor at hn
    rw [List.length_append] at hn
    rw [List.append_assoc] at hs
    obtain ⟨body, t, c, hc, ht, het, hbody⟩ :=
      h.reads n s _ (by unfold fuelFor; omega) (h'.opens rest ho) hs
    obtain ⟨body', u, c', hc', hu, heu, hbody'⟩ :=
      h'.reads n t rest (by unfold fuelFor; omega) ho ht
    refine ⟨body ++ body', u, c' + c, ?_, hu, ?_, fun k => ?_⟩
    · rw [List.length_append]
      omega
    · rw [heu, het, List.append_assoc]
    · rw [← Nat.add_assoc, hbody, map_congr (hbody' k), Functor.map_map]
      simp only [List.append_assoc]

/-- At the end of the text all that has been read is there, and all errors. -/
theorem Passable.program (h : Passable ts es) {e : Token} (he : e.kind = .endOfFile) {s : State}
    (hs : s.current :: s.upcoming = ts ++ [e]) {n : Nat} (hn : fuelFor (ts.length + 1) ≤ n) :
    ∃ body t, program (recover (declaration n)) n s = .ok body t ∧ t.errors = s.errors ++ es := by
  obtain ⟨body, t, c, hc, ht, het, hbody⟩ :=
    h.reads n s [e] hn ⟨e, [], rfl, by simp [he], by simp [he]⟩ hs
  obtain ⟨k, hk⟩ : ∃ k, n = k + 1 + c := ⟨n - c - 1, by unfold fuelFor at hn; omega⟩
  have hend : t.current.kind.isEndOfFile = true := by
    rw [(List.cons.inj ht).1, Token.isEndOfFile_iff, he]
  have hlast : Parser.program (recover (declaration n)) (k + 1) t = .ok [] t := by
    rw [program_apply, if_pos hend]
  refine ⟨body ++ [], t, ?_, het⟩
  conv_lhs => rw [show Parser.program (recover (declaration n)) n =
    Parser.program (recover (declaration n)) (k + 1 + c) from congrArg _ hk]
  rw [hbody, EStateM.map_of_ok hlast]

/-! ## Segments pass -/

/-- Identities of the one reading, from `i` on, and of the other, from `j` on, at places that have
moved. -/
def movedAlong (d : Offset) (i j : ExprId) : Likeness :=
  ⟨fun a b => b + i = a + j, fun a b => b = a.moved d⟩

theorem closed_movedAlong (d : Offset) (i j : ExprId) : (movedAlong d i j).Closed where
  next {a b} h := by
    have h : (b + i : Nat) = a + j := h
    exact (Nat.add_right_comm b 1 i).trans ((congrArg (· + 1) h).trans (Nat.add_right_comm a j 1))
  extend := (Likeness.regular_moved d).extend

theorem forall₂_movedAlong (d : Offset) (i j : ExprId) (ts : List Token) :
    List.Forall₂ (Token.Alike (movedAlong d i j)) ts (ts.map (.moved d)) :=
  List.forall₂_map_right_iff.2 (List.forall₂_same.2 fun _ _ => ⟨rfl, rfl⟩)

theorem errors_movedAlong {d : Offset} {i j : ExprId}
    (h : List.Forall₂ (ParseError.Alike (movedAlong d i j)) es fs) : fs = es.map (.moved d) := by
  induction h with
  | nil => rfl
  | @cons e f es fs he _ ih =>
    obtain ⟨span, kind⟩ := f
    obtain ⟨rfl, rfl⟩ := he
    rw [ih]
    rfl

/-- The first of the tokens that are moved is no `else` if it was none before. -/
theorem opens_moved {ts rest : List Token} (hne : ts.head?.map Token.kind ≠ some (.keyword .else))
    (hvalid : ∀ t ∈ ts, ∀ e, t.kind ≠ .invalid e) (d : Offset) (ho : Token.Opens rest) :
    Token.Opens (ts.map (.moved d) ++ rest) := by
  cases ts with
  | nil => exact ho
  | cons t ts =>
    exact ⟨t.moved d, _, rfl, fun ht => hne (congrArg some ht), hvalid t List.mem_cons_self⟩

theorem start_valid {ts : List Token} (h : ∀ t ∈ ts, ∀ e, t.kind ≠ .invalid e) (hne : ts ≠ [])
    (firstId : ExprId) : (State.start ts firstId).previous = ⟨.endOfFile, .nowhere⟩ ∧
      (State.start ts firstId).current :: (State.start ts firstId).upcoming = ts ∧
      (State.start ts firstId).errors = [] ∧ (State.start ts firstId).nextId = firstId := by
  cases ts with
  | nil => exact absurd rfl hne
  | cons t ts =>
    rw [State.start_cons (h t List.mem_cons_self)]
    exact ⟨rfl, rfl, rfl, rfl⟩

section

variable {source : String} {firstId : ExprId} {e : Token} (hts : Token.ofSource source = ts ++ [e])
include hts

theorem kind_last : e.kind = .endOfFile ∧ ∀ t ∈ ts, t.kind ≠ .endOfFile := by
  obtain ⟨ks, hks, hne⟩ := Token.ofSource_ended source
  rw [hts, List.map_append] at hks
  obtain ⟨rfl, hend⟩ := List.append_inj' hks rfl
  exact ⟨List.singleton_inj.1 hend, fun t ht hk => hne (hk ▸ List.mem_map_of_mem ht)⟩

/-- A text that is read by itself passes without an error. -/
theorem passable_of_parse {tree : Tree} (h : Tree.parse source firstId = .ok tree) (d : Offset) :
    Passable (ts.map (.moved d)) [] := by
  have hprogram := ((parse_iff_isProgram source firstId).2 tree h).1
  have hvalid := hprogram.valid
  have hend := (kind_last hts).1
  obtain ⟨s₀, hrun, he, -⟩ := Tree.parse_eq_ok.1 h
  have hended := Token.ofSource_ended source
  obtain ⟨ks, hks, hd⟩ := hprogram
  rw [hts] at hks hvalid hrun hended
  rw [List.map_append] at hks
  obtain ⟨rfl, -⟩ := List.append_inj' hks rfl
  have hlen := hd.length_le
  rw [List.length_map] at hlen
  refine ⟨fun rest ho => opens_moved ?_ (fun t ht => hvalid t (List.mem_append_left _ ht)) d ho,
    fun n s rest hn ho hs => ?_⟩
  · have := head?_ne_else_of_declarations hd (k := .endOfFile) nofun []
    cases ts with
    | nil => exact nofun
    | cons t ts => exact this
  · obtain ⟨t, us, rfl, hne, ht⟩ := ho
    let C := Comparison.upTo (closed_movedAlong d firstId s.nextId) s.errors us hend hne ht
    have hclean := State.start_of_valid firstId hvalid
    have hinput : (State.start (ts ++ [e]) firstId).input = _ :=
      State.input_start (by simp) hclean.2
    have hstart : (State.start (ts ++ [e]) firstId).Alike C
        { s with previous := ⟨.endOfFile, Span.nowhere.moved d⟩ } := by
      obtain ⟨hprevious, htokens, herrors, hid⟩ := start_valid hvalid (by simp) firstId
      refine ⟨?_, ⟨ts, _, htokens, hs, forall₂_movedAlong d _ _ ts⟩, ?_, ?_⟩
      · rw [hprevious]
        exact ⟨rfl, rfl⟩
      · rw [herrors]
        exact ⟨[], (List.append_nil _).symm, .nil⟩
      · rw [hid]
        exact Nat.add_comm _ _
    have hended' : (State.start (ts ++ [e]) firstId).Ended := by
      rw [State.Ended, hinput]
      exact hended
    have hfuel : C.Fuel (fuelFor (ts ++ [e]).length) n := by
      refine ⟨?_, False.elim⟩
      rwa [List.length_append, List.length_singleton, ← List.length_map (Token.moved d)]
    obtain ⟨body, t', q, -, ht', hspent, hcontinues⟩ :=
      program_continues (C := C) (List.cons_ne_nil _ _) hfuel hstart hended' hrun he
    obtain ⟨es, hes, halike⟩ := ht'.errors
    rw [he, List.forall₂_nil_left_iff] at halike
    refine ⟨body, t', tree.body.length, ?_, (ht'.spent hspent).1, ?_, hcontinues⟩
    · rwa [List.length_map]
    · rw [halike] at hes
      exact hes

theorem faults_of_program {body : List Stmt} {s : State}
    (hrun : program (recover (declaration (fuelFor (ts ++ [e]).length)))
      (fuelFor (ts ++ [e]).length) (.start (ts ++ [e]) firstId) = .ok body s) :
    Tree.faults source firstId = s.errors := by
  rw [Tree.faults, Tree.parse, hts, run?, hrun]
  dsimp only [Option.getD_some]
  cases s.errors <;> rfl

end

/-- One statement that is read among others is left where it ends, with the errors that reading it
alone finds. -/
theorem recover_oneStatement {e : Token} (hend : e.kind = .endOfFile)
    (hinside : ∀ t ∈ ts, t.kind ≠ .endOfFile) (hvalid : ∀ t ∈ ts, ∀ e, t.kind ≠ .invalid e)
    (h : Token.OneStatement ts) {rest : List Token} (ho : Token.Opens rest) {d : Offset}
    {firstId : ExprId} {n n' : Nat} (hn : n ≤ n') {s u : State} {o : Option Stmt}
    (hs : s.current :: s.upcoming = ts.map (.moved d) ++ rest)
    (hu : recover (declaration n) (.start (ts ++ [e]) firstId) = .ok o u) :
    u.current.kind = .endOfFile ∧ ∃ o' t, recover (declaration n') s = .ok o' t ∧
      t.current :: t.upcoming = rest ∧ t.errors = s.errors ++ u.errors.map (.moved d) := by
  have hvalid' : ∀ t ∈ ts ++ [e], ∀ e, t.kind ≠ .invalid e := by
    simpa [or_imp, forall_and, hend] using hvalid
  obtain ⟨hprevious, htokens, herrors, hid⟩ := start_valid hvalid' (by simp) firstId
  generalize State.start (ts ++ [e]) firstId = start at *
  -- the same with the identities and the places that the statement has in the longer text
  let C := Comparison.whole (closed_movedAlong d firstId s.nextId) True
  obtain ⟨p, ps, hps⟩ : ∃ p ps, ts.map (.moved d) ++ [e.moved d] = p :: ps :=
    List.exists_cons_of_ne_nil (by simp)
  let moved : State := ⟨⟨.endOfFile, Span.nowhere.moved d⟩, p, ps, [], s.nextId⟩
  have hstart : start.Alike C moved := by
    refine ⟨?_, ⟨ts ++ [e], _, ?_, (List.append_nil _).symm, ?_⟩, ?_, ?_⟩
    · rw [hprevious]
      exact ⟨rfl, rfl⟩
    · exact htokens.trans (List.append_nil _).symm
    · have := forall₂_movedAlong d firstId s.nextId (ts ++ [e])
      rwa [List.map_append, List.map_singleton, hps] at this
    · rw [herrors]
      exact ⟨[], rfl, .nil⟩
    · rw [hid]
      exact Nat.add_comm _ _
  obtain ⟨o', u', hu', -, halike⟩ := (mirrors_recover (rulesMirror (C := C) (n := n)
    ⟨Nat.le_refl n, fun _ => rfl⟩).declaration).ok trivial hstart hu (.inl trivial)
  -- and with what comes behind it there
  obtain ⟨us, semicolon, rfl, hsemicolon, hplain⟩ := h.ends
  let F : Fence :=
    { semicolon := semicolon.moved d
      kind := hsemicolon
      behind := [e.moved d]
      behind' := rest
      opens := ⟨e.moved d, [], rfl, hend ▸ nofun, hend ▸ nofun⟩
      opens' := ho
      earlier := s.errors }
  have hbefore : F.Before (us.map (.moved d)) moved s := by
    refine ⟨⟨rfl, (List.append_nil _).symm⟩, ?_, ?_, ?_⟩
    · refine List.forall_mem_map.2 fun v hv => ?_
      have hv' : v ∈ us ++ [semicolon] := List.mem_append_left _ hv
      exact ⟨hplain v hv, h.brace v hv', h.for v hv', hinside v hv', hvalid v hv'⟩
    · show p :: ps = _
      rw [← hps, List.map_append, List.append_assoc]
      rfl
    · rw [hs, List.map_append, List.append_assoc]
      rfl
  have hends := ((fencedRules F hn).declaration moved s (.fresh hbefore)).recover
  rw [hu'] at hends
  obtain ⟨t, ht, hpast⟩ := hends
  cases hpast with
  | past hsame _ _ hbehind hbehind' =>
    obtain ⟨es, hes, herrors⟩ := halike.errors
    obtain ⟨xs, xs', hxs, hxs', hinput⟩ := halike.input
    refine ⟨?_, o', t, ht, hbehind', ?_⟩
    · obtain rfl : xs' = [e.moved d] :=
        (List.append_nil xs').symm.trans (hxs'.symm.trans hbehind)
      cases hinput with
      | cons hx _ => exact (congrArg Token.kind (List.cons.inj hxs).1).trans (hx.kind.trans hend)
    · rw [hsame.errors, hes, errors_movedAlong herrors]
      rfl

section

variable {source : String} {firstId : ExprId} {e : Token} (hts : Token.ofSource source = ts ++ [e])
include hts

/-- One statement passes with its errors. -/
theorem passable_of_oneStatement (hvalid : ∀ t ∈ ts, ∀ e, t.kind ≠ .invalid e)
    (h : Token.OneStatement ts) (d : Offset) :
    Passable (ts.map (.moved d)) ((Tree.faults source firstId).map (.moved d)) := by
  refine ⟨fun rest ho => opens_moved h.else hvalid d ho, fun n s rest hn ho hs => ?_⟩
  obtain ⟨hend, hinside⟩ := kind_last hts
  obtain ⟨ks, hks, hne⟩ := Token.ofSource_ended source
  rw [hts] at hks
  obtain ⟨body, s₀, hrun⟩ := exists_program_eq_ok hks hne firstId (Nat.le_refl _)
  have hfaults := faults_of_program hts hrun
  have hfuel : fuelFor (ts ++ [e]).length ≤ n := by
    rwa [List.length_append, List.length_singleton, ← List.length_map (Token.moved d)]
  obtain ⟨t, us, rfl⟩ : ∃ t us, ts = t :: us := by
    obtain ⟨us, t, rfl, -⟩ := h.ends
    exact List.exists_cons_of_ne_nil (by simp)
  have ht : ¬t.kind.isEndOfFile = true :=
    mt (Token.isEndOfFile_iff _).1 (hinside t List.mem_cons_self)
  obtain ⟨m, hm⟩ : ∃ m, fuelFor (t :: us ++ [e]).length = m + 2 :=
    ⟨fuelFor (t :: us ++ [e]).length - 2, by unfold fuelFor; omega⟩
  rw [hm] at hrun hfuel
  rw [program_apply, if_neg (by
    rw [List.cons_append, State.start_cons (hvalid t List.mem_cons_self)]
    exact ht)] at hrun
  obtain ⟨o, u, hu, hrun⟩ := EStateM.bind_eq_ok.1 hrun
  obtain ⟨hu, o', s', hs', hrest, herrors⟩ :=
    recover_oneStatement hend hinside hvalid h ho hfuel hs hu
  have hlast : program (recover (declaration (m + 2))) (m + 1) u = .ok [] u := by
    rw [program_apply, if_pos ((Token.isEndOfFile_iff _).2 hu)]
  rw [EStateM.map_of_ok hlast] at hrun
  cases hrun
  refine ⟨o'.toList, s', 1, Nat.le_add_left _ _, hrest, hfaults ▸ herrors, fun k => ?_⟩
  rw [program_apply, if_neg (by
    rw [(List.cons.inj hs).1]
    exact ht), EStateM.bind_of_ok hs']

end

/-- A segment passes with its errors, wherever it stands. -/
theorem passable_segment {source : String} {firstId : ExprId} (h : Segment firstId source) :
    ∃ ts e, Token.ofSource source = ts ++ [e] ∧
      ∀ d, Passable (ts.map (.moved d)) ((Tree.faults source firstId).map (.moved d)) := by
  rcases h.form with ⟨tree, htree⟩ | ⟨ts, e, hts, hone⟩
  · obtain ⟨ts, e, hts, -⟩ := Token.ofSource_joined source "" h.valid
    refine ⟨ts, e, hts, fun d => ?_⟩
    rw [Tree.faults, htree]
    exact passable_of_parse hts htree d
  · refine ⟨ts, e, hts, passable_of_oneStatement hts (fun t ht => ?_) hone⟩
    exact h.valid t (hts ▸ List.mem_append_left _ ht)

/-- Segments on separate lines pass one after the other. -/
theorem passable_segments {firstId : ExprId} {segments : List String}
    (h : ∀ source ∈ segments, Segment firstId source) :
    ∃ ts e, Token.ofSource ("\n".intercalate segments) = ts ++ [e] ∧
      (∀ t ∈ ts, ∀ e, t.kind ≠ .invalid e) ∧
      ∀ d, Passable (ts.map (.moved d)) ((Segment.faults firstId segments).map (.moved d)) := by
  induction segments with
  | nil =>
    exact ⟨[], _, Token.allFrom_of_next (Token.next_of_some (k := .endOfFile) rfl),
      List.forall_mem_nil _, fun _ => .nil⟩
  | cons source rest ih =>
    have hsource := h source List.mem_cons_self
    obtain ⟨ts, e, hts, hpassable⟩ := passable_segment hsource
    have hvalid : ∀ t ∈ ts, ∀ e, t.kind ≠ .invalid e := fun t ht =>
      hsource.valid t (hts ▸ List.mem_append_left _ ht)
    cases rest with
    | nil =>
      refine ⟨ts, e, hts, hvalid, fun d => ?_⟩
      rw [Segment.faults, Segment.faults, List.map_nil, List.append_nil]
      exact hpassable d
    | cons source' rest =>
      obtain ⟨us, e', hus, hvalid', hpassable'⟩ := ih fun a ha => h a (List.mem_cons_of_mem _ ha)
      obtain ⟨ts', e'', hts', hjoined⟩ := Token.ofSource_joined source
        ("\n".intercalate (source' :: rest)) hsource.valid
      obtain ⟨rfl, -⟩ := List.append_inj' (hts'.symm.trans hts) rfl
      refine ⟨ts' ++ us.map (.moved (.behind source)), e'.moved (.behind source), ?_,
        List.forall_mem_append.2 ⟨hvalid, List.forall_mem_map.2 hvalid'⟩, fun d => ?_⟩
      · rw [String.intercalate_cons_cons, hjoined, hus, List.map_append, List.append_assoc]
        rfl
      · rw [Segment.faults, List.map_append, List.map_append, Offset.map_moved_map_moved_token,
          Offset.map_moved_map_moved_error]
        exact (hpassable d).append (hpassable' _)

end Parser

/-! ## The whole text -/

/-- A text is read as a program if it has no errors, and shows them otherwise. -/
theorem Tree.parse_iff_faults (source : String) (firstId : ExprId) :
    ((∃ tree, Tree.parse source firstId = .ok tree) ↔ Tree.faults source firstId = []) ∧
      (Tree.faults source firstId ≠ [] →
        Tree.parse source firstId = .error (Tree.faults source firstId)) := by
  obtain ⟨ks, hks, hne⟩ := Token.ofSource_ended source
  obtain ⟨body, s, hrun⟩ := exists_program_eq_ok hks hne firstId (Nat.le_refl _)
  have hparse : Tree.parse source firstId =
      if s.errors.isEmpty then .ok ⟨body, s.nextId⟩ else .error s.errors := by
    rw [Tree.parse, run?, hrun]
    rfl
  rw [Tree.faults, hparse]
  cases s.errors with
  | nil => exact ⟨⟨fun _ => rfl, fun _ => ⟨_, rfl⟩⟩, fun h => absurd rfl h⟩
  | cons e es =>
    refine ⟨⟨?_, fun h => absurd h (List.cons_ne_nil e es)⟩, fun _ => rfl⟩
    rintro ⟨tree, h⟩
    cases h

theorem Segment.faults_eq_nil {firstId : ExprId} {segments : List String} :
    faults firstId segments = [] ↔
      ∀ source ∈ segments, ∃ tree, Tree.parse source firstId = .ok tree := by
  induction segments with
  | nil => simp [faults]
  | cons source rest ih =>
    rw [faults, List.append_eq_nil_iff, List.map_eq_nil_iff, ih, List.forall_mem_cons,
      (Tree.parse_iff_faults source firstId).1]

/-- The errors of segments on separate lines are those of each of them, in order. -/
theorem Segment.faults_intercalate {firstId : ExprId} {segments : List String}
    (h : ∀ source ∈ segments, Segment firstId source) :
    Tree.faults ("\n".intercalate segments) firstId = faults firstId segments := by
  obtain ⟨ts, e, hts, hvalid, hpassable⟩ := passable_segments h
  have hend := (kind_last hts).1
  have hvalid : ∀ t ∈ ts ++ [e], ∀ e, t.kind ≠ .invalid e := by
    simpa [or_imp, forall_and, hend] using hvalid
  have hunmoved : Passable ts (faults firstId segments) := by
    have hzero := hpassable ⟨0, 0⟩
    rwa [Offset.moved_zero_token, Offset.moved_zero_error, List.map_id, List.map_id] at hzero
  obtain ⟨-, htokens, herrors, -⟩ := start_valid hvalid (by simp) firstId
  obtain ⟨body, t, hrun, ht⟩ := hunmoved.program hend htokens
    (n := fuelFor (ts ++ [e]).length) (by simp)
  rw [faults_of_program hts hrun, ht, herrors, List.nil_append]

/-- Recovery keeps to a bad statement.  A text whose segments stand on separate lines, each of them
a program of its own or one statement, good or bad, is read as a program if all segments are;
otherwise its errors are those that each segment shows when it is read alone, in order and moved to
where the segment stands. -/
theorem errors_stay_in_segments (firstId : ExprId) (segments : List String)
    (h : ∀ source ∈ segments, Segment firstId source) :
    ((∀ source ∈ segments, ∃ tree, Tree.parse source firstId = .ok tree) →
      ∃ tree, Tree.parse ("\n".intercalate segments) firstId = .ok tree) ∧
    ((∃ source ∈ segments, ∀ tree, Tree.parse source firstId ≠ .ok tree) →
      Tree.parse ("\n".intercalate segments) firstId =
        .error (Segment.faults firstId segments)) := by
  obtain ⟨hok, herror⟩ := Tree.parse_iff_faults ("\n".intercalate segments) firstId
  rw [Segment.faults_intercalate h] at hok herror
  refine ⟨fun hgood => hok.2 (Segment.faults_eq_nil.2 hgood), fun ⟨source, hmem, hbad⟩ => ?_⟩
  refine herror fun hnil => ?_
  obtain ⟨tree, htree⟩ := Segment.faults_eq_nil.1 hnil source hmem
  exact hbad tree htree

/-- An expression is missing on the first line and a closing parenthesis on the third. -/
theorem errors_stay_in_segments_lines :
    (∀ source ∈ ["print ;", "nil;", "(nil;"], Segment 0 source) ∧
    Tree.parse "print ;\nnil;\n(nil;" 0 =
      .error (Segment.faults 0 ["print ;", "nil;", "(nil;"]) ∧
    (Segment.faults 0 ["print ;", "nil;", "(nil;"]).map (·.span.start.line) = [1, 3] := by
  have hfirst : Token.ofSource "print ;" = [⟨.keyword .print, ⟨⟨0, 1, 1⟩, ⟨5, 1, 6⟩⟩⟩] ++
      [⟨.symbol .semicolon, ⟨⟨6, 1, 7⟩, ⟨7, 1, 8⟩⟩⟩] ++
      [⟨.endOfFile, ⟨⟨7, 1, 8⟩, ⟨7, 1, 8⟩⟩⟩] := by cbv
  have hsecond : Token.ofSource "nil;" = [⟨.keyword .nil, ⟨⟨0, 1, 1⟩, ⟨3, 1, 4⟩⟩⟩,
      ⟨.symbol .semicolon, ⟨⟨3, 1, 4⟩, ⟨4, 1, 5⟩⟩⟩, ⟨.endOfFile, ⟨⟨4, 1, 5⟩, ⟨4, 1, 5⟩⟩⟩] := by cbv
  have hthird : Token.ofSource "(nil;" = [⟨.symbol .leftParen, ⟨⟨0, 1, 1⟩, ⟨1, 1, 2⟩⟩⟩,
      ⟨.keyword .nil, ⟨⟨1, 1, 2⟩, ⟨4, 1, 5⟩⟩⟩] ++ [⟨.symbol .semicolon, ⟨⟨4, 1, 5⟩, ⟨5, 1, 6⟩⟩⟩] ++
      [⟨.endOfFile, ⟨⟨5, 1, 6⟩, ⟨5, 1, 6⟩⟩⟩] := by cbv
  have hgood : Tree.faults "nil;" 0 = [] := by cbv
  have hbad : (Tree.faults "print ;" 0).length = 1 := by cbv
  have hsegments : ∀ source ∈ ["print ;", "nil;", "(nil;"], Segment 0 source := by
    simp only [List.forall_mem_cons]
    refine ⟨⟨?_, .inr ⟨_, _, hfirst, ⟨⟨_, _, rfl, rfl, ?_⟩, ?_, ?_, ?_⟩⟩⟩,
      ⟨?_, .inl ((Tree.parse_iff_faults _ _).1.2 hgood)⟩,
      ⟨?_, .inr ⟨_, _, hthird, ⟨⟨_, _, rfl, rfl, ?_⟩, ?_, ?_, ?_⟩⟩⟩, List.forall_mem_nil _⟩
    all_goals simp [hfirst, hsecond, hthird]
  refine ⟨hsegments, (errors_stay_in_segments 0 _ hsegments).2 ⟨_, List.mem_cons_self, ?_⟩, ?_⟩
  · intro tree htree
    rw [(Tree.parse_iff_faults _ _).1.1 ⟨tree, htree⟩] at hbad
    cases hbad
  · cbv

end Lox

import Mathlib.Data.List.Forall2
import Lox.Proofs.Alike.Rules
import Lox.Proofs.Syntax.Language

/-!
# Texts that are read alike

A text that is read twice, from two first identities, is read as trees that are alike, or shows the
same errors.  And where a text goes on behind the end of another it is read as both of them in a
row, whatever stands between.

    Tree.parse source n = .ok t → Tree.parse more t.nextId = .ok u →
      ∃ body, Tree.parse joined n = .ok ⟨t.body ++ body, u.nextId⟩ ∧
        List.Forall₂ (Stmt.Alike ⟨Eq, S⟩) u.body body                                 (parse_joined)
-/

namespace Lox

open Lox.Parser Grammar

/-! ## The same text twice -/

structure Tree.Alike (L : Likeness) (t t' : Tree) : Prop where
  body : List.Forall₂ (Stmt.Alike L) t.body t'.body
  nextId : L.id t.nextId t'.nextId

/-- Both have been read as trees that are alike, or with errors that are alike. -/
inductive Parser.Alike (L : Likeness) :
    Except (List ParseError) Tree → Except (List ParseError) Tree → Prop
  | ok {t t' : Tree} : t.Alike L t' → Alike L (.ok t) (.ok t')
  | error {es es' : List ParseError} : List.Forall₂ (ParseError.Alike L) es es' →
      Alike L (.error es) (.error es')

/-- Nothing stands behind what is compared. -/
def Parser.Comparison.whole {L : Likeness} (hL : L.Closed) (exact : Prop) : Comparison where
  L := L
  closed := hL
  exact := exact
  behind := []
  behind' := []
  earlier := []
  of_exact _ := rfl
  ends := .inl ⟨rfl, rfl⟩

theorem Token.forall₂_alike_self {L : Likeness} (hspan : ∀ a, L.span a a) (ts : List Token) :
    List.Forall₂ (Token.Alike L) ts ts :=
  List.forall₂_same.2 fun t _ => ⟨rfl, hspan t.span⟩

theorem Parser.State.Alike.start {C : Comparison} {ts ts' : List Token} {first first' : ExprId}
    (hearlier : C.earlier = []) (hnowhere : C.L.span .nowhere .nowhere)
    (hts : List.Forall₂ (Token.Alike C.L) ts ts') (hid : C.L.id first first') :
    (start (ts ++ C.behind) first).Alike C (start (ts' ++ C.behind') first') :=
  .shift ⟨rfl, hnowhere⟩ ⟨[], by rw [hearlier]; rfl, .nil⟩ hid hts

/-- Texts whose tokens are alike are read alike. -/
theorem Tree.parse_of_tokens {L : Likeness} (hL : L.Closed) (hnowhere : L.span .nowhere .nowhere)
    {source source' : String}
    (hts : List.Forall₂ (Token.Alike L) (Token.ofSource source) (Token.ofSource source'))
    {firstId firstId' : ExprId} (hid : L.id firstId firstId') :
    Parser.Alike L (Tree.parse source firstId) (Tree.parse source' firstId') := by
  let C := Comparison.whole hL True
  have hfuel : C.Fuel (fuelFor (Token.ofSource source).length)
      (fuelFor (Token.ofSource source).length) := ⟨Nat.le_refl _, fun _ => rfl⟩
  have hprogram := mirrors_program (P := True)
    (mirrors_recover (rulesMirror hfuel).declaration) hfuel
  have hstart : (State.start (Token.ofSource source) firstId).Alike C
      (State.start (Token.ofSource source') firstId') := by
    have := State.Alike.start (C := C) rfl hnowhere hts hid
    simpa only [C, Comparison.whole, List.append_nil] using this
  rw [Tree.parse, Tree.parse, run?, run?, ← hts.length_eq]
  generalize State.start (Token.ofSource source) firstId = s at hstart
  generalize State.start (Token.ofSource source') firstId' = s' at hstart
  generalize fuelFor (Token.ofSource source).length = n at hprogram
  cases hrun : program (recover (declaration n)) n s with
  | ok body t =>
    obtain ⟨body', t', hrun', hbody, ht⟩ := hprogram.ok trivial hstart hrun (.inl trivial)
    rw [hrun']
    dsimp only [Option.getD_some]
    obtain ⟨es', hes', herrors⟩ := ht.errors
    rw [hes']
    generalize t.errors = es at herrors
    dsimp only [C, Comparison.whole, List.nil_append]
    cases herrors with
    | nil => exact .ok ⟨hbody, ht.nextId⟩
    | cons he hes => exact .error (.cons he hes)
  | error stop t =>
    obtain ⟨stop', t', hrun', hstop, ht⟩ := hprogram.error trivial trivial hstart hrun
    rw [hrun']
    cases hstop with
    | error he =>
      dsimp only [Option.getD_some]
      obtain ⟨es', hes', herrors⟩ := ht.errors
      rw [hes']
      exact .error (List.rel_append herrors (.cons he .nil))
    | outOfFuel => exact .error .nil

/-- However its expressions are numbered, a text is read alike. -/
theorem Tree.parse_alike {L : Likeness} (hL : L.Closed) (hspan : ∀ a, L.span a a)
    {firstId firstId' : ExprId} (hid : L.id firstId firstId') (source : String) :
    Parser.Alike L (Tree.parse source firstId) (Tree.parse source firstId') :=
  parse_of_tokens hL (hspan _) (Token.forall₂_alike_self hspan _) hid

/-! ## Where one text ends and the other goes on -/

namespace Parser

/-- The first text ends where the second, with errors from before, goes on with `t :: ts`. -/
def Comparison.upTo {L : Likeness} (hL : L.Closed) (earlier : List ParseError) {e t : Token}
    (ts : List Token)
    (he : e.kind = .endOfFile) (hne : t.kind ≠ .keyword .else)
    (hvalid : ∀ e, t.kind ≠ .invalid e) : Comparison where
  L := L
  closed := hL
  exact := False
  behind := [e]
  behind' := t :: ts
  earlier := earlier
  of_exact := False.elim
  ends := .inr ⟨⟨e, rfl, he⟩, t, ts, rfl, hne, hvalid⟩

theorem State.Ended.upcoming {s : State} (h : s.Ended) (hc : s.current.kind = .endOfFile) :
    s.upcoming = [] := by
  obtain ⟨ks, hk, he⟩ := h
  rw [input, hc] at hk
  cases ks with
  | nil => simpa using hk
  | cons k ks => exact absurd ((List.cons.inj hk).1 ▸ List.mem_cons_self) he

theorem recover_eq_ok {α : Type} {rule : Rule α} {s t : State} {o : Option α}
    (h : recover rule s = .ok o t) (he : t.errors = []) : ∃ a, o = some a ∧ rule s = .ok a t := by
  unfold recover at h
  split at h
  · next a u hu =>
    cases h
    exact ⟨a, rfl, hu⟩
  · cases h
    have := State.errors_synchronize he
    simp [State.report] at this
  · cases h

theorem map_congr {α β : Type} {x y : Rule α} {s t : State} (h : x s = y t) (f : α → β) :
    (f <$> x) s = (f <$> y) t := by
  show EStateM.map f x s = EStateM.map f y t
  unfold EStateM.map
  rw [h]

theorem errors_program {n k : Nat} {s t : State} {body : List Stmt}
    (hrun : program (recover (declaration n)) k s = .ok body t) (he : t.errors = []) :
    s.errors = [] :=
  (reads_program (fun s => reads_recover ((rules n).declaration s)) k s body t hrun he).1

/-! ## The token before a text -/

/-- What the rule reads does not depend on the token before it. -/
def Forgets {α : Type} (rule : Rule α) : Prop :=
  ∀ s a t, rule s = .ok a t → ∀ p, rule { s with previous := p } = .ok a t

theorem State.shift_forgets (s : State) (p : Token) (ts : List Token) :
    State.shift { s with previous := p } ts = s.shift ts := by
  induction ts generalizing s with
  | nil => rfl
  | cons t ts ih =>
    rw [State.shift, State.shift]
    split
    · exact ih (s.report _)
    · rfl

namespace Forgets

variable {α β : Type} {f : α → Rule β} {x : Rule α}

theorem advance {f : Unit → Rule β} : Forgets (Parser.advance >>= f) := by
  intro s a t h p
  have hs : State.advance { s with previous := p } = s.advance := s.shift_forgets p s.upcoming
  exact (congrArg (f ()) hs).trans h

theorem current {f : Token → Rule β} (h : ∀ t, Forgets (f t)) : Forgets (currentToken >>= f) :=
  fun s => h s.current s

theorem throw {stop : Stop} : Forgets (throw stop : Rule α) := by
  intro s a t h
  cases h

theorem bind (h : Forgets x) : Forgets (x >>= f) := by
  intro s b u hrun p
  obtain ⟨a, t, hx, hf⟩ := EStateM.bind_eq_ok.1 hrun
  rw [EStateM.bind_of_ok (h s a t hx p), hf]

theorem stmt {node : Rule Stmt.Node} (h : Forgets node) : Forgets (stmt node) :=
  .current fun _ => h.bind

end Forgets

theorem forgets_expression (n : Nat) (outer : Level) : Forgets (expression n outer) := by
  cases n with
  | zero => exact .throw
  | succ n =>
    refine .current fun t => ?_
    cases unaryOp? t.kind with
    | some op => exact .advance
    | none => exact Forgets.advance.bind

theorem forgets_statement (n : Nat) : Forgets (statement n) := by
  cases n with
  | zero => exact .throw
  | succ n =>
    have hexpr : Forgets (stmt (expressionStmt (expression n .lowest))) :=
      .stmt (forgets_expression n .lowest).bind
    refine .current fun t => ?_
    cases t.kind with
    | keyword word =>
      cases word with
      | print | «if» | «while» | «for» | «return» | «break» | «continue» =>
        exact .stmt .advance
      | _ => exact hexpr
    | symbol sym =>
      cases sym with
      | leftBrace => exact .stmt .advance
      | _ => exact hexpr
    | _ => exact hexpr

theorem forgets_declaration (n : Nat) : Forgets (declaration n) := by
  cases n with
  | zero => exact .throw
  | succ n =>
    refine .current fun t => ?_
    cases t.kind with
    | keyword word =>
      cases word with
      | var | «fun» | klass | trait => exact .stmt .advance
      | _ => exact forgets_statement n
    | _ => exact forgets_statement n

/-- The first text is read up to its end, and the second from there on, whatever token is before. -/
theorem program_continues {C : Comparison} (hbehind : C.behind ≠ []) {n n' k : Nat}
    (hn : C.Fuel n n') {s s' t : State} {body : List Stmt} {p : Token}
    (hs : s.Alike C { s' with previous := p }) (hend : s.Ended)
    (hrun : program (recover (declaration n)) k s = .ok body t) (he : t.errors = []) :
    ∃ body' t' q, List.Forall₂ (Stmt.Alike C.L) body body' ∧
      t.Alike C { t' with previous := q } ∧ t.Spent C ∧
      ∀ k', program (recover (declaration n')) (k' + body.length) s' =
        ((body' ++ ·) <$> program (recover (declaration n')) k') t' := by
  induction k generalizing s s' p body with
  | zero => cases hrun
  | succ k ih =>
    rw [program_apply] at hrun
    split at hrun
    · next hc =>
      cases hrun
      rw [Token.isEndOfFile_iff] at hc
      refine ⟨[], s', p, .nil, hs, ⟨hbehind, hend.upcoming hc, hc⟩, fun k' => ?_⟩
      simp
    · next hc =>
      obtain ⟨first, u, hu, hrun⟩ := EStateM.bind_eq_ok.1 hrun
      obtain ⟨rest, hrest, rfl⟩ := EStateM.map_eq_ok.1 hrun
      have heu := errors_program hrest he
      obtain ⟨-, hread⟩ := reads_recover ((rules n).declaration s) _ _ hu heu
      obtain ⟨ts, hinput, -, d, rfl, -⟩ := hread hend
      obtain ⟨_, ⟨⟩, hdecl⟩ := recover_eq_ok hu heu
      obtain ⟨d', u', hdecl', hd, hualike⟩ :=
        (rulesMirror hn).declaration.ok trivial hs hdecl (.inr ⟨heu, nofun⟩)
      have hu' : recover (declaration n') s' = .ok (some d') u' := by
        have hforgets : declaration n' s' = .ok d' u' :=
          forgets_declaration n' _ _ _ hdecl' s'.previous
        rw [recover, hforgets]
      obtain ⟨body', t', q, hbody, ht, hspent, hcontinues⟩ :=
        ih (p := u'.previous) hualike (hend.of_append hinput) hrest
      refine ⟨d' :: body', t', q, .cons hd hbody, ht, hspent, fun k' => ?_⟩
      have hc' : ¬s'.current.kind.isEndOfFile = true := by
        have hkind := (hs.current fun h => hc ((Token.isEndOfFile_iff _).2 h.current)).1.kind
        exact hkind ▸ hc
      show program _ (k' + rest.length + 1) s' = _
      rw [program_apply, if_neg hc', EStateM.bind_of_ok hu', map_congr (hcontinues k'),
        Functor.map_map]
      rfl

theorem forgets_recover {α : Type} {rule : Rule α} (h : Forgets rule) {s t : State} {o : Option α}
    (hrun : recover rule s = .ok o t) (he : t.errors = []) (p : Token) :
    recover rule { s with previous := p } = .ok o t := by
  obtain ⟨a, rfl, hrule⟩ := recover_eq_ok hrun he
  unfold recover
  rw [h _ _ _ hrule p]

theorem program_forgets {n k : Nat} {s t : State} {body : List Stmt}
    (hrun : program (recover (declaration n)) k s = .ok body t) (he : t.errors = []) (p : Token) :
    ∃ q, program (recover (declaration n)) k { s with previous := p } =
      .ok body { t with previous := q } := by
  cases k with
  | zero => cases hrun
  | succ k =>
    rw [program_apply] at hrun ⊢
    dsimp only
    split at hrun
    · next hc =>
      cases hrun
      exact ⟨p, if_pos hc⟩
    · next hc =>
      obtain ⟨first, u, hu, hrun⟩ := EStateM.bind_eq_ok.1 hrun
      obtain ⟨rest, hrest, -⟩ := EStateM.map_eq_ok.1 hrun
      have heu := errors_program hrest he
      refine ⟨t.previous, ?_⟩
      rw [if_neg hc, EStateM.bind_of_ok (forgets_recover (forgets_declaration n) hu heu p)]
      exact hrun

theorem State.start_cons {t : Token} (h : ∀ e, t.kind ≠ .invalid e) (ts : List Token)
    (firstId : ExprId) :
    State.start (t :: ts) firstId = ⟨⟨.endOfFile, .nowhere⟩, t, ts, [], firstId⟩ :=
  State.shift_cons _ h ts

end Parser

/-! ## Two texts in a row -/

theorem Likeness.regular_eq : Likeness.Regular ⟨Eq, Eq⟩ where
  next := by rintro _ _ ⟨⟩; rfl
  extend := by rintro _ _ _ _ ⟨⟩ ⟨⟩; rfl
  head := by rintro _ _ _ ⟨⟩; rfl
  order := by rintro _ _ _ _ ⟨⟩ ⟨⟩; rfl

theorem Grammar.Derives.length_le {fits : Nat → Prop} {body : List Stmt} {ts : Tokens}
    (h : Derives fits (.declarations body) ts) : body.length ≤ ts.length := by
  induction body generalizing ts with
  | nil => exact Nat.zero_le _
  | cons s body ih =>
    cases h with
    | someDeclarations hs hrest =>
      obtain ⟨k, us, rfl, -⟩ := hs.starts
      have := ih hrest
      simp only [List.length_cons, List.length_append]
      omega

/-- A text whose tokens are those of one text and, at another place, those of a second is read as
the two of them in a row, if both are read without errors. -/
theorem Tree.parse_joined {S : Span → Span → Prop} (hL : Likeness.Regular ⟨Eq, S⟩)
    {source more joined : String} {ts us : List Token} {e : Token}
    (htokens : Token.ofSource source = ts ++ [e]) (hjoined : Token.ofSource joined = ts ++ us)
    (hus : List.Forall₂ (Token.Alike ⟨Eq, S⟩) (Token.ofSource more) us) {firstId : ExprId}
    {t u : Tree} (ht : Tree.parse source firstId = .ok t)
    (hu : Tree.parse more t.nextId = .ok u) :
    ∃ body, Tree.parse joined firstId = .ok ⟨t.body ++ body, u.nextId⟩ ∧
      List.Forall₂ (Stmt.Alike ⟨Eq, S⟩) u.body body := by
  have hprogram := ((parse_iff_isProgram source firstId).2 t ht).1
  have hprogram' := ((parse_iff_isProgram more t.nextId).2 u hu).1
  have hvalid := hprogram.valid
  have hvalid' := hprogram'.valid
  obtain ⟨s, hrun, he, hn⟩ := Tree.parse_eq_ok.1 ht
  obtain ⟨v, hrun', he', hn'⟩ := Tree.parse_eq_ok.1 hu
  have hended := Token.ofSource_ended source
  obtain ⟨ks, hks, hd⟩ := hprogram
  obtain ⟨ks', hks', hd'⟩ := hprogram'
  rw [htokens] at hrun hks hvalid hended
  rw [List.map_append] at hks
  obtain ⟨rfl, hend⟩ := List.append_inj' hks rfl
  have hkind : e.kind = .endOfFile := List.singleton_inj.1 hend
  generalize Token.ofSource more = vs at hus hrun' hks' hvalid'
  cases hus with
  | nil => simp at hks'
  | @cons v₀ u₀ vs us h₀ hus =>
  have hvalid₀ := hvalid' v₀ List.mem_cons_self
  have helse : u₀.kind ≠ .keyword .else := by
    have := head?_ne_else_of_declarations hd' (k := .endOfFile) nofun []
    rw [← hks'] at this
    exact fun h => this (congrArg some (h₀.kind.trans h))
  -- up to the end of the first text
  let C := Comparison.upTo Likeness.regular_eq.toClosed [] us hkind helse (h₀.kind ▸ hvalid₀)
  let n := fuelFor (ts ++ u₀ :: us).length
  have hstart : (State.start (ts ++ [e]) firstId).Alike C (State.start (ts ++ u₀ :: us) firstId) :=
    .start (C := C) rfl rfl (Token.forall₂_alike_self (fun _ => rfl) ts) rfl
  have hended' : (State.start (ts ++ [e]) firstId).Ended := by
    rw [State.Ended, State.input_start (by simp) (State.start_of_valid firstId hvalid).2]
    exact hended
  have hfuel : C.Fuel (fuelFor (ts ++ [e]).length) n := by
    refine ⟨?_, False.elim⟩
    simp only [n, fuelFor, List.length_append, List.length_cons, List.length_nil]
    omega
  obtain ⟨body, t', q', hbody, ht', hspent, hcontinues⟩ :=
    program_continues (C := C) (List.cons_ne_nil _ _) hfuel (p := (State.start _ firstId).previous)
      hstart hended' hrun he
  obtain rfl := Stmt.Alike.eqs hbody
  -- from there on, with tokens as the previous ones that stand in places which are taken for each
  -- other
  let C' := Comparison.whole hL.toClosed False
  obtain ⟨p, hrun'⟩ := program_forgets hrun' he' ⟨.endOfFile, v₀.span⟩
  have herrors : t'.errors = [] := by
    obtain ⟨es, hes, halike⟩ := ht'.errors
    rw [he] at halike
    rw [hes, List.forall₂_nil_left_iff.1 halike]
    rfl
  have hstart' : State.Alike C'
      { State.start (v₀ :: vs) t.nextId with previous := ⟨.endOfFile, v₀.span⟩ }
      { t' with previous := ⟨.endOfFile, u₀.span⟩ } := by
    rw [State.start_cons hvalid₀]
    refine ⟨⟨rfl, h₀.span⟩, ⟨v₀ :: vs, u₀ :: us, (List.append_nil _).symm, ?_, .cons h₀ hus⟩,
      ?_, ?_⟩
    · exact (ht'.spent hspent).1.trans (List.append_nil _).symm
    · exact ⟨[], herrors, .nil⟩
    · exact hn.symm.trans ht'.nextId
  have hlen := hd.length_le
  rw [List.length_map] at hlen
  have hfuel' : C'.Fuel (fuelFor (v₀ :: vs).length) n := by
    refine ⟨?_, False.elim⟩
    simp only [n, fuelFor, List.length_append, List.length_cons, hus.length_eq]
    omega
  have hfuel'' : C'.Fuel (fuelFor (v₀ :: vs).length) (n - t.body.length) := by
    refine ⟨?_, False.elim⟩
    simp only [n, fuelFor, List.length_append, List.length_cons, hus.length_eq]
    omega
  obtain ⟨body', w, hw, hbody', hwalike⟩ := (mirrors_program
    (mirrors_recover (rulesMirror hfuel').declaration) hfuel'').ok trivial hstart' hrun'
      (.inr ⟨he', fun _ h => h.behind rfl⟩)
  have herrors' : w.errors = [] := by
    obtain ⟨es, hes, halike⟩ := hwalike.errors
    rw [he'] at halike
    rw [hes, List.forall₂_nil_left_iff.1 halike]
    rfl
  obtain ⟨q', hforgets⟩ := program_forgets hw herrors' t'.previous
  have hrest := hcontinues (n - t.body.length)
  rw [Nat.sub_add_cancel (by
    simp only [n, fuelFor, List.length_append, List.length_cons]
    omega)] at hrest
  refine ⟨body', Tree.parse_eq_ok.2 ⟨{ w with previous := q' }, ?_, herrors', ?_⟩, hbody'⟩
  · rw [hjoined]
    exact hrest.trans (EStateM.map_of_ok hforgets _)
  · exact hwalike.nextId.symm.trans hn'

end Lox

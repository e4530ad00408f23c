import Lox.Proofs.Token.Layout

/-!
# Stretches of tokens

Tokens of a source that stand in a row have one span, from the first to the last.  Its text begins
and ends with a token, and it is read as the same tokens wherever a blank or a semicolon follows it.

    us <:+: ofSource source → Spans us span →
      ∃ before text after, source.toList = before ++ text ++ after ∧
        span = ⟨.behind before, .behind (before ++ text)⟩ ∧ IsText text (us.map Token.kind)
                                                                               (exists_isText_of_spans)
-/

namespace Lox

/-! ## Tokens in line -/

theorem Position.min_eq_left {a b : Position} (h : a ≤ b) : min a b = a := if_pos h

theorem Position.max_eq_right {a b : Position} (h : a ≤ b) : max a b = b := if_pos h

/-- Tokens as they stand in a text: only the end of the text is empty, each ends in front of the
next one, and the end of the text is the last. -/
structure InLine (tokens : List Token) : Prop where
  solid : ∀ t ∈ tokens, t.kind ≠ .endOfFile → t.span.start.byte < t.span.stop.byte
  apart : tokens.Pairwise fun a b => a.span.stop.byte ≤ b.span.start.byte
  ended : ∃ ts t, tokens = ts ++ [t] ∧ t.kind = .endOfFile ∧ ∀ t ∈ ts, t.kind ≠ .endOfFile

namespace InLine

variable {us vs ws : List Token} {t : Token}

theorem append_left (h : InLine (us ++ vs)) (hv : vs ≠ []) :
    ∃ ws t, vs = ws ++ [t] ∧ t.kind = .endOfFile ∧ ∀ t ∈ us ++ ws, t.kind ≠ .endOfFile := by
  obtain ⟨ts, t, hts, hend, hne⟩ := h.ended
  obtain ⟨ws, t', rfl⟩ : ∃ ws t', vs = ws ++ [t'] :=
    ⟨_, _, (List.dropLast_concat_getLast hv).symm⟩
  rw [← List.append_assoc] at hts
  obtain ⟨rfl, hlast⟩ := List.append_inj' hts rfl
  cases hlast
  exact ⟨ws, _, rfl, hend, hne⟩

theorem right (h : InLine (us ++ vs)) (hv : vs ≠ []) : InLine vs := by
  obtain ⟨ws, t, hws, hend, hne⟩ := h.append_left hv
  exact ⟨fun a ha => h.solid a (List.mem_append_right _ ha), (List.pairwise_append.1 h.apart).2.1,
    ws, t, hws, hend, fun a ha => hne a (List.mem_append_right _ ha)⟩

theorem ne_endOfFile (h : InLine (us ++ vs)) (hv : vs ≠ []) : ∀ t ∈ us, t.kind ≠ .endOfFile := by
  obtain ⟨ws, t, -, -, hne⟩ := h.append_left hv
  exact fun a ha => hne a (List.mem_append_left _ ha)

/-- Behind one another tokens start later and end later. -/
theorem pairwise_le (h : InLine (us ++ vs)) (hv : vs ≠ []) :
    us.Pairwise fun a b => a.span.start ≤ b.span.start ∧ a.span.stop ≤ b.span.stop := by
  refine (List.pairwise_append.1 h.apart).1.imp_of_mem fun {a b} ha hb hab => ?_
  have hsa := h.solid a (List.mem_append_left _ ha) (h.ne_endOfFile hv a ha)
  have hsb := h.solid b (List.mem_append_left _ hb) (h.ne_endOfFile hv b hb)
  rw [Position.le_def, Position.le_def]
  omega

end InLine

/-! ## Spans -/

/-- The span is that of the tokens, from the first to the last. -/
def Spans (us : List Token) (span : Span) : Prop :=
  ∃ first last, us.head? = some first ∧ us.getLast? = some last ∧
    span = ⟨first.span.start, last.span.stop⟩

theorem spans_singleton (t : Token) : Spans [t] t.span := ⟨t, t, rfl, rfl, rfl⟩

/-- A span that goes on to a later token. -/
theorem Spans.extend {us vs rest : List Token} {span : Span} {t : Token} (h : Spans us span)
    (hl : InLine (us ++ vs ++ rest)) (hr : rest ≠ []) (ht : (us ++ vs).getLast? = some t) :
    Spans (us ++ vs) (span.extend t.span) := by
  obtain ⟨first, last, hfirst, hlast, rfl⟩ := h
  have hhead : (us ++ vs).head? = some first := by rw [List.head?_append, hfirst]; rfl
  have hle {a : Token} (ha : a ∈ us ++ vs) :
      a.span.start ≤ t.span.start ∧ a.span.stop ≤ t.span.stop := by
    obtain ⟨ts, hts⟩ := List.getLast?_eq_some_iff.1 ht
    have hpairs := hl.pairwise_le hr
    rw [hts] at ha hpairs
    rcases List.mem_append.1 ha with ha | ha
    · exact (List.pairwise_append.1 hpairs).2.2 a ha t (List.mem_singleton_self t)
    · cases List.mem_singleton.1 ha
      exact ⟨Position.le_refl _, Position.le_refl _⟩
  refine ⟨first, t, hhead, ht, ?_⟩
  have hstart := (hle (List.mem_of_mem_head? hhead)).1
  have hstop := (hle (List.mem_append_left _ (List.mem_of_getLast? hlast))).2
  show (⟨min first.span.start t.span.start, max last.span.stop t.span.stop⟩ : Span) = _
  rw [Position.min_eq_left hstart, Position.max_eq_right hstop]

namespace Token

variable {before text rest : List Char} {us ws : List Token}

theorem Tiles.inLine (h : Tiles before text us) : InLine us := by
  refine ⟨?_, h.pairwise, h.exists_append⟩
  induction h with
  | endOfFile =>
    rintro _ ht hne
    cases List.mem_singleton.1 ht
    exact absurd rfl hne
  | lexeme _ hl _ ih => exact List.forall_mem_cons.2 ⟨fun _ => hl.byte_lt _, ih⟩

theorem inLine_ofSource (source : String) : InLine (ofSource source) := (tiles_ofSource source).inLine

/-! ## Texts of stretches -/

theorem Gap.of_head? {gap rest' : List Char} (h : Gap rest gap) (hr : rest.head? = rest'.head?) :
    Gap rest' gap := by
  induction h with
  | nil => exact .nil
  | blank hc _ ih => exact .blank hc ih
  | block hi _ ih => exact .block hi ih
  | line hb hn _ ih =>
    refine .line hb ?_ ih
    rwa [NewLine, List.head?_append, ← hr, ← List.head?_append]

theorem Tiles.behind_gap {gap : List Char} (h : Tiles (before ++ gap) rest ws) (hg : Gap rest gap) :
    Tiles before (gap ++ rest) ws := by
  cases h with
  | endOfFile hg' =>
    rw [List.append_assoc]
    refine .endOfFile (.append ?_ hg')
    rwa [List.append_nil]
  | @lexeme _ gap' text rest kind tokens hg' hl ht =>
    have hg : Gap (gap' ++ (text ++ rest)) gap := by rwa [← List.append_assoc]
    have hlexeme : Tiles before (gap ++ gap' ++ text ++ rest) _ :=
      .lexeme (hg.append hg') hl (by rwa [← List.append_assoc before])
    rwa [← List.append_assoc before, List.append_assoc, List.append_assoc, ← List.append_assoc gap']
      at hlexeme

/-- In front of a blank, a semicolon or the end the text is read as tokens of these kinds. -/
def IsText (text : List Char) (kinds : List Kind) : Prop :=
  ∀ before rest ws, (∀ c ∈ rest.head?, isBreak c = true) → Tiles (before ++ text) rest ws →
    ∃ us, Tiles before (text ++ rest) (us ++ ws) ∧ us.map Token.kind = kinds

/-- The tokens have a text, with a gap in front of it and other tokens behind. -/
theorem Tiles.exists_isText {first last : Token} (h : Tiles before text (us ++ ws))
    (hfirst : us.head? = some first) (hlast : us.getLast? = some last) (hw : ws ≠ [])
    (hv : ∀ t ∈ us, ∀ e, t.kind ≠ .invalid e) :
    ∃ gap inside after, text = gap ++ inside ++ after ∧ Gap (inside ++ after) gap ∧ inside ≠ [] ∧
      first.span.start = .behind (before ++ gap) ∧
      last.span.stop = .behind (before ++ gap ++ inside) ∧ IsText inside (us.map Token.kind) := by
  induction us generalizing before text first with
  | nil => cases hfirst
  | cons t us ih =>
    cases hfirst
    obtain ⟨hvt, hvs⟩ := List.forall_mem_cons.1 hv
    cases us with
    | nil =>
      cases hlast
      cases h with
      | endOfFile => exact absurd rfl hw
      | @lexeme _ gap text rest kind _ hg hl ht =>
        obtain ⟨c, cs, htext, -⟩ := hl.exists_cons
        refine ⟨gap, text, rest, rfl, hg, htext ▸ List.cons_ne_nil _ _, rfl, rfl, ?_⟩
        intro before' rest' ws' hbreak ht'
        have hinside : Lexeme ([] ++ rest) text kind := hl
        rw [← List.append_nil before'] at ht'
        exact ⟨[_], .lexeme .nil (hinside.before_break hvt hbreak) ht', rfl⟩
    | cons t' us =>
      cases h with
      | @lexeme _ gap text rest kind _ hg hl ht =>
        obtain ⟨gap', inside, after, rfl, hg', hne, -, hstop, htext⟩ :=
          ih ht rfl (by simpa using hlast) hvs
        refine ⟨gap, text ++ (gap' ++ inside), after, by simp, by simpa using hg, by simp [hne],
          rfl, by simpa using hstop, ?_⟩
        intro before' rest' ws' hbreak ht'
        obtain ⟨us', htiles, hkinds⟩ := htext (before' ++ text ++ gap') rest' ws' hbreak
          (by simpa using ht')
        have hhead : (inside ++ after).head? = (inside ++ rest').head? := by
          obtain ⟨c, cs, rfl⟩ := List.exists_cons_of_ne_nil hne
          rfl
        have hbehind := htiles.behind_gap (hg'.of_head? hhead)
        have hl' : Lexeme (gap' ++ inside ++ rest') text kind := hl.before_break hvt hbreak
        rw [← List.append_assoc] at hbehind
        rw [← List.append_nil before'] at hbehind
        refine ⟨⟨kind, ⟨.behind before', .behind (before' ++ text)⟩⟩ :: us', ?_,
          congrArg (kind :: ·) hkinds⟩
        simpa using Tiles.lexeme .nil hl' hbehind

/-- What is behind some of the tokens. -/
theorem Tiles.exists_behind {vs : List Token} (h : Tiles before text (vs ++ us)) (hne : us ≠ []) :
    ∃ front back, text = front ++ back ∧ Tiles (before ++ front) back us := by
  induction vs generalizing before text with
  | nil => exact ⟨[], text, rfl, by rwa [List.append_nil]⟩
  | cons t vs ih =>
    rw [List.cons_append] at h
    generalize hts : vs ++ us = ts at h
    cases h with
    | endOfFile => exact absurd (List.append_eq_nil_iff.1 hts).2 hne
    | @lexeme _ gap text rest kind _ _ _ ht =>
      obtain ⟨front, back, rfl, hback⟩ := ih (hts ▸ ht)
      exact ⟨gap ++ text ++ front, back, by simp, by simpa using hback⟩

/-- A token ends somewhere in the text. -/
theorem Tiles.exists_stop {t : Token} (h : Tiles before text us) (ht : t ∈ us) :
    ∃ inside after, text = inside ++ after ∧ t.span.stop = .behind (before ++ inside) := by
  induction h with
  | @endOfFile before gap =>
    cases List.mem_singleton.1 ht
    exact ⟨gap, [], (List.append_nil _).symm, rfl⟩
  | @lexeme before gap text rest kind tokens _ _ _ ih =>
    rcases List.mem_cons.1 ht with rfl | ht
    · exact ⟨gap ++ text, rest, rfl, by rw [List.append_assoc]⟩
    · obtain ⟨inside, after, rfl, hstop⟩ := ih ht
      exact ⟨gap ++ text ++ inside, after, by rw [List.append_assoc (gap ++ text)], by
        rw [hstop, List.append_assoc before, List.append_assoc before]⟩

/-- From where a token begins up to where a later one ends there is text. -/
theorem Tiles.exists_text {first last : Token} {ts : List Token}
    (h : Tiles before text (first :: ts)) (hlast : last ∈ first :: ts)
    (hne : first.kind ≠ .endOfFile) :
    ∃ gap inside after, text = gap ++ inside ++ after ∧ inside ≠ [] ∧
      first.span.start = .behind (before ++ gap) ∧
      last.span.stop = .behind (before ++ gap ++ inside) := by
  cases h with
  | endOfFile => exact absurd rfl hne
  | @lexeme _ gap text rest kind _ _ hl ht =>
    obtain ⟨c, cs, rfl, -⟩ := hl.exists_cons
    rcases List.mem_cons.1 hlast with rfl | hlast
    · exact ⟨gap, c :: cs, rest, rfl, List.cons_ne_nil _ _, rfl, rfl⟩
    · obtain ⟨inside, after, rfl, hstop⟩ := ht.exists_stop hlast
      exact ⟨gap, c :: cs ++ inside, after, by simp, List.cons_ne_nil _ _, rfl, by
        rw [hstop, List.append_assoc (before ++ gap)]⟩

/-- Of some of the tokens of a source, from the first to the last, the span selects a text. -/
theorem exists_text_of_spans {source : String} {span : Span} (h : us.Sublist (ofSource source))
    (hspan : Spans us span) (hne : ∀ t ∈ us, t.kind ≠ .endOfFile) :
    ∃ before text after, source.toList = before ++ text ++ after ∧
      span = ⟨.behind before, .behind (before ++ text)⟩ ∧ text ≠ [] := by
  obtain ⟨first, last, hfirst, hlast, rfl⟩ := hspan
  obtain ⟨ts, rfl⟩ := List.head?_eq_some_iff.1 hfirst
  obtain ⟨vs, ws, hsource, hmem, hts⟩ := List.cons_sublist_iff.1 h
  obtain ⟨xs, ys, rfl⟩ := List.append_of_mem hmem
  have htiles := tiles_ofSource source
  rw [hsource, List.append_assoc, List.cons_append] at htiles
  obtain ⟨front, back, hback, htiles⟩ := htiles.exists_behind (List.cons_ne_nil _ _)
  have hlast : last ∈ first :: (ys ++ ws) := by
    rcases List.mem_cons.1 (List.mem_of_getLast? hlast) with rfl | hmem
    · exact List.mem_cons_self
    · exact List.mem_cons_of_mem _ (List.mem_append_right _ (hts.subset hmem))
  obtain ⟨gap, text, after, rfl, htext, hstart, hstop⟩ :=
    htiles.exists_text hlast (hne first List.mem_cons_self)
  exact ⟨front ++ gap, text, after, by simp [hback], by simp [hstart, hstop], htext⟩

/-- Valid tokens of a source that stand in a row have a text, which their span selects. -/
theorem exists_isText_of_spans {source : String} {span : Span} (h : us <:+: ofSource source)
    (hspan : Spans us span) (hv : ∀ t ∈ us, ∀ e, t.kind ≠ .invalid e)
    (hne : ∀ t ∈ us, t.kind ≠ .endOfFile) :
    ∃ before text after, source.toList = before ++ text ++ after ∧
      span = ⟨.behind before, .behind (before ++ text)⟩ ∧ text ≠ [] ∧
      IsText text (us.map Token.kind) := by
  obtain ⟨vs, ws, hsource⟩ := h
  obtain ⟨first, last, hfirst, hlast, rfl⟩ := hspan
  have htiles := tiles_ofSource source
  rw [← hsource, List.append_assoc] at htiles
  have hw : ws ≠ [] := by
    rintro rfl
    obtain ⟨ts, t, hts, hend, -⟩ := htiles.exists_append
    obtain ⟨us', rfl⟩ := List.getLast?_eq_some_iff.1 hlast
    rw [List.append_nil, ← List.append_assoc] at hts
    cases (List.append_inj' hts rfl).2
    exact hne _ (List.mem_append_right _ (List.mem_singleton_self _)) hend
  obtain ⟨front, back, hback, htiles⟩ :=
    htiles.exists_behind (List.append_ne_nil_of_right_ne_nil us hw)
  obtain ⟨gap, text, after, rfl, -, hne, hstart, hstop, htext⟩ :=
    htiles.exists_isText hfirst hlast hw hv
  exact ⟨front ++ gap, text, after, by simp [hback], by simp [hstart, hstop], hne, htext⟩

end Token

end Lox

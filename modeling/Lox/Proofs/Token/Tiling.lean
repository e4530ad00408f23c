import Lox.Proofs.Token.Found

/-!
# Reading is tiling

The lexer reads the tokens that a text is made of, and there are no others: what it takes for a
token is a lexeme, what it skips is a gap, and from any lexeme on, behind any gap, it reads that
lexeme.

    Tiles [] source.toList tokens ↔ tokens = ofSource source                       (ofSource_tiles)
-/

namespace Lox

namespace Token

variable {c u : Cursor} {ch : Char} {rest : List Char}

/-! ## The next token -/

/-- What is skipped in front of a blank or of a comment, and behind it. -/
theorem Gap.append {gap gap' : List Char} (h : Gap (gap' ++ rest) gap) (h' : Gap rest gap') :
    Gap rest (gap ++ gap') := by
  induction h with
  | nil => exact h'
  | blank hc _ ih => exact .blank hc ih
  | line hb hn _ ih =>
    rw [List.append_assoc]
    exact .line hb (by rwa [List.append_assoc]) ih
  | block hi _ ih =>
    rw [List.append_assoc]
    exact .block hi ih

theorem gap_takeWhile (cs : List Char) : Gap rest (cs.takeWhile Text.isBlank) := by
  induction cs with
  | nil => exact .nil
  | cons c cs ih =>
    rw [List.takeWhile_cons]
    split
    · next hc => exact .blank hc ih
    · exact .nil

/-- What comes next: the end of the text, or a lexeme, behind a gap. -/
inductive Next (c : Cursor) : Token × Cursor → Prop
  | endOfFile {u : Cursor} : c.Takes c.rest u → Gap [] c.rest →
      Next c (⟨.endOfFile, ⟨u.position, u.position⟩⟩, u)
  | lexeme {gap text : List Char} {kind : Kind} {t u : Cursor} : c.Takes gap t → t.Takes text u →
      Gap t.rest gap → Lexeme u.rest text kind → Next c (⟨kind, ⟨t.position, u.position⟩⟩, u)

theorem Next.behind {gap : List Char} {r : Token × Cursor} (hc : c.Takes gap u)
    (hgap : Gap u.rest gap) (h : Next u r) : Next c r := by
  cases h with
  | endOfFile ht hend =>
    have hrest : c.rest = gap ++ u.rest := hc.rest
    refine .endOfFile (hrest ▸ hc.trans ht) (hrest ▸ Gap.append ?_ hend)
    rwa [List.append_nil]
  | lexeme ht htext hgap' hl =>
    refine .lexeme (hc.trans ht) htext (Gap.append ?_ hgap') hl
    rwa [← ht.rest]

/-- A comment alone. -/
theorem Gap.ofLine {body : List Char} (hb : '\n' ∉ body) (hn : NewLine rest) :
    Gap rest ('/' :: '/' :: body) := by
  have hline : Gap rest ('/' :: '/' :: body ++ []) := .line hb hn .nil
  rwa [List.append_nil] at hline

theorem lexOne_of_nil (hr : c.rest = []) : lexOne c = (some .endOfFile, c) := by
  unfold lexOne
  rw [hr]

theorem isBlank_start {c : Cursor} (hr : (c.takeWhile Text.isBlank).rest = ch :: rest) :
    Text.isBlank ch = false :=
  head?_dropWhile (congrArg List.head? hr)

/-- The next token is found behind what separates it from the last: blanks and comments, in any
number. -/
theorem next_next (c : Cursor) : Next c (next c) := by
  have hblanks := Cursor.Takes.takeWhile c Text.isBlank
  have hgap (rest : List Char) : Gap rest (c.rest.takeWhile Text.isBlank) := gap_takeWhile c.rest
  fun_induction next c with
  | case1 c start kind u =>
    rename_i hk
    refine .behind hblanks (hgap _) ?_
    cases hr : start.rest with
    | nil =>
      rw [lexOne_of_nil hr] at hk
      cases hk
      have ht : start.Takes start.rest start := by
        rw [hr]
        exact .refl start
      have hend : Gap [] start.rest := by
        rw [hr]
        exact .nil
      exact .endOfFile ht hend
    | cons ch rest =>
      have hfound := lexOne_found hr (isBlank_start hr)
      rw [hk] at hfound
      cases hfound with
      | lexeme ht hl => exact .lexeme (.refl start) ht .nil hl
  | case2 c start u =>
    rename_i hk _ ih
    replace ih := ih (Cursor.Takes.takeWhile u Text.isBlank) fun _ => gap_takeWhile u.rest
    cases hr : start.rest with
    | nil =>
      rw [lexOne_of_nil hr] at hk
      cases hk
    | cons ch rest =>
      have hfound := lexOne_found hr (isBlank_start hr)
      rw [hk] at hfound
      cases hfound with
      | line ht hb hn => exact .behind (hblanks.trans ht) ((hgap _).append (.ofLine hb hn)) ih
      | block ht hi => exact .behind (hblanks.trans ht) ((hgap _).append (.block hi .nil)) ih

/-! ## All tokens -/

theorem Lexeme.ne_endOfFile {text : List Char} {kind : Kind} (h : Lexeme rest text kind) :
    kind ≠ .endOfFile := by
  rintro rfl
  cases h with
  | token hs => cases hs

theorem tiles_allFrom {before : List Char} (hc : c.position = .behind before) :
    Tiles before c.rest (allFrom c) := by
  fun_induction allFrom c generalizing before with
  | case1 c t u hn hend =>
    have hnext := next_next c
    rw [hn] at hnext
    cases hnext with
    | endOfFile ht hgap =>
      rw [ht.position, hc, Position.behind_append]
      exact .endOfFile hgap
    | lexeme _ _ _ hl => exact absurd ((isEndOfFile_iff _).1 hend) hl.ne_endOfFile
  | case2 c t u hn hend _ ih =>
    have hnext := next_next c
    rw [hn] at hnext
    cases hnext with
    | endOfFile => exact absurd rfl hend
    | @lexeme gap text kind t _ hgap htext hg hl =>
      have ht : t.position = .behind (before ++ gap) := by
        rw [hgap.position, hc, Position.behind_append]
      have hu : u.position = .behind (before ++ gap ++ text) := by
        rw [htext.position, ht, Position.behind_append]
      rw [hgap.rest, htext.rest, ← List.append_assoc, ht, hu]
      exact .lexeme (htext.rest ▸ hg) hl (ih hu)

/-! ## No other tokens -/

theorem takeWhile_isBlank (hc : Text.isBlank ch = false) (cs : List Char) (p : Position) :
    (⟨ch :: cs, p⟩ : Cursor).takeWhile Text.isBlank = ⟨ch :: cs, p⟩ := by
  rw [Cursor.takeWhile, List.dropWhile_cons_of_neg (Bool.not_eq_true _ ▸ hc),
    List.takeWhile_cons_of_neg (Bool.not_eq_true _ ▸ hc)]
  rfl

theorem next_gap {gap : List Char} (h : Gap rest gap) (p : Position) :
    next ⟨gap ++ rest, p⟩ = next ⟨rest, p.advanceBy gap⟩ := by
  induction h generalizing p with
  | nil => rfl
  | blank hc _ ih => exact (next_blank hc _ p).trans (ih _)
  | @line body gap hb hn _ ih =>
    rw [Position.advanceBy_append, ← ih, List.append_assoc]
    refine next_of_none ?_
    rw [List.cons_append, takeWhile_isBlank (by decide)]
    exact lexOne_line hb hn p
  | @block inner gap hi _ ih =>
    have hadvance : p.advanceBy ('/' :: '*' :: inner ++ '*' :: '/' :: gap) =
        (p.advanceBy ('/' :: '*' :: inner ++ ['*', '/'])).advanceBy gap := by
      rw [← Position.advanceBy_append]
      simp
    rw [hadvance, ← ih, List.append_assoc]
    refine next_of_none ?_
    rw [List.cons_append, takeWhile_isBlank (by decide)]
    exact lexOne_block hi p

theorem next_lexeme {text : List Char} {kind : Kind} (h : Lexeme rest text kind) (p : Position) :
    next ⟨text ++ rest, p⟩ =
      (⟨kind, ⟨p, p.advanceBy text⟩⟩, ⟨rest, p.advanceBy text⟩) := by
  have hone := lexOne_lexeme h p
  obtain ⟨ch, cs, rfl, hblank⟩ := h.exists_cons
  have hstart := takeWhile_isBlank hblank (cs ++ rest) p
  rw [List.cons_append] at hone ⊢
  rw [next_of_some (hstart.symm ▸ hone), hstart]

theorem Tiles.eq_allFrom {before text : List Char} {tokens : List Token}
    (h : Tiles before text tokens) : tokens = allFrom ⟨text, .behind before⟩ := by
  induction h with
  | @endOfFile before gap hg =>
    have hgap := next_gap hg (.behind before)
    rw [List.append_nil, Position.behind_append] at hgap
    rw [allFrom_congr hgap, allFrom_nil]
  | @lexeme before gap text rest kind tokens hg hl _ ih =>
    have hgap := next_gap hg (.behind before)
    rw [next_lexeme hl, Position.behind_append, Position.behind_append] at hgap
    have hend : ¬kind.isEndOfFile = true := fun h => hl.ne_endOfFile ((isEndOfFile_iff _).1 h)
    rw [List.append_assoc gap, allFrom_of_next hgap, if_neg hend, ih]

/-! ## Where the tokens are -/

/-- What is read, call by call, up to the end of the text. -/
inductive ReadOff : Cursor → List Token → Prop
  | endOfFile {c : Cursor} : (next c).1.kind = .endOfFile → ReadOff c [(next c).1]
  | token {c : Cursor} {tokens : List Token} : (next c).1.kind ≠ .endOfFile →
      ReadOff (next c).2 tokens → ReadOff c ((next c).1 :: tokens)

theorem readOff_allFrom (c : Cursor) : ReadOff c (allFrom c) := by
  fun_induction allFrom c with
  | case1 c t u hn hend =>
    have ht : (next c).1 = t := congrArg Prod.fst hn
    rw [← ht] at hend ⊢
    exact .endOfFile ((isEndOfFile_iff _).1 hend)
  | case2 c t u hn hend _ ih =>
    have ht : (next c).1 = t := congrArg Prod.fst hn
    have hu : (next c).2 = u := congrArg Prod.snd hn
    rw [← ht] at hend ⊢
    exact .token (fun h => hend ((isEndOfFile_iff _).2 h)) (hu ▸ ih)

/-- The token covers the text, which stands between the two others: a lexeme, or nothing at the
end. -/
structure Covers (before text after : List Char) (t : Token) : Prop where
  span : t.span = ⟨.behind before, .behind (before ++ text)⟩
  kind : text = [] ∧ after = [] ∧ t.kind = .endOfFile ∨ text ≠ [] ∧ Lexeme after text t.kind

theorem Tiles.covers {before text : List Char} {tokens : List Token} {t : Token}
    (h : Tiles before text tokens) (ht : t ∈ tokens) :
    ∃ front word after, before ++ text = front ++ word ++ after ∧ Covers front word after t := by
  induction h with
  | @endOfFile before gap hg =>
    obtain rfl := List.mem_singleton.1 ht
    exact ⟨before ++ gap, [], [], by simp, by simp, .inl ⟨rfl, rfl, rfl⟩⟩
  | @lexeme before gap text rest kind tokens hg hl _ ih =>
    rcases List.mem_cons.1 ht with rfl | ht
    · obtain ⟨c, cs, hne, -⟩ := hl.exists_cons
      exact ⟨before ++ gap, text, rest, by simp, rfl, .inr ⟨hne ▸ List.cons_ne_nil c cs, hl⟩⟩
    · obtain ⟨front, word, after, hsplit, hcovers⟩ := ih ht
      exact ⟨front, word, after, by rw [← hsplit]; simp, hcovers⟩

theorem byte_behind_append_le (before text : List Char) :
    (Position.behind before).byte ≤ (Position.behind (before ++ text)).byte := by
  rw [← Position.behind_append, Position.byte_advanceBy]
  exact Nat.le_add_right _ _

theorem Lexeme.byte_lt {text : List Char} {kind : Kind} (h : Lexeme rest text kind)
    (before : List Char) :
    (Position.behind before).byte < (Position.behind (before ++ text)).byte := by
  obtain ⟨c, cs, rfl, -⟩ := h.exists_cons
  rw [← Position.behind_append, Position.byte_advanceBy, String.ofList_cons,
    String.utf8ByteSize_append, String.utf8ByteSize_singleton]
  have := c.utf8Size_pos
  omega

theorem Tiles.byte_le {before text : List Char} {tokens : List Token}
    (h : Tiles before text tokens) {t : Token} (ht : t ∈ tokens) :
    (Position.behind before).byte ≤ t.span.start.byte := by
  induction h with
  | endOfFile =>
    obtain rfl := List.mem_singleton.1 ht
    exact byte_behind_append_le _ _
  | lexeme _ _ _ ih =>
    rcases List.mem_cons.1 ht with rfl | ht
    · exact byte_behind_append_le _ _
    · refine Nat.le_trans ?_ (ih ht)
      rw [List.append_assoc]
      exact byte_behind_append_le _ _

/-- A token ends in front of the next one, or where it begins. -/
theorem Tiles.pairwise {before text : List Char} {tokens : List Token}
    (h : Tiles before text tokens) :
    tokens.Pairwise fun s t => s.span.stop.byte ≤ t.span.start.byte := by
  induction h with
  | endOfFile => exact List.pairwise_singleton _ _
  | lexeme _ _ ht ih => exact .cons (fun _ hmem => ht.byte_le hmem) ih

theorem splitBytes?_append (front rest : List Char) :
    Span.splitBytes? (String.ofList front).utf8ByteSize (front ++ rest) = some (front, rest) := by
  induction front with
  | nil => rw [List.nil_append]; cases rest <;> rfl
  | cons c front ih =>
    rw [String.ofList_cons, String.utf8ByteSize_append, String.utf8ByteSize_singleton]
    obtain ⟨n, hn⟩ : ∃ n, c.utf8Size + (String.ofList front).utf8ByteSize = n + 1 :=
      Nat.exists_eq_succ_of_ne_zero (Nat.ne_of_gt (Nat.add_pos_left c.utf8Size_pos _))
    have hle : c.utf8Size ≤ n + 1 := hn ▸ Nat.le_add_right _ _
    have hrest : n + 1 - c.utf8Size = (String.ofList front).utf8ByteSize := by omega
    rw [hn, List.cons_append, Span.splitBytes?, if_pos hle, hrest, ih]
    rfl

theorem text?_behind {before text after : List Char} {source : String}
    (hs : source.toList = before ++ text ++ after) :
    Span.text? ⟨.behind before, .behind (before ++ text)⟩ source = some (String.ofList text) := by
  have hstop : (Position.behind (before ++ text)).byte - (Position.behind before).byte =
      (String.ofList text).utf8ByteSize := by
    show (String.ofList (before ++ text)).utf8ByteSize - (String.ofList before).utf8ByteSize = _
    rw [String.ofList_append, String.utf8ByteSize_append, Nat.add_sub_cancel_left]
  have hbefore : (Position.behind before).byte = (String.ofList before).utf8ByteSize := rfl
  unfold Span.text?
  rw [if_pos (byte_behind_append_le before text), hstop, hs, List.append_assoc, hbefore,
    splitBytes?_append]
  dsimp only [Option.bind_eq_bind, Option.bind_some]
  rw [splitBytes?_append]
  rfl

theorem Covers.text? {before text after : List Char} {t : Token} {source : String}
    (h : Covers before text after t) (hs : source.toList = before ++ text ++ after) :
    t.span.text? source = some (String.ofList text) := h.span ▸ text?_behind hs

theorem tiles_ofSource (source : String) : Tiles [] source.toList (ofSource source) :=
  tiles_allFrom (c := .ofString source) rfl

/-- Reading a text comes to its end, with the tokens that the text is made of, in their order, each
where its span says; and what a token is, its text tells, in any source. -/
theorem ofSource_tiles (source : String) :
    ReadOff (.ofString source) (ofSource source) ∧
    (∀ tokens, Tiles [] source.toList tokens ↔ tokens = ofSource source) ∧
    (ofSource source).Pairwise (fun s t => s.span.stop.byte ≤ t.span.start.byte) ∧
    (∀ t ∈ ofSource source, ∃ before text after, source.toList = before ++ text ++ after ∧
      t.span.text? source = some (String.ofList text) ∧ Covers before text after t) ∧
    ∀ source', ∀ t ∈ ofSource source, ∀ t' ∈ ofSource source',
      t.span.text? source = t'.span.text? source' → t.kind = t'.kind := by
  have hcovers (source : String) {t : Token} (ht : t ∈ ofSource source) :
      ∃ before text after, source.toList = before ++ text ++ after ∧
        t.span.text? source = some (String.ofList text) ∧ Covers before text after t := by
    obtain ⟨before, text, after, hsplit, hc⟩ := (tiles_ofSource source).covers ht
    exact ⟨before, text, after, hsplit, hc.text? hsplit, hc⟩
  refine ⟨readOff_allFrom _, fun tokens => ⟨Tiles.eq_allFrom, ?_⟩, (tiles_ofSource source).pairwise,
    fun t => hcovers source, fun source' t ht t' ht' heq => ?_⟩
  · rintro rfl
    exact tiles_ofSource source
  · obtain ⟨_, text, _, -, htext, hc⟩ := hcovers source ht
    obtain ⟨_, text', _, -, htext', hc'⟩ := hcovers source' ht'
    rw [htext, htext'] at heq
    obtain rfl := String.ofList_injective (Option.some.inj heq)
    rcases hc.kind with ⟨hnil, -, hk⟩ | ⟨hne, hl⟩
    · rcases hc'.kind with ⟨-, -, hk'⟩ | ⟨hne, -⟩
      · rw [hk, hk']
      · exact absurd hnil hne
    · rcases hc'.kind with ⟨hnil, -⟩ | ⟨-, hl'⟩
      · exact absurd hnil hne
      · exact hl.kind_eq hl'

end Token

end Lox

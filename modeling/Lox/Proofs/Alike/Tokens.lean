import Mathlib.Data.List.Forall2
import Mathlib.Data.List.TakeWhile
import Lox.Proofs.Alike.Reading
import Lox.Proofs.Token.Lexeme
import Lox.Proofs.Token.Next

/-!
# The tokens of joined texts

No token and no comment reaches over the end of a line that a text without errors ends with.  So the
tokens of two texts with a line feed between them are those of the first, without its end, and
behind them those of the second, at places that have moved as far as the first text is long.

    (∀ t ∈ ofSource a, ∀ e, t.kind ≠ .invalid e) → ofSource a = ts ++ [e] →
      ofSource (a ++ "\n" ++ b) = ts ++ (ofSource b).map (moved (.behind a))           (ofSource_joined)
-/

namespace Lox

/-! ## Places that move -/

/-- How far a text moves that stands behind another one. -/
structure Offset where
  bytes : Nat
  lines : Nat

/-- That of a text on the lines behind `source`. -/
def Offset.behind (source : String) : Offset :=
  ⟨source.utf8ByteSize + 1, source.toList.count '\n' + 1⟩

/-- The place moves on in the same column. -/
def Position.moved (d : Offset) (p : Position) : Position :=
  ⟨p.byte + d.bytes, p.line + d.lines, p.column⟩

def Span.moved (d : Offset) (a : Span) : Span := ⟨a.start.moved d, a.stop.moved d⟩

def Token.moved (d : Offset) (t : Token) : Token := { t with span := t.span.moved d }

namespace Position

variable {d : Offset}

theorem moved_advance (p : Position) (c : Char) :
    (p.moved d).advance c = (p.advance c).moved d := by
  unfold advance moved
  split <;> simp [Nat.add_right_comm]

theorem moved_advanceBy (p : Position) (cs : List Char) :
    (p.moved d).advanceBy cs = (p.advanceBy cs).moved d := by
  induction cs generalizing p with
  | nil => rfl
  | cons c cs ih =>
    show ((p.moved d).advance c).advanceBy cs = _
    rw [moved_advance, ih]
    rfl

theorem moved_le_moved {p q : Position} : p.moved d ≤ q.moved d ↔ p ≤ q := by
  simp only [le_def, moved]
  omega

theorem min_moved (p q : Position) : min (p.moved d) (q.moved d) = (min p q).moved d := by
  show (if _ then _ else _) = moved d (if _ then _ else _)
  simp only [moved_le_moved]
  split <;> rfl

theorem max_moved (p q : Position) : max (p.moved d) (q.moved d) = (max p q).moved d := by
  show (if _ then _ else _) = moved d (if _ then _ else _)
  simp only [moved_le_moved]
  split <;> rfl

/-- Behind a text and a line feed the next line begins. -/
theorem advanceBy_line (source : String) :
    (start.advanceBy source.toList).advance '\n' = start.moved (.behind source) := by
  have hbyte := byte_advanceBy start source.toList
  have hline := line_advanceBy start source.toList
  rw [String.ofList_toList] at hbyte
  unfold advance
  rw [if_pos rfl, hbyte, hline]
  refine congrArg₂ (Position.mk · · 1) ?_ ?_
  · exact Nat.add_assoc 0 source.utf8ByteSize 1
  · exact Nat.add_assoc 1 _ 1

end Position

theorem Likeness.regular_moved (d : Offset) : Likeness.Regular ⟨Eq, fun a b => b = a.moved d⟩ where
  next := by rintro _ _ ⟨⟩; rfl
  extend := by
    rintro a _ b _ rfl rfl
    exact congrArg₂ Span.mk (Position.min_moved _ _) (Position.max_moved _ _)
  head := by
    rintro a _ n rfl
    refine congrArg (Span.mk _) (.trans ?_ (Position.min_moved _ _))
    congr 1
    simp [Span.moved, Position.moved, Nat.add_right_comm]
  order := by
    rintro a _ b _ rfl rfl
    exact Position.moved_le_moved.symm

/-! ## Cursors that move alike -/

/-- What comes first is no part of the tail, if it begins no line. -/
theorem NewLine.eq_cons {tail cs ds : List Char} {ch : Char} (ht : NewLine tail) (hne : ch ≠ '\n')
    (h : cs ++ tail = ch :: ds) : ∃ es, cs = ch :: es := by
  cases cs with
  | nil => exact absurd (ht ch (by rw [← List.nil_append tail, h]; rfl)) hne
  | cons c cs => exact ⟨cs, by rw [(List.cons.inj h).1]⟩

/-- Cutting a list behind some element is not changed by what comes behind the list. -/
theorem cut_append {α : Type} {p : α → Bool} {xs ys : List α}
    (hp : (∃ x ∈ xs, p x = false) ∨ ys.takeWhile p = []) :
    (xs ++ ys).takeWhile p = xs.takeWhile p ∧ (xs ++ ys).dropWhile p = xs.dropWhile p ++ ys := by
  induction xs with
  | nil =>
    have hys : ys.takeWhile p = [] := hp.resolve_left (by simp)
    refine ⟨hys, ?_⟩
    have := List.takeWhile_append_dropWhile (p := p) (l := ys)
    rwa [hys] at this
  | cons x xs ih =>
    cases hx : p x with
    | false => simp [hx]
    | true =>
      obtain ⟨htake, hdrop⟩ := ih (hp.imp_left fun ⟨y, hy, hpy⟩ =>
        ⟨y, (List.mem_cons.1 hy).resolve_left (by rintro rfl; simp_all), hpy⟩)
      simp [hx, htake, hdrop]

/-- The second cursor has moved, and behind what comes up to the place `stop` it has `tail`. -/
structure Cursor.Ahead (d : Offset) (tail : List Char) (stop : Position) (c c' : Cursor) :
    Prop where
  rest : c'.rest = c.rest ++ tail
  position : c'.position = c.position.moved d
  stop : c.position.advanceBy c.rest = stop

variable {d : Offset} {tail : List Char} {stop : Position} {c c' : Cursor}

namespace Cursor.Ahead

theorem next (h : c.Ahead d tail stop c') (hne : c.rest ≠ []) :
    c.next.Ahead d tail stop c'.next := by
  obtain ⟨rest, position⟩ := c
  obtain ⟨rest', position'⟩ := c'
  obtain ⟨rfl, rfl, hstop⟩ := h
  cases rest with
  | nil => exact absurd rfl hne
  | cons ch rest => exact ⟨rfl, position.moved_advance ch, hstop⟩

/-- What is taken ends in front of the tail, or in front of some character before. -/
theorem takeWhile (h : c.Ahead d tail stop c') {p : Char → Bool}
    (hp : (∃ ch ∈ c.rest, p ch = false) ∨ tail.takeWhile p = []) :
    c'.rest.takeWhile p = c.rest.takeWhile p ∧
      (c.takeWhile p).Ahead d tail stop (c'.takeWhile p) := by
  have hcut := cut_append hp
  refine ⟨h.rest ▸ hcut.1, ?_, ?_, ?_⟩
  · rw [Cursor.takeWhile, h.rest, hcut.2]
    rfl
  · rw [Cursor.takeWhile, h.rest, hcut.1, h.position, Position.moved_advanceBy]
    rfl
  · rw [Cursor.takeWhile, ← Position.advanceBy_append, List.takeWhile_append_dropWhile, h.stop]

theorem takeWhile_of_newLine (h : c.Ahead d tail stop c') (ht : NewLine tail) {p : Char → Bool}
    (hp : p '\n' = false) :
    c'.rest.takeWhile p = c.rest.takeWhile p ∧
      (c.takeWhile p).Ahead d tail stop (c'.takeWhile p) := by
  refine h.takeWhile (.inr ?_)
  cases tail with
  | nil => rfl
  | cons ch tail => rw [List.takeWhile_cons, ht ch rfl, hp]; rfl

end Cursor.Ahead

namespace Token

/-- The same has been read, and the cursors are alike again. -/
def Same (d : Offset) (tail : List Char) (stop : Position) {κ : Type} (r r' : κ × Cursor) : Prop :=
  r'.1 = r.1 ∧ r.2.Ahead d tail stop r'.2

theorem Same.ite {κ : Type} {p : Prop} [Decidable p] {q q' r r' : κ × Cursor}
    (hq : p → Same d tail stop q q') (hr : ¬p → Same d tail stop r r') :
    Same d tail stop (if p then q else r) (if p then q' else r') := by
  by_cases h : p
  · rw [if_pos h, if_pos h]
    exact hq h
  · rw [if_neg h, if_neg h]
    exact hr h

theorem same_takeIf (h : c.Ahead d tail stop c') (ht : NewLine tail) {target : Char}
    (hne : target ≠ '\n') : Same d tail stop (c.takeIf target) (c'.takeIf target) := by
  have hnext := h.next
  have hrest := h.rest
  unfold Cursor.takeIf
  cases hr : c.rest with
  | cons ch rest =>
    rw [hrest, hr, List.cons_append]
    exact .ite (fun _ => ⟨rfl, hnext (by simp [hr])⟩) fun _ => ⟨rfl, h⟩
  | nil =>
    rw [hrest, hr, List.nil_append]
    cases tail with
    | nil => exact ⟨rfl, h⟩
    | cons ch tail =>
      have hch : ch ≠ target := fun he => hne (he ▸ ht ch rfl)
      dsimp only
      rw [if_neg hch]
      exact ⟨rfl, h⟩

theorem same_lexEqual (short long : Symbol) (h : c.Ahead d tail stop c') (ht : NewLine tail) :
    Same d tail stop (lexEqual short long c) (lexEqual short long c') := by
  have htake := same_takeIf h ht (show '=' ≠ '\n' by decide)
  unfold lexEqual
  generalize c.takeIf '=' = r at htake
  generalize c'.takeIf '=' = r' at htake
  obtain ⟨b, c⟩ := r
  obtain ⟨b', c'⟩ := r'
  obtain ⟨rfl, hc⟩ := htake
  cases b' with
  | true => exact ⟨rfl, hc⟩
  | false => exact ⟨rfl, hc⟩

theorem same_lexString (h : c.Ahead d tail stop c')
    (hv : tail = [] ∨ ∀ e, (lexString c).1 ≠ .invalid e) :
    Same d tail stop (lexString c) (lexString c') := by
  unfold lexString at hv ⊢
  dsimp only [Cursor.takeUntil] at hv ⊢
  cases hr : (c.takeWhile fun ch => !ch == '"').rest with
  | nil =>
    rw [hr] at hv
    obtain rfl := hv.resolve_right fun hv => hv _ rfl
    obtain ⟨-, hahead⟩ := h.takeWhile (p := fun ch => !ch == '"') (.inr rfl)
    rw [hahead.rest, hr]
    exact ⟨rfl, hahead⟩
  | cons ch rest =>
    have hquote : ∃ ch ∈ c.rest, (!ch == '"') = false := by
      by_contra hall
      have hall (ch : Char) (hch : ch ∈ c.rest) : (!ch == '"') = true := by
        rw [← Bool.not_eq_false]
        exact fun hq => hall ⟨ch, hch, hq⟩
      rw [Cursor.takeWhile, List.dropWhile_eq_nil_iff.2 hall] at hr
      cases hr
    obtain ⟨htake, hahead⟩ := h.takeWhile (p := fun ch => !ch == '"') (.inl hquote)
    rw [hahead.rest, hr]
    exact ⟨congrArg (fun cs => Kind.string (String.ofList cs)) htake,
      hahead.next (by rw [hr]; exact List.cons_ne_nil _ _)⟩

/-- A number ends in front of a tail that begins a line. -/
theorem same_lexNumber (h : c.Ahead d tail stop c') (ht : NewLine tail) :
    Same d tail stop (lexNumber c) (lexNumber c') := by
  have hdigits {c c' : Cursor} (h : c.Ahead d tail stop c') :=
    h.takeWhile_of_newLine ht (p := Char.isDigit) (by decide)
  obtain ⟨hwhole, hahead⟩ := hdigits h
  unfold lexNumber
  dsimp only
  rw [hwhole]
  have hrest := hahead.rest
  generalize c.takeWhile Char.isDigit = u at hahead hrest
  generalize c'.takeWhile Char.isDigit = u' at hahead hrest
  rw [hrest]
  cases hu : u.rest with
  | nil =>
    rw [List.nil_append]
    cases tail with
    | nil => exact ⟨rfl, hahead⟩
    | cons ch tail =>
      obtain rfl := ht ch rfl
      exact ⟨rfl, hahead⟩
  | cons x xs =>
    rw [List.cons_append]
    by_cases hx : x = '.'
    · subst hx
      cases xs with
      | nil =>
        rw [List.nil_append]
        cases tail with
        | nil => exact ⟨rfl, hahead⟩
        | cons ch tail =>
          obtain rfl := ht ch rfl
          exact ⟨rfl, hahead⟩
      | cons y ys =>
        obtain ⟨hfraction, hahead'⟩ := hdigits (hahead.next (by simp [hu]))
        dsimp only [List.cons_append]
        refine .ite (fun _ => ⟨?_, hahead'⟩) fun _ => ⟨rfl, hahead⟩
        rw [hfraction]
    · split
      · next he => exact absurd (List.cons.inj he).1 hx
      · split
        · next he => exact absurd (List.cons.inj he).1 hx
        · exact ⟨rfl, hahead⟩

theorem same_lexName (h : c.Ahead d tail stop c') (ht : NewLine tail) :
    Same d tail stop (lexName c) (lexName c') := by
  obtain ⟨htext, hahead⟩ := h.takeWhile_of_newLine ht (p := isNameChar) (by decide)
  unfold lexName
  dsimp only
  rw [htext]
  split
  · exact ⟨rfl, hahead⟩
  · exact ⟨rfl, hahead⟩

/-- A comment that ends is not changed by what comes behind its end. -/
theorem same_skipComment {depth : Nat} {cs : List Char} {p : Position} (ht : NewLine tail)
    (hv : tail = [] ∨ (skipComment depth cs p).1 = true) (hp : p.advanceBy cs = stop) :
    Same d tail stop (skipComment depth cs p) (skipComment depth (cs ++ tail) (p.moved d)) := by
  fun_induction skipComment depth cs p with
  | case1 depth rest p ih =>
    rw [List.cons_append, List.cons_append, skipComment, Position.moved_advance,
      Position.moved_advance]
    exact ih hv hp
  | case2 rest p =>
    rw [List.cons_append, List.cons_append, skipComment, Position.moved_advance,
      Position.moved_advance]
    exact ⟨rfl, rfl, rfl, hp⟩
  | case3 depth rest p ih =>
    rw [List.cons_append, List.cons_append, skipComment, Position.moved_advance,
      Position.moved_advance]
    exact ih hv hp
  | case4 depth ch rest p h₁ h₂ h₃ ih =>
    rw [List.cons_append, skipComment, Position.moved_advance]
    · exact ih hv hp
    · intro rest' hch hrest
      obtain ⟨es, rfl⟩ := ht.eq_cons (by decide) hrest
      exact h₁ es hch rfl
    · intro rest' hdepth hch hrest
      obtain ⟨es, rfl⟩ := ht.eq_cons (by decide) hrest
      exact h₂ es hdepth hch rfl
    · intro depth' rest' hdepth hch hrest
      obtain ⟨es, rfl⟩ := ht.eq_cons (by decide) hrest
      exact h₃ depth' es hdepth hch rfl
  | case5 depth p =>
    obtain rfl := hv.resolve_right Bool.false_ne_true
    exact ⟨rfl, rfl, rfl, hp⟩

/-- No comment reaches into the tail: one on a line ends in front of it, and any other has ended. -/
theorem same_lexSlash (h : c.Ahead d tail stop c') (ht : NewLine tail)
    (hv : tail = [] ∨ ∀ e, (lexSlash c).1 ≠ some (.invalid e)) :
    Same d tail stop (lexSlash c) (lexSlash c') := by
  have hrest := h.rest
  have hnext := h.next
  have hline := h.takeWhile_of_newLine ht (p := fun ch => !ch == '\n') (by decide)
  unfold lexSlash at hv ⊢
  cases hr : c.rest with
  | nil =>
    rw [hrest, hr, List.nil_append]
    cases tail with
    | nil => exact ⟨rfl, h⟩
    | cons ch tail =>
      obtain rfl := ht ch rfl
      exact ⟨rfl, h⟩
  | cons ch rest =>
    replace hnext := hnext (by simp [hr])
    rw [hrest, hr, List.cons_append]
    rw [hr] at hv
    by_cases hslash : ch = '/'
    · subst hslash
      exact ⟨rfl, hline.2⟩
    by_cases hstar : ch = '*'
    · subst hstar
      have hcomment : Same d tail stop (skipComment 0 c.next.rest c.next.position) _ :=
        same_skipComment ht ?_ hnext.stop
      · rw [hnext.rest, hnext.position]
        generalize skipComment 0 c.next.rest c.next.position = r at hcomment
        generalize skipComment 0 (c.next.rest ++ tail) (c.next.position.moved d) = r' at hcomment
        obtain ⟨ended, u⟩ := r
        obtain ⟨ended', u'⟩ := r'
        obtain ⟨rfl, hu⟩ := hcomment
        cases ended' with
        | true => exact ⟨rfl, hu⟩
        | false => exact ⟨rfl, hu⟩
      · refine hv.imp_right fun hv => ?_
        rcases he : skipComment 0 c.next.rest c.next.position with ⟨_ | _, u⟩
        · simp only [he] at hv
          exact absurd rfl (hv _)
        · rfl
    · split
      · next he => exact absurd (List.cons.inj he).1 hslash
      · next he => exact absurd (List.cons.inj he).1 hstar
      · split
        · next he => exact absurd (List.cons.inj he).1 hslash
        · next he => exact absurd (List.cons.inj he).1 hstar
        · exact ⟨rfl, h⟩

theorem same_some {r r' : Kind × Cursor} (h : Same d tail stop r r') :
    Same d tail stop (some r.1, r.2) (some r'.1, r'.2) :=
  ⟨congrArg some h.1, h.2⟩

/-- Whatever is read at a character in front of the tail is read there with the tail behind it
too. -/
theorem same_lexOne (h : c.Ahead d tail stop c') (ht : NewLine tail) (hne : c.rest ≠ [])
    (hv : tail = [] ∨ ∀ e, (lexOne c).1 ≠ some (.invalid e)) :
    Same d tail stop (lexOne c) (lexOne c') := by
  have hrest := h.rest
  have hnext := h.next hne
  unfold lexOne at hv ⊢
  cases hr : c.rest with
  | nil => exact absurd hr hne
  | cons ch rest =>
    rw [hrest, hr, List.cons_append]
    rw [hr] at hv
    dsimp only at hv ⊢
    refine .ite (fun hc => ?_) fun hslash => ?_
    · rw [if_pos hc] at hv
      exact same_lexSlash hnext ht hv
    rw [if_neg hslash] at hv
    refine .ite (fun _ => same_some (same_lexEqual _ _ hnext ht)) fun hequal => ?_
    rw [if_neg hequal] at hv
    refine .ite (fun _ => same_some (same_lexEqual _ _ hnext ht)) fun hgreater => ?_
    rw [if_neg hgreater] at hv
    refine .ite (fun _ => same_some (same_lexEqual _ _ hnext ht)) fun hbang => ?_
    rw [if_neg hbang] at hv
    refine .ite (fun _ => ?_) fun hless => ?_
    · have htake := same_takeIf hnext ht (show '>' ≠ '\n' by decide)
      generalize c.next.takeIf '>' = r at htake
      generalize c'.next.takeIf '>' = r' at htake
      obtain ⟨b, u⟩ := r
      obtain ⟨b', u'⟩ := r'
      obtain ⟨rfl, hu⟩ := htake
      cases b' with
      | true => exact ⟨rfl, hu⟩
      | false => exact same_some (same_lexEqual _ _ hu ht)
    rw [if_neg hless] at hv
    refine .ite (fun hc => ?_) fun hquote => ?_
    · rw [if_pos hc] at hv
      exact same_some (same_lexString hnext (hv.imp_right fun hv e he => hv e (congrArg some he)))
    refine .ite (fun _ => same_some (same_lexNumber h ht)) fun _ => ?_
    refine .ite (fun _ => same_some (same_lexName h ht)) fun _ => ?_
    split
    · exact ⟨rfl, hnext⟩
    · exact ⟨rfl, hnext⟩

/-! ## One token -/

/-- The same token comes next, or else the end of the first text, and in the second what comes
behind it. -/
theorem same_next (h : c.Ahead d tail stop c') (ht : NewLine tail)
    (hv : tail = [] ∨ ∀ e, (next c).1.kind ≠ .invalid e) :
    ((next c).1.kind = .endOfFile →
      (next c).1 = ⟨.endOfFile, ⟨stop, stop⟩⟩ ∧ next c' = next ⟨tail, stop.moved d⟩) ∧
    ((next c).1.kind ≠ .endOfFile →
      (next c').1 = (next c).1.moved d ∧ (next c).2.Ahead d tail stop (next c').2) := by
  fun_induction next c generalizing c' with
  | case1 c start k u =>
    rename_i hk
    by_cases hr : start.rest = []
    · have hall := List.dropWhile_eq_nil_iff.1 hr
      have htake : c.rest.takeWhile Text.isBlank = c.rest := List.takeWhile_eq_self_iff.2 hall
      have hstart : start = ⟨[], stop⟩ := by
        show (⟨c.rest.dropWhile _, c.position.advanceBy (c.rest.takeWhile _)⟩ : Cursor) = _
        rw [htake, h.stop]
        exact congrArg (Cursor.mk · stop) hr
      rw [hstart] at hk
      cases hk
      refine ⟨fun _ => ⟨by rw [hstart], next_congr ?_⟩, fun hne => absurd rfl hne⟩
      rw [Cursor.takeWhile, Cursor.takeWhile, h.rest, h.position, List.dropWhile_append_of_pos hall,
        List.takeWhile_append_of_pos hall, Position.advanceBy_append, Position.moved_advanceBy, h.stop]
    · have hblank : ∃ ch ∈ c.rest, Text.isBlank ch = false := by
        by_contra hall
        refine hr (List.dropWhile_eq_nil_iff.2 fun ch hch => ?_)
        rw [← Bool.not_eq_false]
        exact fun hb => hall ⟨ch, hch, hb⟩
      obtain ⟨-, hstart⟩ := h.takeWhile (.inl hblank)
      obtain ⟨hkind, hu⟩ := same_lexOne hstart ht hr (hv.imp_right fun hv e he => hv e (by
        rw [hk] at he
        exact Option.some.inj he))
      have hne := lexOne_ne_endOfFile hr
      rw [hk] at hkind hu hne
      have hnext := next_of_some (c := c')
        (u := (lexOne (c'.takeWhile Text.isBlank)).2) (Prod.ext hkind rfl)
      refine ⟨fun he => absurd (congrArg some he) hne, fun _ => ?_⟩
      rw [hnext]
      refine ⟨?_, hu⟩
      rw [hstart.position, hu.position]
      rfl
  | case2 c start u =>
    rename_i hk _ ih
    obtain ⟨ch, rest, hr⟩ := lexOne_eq_none_cons (c := start) (by rw [hk])
    have hblank : ∃ ch ∈ c.rest, Text.isBlank ch = false := by
      by_contra hall
      have hall : ∀ ch ∈ c.rest, Text.isBlank ch = true := fun ch hch => by
        rw [← Bool.not_eq_false]
        exact fun hb => hall ⟨ch, hch, hb⟩
      have := List.dropWhile_eq_nil_iff.2 hall
      exact List.cons_ne_nil ch rest (hr.symm.trans this)
    obtain ⟨-, hstart⟩ := h.takeWhile (.inl hblank)
    obtain ⟨hkind, hu⟩ := same_lexOne hstart ht (by rw [hr]; exact List.cons_ne_nil _ _)
      (.inr fun e he => by rw [hk] at he; cases he)
    rw [hk] at hkind hu
    rw [next_of_none (c := c') (u := (lexOne (c'.takeWhile Text.isBlank)).2) (Prod.ext hkind rfl)]
    exact ih hu hv

/-! ## All tokens -/

theorem allFrom_ahead (h : c.Ahead d tail stop c') (ht : NewLine tail)
    (hv : tail = [] ∨ ∀ t ∈ allFrom c, ∀ e, t.kind ≠ .invalid e) :
    ∃ ts, allFrom c = ts ++ [⟨.endOfFile, ⟨stop, stop⟩⟩] ∧
      allFrom c' = ts.map (moved d) ++ allFrom ⟨tail, stop.moved d⟩ := by
  fun_induction allFrom c generalizing c' with
  | case1 c t u hn hend =>
    obtain ⟨heof, -⟩ := same_next h ht (by rw [hn]; exact hv.imp_right fun hv => hv t (by simp))
    rw [hn] at heof
    obtain ⟨rfl, hnext⟩ := heof ((isEndOfFile_iff _).1 hend)
    refine ⟨[], rfl, ?_⟩
    rw [allFrom_of_next (c := c') (Prod.ext rfl rfl), hnext, List.map_nil, List.nil_append]
    exact (allFrom_of_next (Prod.ext rfl rfl)).symm
  | case2 c t u hn hend _ ih =>
    obtain ⟨-, hother⟩ := same_next h ht (by rw [hn]; exact hv.imp_right fun hv => hv t (by simp))
    rw [hn] at hother
    obtain ⟨htoken, hu⟩ := hother fun he => hend ((isEndOfFile_iff _).2 he)
    obtain ⟨ts, hts, hrest⟩ := ih hu (hv.imp_right fun hv t ht => hv t (List.mem_cons_of_mem _ ht))
    refine ⟨t :: ts, by rw [hts]; rfl, ?_⟩
    rw [allFrom_of_next (c := c') (Prod.ext htoken rfl), hrest, if_neg hend]
    rfl

/-- The tokens of two texts with a line feed between them, if all those of the first are valid. -/
theorem ofSource_joined (source more : String)
    (hv : ∀ t ∈ ofSource source, ∀ e, t.kind ≠ .invalid e) :
    ∃ ts e, ofSource source = ts ++ [e] ∧
      ofSource (source ++ "\n" ++ more) = ts ++ (ofSource more).map (moved (.behind source)) := by
  have hsource : Cursor.Ahead ⟨0, 0⟩ ('\n' :: more.toList) (Position.start.advanceBy source.toList)
      (.ofString source) (.ofString (source ++ "\n" ++ more)) := by
    refine ⟨?_, rfl, rfl⟩
    simp [Cursor.ofString]
  have hmore : Cursor.Ahead (.behind source) [] (Position.start.advanceBy more.toList)
      (.ofString more) ⟨more.toList, Position.start.moved (.behind source)⟩ :=
    ⟨(List.append_nil _).symm, rfl, rfl⟩
  have hline : NewLine ('\n' :: more.toList) := by
    rintro _ ⟨⟩
    rfl
  obtain ⟨ts, hts, hjoined⟩ := allFrom_ahead hsource hline (.inr hv)
  obtain ⟨us, hus, hrest⟩ := allFrom_ahead hmore (fun _ => nofun) (.inl rfl)
  refine ⟨ts, _, hts, ?_⟩
  have hplace : (Position.moved ⟨0, 0⟩ (Position.start.advanceBy source.toList)).advance '\n' =
      Position.start.moved (.behind source) := Position.advanceBy_line source
  rw [allFrom_congr (next_blank (by decide) _ _), hplace, hrest] at hjoined
  rw [ofSource, hjoined, ofSource, hus, allFrom_nil, List.map_append]
  exact congrArg (· ++ _) (List.map_id ts)

end Token

end Lox

import Lox.Proofs.Source.Operation

/-!
# Looking ahead in a stream

A cursor can be kept on a stream as well, which gives the characters of a text one after the other,
each with the byte it begins at.  To look at a character is to take it from the stream, so it is
held back until it is asked for, and the byte in front of which the cursor stands is told by what
comes next.  Whatever is done with the two, in whatever order, such a cursor answers as one that has
the text in front of it, and stands in the same place:

    s.Shows c → (runAll act s ops).1 = (runAll Cursor.act c ops).1 ∧
      (runAll act s ops).2.Shows (runAll Cursor.act c ops).2                      (Shows.runAll)

Neither of them ever loses its place in the text (`keeps_place`).
-/

namespace Lox

/-! ## What a cursor sees -/

namespace Cursor

/-- Whether a character was found that satisfies `p`. -/
def isFound (p : Char → Bool) (found : Option (Nat × Char)) : Bool := found.any fun (_, ch) => p ch

theorem peekNext_eq (c : Cursor) : c.peekNext = c.next.peek := by
  obtain ⟨_ | ⟨ch, _ | ⟨ch', rest⟩⟩, position⟩ := c
  · rfl
  · rfl
  · simp [Cursor.peekNext, Cursor.next, Cursor.peek, Position.byte_advance]

theorem takeIf_eq_ite (target : Char) (c : Cursor) :
    c.takeIf target = if isFound (· == target) c.peek then (true, c.next) else (false, c) := by
  rw [Cursor.takeIf, Cursor.peek]
  cases c.rest with
  | nil => rfl
  | cons ch rest => simp [isFound]

theorem takeIfPair_eq_ite (first second : Char) (c : Cursor) :
    c.takeIfPair first second =
      if isFound (· == first) c.peek && isFound (· == second) c.peekNext then (true, c.next.next)
      else (false, c) := by
  rw [Cursor.takeIfPair, Cursor.peek, Cursor.peekNext]
  rcases c.rest with _ | ⟨ch, _ | ⟨ch', rest⟩⟩
  · rfl
  · simp [isFound]
  · simp [isFound]

theorem takeWhile_eq_ite (p : Char → Bool) (c : Cursor) :
    c.takeWhile p = if isFound p c.peek then c.next.takeWhile p else c := by
  obtain ⟨_ | ⟨ch, rest⟩, position⟩ := c
  · rfl
  · cases hp : p ch with
    | true => simp [Cursor.takeWhile, Cursor.peek, Cursor.next, isFound, hp, Position.advanceBy]
    | false => simp [Cursor.takeWhile, Cursor.peek, isFound, hp, Position.advanceBy]

end Cursor

/-! ## Streams -/

/-- The characters that are still to come, and the byte that the first of them begins at. -/
structure CharStream where
  rest : List Char
  byte : Nat

namespace CharStream

/-- The next character with the byte it begins at, if there is one, and the stream after it. -/
def next (s : CharStream) : Option (Nat × Char) × CharStream :=
  match s.rest with
  | [] => (none, s)
  | ch :: rest => (some (s.byte, ch), ⟨rest, s.byte + ch.utf8Size⟩)

/-- What is in front of a cursor. -/
def ofCursor (c : Cursor) : CharStream := ⟨c.rest, c.position.byte⟩

theorem next_ofCursor (c : Cursor) : (ofCursor c).next = (c.peek, ofCursor c.next) := by
  obtain ⟨_ | ⟨ch, rest⟩, position⟩ := c
  · rfl
  · simp [next, ofCursor, Cursor.peek, Cursor.next, Position.byte_advance]

end CharStream

/-- A cursor on a stream.  What was looked at last and is still in front of it is held back: a
character, or that there is none. -/
structure StreamCursor where
  source : String
  stream : CharStream
  held : Option (Option (Nat × Char))
  position : Position

namespace StreamCursor

open Cursor (Operation Answer bytes isFound DoesAll runAll)

def ofString (source : String) : StreamCursor := ⟨source, ⟨source.toList, 0⟩, none, .start⟩

/-! ## Looking -/

def peek (s : StreamCursor) : Option (Nat × Char) × StreamCursor :=
  match s.held with
  | some found => (found, s)
  | none =>
    (s.stream.next.1, { s with stream := s.stream.next.2, held := some s.stream.next.1 })

def isAtEnd (s : StreamCursor) : Bool × StreamCursor := (s.peek.1.isNone, s.peek.2)

/-- The byte that the next character begins at; at the end, the size of the source. -/
def offset (s : StreamCursor) : Nat × StreamCursor :=
  (s.peek.1.elim s.source.utf8ByteSize Prod.fst, s.peek.2)

/-! ## Moving -/

/-- What comes next, which is not in front of the cursor any more. -/
def draw (s : StreamCursor) : Option (Nat × Char) × StreamCursor :=
  match s.held with
  | some found => (found, { s with held := none })
  | none => (s.stream.next.1, { s with stream := s.stream.next.2 })

/-- The cursor after `ch` has been drawn, in front of what comes next. -/
def moveOver (ch : Char) (s : StreamCursor) : StreamCursor :=
  { s.offset.2 with
    position :=
      if ch = '\n' then ⟨s.offset.1, s.position.line + 1, 1⟩
      else ⟨s.offset.1, s.position.line, s.position.column + 1⟩ }

def take (s : StreamCursor) : Option (Nat × Char) × StreamCursor :=
  match s.draw with
  | (none, s) => (none, s)
  | (some (byte, ch), s) => (some (byte, ch), s.moveOver ch)

/-- What a copy of the cursor sees after taking the next character. -/
def peekNext (s : StreamCursor) : Option (Nat × Char) := s.take.2.peek.1

def takeIf (target : Char) (s : StreamCursor) : Bool × StreamCursor :=
  if isFound (· == target) s.peek.1 then (true, s.peek.2.take.2) else (false, s.peek.2)

def takeIfPair (first second : Char) (s : StreamCursor) : Bool × StreamCursor :=
  if isFound (· == first) s.peek.1 && isFound (· == second) s.peek.2.peekNext then
    (true, s.peek.2.take.2.take.2)
  else (false, s.peek.2)

/-- The characters in front of the cursor. -/
def ahead (s : StreamCursor) : List Char :=
  ((s.held.getD none).map Prod.snd).toList ++ s.stream.rest

/-- Looking uses nothing up. -/
theorem ahead_peek (s : StreamCursor) : s.peek.2.ahead = s.ahead := by
  obtain ⟨source, ⟨_ | ⟨ch, rest⟩, byte⟩, _ | found, position⟩ := s <;> rfl

theorem ahead_of_draw {s : StreamCursor} {byte : Nat} {ch : Char}
    (h : s.draw.1 = some (byte, ch)) : s.ahead = ch :: s.draw.2.ahead := by
  obtain ⟨source, ⟨_ | ⟨first, rest⟩, byte'⟩, _ | _ | held, position⟩ := s
  case nil.none | nil.some.none | cons.some.none => cases h
  all_goals
    cases h
    rfl

/-- What has been looked at is what comes next. -/
theorem draw_peek (s : StreamCursor) : s.peek.2.draw.1 = s.peek.1 := by
  obtain ⟨source, stream, _ | found, position⟩ := s <;> rfl

theorem take_of_draw {s : StreamCursor} {byte : Nat} {ch : Char} (h : s.draw.1 = some (byte, ch)) :
    s.take = (some (byte, ch), s.draw.2.moveOver ch) := by
  rcases hd : s.draw with ⟨found, u⟩
  rw [hd] at h
  cases h
  rw [take, hd]

theorem take_of_draw_none {s : StreamCursor} (h : s.draw.1 = none) : s.take = (none, s.draw.2) := by
  rcases hd : s.draw with ⟨found, u⟩
  rw [hd] at h
  cases h
  rw [take, hd]

theorem length_ahead_lt {p : Char → Bool} {s : StreamCursor} (h : isFound p s.peek.1 = true) :
    s.peek.2.take.2.ahead.length < s.ahead.length := by
  obtain ⟨⟨byte, ch⟩, hfound, -⟩ := (Option.any_eq_true _ _).1 h
  have hdraw : s.peek.2.draw.1 = some (byte, ch) := (draw_peek s).trans hfound
  have hmove : (s.peek.2.draw.2.moveOver ch).ahead = s.peek.2.draw.2.ahead := ahead_peek _
  rw [take_of_draw hdraw, hmove, ← ahead_peek s, ahead_of_draw hdraw]
  exact Nat.lt_succ_self _

def takeWhile (p : Char → Bool) (s : StreamCursor) : StreamCursor :=
  if h : isFound p s.peek.1 = true then
    have := length_ahead_lt h
    takeWhile p s.peek.2.take.2
  else s.peek.2
termination_by s.ahead.length

def takeUntil (p : Char → Bool) (s : StreamCursor) : StreamCursor := s.takeWhile fun ch => !p ch

def act (s : StreamCursor) : Operation → Answer × StreamCursor
  | .take => s.take.map .found id
  | .takeIf target => (s.takeIf target).map .truth id
  | .takeIfPair first second => (s.takeIfPair first second).map .truth id
  | .takeWhile p => (.done, s.takeWhile p)
  | .takeUntil p => (.done, s.takeUntil p)
  | .peek => s.peek.map .found id
  | .peekNext => (.found s.peekNext, s)
  | .offset => s.offset.map .byte id
  | .isAtEnd => s.isAtEnd.map .truth id

/-! ## What the two have in common -/

variable {s : StreamCursor} {c : Cursor}

/-- What is in front of the two is the same, whether it has been looked at or not.  Where they stand
is left open: a character that has been drawn is not yet moved over. -/
structure Feeds (s : StreamCursor) (c : Cursor) : Prop where
  stream : s.held = none ∧ s.stream = .ofCursor c ∨
    s.held = some c.peek ∧ s.stream = .ofCursor c.next
  size : s.source.utf8ByteSize = c.position.byte + bytes c.rest

/-- The two stand in the same place. -/
structure Shows (s : StreamCursor) (c : Cursor) : Prop extends Feeds s c where
  position : s.position = c.position

theorem shows_ofString (source : String) : (ofString source).Shows (.ofString source) where
  stream := .inl ⟨rfl, rfl⟩
  size := by simp [ofString, Cursor.ofString, Position.start, bytes]
  position := rfl

/-! ### One character -/

theorem Feeds.peek (h : Feeds s c) : s.peek.1 = c.peek ∧ Feeds s.peek.2 c := by
  obtain ⟨⟨hheld, hstream⟩ | ⟨hheld, hstream⟩, hsize⟩ := h
  · rw [StreamCursor.peek, hheld, hstream, CharStream.next_ofCursor]
    exact ⟨rfl, .inr ⟨rfl, rfl⟩, hsize⟩
  · rw [StreamCursor.peek, hheld]
    exact ⟨rfl, .inr ⟨hheld, hstream⟩, hsize⟩

theorem Feeds.offset (h : Feeds s c) : s.offset.1 = c.offset ∧ Feeds s.offset.2 c := by
  refine ⟨?_, h.peek.2⟩
  have hsize := h.size
  rw [StreamCursor.offset, h.peek.1, Cursor.peek, Cursor.offset]
  cases hr : c.rest with
  | nil =>
    -- at the end it is the size of the source that tells
    rw [hr] at hsize
    simpa [bytes] using hsize
  | cons ch rest => rfl

theorem byte_next (c : Cursor) :
    c.next.position.byte + bytes c.next.rest = c.position.byte + bytes c.rest := by
  obtain ⟨_ | ⟨ch, rest⟩, position⟩ := c
  · rfl
  · have htakes := Cursor.Takes.next (c := ⟨ch :: rest, position⟩) rfl
    rw [htakes.position, Position.byte_advanceBy, Nat.add_assoc, htakes.rest]
    simp [bytes]

theorem Feeds.draw (h : Feeds s c) : s.draw.1 = c.peek ∧ Feeds s.draw.2 c.next := by
  obtain ⟨⟨hheld, hstream⟩ | ⟨hheld, hstream⟩, hsize⟩ := h
  · rw [StreamCursor.draw, hheld, hstream, CharStream.next_ofCursor]
    exact ⟨rfl, .inl ⟨rfl, rfl⟩, hsize.trans (byte_next c).symm⟩
  · rw [StreamCursor.draw, hheld]
    exact ⟨rfl, .inl ⟨rfl, hstream⟩, hsize.trans (byte_next c).symm⟩

theorem position_peek (s : StreamCursor) : s.peek.2.position = s.position := by
  unfold peek
  split <;> rfl

theorem position_draw (s : StreamCursor) : s.draw.2.position = s.position := by
  unfold draw
  split <;> rfl

/-- Looking leaves the cursor where it is. -/
theorem Shows.peek (h : Shows s c) : s.peek.1 = c.peek ∧ Shows s.peek.2 c :=
  ⟨h.toFeeds.peek.1, h.toFeeds.peek.2, (position_peek s).trans h.position⟩

theorem Shows.take (h : Shows s c) : s.take.1 = c.peek ∧ Shows s.take.2 c.next := by
  obtain ⟨hfound, hfeeds⟩ := h.toFeeds.draw
  have hposition : s.draw.2.position = c.position := (position_draw s).trans h.position
  cases hr : c.rest with
  | nil =>
    have hpeek : c.peek = none := by rw [Cursor.peek, hr]
    have hnext : c.next = c := by rw [Cursor.next, hr]
    rw [take_of_draw_none (hfound.trans hpeek), hpeek]
    exact ⟨rfl, hfeeds, hnext.symm ▸ hposition⟩
  | cons ch rest =>
    have hpeek : c.peek = some (c.position.byte, ch) := by rw [Cursor.peek, hr]
    have hnext : c.next.position = c.position.advance ch := by rw [Cursor.next, hr]
    rw [take_of_draw (hfound.trans hpeek), hpeek]
    refine ⟨rfl, ⟨hfeeds.offset.2.stream, hfeeds.offset.2.size⟩, ?_⟩
    -- the byte is that of the character behind `ch`, which is looked at to know it
    have hbyte : s.draw.2.offset.1 = (c.position.advance ch).byte :=
      hfeeds.offset.1.trans (congrArg Position.byte hnext)
    rw [hnext, moveOver, hbyte, hposition]
    unfold Position.advance
    split <;> rfl

/-! ### More of them -/

theorem Shows.peekNext (h : Shows s c) : s.peekNext = c.peekNext :=
  h.take.2.peek.1.trans (Cursor.peekNext_eq c).symm

theorem Shows.takeIf (h : Shows s c) (target : Char) :
    (s.takeIf target).1 = (c.takeIf target).1 ∧ Shows (s.takeIf target).2 (c.takeIf target).2 := by
  obtain ⟨hfound, hpeek⟩ := h.peek
  rw [StreamCursor.takeIf, Cursor.takeIf_eq_ite, hfound]
  split
  · exact ⟨rfl, hpeek.take.2⟩
  · exact ⟨rfl, hpeek⟩

theorem Shows.takeIfPair (h : Shows s c) (first second : Char) :
    (s.takeIfPair first second).1 = (c.takeIfPair first second).1 ∧
      Shows (s.takeIfPair first second).2 (c.takeIfPair first second).2 := by
  obtain ⟨hfound, hpeek⟩ := h.peek
  rw [StreamCursor.takeIfPair, Cursor.takeIfPair_eq_ite, hfound, hpeek.peekNext]
  split
  · exact ⟨rfl, hpeek.take.2.take.2⟩
  · exact ⟨rfl, hpeek⟩

theorem Shows.takeWhile (h : Shows s c) (p : Char → Bool) :
    Shows (s.takeWhile p) (c.takeWhile p) := by
  fun_induction StreamCursor.takeWhile p s generalizing c with
  | case1 s hp _ ih =>
    rw [Cursor.takeWhile_eq_ite, ← h.peek.1, if_pos hp]
    exact ih h.peek.2.take.2
  | case2 s hp =>
    rw [Cursor.takeWhile_eq_ite, ← h.peek.1, if_neg hp]
    exact h.peek.2

/-! ## Whatever is done -/

theorem Shows.act (h : Shows s c) (op : Operation) :
    (s.act op).1 = (c.act op).1 ∧ Shows (s.act op).2 (c.act op).2 := by
  cases op with
  | take => exact ⟨congrArg Answer.found h.take.1, h.take.2⟩
  | takeIf target => exact (h.takeIf target).imp_left (congrArg Answer.truth)
  | takeIfPair first second => exact (h.takeIfPair first second).imp_left (congrArg Answer.truth)
  | takeWhile p => exact ⟨rfl, h.takeWhile p⟩
  | takeUntil p => exact ⟨rfl, h.takeWhile _⟩
  | peek => exact h.peek.imp_left (congrArg Answer.found)
  | peekNext => exact ⟨congrArg Answer.found h.peekNext, h⟩
  | offset => exact ⟨congrArg Answer.byte h.toFeeds.offset.1, h.peek.2⟩
  | isAtEnd =>
    refine ⟨congrArg Answer.truth ?_, h.peek.2⟩
    show s.peek.1.isNone = c.rest.isEmpty
    rw [h.peek.1, Cursor.peek]
    cases c.rest <;> rfl

/-- No operations tell the two apart. -/
theorem Shows.runAll (h : Shows s c) (ops : List Operation) :
    (Cursor.runAll StreamCursor.act s ops).1 = (Cursor.runAll Cursor.act c ops).1 ∧
      Shows (Cursor.runAll StreamCursor.act s ops).2 (Cursor.runAll Cursor.act c ops).2 := by
  induction ops generalizing s c with
  | nil => exact ⟨rfl, h⟩
  | cons op ops ih =>
    obtain ⟨hanswer, hshows⟩ := h.act op
    obtain ⟨hanswers, hall⟩ := ih hshows
    exact ⟨congrArg₂ List.cons hanswer hanswers, hall⟩

/-- No operations tell the two apart, nor does where they lead. -/
def Alike (s s' : StreamCursor) : Prop := ∀ ops,
  (runAll act s ops).1 = (runAll act s' ops).1 ∧
    (runAll act s ops).2.position = (runAll act s' ops).2.position

theorem Shows.alike {s' : StreamCursor} (h : Shows s c) (h' : Shows s' c) : s.Alike s' := by
  intro ops
  obtain ⟨hanswers, hshows⟩ := h.runAll ops
  obtain ⟨hanswers', hshows'⟩ := h'.runAll ops
  exact ⟨hanswers.trans hanswers'.symm, hshows.position.trans hshows'.position.symm⟩

theorem Shows.ahead (h : Shows s c) : s.ahead = c.rest := by
  obtain ⟨hheld, hstream⟩ | ⟨hheld, hstream⟩ := h.stream
  · rw [StreamCursor.ahead, hheld, hstream]
    rfl
  · rw [StreamCursor.ahead, hheld, hstream]
    obtain ⟨_ | ⟨ch, rest⟩, position⟩ := c <;> rfl

end StreamCursor

/-! ## The law -/

namespace Cursor

theorem runAll_of_looks {looks : List Operation} (h : ∀ op ∈ looks, op.Looks) (c : Cursor) :
    (runAll act c looks).2 = c := by
  induction looks with
  | nil => rfl
  | cons op looks ih =>
    have hact : (c.act op).2 = c := by
      cases op with
      | peek | peekNext | offset | isAtEnd => rfl
      | take | takeIf | takeIfPair | takeWhile | takeUntil => exact (h _ List.mem_cons_self).elim
    show (runAll act (c.act op).2 looks).2 = c
    rw [hact]
    exact ih fun op hop => h op (List.mem_cons_of_mem _ hop)

/-- The position and the offset are those of what has been taken, and what has not is the rest of
the source. -/
structure InPlace (source : String) (taken rest : List Char) (position : Position) (offset : Nat) :
    Prop where
  text : source.toList = taken ++ rest
  byte : position.byte = bytes taken
  offset : offset = bytes taken
  line : position.line = 1 + taken.count '\n'
  column : position.column = 1 + (taken.reverse.takeWhile (· ≠ '\n')).length

theorem inPlace_of_behind {source : String} {taken rest : List Char} {position : Position}
    {offset : Nat} (htext : source.toList = taken ++ rest) (hposition : position = .behind taken)
    (hoffset : offset = position.byte) : InPlace source taken rest position offset := by
  subst hposition
  exact ⟨htext, rfl, hoffset, rfl, rfl⟩

/-- For every source and all operations, a cursor on the text and one on a stream give the same
answers, which are those, and the only ones, that the text behind and in front of them tells.  What
was taken is the beginning of the source, piece by piece, and behind it both have their place;
looking moves neither, as far as any operations can tell. -/
theorem keeps_place (source : String) (ops : List Operation) : ∃ answers pieces c s,
    runAll act (ofString source) ops = (answers, c) ∧
    runAll StreamCursor.act (.ofString source) ops = (answers, s) ∧
    (∀ answers' pieces', DoesAll [] source.toList ops answers' pieces' ↔
      answers' = answers ∧ pieces' = pieces) ∧
    InPlace source pieces.flatten c.rest c.position c.offset ∧
    InPlace source pieces.flatten s.ahead s.position s.offset.1 ∧
    ∀ looks : List Operation, (∀ op ∈ looks, op.Looks) →
      (runAll act c looks).2 = c ∧ (runAll StreamCursor.act s looks).2.Alike s := by
  have hstart : (ofString source).position = .behind [] := rfl
  obtain ⟨pieces, hdoes, htakes⟩ := exists_doesAll hstart ops
  obtain ⟨hanswers, hshows⟩ := (StreamCursor.shows_ofString source).runAll ops
  have hposition := position_behind hstart htakes
  refine ⟨_, pieces, _, _, rfl, Prod.ext hanswers rfl, fun _ _ => ⟨hdoes.unique, ?_⟩,
    inPlace_of_behind htakes.rest hposition rfl,
    inPlace_of_behind ?_ (hshows.position.trans hposition) ?_, fun looks hlooks => ?_⟩
  · rintro ⟨rfl, rfl⟩
    exact hdoes
  · rw [hshows.ahead]
    exact htakes.rest
  · rw [hshows.toFeeds.offset.1, hshows.position]
    rfl
  · have hstays := (hshows.runAll looks).2
    rw [runAll_of_looks hlooks] at hstays
    exact ⟨runAll_of_looks hlooks _, hstays.alike hshows⟩

/-- Bytes run ahead of columns behind a character of two bytes. -/
example :
    runAll act (ofString "*\né*/x")
        [.takeUntil (· == 'é'), .take, .peekNext, .takeIfPair '*' '/', .offset] =
      ([.done, .found (some (2, 'é')), .found (some (5, '/')), .truth true, .byte 6],
        ⟨['x'], ⟨6, 2, 4⟩⟩) := rfl

end Cursor

end Lox

import Lox.Proofs.Token.Found

/-!
# Operations on a cursor

Whatever is done with a cursor, in whatever order, takes the text piece by piece.  What an operation
answers, and which piece it takes, is told by the text behind the cursor and the text in front of it
(`Does`), and behind that piece the next operation begins (`DoesAll`).  That leaves one answer and
one piece to each operation (`DoesAll.unique`), and a cursor gives and takes them:

    c.position = .behind before → ∃ pieces,
      DoesAll before c.rest ops (runAll act c ops).1 pieces ∧
        c.Takes pieces.flatten (runAll act c ops).2                             (exists_doesAll)
-/

namespace Lox

namespace Cursor

/-! ## Operations -/

/-- What can be done with a cursor. -/
inductive Operation
  | take
  | takeIf (target : Char)
  | takeIfPair (first second : Char)
  | takeWhile (p : Char → Bool)
  | takeUntil (p : Char → Bool)
  | peek
  | peekNext
  | offset
  | isAtEnd

/-- The operations that only look. -/
def Operation.Looks : Operation → Prop
  | .peek | .peekNext | .offset | .isAtEnd => True
  | .take | .takeIf _ | .takeIfPair _ _ | .takeWhile _ | .takeUntil _ => False

/-- What an operation tells: a character and the byte it begins at, if there is one, whether
something holds, a byte, or nothing. -/
inductive Answer
  | found (r : Option (Nat × Char))
  | truth (b : Bool)
  | byte (n : Nat)
  | done

def act (c : Cursor) : Operation → Answer × Cursor
  | .take => c.take.map .found id
  | .takeIf target => (c.takeIf target).map .truth id
  | .takeIfPair first second => (c.takeIfPair first second).map .truth id
  | .takeWhile p => (.done, c.takeWhile p)
  | .takeUntil p => (.done, c.takeUntil p)
  | .peek => (.found c.peek, c)
  | .peekNext => (.found c.peekNext, c)
  | .offset => (.byte c.offset, c)
  | .isAtEnd => (.truth c.isAtEnd, c)

/-- One operation after the other, on whatever can do them. -/
def runAll {σ : Type} (act : σ → Operation → Answer × σ) (s : σ) : List Operation → List Answer × σ
  | [] => ([], s)
  | op :: ops => (runAll act (act s op).2 ops).map ((act s op).1 :: ·) id

/-! ## What they do to a text -/

/-- How many bytes a text has. -/
def bytes (text : List Char) : Nat := (String.ofList text).utf8ByteSize

/-- With the text `before` behind and `ahead` in front, the operation has that answer and takes that
piece. -/
inductive Does (before : List Char) : List Char → Operation → Answer → List Char → Prop
  | take {ch : Char} {rest : List Char} :
      Does before (ch :: rest) .take (.found (some (bytes before, ch))) [ch]
  | takeNone : Does before [] .take (.found none) []
  | takeIf {target : Char} {rest : List Char} :
      Does before (target :: rest) (.takeIf target) (.truth true) [target]
  | takeIfNot {target : Char} {ahead : List Char} : ¬[target] <+: ahead →
      Does before ahead (.takeIf target) (.truth false) []
  | takeIfPair {first second : Char} {rest : List Char} :
      Does before (first :: second :: rest) (.takeIfPair first second) (.truth true) [first, second]
  | takeIfPairNot {first second : Char} {ahead : List Char} : ¬[first, second] <+: ahead →
      Does before ahead (.takeIfPair first second) (.truth false) []
  | takeWhile {p : Char → Bool} {ahead piece rest : List Char} : ahead = piece ++ rest →
      (∀ ch ∈ piece, p ch = true) → (∀ ch ∈ rest.head?, p ch = false) →
      Does before ahead (.takeWhile p) .done piece
  | takeUntil {p : Char → Bool} {ahead piece rest : List Char} : ahead = piece ++ rest →
      (∀ ch ∈ piece, p ch = false) → (∀ ch ∈ rest.head?, p ch = true) →
      Does before ahead (.takeUntil p) .done piece
  | peek {ch : Char} {rest : List Char} :
      Does before (ch :: rest) .peek (.found (some (bytes before, ch))) []
  | peekNone : Does before [] .peek (.found none) []
  | peekNext {ch next : Char} {rest : List Char} :
      Does before (ch :: next :: rest) .peekNext (.found (some (bytes (before ++ [ch]), next))) []
  | peekNextNone {ahead : List Char} : ahead.length < 2 →
      Does before ahead .peekNext (.found none) []
  | offset {ahead : List Char} : Does before ahead .offset (.byte (bytes before)) []
  | isAtEnd {ahead : List Char} : Does before ahead .isAtEnd (.truth ahead.isEmpty) []

/-- One after the other, the operations have those answers and take those pieces. -/
inductive DoesAll :
    (before ahead : List Char) → List Operation → List Answer → List (List Char) → Prop
  | nil {before ahead : List Char} : DoesAll before ahead [] [] []
  | cons {before ahead piece rest : List Char} {op : Operation} {answer : Answer}
      {ops : List Operation} {answers : List Answer} {pieces : List (List Char)} :
      ahead = piece ++ rest → Does before ahead op answer piece →
      DoesAll (before ++ piece) rest ops answers pieces →
      DoesAll before ahead (op :: ops) (answer :: answers) (piece :: pieces)

/-! ### The text tells what they do -/

section

variable {before ahead piece piece' rest : List Char} {op : Operation} {answer answer' : Answer}
  {ops : List Operation} {answers answers' : List Answer} {pieces pieces' : List (List Char)}

/-- The piece that ends where `p` fails first. -/
theorem eq_takeWhile {p : Char → Bool} (heq : ahead = piece ++ rest)
    (hpiece : ∀ ch ∈ piece, p ch = true) (hrest : ∀ ch ∈ rest.head?, p ch = false) :
    piece = ahead.takeWhile p := by
  have hnone : rest.takeWhile p = [] := by
    cases rest with
    | nil => rfl
    | cons ch rest => rw [List.takeWhile_cons_of_neg (by simp [hrest ch rfl])]
  rw [heq, List.takeWhile_append_of_pos hpiece, hnone, List.append_nil]

/-- Which piece is taken, and with which answer, is not left open. -/
theorem Does.unique (h : Does before ahead op answer piece)
    (h' : Does before ahead op answer' piece') : answer' = answer ∧ piece' = piece := by
  cases h with
  | take | takeNone | peek | peekNone | offset | isAtEnd =>
    cases h'
    exact ⟨rfl, rfl⟩
  | takeIf =>
    cases h' with
    | takeIf => exact ⟨rfl, rfl⟩
    | takeIfNot hnot => exact absurd (List.prefix_append _ _) hnot
  | takeIfNot hnot =>
    cases h' with
    | takeIf => exact absurd (List.prefix_append _ _) hnot
    | takeIfNot => exact ⟨rfl, rfl⟩
  | takeIfPair =>
    cases h' with
    | takeIfPair => exact ⟨rfl, rfl⟩
    | takeIfPairNot hnot => exact absurd (List.prefix_append _ _) hnot
  | takeIfPairNot hnot =>
    cases h' with
    | takeIfPair => exact absurd (List.prefix_append _ _) hnot
    | takeIfPairNot => exact ⟨rfl, rfl⟩
  | takeWhile heq hpiece hrest =>
    cases h' with
    | takeWhile heq' hpiece' hrest' =>
      exact ⟨rfl, (eq_takeWhile heq' hpiece' hrest').trans (eq_takeWhile heq hpiece hrest).symm⟩
  | @takeUntil p _ _ _ heq hpiece hrest =>
    cases h' with
    | takeUntil heq' hpiece' hrest' =>
      have hsame := eq_takeWhile (p := fun ch => !p ch) heq (by simpa using hpiece)
        (by simpa using hrest)
      have hsame' := eq_takeWhile (p := fun ch => !p ch) heq' (by simpa using hpiece')
        (by simpa using hrest')
      exact ⟨rfl, hsame'.trans hsame.symm⟩
  | peekNext =>
    cases h' with
    | peekNext => exact ⟨rfl, rfl⟩
    | peekNextNone hlt => exact absurd hlt (by simp)
  | peekNextNone hlt =>
    cases h' with
    | peekNext => exact absurd hlt (by simp)
    | peekNextNone => exact ⟨rfl, rfl⟩

theorem DoesAll.unique (h : DoesAll before ahead ops answers pieces)
    (h' : DoesAll before ahead ops answers' pieces') : answers' = answers ∧ pieces' = pieces := by
  induction h generalizing answers' pieces' with
  | nil =>
    cases h'
    exact ⟨rfl, rfl⟩
  | cons heq hdoes _ ih =>
    cases h' with
    | cons heq' hdoes' hall' =>
      obtain ⟨rfl, rfl⟩ := hdoes.unique hdoes'
      obtain rfl := List.append_cancel_left (heq'.symm.trans heq)
      obtain ⟨rfl, rfl⟩ := ih hall'
      exact ⟨rfl, rfl⟩

end

/-! ## A cursor does them -/

variable {c : Cursor} {before : List Char}

theorem does_takeIf (before : List Char) (c : Cursor) (target : Char) : ∃ piece,
    Does before c.rest (.takeIf target) (.truth (c.takeIf target).1) piece ∧
      c.Takes piece (c.takeIf target).2 := by
  obtain ⟨rest, hr, htake⟩ | ⟨hother, htake⟩ := Token.takeIf_eq target c
  · rw [htake, hr]
    exact ⟨[target], .takeIf, .next hr⟩
  · rw [htake]
    refine ⟨[], .takeIfNot ?_, .refl c⟩
    rintro ⟨rest, heq⟩
    exact hother target (heq ▸ rfl) rfl

theorem does_takeIfPair (before : List Char) (c : Cursor) (first second : Char) : ∃ piece,
    Does before c.rest (.takeIfPair first second) (.truth (c.takeIfPair first second).1) piece ∧
      c.Takes piece (c.takeIfPair first second).2 := by
  unfold Cursor.takeIfPair
  split
  · next ch ch' rest hr =>
    rw [hr]
    split
    · next heq =>
      obtain ⟨rfl, rfl⟩ := heq
      have hnext : c.next.rest = ch' :: rest := by rw [Cursor.next, hr]
      exact ⟨[ch, ch'], .takeIfPair, (Takes.next hr).trans (.next hnext)⟩
    · next hne =>
      refine ⟨[], .takeIfPairNot fun h => hne ?_, .refl c⟩
      simpa [eq_comm] using h
  · next hr =>
    refine ⟨[], .takeIfPairNot ?_, .refl c⟩
    rintro ⟨rest, heq⟩
    exact hr _ _ _ heq.symm

theorem does_takeWhile (before : List Char) (c : Cursor) (p : Char → Bool) :
    Does before c.rest (.takeWhile p) .done (c.rest.takeWhile p) :=
  .takeWhile List.takeWhile_append_dropWhile.symm (List.all_eq_true.1 List.all_takeWhile)
    fun _ => Token.head?_dropWhile

theorem does_takeUntil (before : List Char) (c : Cursor) (p : Char → Bool) :
    Does before c.rest (.takeUntil p) .done (c.rest.takeWhile fun ch => !p ch) := by
  refine .takeUntil List.takeWhile_append_dropWhile.symm (fun ch hch => ?_) (fun ch hch => ?_)
  · simpa using List.all_eq_true.1 List.all_takeWhile ch hch
  · simpa using Token.head?_dropWhile hch

/-- What a cursor answers and takes behind a text. -/
theorem exists_does (hc : c.position = .behind before) (op : Operation) : ∃ piece,
    Does before c.rest op (c.act op).1 piece ∧ c.Takes piece (c.act op).2 := by
  have hbyte : c.position.byte = bytes before := congrArg Position.byte hc
  cases op with
  | take =>
    cases hr : c.rest with
    | nil =>
      have htake : c.take = (none, c) := by rw [Cursor.take, Cursor.peek, Cursor.next, hr]
      rw [act, htake]
      exact ⟨[], .takeNone, .refl c⟩
    | cons ch rest =>
      have hpeek : c.peek = some (bytes before, ch) := by rw [Cursor.peek, hr, hbyte]
      rw [act, Cursor.take, hpeek]
      exact ⟨[ch], .take, .next hr⟩
  | takeIf target => exact does_takeIf before c target
  | takeIfPair first second => exact does_takeIfPair before c first second
  | takeWhile p => exact ⟨_, does_takeWhile before c p, .takeWhile c p⟩
  | takeUntil p => exact ⟨_, does_takeUntil before c p, .takeWhile c _⟩
  | peek =>
    refine ⟨[], ?_, .refl c⟩
    rw [act, Cursor.peek, hbyte]
    cases c.rest with
    | nil => exact .peekNone
    | cons ch rest => exact .peek
  | peekNext =>
    refine ⟨[], ?_, .refl c⟩
    rw [act, Cursor.peekNext]
    rcases c.rest with _ | ⟨ch, _ | ⟨next, rest⟩⟩
    · exact .peekNextNone (by decide)
    · exact .peekNextNone (Nat.lt_succ_self 1)
    · have hnext : c.position.byte + ch.utf8Size = bytes (before ++ [ch]) := by
        simp [hbyte, bytes]
      dsimp only
      rw [hnext]
      exact .peekNext
  | offset =>
    refine ⟨[], ?_, .refl c⟩
    rw [act, Cursor.offset, hbyte]
    exact .offset
  | isAtEnd => exact ⟨[], .isAtEnd, .refl c⟩

theorem position_behind {piece : List Char} {u : Cursor} (hc : c.position = .behind before)
    (h : c.Takes piece u) : u.position = .behind (before ++ piece) := by
  rw [h.position, hc, Position.behind_append]

/-- The text is taken piece by piece, whatever the operations are. -/
theorem exists_doesAll (hc : c.position = .behind before) (ops : List Operation) : ∃ pieces,
    DoesAll before c.rest ops (runAll act c ops).1 pieces ∧
      c.Takes pieces.flatten (runAll act c ops).2 := by
  -- each operation begins behind the pieces of those before it
  induction ops generalizing c before with
  | nil => exact ⟨[], .nil, .refl c⟩
  | cons op ops ih =>
    obtain ⟨piece, hdoes, htakes⟩ := exists_does hc op
    obtain ⟨pieces, hall, htakesAll⟩ := ih (position_behind hc htakes)
    exact ⟨piece :: pieces, .cons htakes.rest hdoes hall, htakes.trans htakesAll⟩

end Cursor

end Lox

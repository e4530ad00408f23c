import Lox.Proofs.Run.Closed

/-!
# Output that comes to its end

An output that has room for so many bytes gets the same text as one that has room for all, as long
as it fits.  A run that prints more than fits goes the same way as far as the print statement at
which the text goes past the end, and stops there:

    (o.limited total).write text         the part of `o.write text` that fits   (write_limited)
    Follows total x                      `x` goes the same way as far as it fits

What the run comes by until then are the same tasks, so nothing is evaluated after that.
-/

namespace Lox

/-! ## Writing -/

namespace Output

/-- What has been written, where there is room for `total` bytes in all. -/
def limited (o : Output) (total : Nat) : Output := ⟨o.written, some (total - o.written.size)⟩

/-- Writes texts one after another, up to the first that does not fit. -/
def writeEach (o : Output) : List String → Bool × Output
  | [] => (true, o)
  | text :: texts => if (o.write text).1 then (o.write text).2.writeEach texts else o.write text

variable {o : Output} {total : Nat}

theorem extract_of_size_le {bytes : ByteArray} {n : Nat} (h : bytes.size ≤ n) :
    bytes.extract 0 n = bytes := by
  have hall := ByteArray.extract_zero_max_size (a := bytes) (i := n)
  rwa [Nat.max_eq_left h] at hall

theorem extract_append_size_add (a b : ByteArray) (n : Nat) :
    (a ++ b).extract 0 (a.size + n) = a ++ b.extract 0 n := by
  rw [ByteArray.extract_append, extract_of_size_le (Nat.le_add_right _ _), Nat.zero_sub,
    Nat.add_sub_cancel_left]

theorem write_of_room_none (h : o.room = none) (text : String) :
    o.write text = (true, ⟨o.written ++ text.toUTF8, none⟩) := by
  simp only [write, h]

theorem write_of_room {room : Nat} (h : o.room = some room) (text : String) :
    o.write text =
      if text.toUTF8.size ≤ room then
        (true, ⟨o.written ++ text.toUTF8, some (room - text.toUTF8.size)⟩)
      else (false, ⟨o.written ++ text.toUTF8.extract 0 room, some 0⟩) := by
  simp only [write, h]

/-- Nothing is written in vain: a text without bytes always fits. -/
theorem write_empty (o : Output) : o.write "" = (true, o) := by
  obtain ⟨written, room⟩ := o
  have hbytes : written ++ "".toUTF8 = written := ByteArray.append_empty
  cases room with
  | none => rw [write_of_room_none rfl, hbytes]
  | some room =>
    have hsize : "".toUTF8.size ≤ room := Nat.zero_le room
    rw [write_of_room rfl, if_pos hsize, hbytes]
    rfl

/-- Into how many parts a text is cut does not matter. -/
theorem write_append (o : Output) (a b : String) :
    o.write (a ++ b) = if (o.write a).1 then (o.write a).2.write b else o.write a := by
  obtain ⟨written, room⟩ := o
  have hbytes : (a ++ b).toUTF8 = a.toUTF8 ++ b.toUTF8 := String.toByteArray_append
  have hsize : (a.toUTF8 ++ b.toUTF8).size = a.toUTF8.size + b.toUTF8.size :=
    ByteArray.size_append
  cases room with
  | none =>
    rw [write_of_room_none rfl, write_of_room_none rfl, if_pos rfl, write_of_room_none rfl, hbytes,
      ByteArray.append_assoc]
  | some room =>
    rw [write_of_room rfl, write_of_room rfl, hbytes, hsize]
    by_cases ha : a.toUTF8.size ≤ room
    · rw [if_pos ha, if_pos rfl, write_of_room rfl]
      by_cases hb : b.toUTF8.size ≤ room - a.toUTF8.size
      · rw [if_pos hb, if_pos (by omega), ByteArray.append_assoc, Nat.sub_sub]
      · rw [if_neg hb, if_neg (by omega), ByteArray.extract_append, Nat.zero_sub,
          ← ByteArray.append_assoc]
        rw [extract_of_size_le ha]
    · rw [if_neg ha, if_neg (by omega), if_neg Bool.false_ne_true, ByteArray.extract_append]
      have hnone : b.toUTF8.extract (0 - a.toUTF8.size) (room - a.toUTF8.size) = .empty := by
        rw [ByteArray.extract_eq_empty_iff]; omega
      rw [hnone, ByteArray.append_empty]

theorem writeEach_eq (o : Output) (texts : List String) :
    o.writeEach texts = o.write (String.join texts) := by
  induction texts generalizing o with
  | nil => exact (write_empty o).symm
  | cons text texts ih => rw [String.join_cons, write_append, writeEach, ih]

/-- With room for `total` bytes in all, what fits of a text is written. -/
theorem write_limited (hroom : o.room = none) (hfit : o.written.size ≤ total) (text : String) :
    (o.limited total).write text =
      if (o.write text).2.written.size ≤ total then (true, (o.write text).2.limited total)
      else (false, ⟨(o.write text).2.written.extract 0 total, some 0⟩) := by
  have hsize : (o.written ++ text.toUTF8).size = o.written.size + text.toUTF8.size :=
    ByteArray.size_append
  rw [write_of_room_none hroom, write_of_room rfl]
  dsimp only [limited]
  rw [hsize]
  by_cases h : o.written.size + text.toUTF8.size ≤ total
  · rw [if_pos h, if_pos (by omega), Nat.sub_sub]
  · rw [if_neg h, if_neg (by omega), ByteArray.extract_append, Nat.zero_sub,
      extract_of_size_le hfit]

end Output

/-! ## Machines -/

namespace Machine

/-- How many bytes have been printed. -/
def printed (m : Machine) : Nat := m.output.written.size

/-- The machine, where there is room for `total` bytes in all. -/
def limited (m : Machine) (total : Nat) : Machine := { m with output := m.output.limited total }

/-- The machine when the room has been used up within a line. -/
def filled (m : Machine) (total : Nat) (line : String) : Machine :=
  { m with output := ⟨(m.output.written ++ line.toUTF8).extract 0 total, some 0⟩ }

/-- Where there is room for all, there still is, and what has been printed stays. -/
def Grows (m m' : Machine) : Prop :=
  m.output.room = none →
    m'.output.room = none ∧ ∃ more, m'.output.written = m.output.written ++ more

namespace Grows

variable {m m' m'' : Machine}

theorem refl (m : Machine) : Grows m m := fun h => ⟨h, .empty, ByteArray.append_empty.symm⟩

theorem trans (h : Grows m m') (h' : Grows m' m'') : Grows m m'' := by
  intro hroom
  obtain ⟨hroom', more, hmore⟩ := h hroom
  obtain ⟨hroom'', more', hmore'⟩ := h' hroom'
  exact ⟨hroom'', more ++ more', by rw [hmore', hmore, ByteArray.append_assoc]⟩

theorem printed_le (h : Grows m m') (hroom : m.output.room = none) : m.printed ≤ m'.printed := by
  obtain ⟨-, more, hmore⟩ := h hroom
  unfold printed
  rw [hmore, ByteArray.size_append]
  exact Nat.le_add_right _ _

/-- What does not fit later is behind what did not fit already. -/
theorem extract (h : Grows m m') (hroom : m.output.room = none) {total : Nat}
    (hfull : total ≤ m.printed) :
    m'.output.written.extract 0 total = m.output.written.extract 0 total := by
  obtain ⟨-, more, hmore⟩ := h hroom
  have hnone : more.extract (0 - m.output.written.size) (total - m.output.written.size) = .empty :=
    ByteArray.extract_eq_empty_iff.2 (by unfold printed at hfull; omega)
  rw [hmore, ByteArray.extract_append, hnone, ByteArray.append_empty]

end Grows

end Machine

namespace Eval

open Run

variable {α β : Type} {total : Nat}

theorem stable_grows : Stable Machine.Grows where
  refl := .refl
  trans := .trans
  heap m _ := Machine.Grows.refl m
  tick m := Machine.Grows.refl m
  inFrame _ h := h

theorem grows_printLine (text : String) (span : Span) : Keeps Machine.Grows (printLine text span) :=
  keeps_printLine (fun m text hroom => by
    rw [Output.write_of_room_none hroom]
    exact ⟨rfl, _, rfl⟩) text span

theorem growsAt (fuel : Nat) : ClosedAt (fun _ x => Keeps Machine.Grows x) fuel :=
  closedAt (closed_keeps stable_grows) grows_printLine fuel

/-! ## The same way as far as it fits -/

/-- What an evaluation prints goes past the end. -/
structure Passes (total : Nat) (x : Eval α) (m : Machine) : Prop where
  room : m.output.room = none
  fits : m.printed ≤ total
  passes : total < (machineOf (x m)).printed

/-- With room for `total` bytes in all, an evaluation goes the same way if all fits, and else ends
in an error when the room is used up. -/
structure Follows (total : Nat) (x : Eval α) : Prop where
  grows : Keeps Machine.Grows x
  same : ∀ {m}, m.output.room = none → (machineOf (x m)).printed ≤ total →
    x (m.limited total) = mapMachine (·.limited total) (x m)
  full : ∀ {m}, Passes total x m → ∃ (span : Span) (m' : Machine), x (m.limited total) =
    .error (.error ⟨span, .outputFailed Output.limitReached⟩)
      { m' with output := ⟨(machineOf (x m)).output.written.extract 0 total, some 0⟩ }

/-- Where nothing is printed, there is nothing that does not fit. -/
theorem not_passes {x : Eval α} {m : Machine} (h : (machineOf (x m)).output = m.output) :
    ¬ Passes total x m := by
  intro hp
  have := hp.passes
  have := hp.fits
  unfold Machine.printed at *
  rw [h] at *
  omega

theorem Follows.ok_of_limited {x : Eval α} {m m' : Machine} {a : α} (hx : Follows total x)
    (hroom : m.output.room = none) (hfit : m.printed ≤ total)
    (h : x (m.limited total) = .ok a m') :
    ∃ m₁, x m = .ok a m₁ ∧ m₁.output.room = none ∧ m₁.printed ≤ total ∧ m' = m₁.limited total := by
  by_cases hfit' : (machineOf (x m)).printed ≤ total
  · have hgrows := hx.grows m hroom
    rw [hx.same hroom hfit'] at h
    cases hxm : x m with
    | ok b m₁ =>
      rw [hxm] at h hgrows hfit'
      cases h
      exact ⟨m₁, rfl, hgrows.1, hfit', rfl⟩
    | error stop m₁ =>
      rw [hxm] at h
      cases h
  · obtain ⟨span, m₁, hstop⟩ := hx.full ⟨hroom, hfit, Nat.lt_of_not_le hfit'⟩
    rw [hstop] at h
    cases h

/-- If the first part has used up the room the second is not begun. -/
theorem Follows.bind {x : Eval α} {f : α → Eval β} (hx : Follows total x)
    (hf : ∀ a, Follows total (f a)) : Follows total (x >>= f) where
  grows := (closed_keeps stable_grows).bind hx.grows fun a => (hf a).grows
  same {m} hroom hfit := by
    have hgrows := hx.grows m
    have hsame := hx.same hroom
    cases h : x m with
    | ok a m' =>
      rw [h] at hgrows hsame
      rw [EStateM.bind_of_ok h] at hfit ⊢
      have hroom' := (hgrows hroom).1
      have hle := ((hf a).grows m').printed_le hroom'
      rw [EStateM.bind_of_ok (hsame (Nat.le_trans hle hfit))]
      exact (hf a).same hroom' hfit
    | error stop m' =>
      rw [h] at hsame
      rw [EStateM.bind_of_error h] at hfit ⊢
      exact EStateM.bind_of_error (hsame hfit) f
  full {m} hp := by
    obtain ⟨hroom, hfit, hpasses⟩ := hp
    have hgrows := hx.grows m
    have hsame := hx.same hroom
    have hfull (h : total < (machineOf (x m)).printed) := hx.full ⟨hroom, hfit, h⟩
    cases h : x m with
    | ok a m' =>
      rw [h] at hgrows hsame hfull
      rw [EStateM.bind_of_ok h] at hpasses ⊢
      have hroom' := (hgrows hroom).1
      by_cases hfit' : m'.printed ≤ total
      · rw [EStateM.bind_of_ok (hsame hfit')]
        exact (hf a).full ⟨hroom', hfit', hpasses⟩
      · obtain ⟨span, m'', hstop⟩ := hfull (Nat.lt_of_not_le hfit')
        have hextract := ((hf a).grows m').extract hroom' (Nat.le_of_not_le hfit')
        rw [EStateM.bind_of_error hstop, hextract]
        exact ⟨span, m'', rfl⟩
    | error stop m' =>
      rw [h] at hfull
      rw [EStateM.bind_of_error h] at hpasses ⊢
      obtain ⟨span, m'', hstop⟩ := hfull hpasses
      exact ⟨span, m'', EStateM.bind_of_error hstop f⟩

theorem Follows.inFrame (frame : FrameId) {x : Eval α} (hx : Follows total x) :
    Follows total (inFrame frame x) where
  grows := (closed_keeps stable_grows).inFrame frame hx.grows
  same {m} hroom hfit := by
    rw [inFrame_apply, machineOf_mapMachine] at hfit
    have hsame : x { m.limited total with frame := frame } = _ :=
      hx.same (m := { m with frame := frame }) hroom hfit
    rw [inFrame_apply, inFrame_apply, hsame]
    cases x { m with frame := frame } <;> rfl
  full {m} hp := by
    obtain ⟨hroom, hfit, hpasses⟩ := hp
    rw [inFrame_apply, machineOf_mapMachine] at hpasses
    obtain ⟨span, m', hstop⟩ := hx.full (m := { m with frame := frame }) ⟨hroom, hfit, hpasses⟩
    have hstop : x { m.limited total with frame := frame } = _ := hstop
    rw [inFrame_apply, inFrame_apply, hstop, machineOf_mapMachine]
    exact ⟨span, { m' with frame := m.frame }, rfl⟩

/-- Without any output the machine is changed in the same way. -/
theorem Follows.of_silent {x : Eval α} (hgrows : Keeps Machine.Grows x)
    (hsilent : ∀ m, (machineOf (x m)).output = m.output)
    (hsame : ∀ m, x (m.limited total) = mapMachine (·.limited total) (x m)) :
    Follows total x :=
  ⟨hgrows, fun _ _ => hsame _, fun hp => absurd hp (not_passes (hsilent _))⟩

theorem closed_follows (total : Nat) : Closed fun _ x => Follows total x where
  pure a := .of_silent ((closed_keeps stable_grows).pure a) (fun _ => rfl) fun _ => rfl
  throw stop := .of_silent ((closed_keeps stable_grows).throw stop) (fun _ => rfl) fun _ => rfl
  bind := .bind
  read {α f} hf h :=
    have heq (m : Machine) : f (m.limited total) = f m := hf m _ m.time
    ⟨fun m => (h m).grows m,
      fun {m} hroom hfit => by
        rw [EStateM.get_bind_apply, heq]
        exact (h m).same hroom hfit,
      fun {m} hp => by
        rw [EStateM.get_bind_apply, heq]
        exact (h m).full ⟨hp.room, hp.fits, hp.passes⟩⟩
  change {α g} hg := .of_silent ((closed_keeps stable_grows).change hg) (fun _ => rfl) fun m => by
    have heq : g (m.limited total) = g m := hg m _ m.time
    show EStateM.Result.ok (g (m.limited total)).1 _ = _
    rw [heq]
    rfl
  clock := .of_silent (closed_keeps stable_grows).clock (fun _ => rfl) fun _ => rfl
  inFrame frame _ hx := .inFrame frame hx

theorem printLine_of_room_none {m : Machine} (hroom : m.output.room = none) (text : String)
    (span : Span) :
    printLine text span m =
      .ok () { m with output := ⟨m.output.written ++ (text ++ "\n").toUTF8, none⟩ } := by
  rw [printLine_apply, Output.write_of_room_none hroom, if_pos rfl]

theorem printLine_limited {m : Machine} (hroom : m.output.room = none) (hfit : m.printed ≤ total)
    (text : String) (span : Span) :
    printLine text span (m.limited total) =
      let written := m.output.written ++ (text ++ "\n").toUTF8
      if written.size ≤ total then .ok () { m with output := .limited ⟨written, none⟩ total }
      else .error (.error ⟨span, .outputFailed Output.limitReached⟩)
        (m.filled total (text ++ "\n")) := by
  have hwrite : (m.limited total).output.write (text ++ "\n") = _ :=
    Output.write_limited hroom hfit (text ++ "\n")
  rw [printLine_apply, hwrite, Output.write_of_room_none hroom]
  dsimp only
  split <;> rfl

theorem follows_printLine (text : String) (span : Span) : Follows total (printLine text span) where
  grows := grows_printLine text span
  same {m} hroom hfit := by
    have hle := (grows_printLine text span m).printed_le hroom
    rw [printLine_of_room_none hroom] at hfit hle ⊢
    rw [printLine_limited hroom (Nat.le_trans hle hfit)]
    exact if_pos hfit
  full {m} hp := by
    obtain ⟨hroom, hfit, hpasses⟩ := hp
    rw [printLine_of_room_none hroom] at hpasses ⊢
    rw [printLine_limited hroom hfit]
    exact ⟨span, m, if_neg (Nat.not_le_of_lt hpasses)⟩

theorem followsAt (total fuel : Nat) : ClosedAt (fun _ x => Follows total x) fuel :=
  closedAt (closed_follows total) follows_printLine fuel

end Eval

end Lox

import Lox.Proofs.Desugar.Tree
import Lox.Proofs.Run.Kept
import Lox.Proofs.Run.Signal

/-!
# Turns that are not continued

The step of a `for` is taken after each turn that does not leave the loop, whether the turn has come
to its end or has been continued.  Where nothing in the body continues the loop, no turn is, and the
step is as good as the last thing in it.

    s.continues = false → stmt n s m ≠ .ok .continue m'                   (stmt_ne_continue)
    (∀ m m', turn m ≠ .ok .continue m') →
      loop test turn step n = loop test (joined turn step) (pure ()) n            (loop_joined)
-/

namespace Lox.Eval

open Run

variable {n : Nat} {m m' : Machine}

/-! ## The step as part of the turn -/

/-- A turn of a loop with its step. -/
def joined (turn : Eval Signal) (step : Eval Unit) : Eval Signal := do
  match ← turn with
  | .next =>
    step
    return .next
  | signal => return signal

theorem loop_joined (test : Eval Bool) {turn : Eval Signal}
    (hturn : ∀ m m', turn m ≠ .ok .continue m') (step : Eval Unit) (n : Nat) :
    loop test turn step n = loop test (joined turn step) (pure ()) n := by
  induction n with
  | zero => rfl
  | succ n ih =>
    rw [loop_succ, loop_succ, ← ih]
    refine bind_congr fun goesOn => ?_
    split
    case isFalse => rfl
    funext m
    rw [joined, bind_assoc]
    cases h : turn m with
    | ok signal m₁ =>
      rw [EStateM.bind_of_ok h, EStateM.bind_of_ok h]
      cases signal with
      | next => simp only [goOn, bind_assoc, pure_bind]
      | «continue» => exact absurd h (hturn m m₁)
      | «break» | «return» v => rfl
    | error stop m₁ => rw [EStateM.bind_of_error h, EStateM.bind_of_error h]

theorem stmts_singleton (stmt : Stmt → Eval Signal) (s : Stmt) : stmts stmt [s] = stmt s := by
  funext m
  show (stmt s >>= _) m = _
  cases h : stmt s m with
  | ok signal m₁ =>
    rw [EStateM.bind_of_ok h]
    cases signal <;> rfl
  | error stop m₁ => rw [EStateM.bind_of_error h]

/-! ## What is never continued -/

/-- A loop takes what continues it. -/
theorem loop_ne_continue {test : Eval Bool} {turn : Eval Signal} {step : Eval Unit} :
    loop test turn step n m ≠ .ok .continue m' := by
  induction n generalizing m with
  | zero => nofun
  | succ n ih =>
    intro h
    rw [loop_succ] at h
    obtain ⟨goesOn, m₁, -, h⟩ := EStateM.bind_eq_ok.1 h
    cases goesOn with
    | false => cases h
    | true =>
      obtain ⟨signal, m₂, -, h⟩ := EStateM.bind_eq_ok.1 h
      cases signal with
      | «break» | «return» v => cases h
      | next | «continue» =>
        obtain ⟨_, m₃, -, h⟩ := EStateM.bind_eq_ok.1 h
        exact ih h

theorem inNewFrame_eq_ok {α : Type} {x : Eval α} {a : α} (h : inNewFrame x m = .ok a m') :
    ∃ m₁ m₂, x m₁ = .ok a m₂ := by
  obtain ⟨_, _, -, h⟩ := EStateM.bind_eq_ok.1 h
  obtain ⟨frame, m₁, -, h⟩ := EStateM.bind_eq_ok.1 h
  rw [inFrame_apply] at h
  cases hx : x { m₁ with frame := frame } with
  | ok b m₂ =>
    rw [hx] at h
    cases h
    exact ⟨_, _, hx⟩
  | error stop m₂ =>
    rw [hx] at h
    cases h

theorem anyContinues_of_stmts {stmt : Stmt → Eval Signal}
    (hstmt : ∀ s m m', stmt s m = .ok .continue m' → s.continues = true) {ss : List Stmt}
    (h : stmts stmt ss m = .ok .continue m') : Stmt.anyContinues ss = true := by
  induction ss generalizing m with
  | nil => cases h
  | cons s ss ih =>
    obtain ⟨signal, m₁, hs, h⟩ := EStateM.bind_eq_ok.1 h
    rw [Stmt.anyContinues, Bool.or_eq_true]
    cases signal with
    | next => exact .inr (ih h)
    | «continue» => exact .inl (hstmt s m m₁ hs)
    | «break» | «return» v => cases h

/-- Only a `continue` that means the loop around continues it. -/
theorem continues_of_stmt {s : Stmt} (h : stmt n s m = .ok .continue m') :
    s.continues = true := by
  induction n generalizing s m m' with
  | zero => cases h
  | succ n ih =>
    obtain ⟨span, node⟩ := s
    cases node with
    | «continue» => rfl
    | block body =>
      obtain ⟨m₁, m₂, h⟩ := inNewFrame_eq_ok h
      exact anyContinues_of_stmts (fun _ _ _ => ih) h
    | ifElse condition yes no =>
      obtain ⟨v, m₁, -, h⟩ := EStateM.bind_eq_ok.1 h
      rw [Stmt.continues_ifElse, Bool.or_eq_true]
      split at h
      · exact .inl (ih h)
      · cases no with
        | none => cases h
        | some no => exact .inr (ih h)
    | «while» condition body => exact absurd h loop_ne_continue
    | «for» init condition step body =>
      rw [stmt_for] at h
      obtain ⟨m₁, m₂, h⟩ := inNewFrame_eq_ok h
      obtain ⟨_, m₃, -, h⟩ := EStateM.bind_eq_ok.1 h
      exact absurd h loop_ne_continue
    | «break» => cases h
    | «return» value =>
      obtain ⟨v, ⟨⟩⟩ := signal_of_return rfl h
    | expression e =>
      obtain ⟨_, _, -, ⟨⟩⟩ := EStateM.bind_eq_ok.1 h
    | print e =>
      obtain ⟨_, _, -, h⟩ := EStateM.bind_eq_ok.1 h
      rw [EStateM.get_bind_apply] at h
      obtain ⟨_, _, -, ⟨⟩⟩ := EStateM.bind_eq_ok.1 h
    | varDecl name init =>
      cases init with
      | none => obtain ⟨_, _, -, ⟨⟩⟩ := EStateM.bind_eq_ok.1 h
      | some e =>
        obtain ⟨_, _, -, h⟩ := EStateM.bind_eq_ok.1 h
        obtain ⟨_, _, -, ⟨⟩⟩ := EStateM.bind_eq_ok.1 h
    | funDecl f =>
      obtain ⟨_, _, -, h⟩ := EStateM.bind_eq_ok.1 h
      obtain ⟨_, _, -, ⟨⟩⟩ := EStateM.bind_eq_ok.1 h
    | classDecl name superclass traits methods statics =>
      obtain ⟨_, _, -, ⟨⟩⟩ := EStateM.bind_eq_ok.1 h
    | traitDecl name methods statics =>
      obtain ⟨_, _, -, ⟨⟩⟩ := EStateM.bind_eq_ok.1 h

theorem stmt_ne_continue {s : Stmt} (hs : s.continues = false) :
    stmt n s m ≠ .ok .continue m' := fun h => by
  rw [continues_of_stmt h] at hs
  cases hs

end Lox.Eval

import Lox.Proofs.Alike.Moved
import Lox.Proofs.Session.Host

/-!
# What a report is about

A report names places, of errors and of warnings, and a place does not say which text it is in.  So
the same requests are served with a text and with that text further down: a report is about the text
if its places have gone down with it, and it is not if they have stayed.  Whichever it is, one line
is enough to find it out, and it tells what the report is wherever the text stands.

    Same source (.down 0) (.down 1) r r' →
      ∃ x, Placed source x ∧ ∀ d s, Same source (.down 0) d r s → Same source (.down 1) d r' s →
        s = x d                                                                  (exists_placed)
-/

namespace Lox

variable {f g : Span → Span}

/-! ## The places that a report names -/

def Warning.mapSpan (f : Span → Span) (w : Warning) : Warning := { w with span := f w.span }

theorem Warning.mapSpans_eq_self {ws : List Warning} (h : ws.map Warning.span = []) :
    ws.map (mapSpan f) = ws := by
  rw [List.map_eq_nil_iff.1 h]
  rfl

theorem Warning.spans_mapSpans (ws : List Warning) :
    (ws.map (mapSpan f)).map Warning.span = (ws.map Warning.span).map f := by
  rw [List.map_map, List.map_map]
  rfl

theorem Warning.leftInverse_mapSpans (h : Function.LeftInverse g f) :
    Function.LeftInverse (List.map (mapSpan g)) (List.map (mapSpan f)) := by
  intro ws
  rw [List.map_map]
  refine List.map_id'' (fun w => ?_) ws
  exact congrArg (Warning.mk · w.name) (h w.span)

namespace Failure

def spans : Failure → List Span
  | parse errors => errors.map (·.span)
  | scope e => [e.span]
  | runtime e => [e.span]

def mapSpans (f : Span → Span) : Failure → Failure
  | parse errors => parse (errors.map fun e => { e with span := f e.span })
  | scope e => scope { e with span := f e.span }
  | runtime e => runtime { e with span := f e.span }

theorem mapSpans_eq_self {e : Failure} (h : e.spans = []) : e.mapSpans f = e := by
  cases e with
  | parse errors =>
    obtain rfl := List.map_eq_nil_iff.1 h
    rfl
  | scope e => cases h
  | runtime e => cases h

theorem spans_mapSpans (e : Failure) : (e.mapSpans f).spans = e.spans.map f := by
  cases e with
  | parse errors => simp [spans, mapSpans]
  | scope e => rfl
  | runtime e => rfl

theorem leftInverse_mapSpans (h : Function.LeftInverse g f) :
    Function.LeftInverse (mapSpans g) (mapSpans f) := by
  intro e
  cases e with
  | parse errors =>
    rw [mapSpans, mapSpans, List.map_map]
    refine congrArg parse (List.map_id'' (fun e => ?_) errors)
    exact congrArg (ParseError.mk · e.kind) (h e.span)
  | scope e => exact congrArg (scope ⟨·, e.kind⟩) (h e.span)
  | runtime e => exact congrArg (runtime ⟨·, e.kind⟩) (h e.span)

end Failure

namespace Answer

def spans : Answer → List Span
  | .prepared (.ok ws) | .ran (.done ws) => ws.map Warning.span
  | .prepared (.error e) | .executed (.failed e) | .ran (.failed e) => e.spans
  | .executed (.done _) | .executed .outOfFuel | .ran .outOfFuel | .unknown => []

def mapSpans (f : Span → Span) : Answer → Answer
  | .prepared (.ok ws) => .prepared (.ok (ws.map (.mapSpan f)))
  | .prepared (.error e) => .prepared (.error (e.mapSpans f))
  | .executed (.failed e) => .executed (.failed (e.mapSpans f))
  | .ran (.done ws) => .ran (.done (ws.map (.mapSpan f)))
  | .ran (.failed e) => .ran (.failed (e.mapSpans f))
  | .executed (.done u) => .executed (.done u)
  | .executed .outOfFuel => .executed .outOfFuel
  | .ran .outOfFuel => .ran .outOfFuel
  | .unknown => .unknown

theorem mapSpans_eq_self {a : Answer} (h : a.spans = []) : a.mapSpans f = a := by
  unfold mapSpans
  split
  all_goals first
    | rfl
    | exact congrArg _ (congrArg _ (Warning.mapSpans_eq_self h))
    | exact congrArg _ (congrArg _ (Failure.mapSpans_eq_self h))

theorem spans_mapSpans (a : Answer) : (a.mapSpans f).spans = a.spans.map f := by
  unfold mapSpans
  split
  all_goals first
    | rfl
    | exact Warning.spans_mapSpans _
    | exact Failure.spans_mapSpans _

theorem leftInverse_mapSpans (h : Function.LeftInverse g f) :
    Function.LeftInverse (mapSpans g) (mapSpans f) := by
  intro a
  rw [mapSpans.eq_def f]
  split
  all_goals first
    | rfl
    | exact congrArg _ (congrArg _ (Warning.leftInverse_mapSpans h _))
    | exact congrArg _ (congrArg _ (Failure.leftInverse_mapSpans h _))

end Answer

namespace Report

def spans (r : Report) : List Span := r.answer.spans

/-- All places that are named have moved. -/
def moved (d : Offset) (r : Report) : Report :=
  { r with answer := r.answer.mapSpans (Span.moved d) }

theorem spans_moved (d : Offset) (r : Report) : (r.moved d).spans = r.spans.map (Span.moved d) :=
  Answer.spans_mapSpans r.answer

theorem moved_injective (d : Offset) : Function.Injective (Report.moved d) := by
  have : Nonempty Span := ⟨.nowhere⟩
  obtain ⟨g, hg⟩ := (Span.moved_injective d).hasLeftInverse
  rintro ⟨answer, output⟩ ⟨answer', output'⟩ h
  obtain ⟨hanswer, houtput⟩ := mk.inj h
  exact congrArg₂ mk ((Answer.leftInverse_mapSpans hg).injective hanswer) houtput

/-- Only where no place is named nothing goes down with the text, and then nothing moves at all. -/
theorem moved_eq_moved {r : Report} (h : r.moved (.down 0) = r.moved (.down 1)) (d d' : Offset) :
    r.moved d = r.moved d' := by
  have hspans : r.spans.map (Span.moved (.down 0)) = r.spans.map (Span.moved (.down 1)) := by
    rw [← spans_moved, ← spans_moved, h]
  have hnil : r.answer.spans = [] :=
    List.eq_nil_iff_forall_not_mem.2 fun a ha => a.moved_down_ne
      (List.map_inj_left.1 hspans a ha).symm
  have heq (d : Offset) : r.moved d = r :=
    congrArg (Report.mk · r.output) (Answer.mapSpans_eq_self hnil)
  rw [heq, heq]

/-! ## Reports about a text that moves -/

variable {source : String} {d d' : Offset}

/-- What is reported wherever the text stands: all places that are named are in the text and move
with it, or the text makes no difference. -/
inductive Placed (source : String) : (Offset → Report) → Prop
  | inside {r : Report} : (∀ a ∈ r.spans, a.Within source) → Placed source fun d => r.moved d
  | outside (r : Report) : Placed source fun _ => r

/-- The two are what is reported where the text has moved by the two offsets. -/
def Same (source : String) (d d' : Offset) (r r' : Report) : Prop :=
  ∃ x, Placed source x ∧ x d = r ∧ x d' = r'

/-- Moving the text by one line tells what is reported wherever it stands. -/
theorem exists_placed {r r' : Report} (h : Same source (.down 0) (.down 1) r r') :
    ∃ x, Placed source x ∧ ∀ d s, Same source (.down 0) d r s → Same source (.down 1) d r' s →
      s = x d := by
  obtain ⟨x, hx, rfl, rfl⟩ := h
  refine ⟨x, hx, fun d s hs hs' => ?_⟩
  obtain ⟨y, hy, hyx, rfl⟩ := hs
  obtain ⟨z, hz, hzx, hzy⟩ := hs'
  -- if neither `y` nor `z` is of the kind of `x`, no place is named, and then nothing moves
  cases hx with
  | @inside r =>
    cases hy with
    | inside => exact congrArg (moved d) (moved_injective _ hyx)
    | outside =>
      cases hz with
      | inside =>
        rw [← hzy]
        exact congrArg (moved d) (moved_injective _ hzx)
      | outside =>
        have hdown : r.moved (.down 0) = r.moved (.down 1) := hyx.symm.trans (hzy.symm.trans hzx)
        exact hyx.trans (moved_eq_moved hdown _ _)
  | outside r =>
    cases hy with
    | outside => exact hyx
    | @inside t =>
      cases hz with
      | outside => exact hzy.symm.trans hzx
      | inside =>
        rw [moved_injective d hzy] at hzx
        exact (moved_eq_moved (hyx.trans hzx.symm) _ _).trans hyx

/-- As long as reports are the same but for where the text stands, the text can be moved by one line
to tell what they all are wherever it stands. -/
theorem exists_all_placed {rs rs' : List Report}
    (h : List.Forall₂ (Same source (.down 0) (.down 1)) rs rs') :
    ∃ xs : List (Offset → Report), (∀ x ∈ xs, Placed source x) ∧
      ∀ d ss, List.Forall₂ (Same source (.down 0) d) rs ss →
        List.Forall₂ (Same source (.down 1) d) rs' ss → ss = xs.map (· d) := by
  induction h with
  | nil =>
    refine ⟨[], List.forall_mem_nil _, fun d ss hs _ => ?_⟩
    cases hs
    rfl
  | cons hr _ ih =>
    obtain ⟨x, hx, hone⟩ := exists_placed hr
    obtain ⟨xs, hxs, hall⟩ := ih
    refine ⟨x :: xs, List.forall_mem_cons.2 ⟨hx, hxs⟩, fun d ss hs hs' => ?_⟩
    cases hs with
    | cons h hs =>
      cases hs' with
      | cons h' hs' => exact congrArg₂ List.cons (hone d _ h h') (hall d _ hs hs')

theorem Same.inside {r : Report} (h : ∀ a ∈ r.spans, a.Within source) :
    Same source d d' (r.moved d) (r.moved d') := ⟨_, .inside h, rfl, rfl⟩

theorem Same.refl (r : Report) : Same source d d' r r := ⟨_, .outside r, rfl, rfl⟩

end Report

/-! ## Answers that are alike -/

section

variable {source : String} {d d' : Offset} {I : ExprId → ExprId → Prop}

theorem Warning.exists_moved {ws ws' : List Warning}
    (h : List.Forall₂ (Warning.Alike ⟨I, Span.SamePart source d d'⟩) ws ws') :
    ∃ us : List Warning, (∀ a ∈ us.map Warning.span, a.Within source) ∧
      ws = us.map (.mapSpan (.moved d)) ∧ ws' = us.map (.mapSpan (.moved d')) := by
  induction h with
  | nil => exact ⟨[], List.forall_mem_nil _, rfl, rfl⟩
  | @cons w w' _ _ hw _ ih =>
    obtain ⟨us, hus, rfl, rfl⟩ := ih
    obtain ⟨span, name⟩ := w
    obtain ⟨span', name'⟩ := w'
    obtain ⟨⟨a, ha, rfl, rfl⟩, ⟨⟩⟩ := hw
    exact ⟨⟨a, name⟩ :: us, List.forall_mem_cons.2 ⟨ha, hus⟩, rfl, rfl⟩

theorem Failure.exists_moved {e e' : Failure}
    (h : e.Alike ⟨I, Span.SamePlace source d d'⟩ e') :
    e = e' ∨ ∃ t : Failure, (∀ a ∈ t.spans, a.Within source) ∧ e = t.mapSpans (.moved d) ∧
      e' = t.mapSpans (.moved d') := by
  cases h with
  | same e => exact .inl rfl
  | @runtime e e' h =>
    obtain ⟨span, kind⟩ := e
    obtain ⟨span', kind'⟩ := e'
    obtain ⟨⟨a, ha, rfl, rfl⟩ | ⟨⟨⟩⟩, ⟨⟩⟩ := h
    · exact .inr ⟨.runtime ⟨a, kind⟩, List.forall_mem_singleton.2 ha, rfl, rfl⟩
    · exact .inl rfl

namespace Report

/-- Answers that are alike where the text stands in two places are the same answer about it. -/
theorem Alike.same {r r' : Report} (h : r.Alike ⟨I, Span.SamePlace source d d'⟩ r') :
    Same source d d' r r' := by
  obtain ⟨answer, output⟩ := r
  obtain ⟨answer', output'⟩ := r'
  obtain ⟨ha, ⟨⟩⟩ := h
  cases ha with
  | prepared | unknown => exact .refl _
  | executed ho =>
    cases ho with
    | done h => exact h ▸ .refl _
    | outOfFuel => exact .refl _
    | failed h =>
      obtain rfl | ⟨t, ht, rfl, rfl⟩ := Failure.exists_moved h
      · exact .refl _
      · exact .inside (r := ⟨.executed (.failed t), output⟩) ht
  | ran ho =>
    cases ho with
    | done h => exact h ▸ .refl _
    | outOfFuel => exact .refl _
    | failed h =>
      obtain rfl | ⟨t, ht, rfl, rfl⟩ := Failure.exists_moved h
      · exact .refl _
      · exact .inside (r := ⟨.ran (.failed t), output⟩) ht

end Report

/-- The warnings of a text come before those of the text behind it. -/
def Answer.behind (ws : List Warning) : Answer → Answer
  | .ran outcome => .ran (outcome.map (ws ++ ·))
  | a => a

theorem Answer.behind_injective (ws : List Warning) : Function.Injective (Answer.behind ws) := by
  have hmap : Function.Injective (Outcome.map (ws ++ ·)) := by
    intro o o' h
    cases o <;> cases o'
    case done.done => exact congrArg Outcome.done (List.append_cancel_left (Outcome.done.inj h))
    all_goals first | exact h | cases h
  intro a a' h
  cases a <;> cases a'
  case ran.ran => exact congrArg Answer.ran (hmap (Answer.ran.inj h))
  all_goals first | exact h | cases h

namespace Report

def behind (ws : List Warning) (r : Report) : Report := { r with answer := r.answer.behind ws }

theorem behind_injective (ws : List Warning) : Function.Injective (Report.behind ws) := by
  rintro ⟨answer, output⟩ ⟨answer', output'⟩ h
  obtain ⟨hanswer, houtput⟩ := mk.inj h
  exact congrArg₂ mk (Answer.behind_injective ws hanswer) houtput

theorem behind_nil (r : Report) : r.behind [] = r := by
  obtain ⟨answer, output⟩ := r
  cases answer with
  | ran outcome => cases outcome <;> rfl
  | prepared | executed | unknown => rfl

end Report

/-- A text is reported on by itself and behind another one that was prepared with warnings. -/
theorem Outcome.Alike.exists_behind {ws : List Warning} {o o' : Outcome (List Warning)}
    (h : o.Alike ⟨I, Span.SamePlace source d d'⟩ (fun us us' => ∃ more, us' = ws ++ more ∧
      List.Forall₂ (Warning.Alike ⟨Eq, Span.SamePart source d d'⟩) us more) o') (output : Output) :
    ∃ r : Report, r.behind ws = ⟨.ran o', output⟩ ∧
      Report.Same source d d' ⟨.ran o, output⟩ r := by
  cases h with
  | done h =>
    obtain ⟨more, rfl, hmore⟩ := h
    obtain ⟨us, hus, rfl, rfl⟩ := Warning.exists_moved hmore
    exact ⟨_, rfl, .inside (r := ⟨.ran (.done us), output⟩) hus⟩
  | outOfFuel => exact ⟨⟨.ran .outOfFuel, output⟩, rfl, .refl _⟩
  | failed h =>
    obtain rfl | ⟨t, ht, rfl, rfl⟩ := Failure.exists_moved h
    · exact ⟨⟨.ran (.failed _), output⟩, rfl, .refl _⟩
    · exact ⟨⟨.ran (.failed _), output⟩, rfl, .inside (r := ⟨.ran (.failed t), output⟩) ht⟩

end

end Lox

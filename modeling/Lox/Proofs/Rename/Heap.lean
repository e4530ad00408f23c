import Lox.Proofs.Alike.Related
import Lox.Proofs.Rename.Code

/-!
# Heaps of renamed programs

Running a program and its renaming side by side, the heaps hold the same things in the same places.
The plan says of each frame whether the local belongs to its scope: in the frames of which it is so
the local is under its other name.  A plan grows with the heaps, and what it says once it says for
good:

    P <+: P' → Value.Renamed ρ P v v' → Value.Renamed ρ P' v v'                 (Value.Renamed.mono)
    h.Renamed ρ P h' → (∀ e, P[f.index]? = some e → ρ.Names e.2 name name') →
      Option.Rel (Value.Renamed ρ P) (h.getIn? f name) (h'.getIn? f name')   (Heap.Renamed.getIn?)
-/

namespace Lox

/-! ## Plans -/

/-- Of the frames in their order, the one around each, and whether the local belongs to its
scope. -/
abbrev Plan := List (Option FrameId × Bool)

namespace Plan

/-- From `f` outward the frames are those of scopes with these flags, and then that of the
globals. -/
def Reaches (P : Plan) : List Bool → FrameId → Prop
  | [], f => f = Heap.globals
  | own :: Γ, f => ∃ outer, P[f.index]? = some (some outer, own) ∧ Reaches P Γ outer

variable {P P' : Plan}

theorem getElem?_mono (hle : P <+: P') {i : Nat} {e : Option FrameId × Bool}
    (h : P[i]? = some e) : P'[i]? = some e := by
  obtain ⟨rest, rfl⟩ := hle
  rw [List.getElem?_append_left (List.getElem?_eq_some_iff.1 h).1, h]

theorem Reaches.mono (hle : P <+: P') {Γ : List Bool} {f : FrameId} (h : P.Reaches Γ f) :
    P'.Reaches Γ f := by
  induction Γ generalizing f with
  | nil => exact h
  | cons own Γ ih =>
    obtain ⟨outer, he, hrest⟩ := h
    exact ⟨outer, getElem?_mono hle he, ih hrest⟩

end Plan

/-! ## Values -/

/-- A function and its translation.  Of a method that is still to be bound the scope of `this` is
yet to be opened: `inner` has the flags of such scopes. -/
structure Closure.Renamed (ρ : Renaming) (inner : List Bool) (P : Plan) (f f' : Closure) :
    Prop where
  identity : f.identity = f'.identity
  frame : f.frame = f'.frame
  kind : f.kind = f'.kind
  code : ∃ Γ, P.Reaches Γ f.frame ∧ Function.Translated ρ (inner ++ Γ) f.function f'.function

/-- A function and its translation, or one value that is no function. -/
inductive Value.Renamed (ρ : Renaming) (P : Plan) : Value → Value → Prop
  | function {f f' : Closure} : f.Renamed ρ [] P f' → Value.Renamed ρ P (.function f) (.function f')
  | same {v : Value} : v.isFunction = false → Value.Renamed ρ P v v

variable {ρ : Renaming} {P P' : Plan}

namespace Closure.Renamed

variable {inner : List Bool} {f f' : Closure}

theorem mono (hle : P <+: P') (h : f.Renamed ρ inner P f') : f.Renamed ρ inner P' f' :=
  { h with code := h.code.imp fun _ ⟨hreaches, hcode⟩ => ⟨hreaches.mono hle, hcode⟩ }

theorem like (h : f.Renamed ρ inner P f') : f.Like f' := by
  obtain ⟨_, -, hcode⟩ := h.code
  exact ⟨h.identity, congrArg Identifier.name hcode.name.symm, hcode.arity.symm⟩

theorem isGetter (h : f.Renamed ρ inner P f') : f.isGetter = f'.isGetter := by
  obtain ⟨_, -, hcode⟩ := h.code
  rw [Closure.isGetter, Closure.isGetter, h.kind, hcode.isGetter]

end Closure.Renamed

namespace Value.Renamed

variable {v v' : Value}

theorem mono (hle : P <+: P') (h : v.Renamed ρ P v') : v.Renamed ρ P' v' := by
  cases h with
  | function hf => exact .function (hf.mono hle)
  | same hv => exact .same hv

theorem like (h : v.Renamed ρ P v') : v.Like v' := by
  cases h with
  | function hf => exact .function hf.like
  | same hv => exact .same hv

theorem ofLiteral (value : Literal) : Value.Renamed ρ P (.ofLiteral value) (.ofLiteral value) := by
  cases value <;> exact .same rfl

end Value.Renamed

/-! ## Heaps -/

/-- A frame of both heaps, and what the plan says of it. -/
structure Frame.Renamed (ρ : Renaming) (P : Plan) (e : Option FrameId × Bool) (f f' : Frame) :
    Prop where
  enclosing : f.enclosing = e.1
  enclosing' : f'.enclosing = e.1
  bindings : ∀ {name name' : String}, ρ.Names e.2 name name' →
    Option.Rel (Value.Renamed ρ P) (f.bindings.find? name) (f'.bindings.find? name')

theorem Frame.Renamed.mono (hle : P <+: P') {e : Option FrameId × Bool} {f f' : Frame}
    (h : f.Renamed ρ P e f') : f.Renamed ρ P' e f' :=
  { h with bindings := fun hn => rel_imp (h.bindings hn) fun _ _ => Value.Renamed.mono hle }

structure Heap.Renamed (ρ : Renaming) (P : Plan) (h h' : Heap) : Prop
    extends h.Related (Value.Renamed ρ P) (Closure.Renamed ρ [false] P) h' where
  /-- The names are ones that programs may choose. -/
  plain : Name.Plain ρ.name ∧ Name.Plain ρ.fresh
  size : h.frames.size = P.length
  size' : h'.frames.size = P.length
  frames : ∀ (i : Nat) e, P[i]? = some e →
    ∃ f f' : Frame, h.frames[i]? = some f ∧ h'.frames[i]? = some f' ∧ f.Renamed ρ P e f'
  globals : ∃ outer, P[Heap.globals.index]? = some (outer, false)

/-- Related things have been made, in heaps that still belong to the plan. -/
def Heap.MadeIn {α : Type} (ρ : Renaming) (P : Plan) (R : α → α → Prop) (made made' : α × Heap) :
    Prop :=
  R made.1 made'.1 ∧ made.2.Renamed ρ P made'.2

/-- The same in heaps that belong to a plan grown out of the old one. -/
def Heap.Grown {α : Type} (ρ : Renaming) (P : Plan) (R : Plan → α → α → Prop)
    (made made' : α × Heap) : Prop :=
  ∃ P' : Plan, P <+: P' ∧ MadeIn ρ P' (R P') made made'

namespace Heap.Renamed

variable {h h' : Heap}

/-- Names that programs cannot choose are never renamed. -/
theorem names_keyword (hh : h.Renamed ρ P h') {name : String} (hn : ¬Name.Plain name) (own : Bool) :
    ρ.Names own name name where
  eq := by
    refine (Renaming.rename_of_ne ?_).symm
    rintro rfl
    exact hn hh.plain.1
  ne_fresh _ := by
    rintro rfl
    exact hn hh.plain.2

theorem related_mono (hh : h.Renamed ρ P h') (hle : P <+: P') :
    h.Related (Value.Renamed ρ P') (Closure.Renamed ρ [false] P') h' :=
  hh.toRelated.imp (fun _ _ => Value.Renamed.mono hle) fun _ _ => Closure.Renamed.mono hle

/-- Whatever is made beside frames. -/
theorem with_related {g g' : Heap} (hh : h.Renamed ρ P h')
    (hg : g.Related (Value.Renamed ρ P) (Closure.Renamed ρ [false] P) g')
    (hframes : g.frames = h.frames) (hframes' : g'.frames = h'.frames) : g.Renamed ρ P g' :=
  { hg with
    plain := hh.plain
    size := hframes ▸ hh.size
    size' := hframes' ▸ hh.size'
    frames := hframes ▸ hframes' ▸ hh.frames
    globals := hh.globals }

/-! ## Making things -/

/-- A frame of a scope of which it is known whether the local belongs to it. -/
theorem newFrame (hh : h.Renamed ρ P h') (enclosing : FrameId) (own : Bool)
    {bindings bindings' : Table Value}
    (hb : Table.Renamed ρ own (Value.Renamed ρ P) bindings bindings') :
    Grown ρ P (fun P' f f' => f = f' ∧ P'[f.index]? = some (some enclosing, own))
      (h.newFrame enclosing bindings) (h'.newFrame enclosing bindings') := by
  have hle : P <+: P ++ [(some enclosing, own)] := List.prefix_append _ _
  refine ⟨P ++ [(some enclosing, own)], hle, ⟨?_, ?_⟩, ?_⟩
  · exact congrArg FrameId.mk (hh.size.trans hh.size'.symm)
  · show (P ++ [(some enclosing, own)])[h.frames.size]? = _
    rw [hh.size, List.getElem?_concat_length]
  · refine { hh.related_mono hle with
      plain := hh.plain
      size := ?_
      size' := ?_
      frames := fun i e he => ?_
      globals := hh.globals.imp fun _ => Plan.getElem?_mono hle }
    · show (h.frames.push _).size = _
      rw [Array.size_push, hh.size, List.length_append, List.length_singleton]
    · show (h'.frames.push _).size = _
      rw [Array.size_push, hh.size', List.length_append, List.length_singleton]
    · show ∃ f f' : Frame, (h.frames.push _)[i]? = some f ∧ (h'.frames.push _)[i]? = some f' ∧ _
      rw [Array.getElem?_push, Array.getElem?_push, hh.size, hh.size']
      by_cases hi : i = P.length
      · rw [hi, List.getElem?_concat_length] at he
        cases he
        rw [if_pos hi, if_pos hi]
        exact ⟨_, _, rfl, rfl, rfl, rfl,
          fun hn => rel_imp (hb.find? hn) fun _ _ => Value.Renamed.mono hle⟩
      · have hlt := (List.getElem?_eq_some_iff.1 he).1
        rw [List.length_append, List.length_singleton] at hlt
        rw [List.getElem?_append_left (by omega)] at he
        obtain ⟨f, f', hf, hf', hrenamed⟩ := hh.frames i e he
        rw [if_neg hi, if_neg hi]
        exact ⟨f, f', hf, hf', hrenamed.mono hle⟩

/-- A function of a program that runs, made where its scopes are open. -/
theorem newClosure (hh : h.Renamed ρ P h') {frame : FrameId} (inner : List Bool) {Γ : List Bool}
    (hreaches : P.Reaches Γ frame) {f f' : Function}
    (hf : Function.Translated ρ (inner ++ Γ) f f') (kind : FunctionKind) :
    MadeIn ρ P (Closure.Renamed ρ inner P) (h.newClosure f frame kind)
      (h'.newClosure f' frame kind) :=
  ⟨⟨hh.closures, rfl, rfl, Γ, hreaches, hf⟩,
    hh.with_related { hh.toRelated with closures := congrArg (· + 1) hh.closures } rfl rfl⟩

theorem newClosures (hh : h.Renamed ρ P h') {frame : FrameId} {inner Γ : List Bool}
    (hreaches : P.Reaches Γ frame) {kind : Function → FunctionKind}
    (hkind : ∀ f f' : Function, f.name = f'.name → kind f = kind f') {fs fs' : List Function}
    (hfs : List.Forall₂ (Function.Translated ρ (inner ++ Γ)) fs fs') :
    MadeIn ρ P (Table.Alike (Closure.Renamed ρ inner P)) (h.newClosures frame kind fs)
      (h'.newClosures frame kind fs') := by
  have hstart : MadeIn ρ P (Table.Alike (Closure.Renamed ρ inner P)) (∅, h) (∅, h') := ⟨.empty, hh⟩
  refine List.rel_foldl ?_ hstart hfs
  rintro ⟨t, h⟩ ⟨t', h'⟩ ⟨ht, hh⟩ f f' hf
  obtain ⟨hc, hh⟩ := hh.newClosure inner hreaches hf (kind f)
  dsimp only
  rw [← hkind f f' hf.name.symm, hf.name]
  exact ⟨ht.insert _ hc, hh⟩

/-- A method bound to its instance, in the scope of `this`. -/
theorem bind (hh : h.Renamed ρ P h') {f f' : Closure} (hf : f.Renamed ρ [false] P f')
    {v v' : Value} (hv : v.Renamed ρ P v') :
    Grown ρ P (fun P' => Closure.Renamed ρ [] P') (h.bind f v) (h'.bind f' v') := by
  obtain ⟨Γ, hreaches, hcode⟩ := hf.code
  obtain ⟨P', hle, ⟨hg, he⟩, hh'⟩ := hh.newFrame f.frame false (.single (.other Name.this) hv)
  have hreaches' : P'.Reaches (false :: Γ) (h.newFrame f.frame (.ofPairs [(Name.this, v)])).1 :=
    ⟨f.frame, he, hreaches.mono hle⟩
  have hmade := hh'.newClosure [] hreaches' hcode f.kind
  rw [Heap.bind, Heap.bind, ← hf.frame, ← hf.kind]
  refine ⟨P', hle, ?_⟩
  show MadeIn ρ P' _ _ ((h'.newFrame f.frame (.ofPairs [(Name.this, v')])).2.newClosure f'.function
    (h'.newFrame f.frame (.ofPairs [(Name.this, v')])).1 f.kind)
  rw [← hg]
  exact hmade

/-! ## Variables -/

theorem frame_cases (hh : h.Renamed ρ P h') (i : Nat) :
    (∃ e f f', P[i]? = some e ∧ h.frames[i]? = some f ∧ h'.frames[i]? = some f' ∧
      Frame.Renamed ρ P e f f') ∨
      P[i]? = none ∧ h.frames[i]? = none ∧ h'.frames[i]? = none := by
  cases he : P[i]? with
  | some e =>
    obtain ⟨f, f', hf, hf', hrenamed⟩ := hh.frames i e he
    exact .inl ⟨e, f, f', rfl, hf, hf', hrenamed⟩
  | none =>
    have hi := List.getElem?_eq_none_iff.1 he
    refine .inr ⟨rfl, Array.getElem?_eq_none ?_, Array.getElem?_eq_none ?_⟩
    · rw [hh.size]
      exact hi
    · rw [hh.size']
      exact hi

theorem enclosing?_eq_plan (hh : h.Renamed ρ P h') (f : FrameId) :
    h.enclosing? f = P[f.index]?.bind Prod.fst ∧ h'.enclosing? f = P[f.index]?.bind Prod.fst := by
  unfold Heap.enclosing?
  obtain ⟨e, g, g', he, hg, hg', hrenamed⟩ | ⟨he, hg, hg'⟩ := hh.frame_cases f.index
  · rw [he, hg, hg']
    exact ⟨hrenamed.enclosing, hrenamed.enclosing'⟩
  · rw [he, hg, hg']
    exact ⟨rfl, rfl⟩

theorem enclosing?_eq (hh : h.Renamed ρ P h') (f : FrameId) : h.enclosing? f = h'.enclosing? f :=
  (hh.enclosing?_eq_plan f).1.trans (hh.enclosing?_eq_plan f).2.symm

theorem ancestor?_eq (hh : h.Renamed ρ P h') (hops : Nat) (f : FrameId) :
    h.ancestor? hops f = h'.ancestor? hops f := by
  induction hops generalizing f with
  | zero => rfl
  | succ hops ih => simp only [Heap.ancestor?, hh.enclosing?_eq, ih]

/-- The frame of an open scope. -/
theorem ancestor?_of_reaches (hh : h.Renamed ρ P h') {Γ : List Bool} {f : FrameId}
    (hreaches : P.Reaches Γ f) {hops : Nat} {own : Bool} (hown : Γ[hops]? = some own) :
    ∃ g outer, h.ancestor? hops f = some g ∧ P[g.index]? = some (some outer, own) := by
  induction Γ generalizing f hops with
  | nil => cases hown
  | cons own' Γ ih =>
    obtain ⟨outer, he, hrest⟩ := hreaches
    cases hops with
    | zero =>
      cases hown
      exact ⟨f, outer, rfl, he⟩
    | succ hops =>
      have henclosing := (hh.enclosing?_eq_plan f).1
      rw [he] at henclosing
      rw [Heap.ancestor?, henclosing]
      exact ih hrest hown

/-- The frame that is run in is there. -/
theorem index_lt (hh : h.Renamed ρ P h') {Γ : List Bool} {f : FrameId} (hreaches : P.Reaches Γ f) :
    f.index < h.frames.size := by
  rw [hh.size]
  cases Γ with
  | nil =>
    obtain rfl : f = Heap.globals := hreaches
    obtain ⟨_, hglobals⟩ := hh.globals
    exact (List.getElem?_eq_some_iff.1 hglobals).1
  | cons own Γ =>
    obtain ⟨outer, he, -⟩ := hreaches
    exact (List.getElem?_eq_some_iff.1 he).1

theorem getIn? (hh : h.Renamed ρ P h') {f : FrameId} {name name' : String}
    (hn : ∀ e, P[f.index]? = some e → ρ.Names e.2 name name') :
    Option.Rel (Value.Renamed ρ P) (h.getIn? f name) (h'.getIn? f name') := by
  unfold Heap.getIn?
  obtain ⟨e, g, g', he, hg, hg', hrenamed⟩ | ⟨-, hg, hg'⟩ := hh.frame_cases f.index
  · rw [hg, hg']
    exact hrenamed.bindings (hn e he)
  · rw [hg, hg']
    exact .none

/-- A name that a use is linked to. -/
theorem getAt? (hh : h.Renamed ρ P h') {f : FrameId} {hops : Nat} {name name' : String}
    (hn : ∀ g e, h.ancestor? hops f = some g → P[g.index]? = some e → ρ.Names e.2 name name') :
    Option.Rel (Value.Renamed ρ P) (h.getAt? hops f name) (h'.getAt? hops f name') := by
  unfold Heap.getAt?
  rw [← hh.ancestor?_eq]
  cases hg : h.ancestor? hops f with
  | none => exact .none
  | some g => exact hh.getIn? fun e => hn g e hg

theorem define (hh : h.Renamed ρ P h') {f : FrameId} {name name' : String}
    (hn : ∀ e, P[f.index]? = some e → ρ.Names e.2 name name') {v v' : Value}
    (hv : v.Renamed ρ P v') : (h.define f name v).Renamed ρ P (h'.define f name' v') := by
  refine { hh with
    size := ?_
    size' := ?_
    frames := fun i e he => ?_ }
  · show (h.frames.modify _ _).size = _
    rw [Array.size_modify, hh.size]
  · show (h'.frames.modify _ _).size = _
    rw [Array.size_modify, hh.size']
  · obtain ⟨g, g', hg, hg', hrenamed⟩ := hh.frames i e he
    show ∃ g g' : Frame, (h.frames.modify _ _)[i]? = some g ∧ (h'.frames.modify _ _)[i]? = some g' ∧ _
    rw [Array.getElem?_modify, Array.getElem?_modify, hg, hg']
    by_cases hi : f.index = i
    · subst hi
      rw [if_pos rfl, if_pos rfl]
      refine ⟨_, _, rfl, rfl, hrenamed.enclosing, hrenamed.enclosing', fun {x x'} hx => ?_⟩
      rw [Table.find?_insert, Table.find?_insert]
      have hiff := (hn e he).eq_iff hx
      by_cases hname : name = x
      · rw [if_pos hname, if_pos (hiff.1 hname)]
        exact .some hv
      · rw [if_neg hname, if_neg (mt hiff.2 hname)]
        exact hrenamed.bindings hx
    · rw [if_neg hi, if_neg hi]
      exact ⟨g, g', rfl, rfl, hrenamed⟩

theorem assignAt (hh : h.Renamed ρ P h') {f : FrameId} {hops : Nat} {name name' : String}
    (hn : ∀ g e, h.ancestor? hops f = some g → P[g.index]? = some e → ρ.Names e.2 name name')
    {v v' : Value} (hv : v.Renamed ρ P v') :
    MadeIn ρ P Eq (h.assignAt hops f name v) (h'.assignAt hops f name' v') := by
  unfold Heap.assignAt Heap.ownerAt?
  rw [← hh.ancestor?_eq]
  cases hg : h.ancestor? hops f with
  | none => exact ⟨rfl, hh⟩
  | some g =>
    have hg := fun e => hn g e hg
    dsimp only
    rw [← rel_isSome (hh.getIn? hg)]
    by_cases hb : (h.getIn? g name).isSome
    · rw [if_pos hb]
      exact ⟨rfl, hh.define hg hv⟩
    · rw [if_neg hb]
      exact ⟨rfl, hh⟩

/-! ## Globals -/

/-- Globals keep their names. -/
theorem names_globals (hh : h.Renamed ρ P h') (name : String) :
    ∀ e, P[Heap.globals.index]? = some e → ρ.Names e.2 name name := by
  obtain ⟨_, hglobals⟩ := hh.globals
  rw [hglobals]
  rintro _ ⟨⟩
  exact .other name

theorem get?_globals (hh : h.Renamed ρ P h') (name : String) :
    Option.Rel (Value.Renamed ρ P) (h.get? Heap.globals name) (h'.get? Heap.globals name) := by
  rw [Heap.get?_globals, Heap.get?_globals]
  exact hh.getIn? (hh.names_globals name)

theorem assign_globals (hh : h.Renamed ρ P h') (name : String) {v v' : Value}
    (hv : v.Renamed ρ P v') :
    MadeIn ρ P Eq (h.assign Heap.globals name v) (h'.assign Heap.globals name v') := by
  rw [Heap.assign_globals, Heap.assign_globals, rel_isSome (hh.getIn? (hh.names_globals name))]
  split
  · exact ⟨rfl, hh.define (hh.names_globals name) hv⟩
  · exact ⟨rfl, hh⟩

/-! ## What values look like -/

theorem text (hh : h.Renamed ρ P h') {v v' : Value} (hv : v.Renamed ρ P v') :
    h.text v = h'.text v' := hh.toRelated.text (fun _ _ => Value.Renamed.like) hv

theorem arity?_eq (hh : h.Renamed ρ P h') {v v' : Value} (hv : v.Renamed ρ P v') :
    h.arity? v = h'.arity? v' :=
  hh.toRelated.arity?_eq (fun _ _ => Value.Renamed.like) (fun _ _ => Closure.Renamed.like) hv

end Heap.Renamed

end Lox

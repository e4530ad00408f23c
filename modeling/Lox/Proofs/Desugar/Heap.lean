import Lox.Proofs.Alike.Related
import Lox.Proofs.Desugar.Code

/-!
# Heaps of desugared programs

Running a program and its desugaring side by side, the heaps hold the same things, but the
desugared program has frames besides, one for each turn of what was a `for`, and there is never
anything in them.  Of each of its frames a tie says which one of the other run it stands for.  Ties
grow with the heaps, and what they say once they say for good:

    P <+: P' → Value.Desugared K P v v' → Value.Desugared K P' v v'         (Value.Desugared.mono)
    h.Desugared K P h' → P.Reaches Γ f f' → Hops Γ k k' →
      Option.Rel (Value.Desugared K P) (h.getAt? k f name) (h'.getAt? k' f' name)
                                                                           (Heap.Desugared.getAt?)
-/

namespace Lox

/-! ## Ties -/

/-- What a frame of the desugared program stands for. -/
inductive Tie
  /-- The frame `frame`, around which is `around`; around the one itself is `around'`. -/
  | shared (frame : FrameId) (around around' : Option FrameId)
  /-- Nothing, being that of a turn, around which is `around'`. -/
  | extra (around' : FrameId)

/-- What is known of the frames of the desugared program, in their order. -/
abbrev Ties := List Tie

namespace Ties

/-- The frame `f'` stands for `f`. -/
def Joins (P : Ties) (f f' : FrameId) : Prop :=
  ∃ around around', P[f'.index]? = some (.shared f around around')

/-- From `f` and `f'` outward the frames are those of scopes with these flags, and then those of the
globals. -/
def Reaches (P : Ties) : List Bool → FrameId → FrameId → Prop
  | [], f, f' => f = Heap.globals ∧ f' = Heap.globals
  | true :: Γ, f, f' =>
    ∃ g g', P[f'.index]? = some (.shared f (some g) (some g')) ∧ Reaches P Γ g g'
  | false :: Γ, f, f' => ∃ g', P[f'.index]? = some (.extra g') ∧ Reaches P Γ f g'

variable {P P' : Ties} {Γ : List Bool} {f f' : FrameId}

theorem getElem?_mono (hle : P <+: P') {i : Nat} {tie : Tie} (h : P[i]? = some tie) :
    P'[i]? = some tie := by
  obtain ⟨rest, rfl⟩ := hle
  rw [List.getElem?_append_left (List.getElem?_eq_some_iff.1 h).1, h]

theorem Joins.mono (hle : P <+: P') (h : P.Joins f f') : P'.Joins f f' :=
  h.imp fun _ => Exists.imp fun _ => getElem?_mono hle

theorem Reaches.mono (hle : P <+: P') (h : P.Reaches Γ f f') : P'.Reaches Γ f f' := by
  induction Γ generalizing f f' with
  | nil => exact h
  | cons flag Γ ih =>
    cases flag with
    | true =>
      obtain ⟨g, g', htie, hrest⟩ := h
      exact ⟨g, g', getElem?_mono hle htie, ih hrest⟩
    | false =>
      obtain ⟨g', htie, hrest⟩ := h
      exact ⟨g', getElem?_mono hle htie, ih hrest⟩

theorem getElem?_concat {tie new : Tie} {i : Nat} (h : (P ++ [new])[i]? = some tie) :
    i = P.length ∧ tie = new ∨ P[i]? = some tie := by
  rcases Nat.lt_trichotomy i P.length with hi | rfl | hi
  · rw [List.getElem?_append_left hi] at h
    exact .inr h
  · rw [List.getElem?_concat_length] at h
    exact .inl ⟨rfl, (Option.some.inj h).symm⟩
  · rw [List.getElem?_eq_none (by simpa using hi)] at h
    cases h

end Ties

/-! ## Values -/

/-- A function and its desugaring.  Of a method that is still to be bound the scope of `this` is yet
to be opened: `inner` has the flags of such scopes. -/
structure Closure.Desugared (K : Known) (inner : List Bool) (P : Ties) (f f' : Closure) :
    Prop where
  identity : f.identity = f'.identity
  kind : f.kind = f'.kind
  code : ∃ Γ, P.Reaches Γ f.frame f'.frame ∧
    Function.Desugared K (inner ++ Γ) f.function f'.function ∧
    -- what an initializer gives is in its frame
    (f.kind = .initializer → (inner ++ Γ).head? ≠ some false)

/-- A function and its desugaring, or one value that is no function. -/
inductive Value.Desugared (K : Known) (P : Ties) : Value → Value → Prop
  | function {f f' : Closure} :
      f.Desugared K [] P f' → Value.Desugared K P (.function f) (.function f')
  | same {v : Value} : v.isFunction = false → Value.Desugared K P v v

variable {K : Known} {P P' : Ties} {Γ : List Bool}

namespace Closure.Desugared

variable {inner : List Bool} {f f' : Closure}

theorem mono (hle : P <+: P') (h : f.Desugared K inner P f') : f.Desugared K inner P' f' :=
  { h with code := h.code.imp fun _ ⟨hreaches, hcode⟩ => ⟨hreaches.mono hle, hcode⟩ }

theorem like (h : f.Desugared K inner P f') : f.Like f' := by
  obtain ⟨_, -, hcode, -⟩ := h.code
  exact ⟨h.identity, congrArg Identifier.name hcode.name.symm, hcode.arity.symm⟩

theorem isGetter (h : f.Desugared K inner P f') : f.isGetter = f'.isGetter := by
  obtain ⟨_, -, hcode, -⟩ := h.code
  rw [Closure.isGetter, Closure.isGetter, h.kind, hcode.isGetter]

end Closure.Desugared

namespace Value.Desugared

variable {v v' : Value}

theorem mono (hle : P <+: P') (h : v.Desugared K P v') : v.Desugared K P' v' := by
  cases h with
  | function hf => exact .function (hf.mono hle)
  | same hv => exact .same hv

theorem like (h : v.Desugared K P v') : v.Like v' := by
  cases h with
  | function hf => exact .function hf.like
  | same hv => exact .same hv

theorem ofLiteral (value : Literal) :
    Value.Desugared K P (.ofLiteral value) (.ofLiteral value) := by
  cases value <;> exact .same rfl

end Value.Desugared

/-! ## Heaps -/

/-- Frames with the same variables. -/
def Frame.Desugared (K : Known) (P : Ties) (f f' : Frame) : Prop :=
  ∀ name, Option.Rel (Value.Desugared K P) (f.bindings.find? name) (f'.bindings.find? name)

theorem Frame.Desugared.mono (hle : P <+: P') {f f' : Frame} (h : f.Desugared K P f') :
    f.Desugared K P' f' := fun name => rel_imp (h name) fun _ _ => Value.Desugared.mono hle

structure Heap.Desugared (K : Known) (P : Ties) (h h' : Heap) : Prop
    extends h.Related (Value.Desugared K P) (Closure.Desugared K [true] P) h' where
  size' : h'.frames.size = P.length
  shared : ∀ {i : Nat} {g : FrameId} {around around' : Option FrameId},
    P[i]? = some (.shared g around around') → ∃ f f' : Frame, h.frames[g.index]? = some f ∧
      h'.frames[i]? = some f' ∧ f.enclosing = around ∧ f'.enclosing = around' ∧
      f.Desugared K P f'
  extra : ∀ {i : Nat} {around' : FrameId}, P[i]? = some (.extra around') →
    ∃ f' : Frame, h'.frames[i]? = some f' ∧ f'.enclosing = some around'
  /-- No two frames stand for one. -/
  unique : ∀ {g g₁ g₂ : FrameId}, P.Joins g g₁ → P.Joins g g₂ → g₁ = g₂
  globals : P.Joins Heap.globals Heap.globals

/-- Related things have been made, in heaps that still belong to the ties. -/
def Heap.MadeBeside {α : Type} (K : Known) (P : Ties) (R : α → α → Prop)
    (made made' : α × Heap) : Prop :=
  R made.1 made'.1 ∧ made.2.Desugared K P made'.2

namespace Heap.Desugared

variable {h h' : Heap} {f f' : FrameId}

theorem related_mono (hh : h.Desugared K P h') (hle : P <+: P') :
    h.Related (Value.Desugared K P') (Closure.Desugared K [true] P') h' :=
  hh.toRelated.imp (fun _ _ => Value.Desugared.mono hle) fun _ _ => Closure.Desugared.mono hle

/-- Whatever is made beside frames. -/
theorem with_related {g g' : Heap} (hh : h.Desugared K P h')
    (hg : g.Related (Value.Desugared K P) (Closure.Desugared K [true] P) g')
    (hframes : g.frames = h.frames) (hframes' : g'.frames = h'.frames) : g.Desugared K P g' :=
  { hg with
    size' := hframes' ▸ hh.size'
    shared := hframes ▸ hframes' ▸ hh.shared
    extra := hframes' ▸ hh.extra
    unique := hh.unique
    globals := hh.globals }

/-! ## Making things -/

theorem joins_lt (hh : h.Desugared K P h') (hj : P.Joins f f') : f.index < h.frames.size := by
  obtain ⟨_, _, htie⟩ := hj
  obtain ⟨g, _, hg, -⟩ := hh.shared htie
  exact (Array.getElem?_eq_some_iff.1 hg).1

/-- The old frames stay where they are. -/
theorem getElem?_push {α : Type} {xs : Array α} {i : Nat} {x : α} (h : xs[i]? = some x) (y : α) :
    (xs.push y)[i]? = some x := by
  have hlt := (Array.getElem?_eq_some_iff.1 h).1
  rw [Array.getElem?_push, if_neg (Nat.ne_of_lt hlt), h]

/-- Frames of a scope that both sides open. -/
theorem newFrame (hh : h.Desugared K P h') (g g' : FrameId) {bindings bindings' : Table Value}
    (hb : ∀ name, Option.Rel (Value.Desugared K P) (bindings.find? name) (bindings'.find? name)) :
    ∃ P' : Ties, P <+: P' ∧
      (h.newFrame g bindings).2.Desugared K P' (h'.newFrame g' bindings').2 ∧
      P'[(h'.newFrame g' bindings').1.index]? =
        some (.shared (h.newFrame g bindings).1 (some g) (some g')) := by
  have hle : P <+: P ++ [.shared ⟨h.frames.size⟩ (some g) (some g')] := List.prefix_append _ _
  refine ⟨_, hle, ?_, ?_⟩
  case refine_2 =>
    show (P ++ [_])[h'.frames.size]? = _
    rw [hh.size', List.getElem?_concat_length]
    rfl
  refine { hh.related_mono hle with
    size' := ?_
    shared := fun {i f a a'} htie => ?_
    extra := fun {i a'} htie => ?_
    unique := fun {f f₁ f₂} h₁ h₂ => ?_
    globals := hh.globals.mono hle }
  · show (h'.frames.push _).size = _
    rw [Array.size_push, hh.size', List.length_append, List.length_singleton]
  · show ∃ fr fr' : Frame, (h.frames.push _)[f.index]? = some fr ∧
      (h'.frames.push _)[i]? = some fr' ∧ _
    obtain ⟨rfl, hnew⟩ | hold := Ties.getElem?_concat htie
    · cases hnew
      rw [← hh.size', Array.getElem?_push_size, Array.getElem?_push_size]
      exact ⟨_, _, rfl, rfl, rfl, rfl, fun name =>
        rel_imp (hb name) fun _ _ => Value.Desugared.mono hle⟩
    · obtain ⟨fr, fr', hfr, hfr', ha, ha', hsame⟩ := hh.shared hold
      exact ⟨fr, fr', getElem?_push hfr _, getElem?_push hfr' _, ha, ha', hsame.mono hle⟩
  · obtain ⟨rfl, hnew⟩ | hold := Ties.getElem?_concat htie
    · cases hnew
    · obtain ⟨fr', hfr', ha'⟩ := hh.extra hold
      exact ⟨fr', getElem?_push hfr' _, ha'⟩
  · -- no frame that is there already stands for the new one
    have hcases {f'} (hj : Ties.Joins (P ++ [.shared ⟨h.frames.size⟩ (some g) (some g')]) f f') :
        f = ⟨h.frames.size⟩ ∧ f' = ⟨P.length⟩ ∨ f.index < h.frames.size ∧ P.Joins f f' := by
      obtain ⟨a, a', htie⟩ := hj
      obtain ⟨hi, hnew⟩ | hold := Ties.getElem?_concat htie
      · cases hnew
        exact .inl ⟨rfl, congrArg FrameId.mk hi⟩
      · exact .inr ⟨hh.joins_lt ⟨a, a', hold⟩, a, a', hold⟩
    obtain ⟨rfl, rfl⟩ | ⟨hlt, h₁⟩ := hcases h₁
    · obtain ⟨-, rfl⟩ | ⟨hlt, -⟩ := hcases h₂
      · rfl
      · exact absurd hlt (Nat.lt_irrefl _)
    · obtain ⟨rfl, -⟩ | ⟨-, h₂⟩ := hcases h₂
      · exact absurd hlt (Nat.lt_irrefl _)
      · exact hh.unique h₁ h₂

/-- The frame of a turn, that the desugared program alone has. -/
theorem newTurn (hh : h.Desugared K P h') (g' : FrameId) :
    ∃ P' : Ties, P <+: P' ∧ h.Desugared K P' (h'.newFrame g' ∅).2 ∧
      P'[(h'.newFrame g' ∅).1.index]? = some (.extra g') := by
  have hle : P <+: P ++ [.extra g'] := List.prefix_append _ _
  refine ⟨P ++ [.extra g'], hle, ?_, ?_⟩
  case refine_2 =>
    show (P ++ [_])[h'.frames.size]? = _
    rw [hh.size', List.getElem?_concat_length]
  refine { hh.related_mono hle with
    size' := ?_
    shared := fun {i f a a'} htie => ?_
    extra := fun {i a'} htie => ?_
    unique := fun {f f₁ f₂} h₁ h₂ => ?_
    globals := hh.globals.mono hle }
  · show (h'.frames.push _).size = _
    rw [Array.size_push, hh.size', List.length_append, List.length_singleton]
  · obtain ⟨-, hnew⟩ | hold := Ties.getElem?_concat htie
    · cases hnew
    · obtain ⟨fr, fr', hfr, hfr', ha, ha', hsame⟩ := hh.shared hold
      exact ⟨fr, fr', hfr, getElem?_push hfr' _, ha, ha', hsame.mono hle⟩
  · show ∃ fr' : Frame, (h'.frames.push _)[i]? = some fr' ∧ _
    obtain ⟨rfl, hnew⟩ | hold := Ties.getElem?_concat htie
    · cases hnew
      rw [← hh.size', Array.getElem?_push_size]
      exact ⟨_, rfl, rfl⟩
    · obtain ⟨fr', hfr', ha'⟩ := hh.extra hold
      exact ⟨fr', getElem?_push hfr' _, ha'⟩
  · have hcases {f'} (hj : Ties.Joins (P ++ [.extra g']) f f') : P.Joins f f' := by
      obtain ⟨a, a', htie⟩ := hj
      obtain ⟨-, hnew⟩ | hold := Ties.getElem?_concat htie
      · cases hnew
      · exact ⟨a, a', hold⟩
    exact hh.unique (hcases h₁) (hcases h₂)

/-- A function, made where its scopes but for `inner` are open. -/
theorem newClosure (hh : h.Desugared K P h') (inner : List Bool) (hreaches : P.Reaches Γ f f')
    {code code' : Function} (hcode : Function.Desugared K (inner ++ Γ) code code')
    {kind : FunctionKind} (hkind : kind = .initializer → (inner ++ Γ).head? ≠ some false) :
    MadeBeside K P (Closure.Desugared K inner P) (h.newClosure code f kind)
      (h'.newClosure code' f' kind) :=
  ⟨⟨hh.closures, rfl, Γ, hreaches, hcode, hkind⟩,
    hh.with_related { hh.toRelated with closures := congrArg (· + 1) hh.closures } rfl rfl⟩

theorem newClosures (hh : h.Desugared K P h') (inner : List Bool) (hreaches : P.Reaches Γ f f')
    {kind : Function → FunctionKind}
    (hkind : ∀ g g' : Function, g.name = g'.name → kind g = kind g')
    (hinit : ∀ g, kind g = .initializer → (inner ++ Γ).head? ≠ some false)
    {fs fs' : List Function} (hfs : List.Forall₂ (Function.Desugared K (inner ++ Γ)) fs fs') :
    MadeBeside K P (Table.Alike (Closure.Desugared K inner P)) (h.newClosures f kind fs)
      (h'.newClosures f' kind fs') := by
  have hstart : MadeBeside K P (Table.Alike (Closure.Desugared K inner P)) (∅, h) (∅, h') :=
    ⟨.empty, hh⟩
  refine List.rel_foldl ?_ hstart hfs
  rintro ⟨t, h⟩ ⟨t', h'⟩ ⟨ht, hh⟩ g g' hg
  obtain ⟨hc, hh⟩ := hh.newClosure inner hreaches hg (hinit g)
  dsimp only
  rw [← hkind g g' hg.name.symm, hg.name]
  exact ⟨ht.insert _ hc, hh⟩

/-- A method bound to its instance, in the scope of `this`. -/
theorem bind (hh : h.Desugared K P h') {c c' : Closure} (hc : c.Desugared K [true] P c')
    {v v' : Value} (hv : v.Desugared K P v') :
    ∃ P' : Ties, P <+: P' ∧
      MadeBeside K P' (Closure.Desugared K [] P') (h.bind c v) (h'.bind c' v') := by
  obtain ⟨Γ, hreaches, hcode, hkind⟩ := hc.code
  have hbindings (name : String) : Option.Rel (Value.Desugared K P)
      ((Table.ofPairs [(Name.this, v)]).find? name)
      ((Table.ofPairs [(Name.this, v')]).find? name) := by
    show Option.Rel _ ((Table.insert ∅ _ _).find? name) ((Table.insert ∅ _ _).find? name)
    rw [Table.find?_insert, Table.find?_insert]
    split
    · exact .some hv
    · exact .none
  obtain ⟨P', hle, hh', htie⟩ := hh.newFrame c.frame c'.frame hbindings
  have hreaches' : P'.Reaches (true :: Γ) (h.newFrame c.frame _).1 (h'.newFrame c'.frame _).1 :=
    ⟨_, _, htie, hreaches.mono hle⟩
  have hmade := hh'.newClosure [] hreaches' hcode hkind
  rw [Heap.bind, Heap.bind, ← hc.kind]
  exact ⟨P', hle, hmade⟩

/-! ## Variables -/

theorem enclosing?_of_shared (hh : h.Desugared K P h') {around around' : Option FrameId}
    (htie : P[f'.index]? = some (.shared f around around')) :
    h.enclosing? f = around ∧ h'.enclosing? f' = around' := by
  obtain ⟨fr, fr', hfr, hfr', ha, ha', -⟩ := hh.shared htie
  unfold Heap.enclosing?
  rw [hfr, hfr']
  exact ⟨ha, ha'⟩

theorem enclosing?_of_extra (hh : h.Desugared K P h') {around' : FrameId}
    (htie : P[f'.index]? = some (.extra around')) : h'.enclosing? f' = some around' := by
  obtain ⟨fr', hfr', ha'⟩ := hh.extra htie
  unfold Heap.enclosing?
  rw [hfr']
  exact ha'

/-- The frames of scopes that belong together stand for each other. -/
theorem ancestor?_of_reaches (hh : h.Desugared K P h') (hreaches : P.Reaches Γ f f') {k k' : Nat}
    (hhops : Hops Γ k k') :
    ∃ g g', h.ancestor? k f = some g ∧ h'.ancestor? k' f' = some g' ∧ P.Joins g g' := by
  induction hhops generalizing f f' with
  | here =>
    obtain ⟨g, g', htie, -⟩ := hreaches
    exact ⟨f, f', rfl, rfl, _, _, htie⟩
  | shared _ ih =>
    obtain ⟨g, g', htie, hrest⟩ := hreaches
    obtain ⟨henclosing, henclosing'⟩ := hh.enclosing?_of_shared htie
    rw [Heap.ancestor?, Heap.ancestor?, henclosing, henclosing']
    exact ih hrest
  | @extra _ k k' _ ih =>
    obtain ⟨g', htie, hrest⟩ := hreaches
    have hout : h'.ancestor? (k' + 1) f' = h'.ancestor? k' g' := by
      rw [Heap.ancestor?, hh.enclosing?_of_extra htie]
    rw [hout]
    exact ih hrest

/-- The frames that are run in stand for each other, but in a turn. -/
theorem joins_of_reaches (hh : h.Desugared K P h') (hreaches : P.Reaches Γ f f')
    (hΓ : Γ.head? ≠ some false) : P.Joins f f' := by
  cases Γ with
  | nil =>
    obtain ⟨rfl, rfl⟩ := hreaches
    exact hh.globals
  | cons flag Γ =>
    cases flag with
    | true =>
      obtain ⟨g, g', htie, -⟩ := hreaches
      exact ⟨_, _, htie⟩
    | false => exact absurd rfl hΓ

theorem getIn? (hh : h.Desugared K P h') (hj : P.Joins f f') (name : String) :
    Option.Rel (Value.Desugared K P) (h.getIn? f name) (h'.getIn? f' name) := by
  obtain ⟨_, _, htie⟩ := hj
  obtain ⟨fr, fr', hfr, hfr', -, -, hsame⟩ := hh.shared htie
  unfold Heap.getIn?
  rw [hfr, hfr']
  exact hsame name

theorem getAt? (hh : h.Desugared K P h') (hreaches : P.Reaches Γ f f') {k k' : Nat}
    (hhops : Hops Γ k k') (name : String) :
    Option.Rel (Value.Desugared K P) (h.getAt? k f name) (h'.getAt? k' f' name) := by
  obtain ⟨g, g', hg, hg', hj⟩ := hh.ancestor?_of_reaches hreaches hhops
  unfold Heap.getAt?
  rw [hg, hg']
  exact hh.getIn? hj name

/-- A variable is defined on both sides: the frames that are joined get it in the same place. -/
theorem define (hh : h.Desugared K P h') (hj : P.Joins f f') (name : String) {v v' : Value}
    (hv : v.Desugared K P v') : (h.define f name v).Desugared K P (h'.define f' name v') := by
  refine { hh with
    size' := ?_
    shared := fun {i g a a'} htie => ?_
    extra := fun {i a'} htie => ?_ }
  · show (h'.frames.modify _ _).size = _
    rw [Array.size_modify, hh.size']
  · obtain ⟨fr, fr', hfr, hfr', ha, ha', hsame⟩ := hh.shared htie
    show ∃ fr fr' : Frame, (h.frames.modify _ _)[g.index]? = some fr ∧
      (h'.frames.modify _ _)[i]? = some fr' ∧ _
    rw [Array.getElem?_modify, Array.getElem?_modify, hfr, hfr']
    have hiff : f.index = g.index ↔ f'.index = i := by
      constructor
      · intro heq
        obtain rfl : f = g := congrArg FrameId.mk heq
        exact congrArg FrameId.index (hh.unique hj (⟨a, a', htie⟩ : P.Joins f ⟨i⟩))
      · rintro rfl
        obtain ⟨b, b', hb⟩ := hj
        cases hb.symm.trans htie
        rfl
    by_cases hi : f'.index = i
    · rw [if_pos hi, if_pos (hiff.2 hi)]
      refine ⟨_, _, rfl, rfl, ha, ha', fun x => ?_⟩
      rw [Table.find?_insert, Table.find?_insert]
      split
      · exact .some hv
      · exact hsame x
    · rw [if_neg hi, if_neg (mt hiff.1 hi)]
      exact ⟨fr, fr', rfl, rfl, ha, ha', hsame⟩
  · obtain ⟨fr', hfr', ha'⟩ := hh.extra htie
    show ∃ fr' : Frame, (h'.frames.modify _ _)[i]? = some fr' ∧ _
    rw [Array.getElem?_modify, hfr']
    split
    · exact ⟨_, rfl, ha'⟩
    · exact ⟨_, rfl, ha'⟩

/-- Overwriting a variable in frames that stand for each other, if they have it. -/
theorem overwrite (hh : h.Desugared K P h') (hj : P.Joins f f') (name : String) {v v' : Value}
    (hv : v.Desugared K P v') :
    MadeBeside K P Eq
      (if (h.getIn? f name).isSome then (true, h.define f name v) else (false, h))
      (if (h'.getIn? f' name).isSome then (true, h'.define f' name v') else (false, h')) := by
  rw [← rel_isSome (hh.getIn? hj name)]
  split
  · exact ⟨rfl, hh.define hj name hv⟩
  · exact ⟨rfl, hh⟩

theorem assignAt_of_ancestor? {h : Heap} {k : Nat} {g : FrameId} (hg : h.ancestor? k f = some g)
    (name : String) (v : Value) : h.assignAt k f name v =
      if (h.getIn? g name).isSome then (true, h.define g name v) else (false, h) := by
  unfold Heap.assignAt Heap.ownerAt?
  cases hv : h.getIn? g name <;> simp [hg, hv]

theorem assignAt (hh : h.Desugared K P h') (hreaches : P.Reaches Γ f f') {k k' : Nat}
    (hhops : Hops Γ k k') (name : String) {v v' : Value} (hv : v.Desugared K P v') :
    MadeBeside K P Eq (h.assignAt k f name v) (h'.assignAt k' f' name v') := by
  obtain ⟨g, g', hg, hg', hj⟩ := hh.ancestor?_of_reaches hreaches hhops
  rw [assignAt_of_ancestor? hg, assignAt_of_ancestor? hg']
  exact hh.overwrite hj name hv

/-! ## Globals -/

theorem get?_globals (hh : h.Desugared K P h') (name : String) :
    Option.Rel (Value.Desugared K P) (h.get? Heap.globals name) (h'.get? Heap.globals name) := by
  rw [Heap.get?_globals, Heap.get?_globals]
  exact hh.getIn? hh.globals name

theorem assign_globals (hh : h.Desugared K P h') (name : String) {v v' : Value}
    (hv : v.Desugared K P v') :
    MadeBeside K P Eq (h.assign Heap.globals name v) (h'.assign Heap.globals name v') := by
  rw [Heap.assign_globals, Heap.assign_globals]
  exact hh.overwrite hh.globals name hv

/-! ## What values look like -/

theorem text (hh : h.Desugared K P h') {v v' : Value} (hv : v.Desugared K P v') :
    h.text v = h'.text v' := hh.toRelated.text (fun _ _ => Value.Desugared.like) hv

theorem arity?_eq (hh : h.Desugared K P h') {v v' : Value} (hv : v.Desugared K P v') :
    h.arity? v = h'.arity? v' :=
  hh.toRelated.arity?_eq (fun _ _ => Value.Desugared.like) (fun _ _ => Closure.Desugared.like) hv

end Heap.Desugared

end Lox

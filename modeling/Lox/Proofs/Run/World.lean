import Lox.Proofs.Run.Heap
import Lox.Proofs.Run.Task
import Lox.Proofs.Scope.Accepted

/-!
# Frames and scopes

Where a part of a program is run, the current frame and those around it are the frames of the
scopes that are open at its place, each made when its scope was entered, and the last is that of
the globals (`Chain`).  A name that its scope has declared is in the frame, but for a variable in
the initializer of which the place lies: its declaration is under way then, until the name is there
or an error ends it (`Begun`).  Functions carry such frames with them (`Callable`).  That a machine
is sound says so of every function in its heap, and `Safe` of an evaluation that it keeps the
machine so:

    W.Safe x m Q → (∀ a m', x m = .ok a m' → W.Step m m' → Q a m'.heap → W.Safe (f a) m' R) →
      W.Safe (x >>= f) m R                                                        (Safe.bind)
-/

namespace Lox.Run

open Lexical

/-! ## Worlds -/

/-- What runs take place in. -/
structure World where
  /-- The programs that run. -/
  programs : List Stmt → Prop
  accepted : ∀ body, programs body →
    Stmt.AllWellFormed body ∧ ∃ r, Resolution.ofProgram body = .ok r
  /-- What their runs come by. -/
  visited : Config → Prop
  /-- The declarations that are under way. -/
  running : Config → Prop

namespace World

variable (W : World)

/-- The world in which a declaration is under way besides. -/
def run (c : Config) : World := { W with running := fun d => d = c ∨ W.running d }

/-- A part of a program, at its place. -/
def Part (π : Lexical.Place) (n : Node) : Prop := ∃ body, W.programs body ∧ Occurs body π n

/-- All that the run of a task comes by is what runs come by. -/
def Covers (c : Config) : Prop := ∀ stack d, Visits c stack d → W.visited d

/-- The frame `g` was made, up to the heap `h`, inside the frame `outer` when the scope of `site`
was opened. -/
def Made (h : Heap) (site : Site) (g outer : FrameId) : Prop :=
  ∃ c, W.visited c ∧ c.Makes site g outer ∧ c.machine.heap.Extends h

/-- The declaration of a variable was begun in the frame `g`, up to the heap `h`.  Unless it is
under way or has failed, the variable is there. -/
def Begun (h : Heap) (name : String) (g : FrameId) : Prop :=
  ∃ c, W.visited c ∧ c.Begins name g ∧ c.machine.heap.Extends h ∧
    (W.running c ∨ c.Fails ∨ (h.getIn? g name).isSome)

/-- The frame `g`, inside the frame `outer`, is of an activation of the open scope `o`. -/
structure Activation (h : Heap) (o : Opening) (g outer : FrameId) : Prop where
  enclosing : h.enclosing? g = some outer
  made : W.Made h o.site g outer
  ready : ∀ name ∈ o.ready, (h.getIn? g name).isSome
  pending : ∀ name ∈ o.pending, W.Begun h name g

/-- From `g` outward, the frames are those of the open scopes. -/
def Chain (h : Heap) : List Opening → FrameId → Prop
  | [], g => g = Heap.globals
  | o :: os, g => ∃ outer, W.Activation h o g outer ∧ Chain h os outer

end World

/-- What functions are to their bodies. -/
def contextOf : FunctionKind → Resolution.FunctionContext
  | .function => .function
  | .method => .method
  | .staticMethod => .staticMethod
  | .initializer => .initializer

theorem contextOf_methodKind (f : Function) : contextOf (Eval.methodKind f) = methodContext f := by
  unfold Eval.methodKind methodContext
  split <;> rfl

namespace World

variable (W : World)

/-- A function that can be called: it carries the frames of its place. -/
def Callable (h : Heap) (f : Closure) : Prop :=
  ∃ π : Lexical.Place, W.Part π (.function (contextOf f.kind) f.function) ∧ W.Chain h π.openings f.frame

/-- A method that is still to be bound: it carries the frames of the place of its class. -/
def Method (h : Heap) (f : Closure) : Prop :=
  ∃ π : Lexical.Place, W.Part (π.inReceiver f.function) (.function (contextOf f.kind) f.function) ∧
    W.Chain h π.openings f.frame

/-- A value that programs may come by. -/
def Ok (h : Heap) (v : Value) : Prop := ∀ f, v = .function f → W.Callable h f

/-- The machine knows the distances of all names, and what its heap holds is as it should be. -/
structure Sound (m : Machine) : Prop where
  knows : ∀ {π id name reads}, W.Part π (.use id name reads) →
    m.distances[id]? = π.distance? name
  heap : m.heap.Holds (W.Ok m.heap) (W.Method m.heap)
  globals : 0 < m.heap.frames.size

/-- The machine has gone on. -/
structure Step (m m' : Machine) : Prop where
  grown : m.heap.Extends m'.heap
  frame : m'.frame = m.frame
  distances : m'.distances = m.distances
  sound : W.Sound m'

/-- The evaluation keeps the machine sound, and if it ends well its value is such. -/
def Safe {α : Type} (x : Eval α) (m : Machine) (Q : α → Heap → Prop) : Prop :=
  match x m with
  | .ok a m' => W.Step m m' ∧ Q a m'.heap
  | .error _ m' => W.Step m m'

end World

namespace World

variable {W : World} {h h' : Heap}

/-! ## Later worlds and heaps -/

/-- From one world and heap to the other nothing is lost. -/
structure Later (W W' : World) (h h' : Heap) : Prop where
  programs : ∀ body, W.programs body → W'.programs body
  grown : h.Extends h'
  made : ∀ site g outer, W.Made h site g outer → W'.Made h' site g outer
  begun : ∀ name g, W.Begun h name g → W'.Begun h' name g

namespace Later

variable {W' : World} {π : Lexical.Place}

theorem of_extends (he : h.Extends h') : Later W W h h' where
  programs _ := id
  grown := he
  made := by
    rintro site g outer ⟨c, hc, hmakes, hh⟩
    exact ⟨c, hc, hmakes, hh.trans he⟩
  begun := by
    rintro name g ⟨c, hc, hbegins, hh, hend⟩
    exact ⟨c, hc, hbegins, hh.trans he, hend.imp_right (.imp_right (he.bound g name))⟩

/-- More programs, more of their runs and more declarations under way. -/
theorem of_le (hp : ∀ body, W.programs body → W'.programs body)
    (hv : ∀ c, W.visited c → W'.visited c) (hr : ∀ c, W.running c → W'.running c) :
    Later W W' h h where
  programs := hp
  grown := .refl h
  made := by
    rintro site g outer ⟨c, hc, hmakes, hh⟩
    exact ⟨c, hv c hc, hmakes, hh⟩
  begun := by
    rintro name g ⟨c, hc, hbegins, hh, hend⟩
    exact ⟨c, hv c hc, hbegins, hh, hend.imp_left (hr c)⟩

theorem run (c : Config) : Later W (W.run c) h h :=
  of_le (fun _ => id) (fun _ => id) fun _ => .inr

/-- A declaration is no longer under way when it has failed or its variable is there. -/
theorem ended {c : Config}
    (hc : c.Fails ∨ ∀ name g, c.Begins name g → (h.getIn? g name).isSome) :
    Later (W.run c) W h h where
  programs _ := id
  grown := .refl h
  made _ _ _ := id
  begun := by
    rintro name g ⟨d, hd, hbegins, hh, hend⟩
    refine ⟨d, hd, hbegins, hh, ?_⟩
    rcases hend with (rfl | hrunning) | hend
    · exact .inr (hc.imp_right fun hbound => hbound name g hbegins)
    · exact .inl hrunning
    · exact .inr hend

theorem part (hl : Later W W' h h') {n : Node} (hp : W.Part π n) : W'.Part π n := by
  obtain ⟨body, hb, ho⟩ := hp
  exact ⟨body, hl.programs body hb, ho⟩

theorem activation (hl : Later W W' h h') {o : Opening} {g outer : FrameId}
    (ha : W.Activation h o g outer) : W'.Activation h' o g outer where
  enclosing := hl.grown.enclosing _ _ ha.enclosing
  made := hl.made _ _ _ ha.made
  ready name hn := hl.grown.bound _ _ (ha.ready name hn)
  pending name hn := hl.begun _ _ (ha.pending name hn)

theorem chain (hl : Later W W' h h') {os : List Opening} {g : FrameId} (hc : W.Chain h os g) :
    W'.Chain h' os g := by
  induction os generalizing g with
  | nil => exact hc
  | cons o os ih =>
    obtain ⟨outer, ha, hrest⟩ := hc
    exact ⟨outer, hl.activation ha, ih hrest⟩

theorem callable (hl : Later W W' h h') {f : Closure} (hf : W.Callable h f) :
    W'.Callable h' f := by
  obtain ⟨π, hp, hc⟩ := hf
  exact ⟨π, hl.part hp, hl.chain hc⟩

theorem method (hl : Later W W' h h') {f : Closure} (hf : W.Method h f) : W'.Method h' f := by
  obtain ⟨π, hp, hc⟩ := hf
  exact ⟨π, hl.part hp, hl.chain hc⟩

theorem ok (hl : Later W W' h h') {v : Value} (hv : W.Ok h v) : W'.Ok h' v :=
  fun f hf => hl.callable (hv f hf)

/-- What a heap holds is still as it should be. -/
theorem holds (hl : Later W W' h h') (hh : h.Holds (W.Ok h) (W.Method h)) :
    h.Holds (W'.Ok h') (W'.Method h') :=
  hh.mono (fun _ => hl.ok) fun _ => hl.method

/-- A machine stays sound if no programs are added. -/
theorem sound {m : Machine} (hl : Later W W' m.heap m.heap) (hm : W.Sound m)
    (hp : ∀ body, W'.programs body → W.programs body) : W'.Sound m where
  knows := by
    rintro π id name reads ⟨body, hb, ho⟩
    exact hm.knows ⟨body, hp body hb, ho⟩
  heap := hl.holds hm.heap
  globals := hm.globals

end Later

theorem Chain.mono {os : List Opening} {g : FrameId} (hc : W.Chain h os g) (he : h.Extends h') :
    W.Chain h' os g := (Later.of_extends he).chain hc

theorem Ok.mono {v : Value} (hv : W.Ok h v) (he : h.Extends h') : W.Ok h' v :=
  (Later.of_extends he).ok hv

/-! ## Chains -/

theorem Chain.declare {π : Lexical.Place} {g : FrameId} (hc : W.Chain h π.openings g) {name : String}
    (hb : π.openings ≠ [] → (h.getIn? g name).isSome) :
    W.Chain h (π.declare name).openings g := by
  obtain ⟨_ | ⟨o, os⟩, context⟩ := π
  · exact hc
  obtain ⟨outer, ha, hrest⟩ := hc
  refine ⟨outer, ⟨ha.enclosing, ha.made, fun other hother => ?_, fun _ hn => by cases hn⟩, hrest⟩
  rcases List.mem_append.1 hother with hold | hnew
  · exact ha.ready other hold
  · cases List.mem_singleton.1 hnew
    exact hb (List.cons_ne_nil _ _)

theorem Chain.initializing {π : Lexical.Place} {g : FrameId} (hc : W.Chain h π.openings g) {name : String}
    (hb : W.Begun h name g) : W.Chain h (π.initializing name).openings g := by
  obtain ⟨_ | ⟨o, os⟩, context⟩ := π
  · exact hc
  obtain ⟨outer, ha, hrest⟩ := hc
  exact ⟨outer, ⟨ha.enclosing, ha.made, ha.ready, fun _ hn => by cases hn; exact hb⟩, hrest⟩

/-- The frame of a scope has been made. -/
theorem Chain.index_lt {os : List Opening} {g : FrameId} (hc : W.Chain h os g) (ho : os ≠ []) :
    g.index < h.frames.size := by
  cases os with
  | nil => exact absurd rfl ho
  | cons o os =>
    obtain ⟨outer, ha, -⟩ := hc
    have henc := ha.enclosing
    rcases Nat.lt_or_ge g.index h.frames.size with hlt | hge
    · exact hlt
    · simp [Heap.enclosing?, Array.getElem?_eq_none hge] at henc

/-- A name that is defined in the current frame is declared in the innermost scope. -/
theorem Chain.define {π : Lexical.Place} {g : FrameId} (hc : W.Chain h π.openings g) (name : String)
    (v : Value) : W.Chain (h.define g name v) (π.declare name).openings g := by
  refine (hc.mono (h.extends_define g name v)).declare fun ho => ?_
  rw [Heap.getIn?_define, if_pos ⟨rfl, rfl, hc.index_lt ho⟩]
  rfl

/-- A new frame is that of the scope for which it is made. -/
theorem Chain.newFrame {os : List Opening} {outer : FrameId} (hc : W.Chain h os outer)
    {bindings : Table Value} {site : Site} {names : List String}
    (hm : W.Made h site ⟨h.frames.size⟩ outer)
    (hb : ∀ name ∈ names, (bindings.find? name).isSome) :
    W.Chain (h.newFrame outer bindings).2 (⟨site, names, none⟩ :: os) ⟨h.frames.size⟩ := by
  have he := h.extends_newFrame outer bindings
  refine ⟨outer, ⟨?_, (Later.of_extends he).made _ _ _ hm, fun name hn => ?_, fun _ hn => by cases hn⟩, hc.mono he⟩
  · rw [Heap.enclosing?_newFrame, if_pos rfl]
  · rw [Heap.getIn?_newFrame, if_pos rfl]
    exact hb name hn

/-- The frame so many hops out is that of the scope so many scopes out. -/
theorem Chain.ancestor? {os : List Opening} {g : FrameId} (hc : W.Chain h os g) {i : Nat}
    {o : Opening} (ho : os[i]? = some o) :
    ∃ g' outer, h.ancestor? i g = some g' ∧ W.Activation h o g' outer ∧
      W.Chain h (os.drop (i + 1)) outer := by
  induction os generalizing g i with
  | nil => cases ho
  | cons o' os ih =>
    obtain ⟨outer, ha, hrest⟩ := hc
    cases i with
    | zero =>
      cases ho
      exact ⟨g, outer, rfl, ha, hrest⟩
    | succ i =>
      obtain ⟨g', outer', hg', hc'⟩ := ih hrest ho
      exact ⟨g', outer', by rw [Heap.ancestor?, ha.enclosing]; exact hg', hc'⟩

/-! ## Values -/

theorem Ok.of_ne {v : Value} (hv : ∀ f, v ≠ .function f) : W.Ok h v :=
  fun f hf => absurd hf (hv f)

theorem ok_function_iff {f : Closure} : W.Ok h (.function f) ↔ W.Callable h f :=
  ⟨fun hv => hv f rfl, fun hf _ he => by cases he; exact hf⟩

theorem ok_ofLiteral (l : Literal) : W.Ok h (.ofLiteral l) :=
  .of_ne fun f => by cases l <;> exact Value.noConfusion

theorem Covers.call {c d : Config} (hc : W.Covers c) (h : Calls c d) : W.Covers d :=
  fun _ e he => hc _ e (he.prepend h)

theorem Covers.visited {c : Config} (hc : W.Covers c) : W.visited c := hc _ _ .start

theorem Covers.made {c : Config} (hc : W.Covers c) {site : Site} {outer : FrameId}
    (ho : c.opening? = some (site, outer)) :
    W.Made c.machine.heap site ⟨c.machine.heap.frames.size⟩ outer :=
  ⟨c, hc.visited, ⟨ho, rfl⟩, .refl _⟩

theorem Part.inside {π π' : Lexical.Place} {n n' : Node} (hp : W.Part π n) (hi : Inside π n π' n') :
    W.Part π' n' := by
  obtain ⟨body, hb, ho⟩ := hp
  exact ⟨body, hb, ho.inside hi⟩

end World

end Lox.Run

import Lox.Proofs.Desugar.Machine
import Lox.Proofs.Desugar.Turn
import Lox.Proofs.Run.Sound

/-!
# Runs of desugared programs

Run side by side, a part of a program and what it is replaced by end alike.  `Runs` says where they
are run: in frames from which the frames outward are those of the scopes around their places.

    K.Runs D P F F' Γ (.stmt s) → side.Fits n n' →
      Agree K side P F F' (Signal.Desugared K) (stmt n s) (stmt n' (D.stmt s))     (AgreeAt.stmt)

A loop in a block takes more fuel than the `for` does that it replaces: one unit for each of the
block, the loop and the turn, at every depth.  Where the original run is not to be overtaken by a
lack of fuel, four times as much will do; where the desugared one is not, as much.
-/

namespace Lox

open Lexical

variable {K : Known} {D : Desugaring} {P P' : Ties} {F F' G G' : FrameId} {Γ Γ' : List Bool}

/-! ## Parts of programs -/

/-- A part of a program is run in the frame `F`, and in `F'` what it is replaced by. -/
structure Known.Runs (K : Known) (D : Desugaring) (P : Ties) (F F' : FrameId) (Γ : List Bool)
    (n : Node) : Prop where
  part : K.Part D Γ n
  reaches : P.Reaches Γ F F'

namespace Known.Runs

variable {n m : Node}

theorem mono (hle : P <+: P') (h : K.Runs D P F F' Γ n) : K.Runs D P' F F' Γ n :=
  { h with reaches := h.reaches.mono hle }

/-- A part right inside, in the same frames. -/
theorem inside (h : K.Runs D P F F' Γ n) (hn : D.isReplaced n = false)
    (hi : ∀ π, ∃ ρ, Inside π n ρ m ∧ ρ.openings.length = π.openings.length) :
    K.Runs D P F F' Γ m :=
  ⟨h.part.inside hn 0 hi, h.reaches⟩

/-- A part right inside at its very place. -/
theorem here (h : K.Runs D P F F' Γ n) (hn : D.isReplaced n = false) (hi : ∀ π, Inside π n π m) :
    K.Runs D P F F' Γ m :=
  h.inside hn fun π => ⟨π, hi π, rfl⟩

/-- A part right inside, in the frames of a scope that both sides have opened for it. -/
theorem enter (h : K.Runs D P F F' Γ n) (hn : D.isReplaced n = false)
    (hreaches : P'.Reaches (true :: Γ) G G')
    (hi : ∀ π, ∃ ρ, Inside π n ρ m ∧ ρ.openings.length = π.openings.length + 1) :
    K.Runs D P' G G' (true :: Γ) m :=
  ⟨h.part.inside hn 1 hi, hreaches⟩

theorem operand {id : ExprId} {span : Span} {node : Expr.Node} {e : Expr}
    (h : K.Runs D P F F' Γ (.expr ⟨id, span, node⟩)) (he : e ∈ node.operands) :
    K.Runs D P F F' Γ (.expr e) :=
  ⟨h.part.operand he, h.reaches⟩

theorem links {id : ExprId} {name : String} {reads : Bool}
    (h : K.Runs D P F F' Γ (.use id name reads)) : K.Links Γ id :=
  h.part.links

/-- The functions right inside a part, in so many scopes more. -/
theorem functions (h : K.Runs D P F F' Γ n) (hn : D.isReplaced n = false) (k : Nat)
    (kind : Function → Resolution.FunctionContext) {fs : List Function}
    (hi : ∀ f ∈ fs, ∀ π, ∃ ρ, Inside π n ρ (.function (kind f) f) ∧
      ρ.openings.length = π.openings.length + k) :
    List.Forall₂ (Function.Desugared K (List.replicate k true ++ Γ)) fs (D.functions fs) := by
  rw [D.functions_eq_map, List.forall₂_map_right_iff, List.forall₂_same]
  exact fun f hf => ⟨D, kind f, rfl, h.part.inside hn k (hi f hf)⟩

end Known.Runs

namespace Desugaring

open Eval

/-! ## Fuel -/

/-- So many turns on the one side are not overtaken by so many on the other. -/
def Side.Turns : Side → Nat → Nat → Prop
  | .original, n, n' => n ≤ n'
  | .desugared, n, n' => n' ≤ n
  | .neither, _, _ => False

/-- So much fuel on the one side is not overtaken by so much on the other. -/
def Side.Fits : Side → Nat → Nat → Prop
  | .original, n, n' => 4 * n ≤ n'
  | .desugared, n, n' => n' ≤ n
  | .neither, _, _ => False

namespace Side

variable {side : Side} {n n' k : Nat}

theorem Turns.pos (h : side.Turns (n + 1) n') (hs : side ≠ .desugared) : 0 < n' := by
  cases side with
  | original => exact Nat.lt_of_lt_of_le (Nat.succ_pos n) h
  | desugared => exact absurd rfl hs
  | neither => exact h.elim

theorem Turns.below (h : side.Turns (n + 1) (n' + 1)) : side.Turns n n' := by
  cases side with
  | original | desugared => exact Nat.le_of_succ_le_succ h
  | neither => exact h

/-- What is left for the parts of a part, at most three levels further in on the desugared side. -/
theorem Fits.below (h : side.Fits (n + 1) (n' + 1)) (hk : k ≤ n') (hk' : n' ≤ k + 3) :
    side.Fits n k := by
  cases side with
  | original =>
    change 4 * (n + 1) ≤ n' + 1 at h
    show 4 * n ≤ k
    omega
  | desugared =>
    change n' + 1 ≤ n + 1 at h
    show k ≤ n
    omega
  | neither => exact h

theorem Fits.pos (h : side.Fits (n + 1) n') (hk : n' ≤ k + 3) (hs : side ≠ .desugared) :
    0 < k := by
  cases side with
  | original =>
    change 4 * (n + 1) ≤ n' at h
    omega
  | desugared => exact absurd rfl hs
  | neither => exact h.elim

theorem Fits.turns (h : side.Fits n n') : side.Turns n n' := by
  cases side with
  | original => exact Nat.le_trans (Nat.le_mul_of_pos_left n (by decide)) h
  | desugared | neither => exact h

end Side

section Fuel

variable {α α' : Type} {R : Ties → α → α' → Prop} {side : Side} {n n' : Nat}

/-- Where the original run has no fuel left, the desugared one is not followed any further. -/
theorem agree_outOfFuel (x' : Nat → Eval α') (hx' : x' 0 = outOfFuel) (hl' : ∀ n', Lasts (x' n'))
    (h : side.Turns 0 n') : Agree K side P F F' R outOfFuel (x' n') := by
  intro m m' hm
  cases side with
  | original =>
    refine .original rfl ?_
    rw [hm.output]
    exact hl' n' m'
  | desugared =>
    obtain rfl := Nat.le_zero.1 h
    rw [hx']
    refine .desugared rfl ?_
    rw [← hm.output]
    exact .refl m.output
  | neither => exact h.elim

/-- Where the desugared run has no fuel left, the original one is not followed any further. -/
theorem agree_succ {x : Eval α} (x' : Nat → Eval α') (hx' : x' 0 = outOfFuel) (hl : Lasts x)
    (hpos : side ≠ .desugared → 0 < n')
    (h : ∀ k', n' = k' + 1 → Agree K side P F F' R x (x' (k' + 1))) :
    Agree K side P F F' R x (x' n') := by
  cases n' with
  | succ k' => exact h k' rfl
  | zero =>
    cases side with
    | original => exact absurd (hpos Side.noConfusion) (Nat.lt_irrefl 0)
    | neither => exact absurd (hpos Side.noConfusion) (Nat.lt_irrefl 0)
    | desugared =>
      intro m m' hm
      rw [hx']
      refine .desugared rfl ?_
      rw [← hm.output]
      exact hl m

end Fuel

variable {side : Side}

/-! ## Declarations -/

section Declarations

variable {span : Span} {name : Identifier} {superclass : Option Reference}
  {traits : List Reference} {methods statics : List Function}

/-- How many scopes a class opens around its members. -/
def aroundMembers (superclass : Option Reference) : Nat := superclass.toList.length

theorem length_inClass (π : Lexical.Place) :
    (π.inClass ⟨span, .classDecl name superclass traits methods statics⟩ name
      superclass).openings.length = π.openings.length + aroundMembers superclass := by
  cases superclass with
  | none => exact Beside.length_declare π name.name
  | some r => exact congrArg (· + 1) (Beside.length_declare π name.name)

theorem agree_traits {rs : List Reference} (hreaches : P.Reaches Γ F F')
    (hrs : ∀ r ∈ rs, K.Links Γ r.id) :
    Agree K side P F F' (fun _ => Eq) (rs.mapM traitOf) (rs.mapM traitOf) := by
  induction rs generalizing P side with
  | nil => exact .pure rfl
  | cons r rs ih =>
    rw [List.mapM_cons]
    refine (agree_traitOf hreaches (hrs r List.mem_cons_self)).bind fun P₁ t t' hle ht => ?_
    refine (ih (hreaches.mono hle) fun r hr => hrs r (List.mem_cons_of_mem _ hr)).bind
      fun P₂ ts ts' _ hts => ?_
    exact .pure (ht ▸ hts ▸ rfl)

/-- A declaration is not run right in a turn. -/
theorem agree_define_of_runs {s : Stmt} (h : K.Runs D P F F' Γ (.stmt s))
    (hs : s.isDeclaration = true) (hle : P <+: P') (name : String) {v v' : Value}
    (hv : v.Desugared K P' v') :
    Agree K side P' F F' (fun _ => Eq) (define name v) (define name v') :=
  agree_define_of_reaches (h.reaches.mono hle)
    (h.part.head_ne (by rw [Node.isBare, hs, Bool.not_true])) name hv

theorem agree_classHeader
    (h : K.Runs D P F F' Γ (.stmt ⟨span, .classDecl name superclass traits methods statics⟩)) :
    Agree K side P F F'
      (fun _ found found' => found = found' ∧ found.1.isSome = superclass.isSome)
      (classHeader name superclass traits) (classHeader name superclass traits) := by
  refine (agree_define_of_runs h rfl (List.prefix_refl P) name.name (.same rfl)).bind
    fun P₁ _ _ hle₁ _ => ?_
  have h₁ := h.mono hle₁
  have hnamed : Agree K .neither P₁ F F' (fun _ c c' => c = c' ∧ c.isSome = superclass.isSome)
      (namedSuperclass superclass) (namedSuperclass superclass) := by
    cases superclass with
    | none => exact .pure ⟨rfl, rfl⟩
    | some r =>
      have hl := (h₁.inside rfl fun π => ⟨_, .superclass, Beside.length_declare π _⟩).links
      exact (agree_superclassOf h₁.reaches hl).map fun _ c c' hc => ⟨congrArg some hc, rfl⟩
  refine hnamed.bind fun P₂ c c' hle₂ ⟨hc, hsome⟩ => ?_
  have h₂ := h₁.mono hle₂
  refine (agree_traits h₂.reaches fun r hr => ?_).bind fun P₃ ts ts' _ hts => ?_
  · exact (h₂.inside rfl fun π => ⟨_, .trait hr, Beside.length_declare π _⟩).links
  · exact .pure ⟨by rw [hc, hts], hsome⟩

theorem agree_classFrame (hreaches : P.Reaches Γ F F') {c : Option ClassId}
    (hc : c.isSome = superclass.isSome) :
    Agree K side P F F'
      (fun P' G G' => P'.Reaches (List.replicate (aroundMembers superclass) true ++ Γ) G G')
      (classFrame c) (classFrame c) := by
  refine Agree.get fun m m' hm => ?_
  rw [hm.frame, hm.frame']
  cases c with
  | none =>
    cases superclass with
    | none => exact .pure hreaches
    | some r => cases hc
  | some c =>
    cases superclass with
    | none => cases hc
    | some r =>
      have hbindings : Table.Alike (Value.Desugared K P) (.ofPairs [(Name.super, .klass c)])
          (.ofPairs [(Name.super, .klass c)]) := .ofPairs (.cons ⟨rfl, .same rfl⟩ .nil)
      exact (agree_newFrame F F' hbindings.find?).imp
        fun hle _ hG => ⟨F, F', hG, hreaches.mono hle⟩

/-- Making the members of a class and the class, the name of which is there. -/
theorem ends_classMembers
    (h : K.Runs D P F F' Γ (.stmt ⟨span, .classDecl name superclass traits methods statics⟩))
    (c : Option ClassId) (ts : List TraitId)
    (hG : P.Reaches (List.replicate (aroundMembers superclass) true ++ Γ) G G')
    {m m' : Machine} (hm : m.Desugared K P F F' m') (hb : (m.heap.getIn? F name.name).isSome) :
    Ends K side P F F' (fun _ => Eq) (classMembers name c ts methods statics G m)
      (classMembers name c ts (D.functions methods) (D.functions statics) G' m') := by
  have hmethods := h.functions rfl (aroundMembers superclass + 1) methodContext
    fun f (hf : f ∈ methods) π => ⟨_, .method hf, congrArg (· + 1) (length_inClass π)⟩
  have hstatics := h.functions rfl (aroundMembers superclass) (fun _ => .staticMethod)
    fun f (hf : f ∈ statics) π => ⟨_, .static hf, length_inClass π⟩
  refine (agree_methods hG hmethods m m' hm).bind fun P₁ ms ms' m₁ m₁' hle₁ hmake hm₁ hms => ?_
  rw [← getIn?_of_make_newClosures hmake] at hb
  refine (agree_statics (hG.mono hle₁) hstatics m₁ m₁' hm₁).bind
    fun P₂ ss ss' m₂ m₂' hle₂ hmake hm₂ hss => ?_
  rw [← getIn?_of_make_newClosures hmake] at hb
  have hmade (h h' : Heap) (hh : h.Desugared K P₂ h') : Heap.MadeBeside K P₂ Eq
      (h.newClass ⟨name.name, c, h.compose ts Trait.methods ms, h.compose ts Trait.statics ss, ∅⟩)
      (h'.newClass
        ⟨name.name, c, h'.compose ts Trait.methods ms', h'.compose ts Trait.statics ss', ∅⟩) := by
    have hms₂ := hms.imp fun _ _ => Closure.Desugared.mono hle₂
    have hss₂ := hss.imp fun _ _ hf => Value.Desugared.function hf
    refine (hh.newClass ?_).imp_right (hh.with_related · rfl rfl)
    exact ⟨rfl, rfl, hh.compose ts (fun _ _ ht => ht.methods) hms₂,
      hh.compose ts (fun _ _ ht => ht.statics) hss₂, .empty⟩
  refine (agree_makeBeside (R := fun _ => Eq) hmade m₂ m₂' hm₂).bind
    fun P₃ d d' m₃ m₃' hle₃ hmake hm₃ hd => ?_
  cases hmake
  subst hd
  have h₃ := h.mono (hle₁.trans (hle₂.trans hle₃))
  have hj := hm₃.heap.joins_of_reaches h₃.reaches (h₃.part.head_ne rfl)
  exact ends_assignNearest hj (.same rfl) hm₃ hb

theorem agree_declareClass
    (h : K.Runs D P F F' Γ (.stmt ⟨span, .classDecl name superclass traits methods statics⟩)) :
    Agree K side P F F' (fun _ => Eq) (declareClass name superclass traits methods statics)
      (declareClass name superclass traits (D.functions methods) (D.functions statics)) := by
  intro m m' hm
  have hF : m.frame.index < m.heap.frames.size := by
    rw [hm.frame]
    exact hm.heap.joins_lt (hm.heap.joins_of_reaches h.reaches (h.part.head_ne rfl))
  rw [declareClass_eq, declareClass_eq]
  refine (agree_classHeader h m m' hm).bind fun P₁ found found' m₁ m₁' hle₁ hheader hm₁ hfound => ?_
  obtain ⟨rfl, hsome⟩ := hfound
  obtain ⟨rfl, -⟩ := classHeader_eq_ok hheader
  have hreaches := h.reaches.mono hle₁
  refine (agree_classFrame hreaches hsome _ m₁' hm₁).bind fun P₂ G G' m₂ m₂' hle₂ hframe hm₂ hG => ?_
  have hb := isSome_getIn?_of_classFrame hF hframe
  rw [hm.frame] at hb
  exact ends_classMembers (h.mono (hle₁.trans hle₂)) _ _ hG hm₂ hb

theorem agree_declareTrait
    (h : K.Runs D P F F' Γ (.stmt ⟨span, .traitDecl name methods statics⟩)) :
    Agree K side P F F' (fun _ => Eq) (declareTrait name methods statics)
      (declareTrait name (D.functions methods) (D.functions statics)) := by
  have hmethods := h.functions rfl 1 methodContext
    fun f (hf : f ∈ methods) π =>
      ⟨_, .traitMethod hf, congrArg (· + 1) (Beside.length_declare π name.name)⟩
  have hstatics := h.functions rfl 0 (fun _ => .staticMethod)
    fun f (hf : f ∈ statics) π => ⟨_, .traitStatic hf, Beside.length_declare π name.name⟩
  refine Agree.get fun m m' hm => ?_
  rw [hm.frame, hm.frame']
  refine (agree_methods h.reaches hmethods).bind fun P₁ ms ms' hle₁ hms => ?_
  refine (agree_statics (h.reaches.mono hle₁) hstatics).bind fun P₂ ss ss' hle₂ hss => ?_
  refine (agree_makeBeside (R := fun _ => Eq) fun h h' hh => ?_).bind fun P₃ t t' hle₃ ht => ?_
  · refine (hh.newTrait ?_).imp_right (hh.with_related · rfl rfl)
    exact ⟨rfl, hms.imp fun _ _ => Closure.Desugared.mono hle₂, hss.imp fun _ _ hf => .function hf⟩
  subst ht
  exact agree_define_of_runs h rfl (hle₁.trans (hle₂.trans hle₃)) name.name (.same rfl)

end Declarations

/-! ## Sequences and loops -/

theorem agree_exprs {expr expr' : Expr → Eval Value} (hl : ∀ e, Lasts (expr e))
    (hl' : ∀ e, Lasts (expr' e)) {es : List Expr}
    (hexpr : ∀ e ∈ es, ∀ P', P <+: P' →
      Agree K side P' F F' (Value.Desugared K) (expr e) (expr' (D.expr e))) :
    Agree K side P F F'
      (fun P' vs vs' => vs.length = es.length ∧ List.Forall₂ (Value.Desugared K P') vs vs')
      (Eval.exprs expr es) (Eval.exprs expr' (D.exprs es)) := by
  induction es generalizing P with
  | nil => exact .pure ⟨rfl, .nil⟩
  | cons e es ih =>
    have hrest (v : Value) : Lasts (do return v :: (← Eval.exprs expr es)) :=
      closed_lasts.bind (closed_lasts.exprs hl es) fun vs => closed_lasts.pure (v :: vs)
    have hrest' (v : Value) : Lasts (do return v :: (← Eval.exprs expr' (D.exprs es))) :=
      closed_lasts.bind (closed_lasts.exprs hl' _) fun vs => closed_lasts.pure (v :: vs)
    refine (hexpr e List.mem_cons_self P (List.prefix_refl P)).seq hrest hrest'
      fun P₁ v v' hle₁ hv => ?_
    have hes := ih fun e he P' hle => hexpr e (List.mem_cons_of_mem _ he) P' (hle₁.trans hle)
    exact hes.bindPure fun P₂ vs vs' hle₂ ⟨hlength, hvs⟩ =>
      ⟨congrArg (· + 1) hlength, .cons (hv.mono hle₂) hvs⟩

/-- What comes behind a statement of a sequence. -/
def andThen (rest : Eval Signal) : Signal → Eval Signal
  | .next => rest
  | signal => return signal

theorem lasts_andThen {rest : Eval Signal} (h : Lasts rest) (signal : Signal) :
    Lasts (andThen rest signal) := by
  cases signal with
  | next => exact h
  | _ => exact closed_lasts.pure _

theorem agree_andThen {rest rest' : Eval Signal} {signal signal' : Signal}
    (hsignal : Signal.Desugared K P signal signal')
    (h : Agree K side P F F' (Signal.Desugared K) rest rest') :
    Agree K side P F F' (Signal.Desugared K) (andThen rest signal) (andThen rest' signal') := by
  cases hsignal with
  | next => exact h
  | «break» => exact .pure .break
  | «continue» => exact .pure .continue
  | «return» hv => exact .pure (.return hv)

theorem stmts_cons (stmt : Stmt → Eval Signal) (s : Stmt) (ss : List Stmt) :
    Eval.stmts stmt (s :: ss) = stmt s >>= andThen (Eval.stmts stmt ss) :=
  bind_congr fun signal => by cases signal <;> rfl

theorem agree_stmts {stmt stmt' : Stmt → Eval Signal} (hl : ∀ s, Lasts (stmt s))
    (hl' : ∀ s, Lasts (stmt' s))
    (hstmt : ∀ P s, K.Runs D P F F' Γ (.stmt s) →
      Agree K side P F F' (Signal.Desugared K) (stmt s) (stmt' (D.stmt s)))
    {ss : List Stmt} (h : K.Runs D P F F' Γ (.stmts ss)) :
    Agree K side P F F' (Signal.Desugared K) (Eval.stmts stmt ss)
      (Eval.stmts stmt' (D.stmts ss)) := by
  induction ss generalizing P with
  | nil => exact .pure .next
  | cons s ss ih =>
    have hrest := lasts_andThen (closed_lasts.stmts hl ss)
    have hrest' := lasts_andThen (closed_lasts.stmts hl' (D.stmts ss))
    rw [Desugaring.stmts, stmts_cons, stmts_cons]
    refine (hstmt P s (h.here rfl fun _ => .first)).seq hrest hrest'
      fun P₁ signal signal' hle hsignal => ?_
    exact agree_andThen hsignal
      (ih ((h.mono hle).inside rfl fun π => ⟨_, .rest, Beside.length_after π s⟩))

theorem lasts_goOn {step : Eval Unit} {rest : Eval Signal} (hstep : Lasts step)
    (hrest : Lasts rest) (signal : Signal) : Lasts (goOn step rest signal) := by
  cases signal with
  | next | «continue» => exact closed_lasts.bind hstep fun _ => hrest
  | «break» | «return» => exact closed_lasts.pure _

/-- Loops agree turn by turn.  Where one side has fewer turns left than the other, what it has
printed until then is still there at the end of the other. -/
theorem agree_loop {test test' : Eval Bool} {turn turn' : Eval Signal} {step step' : Eval Unit}
    (hltest : Lasts test) (hltest' : Lasts test') (hlturn : Lasts turn) (hlturn' : Lasts turn')
    (hlstep : Lasts step) (hlstep' : Lasts step')
    (htest : ∀ P', P <+: P' → Agree K side P' F F' (fun _ => Eq) test test')
    (hturn : ∀ P', P <+: P' → Agree K side P' F F' (Signal.Desugared K) turn turn')
    (hstep : ∀ P', P <+: P' → Agree K side P' F F' (fun _ => Eq) step step') {turns turns' : Nat}
    (h : side.Turns turns turns') :
    Agree K side P F F' (Signal.Desugared K) (loop test turn step turns)
      (loop test' turn' step' turns') := by
  have hl := closed_lasts.loop hltest hlturn hlstep
  have hl' := closed_lasts.loop hltest' hlturn' hlstep'
  induction turns generalizing P turns' with
  | zero => exact agree_outOfFuel (loop test' turn' step') rfl hl' h
  | succ turns ih =>
    refine agree_succ (loop test' turn' step') rfl (hl _) h.pos fun k' hk' => ?_
    subst hk'
    have hgoOn := lasts_goOn hlstep (hl turns)
    have hgoOn' := lasts_goOn hlstep' (hl' k')
    rw [loop_succ, loop_succ]
    refine (htest P (List.prefix_refl P)).seq
      (fun goesOn => .ite (closed_lasts.bind hlturn hgoOn) (closed_lasts.pure _))
      (fun goesOn => .ite (closed_lasts.bind hlturn' hgoOn') (closed_lasts.pure _))
      fun P₁ goesOn goesOn' hle₁ hgoesOn => ?_
    refine .ite (by rw [hgoesOn]) ?_ (.pure .next)
    refine (hturn P₁ hle₁).seq hgoOn hgoOn' fun P₂ signal signal' hle₂ hsignal => ?_
    have hnext : Agree K side P₂ F F' (Signal.Desugared K) (do step; loop test turn step turns)
        (do step'; loop test' turn' step' k') := by
      have hle := hle₁.trans hle₂
      refine (hstep P₂ hle).seq (fun _ => hl turns) (fun _ => hl' k') fun P₃ _ _ hle₃ _ => ?_
      exact ih (fun P' hle' => htest P' (hle.trans (hle₃.trans hle')))
        (fun P' hle' => hturn P' (hle.trans (hle₃.trans hle')))
        (fun P' hle' => hstep P' (hle.trans (hle₃.trans hle'))) h.below
    cases hsignal with
    | next => exact hnext
    | «continue» => exact hnext
    | «break» => exact .pure .next
    | «return» hv => exact .pure (.return hv)

/-- A turn with its step is a sequence. -/
theorem joined_eq (turn : Eval Signal) (step : Eval Unit) :
    joined turn step = turn >>= andThen (do step; return .next) :=
  bind_congr fun signal => by cases signal <;> rfl

theorem lasts_joined {turn : Eval Signal} {step : Eval Unit} (hturn : Lasts turn)
    (hstep : Lasts step) : Lasts (joined turn step) := by
  rw [joined_eq]
  exact closed_lasts.bind hturn
    (lasts_andThen (closed_lasts.bind hstep fun _ => closed_lasts.pure Signal.next))

/-! ## Calls -/

/-- What a call gives: of an initializer it is in the frame that the function has been made in. -/
theorem agree_resultOf {f f' : Closure} (hf : f.Desugared K [] P f') {signal signal' : Signal}
    (hsignal : Signal.Desugared K P signal signal') :
    Agree K side P F F' (Value.Desugared K) (resultOf f signal) (resultOf f' signal') := by
  obtain ⟨Γ, hreaches, hcode, hinit⟩ := hf.code
  unfold resultOf
  rw [← hf.kind, hcode.span]
  by_cases hkind : f.kind = .initializer
  · rw [if_pos hkind, if_pos hkind]
    refine Agree.get fun m m' hm => ?_
    have hj := hm.heap.joins_of_reaches hreaches (hinit hkind)
    have hthis : Option.Rel (Value.Desugared K P) (m.heap.getAt? 0 f.frame Name.this)
        (m'.heap.getAt? 0 f'.frame Name.this) := hm.heap.getIn? hj Name.this
    generalize m.heap.getAt? 0 f.frame Name.this = o at hthis
    generalize m'.heap.getAt? 0 f'.frame Name.this = o' at hthis
    cases hthis with
    | none => exact agree_fail _ _
    | some hv => exact .pure hv
  · rw [if_neg hkind, if_neg hkind]
    cases hsignal with
    | «return» hv => exact .pure hv
    | _ => exact .pure (.same rfl)

/-! ## Evaluation -/

/-- What replaces an expression that evaluates its operands first does so too. -/
theorem expr_eq_act (D : Desugaring) {id : ExprId} {span : Span} {node : Expr.Node}
    (h : node.isStrict = true) (n : Nat) :
    Eval.expr (n + 1) (D.expr ⟨id, span, node⟩) = Eval.exprs (Eval.expr n) (D.exprs node.operands)
      >>= Eval.act n id span (D.expr ⟨id, span, node⟩).node := by
  have hstrict : (D.expr ⟨id, span, node⟩).node.isStrict = true := by
    cases node with
    | logical | ternary => cases h
    | _ => rfl
  have heta : D.expr ⟨id, span, node⟩ = ⟨id, span, (D.expr ⟨id, span, node⟩).node⟩ := by
    cases node <;> rfl
  rw [heta, expr_of_isStrict n id span hstrict, D.operands_expr, D.exprs_eq_map]

/-- What is so of all evaluations with so much fuel on the original side. -/
structure AgreeAt (K : Known) (side : Side) (n : Nat) : Prop where
  expr : ∀ {n' D P F F' Γ e}, side.Fits n n' → K.Runs D P F F' Γ (.expr e) →
    Agree K side P F F' (Value.Desugared K) (Eval.expr n e) (Eval.expr n' (D.expr e))
  apply : ∀ {n'}, side.Fits n n' → ∀ P F F' f f' args args', Closure.Desugared K [] P f f' →
    List.Forall₂ (Value.Desugared K P) args args' →
    Agree K side P F F' (Value.Desugared K) (Eval.apply n f args) (Eval.apply n' f' args')
  stmt : ∀ {n' D P F F' Γ s}, side.Fits n n' → K.Runs D P F F' Γ (.stmt s) →
    Agree K side P F F' (Signal.Desugared K) (Eval.stmt n s) (Eval.stmt n' (D.stmt s))

namespace AgreeAt

variable {n n' : Nat}

theorem exprs (ih : AgreeAt K side n) (hn : side.Fits n n') {es : List Expr}
    (h : ∀ e ∈ es, K.Runs D P F F' Γ (.expr e)) :
    Agree K side P F F'
      (fun P' vs vs' => vs.length = es.length ∧ List.Forall₂ (Value.Desugared K P') vs vs')
      (Eval.exprs (Eval.expr n) es) (Eval.exprs (Eval.expr n') (D.exprs es)) :=
  agree_exprs (lastsAt n).expr (lastsAt n').expr fun e he _ hle => ih.expr hn ((h e he).mono hle)

theorem stmts (ih : AgreeAt K side n) (hn : side.Fits n n') {ss : List Stmt}
    (h : K.Runs D P F F' Γ (.stmts ss)) :
    Agree K side P F F' (Signal.Desugared K) (Eval.stmts (Eval.stmt n) ss)
      (Eval.stmts (Eval.stmt n') (D.stmts ss)) :=
  agree_stmts (lastsAt n).stmt (lastsAt n').stmt (fun _ _ => ih.stmt hn) h

theorem truth (ih : AgreeAt K side n) (hn : side.Fits n n') {e : Expr}
    (h : K.Runs D P F F' Γ (.expr e)) :
    Agree K side P F F' (fun _ => Eq) (do return (← Eval.expr n e).isTruthy)
      (do return (← Eval.expr n' (D.expr e)).isTruthy) :=
  (ih.expr hn h).bindPure fun _ _ _ _ hv => hv.like.isTruthy

/-- What an expression does with its operands, when these have been evaluated. -/
theorem act (ih : AgreeAt K side n) (hn : side.Fits n n') {id : ExprId} {span : Span}
    {node : Expr.Node} (hstrict : node.isStrict = true)
    (h : K.Runs D P F F' Γ (.expr ⟨id, span, node⟩)) {vs vs' : List Value}
    (hlength : vs.length = node.operands.length)
    (hvs : List.Forall₂ (Value.Desugared K P) vs vs') :
    Agree K side P F F' (Value.Desugared K) (Eval.act n id span node vs)
      (Eval.act n' id span (D.expr ⟨id, span, node⟩).node vs') := by
  cases node with
  | logical | ternary => cases hstrict
  | literal value => exact .pure (.ofLiteral value)
  | group e =>
    obtain ⟨v, rfl⟩ := List.length_eq_one_iff.1 hlength
    obtain - | ⟨hv, ⟨⟩⟩ := hvs
    exact .pure hv
  | binary op a b =>
    obtain ⟨v, w, rfl⟩ := List.length_eq_two.1 hlength
    obtain - | ⟨hv, - | ⟨hw, ⟨⟩⟩⟩ := hvs
    exact agree_binary op span hv hw
  | unary op e =>
    obtain ⟨v, rfl⟩ := List.length_eq_one_iff.1 hlength
    obtain - | ⟨hv, ⟨⟩⟩ := hvs
    exact agree_unary op span hv
  | «variable» name =>
    exact agree_lookup h.reaches (h.here rfl fun _ => .variable).links name.name name.span
  | assign name value =>
    obtain ⟨v, rfl⟩ := List.length_eq_one_iff.1 hlength
    obtain - | ⟨hv, ⟨⟩⟩ := hvs
    have hl : K.Links Γ id := (h.here rfl fun _ => .assign).links
    exact (agree_assign h.reaches hl name hv).bind fun _ _ _ hle _ => .pure (hv.mono hle)
  | call callee args =>
    obtain - | ⟨hf, hargs⟩ := hvs
    · cases hlength
    · exact agree_callValue (ih.apply hn) hf hargs span
  | get object name =>
    obtain ⟨v, rfl⟩ := List.length_eq_one_iff.1 hlength
    obtain - | ⟨hv, ⟨⟩⟩ := hvs
    exact (agree_property hv name).bind fun _ _ _ _ hv => agree_access (ih.apply hn) hv
  | set object name value =>
    obtain ⟨t, v, rfl⟩ := List.length_eq_two.1 hlength
    obtain - | ⟨ht, - | ⟨hv, ⟨⟩⟩⟩ := hvs
    exact (agree_setProperty ht name hv).bind fun _ _ _ hle _ => .pure (hv.mono hle)
  | array elements =>
    refine (agree_makeBeside (R := fun _ => Eq) fun h h' hh => ?_).bind fun P₂ a a' _ ha => ?_
    · exact (hh.newArray hvs).imp_right (hh.with_related · rfl rfl)
    subst ha
    exact .pure (.same rfl)
  | index array position =>
    obtain ⟨a, i, rfl⟩ := List.length_eq_two.1 hlength
    obtain - | ⟨ha, - | ⟨hi, ⟨⟩⟩⟩ := hvs
    exact agree_element ha hi span
  | indexSet array position value =>
    obtain ⟨a, i, v, rfl⟩ := List.length_eq_three.1 hlength
    obtain - | ⟨ha, - | ⟨hi, - | ⟨hv, ⟨⟩⟩⟩⟩ := hvs
    exact (agree_setElement ha hi hv span).bind fun _ _ _ hle _ => .pure (hv.mono hle)
  | lambda f =>
    have hf : Function.Desugared K Γ f (D.function f) :=
      ⟨D, _, rfl, (h.here rfl fun _ => .lambda).part⟩
    exact (agree_closure h.reaches hf).bind fun _ _ _ _ hf => .pure (.function hf)
  | this =>
    exact agree_lookup h.reaches (h.here rfl fun _ => .this).links Name.this span
  | super name =>
    exact (agree_superProperty h.reaches h.part.links_super name span).bind
      fun _ _ _ _ hv => agree_access (ih.apply hn) hv

theorem expr_succ (ih : AgreeAt K side n) (hn : side.Fits n n') {e : Expr}
    (h : K.Runs D P F F' Γ (.expr e)) :
    Agree K side P F F' (Value.Desugared K) (Eval.expr (n + 1) e)
      (Eval.expr (n' + 1) (D.expr e)) := by
  obtain ⟨id, span, node⟩ := e
  have operand {P' : Ties} (hle : P <+: P') {e : Expr} (he : e ∈ node.operands) :
      Agree K side P' F F' (Value.Desugared K) (Eval.expr n e) (Eval.expr n' (D.expr e)) :=
    ih.expr hn ((h.operand he).mono hle)
  have hrefl := List.prefix_refl P
  have hl := (lastsAt n).expr
  have hl' := (lastsAt n').expr
  by_cases hstrict : node.isStrict = true
  · rw [expr_of_isStrict n id span hstrict, D.expr_eq_act hstrict]
    exact (ih.exprs hn fun e he => h.operand he).seq ((lastsAt n).act closed_lasts id span node)
      ((lastsAt n').act closed_lasts id span _)
      fun P₁ vs vs' hle ⟨hlength, hvs⟩ => ih.act hn hstrict (h.mono hle) hlength hvs
  cases node with
  | logical op a b =>
    refine (operand hrefl List.mem_cons_self).seq
      (fun v => .ite (closed_lasts.pure v) (hl b))
      (fun v => .ite (closed_lasts.pure v) (hl' (D.expr b))) fun P₁ v v' hle₁ hv => ?_
    exact .ite (by rw [op.isDecidedBy_eq hv.like]) (.pure hv)
      (operand hle₁ (List.mem_of_mem_tail List.mem_cons_self))
  | ternary condition yes no =>
    refine (operand hrefl List.mem_cons_self).seq (fun v => .ite (hl yes) (hl no))
      (fun v => .ite (hl' (D.expr yes)) (hl' (D.expr no))) fun P₁ v v' hle₁ hv => ?_
    exact .ite (by rw [hv.like.isTruthy])
      (operand hle₁ (List.mem_of_mem_tail List.mem_cons_self))
      (operand hle₁ (List.mem_of_mem_tail (List.mem_of_mem_tail List.mem_cons_self)))
  | _ => exact absurd rfl hstrict

theorem apply_succ (ih : AgreeAt K side n) (hn : side.Fits n n') {f f' : Closure}
    {args args' : List Value} (hf : f.Desugared K [] P f')
    (hargs : List.Forall₂ (Value.Desugared K P) args args') :
    Agree K side P F F' (Value.Desugared K) (Eval.apply (n + 1) f args)
      (Eval.apply (n' + 1) f' args') := by
  obtain ⟨Γ, hreaches, ⟨D, context, hcode, hpart⟩, -⟩ := hf.code
  have hbindings : Table.Alike (Value.Desugared K P) (arguments f args) (arguments f' args') := by
    rw [arguments, arguments, hcode, D.params_function]
    exact .ofZip _ hargs
  rw [apply_eq_resultOf, apply_eq_resultOf, hcode, D.body_function]
  refine (agree_newFrame f.frame f'.frame hbindings.find?).bind fun P₁ G G' hle₁ hG => ?_
  have hbody : K.Runs D P₁ G G' (true :: Γ) (.stmts f.function.body) :=
    ⟨hpart.inside rfl 1 fun π => ⟨_, .body, rfl⟩, f.frame, f'.frame, hG, hreaches.mono hle₁⟩
  exact (ih.stmts hn hbody).inFrame.seq (closed_lasts.resultOf f) (closed_lasts.resultOf f')
    fun P₂ signal signal' hle₂ hsignal => agree_resultOf (hf.mono (hle₁.trans hle₂)) hsignal

/-! ### Loops that are replaced -/

section Loop

variable {span : Span} {init : Option Stmt} {condition step : Option Expr} {body : Stmt} {k : Nat}
  (hr : D.replaces span init condition step body = true)
  (h : K.Part D Γ (.stmt ⟨span, .for init condition step body⟩))
  (hreaches : P.Reaches (true :: Γ) F F')

include hr h hreaches

/-- The condition, in the scope of the first clause. -/
theorem loop_test (ih : AgreeAt K side n) (hk : side.Fits (n + 1) (k + 2)) :
    Agree K side P F F' (fun _ => Eq) (test n condition)
      (test k (some ((condition.map D.expr).getD (D.always span)))) := by
  cases condition with
  | some e => exact ih.truth (hk.below (by omega) (by omega)) ⟨h.loop_condition hr, hreaches⟩
  | none =>
    exact agree_succ (fun k => test k (some (D.always span))) rfl (closed_lasts.pure true)
      (hk.pos (by omega)) fun _ _ => .pure rfl

/-- A turn, for which the desugared program opens a scope, and the step in it. -/
theorem loop_turn (ih : AgreeAt K side n) (hk : side.Fits (n + 1) (k + 2)) :
    Agree K side P F F' (Signal.Desugared K) (joined (Eval.stmt n body) (after n step))
      (Eval.stmt k (turn (step.map D.expr) (D.stmt body))) := by
  have hafter : Lasts (do after n step; return Signal.next) :=
    closed_lasts.bind ((lastsAt n).after closed_lasts step) fun _ => closed_lasts.pure Signal.next
  have hjoined := closed_lasts.bind ((lastsAt n).stmt body) (lasts_andThen hafter)
  rw [joined_eq]
  refine agree_succ (fun k => Eval.stmt k _) rfl hjoined (hk.pos (by omega)) fun i hi => ?_
  subst hi
  refine agree_inTurn fun P₁ T hle₁ hT => ?_
  have hturn : Ties.Reaches P₁ (false :: true :: Γ) F T := ⟨F', hT, hreaches.mono hle₁⟩
  have hrest := closed_lasts.stmts (lastsAt i).stmt
  rw [stmts_cons]
  refine (ih.stmt (hk.below (by omega) (by omega)) ⟨h.loop_body hr, hturn⟩).seq
    (lasts_andThen hafter) (lasts_andThen (hrest _)) fun P₂ signal signal' hle₂ hsignal =>
      agree_andThen hsignal ?_
  cases step with
  | none => exact .pure .next
  | some e =>
    rw [Option.map_some, Option.toList_some, List.map_singleton, stmts_singleton]
    refine agree_succ (fun i => Eval.stmt i ⟨(D.expr e).span, .expression (D.expr e)⟩) rfl hafter
      (hk.pos (by omega)) fun j hj => ?_
    subst hj
    have hstep : K.Runs D P₂ F T (false :: true :: Γ) (.expr e) :=
      ⟨h.loop_step hr, hturn.mono hle₂⟩
    exact (ih.expr (hk.below (by omega) (by omega)) hstep).discard.bindPure
      fun _ _ _ _ _ => .next

theorem loop_turns (ih : AgreeAt K side n) (hk : side.Fits (n + 1) (k + 1)) :
    Agree K side P F F' (Signal.Desugared K) (turns n condition body step n)
      (Eval.stmt k (D.whileLoop span (condition.map D.expr) (step.map D.expr) (D.stmt body))) := by
  have hl := lastsAt n
  have hturns := hl.turns closed_lasts condition body step n
  refine agree_succ (fun k => Eval.stmt k _) rfl hturns (hk.pos (by omega)) fun j hj => ?_
  subst hj
  have hl' := lastsAt j
  have hcontinues := continues_eq_false_of_replaces hr
  rw [turns, loop_joined _ fun _ _ => stmt_ne_continue hcontinues]
  exact agree_loop (hl.test closed_lasts condition) (hl'.test closed_lasts (some _))
    (lasts_joined (hl.stmt body) (hl.after closed_lasts step)) (hl'.stmt _)
    (closed_lasts.pure ()) (closed_lasts.pure ())
    (fun _ hle => loop_test hr h (hreaches.mono hle) ih hk)
    (fun _ hle => loop_turn hr h (hreaches.mono hle) ih hk) (fun _ _ => .pure rfl)
    (hk.below (by omega) (by omega)).turns

end Loop

/-- The first clause is a statement of the block, and is passed. -/
theorem loop_first (ih : AgreeAt K side n) (hn : side.Fits n n') {s : Stmt}
    (hs : s.isClause = true) (h : K.Runs D P F F' Γ (.stmt s)) :
    Agree K side P F F' (fun _ _ signal' => signal' = .next) (firstClause n (some s))
      (Eval.stmt n' (D.stmt s)) := by
  have hpassed : Agree K side P F F' (fun _ _ signal' => signal' = .next) (Eval.stmt n s)
      (Eval.stmt n' (D.stmt s)) := (ih.stmt hn h).imp fun _ hrun hsignal => by
    obtain rfl := Run.World.signal_of_isClause hs hrun
    cases hsignal
    rfl
  rw [firstClause, ← id_map' (Eval.stmt n' (D.stmt s))]
  exact hpassed.map fun _ _ _ hsignal => hsignal

theorem for_replaced (ih : AgreeAt K side n) (hn : side.Fits (n + 1) (n' + 1)) {span : Span}
    {init : Option Stmt} {condition step : Option Expr} {body : Stmt}
    (hr : D.replaces span init condition step body = true)
    (h : K.Runs D P F F' Γ (.stmt ⟨span, .for init condition step body⟩)) :
    Agree K side P F F' (Signal.Desugared K)
      (Eval.stmt (n + 1) ⟨span, .for init condition step body⟩)
      (Eval.stmt (n' + 1) (D.stmt ⟨span, .for init condition step body⟩)) := by
  rw [Eval.stmt_for, stmt_for_of_replaces hr]
  refine agree_inNewFrame fun P₁ G G' hle₁ hG => ?_
  have hreaches : Ties.Reaches P₁ (true :: Γ) G G' := ⟨F, F', hG, h.reaches.mono hle₁⟩
  cases init with
  | none =>
    rw [Option.map_none, Option.toList_none, List.nil_append, stmts_singleton]
    exact loop_turns hr h.part hreaches ih hn
  | some s =>
    have hclause := ((Stmt.wellFormed_for.1 h.part.wellFormed).1 s rfl).1
    have hturns := (lastsAt n).turns closed_lasts condition body step n
    have hrest := closed_lasts.stmts (lastsAt n').stmt
    rw [Option.map_some, Option.toList_some, List.singleton_append, stmts_cons]
    refine (ih.loop_first (hn.below (Nat.le_refl n') (by omega)) hclause
      ⟨h.part.loop_init hr, hreaches⟩).seq (fun _ => hturns) (lasts_andThen (hrest _))
        fun P₂ _ signal' hle₂ hsignal => ?_
    subst hsignal
    rw [andThen, stmts_singleton]
    exact loop_turns hr h.part (hreaches.mono hle₂) ih hn

/-- With one more unit of fuel statements agree too.  A `for` that is replaced is run as a block
around a `while`, which takes fuel for as many more levels. -/
theorem stmt_succ (ih : AgreeAt K side n) (hn : side.Fits (n + 1) (n' + 1)) {s : Stmt}
    (h : K.Runs D P F F' Γ (.stmt s)) :
    Agree K side P F F' (Signal.Desugared K) (Eval.stmt (n + 1) s)
      (Eval.stmt (n' + 1) (D.stmt s)) := by
  have hn' : side.Fits n n' := hn.below (Nat.le_refl n') (by omega)
  have hl := lastsAt n
  have hl' := lastsAt n'
  by_cases hs : D.isReplaced (.stmt s) = true
  · obtain ⟨span, node⟩ := s
    cases node with
    | «for» init condition step body => exact ih.for_replaced hn hs h
    | _ => cases hs
  rw [Bool.not_eq_true] at hs
  obtain ⟨span, node⟩ := s
  cases node with
  | expression e =>
    exact (ih.expr hn' (h.here hs fun _ => .expression)).discard.bindPure
      fun _ _ _ _ _ => .next
  | print e =>
    have hprint (v : Value) : Lasts (do
        printLine ((← get).heap.text v) span
        return Signal.next) :=
      closed_lasts.read (fun _ _ _ => rfl) fun m =>
        closed_lasts.bind (lasts_printLine _ _) fun _ => closed_lasts.pure _
    refine (ih.expr hn' (h.here hs fun _ => .print)).seq hprint hprint
      fun P₁ v v' _ hv => Agree.get fun m m' hm => ?_
    rw [hm.heap.text hv]
    exact (agree_printLine _ span).bind fun _ _ _ _ _ => .pure .next
  | varDecl name init =>
    rw [stmt_varDecl]
    have hdefine (P₁ : Ties) (hle : P <+: P₁) (v v' : Value) (hv : v.Desugared K P₁ v') :
        Agree K side P₁ F F' (Signal.Desugared K) (do define name.name v; return .next)
          (do define name.name v'; return .next) :=
      (agree_define_of_runs h rfl hle name.name hv).bind fun _ _ _ _ _ => .pure .next
    cases init with
    | none => exact hdefine P (List.prefix_refl P) _ _ (.same rfl)
    | some e =>
      have hl (v : Value) : Lasts (do define name.name v; return Signal.next) :=
        closed_lasts.bind (closed_lasts.define _ _) fun _ => closed_lasts.pure _
      exact (ih.expr hn' (h.inside hs fun π => ⟨_, .initializer, List.length_modifyHead⟩)).seq hl hl
        fun P₁ v v' hle hv => hdefine P₁ hle v v' hv
  | block body =>
    refine agree_inNewFrame fun P₁ G G' hle hG => ?_
    exact ih.stmts hn' (h.enter hs ⟨F, F', hG, h.reaches.mono hle⟩ fun π => ⟨_, .block, rfl⟩)
  | ifElse condition yes no =>
    rw [Desugaring.stmt_ifElse]
    refine (ih.expr hn' (h.here hs fun _ => .ifCondition)).seq
      (fun v => .ite (hl.stmt yes) ?_) (fun v => .ite (hl'.stmt (D.stmt yes)) ?_)
      fun P₁ v v' hle hv => ?_
    · cases no with
      | none => exact closed_lasts.pure Signal.next
      | some no => exact hl.stmt no
    · cases no with
      | none => exact closed_lasts.pure Signal.next
      | some no => exact hl'.stmt (D.stmt no)
    have h₁ := h.mono hle
    refine .ite (by rw [hv.like.isTruthy]) (ih.stmt hn' (h₁.here hs fun _ => .ifYes)) ?_
    cases no with
    | none => exact .pure .next
    | some no => exact ih.stmt hn' (h₁.here hs fun _ => .ifNo)
  | «while» condition body =>
    exact agree_loop (hl.test closed_lasts (some _)) (hl'.test closed_lasts (some _)) (hl.stmt _)
      (hl'.stmt _) (closed_lasts.pure ()) (closed_lasts.pure ())
      (fun _ hle => ih.truth hn' ((h.here hs fun _ => .whileCondition).mono hle))
      (fun _ hle => ih.stmt hn' ((h.inside hs fun π => ⟨_, .whileBody, rfl⟩).mono hle))
      (fun _ _ => .pure rfl) hn'.turns
  | «for» init condition step body =>
    rw [Eval.stmt_for, stmt_for_of_not_replaces hs, Eval.stmt_for]
    refine agree_inNewFrame fun P₁ G G' hle hG => ?_
    have hreaches : Ties.Reaches P₁ (true :: Γ) G G' := ⟨F, F', hG, h.reaches.mono hle⟩
    have hlength (π : Lexical.Place) (site : Site) :
        ((π.enter site []).afterClause init).openings.length = π.openings.length + 1 :=
      Beside.length_afterClause _ init
    refine Agree.seq (R := fun _ => Eq) ?_ (fun _ => hl.turns closed_lasts _ _ _ _)
      (fun _ => hl'.turns closed_lasts _ _ _ _) fun P₂ _ _ hle₂ _ =>
        agree_loop (hl.test closed_lasts _) (hl'.test closed_lasts _) (hl.stmt _) (hl'.stmt _)
          (hl.after closed_lasts _) (hl'.after closed_lasts _) (fun P₃ hle₃ => ?_)
          (fun P₃ hle₃ => ?_) (fun P₃ hle₃ => ?_) hn'.turns
    · cases init with
      | none => exact .pure rfl
      | some s => exact (ih.stmt hn' (h.enter hs hreaches fun π => ⟨_, .forInit, rfl⟩)).discard
    · cases condition with
      | none => exact .pure rfl
      | some e =>
        exact ih.truth hn' (h.enter hs (hreaches.mono (hle₂.trans hle₃)) fun π =>
          ⟨_, .forCondition, hlength π _⟩)
    · exact ih.stmt hn' (h.enter hs (hreaches.mono (hle₂.trans hle₃)) fun π =>
        ⟨_, .forBody, hlength π _⟩)
    · cases step with
      | none => exact .pure rfl
      | some e =>
        exact (ih.expr hn' (h.enter hs (hreaches.mono (hle₂.trans hle₃)) fun π =>
          ⟨_, .forStep, hlength π _⟩)).discard
  | «break» => exact .pure .break
  | «continue» => exact .pure .continue
  | funDecl f =>
    have hf : Function.Desugared K Γ f (D.function f) :=
      ⟨D, _, rfl, (h.inside hs fun π => ⟨_, .funDecl, Beside.length_declare π _⟩).part⟩
    refine (agree_closure h.reaches hf).bind fun P₁ c c' hle hc => ?_
    rw [D.name_function]
    exact (agree_define_of_runs h rfl hle f.name.name (.function hc)).bind
      fun _ _ _ _ _ => .pure .next
  | «return» value =>
    rw [Desugaring.stmt_return]
    cases value with
    | none => exact .pure (.return (.same rfl))
    | some e =>
      exact (ih.expr hn' (h.here hs fun _ => .returnValue)).bindPure fun _ _ _ _ hv => .return hv
  | classDecl name superclass traits methods statics =>
    exact (agree_declareClass h).bind fun _ _ _ _ _ => .pure .next
  | traitDecl name methods statics =>
    exact (agree_declareTrait h).bind fun _ _ _ _ _ => .pure .next

end AgreeAt

/-- All evaluations agree, by induction on the fuel that the original parts get. -/
theorem agreeAt (K : Known) (side : Side) (n : Nat) : AgreeAt K side n := by
  induction n with
  | zero =>
    exact ⟨fun hn _ => agree_outOfFuel (fun k => Eval.expr k _) rfl
        (fun k => (lastsAt k).expr _) hn.turns,
      fun hn _ _ _ _ _ _ _ _ _ => agree_outOfFuel (fun k => Eval.apply k _ _) rfl
        (fun k => (lastsAt k).apply _ _) hn.turns,
      fun hn _ => agree_outOfFuel (fun k => Eval.stmt k _) rfl
        (fun k => (lastsAt k).stmt _) hn.turns⟩
  | succ n ih =>
    refine ⟨fun {n' D _ _ _ _ e} hn h => ?_, fun {n'} hn P F F' f f' args args' hf hargs => ?_,
      fun {n' D _ _ _ _ s} hn h => ?_⟩
    · refine agree_succ (fun k => Eval.expr k _) rfl ((lastsAt _).expr e) hn.turns.pos
        fun k hk => ?_
      subst hk
      exact ih.expr_succ (hn.below (Nat.le_refl k) (by omega)) h
    · refine agree_succ (fun k => Eval.apply k _ _) rfl ((lastsAt _).apply f args) hn.turns.pos
        fun k hk => ?_
      subst hk
      exact ih.apply_succ (hn.below (Nat.le_refl k) (by omega)) hf hargs
    · refine agree_succ (fun k => Eval.stmt k _) rfl ((lastsAt _).stmt s) hn.turns.pos
        fun k hk => ?_
      subst hk
      exact ih.stmt_succ hn h

theorem agree_program {n n' : Nat} (hn : side.Fits n n') {ss : List Stmt}
    (h : K.Runs D P F F' Γ (.stmts ss)) :
    Agree K side P F F' (fun _ => Eq) (Eval.program n ss) (Eval.program n' (D.stmts ss)) := by
  induction ss generalizing P with
  | nil => exact .pure rfl
  | cons s ss ih =>
    have hl := closed_program closed_lasts lasts_printLine
    refine ((agreeAt K side n).stmt hn (h.here rfl fun _ => .first)).discard.seq
      (fun _ => hl n ss) (fun _ => hl n' (D.stmts ss)) fun P₁ _ _ hle _ => ?_
    exact ih ((h.mono hle).inside rfl fun π => ⟨_, .rest, Beside.length_after π s⟩)

end Desugaring

end Lox

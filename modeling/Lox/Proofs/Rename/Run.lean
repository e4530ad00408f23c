import Lox.Proofs.Class.Member
import Lox.Proofs.Rename.Machine

/-!
# Runs of renamed programs

Run side by side, a part of a program and its renaming do the same.  `Runs` says where a part is run:
in a frame from which the frames outward are those of the scopes around its place.

    Runs ρ σ P F Γ (.stmt s) →
      ρ.Agree P F (Signal.Renamed ρ) (stmt fuel s) (stmt fuel (σ.stmt Γ s))       (AgreeAt.stmt)
-/

namespace Lox

open Lexical

namespace Renaming

variable {ρ σ : Renaming} {P P' : Plan} {F G : FrameId} {Γ Γ' : List Bool}

/-! ## Parts of programs -/

/-- A part of a program is run in the frame `F`; of the scopes around it `Γ` tells whether the local
belongs to them. -/
inductive Runs (ρ σ : Renaming) (P : Plan) (F : FrameId) : List Bool → Node → Prop
  | mk {body : List Stmt} {π : Lexical.Place} {n : Node} : Translates ρ σ body → Occurs body π n →
      P.Reaches (σ.flags π) F → Runs ρ σ P F (σ.flags π) n

namespace Runs

variable {n n' : Node}

theorem reaches (h : Runs ρ σ P F Γ n) : P.Reaches Γ F := by
  cases h
  assumption

theorem mono (hle : P <+: P') (h : Runs ρ σ P F Γ n) : Runs ρ σ P' F Γ n := by
  obtain ⟨htranslates, ho, hreaches⟩ := h
  exact ⟨htranslates, ho, hreaches.mono hle⟩

/-- A part right inside, in a frame that is right for it. -/
theorem enter (h : Runs ρ σ P F Γ n) (hreaches : P'.Reaches Γ' G)
    (hi : ∀ π, σ.flags π = Γ → ∃ π', Inside π n π' n' ∧ σ.flags π' = Γ') : Runs ρ σ P' G Γ' n' := by
  obtain ⟨htranslates, ho, -⟩ := h
  obtain ⟨π', hinside, rfl⟩ := hi _ rfl
  exact ⟨htranslates, ho.inside hinside, hreaches⟩

/-- A part right inside, in the same frame. -/
theorem inside (h : Runs ρ σ P F Γ n) (hi : ∀ π, ∃ π', Inside π n π' n' ∧ σ.flags π' = σ.flags π) :
    Runs ρ σ P F Γ n' :=
  h.enter h.reaches fun π hπ => (hi π).imp fun _ ⟨hinside, hflags⟩ => ⟨hinside, hflags.trans hπ⟩

/-- A part right inside at its very place. -/
theorem here (h : Runs ρ σ P F Γ n) (hi : ∀ π, Inside π n π n') : Runs ρ σ P F Γ n' :=
  h.inside fun π => ⟨π, hi π, rfl⟩

theorem operand {id : ExprId} {span : Span} {node : Expr.Node} {e : Expr}
    (h : Runs ρ σ P F Γ (.expr ⟨id, span, node⟩)) (he : e ∈ node.operands) :
    Runs ρ σ P F Γ (.expr e) := h.here fun _ => .operand he

theorem links {id : ExprId} {name : String} {reads : Bool}
    (h : Runs ρ σ P F Γ (.use id name reads)) :
    ρ.Links Γ id name (σ.rename (σ.linked Γ id) name) := by
  obtain ⟨htranslates, ho, -⟩ := h
  exact htranslates.links ho

theorem translated {kind : Resolution.FunctionContext} {f : Function}
    (h : Runs ρ σ P F Γ (.function kind f)) : Function.Translated ρ Γ f (σ.function Γ f) := by
  obtain ⟨htranslates, ho, -⟩ := h
  exact ⟨htranslates, ho⟩

/-- The functions right inside a part, at places with other scopes. -/
theorem translated_functions (h : Runs ρ σ P F Γ n) {kind : Function → Resolution.FunctionContext}
    {fs : List Function} (hi : ∀ f ∈ fs, ∀ π, σ.flags π = Γ →
      ∃ π', Inside π n π' (.function (kind f) f) ∧ σ.flags π' = Γ') :
    List.Forall₂ (Function.Translated ρ Γ') fs (σ.functions Γ' fs) := by
  rw [functions_eq_map, List.forall₂_map_right_iff, List.forall₂_same]
  intro f hf
  obtain ⟨htranslates, ho, -⟩ := h
  obtain ⟨π', hinside, rfl⟩ := hi f hf _ rfl
  exact ⟨htranslates, ho.inside hinside⟩

theorem names_declared {span : Span} {name : Identifier} {init : Option Expr}
    (h : Runs ρ σ P F Γ (.stmt ⟨span, .varDecl name init⟩)) :
    ρ.Names (Γ.headD false) name.name (σ.declared Γ name).name := by
  obtain ⟨htranslates, ho, -⟩ := h
  exact htranslates.declared ho

theorem names_other {s : Stmt} (h : Runs ρ σ P F Γ (.stmt s)) (hv : s.variables = [])
    {name : Identifier} (hn : name ∈ s.declarations) :
    ρ.Names (Γ.headD false) name.name name.name := by
  obtain ⟨htranslates, ho, -⟩ := h
  exact htranslates.other ho hv name hn

end Runs

/-- The parameters of a function and those of its translation. -/
theorem Translates.names_parameters {body : List Stmt} (h : Translates ρ σ body) {π : Lexical.Place}
    {kind : Resolution.FunctionContext} {f : Function} (ho : Occurs body π (.function kind f)) :
    List.Forall₂ (ρ.Names (σ.owns (Site.call f).locals)) (f.params.map Identifier.name)
      ((f.params.map σ.binder).map Identifier.name) := by
  rw [List.map_map, List.forall₂_map_left_iff, List.forall₂_map_right_iff, List.forall₂_same]
  exact fun p hp => h.parameter ho p hp

open Eval

/-! ## Declarations -/

section Declarations

variable {span : Span} {name : Identifier} {superclass : Option Reference}
  {traits : List Reference} {methods statics : List Function}

/-- The scopes around the members of a class. -/
def aroundMembers (superclass : Option Reference) (scopes : List Bool) : List Bool :=
  superclass.toList.map (fun _ => false) ++ scopes

theorem stmt_classDecl (scopes : List Bool) : σ.stmt scopes
    ⟨span, .classDecl name superclass traits methods statics⟩ =
      ⟨span, .classDecl name (superclass.map (σ.reference scopes)) (traits.map (σ.reference scopes))
        (σ.functions (false :: aroundMembers superclass scopes) methods)
        (σ.functions (aroundMembers superclass scopes) statics)⟩ := by
  cases superclass <;> rfl

theorem flags_inClass (π : Lexical.Place) :
    σ.flags (π.inClass ⟨span, .classDecl name superclass traits methods statics⟩ name superclass) =
      aroundMembers superclass (σ.flags π) := by
  cases superclass with
  | none => exact flags_inClass_none _ _
  | some r => exact flags_inClass_some _ _ r

theorem agree_traits {rs : List Reference} (hreaches : P.Reaches Γ F)
    (hrs : ∀ r ∈ rs, ρ.Links Γ r.id r.name.name (σ.rename (σ.linked Γ r.id) r.name.name)) :
    ρ.Agree P F (fun _ => Eq) (rs.mapM traitOf) ((rs.map (σ.reference Γ)).mapM traitOf) := by
  induction rs generalizing P with
  | nil => exact .pure rfl
  | cons r rs ih =>
    rw [List.map_cons, List.mapM_cons, List.mapM_cons]
    refine (agree_traitOf (hrs r List.mem_cons_self) hreaches).bind fun P₁ t t' hle ht => ?_
    refine (ih (hreaches.mono hle) fun r hr => hrs r (List.mem_cons_of_mem _ hr)).bind
      fun P₂ ts ts' _ hts => ?_
    exact .pure (ht ▸ hts ▸ rfl)

theorem agree_classHeader
    (h : Runs ρ σ P F Γ (.stmt ⟨span, .classDecl name superclass traits methods statics⟩)) :
    ρ.Agree P F (fun _ found found' => found = found' ∧ found.1.isSome = superclass.isSome)
      (classHeader name superclass traits)
      (classHeader name (superclass.map (σ.reference Γ)) (traits.map (σ.reference Γ))) := by
  have hname : ρ.Names (Γ.headD false) name.name name.name :=
    h.names_other rfl (List.mem_singleton_self _)
  refine (agree_define h.reaches hname (.same rfl)).bind fun P₁ _ _ hle₁ _ => ?_
  have h₁ := h.mono hle₁
  have hnamed : ρ.Agree P₁ F (fun _ c c' => c = c' ∧ c.isSome = superclass.isSome)
      (namedSuperclass superclass) (namedSuperclass (superclass.map (σ.reference Γ))) := by
    cases superclass with
    | none => exact .pure ⟨rfl, rfl⟩
    | some r =>
      have hl := (h₁.inside fun π => ⟨_, .superclass, flags_declare _⟩).links
      exact (agree_superclassOf hl h₁.reaches).map fun _ c c' hc => ⟨congrArg some hc, rfl⟩
  refine hnamed.bind fun P₂ c c' hle₂ ⟨hc, hsome⟩ => ?_
  have h₂ := h₁.mono hle₂
  refine (agree_traits h₂.reaches fun r hr => ?_).bind fun P₃ ts ts' _ hts => ?_
  · exact (h₂.inside fun π => ⟨_, .trait hr, flags_declare _⟩).links
  · exact .pure ⟨by rw [hc, hts], hsome⟩

theorem agree_classFrame (hreaches : P.Reaches Γ F) {c : Option ClassId}
    (hc : c.isSome = superclass.isSome) :
    ρ.Agree P F (fun P' G G' => G = G' ∧ P'.Reaches (aroundMembers superclass Γ) G) (classFrame c)
      (classFrame c) := by
  refine Agree.get fun m m' hm => ?_
  rw [hm.frame, hm.frame']
  cases c with
  | none =>
    cases superclass with
    | none => exact .pure ⟨rfl, hreaches⟩
    | some r => cases hc
  | some c =>
    cases superclass with
    | none => cases hc
    | some r =>
      have hbindings : Table.Renamed ρ false (Value.Renamed ρ P)
          (.ofPairs [(Name.super, .klass c)]) (.ofPairs [(Name.super, .klass c)]) :=
        .single (.other _) (.same rfl)
      intro m m' hm
      cases agree_newFrame (F := F) F false hbindings m m' hm with
      | ok hle hm hG => exact .ok hle hm ⟨hG.1, F, hG.2, hreaches.mono hle⟩

/-- Making the members of a class and the class, the name of which is there. -/
theorem ends_classMembers
    (h : Runs ρ σ P F Γ (.stmt ⟨span, .classDecl name superclass traits methods statics⟩))
    (c : Option ClassId) (ts : List TraitId) (hG : P.Reaches (aroundMembers superclass Γ) G)
    {m m' : Machine} (hm : m.Renamed ρ P F m') (hb : (m.heap.getIn? F name.name).isSome) :
    ρ.Ends P F (fun _ => Eq) (classMembers name c ts methods statics G m)
      (classMembers name c ts (σ.functions (false :: aroundMembers superclass Γ) methods)
        (σ.functions (aroundMembers superclass Γ) statics) G m') := by
  have hmethods : List.Forall₂
      (Function.Translated ρ ([false] ++ aroundMembers superclass Γ)) methods
      (σ.functions (false :: aroundMembers superclass Γ) methods) :=
    h.translated_functions fun f hf π hπ => ⟨_, .method hf, by
      rw [flags_inReceiver, flags_inClass, hπ]
      rfl⟩
  have hstatics : List.Forall₂ (Function.Translated ρ ([] ++ aroundMembers superclass Γ)) statics
      (σ.functions (aroundMembers superclass Γ) statics) :=
    h.translated_functions fun f hf π hπ => ⟨_, .static hf, by rw [flags_inClass, hπ]; rfl⟩
  refine (agree_newClosures hG methodKind_eq_of_name_eq hmethods m m' hm).bind
    fun P₁ ms ms' m₁ m₁' hle₁ hmake hm₁ hms => ?_
  rw [← getIn?_of_make_newClosures hmake] at hb
  refine (agree_newClosures (hG.mono hle₁) (fun _ _ _ => rfl) hstatics m₁ m₁' hm₁).bind
    fun P₂ ss ss' m₂ m₂' hle₂ hmake hm₂ hss => ?_
  rw [← getIn?_of_make_newClosures hmake] at hb
  have hmade (h h' : Heap) (hh : h.Renamed ρ P₂ h') : Heap.MadeIn ρ P₂ Eq
      (h.newClass ⟨name.name, c, h.compose ts Trait.methods ms, h.compose ts Trait.statics ss, ∅⟩)
      (h'.newClass
        ⟨name.name, c, h'.compose ts Trait.methods ms', h'.compose ts Trait.statics ss', ∅⟩) := by
    have hms₂ := hms.imp fun _ _ => Closure.Renamed.mono hle₂
    have hss₂ := hss.imp fun _ _ hf => Value.Renamed.function hf
    refine (hh.newClass ?_).imp_right (hh.with_related · rfl rfl)
    exact ⟨rfl, rfl, hh.compose ts (fun _ _ ht => ht.methods) hms₂,
      hh.compose ts (fun _ _ ht => ht.statics) hss₂, .empty⟩
  have hname : ρ.Names (Γ.headD false) name.name name.name :=
    h.names_other rfl (List.mem_singleton_self _)
  refine (agree_makeIn (R := fun _ => Eq) hmade m₂ m₂' hm₂).bind
    fun P₃ d d' m₃ m₃' hle₃ hmake hm₃ hd => ?_
  cases hmake
  subst hd
  have h₃ := h.mono (hle₁.trans (hle₂.trans hle₃))
  exact ends_assignNearest h₃.reaches hname (.same rfl) hm₃ hb

theorem agree_declareClass
    (h : Runs ρ σ P F Γ (.stmt ⟨span, .classDecl name superclass traits methods statics⟩)) :
    ρ.Agree P F (fun _ => Eq) (declareClass name superclass traits methods statics)
      (declareClass name (superclass.map (σ.reference Γ)) (traits.map (σ.reference Γ))
        (σ.functions (false :: aroundMembers superclass Γ) methods)
        (σ.functions (aroundMembers superclass Γ) statics)) := by
  intro m m' hm
  have hF : m.frame.index < m.heap.frames.size := by
    rw [hm.frame]
    exact hm.heap.index_lt h.reaches
  rw [declareClass_eq, declareClass_eq]
  refine (agree_classHeader h m m' hm).bind fun P₁ found found' m₁ m₁' hle₁ hheader hm₁ hfound => ?_
  obtain ⟨rfl, hsome⟩ := hfound
  obtain ⟨rfl, -⟩ := classHeader_eq_ok hheader
  have hreaches := h.reaches.mono hle₁
  refine (agree_classFrame hreaches hsome _ m₁' hm₁).bind fun P₂ G G' m₂ m₂' hle₂ hframe hm₂ hG => ?_
  obtain ⟨rfl, hG⟩ := hG
  have hb := isSome_getIn?_of_classFrame hF hframe
  rw [hm.frame] at hb
  exact ends_classMembers (h.mono (hle₁.trans hle₂)) _ _ hG hm₂ hb

theorem agree_declareTrait
    (h : Runs ρ σ P F Γ (.stmt ⟨span, .traitDecl name methods statics⟩)) :
    ρ.Agree P F (fun _ => Eq) (declareTrait name methods statics)
      (declareTrait name (σ.functions (false :: Γ) methods) (σ.functions Γ statics)) := by
  have hmethods : List.Forall₂ (Function.Translated ρ ([false] ++ Γ)) methods
      (σ.functions (false :: Γ) methods) :=
    h.translated_functions fun f hf π hπ => ⟨_, .traitMethod hf, by
      rw [flags_inReceiver, flags_inTrait, hπ]
      rfl⟩
  have hstatics : List.Forall₂ (Function.Translated ρ ([] ++ Γ)) statics
      (σ.functions Γ statics) :=
    h.translated_functions fun f hf π hπ => ⟨_, .traitStatic hf, (flags_inTrait _).trans hπ⟩
  have hname : ρ.Names (Γ.headD false) name.name name.name :=
    h.names_other rfl (List.mem_singleton_self _)
  refine Agree.get fun m m' hm => ?_
  rw [hm.frame, hm.frame']
  refine (agree_newClosures h.reaches methodKind_eq_of_name_eq hmethods).bind
    fun P₁ ms ms' hle₁ hms => ?_
  refine (agree_newClosures (h.reaches.mono hle₁) (fun _ _ _ => rfl) hstatics).bind
    fun P₂ ss ss' hle₂ hss => ?_
  refine (agree_makeIn (R := fun _ => Eq) fun h h' hh => ?_).bind fun P₃ t t' hle₃ ht => ?_
  · refine (hh.newTrait ?_).imp_right (hh.with_related · rfl rfl)
    exact ⟨rfl, hms.imp fun _ _ => Closure.Renamed.mono hle₂, hss.imp fun _ _ hf => .function hf⟩
  subst ht
  exact agree_define (h.reaches.mono (hle₁.trans (hle₂.trans hle₃))) hname (.same rfl)

end Declarations

/-! ## Sequences and loops -/

theorem agree_exprs {expr : Expr → Eval Value} {es : List Expr}
    (hexpr : ∀ e ∈ es, ∀ P', P <+: P' →
      ρ.Agree P' F (Value.Renamed ρ) (expr e) (expr (σ.expr Γ e))) :
    ρ.Agree P F (fun P' => List.Forall₂ (Value.Renamed ρ P')) (Eval.exprs expr es)
      (Eval.exprs expr (σ.exprs Γ es)) := by
  induction es generalizing P with
  | nil => exact .pure .nil
  | cons e es ih =>
    refine (hexpr e List.mem_cons_self P (List.prefix_refl P)).bind fun P₁ v v' hle₁ hv => ?_
    refine (ih fun e he P' hle => hexpr e (List.mem_cons_of_mem _ he) P' (hle₁.trans hle)).bind
      fun P₂ vs vs' hle₂ hvs => ?_
    exact .pure (.cons (hv.mono hle₂) hvs)

theorem agree_stmts {stmt : Stmt → Eval Signal} (hstmt : ∀ P s, Runs ρ σ P F Γ (.stmt s) →
      ρ.Agree P F (Signal.Renamed ρ) (stmt s) (stmt (σ.stmt Γ s)))
    {ss : List Stmt} (h : Runs ρ σ P F Γ (.stmts ss)) :
    ρ.Agree P F (Signal.Renamed ρ) (Eval.stmts stmt ss) (Eval.stmts stmt (σ.stmts Γ ss)) := by
  induction ss generalizing P with
  | nil => exact .pure .next
  | cons s ss ih =>
    refine (hstmt P s (h.here fun _ => .first)).bind fun P₁ signal signal' hle hsignal => ?_
    cases hsignal with
    | next => exact ih ((h.mono hle).inside fun π => ⟨_, .rest, flags_after s⟩)
    | «break» => exact .pure .break
    | «continue» => exact .pure .continue
    | «return» hv => exact .pure (.return hv)

theorem agree_loop {test test' : Eval Bool} {turn turn' : Eval Signal} {step step' : Eval Unit}
    (htest : ∀ P', P <+: P' → ρ.Agree P' F (fun _ => Eq) test test')
    (hturn : ∀ P', P <+: P' → ρ.Agree P' F (Signal.Renamed ρ) turn turn')
    (hstep : ∀ P', P <+: P' → ρ.Agree P' F (fun _ => Eq) step step') (turns : Nat) :
    ρ.Agree P F (Signal.Renamed ρ) (loop test turn step turns) (loop test' turn' step' turns) := by
  induction turns generalizing P with
  | zero => exact agree_outOfFuel
  | succ turns ih =>
    refine (htest P (List.prefix_refl P)).bind fun P₁ goesOn goesOn' hle₁ hgoesOn => ?_
    refine .ite (by rw [hgoesOn]) ?_ (.pure .next)
    refine (hturn P₁ hle₁).bind fun P₂ signal signal' hle₂ hsignal => ?_
    have hnext : ρ.Agree P₂ F (Signal.Renamed ρ) (do step; loop test turn step turns)
        (do step'; loop test' turn' step' turns) := by
      have hle := hle₁.trans hle₂
      refine (hstep P₂ hle).bind fun P₃ _ _ hle₃ _ => ?_
      exact ih (fun P' hle' => htest P' (hle.trans (hle₃.trans hle')))
        (fun P' hle' => hturn P' (hle.trans (hle₃.trans hle')))
        fun P' hle' => hstep P' (hle.trans (hle₃.trans hle'))
    cases hsignal with
    | next => exact hnext
    | «continue» => exact hnext
    | «break» => exact .pure .next
    | «return» hv => exact .pure (.return hv)

/-! ## Evaluation -/

/-- What is so of all evaluations with so much fuel. -/
structure AgreeAt (ρ : Renaming) (fuel : Nat) : Prop where
  expr : ∀ {σ P F Γ e}, Runs ρ σ P F Γ (.expr e) →
    ρ.Agree P F (Value.Renamed ρ) (Eval.expr fuel e) (Eval.expr fuel (σ.expr Γ e))
  apply : ∀ P F f f' args args', Closure.Renamed ρ [] P f f' →
    List.Forall₂ (Value.Renamed ρ P) args args' →
    ρ.Agree P F (Value.Renamed ρ) (Eval.apply fuel f args) (Eval.apply fuel f' args')
  stmt : ∀ {σ P F Γ s}, Runs ρ σ P F Γ (.stmt s) →
    ρ.Agree P F (Signal.Renamed ρ) (Eval.stmt fuel s) (Eval.stmt fuel (σ.stmt Γ s))

namespace AgreeAt

variable {fuel : Nat}

theorem exprs (ih : AgreeAt ρ fuel) {es : List Expr}
    (h : ∀ e ∈ es, Runs ρ σ P F Γ (.expr e)) :
    ρ.Agree P F (fun P' => List.Forall₂ (Value.Renamed ρ P')) (Eval.exprs (Eval.expr fuel) es)
      (Eval.exprs (Eval.expr fuel) (σ.exprs Γ es)) :=
  agree_exprs fun e he _ hle => ih.expr ((h e he).mono hle)

theorem stmts (ih : AgreeAt ρ fuel) {ss : List Stmt} (h : Runs ρ σ P F Γ (.stmts ss)) :
    ρ.Agree P F (Signal.Renamed ρ) (Eval.stmts (Eval.stmt fuel) ss)
      (Eval.stmts (Eval.stmt fuel) (σ.stmts Γ ss)) :=
  agree_stmts (fun _ _ => ih.stmt) h

theorem truth (ih : AgreeAt ρ fuel) {e : Expr} (h : Runs ρ σ P F Γ (.expr e)) :
    ρ.Agree P F (fun _ => Eq) (do return (← Eval.expr fuel e).isTruthy)
      (do return (← Eval.expr fuel (σ.expr Γ e)).isTruthy) :=
  (ih.expr h).bind fun _ _ _ _ hv => .pure hv.like.isTruthy

/-- With one more unit of fuel expressions are evaluated alike too. -/
theorem expr_succ (ih : AgreeAt ρ fuel) {e : Expr} (h : Runs ρ σ P F Γ (.expr e)) :
    ρ.Agree P F (Value.Renamed ρ) (Eval.expr (fuel + 1) e)
      (Eval.expr (fuel + 1) (σ.expr Γ e)) := by
  obtain ⟨id, span, node⟩ := e
  have operand {P' : Plan} (hle : P <+: P') {e : Expr} (he : e ∈ node.operands) :
      ρ.Agree P' F (Value.Renamed ρ) (Eval.expr fuel e) (Eval.expr fuel (σ.expr Γ e)) :=
    ih.expr ((h.operand he).mono hle)
  have hrefl := List.prefix_refl P
  cases node with
  | literal value => exact .pure (.ofLiteral value)
  | group e => exact operand hrefl List.mem_cons_self
  | binary op a b =>
    refine (operand hrefl List.mem_cons_self).bind fun P₁ v v' hle₁ hv => ?_
    refine (operand hle₁ (List.mem_of_mem_tail List.mem_cons_self)).bind fun P₂ w w' hle₂ hw => ?_
    exact agree_binary op span (hv.mono hle₂) hw
  | unary op e =>
    exact (operand hrefl List.mem_cons_self).bind fun _ _ _ _ hv => agree_unary op span hv
  | logical op a b =>
    refine (operand hrefl List.mem_cons_self).bind fun P₁ v v' hle₁ hv => ?_
    exact .ite (by rw [op.isDecidedBy_eq hv.like]) (.pure hv)
      (operand hle₁ (List.mem_of_mem_tail List.mem_cons_self))
  | ternary condition yes no =>
    refine (operand hrefl List.mem_cons_self).bind fun P₁ v v' hle₁ hv => ?_
    exact .ite (by rw [hv.like.isTruthy])
      (operand hle₁ (List.mem_of_mem_tail List.mem_cons_self))
      (operand hle₁ (List.mem_of_mem_tail (List.mem_of_mem_tail List.mem_cons_self)))
  | «variable» name =>
    exact agree_lookup h.reaches (h.here fun _ => .variable).links name.span
  | assign name value =>
    refine (operand hrefl List.mem_cons_self).bind fun P₁ v v' hle₁ hv => ?_
    have hl : ρ.Links Γ id name.name (σ.use Γ id name).name := (h.here fun _ => .assign).links
    exact (agree_assign (h.reaches.mono hle₁) (span_use Γ id name) hl hv).bind
      fun _ _ _ hle₂ _ => .pure (hv.mono hle₂)
  | call callee args =>
    refine (operand hrefl List.mem_cons_self).bind fun P₁ f f' hle₁ hf => ?_
    refine (ih.exprs fun e he => (h.mono hle₁).operand (List.mem_cons_of_mem _ he)).bind
      fun P₂ vs vs' hle₂ hvs => ?_
    exact agree_callValue ih.apply (hf.mono hle₂) hvs span
  | get object name =>
    refine (operand hrefl List.mem_cons_self).bind fun P₁ v v' hle₁ hv => ?_
    exact (agree_property hv name).bind fun _ _ _ _ hv => agree_access ih.apply hv
  | set object name value =>
    refine (operand hrefl List.mem_cons_self).bind fun P₁ t t' hle₁ ht => ?_
    refine (operand hle₁ (List.mem_of_mem_tail List.mem_cons_self)).bind fun P₂ v v' hle₂ hv => ?_
    exact (agree_setProperty (ht.mono hle₂) name hv).bind fun _ _ _ hle₃ _ => .pure (hv.mono hle₃)
  | array elements =>
    refine (ih.exprs fun e he => h.operand he).bind fun P₁ vs vs' hle₁ hvs => ?_
    refine (agree_makeIn (R := fun _ => Eq) fun h h' hh => ?_).bind fun P₂ a a' _ ha => ?_
    · exact (hh.newArray hvs).imp_right (hh.with_related · rfl rfl)
    subst ha
    exact .pure (.same rfl)
  | index array position =>
    refine (operand hrefl List.mem_cons_self).bind fun P₁ a a' hle₁ ha => ?_
    refine (operand hle₁ (List.mem_of_mem_tail List.mem_cons_self)).bind fun P₂ i i' hle₂ hi => ?_
    exact agree_element (ha.mono hle₂) hi span
  | indexSet array position value =>
    refine (operand hrefl List.mem_cons_self).bind fun P₁ a a' hle₁ ha => ?_
    refine (operand hle₁ (List.mem_of_mem_tail List.mem_cons_self)).bind fun P₂ i i' hle₂ hi => ?_
    refine (operand (hle₁.trans hle₂)
      (List.mem_of_mem_tail (List.mem_of_mem_tail List.mem_cons_self))).bind
      fun P₃ v v' hle₃ hv => ?_
    exact (agree_setElement (ha.mono (hle₂.trans hle₃)) (hi.mono hle₃) hv span).bind
      fun _ _ _ hle₄ _ => .pure (hv.mono hle₄)
  | lambda f =>
    exact (agree_closure h.reaches (h.here fun _ => .lambda).translated .function).bind
      fun _ _ _ _ hf => .pure (.function hf)
  | this => exact agree_lookup_this id span
  | super name =>
    exact (agree_superProperty id name span).bind fun _ _ _ _ hv => agree_access ih.apply hv

/-- With one more unit of fuel functions are run alike too: their bodies are in the scope of their
parameters, which are renamed with them. -/
theorem apply_succ (ih : AgreeAt ρ fuel) (P : Plan) (F : FrameId) (f f' : Closure)
    (args args' : List Value) (hf : f.Renamed ρ [] P f')
    (hargs : List.Forall₂ (Value.Renamed ρ P) args args') :
    ρ.Agree P F (Value.Renamed ρ) (Eval.apply (fuel + 1) f args)
      (Eval.apply (fuel + 1) f' args') := by
  obtain ⟨identity, code, frame, kind⟩ := f
  obtain ⟨identity', code', frame', kind'⟩ := f'
  obtain ⟨Γ, hreaches, hcode⟩ := hf.code
  obtain rfl : frame = frame' := hf.frame
  obtain rfl : kind = kind' := hf.kind
  obtain @⟨σ, body, π, context, code, htranslates, ho⟩ : Function.Translated ρ Γ code code' := hcode
  have hbindings : Table.Renamed ρ (σ.owns (Site.call code).locals) (Value.Renamed ρ P)
      (.ofPairs ((code.params.map Identifier.name).zip args))
      (.ofPairs (((code.params.map σ.binder).map Identifier.name).zip args')) :=
    Table.Renamed.empty.insertZip (htranslates.names_parameters ho) hargs
  rw [function_eq]
  refine (agree_newFrame frame _ hbindings).bind fun P₁ G G' hle₁ ⟨hG, he⟩ => ?_
  subst hG
  have hbody : Runs ρ σ P₁ G _ (.stmts code.body) :=
    .mk htranslates (ho.inside .body) ⟨frame, he, hreaches.mono hle₁⟩
  refine (ih.stmts hbody).inFrame.bind fun P₂ signal signal' _ hsignal => ?_
  refine .ite Iff.rfl (Agree.get fun m m' hm => ?_) ?_
  · have hthis : Option.Rel (Value.Renamed ρ _) (m.heap.getAt? 0 frame Name.this)
        (m'.heap.getAt? 0 frame Name.this) :=
      hm.heap.getAt? fun _ e _ _ => hm.heap.names_keyword Name.not_plain_this e.2
    dsimp only
    generalize m.heap.getAt? 0 frame Name.this = o at hthis
    generalize m'.heap.getAt? 0 frame Name.this = o' at hthis
    cases hthis with
    | none => exact agree_fail_same _ _
    | some hv => exact .pure hv
  · cases hsignal with
    | «return» hv => exact .pure hv
    | _ => exact .pure (.same rfl)

/-- With one more unit of fuel statements are run alike too, each in a frame of its scope. -/
theorem stmt_succ (ih : AgreeAt ρ fuel) {s : Stmt} (h : Runs ρ σ P F Γ (.stmt s)) :
    ρ.Agree P F (Signal.Renamed ρ) (Eval.stmt (fuel + 1) s)
      (Eval.stmt (fuel + 1) (σ.stmt Γ s)) := by
  obtain ⟨span, node⟩ := s
  cases node with
  | expression e =>
    exact (ih.expr (h.here fun _ => .expression)).discard.bind fun _ _ _ _ _ => .pure .next
  | print e =>
    refine (ih.expr (h.here fun _ => .print)).bind fun P₁ v v' _ hv => Agree.get fun m m' hm => ?_
    rw [hm.heap.text hv]
    exact (agree_printLine _ span).bind fun _ _ _ _ _ => .pure .next
  | varDecl name init =>
    have hdefine (P₁ : Plan) (hle : P <+: P₁) (v v' : Value) (hv : v.Renamed ρ P₁ v') :
        ρ.Agree P₁ F (Signal.Renamed ρ) (do define name.name v; return .next)
          (do define (σ.declared Γ name).name v'; return .next) :=
      (agree_define (h.reaches.mono hle) h.names_declared hv).bind fun _ _ _ _ _ => .pure .next
    cases init with
    | none => exact hdefine P (List.prefix_refl P) _ _ (.same rfl)
    | some e =>
      exact (ih.expr (h.inside fun π => ⟨_, .initializer, flags_initializing _⟩)).bind
        fun P₁ v v' hle hv => hdefine P₁ hle v v' hv
  | block body =>
    refine agree_inNewFrame (σ.owns (body.flatMap Stmt.variables)) fun P₁ G hle he => ?_
    exact ih.stmts (h.enter ⟨F, he, h.reaches.mono hle⟩ fun π hπ => ⟨_, .block, hπ ▸ rfl⟩)
  | ifElse condition yes no =>
    rw [Renaming.stmt_ifElse]
    refine (ih.expr (h.here fun _ => .ifCondition)).bind fun P₁ v v' hle hv => ?_
    have h₁ := h.mono hle
    refine .ite (by rw [hv.like.isTruthy]) (ih.stmt (h₁.here fun _ => .ifYes)) ?_
    cases no with
    | none => exact .pure .next
    | some no => exact ih.stmt (h₁.here fun _ => .ifNo)
  | «while» condition body =>
    exact agree_loop (fun _ hle => ih.truth ((h.here fun _ => .whileCondition).mono hle))
      (fun _ hle => ih.stmt ((h.inside fun π => ⟨_, .whileBody, flags_inLoop⟩).mono hle))
      (fun _ _ => .pure rfl) fuel
  | «for» init condition step body =>
    rw [Renaming.stmt_for, Eval.stmt_for, Eval.stmt_for]
    refine agree_inNewFrame (σ.owns (init.toList.flatMap Stmt.variables)) fun P₁ G hle he => ?_
    have hreaches : Plan.Reaches P₁ (σ.owns (init.toList.flatMap Stmt.variables) :: Γ) G :=
      ⟨F, he, h.reaches.mono hle⟩
    refine Agree.bind (R := fun _ => Eq) ?_ fun P₂ _ _ hle₂ _ => agree_loop (fun P₃ hle₃ => ?_)
      (fun P₃ hle₃ => ih.stmt ?_) (fun P₃ hle₃ => ?_) fuel
    · cases init with
      | none => exact .pure rfl
      | some s => exact (ih.stmt (h.enter hreaches fun π hπ => ⟨_, .forInit, hπ ▸ rfl⟩)).discard
    · cases condition with
      | none => exact .pure rfl
      | some e =>
        exact ih.truth (h.enter (hreaches.mono (hle₂.trans hle₃)) fun π hπ =>
          ⟨_, .forCondition, (flags_afterClause init).trans (hπ ▸ rfl)⟩)
    · exact h.enter (hreaches.mono (hle₂.trans hle₃)) fun π hπ =>
        ⟨_, .forBody, (flags_afterClause init).trans (hπ ▸ rfl)⟩
    · cases step with
      | none => exact .pure rfl
      | some e =>
        exact (ih.expr (h.enter (hreaches.mono (hle₂.trans hle₃)) fun π hπ =>
          ⟨_, .forStep, (flags_afterClause init).trans (hπ ▸ rfl)⟩)).discard
  | «break» => exact .pure .break
  | «continue» => exact .pure .continue
  | funDecl f =>
    have hname := h.names_other rfl (List.mem_singleton_self f.name)
    have hf := (h.inside fun π => ⟨_, .funDecl, flags_declare _⟩).translated
    refine (agree_closure h.reaches hf .function).bind fun P₁ c c' hle hc => ?_
    rw [function_eq]
    exact (agree_define (h.reaches.mono hle) hname (.function hc)).bind
      fun _ _ _ _ _ => .pure .next
  | «return» value =>
    rw [Renaming.stmt_return]
    cases value with
    | none => exact .pure (.return (.same rfl))
    | some e =>
      exact (ih.expr (h.here fun _ => .returnValue)).bind fun _ _ _ _ hv => .pure (.return hv)
  | classDecl name superclass traits methods statics =>
    rw [stmt_classDecl]
    exact (agree_declareClass h).bind fun _ _ _ _ _ => .pure .next
  | traitDecl name methods statics =>
    exact (agree_declareTrait h).bind fun _ _ _ _ _ => .pure .next

end AgreeAt

/-- All evaluations agree, by induction on the fuel that their parts get. -/
theorem agreeAt (ρ : Renaming) (fuel : Nat) : AgreeAt ρ fuel := by
  induction fuel with
  | zero => exact ⟨fun _ => agree_outOfFuel, fun _ _ _ _ _ _ _ _ => agree_outOfFuel,
      fun _ => agree_outOfFuel⟩
  | succ fuel ih => exact ⟨ih.expr_succ, ih.apply_succ, ih.stmt_succ⟩

theorem agree_program (fuel : Nat) {ss : List Stmt} (h : Runs ρ σ P F Γ (.stmts ss)) :
    ρ.Agree P F (fun _ => Eq) (Eval.program fuel ss) (Eval.program fuel (σ.stmts Γ ss)) := by
  induction ss generalizing P with
  | nil => exact .pure rfl
  | cons s ss ih =>
    refine ((agreeAt ρ fuel).stmt (h.here fun _ => .first)).discard.bind fun P₁ _ _ hle _ => ?_
    exact ih ((h.mono hle).inside fun π => ⟨_, .rest, flags_after s⟩)

end Renaming

end Lox

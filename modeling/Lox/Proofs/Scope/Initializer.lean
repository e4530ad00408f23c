import Lox.Proofs.Scope.Accepted
import Lox.Proofs.Scope.Reading
import Lox.Proofs.Syntax.Parsed

/-!
# Reading a local in its own initializer

The walk through an expression is a sequence of actions, those inside lambdas apart (`Expr.direct`).
While the initializer of a local is walked through, a direct read of the local is an error, unless a
lambda before it has read the local too: that use marks it as read, and so as readable.

    (do declare x true; walks before) s = .ok () t → y.name = x.name → s.scopes ≠ [] →
      readName id y t = if readInLambda x.name before then .ok () _ else .error _ t
                                                                            (readName_of_walks)
-/

namespace Lox

/-! ## Direct actions -/

/-- What the walk through an expression does to names, a lambda being one action. -/
inductive Action
  | read (id : ExprId) (name : Identifier)
  | write (id : ExprId) (name : Identifier)
  | lambda (f : Function)
  | this (id : ExprId) (span : Span)
  | super (id : ExprId) (span : Span)

mutual

/-- The actions of an expression outside its lambdas, in the order of the walk. -/
def Expr.direct : Expr → List Action
  | ⟨id, span, node⟩ =>
    match node with
    | .literal _ => []
    | .group e | .unary _ e | .get e _ => e.direct
    | .binary _ a b | .logical _ a b | .index a b | .set b _ a => a.direct ++ b.direct
    | .ternary a b c | .indexSet a b c => a.direct ++ (b.direct ++ c.direct)
    | .call callee args => callee.direct ++ Expr.directs args
    | .array elements => Expr.directs elements
    | .variable name => [.read id name]
    | .assign name value => value.direct ++ [.write id name]
    | .lambda f => [.lambda f]
    | .this => [.this id span]
    | .super _ => [.super id span]

def Expr.directs : List Expr → List Action
  | [] => []
  | e :: es => e.direct ++ Expr.directs es

end

/-- Whether one of the actions is a lambda that reads the name. -/
def readInLambda (x : String) (actions : List Action) : Bool :=
  actions.any fun
    | .lambda f => f.reads x
    | _ => false

def Action.WellFormed : Action → Prop
  | lambda f => f.WellFormed
  | _ => True

mutual

theorem Expr.wellFormed_direct (e : Expr) (h : e.WellFormed) :
    ∀ a ∈ e.direct, a.WellFormed := by
  obtain ⟨id, span, node⟩ := e
  cases node with
  | literal value => exact fun _ ha => by cases ha
  | group e => exact e.wellFormed_direct h
  | unary op e => exact e.wellFormed_direct h
  | get e property => exact e.wellFormed_direct h
  | binary op a b =>
    exact List.forall_mem_append.2 ⟨a.wellFormed_direct h.1, b.wellFormed_direct h.2⟩
  | logical op a b =>
    exact List.forall_mem_append.2 ⟨a.wellFormed_direct h.1, b.wellFormed_direct h.2⟩
  | index a b =>
    exact List.forall_mem_append.2 ⟨a.wellFormed_direct h.1, b.wellFormed_direct h.2⟩
  | set b property a =>
    exact List.forall_mem_append.2 ⟨a.wellFormed_direct h.2, b.wellFormed_direct h.1⟩
  | ternary a b c =>
    exact List.forall_mem_append.2 ⟨a.wellFormed_direct h.1,
      List.forall_mem_append.2 ⟨b.wellFormed_direct h.2.1, c.wellFormed_direct h.2.2⟩⟩
  | indexSet a b c =>
    exact List.forall_mem_append.2 ⟨a.wellFormed_direct h.1,
      List.forall_mem_append.2 ⟨b.wellFormed_direct h.2.1, c.wellFormed_direct h.2.2⟩⟩
  | call callee args =>
    exact List.forall_mem_append.2 ⟨callee.wellFormed_direct h.1, Expr.wellFormed_directs args h.2⟩
  | array elements => exact Expr.wellFormed_directs elements h
  | «variable» name => exact List.forall_mem_singleton.2 trivial
  | assign name value =>
    exact List.forall_mem_append.2
      ⟨value.wellFormed_direct h.2, List.forall_mem_singleton.2 trivial⟩
  | lambda f => exact List.forall_mem_singleton.2 h
  | this => exact List.forall_mem_singleton.2 trivial
  | super name => exact List.forall_mem_singleton.2 trivial

theorem Expr.wellFormed_directs (es : List Expr) (h : Expr.AllWellFormed es) :
    ∀ a ∈ Expr.directs es, a.WellFormed := by
  cases es with
  | nil => exact fun _ ha => by cases ha
  | cons e es =>
    exact List.forall_mem_append.2 ⟨e.wellFormed_direct h.1, Expr.wellFormed_directs es h.2⟩

end

namespace Resolution

def actionWalk : Action → Walk Unit
  | .read id name => readName id name
  | .write id name => modify (·.use id name.name false)
  | .lambda f => function .function f
  | .this id span => receiver id span
  | .super id span => superclass id span

/-- The walk through actions in order. -/
def walks (actions : List Action) : Walk Unit := actions.forM actionWalk

theorem walks_append (as bs : List Action) :
    walks (as ++ bs) = (do walks as; walks bs) :=
  List.forM_append

theorem walks_singleton (a : Action) : walks [a] = actionWalk a := by
  simp [walks]

mutual

theorem expr_eq_walks (e : Expr) : expr e = walks e.direct := by
  obtain ⟨id, span, node⟩ := e
  cases node with
  | literal value => rfl
  | group e => exact expr_eq_walks e
  | unary op e => exact expr_eq_walks e
  | get e property => exact expr_eq_walks e
  | binary op a b => rw [Expr.direct, walks_append, ← expr_eq_walks a, ← expr_eq_walks b, expr]
  | logical op a b => rw [Expr.direct, walks_append, ← expr_eq_walks a, ← expr_eq_walks b, expr]
  | index a b => rw [Expr.direct, walks_append, ← expr_eq_walks a, ← expr_eq_walks b, expr]
  | set b property a =>
    rw [Expr.direct, walks_append, ← expr_eq_walks a, ← expr_eq_walks b, expr]
  | ternary a b c =>
    rw [Expr.direct, walks_append, walks_append, ← expr_eq_walks a, ← expr_eq_walks b,
      ← expr_eq_walks c, expr]
  | indexSet a b c =>
    rw [Expr.direct, walks_append, walks_append, ← expr_eq_walks a, ← expr_eq_walks b,
      ← expr_eq_walks c, expr]
  | call callee args =>
    rw [Expr.direct, walks_append, ← expr_eq_walks callee, ← exprs_eq_walks args, expr]
  | array elements => exact exprs_eq_walks elements
  | «variable» name => exact (walks_singleton (.read id name)).symm
  | assign name value =>
    rw [Expr.direct, walks_append, walks_singleton, ← expr_eq_walks value, expr]
    rfl
  | lambda f => exact (walks_singleton (.lambda f)).symm
  | this => exact (walks_singleton (.this id span)).symm
  | super name => exact (walks_singleton (.super id span)).symm

theorem exprs_eq_walks (es : List Expr) : exprs es = walks (Expr.directs es) := by
  cases es with
  | nil => rfl
  | cons e es =>
    rw [Expr.directs, walks_append, ← expr_eq_walks e, ← exprs_eq_walks es, exprs]

end

/-! ## While the initializer is walked through -/

variable {x : String}

theorem distance?_eq_zero {s : State} {st : Status} (h : s.status? x 0 = some st) :
    distance? x s.scopes = some 0 := by
  obtain ⟨names, hn, hx⟩ := s.mem_names_of_status? h
  rw [s.distance?_eq]
  cases hs : s.names with
  | nil => simp [hs] at hn
  | cons first rest =>
    rw [hs] at hn
    cases hn
    simp [List.findIdx?_cons, hx]

theorem isInitializing_iff (s : State) :
    s.isInitializing x = true ↔ s.status? x 0 = some .declared := by
  unfold State.isInitializing State.status?
  cases s.scopes with
  | nil => simp
  | cons scope scopes => cases hf : scope.find? x <;> simp [hf]

/-- Whether the action marks the name as read if it goes well. -/
def actionReads (x : String) : Action → Bool
  | .read _ name => name.name == x
  | .lambda f => f.reads x
  | _ => false

theorem reading_action (hx : Name.Plain x) (a : Action) (h : a.WellFormed) :
    Reading x (actionWalk a) [] (actionReads x a) := by
  cases a with
  | read id name => exact reading_readName id name
  | write id name => exact .of_other_use (fun _ _ h => by cases h; rfl) (.inl rfl)
  | lambda f => exact reading_function hx .function f h
  | this id span =>
    exact .of_other_use (fun _ _ h => (receiver_eq_ok h).2.2.2)
      (.inr fun hname => Name.not_plain_this (hname ▸ hx))
  | super id span =>
    exact .of_other_use (fun _ _ h => (superclass_eq_ok h).2)
      (.inr fun hname => Name.not_plain_super (hname ▸ hx))

/-- A variable that is readable stays so. -/
theorem status?_walks_of_read (hx : Name.Plain x) {actions : List Action}
    (ha : ∀ a ∈ actions, a.WellFormed) {s t : State} (h : walks actions s = .ok () t)
    (hs : s.status? x 0 = some .read) : t.status? x 0 = some .read := by
  induction actions generalizing s with
  | nil => cases h; exact hs
  | cons a actions ih =>
    obtain ⟨_, u, hu, ht⟩ := EStateM.bind_eq_ok.1 h
    have hread := (reading_action hx a (ha a List.mem_cons_self)).status hu 0 _ hs
    rw [ite_self] at hread
    exact ih (fun b hb => ha b (List.mem_cons_of_mem a hb)) ht hread

/-- Behind actions that are no error, the local is readable just if one is a lambda that reads it:
a direct read would have been the error. -/
theorem status?_walks_of_declared (hx : Name.Plain x) {actions : List Action}
    (ha : ∀ a ∈ actions, a.WellFormed) {s t : State} (h : walks actions s = .ok () t)
    (hs : s.status? x 0 = some .declared) :
    t.status? x 0 = some (if readInLambda x actions then .read else .declared) := by
  induction actions generalizing s with
  | nil => cases h; exact hs
  | cons a actions ih =>
    obtain ⟨_, u, hu, ht⟩ := EStateM.bind_eq_ok.1 h
    have hstep := (reading_action hx a (ha a List.mem_cons_self)).status hu 0 _ hs
    rw [distance?_eq_zero hs] at hstep
    have hrest : ∀ b ∈ actions, b.WellFormed := fun b hb => ha b (List.mem_cons_of_mem a hb)
    have hcons : readInLambda x (a :: actions) =
        (readInLambda x [a] || readInLambda x actions) := by
      simp [readInLambda]
    cases hreads : actionReads x a with
    | false =>
      have hnone : readInLambda x [a] = false := by
        cases a <;> simp_all [readInLambda, actionReads]
      rw [hcons, hnone, Bool.false_or]
      exact ih hrest ht (by simpa [hreads] using hstep)
    | true =>
      have hlambda : readInLambda x [a] = true := by
        cases a with
        | lambda f => simpa [readInLambda, actionReads] using hreads
        | read id name =>
          obtain rfl : name.name = x := by simpa [actionReads] using hreads
          have hi := (readName_eq_ok hu).1
          rw [(isInitializing_iff s).2 hs] at hi
          cases hi
        | _ => simp [actionReads] at hreads
      rw [hcons, hlambda, Bool.true_or, if_pos rfl]
      exact status?_walks_of_read hx hrest ht (by simpa [hreads] using hstep)

/-- Whether a direct read of the local is let through. -/
theorem readName_of_walks {name y : Identifier} {id : ExprId} {before : List Action}
    {s t : State} (hx : Name.Plain name.name) (ha : ∀ a ∈ before, a.WellFormed)
    (hs : s.scopes ≠ []) (h : (do declare name true; walks before : Walk Unit) s = .ok () t)
    (hy : y.name = name.name) :
    readName id y t =
      if readInLambda name.name before then .ok () (t.use id y.name true)
      else .error ⟨y.span, .readInOwnInitializer y.name⟩ t := by
  obtain ⟨_, u, hd, hw⟩ := EStateM.bind_eq_ok.1 h
  have ht := status?_walks_of_declared hx ha hw (status?_declare hd hs)
  have hi := isInitializing_iff (x := name.name) t
  rw [readName, EStateM.get_bind_apply, hy]
  cases hl : readInLambda name.name before with
  | true =>
    rw [hl, if_pos rfl] at ht
    have : t.isInitializing name.name = false := by
      rw [← Bool.not_eq_true, hi, ht]
      decide
    simp [this]
  | false =>
    rw [hl, if_neg (by decide)] at ht
    simp only [hi.2 ht, if_true, fail]
    simp

/-! ## Programs -/

/-- The walk `w` from `s` comes to the walk `w'` at `s'`, with nothing wrong on the way. -/
inductive Leads : Walk Unit → State → Walk Unit → State → Prop
  | refl {w : Walk Unit} {s : State} : Leads w s w s
  | first {w v w' : Walk Unit} {s s' : State} : Leads w s w' s' → Leads (do w; v) s w' s'
  | second {w v w' : Walk Unit} {s t s' : State} :
      v s = .ok () t → Leads w t w' s' → Leads (do v; w) s w' s'
  | within {region : Region} {w w' : Walk Unit} {s s' : State} :
      Leads w { s with context := region.enter s.context } w' s' → Leads (within region w) s w' s'
  | inScope {scope : Scope} {w w' : Walk Unit} {s s' : State} :
      Leads w { s with scopes := scope :: s.scopes } w' s' → Leads (inScope scope w) s w' s'

/-- The first error that a walk comes to is its error. -/
theorem Leads.eq_error {w w' : Walk Unit} {s s' t' : State} {e : ScopeError}
    (h : Leads w s w' s') (he : w' s' = .error e t') : ∃ t, w s = .error e t := by
  induction h with
  | refl => exact ⟨t', he⟩
  | first _ ih =>
    obtain ⟨t, ht⟩ := ih he
    exact ⟨t, EStateM.bind_of_error ht _⟩
  | second hv _ ih =>
    obtain ⟨t, ht⟩ := ih he
    exact ⟨t, by rw [EStateM.bind_of_ok hv, ht]⟩
  | @within region _ _ s _ _ ih =>
    obtain ⟨t, ht⟩ := ih he
    exact ⟨{ t with context := region.leave s.context t.context }, by
      simp only [Resolution.within, ht]⟩
  | inScope _ ih =>
    obtain ⟨t, ht⟩ := ih he
    exact ⟨t.closeScope, by simp only [Resolution.inScope, ht]⟩

/-- The state that the walk through a program begins in. -/
def State.start : State := ⟨[], [], [], .topLevel⟩

variable {body : List Stmt} {π : Lexical.Place} {span : Span} {name y : Identifier} {e : Expr}
  {before after : List Action} {id : ExprId}

/-- The walk through a declaration gets to a direct read of its own name behind the actions before
it, and ends there unless one of them is a lambda that reads the name. -/
theorem leads_read {s t : State} (he : e.direct = before ++ .read id y :: after)
    (h : (do declare name true; walks before : Walk Unit) s = .ok () t) :
    Leads (stmt ⟨span, .varDecl name (some e)⟩) s (readName id y) t := by
  obtain ⟨_, u, hd, hw⟩ := EStateM.bind_eq_ok.1 h
  have hexpr : expr e = (do walks before; readName id y; walks after) := by
    rw [expr_eq_walks, he, walks_append]
    rfl
  refine .second hd (.first ?_)
  rw [hexpr]
  exact .second hw (.first .refl)

end Resolution

namespace Lexical

open Resolution

variable {body : List Stmt} {π : Place} {span : Span} {name y : Identifier} {e : Expr}
  {before after : List Action} {id : ExprId}

theorem Occurs.plain_of_varDecl {init : Option Expr}
    (h : Occurs body π (.stmt ⟨span, .varDecl name init⟩)) (hb : Stmt.AllWellFormed body) :
    Name.Plain name.name ∧ ∀ e ∈ init, e.WellFormed := by
  have := h.wellFormed hb
  rwa [Node.WellFormed, Stmt.wellFormed_varDecl] at this

/-- Where the walk gets to a direct read of a local in its own initializer. -/
theorem Occurs.readName_eq {s t : State} (hb : Stmt.AllWellFormed body)
    (h : Occurs body π (.stmt ⟨span, .varDecl name (some e)⟩)) (hlocal : π.openings ≠ [])
    (he : e.direct = before ++ .read id y :: after) (hy : y.name = name.name) (hs : At s π)
    (hw : (do declare name true; walks before : Walk Unit) s = .ok () t) :
    readName id y t =
      if readInLambda name.name before then .ok () (t.use id y.name true)
      else .error ⟨y.span, .readInOwnInitializer y.name⟩ t := by
  obtain ⟨hx, hwf⟩ := h.plain_of_varDecl hb
  have hactions := e.wellFormed_direct (hwf e rfl)
  rw [he] at hactions
  have hopen : s.scopes ≠ [] := by
    rintro hnil
    have hn := hs.names
    rw [State.names, hnil] at hn
    exact hlocal (List.map_eq_nil_iff.1 hn.symm)
  exact readName_of_walks hx (fun a ha => hactions a (List.mem_append_left _ ha)) hopen hw hy

/-- No program is accepted that has such a read without a lambda before it. -/
theorem Occurs.not_accepted_of_read (hb : Stmt.AllWellFormed body)
    (h : Occurs body π (.stmt ⟨span, .varDecl name (some e)⟩)) (hlocal : π.openings ≠ [])
    (he : e.direct = before ++ .read id y :: after) (hy : y.name = name.name)
    (hl : readInLambda name.name before = false) : ∃ err, ofProgram body = .error err := by
  cases hr : ofProgram body with
  | error err => exact ⟨err, rfl⟩
  | ok r =>
    obtain ⟨s, t, hs, ht⟩ := h.visited hb hr
    rw [Node.walk, stmt_varDecl] at ht
    obtain ⟨_, u, hd, ht⟩ := EStateM.bind_eq_ok.1 ht
    obtain ⟨_, v, hv, -⟩ := EStateM.bind_eq_ok.1 ht
    rw [Resolution.optional, expr_eq_walks, he, walks_append] at hv
    obtain ⟨_, p, hp, hv⟩ := EStateM.bind_eq_ok.1 hv
    obtain ⟨_, q, hq, -⟩ := EStateM.bind_eq_ok.1 hv
    have hw : (do declare name true; walks before : Walk Unit) s = .ok () p := by
      rw [EStateM.bind_of_ok hd, hp]
    have := h.readName_eq hb hlocal he hy hs hw
    rw [hl, if_neg Bool.false_ne_true] at this
    rw [actionWalk, this] at hq
    cases hq

theorem Occurs.ofProgram_eq_error_of_read {s t : State} (hb : Stmt.AllWellFormed body)
    (h : Occurs body π (.stmt ⟨span, .varDecl name (some e)⟩)) (hlocal : π.openings ≠ [])
    (he : e.direct = before ++ .read id y :: after) (hy : y.name = name.name)
    (hl : readInLambda name.name before = false)
    (hs : Leads (stmts body) .start (stmt ⟨span, .varDecl name (some e)⟩) s) (hat : At s π)
    (hw : (do declare name true; walks before : Walk Unit) s = .ok () t) :
    ofProgram body = .error ⟨y.span, .readInOwnInitializer y.name⟩ := by
  have hread := h.readName_eq hb hlocal he hy hat hw
  rw [hl, if_neg Bool.false_ne_true] at hread
  obtain ⟨u, hu⟩ := (leads_read he hw).eq_error hread
  obtain ⟨v, hv⟩ := hs.eq_error hu
  rw [State.start] at hv
  rw [ofProgram, hv]

/-! ## Texts -/

/-- A program that has been read has in the initializer `e` of a local `x` a direct read of `x`
behind the actions `before`.  If none of these is a lambda that reads `x`, the program is not
accepted, and the error is this read's when the walk gets to it.  Behind such a lambda the read is
accepted and recorded as any other. -/
theorem read_in_own_initializer {source : String} {firstId : ExprId} {tree : Tree}
    (hparse : Tree.parse source firstId = .ok tree) {π : Place} {span : Span} {x y : Identifier}
    {e : Expr} {before after : List Action} {id : ExprId}
    (h : Occurs tree.body π (.stmt ⟨span, .varDecl x (some e)⟩)) (hlocal : π.openings ≠ [])
    (he : e.direct = before ++ .read id y :: after) (hy : y.name = x.name) :
    (readInLambda x.name before = false →
      (∃ err, ofProgram tree.body = .error err) ∧
        ∀ s t, Leads (stmts tree.body) .start (stmt ⟨span, .varDecl x (some e)⟩) s → At s π →
          (do declare x true; walks before : Walk Unit) s = .ok () t →
          ofProgram tree.body = .error ⟨y.span, .readInOwnInitializer y.name⟩) ∧
    (readInLambda x.name before = true →
      ∀ s t, At s π → (do declare x true; walks before : Walk Unit) s = .ok () t →
        readName id y t = .ok () (t.use id y.name true)) := by
  have hb := wellFormed_of_parse hparse
  refine ⟨fun hl => ⟨h.not_accepted_of_read hb hlocal he hy hl, fun s t hs hat hw => ?_⟩,
    fun hl s t hat hw => ?_⟩
  · exact h.ofProgram_eq_error_of_read hb hlocal he hy hl hs hat hw
  · rw [h.readName_eq hb hlocal he hy hat hw, if_pos hl]

theorem read_in_own_initializer_at_once :
    ∃ err, ofProgram [⟨.onLine 0 14, .block [⟨.onLine 2 12, .varDecl ⟨"x", .onLine 6 7⟩
      (some ⟨0, .onLine 10 11, .variable ⟨"x", .onLine 10 11⟩⟩)⟩]⟩] = .error err := by
  have hparse : Tree.parse "{ var x = x; }" 0 =
      .ok ⟨[⟨.onLine 0 14, .block [⟨.onLine 2 12, .varDecl ⟨"x", .onLine 6 7⟩
        (some ⟨0, .onLine 10 11, .variable ⟨"x", .onLine 10 11⟩⟩)⟩]⟩], 1⟩ := by cbv
  exact ((read_in_own_initializer hparse (((Occurs.program.inside .first).inside .block).inside
    .first) (by decide) (List.nil_append _).symm rfl).1 rfl).1

/-- A lambda hides the read behind it. -/
theorem accepted_read_in_own_initializer :
    ∃ tree r π span x e id y,
      Tree.parse "{ var x = [fun () { return x; }, x]; }" 0 = .ok tree ∧
      ofProgram tree.body = .ok r ∧
      Occurs tree.body π (.stmt ⟨span, .varDecl x (some e)⟩) ∧ π.openings ≠ [] ∧
      .read id y ∈ e.direct ∧ y.name = x.name := by
  refine ⟨⟨[⟨.onLine 0 38, .block [⟨.onLine 2 36, .varDecl ⟨"x", .onLine 6 7⟩
      (some ⟨3, .onLine 10 35, .array
        [⟨1, .onLine 11 31, .lambda ⟨⟨"lambda", .onLine 11 14⟩, [],
          [⟨.onLine 20 29, .return (some ⟨0, .onLine 27 28, .variable ⟨"x", .onLine 27 28⟩⟩)⟩],
          false, .onLine 11 31⟩⟩,
        ⟨2, .onLine 33 34, .variable ⟨"x", .onLine 33 34⟩⟩]⟩)⟩]⟩], 4⟩,
    ⟨[(2, 0), (0, 1)], []⟩, _, _, _, _, 2, ⟨"x", .onLine 33 34⟩, by cbv, by cbv,
    ((Occurs.program.inside .first).inside .block).inside .first, by decide, ?_, rfl⟩
  exact .tail _ (.head _)

end Lexical

end Lox

import Lox.Proofs.Scope.Closing
import Lox.Proofs.Syntax.Passes
import Lox.Proofs.Token.Tiling

/-!
# Declarations in the order of the text

Reading goes on from token to token and never back.  So in a tree that is read the declarations of
each scope start one behind the other.

    Tree.parse source firstId = .ok tree → InOrder tree.body                  (inOrder_of_parse)
-/

namespace Lox

open Lexical

/-- The one starts before the other in the source. -/
def Identifier.Before (a b : Identifier) : Prop := a.span.start.byte < b.span.start.byte

namespace Lexical

/-- In every scope that the part opens the declarations start one behind the other. -/
def Node.Ordered (n : Node) : Prop :=
  ∀ π, ∀ p ∈ closing π n, p.2.locals.Pairwise Identifier.Before

theorem Node.Ordered.of_inner {n : Node} (hn : ∀ π, ∀ p ∈ n.inner π, p.2.Ordered)
    (hl : n.locals.Pairwise Identifier.Before) : n.Ordered := by
  intro π p hp
  rw [closing_eq, List.mem_append, List.mem_flatMap] at hp
  rcases hp with ⟨q, hq, hp⟩ | hp
  · exact hn π q hq _ p hp
  · split at hp
    · obtain rfl := List.mem_singleton.1 hp
      exact hl
    · cases hp

theorem ordered_use (id : ExprId) (name : String) (reads : Bool) :
    (Node.use id name reads).Ordered := .of_inner (fun _ _ hp => by cases hp) .nil

theorem ordered_expr {id : ExprId} {span : Span} {node : Expr.Node}
    (hn : ∀ e ∈ node.operands, (Node.expr e).Ordered)
    (hf : ∀ f, node = .lambda f → (Node.function .function f).Ordered) :
    (Node.expr ⟨id, span, node⟩).Ordered := by
  refine .of_inner (fun π p hp => ?_) .nil
  rcases List.mem_append.1 hp with hp | hp
  · obtain ⟨e, he, rfl⟩ := List.mem_map.1 hp
    exact hn e (mem_operandsInOrder.1 he)
  · cases node with
    | lambda f => cases List.mem_singleton.1 hp; exact hf f rfl
    | «variable» => cases List.mem_singleton.1 hp; exact ordered_use _ _ _
    | assign => cases List.mem_singleton.1 hp; exact ordered_use _ _ _
    | this => cases List.mem_singleton.1 hp; exact ordered_use _ _ _
    | super => cases List.mem_singleton.1 hp; exact ordered_use _ _ _
    | _ => cases hp

theorem ordered_stmts {body : List Stmt} (h : ∀ s ∈ body, (Node.stmt s).Ordered) :
    (Node.stmts body).Ordered := by
  induction body with
  | nil => exact .of_inner (fun _ _ hp => by cases hp) .nil
  | cons s ss ih =>
    obtain ⟨hs, hss⟩ := List.forall_mem_cons.1 h
    refine .of_inner (fun π p hp => ?_) .nil
    rcases List.mem_pair.1 hp with rfl | rfl
    · exact hs
    · exact ih hss

/-- The statements are in order, and so are their declarations around them. -/
structure InOrder (body : List Stmt) : Prop where
  inside : ∀ s ∈ body, (Node.stmt s).Ordered
  around : (body.flatMap Stmt.declarations).Pairwise Identifier.Before

theorem ordered_function {kind : Resolution.FunctionContext} {f : Function} (h : InOrder f.body) :
    (Node.function kind f).Ordered := by
  refine .of_inner (fun π p hp => ?_) ?_
  · cases List.mem_singleton.1 hp
    exact ordered_stmts h.inside
  · obtain ⟨name, params, body, isGetter, span⟩ := f
    exact h.around

theorem ordered_member {methods statics : List Function} (hm : ∀ f ∈ methods, InOrder f.body)
    (hs : ∀ f ∈ statics, InOrder f.body) {π : Place} {p : Place × Node}
    (hp : p ∈ Node.members π methods statics) : p.2.Ordered := by
  rcases List.mem_append.1 hp with hp | hp
  · obtain ⟨f, hf, rfl⟩ := List.mem_map.1 hp
    exact ordered_function (hm f hf)
  · obtain ⟨f, hf, rfl⟩ := List.mem_map.1 hp
    exact ordered_function (hs f hf)

theorem ordered_classDecl {span : Span} {name : Identifier} {superclass : Option Reference}
    {traits : List Reference} {ms ss : List Function} (hm : ∀ f ∈ ms, InOrder f.body)
    (hs : ∀ f ∈ ss, InOrder f.body) :
    (Node.stmt ⟨span, .classDecl name superclass traits ms ss⟩).Ordered := by
  refine .of_inner (fun π p hp => ?_) .nil
  rcases List.mem_append.1 hp with hp | hp
  · obtain ⟨r, -, rfl⟩ := List.mem_map.1 hp
    exact ordered_use _ _ _
  · exact ordered_member hm hs hp

theorem ordered_traitDecl {span : Span} {name : Identifier} {ms ss : List Function}
    (hm : ∀ f ∈ ms, InOrder f.body) (hs : ∀ f ∈ ss, InOrder f.body) :
    (Node.stmt ⟨span, .traitDecl name ms ss⟩).Ordered :=
  .of_inner (fun _ _ hp => ordered_member hm hs hp) .nil

theorem ordered_toList {α : Type} {part : Option α} {n : α → Place × Node}
    (h : ∀ a ∈ part, (n a).2.Ordered) : ∀ p ∈ part.toList.map n, p.2.Ordered := by
  intro p hp
  obtain ⟨a, ha, rfl⟩ := List.mem_map.1 hp
  exact h a (Option.mem_toList.1 ha)

theorem ordered_for {span : Span} {init : Option Stmt} {condition step : Option Expr} {body : Stmt}
    (hi : ∀ s ∈ init, (Node.stmt s).Ordered) (hc : ∀ e ∈ condition, (Node.expr e).Ordered)
    (hs : ∀ e ∈ step, (Node.expr e).Ordered) (hb : (Node.stmt body).Ordered)
    (hl : (init.toList.flatMap Stmt.declarations ++ body.declarations).Pairwise
      Identifier.Before) : (Node.stmt ⟨span, .for init condition step body⟩).Ordered := by
  refine .of_inner (fun π p hp => ?_) hl
  rcases List.mem_append.1 hp with hp | hp
  · exact ordered_toList hi p hp
  rcases List.mem_append.1 hp with hp | hp
  · exact ordered_toList hc p hp
  rcases List.mem_append.1 hp with hp | hp
  · exact ordered_toList hs p hp
  · obtain rfl := List.mem_singleton.1 hp
    exact hb

theorem ordered_ifElse {span : Span} {condition : Expr} {yes : Stmt} {no : Option Stmt}
    (hc : (Node.expr condition).Ordered) (hy : (Node.stmt yes).Ordered)
    (hn : ∀ s ∈ no, (Node.stmt s).Ordered) :
    (Node.stmt ⟨span, .ifElse condition yes no⟩).Ordered :=
  .of_inner (fun _ => List.forall_mem_cons.2 ⟨hc, List.forall_mem_cons.2 ⟨hy, ordered_toList hn⟩⟩)
    .nil

theorem ordered_while {span : Span} {condition : Expr} {body : Stmt}
    (hc : (Node.expr condition).Ordered) (hb : (Node.stmt body).Ordered) :
    (Node.stmt ⟨span, .while condition body⟩).Ordered :=
  .of_inner (fun _ => List.forall_mem_cons.2 ⟨hc, List.forall_mem_singleton.2 hb⟩) .nil

end Lexical

namespace Parser

/-! ## Declarations in a row -/

/-- Where the tokens from the current one on start. -/
def State.starts (s : State) : List Nat := s.tokens.map fun t => t.span.start.byte

def starts (names : List Identifier) : List Nat := names.map fun name => name.span.start.byte

/-- Names that start from `s` on, one behind the other, and before `t`. -/
def Between (s : State) (names : List Identifier) (t : State) : Prop :=
  (starts names ++ t.starts).Sublist s.starts

theorem between_nil {s t : State} (h : t.tokens <:+ s.tokens) : Between s [] t := by
  show t.starts.Sublist s.starts
  exact (h.map _).sublist

theorem Between.append {s t u : State} {a b : List Identifier} (h : Between s a t)
    (h' : Between t b u) : Between s (a ++ b) u := by
  unfold Between starts at *
  rw [List.map_append, List.append_assoc]
  exact (List.Sublist.append_left h' _).trans h

theorem Between.pairwise {s t : State} {names : List Identifier} (h : Between s names t)
    (hs : Row s.tokens) : names.Pairwise Identifier.Before := by
  have hstarts : s.starts.Pairwise (· < ·) := List.pairwise_map.2 hs.ordered
  have hnames : (starts names).Sublist s.starts := (List.sublist_append_left _ _).trans h
  have hpairwise := hstarts.sublist hnames
  rw [starts, List.pairwise_map] at hpairwise
  exact hpairwise

/-- A statement is in order, and what it declares stands in it. -/
structure Declares (s : State) (st : Stmt) (t : State) : Prop where
  ordered : (Node.stmt st).Ordered
  between : Between s st.declarations t

section

variable {item : Rule (Option Stmt)}
  (hi : ∀ s, Passes item s fun o t => ∀ st ∈ o, Declares s st t)
include hi

/-- What comes behind the first statement of a body. -/
theorem passes_rest {rest : Rule (List Stmt)}
    (h : ∀ s, Passes rest s fun body t =>
      (∀ st ∈ body, (Node.stmt st).Ordered) ∧ Between s (body.flatMap Stmt.declarations) t)
    (s : State) : Passes (do let first ← item; return first.toList ++ (← rest)) s fun body t =>
      (∀ st ∈ body, (Node.stmt st).Ordered) ∧ Between s (body.flatMap Stmt.declarations) t := by
  refine (hi s).bind fun first t ht hfirst => (h t).bind fun body u hu ⟨hordered, hbetween⟩ => ?_
  cases first with
  | none => exact .pure ⟨hordered, (between_nil ht).append hbetween⟩
  | some st =>
    obtain ⟨hst, hb⟩ := hfirst st rfl
    exact .pure ⟨List.forall_mem_cons.2 ⟨hst, hordered⟩, hb.append hbetween⟩

theorem passes_statements (n : Nat) : ∀ s, Passes (statements item n) s fun body t =>
    (∀ st ∈ body, (Node.stmt st).Ordered) ∧ Between s (body.flatMap Stmt.declarations) t := by
  induction n with
  | zero => exact fun _ => .throw
  | succ n ih =>
    intro s
    refine (reaches_atEnd s).bind fun b t ht _ => ?_
    cases b with
    | true => exact (reaches_currentToken t).bind fun _ _ _ _ => .throw
    | false =>
      refine (reaches_skipSymbol _ t).bind fun b u hu _ => ?_
      have hsu := hu.trans ht
      cases b with
      | true => exact .pure ⟨List.forall_mem_nil _, between_nil hsu⟩
      | false =>
        exact (passes_rest hi ih u).mono fun _ _ _ ⟨ho, hb⟩ => ⟨ho, (between_nil hsu).append hb⟩

theorem passes_program (n : Nat) : ∀ s, Passes (program item n) s fun body t =>
    (∀ st ∈ body, (Node.stmt st).Ordered) ∧ Between s (body.flatMap Stmt.declarations) t := by
  induction n with
  | zero => exact fun _ => .throw
  | succ n ih =>
    intro s
    refine (reaches_atEnd s).bind fun b t ht _ => ?_
    cases b with
    | true => exact .pure ⟨List.forall_mem_nil _, between_nil ht⟩
    | false =>
      exact (passes_rest hi ih t).mono fun _ _ _ ⟨ho, hb⟩ => ⟨ho, (between_nil ht).append hb⟩

theorem makes_statements (n : Nat) : Makes (statements item n) InOrder := fun s hs => by
  obtain ⟨hok, herror⟩ := passes_statements hi n s hs
  refine ⟨fun body t ht => ?_, herror⟩
  obtain ⟨hsuffix, hordered, hbetween⟩ := hok body t ht
  exact ⟨hsuffix, hordered, hbetween.pairwise hs⟩

end

/-! ## Functions and their owners -/

theorem between_name {s t : State} {name : Identifier} {token : Token} {rest : List Token}
    (hs : s.tokens = token :: rest) (hspan : token.span = name.span) (ht : t.tokens <:+ rest) :
    Between s [name] t := by
  have hstarts : s.starts = name.span.start.byte :: rest.map fun t => t.span.start.byte := by
    rw [State.starts, hs, List.map_cons, hspan]
  show (name.span.start.byte :: t.starts).Sublist s.starts
  rw [hstarts]
  exact (ht.map _).sublist.cons_cons _

/-- A name, and what comes behind it. -/
theorem passes_named {α : Type} {f : Identifier → Rule α} {otherwise : ParseErrorKind}
    {P : Identifier → α → Prop} (h : ∀ name, Makes (f name) (P name)) (s : State) :
    Passes (identifier otherwise >>= f) s fun a t => ∃ name, P name a ∧ Between s [name] t :=
  (passes_identifier otherwise s).bind fun name t _ ⟨_, _, hs, hspan, ht⟩ =>
    (h name t).mono fun _ _ hu hp => ⟨name, hp, between_name hs hspan (hu.trans ht)⟩

section

variable {body : Rule (List Stmt)} (hb : Makes body InOrder)
include hb

theorem passes_namedFunction (isMember : Bool) (n : Nat) (s : State) :
    Passes (namedFunction body isMember n) s fun f t => InOrder f.body ∧ Between s [f.name] t := by
  refine (reaches_currentToken s).bind fun first t ht _ => ?_
  refine (passes_named (P := fun name f => InOrder f.body ∧ f.name = name) (fun name => ?_) t).mono
    ?_
  · refine (reaches_atSymbol _).bind fun brace _ => ?_
    have hbehind (isGetter : Bool) (params : List Identifier) : Makes (do
        expect .leftBrace (.expectedBefore .leftBrace .functionBody)
        let body ← body
        return ⟨name, params, body, isGetter, ← spanFrom first.span⟩ : Rule Function)
          fun f => InOrder f.body ∧ f.name = name :=
      (reaches_expect _ _).bind fun _ _ => hb.bind fun _ hbody =>
        (reaches_spanFrom _).bind fun _ _ => .pure ⟨hbody, rfl⟩
    cases hg : isMember && brace with
    | true => exact Makes.bind (.pure trivial) fun _ (_ : True) => hbehind _ _
    | false => exact (reaches_parameters n).bind fun _ _ => hbehind _ _
  · rintro f u hu ⟨name, ⟨hf, rfl⟩, hbetween⟩
    exact ⟨hf, (between_nil ht).append hbetween⟩

theorem makes_namedFunction (isMember : Bool) (n : Nat) :
    Makes (namedFunction body isMember n) fun f => InOrder f.body :=
  fun s => (passes_namedFunction hb isMember n s).mono fun _ _ _ h => h.1

theorem makes_members (n k : Nat) : Makes (members (namedFunction body true k) n) fun fs =>
    (∀ f ∈ fs.1, InOrder f.body) ∧ ∀ f ∈ fs.2, InOrder f.body := by
  induction n with
  | zero => exact .throw
  | succ n ih =>
    have hf := makes_namedFunction hb true k
    refine (reaches_skipSymbol _).bind fun b _ => ?_
    cases b with
    | true => exact .pure ⟨List.forall_mem_nil _, List.forall_mem_nil _⟩
    | false =>
      refine reaches_atEnd.bind fun b _ => ?_
      cases b with
      | true => exact reaches_currentToken.bind fun _ _ => .throw
      | false =>
        refine (reaches_skipKeyword _).bind fun b _ => ?_
        cases b with
        | true =>
          exact hf.bind fun _ hf => ih.bind fun _ ⟨hms, hss⟩ =>
            .pure ⟨hms, List.forall_mem_cons.2 ⟨hf, hss⟩⟩
        | false =>
          exact hf.bind fun _ hf => ih.bind fun _ ⟨hms, hss⟩ =>
            .pure ⟨List.forall_mem_cons.2 ⟨hf, hms⟩, hss⟩

end

/-! ## Declarations -/

theorem Makes.some {α : Type} {rule : Rule α} {P : α → Prop} (h : Makes rule P) :
    Makes (some <$> rule) fun o => ∀ a ∈ o, P a :=
  .map (h.mono fun _ hp _ heq => by cases heq; exact hp)

theorem Makes.none {α : Type} {P : α → Prop} : Makes (Pure.pure Option.none : Rule (Option α))
    fun o => ∀ a ∈ o, P a := .pure fun _ h => by cases h

theorem reaches_reference (otherwise : ParseErrorKind) : Reaches (reference otherwise) :=
  (reaches_identifier _).bind fun _ _ => reaches_freshId.bind fun _ _ => .pure trivial

theorem reaches_traitNames (n : Nat) : Reaches (traitNames n) := by
  induction n with
  | zero => exact .throw
  | succ n ih =>
    refine (reaches_reference _).bind fun _ _ => (reaches_skipSymbol _).bind fun b _ => ?_
    cases b with
    | true => exact ih.bind fun _ _ => .pure trivial
    | false => exact .pure trivial

theorem reaches_superclassClause : Reaches superclassClause := by
  refine (reaches_skipSymbol _).bind fun b _ => ?_
  cases b with
  | true => exact .map ((reaches_reference _).mono fun _ _ => trivial)
  | false => exact .pure trivial

theorem reaches_traitsClause (n : Nat) : Reaches (traitsClause n) := by
  refine (reaches_skipSymbol _).bind fun b _ => ?_
  cases b with
  | true => exact reaches_traitNames n
  | false => exact .pure trivial

/-- A declaration is in order and declares just one name. -/
def DeclaresOnly (name : Identifier) (node : Stmt.Node) : Prop :=
  ∀ span, (Node.stmt ⟨span, node⟩).Ordered ∧ Stmt.declarations ⟨span, node⟩ = [name]

/-- A declaration is read from its keyword on. -/
theorem passes_declaring {node : Rule Stmt.Node}
    (h : ∀ s, Passes node s fun node t => ∃ name, DeclaresOnly name node ∧ Between s [name] t)
    (s : State) : Passes (stmt (advance >>= fun _ => node)) s (Declares s) := by
  refine (reaches_currentToken s).bind fun first s₁ h₁ _ => ?_
  refine Passes.bind (P := fun node t => ∃ name, DeclaresOnly name node ∧ Between s [name] t) ?_ ?_
  · refine (reaches_advance s₁).bind fun _ s₂ h₂ _ => (h s₂).mono ?_
    rintro node t - ⟨name, hnode, hbetween⟩
    exact ⟨name, hnode, (between_nil (h₂.trans h₁)).append hbetween⟩
  · rintro node t - ⟨name, hnode, hbetween⟩
    refine (reaches_spanFrom first.span t).bind fun span u hu _ => .pure ⟨(hnode span).1, ?_⟩
    rw [(hnode span).2]
    exact hbetween.append (between_nil hu)

section

variable {expression : Rule Expr} (he : Makes expression fun e => (Node.expr e).Ordered)
include he

theorem makes_varBehind (name : Identifier) : Makes (do
    let init ← if ← skipSymbol .equal then some <$> expression else pure none
    expect .semicolon (.expectedAfter .semicolon .variableDeclaration)
    return .varDecl name init) (DeclaresOnly name) := by
  have hbehind (init : Option Expr) (hi : ∀ e ∈ init, (Node.expr e).Ordered) :
      Makes (do
        expect .semicolon (.expectedAfter .semicolon .variableDeclaration)
        return .varDecl name init) (DeclaresOnly name) :=
    (reaches_expect _ _).bind fun _ _ => .pure fun span =>
      ⟨.of_inner (fun _ => ordered_toList hi) .nil, rfl⟩
  refine (reaches_skipSymbol _).bind fun b _ => ?_
  cases b with
  | true => exact he.some.bind hbehind
  | false => exact Makes.none.bind hbehind

theorem passes_varDecl (s : State) : Passes (stmt (varDecl expression)) s (Declares s) :=
  passes_declaring (passes_named (makes_varBehind he)) s

end

section

variable {body : Rule (List Stmt)} (hb : Makes body InOrder)
include hb

theorem passes_funDecl (n : Nat) (s : State) :
    Passes (stmt (funDecl body n)) s (Declares s) := by
  refine passes_declaring (fun s => ?_) s
  refine (passes_namedFunction hb false n s).bind fun f t _ ⟨hf, hbetween⟩ => .pure ⟨f.name, ?_, hbetween⟩
  refine fun span => ⟨.of_inner (fun _ => List.forall_mem_singleton.2 (ordered_function hf)) .nil, rfl⟩

theorem passes_classDecl (n : Nat) (s : State) :
    Passes (stmt (classDecl body n)) s (Declares s) := by
  rw [classDecl_eq]
  refine passes_declaring (passes_named fun name => ?_) s
  exact reaches_superclassClause.bind fun _ _ => (reaches_traitsClause n).bind fun _ _ =>
    (reaches_expect _ _).bind fun _ _ => (makes_members hb n n).bind fun _ ⟨hms, hss⟩ =>
      .pure fun span => ⟨ordered_classDecl hms hss, rfl⟩

theorem passes_traitDecl (n : Nat) (s : State) :
    Passes (stmt (traitDecl body n)) s (Declares s) := by
  refine passes_declaring (passes_named fun name => ?_) s
  exact (reaches_expect _ _).bind fun _ _ => (makes_members hb n n).bind fun _ ⟨hms, hss⟩ =>
    .pure fun span => ⟨ordered_traitDecl hms hss, rfl⟩

end

/-! ## Statements -/

/-- A statement is in order and declares nothing around it. -/
def IsQuiet (s : Stmt) : Prop := (Node.stmt s).Ordered ∧ s.declarations = []

section

variable {expression : Rule Expr} {statement : Rule Stmt}
  (he : Makes expression fun e => (Node.expr e).Ordered) (hst : Makes statement IsQuiet)

include he

theorem makes_expressionStmt :
    Makes (expressionStmt expression) fun node => ∀ span, IsQuiet ⟨span, node⟩ :=
  he.bind fun _ he => (reaches_expect _ _).bind fun _ _ => .pure fun _ =>
    ⟨.of_inner (fun _ => List.forall_mem_singleton.2 he) .nil, rfl⟩

theorem makes_printStmt :
    Makes (printStmt expression) fun node => ∀ span, IsQuiet ⟨span, node⟩ :=
  reaches_advance.bind fun _ _ => he.bind fun _ he => (reaches_expect _ _).bind fun _ _ =>
    .pure fun _ => ⟨.of_inner (fun _ => List.forall_mem_singleton.2 he) .nil, rfl⟩

theorem makes_optional (close : Symbol) :
    Makes (optional expression close) fun o => ∀ e ∈ o, (Node.expr e).Ordered := by
  refine (reaches_atSymbol _).bind fun b _ => ?_
  cases b with
  | true => exact .none
  | false => exact he.some

theorem makes_returnStmt :
    Makes (returnStmt expression) fun node => ∀ span, IsQuiet ⟨span, node⟩ :=
  reaches_advance.bind fun _ _ => (makes_optional he _).bind fun _ hv =>
    (reaches_expect _ _).bind fun _ _ => .pure fun _ =>
      ⟨.of_inner (fun _ => ordered_toList hv) .nil, rfl⟩

/-- The first clause of a `for` declares at most one name. -/
theorem makes_forInit : Makes (forInit expression) fun init =>
    (∀ s ∈ init, (Node.stmt s).Ordered) ∧
      (init.toList.flatMap Stmt.declarations).Pairwise Identifier.Before := by
  have hclause {rule : Rule Stmt} (h : Makes rule fun s => (Node.stmt s).Ordered ∧
      s.declarations.Pairwise Identifier.Before) :
      Makes (some <$> rule) fun init => (∀ s ∈ init, (Node.stmt s).Ordered) ∧
        (init.toList.flatMap Stmt.declarations).Pairwise Identifier.Before :=
    h.bind fun st ⟨ho, hd⟩ => .pure ⟨fun _ heq => by cases heq; exact ho, by
      rw [Option.toList_some, List.flatMap_singleton]
      exact hd⟩
  refine (reaches_skipSymbol _).bind fun b _ => ?_
  cases b with
  | true => exact .pure ⟨fun _ h => (nomatch h), .nil⟩
  | false =>
    refine reaches_currentToken.bind fun token _ => ?_
    split
    · refine hclause fun s hs => ?_
      obtain ⟨hok, herror⟩ := passes_varDecl he s hs
      refine ⟨fun st t ht => ?_, herror⟩
      obtain ⟨hsuffix, ho, hb⟩ := hok st t ht
      exact ⟨hsuffix, ho, hb.pairwise hs⟩
    · refine hclause (makes_stmt ((makes_expressionStmt he).mono fun node h span => ?_))
      obtain ⟨ho, hd⟩ := h span
      exact ⟨ho, by rw [hd]; exact .nil⟩

include hst

theorem makes_ifStmt :
    Makes (ifStmt expression statement) fun node => ∀ span, IsQuiet ⟨span, node⟩ := by
  refine reaches_advance.bind fun _ _ => (reaches_expect _ _).bind fun _ _ =>
    he.bind fun condition hc => (reaches_expect _ _).bind fun _ _ =>
      hst.bind fun yes ⟨hy, hyd⟩ => (reaches_skipKeyword _).bind fun b _ => ?_
  have hbehind (no : Option Stmt) (hn : ∀ s ∈ no, IsQuiet s) (span : Span) :
      IsQuiet ⟨span, .ifElse condition yes no⟩ := by
    refine ⟨ordered_ifElse hc hy fun s hs => (hn s hs).1, ?_⟩
    cases no with
    | none => rw [Stmt.declarations, hyd]; rfl
    | some s => rw [Stmt.declarations, hyd, (hn s rfl).2]; rfl
  cases b with
  | true => exact hst.some.bind fun no hn => .pure (hbehind no hn)
  | false => exact Makes.none.bind fun no hn => .pure (hbehind no hn)

theorem makes_whileStmt :
    Makes (whileStmt expression statement) fun node => ∀ span, IsQuiet ⟨span, node⟩ :=
  reaches_advance.bind fun _ _ => (reaches_expect _ _).bind fun _ _ =>
    he.bind fun _ hc => (reaches_expect _ _).bind fun _ _ => hst.bind fun _ ⟨hb, hbd⟩ =>
      .pure fun _ => ⟨ordered_while hc hb, hbd⟩

theorem makes_forStmt :
    Makes (forStmt expression statement) fun node => ∀ span, IsQuiet ⟨span, node⟩ :=
  reaches_advance.bind fun _ _ => (reaches_expect _ _).bind fun _ _ =>
    (makes_forInit he).bind fun init ⟨hi, hl⟩ => (makes_optional he _).bind fun _ hc =>
      (reaches_expect _ _).bind fun _ _ => (makes_optional he _).bind fun _ hs =>
        (reaches_expect _ _).bind fun _ _ => hst.bind fun body ⟨hb, hbd⟩ =>
          .pure fun _ => ⟨ordered_for hi hc hs hb (by rwa [hbd, List.append_nil]), rfl⟩

end

theorem makes_loopControl {node : Stmt.Node} (h : node = .break ∨ node = .continue) :
    Makes (loopControl node) fun node => ∀ span, IsQuiet ⟨span, node⟩ :=
  reaches_advance.bind fun _ _ => (reaches_expect _ _).bind fun _ _ => .pure fun _ => by
    rcases h with rfl | rfl <;> exact ⟨.of_inner (fun _ _ hp => by cases hp) .nil, rfl⟩

theorem makes_blockStmt {body : Rule (List Stmt)} (hb : Makes body InOrder) :
    Makes (do advance; return .block (← body)) fun node => ∀ span, IsQuiet ⟨span, node⟩ :=
  reaches_advance.bind fun _ _ => hb.bind fun _ hbody => .pure fun _ =>
    ⟨.of_inner (fun _ => List.forall_mem_singleton.2 (ordered_stmts hbody.inside)) hbody.around, rfl⟩

/-! ## Expressions -/

/-- An expression is in order, and so are its operands. -/
def IsOrdered (e : Expr) : Prop :=
  (Node.expr e).Ordered ∧ ∀ operand ∈ e.node.operands, (Node.expr operand).Ordered

theorem isOrdered_of_operands {node : Expr.Node} (h : ∀ e ∈ node.operands, (Node.expr e).Ordered)
    (hn : ∀ f, node ≠ .lambda f) (id : ExprId) (span : Span) : IsOrdered ⟨id, span, node⟩ :=
  ⟨ordered_expr h fun f hf => absurd hf (hn f), h⟩

theorem makes_assignment {target value : Expr} (ht : IsOrdered target) (hv : IsOrdered value)
    (operator : Span) :
    Makes (assignment target value operator) fun node => ∀ id span, IsOrdered ⟨id, span, node⟩ := by
  obtain ⟨id, span, node⟩ := target
  have ho := ht.2
  cases node with
  | «variable» name =>
    exact .pure (isOrdered_of_operands (List.forall_mem_singleton.2 hv.1) nofun)
  | get object property =>
    exact .pure (isOrdered_of_operands (List.forall_mem_cons.2
      ⟨ho object (List.mem_singleton_self _), List.forall_mem_singleton.2 hv.1⟩) nofun)
  | index array position =>
    obtain ⟨ha, hp⟩ := List.forall_mem_cons.1 ho
    exact .pure (isOrdered_of_operands (List.forall_mem_cons.2
      ⟨ha, List.forall_mem_cons.2 ⟨hp _ (List.mem_singleton_self _),
        List.forall_mem_singleton.2 hv.1⟩⟩) nofun)
  | _ => exact .throw

section

variable {expression : Level → Rule Expr} (he : ∀ outer, Makes (expression outer) IsOrdered)
include he

theorem makes_ordered (outer : Level) :
    Makes (expression outer) fun e => (Node.expr e).Ordered :=
  (he outer).mono fun _ h => h.1

theorem makes_continuation {left : Expr} (hl : IsOrdered left) (op : Operator) (n : Nat) :
    Makes (continuation expression left op n) fun node =>
      ∀ id span, IsOrdered ⟨id, span, node⟩ := by
  refine reaches_currentToken.bind fun token _ => ?_
  cases op with
  | binary op =>
    exact reaches_advance.bind fun _ _ => (he _).bind fun _ hr => .pure (isOrdered_of_operands
      (List.forall_mem_cons.2 ⟨hl.1, List.forall_mem_singleton.2 hr.1⟩) nofun)
  | logical op =>
    exact reaches_advance.bind fun _ _ => (he _).bind fun _ hr => .pure (isOrdered_of_operands
      (List.forall_mem_cons.2 ⟨hl.1, List.forall_mem_singleton.2 hr.1⟩) nofun)
  | assign =>
    exact reaches_advance.bind fun _ _ => (he _).bind fun _ hv => makes_assignment hl hv _
  | ternary =>
    exact reaches_advance.bind fun _ _ => (he _).bind fun _ hy =>
      (reaches_expect _ _).bind fun _ _ => (he _).bind fun _ hn => .pure (isOrdered_of_operands
        (List.forall_mem_cons.2 ⟨hl.1, List.forall_mem_cons.2
          ⟨hy.1, List.forall_mem_singleton.2 hn.1⟩⟩) nofun)
  | call =>
    exact (makes_arguments (makes_ordered he _) n).bind fun _ hargs => .pure
      (isOrdered_of_operands (List.forall_mem_cons.2 ⟨hl.1, hargs⟩) nofun)
  | index =>
    exact reaches_advance.bind fun _ _ => (he _).bind fun _ hp =>
      (reaches_expect _ _).bind fun _ _ => .pure (isOrdered_of_operands
        (List.forall_mem_cons.2 ⟨hl.1, List.forall_mem_singleton.2 hp.1⟩) nofun)
  | property =>
    exact reaches_advance.bind fun _ _ => (reaches_identifier _).bind fun _ _ => .pure
      (isOrdered_of_operands (List.forall_mem_singleton.2 hl.1) nofun)

end

/-- What a primary expression is made of comes in the order of its tokens. -/
theorem makes_primary {expression : Rule Expr} {body : Rule (List Stmt)}
    (he : Makes expression IsOrdered) (hb : Makes body InOrder) (n : Nat) :
    Makes (primary expression body n) IsOrdered := by
  have hordered : Makes expression fun e => (Node.expr e).Ordered := he.mono fun _ h => h.1
  have hleaf {node : Expr.Node} (hn : ∀ f, node ≠ .lambda f) (ho : node.operands = []) :
      Makes (pure node : Rule Expr.Node) fun node => ∀ id span, IsOrdered ⟨id, span, node⟩ :=
    .pure (isOrdered_of_operands (by rw [ho]; exact List.forall_mem_nil _) hn)
  rw [primary_eq]
  refine reaches_advance.bind fun _ _ => reaches_previousToken.bind fun token _ =>
    Makes.bind ?_ fun _ hnode => makes_expr hnode
  obtain ⟨kind, span⟩ := token
  cases kind with
  | number x => exact hleaf nofun rfl
  | string text => exact hleaf nofun rfl
  | identifier name => exact hleaf nofun rfl
  | keyword word =>
    cases word with
    | true | false | nil | this => exact hleaf nofun rfl
    | super =>
      exact (reaches_expect _ _).bind fun _ _ => (reaches_identifier _).bind fun _ _ =>
        hleaf nofun rfl
    | «fun» =>
      refine (reaches_parameters n).bind fun _ _ => (reaches_expect _ _).bind fun _ _ =>
        hb.bind fun _ hbody => (reaches_spanFrom _).bind fun _ _ => .pure fun _ _ =>
          ⟨ordered_expr (List.forall_mem_nil _) ?_, List.forall_mem_nil _⟩
      rintro _ ⟨⟩
      exact ordered_function hbody
    | _ => exact .throw
  | symbol sym =>
    cases sym with
    | leftParen =>
      exact he.bind fun _ hi => (reaches_expect _ _).bind fun _ _ => .pure
        (isOrdered_of_operands (List.forall_mem_singleton.2 hi.1) nofun)
    | leftBracket =>
      exact .map ((makes_commaSeparated hordered _ n).mono fun _ hes =>
        isOrdered_of_operands hes nofun)
    | _ => exact .throw
  | _ => exact .throw

/-! ## All rules -/

/-- What all rules make with so much fuel. -/
structure OrderedRules (n : Nat) : Prop where
  expression : ∀ outer, Makes (Parser.expression n outer) IsOrdered
  operators : ∀ outer left, IsOrdered left → Makes (Parser.operators n outer left) IsOrdered
  block : Makes (Parser.block n) InOrder
  declaration : ∀ s, Passes (Parser.declaration n) s (Declares s)
  statement : Makes (Parser.statement n) IsQuiet

theorem makes_expression {n : Nat} (ih : OrderedRules n) (outer : Level) :
    Makes (Parser.expression (n + 1) outer) IsOrdered := by
  refine reaches_currentToken.bind fun token _ => ?_
  cases unaryOp? token.kind with
  | some op =>
    refine reaches_advance.bind fun _ _ => (ih.expression _).bind fun operand ho =>
      Makes.bind (P := IsOrdered) (makes_expr fun id span => ?_) fun e => ih.operators outer e
    have hoperands : ∀ e ∈ (Expr.Node.unary op operand).operands, (Node.expr e).Ordered :=
      List.forall_mem_singleton.2 ho.1
    exact isOrdered_of_operands hoperands nofun id span
  | none =>
    exact (makes_primary (ih.expression _) ih.block n).bind fun e => ih.operators outer e

theorem makes_operators {n : Nat} (ih : OrderedRules n) (outer : Level) (left : Expr)
    (hl : IsOrdered left) : Makes (operators (n + 1) outer left) IsOrdered := by
  refine reaches_currentToken.bind fun token _ => ?_
  cases Operator.ofToken? token.kind with
  | none => exact .pure hl
  | some op =>
    dsimp only
    split
    · exact (makes_continuation ih.expression hl op n).bind fun _ hnode =>
        (makes_expr hnode).bind fun e => ih.operators outer e
    · exact .pure hl

theorem makes_statement {n : Nat} (ih : OrderedRules n) :
    Makes (statement (n + 1)) IsQuiet := by
  have he := makes_ordered ih.expression .lowest
  have hexpr : Makes (stmt (expressionStmt (Parser.expression n .lowest))) IsQuiet :=
    makes_stmt (makes_expressionStmt he)
  refine reaches_currentToken.bind fun token _ => ?_
  cases token.kind with
  | keyword word =>
    cases word with
    | print => exact makes_stmt (makes_printStmt he)
    | «if» => exact makes_stmt (makes_ifStmt he ih.statement)
    | «while» => exact makes_stmt (makes_whileStmt he ih.statement)
    | «for» => exact makes_stmt (makes_forStmt he ih.statement)
    | «return» => exact makes_stmt (makes_returnStmt he)
    | «break» => exact makes_stmt (makes_loopControl (.inl rfl))
    | «continue» => exact makes_stmt (makes_loopControl (.inr rfl))
    | _ => exact hexpr
  | symbol sym =>
    cases sym with
    | leftBrace => exact makes_stmt (makes_blockStmt ih.block)
    | _ => exact hexpr
  | _ => exact hexpr

theorem passes_declaration {n : Nat} (ih : OrderedRules n) (s : State) :
    Passes (declaration (n + 1)) s (Declares s) := by
  have hstatement (t : State) (ht : t.tokens <:+ s.tokens) :
      Passes (statement n) t (Declares s) :=
    (ih.statement t).mono fun st u hu ⟨ho, hd⟩ => ⟨ho, by
      rw [hd]
      exact between_nil (hu.trans ht)⟩
  have hdeclares {rule : Rule Stmt} (t : State) (ht : t.tokens <:+ s.tokens)
      (h : Passes rule t (Declares t)) : Passes rule t (Declares s) :=
    h.mono fun st u hu ⟨ho, hd⟩ => ⟨ho, (between_nil ht).append hd⟩
  have he := makes_ordered ih.expression .lowest
  refine (reaches_currentToken s).bind fun token t ht _ => ?_
  cases token.kind with
  | keyword word =>
    cases word with
    | var => exact hdeclares t ht (passes_varDecl he t)
    | «fun» => exact hdeclares t ht (passes_funDecl ih.block n t)
    | klass => exact hdeclares t ht (passes_classDecl ih.block n t)
    | trait => exact hdeclares t ht (passes_traitDecl ih.block n t)
    | _ => exact hstatement t ht
  | _ => exact hstatement t ht

theorem orderedRules (n : Nat) : OrderedRules n := by
  induction n with
  | zero =>
    exact { expression := fun _ => .throw
            operators := fun _ _ _ => .throw
            block := .throw
            declaration := fun _ => .throw
            statement := .throw }
  | succ n ih =>
    exact { expression := makes_expression ih
            operators := makes_operators ih
            block := makes_statements (fun s => (ih.declaration s).recover) n
            declaration := passes_declaration ih
            statement := makes_statement ih }

/-! ## Texts -/

theorem Row.ofTiles {before text : List Char} {tokens : List Token}
    (h : Token.Tiles before text tokens) : Row tokens ∧ tokens ≠ [] := by
  induction h with
  | endOfFile =>
    refine ⟨⟨List.pairwise_singleton _ _, fun t ht => ?_⟩, List.cons_ne_nil _ _⟩
    cases ht
    rfl
  | @lexeme before gap text rest kind tokens hg hl ht ih =>
    obtain ⟨hrow, hne⟩ := ih
    refine ⟨⟨.cons (fun t hmem => ?_) hrow.ordered, ?_⟩, List.cons_ne_nil _ _⟩
    · exact Nat.lt_of_lt_of_le (hl.byte_lt _) (ht.byte_le hmem)
    · rw [List.getLast?_cons_of_ne_nil hne]
      exact hrow.ended

theorem State.row_start (source : String) (firstId : ExprId) :
    Row (start (Token.ofSource source) firstId).tokens := by
  obtain ⟨hrow, hne⟩ := Row.ofTiles (Token.tiles_ofSource source)
  exact hrow.suffix (State.tokens_shift _ hrow hne) (List.cons_ne_nil _ _)

end Parser

/-- In a text that is read the declarations of every scope stand in the order of the tree. -/
theorem inOrder_of_parse {source : String} {firstId : ExprId} {tree : Tree}
    (h : Tree.parse source firstId = .ok tree) : InOrder tree.body := by
  obtain ⟨s, hrun, -, -⟩ := Tree.parse_eq_ok.1 h
  have hrow := Parser.State.row_start source firstId
  obtain ⟨-, ho, hb⟩ := (Parser.passes_program (fun s =>
    ((Parser.orderedRules _).declaration s).recover) _ _ hrow).1 _ s hrun
  exact ⟨ho, hb.pairwise hrow⟩

end Lox

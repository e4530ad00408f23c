import Lox.Proofs.Syntax.Reads

/-!
# Rules read what the grammar derives

A rule that ends well with no error reported has read tokens that the grammar derives, with its
result as their tree, and has given each expression of it an identity of its own.

    Reads (declaration n) s fun d t ts =>
      Derives Within (.declaration d) ts ∧ Fresh s.nextId t.nextId d.ids                   (rules)
-/

namespace Lox.Parser

open Grammar

/-- How many arguments and parameters are allowed. -/
def Within (n : Nat) : Prop := n ≤ maxArgs

/-! ## Levels -/

/-- The stratum of what is read inside a level. -/
def stratumInside : Level → Stratum
  | .lowest | .assignment => .assignment
  | .ternary => .ternary
  | .or => .and
  | .and => .equality
  | .equality => .comparison
  | .comparison => .term
  | .addition => .factor
  | .multiplication | .unary | .property | .call => .unary

/-- No operator comes that binds inside the level. -/
def Stops (outer : Level) (k : Token.Kind) : Prop :=
  ∀ op, Operator.ofToken? k = some op → op.bindsInside outer = false

/-! ## Lists -/

/-- A whole expression has been read. -/
def IsExpression (s : State) (e : Expr) (t : State) (ts : Tokens) : Prop :=
  Derives Within (.expr .assignment e) ts ∧ Fresh s.nextId t.nextId e.ids

/-- Declarations and a closing brace have been read. -/
def IsBlock (s : State) (body : List Stmt) (t : State) (ts : Tokens) : Prop :=
  ∃ us, ts = us ++ [.symbol .rightBrace] ∧ Derives Within (.declarations body) us ∧
    Fresh s.nextId t.nextId (Stmt.idsOf body)

variable {expression : Rule Expr} {body : Rule (List Stmt)} {s : State}

theorem reads_furtherItems (he : ∀ s, Reads expression s (IsExpression s)) (close : Symbol)
    (n : Nat) : ∀ s, Reads (commaSeparatedTail close expression n) s fun es t ts =>
      ∃ us, ts = us ++ [.symbol close] ∧ Derives Within (.furtherItems es) us ∧
        Fresh s.nextId t.nextId (Expr.idsOf es) := by
  induction n with
  | zero => exact fun _ => .outOfFuel
  | succ n ih =>
    intro s
    refine (reads_skipSymbol close).bind fun b t => ?_
    cases b with
    | true => exact .pure fun us _ hus => ⟨[], by simpa using hus, .noFurtherItems, .nil⟩
    | false =>
      refine (reads_expect .comma _).bind fun _ t₁ => (he t₁).bind fun e t₂ =>
        (ih t₂).bind fun es t₃ => .pure ?_
      rintro _ hn₃ ⟨vs, rfl, hes, hf⟩ us hn₂ ⟨hd, hfe⟩ _ hn₁ rfl _ hn rfl
      refine ⟨.symbol .comma :: (us ++ vs), by simp, .someFurtherItems hd hes, ?_⟩
      exact (hfe.append hf hn₂ hn₃).mono (Nat.le_trans hn hn₁) (Nat.le_refl _)

theorem reads_items (he : ∀ s, Reads expression s (IsExpression s)) (close : Symbol) (n : Nat) :
    Reads (commaSeparated close expression n) s fun es t ts =>
      ∃ us, ts = us ++ [.symbol close] ∧ Derives Within (.items es) us ∧
        Fresh s.nextId t.nextId (Expr.idsOf es) := by
  refine (reads_skipSymbol close).bind fun b t => ?_
  cases b with
  | true => exact .pure fun us _ hus => ⟨[], by simpa using hus, .noItems, .nil⟩
  | false =>
    refine (he t).bind fun e t₂ => (reads_furtherItems he close n t₂).bind fun es t₃ => .pure ?_
    rintro _ hn₃ ⟨vs, rfl, hes, hf⟩ us hn₂ ⟨hd, hfe⟩ _ hn rfl
    refine ⟨us ++ vs, by simp, .someItems hd hes, ?_⟩
    exact (hfe.append hf hn₂ hn₃).mono hn (Nat.le_refl _)

theorem reads_arguments (he : ∀ s, Reads expression s (IsExpression s)) (n : Nat)
    (hs : s.current.kind = .symbol .leftParen) :
    Reads (arguments expression n) s fun es t ts =>
      ∃ us, ts = .symbol .leftParen :: (us ++ [.symbol .rightParen]) ∧
        Derives Within (.items es) us ∧ Within es.length ∧
        Fresh s.nextId t.nextId (Expr.idsOf es) := by
  refine (reads_advance_of hs (by simp)).bind fun _ t =>
    (reads_items he .rightParen n).bind fun es t₂ =>
      (reads_reportSurplus _ _ es).bind fun _ t₃ => .pure ?_
  rintro _ hn₃ ⟨rfl, hle, hn⟩ _ hn₂ ⟨us, rfl, hd, hf⟩ _ hn₁ ⟨-, rfl⟩
  exact ⟨us, by simp, hd, hle, hf.mono hn₁ hn₃⟩

theorem reads_furtherNames (otherwise : ParseErrorKind) (close : Symbol) (n : Nat) :
    ∀ s, Reads (commaSeparatedTail close (identifier otherwise) n) s fun names _ ts =>
      ts = (names.flatMap fun other => [.symbol .comma, .identifier other.name]) ++
        [.symbol close] := by
  induction n with
  | zero => exact fun _ => .outOfFuel
  | succ n ih =>
    intro s
    refine (reads_skipSymbol close).bind fun b t => ?_
    cases b with
    | true => exact .pure fun us _ hus => by simpa using hus
    | false =>
      refine (reads_expect .comma _).bind fun _ t₁ => (reads_identifier _).bind fun name t₂ =>
        (ih t₂).bind fun names t₃ => .pure ?_
      rintro _ - rfl _ - ⟨rfl, -⟩ _ - rfl _ - rfl
      simp

theorem reads_parameters (n : Nat) :
    Reads (parameters n) s fun params _ ts =>
      ts = .symbol .leftParen :: (names params ++ [.symbol .rightParen]) ∧
        Within params.length := by
  refine (reads_expect _ _).bind fun _ t => Reads.bind (P := fun params _ ts =>
    ts = names params ++ [.symbol .rightParen]) ?_ fun params t₂ =>
      (reads_reportSurplus _ _ params).bind fun _ t₃ => .pure ?_
  · refine (reads_skipSymbol _).bind fun b t => ?_
    cases b with
    | true => exact .pure fun us _ hus => by simpa [names] using hus
    | false =>
      refine (reads_identifier _).bind fun name t₂ =>
        (reads_furtherNames _ _ n t₂).bind fun rest t₃ => .pure ?_
      rintro _ - rfl _ - ⟨rfl, -⟩ _ - rfl
      simp [names]
  · rintro _ - ⟨rfl, hle, -⟩ _ - rfl _ - rfl
    exact ⟨by simp, hle⟩

/-- A declaration has been read. -/
def IsDeclaration (s : State) (st : Stmt) (t : State) (ts : Tokens) : Prop :=
  Derives Within (.declaration st) ts ∧ Fresh s.nextId t.nextId st.ids

/-- A statement has been read, and an `else` that belongs to it. -/
def IsStatement (s : State) (st : Stmt) (t : State) (ts : Tokens) : Prop :=
  Derives Within (.statement st) ts ∧ (isOpen st = true → t.current.kind ≠ .keyword .else) ∧
    Fresh s.nextId t.nextId st.ids

theorem reads_statements {item : Rule (Option Stmt)}
    (hi : ∀ s, Reads item s fun o t ts => ∃ st, o = some st ∧ IsDeclaration s st t ts) (n : Nat) :
    ∀ s, Reads (statements item n) s (IsBlock s) := by
  induction n with
  | zero => exact fun _ => .outOfFuel
  | succ n ih =>
    intro s
    refine reads_atEnd.bind fun b t => ?_
    cases b with
    | true => exact .current .fail
    | false =>
      refine (reads_skipSymbol _).bind fun b t₁ => ?_
      cases b with
      | true =>
        refine .pure fun us _ hus vs _ ⟨_, hvs, _⟩ => ⟨[], ?_, .noDeclarations, .nil⟩
        simp [hus, hvs]
      | false =>
        refine (hi t₁).bind fun o t₂ => (ih t₂).bind fun ss t₃ => .pure ?_
        rintro _ hn₃ ⟨vs, rfl, hss, hf⟩ us hn₂ ⟨st, rfl, hst, hfst⟩ _ hn₁ rfl _ hn ⟨-, rfl, -⟩
        refine ⟨us ++ vs, by simp, .someDeclarations hst hss, ?_⟩
        exact (hfst.append hf hn₂ hn₃).mono (Nat.le_trans hn hn₁) (Nat.le_refl _)

theorem reads_program {item : Rule (Option Stmt)}
    (hi : ∀ s, Reads item s fun o t ts => ∃ st, o = some st ∧ IsDeclaration s st t ts) (n : Nat) :
    ∀ s, Reads (program item n) s fun ss t ts => Derives Within (.declarations ss) ts ∧
      t.current.kind = .endOfFile ∧ Fresh s.nextId t.nextId (Stmt.idsOf ss) := by
  induction n with
  | zero => exact fun _ => .outOfFuel
  | succ n ih =>
    intro s
    refine reads_atEnd.bind fun b t => ?_
    cases b with
    | true =>
      refine .pure fun us _ ⟨ht, hus, hc⟩ => ?_
      subst ht
      exact ⟨by simpa [hus] using Derives.noDeclarations, hc.1 rfl, .nil⟩
    | false =>
      refine (hi t).bind fun o t₂ => (ih t₂).bind fun ss t₃ => .pure ?_
      rintro vs hn₃ ⟨hss, hend, hf⟩ us hn₂ ⟨st, rfl, hst, hfst⟩ _ hn ⟨-, rfl, -⟩
      refine ⟨by simpa using Derives.someDeclarations hst hss, hend, ?_⟩
      exact (hfst.append hf hn₂ hn₃).mono hn (Nat.le_refl _)

/-! ## Functions and their owners -/

section

variable (hb : ∀ s, Reads body s (IsBlock s))
include hb

theorem reads_namedFunction (isMember : Bool) (n : Nat) :
    Reads (namedFunction body isMember n) s fun f t ts =>
      Derives Within (.function isMember f) ts ∧ Fresh s.nextId t.nextId f.ids := by
  refine .current ((reads_identifier _).bind fun name t₁ =>
    (reads_atSymbol _).bind fun brace t₂ => ?_)
  cases hg : isMember && brace with
  | true =>
    refine Reads.bind (P := fun params _ ts => params = [] ∧ ts = []) (.pure ⟨rfl, rfl⟩)
      fun params t₃ => (reads_expect _ _).bind fun _ t₄ => (hb t₄).bind fun body t₅ =>
        (reads_spanFrom _).bind fun span t₆ => .pure ?_
    obtain ⟨rfl, rfl⟩ := Bool.and_eq_true_iff.1 hg
    rintro _ - ⟨rfl, rfl⟩ _ hn₅ ⟨us, rfl, hd, hf⟩ _ hn₄ rfl _ hn₃ ⟨rfl, rfl⟩ _ hn₂ ⟨-, rfl, -⟩
      _ hn₁ ⟨rfl, -⟩
    refine ⟨by simpa using Derives.getter hd, ?_⟩
    exact hf.mono (Nat.le_trans hn₁ (Nat.le_trans hn₂ (Nat.le_trans hn₃ hn₄))) (Nat.le_refl _)
  | false =>
    refine (reads_parameters n).bind fun params t₃ => (reads_expect _ _).bind fun _ t₄ =>
      (hb t₄).bind fun body t₅ => (reads_spanFrom _).bind fun span t₆ => .pure ?_
    rintro _ - ⟨rfl, rfl⟩ _ hn₅ ⟨us, rfl, hd, hf⟩ _ hn₄ rfl _ hn₃ ⟨rfl, hle⟩ _ hn₂ ⟨-, rfl, -⟩
      _ hn₁ ⟨rfl, -⟩
    refine ⟨by simpa using Derives.function hle hd, ?_⟩
    exact hf.mono (Nat.le_trans hn₁ (Nat.le_trans hn₂ (Nat.le_trans hn₃ hn₄))) (Nat.le_refl _)

theorem reads_lambda (keyword : Span) (n : Nat) :
    Reads (lambda body keyword n) s fun node t ts =>
      (∀ id span, Derives Within (.expr .primary ⟨id, span, node⟩) (.keyword .fun :: ts)) ∧
        ∃ ids, (∀ id span, Expr.ids ⟨id, span, node⟩ = id :: ids) ∧
          Fresh s.nextId t.nextId ids := by
  refine (reads_parameters n).bind fun params t₁ => (reads_expect _ _).bind fun _ t₂ =>
    (hb t₂).bind fun body t₃ => (reads_spanFrom _).bind fun span t₄ => .pure ?_
  rintro _ - ⟨rfl, rfl⟩ _ hn₃ ⟨us, rfl, hd, hf⟩ _ hn₂ rfl _ hn₁ ⟨rfl, hle⟩
  refine ⟨fun id span => by simpa using Derives.lambda hle hd, _, fun _ _ => rfl, ?_⟩
  exact hf.mono (Nat.le_trans hn₁ hn₂) (Nat.le_refl _)

/-- Members are read up to the closing brace, the static ones apart from the others. -/
theorem reads_members (n k : Nat) : ∀ s, Reads (members (namedFunction body true k) n) s
    fun fs t ts => ∃ us, ts = us ++ [.symbol .rightBrace] ∧
      Derives Within (.members fs.1 fs.2) us ∧
        Fresh s.nextId t.nextId (Function.idsOf fs.1 ++ Function.idsOf fs.2) := by
  induction n with
  | zero => exact fun _ => .outOfFuel
  | succ n ih =>
    intro s
    refine (reads_skipSymbol _).bind fun b t => ?_
    cases b with
    | true => exact .pure fun us _ hus => ⟨[], by simpa using hus, .noMembers, .nil⟩
    | false =>
      refine reads_atEnd.bind fun b t₁ => ?_
      cases b with
      | true => exact .current .fail
      | false =>
        refine (reads_skipKeyword _).bind fun b t₂ => ?_
        cases b with
        | true =>
          refine (reads_namedFunction hb true k).bind fun f t₃ => (ih t₃).bind fun fs t₄ =>
            .pure ?_
          rintro _ hn₄ ⟨vs, rfl, hfs, hf⟩ us hn₃ ⟨hd, hff⟩ _ hn₂ ⟨rfl, -⟩ _ hn₁ ⟨-, rfl, -⟩
            _ hn rfl
          refine ⟨.keyword .klass :: (us ++ vs), by simp, .static hd hfs, ?_⟩
          have := (hff.append hf hn₃ hn₄).mono (Nat.le_trans hn (Nat.le_trans hn₁ hn₂))
            (Nat.le_refl _)
          refine this.perm ?_
          rw [Function.idsOf, ← List.append_assoc, ← List.append_assoc]
          exact List.perm_append_comm.append_right _
        | false =>
          refine (reads_namedFunction hb true k).bind fun f t₃ => (ih t₃).bind fun fs t₄ =>
            .pure ?_
          rintro _ hn₄ ⟨vs, rfl, hfs, hf⟩ us hn₃ ⟨hd, hff⟩ _ hn₂ ⟨rfl, -⟩ _ hn₁ ⟨-, rfl, -⟩
            _ hn rfl
          refine ⟨us ++ vs, by simp, .method hd hfs, ?_⟩
          have := (hff.append hf hn₃ hn₄).mono (Nat.le_trans hn (Nat.le_trans hn₁ hn₂))
            (Nat.le_refl _)
          simpa [Function.idsOf] using this

end

/-! ## Declarations -/

theorem reads_some {α : Type} {rule : Rule α} {Q : α → State → Tokens → Prop}
    (h : Reads rule s Q) :
    Reads (some <$> rule) s fun o t ts => ∃ a, o = some a ∧ Q a t ts :=
  .map (h.mono fun a _ _ _ hq => ⟨a, rfl, hq⟩)

theorem reads_reference (otherwise : ParseErrorKind) :
    Reads (reference otherwise) s fun r t ts =>
      ts = [.identifier r.name.name] ∧ Fresh s.nextId t.nextId [r.id] := by
  refine (reads_identifier _).bind fun name t₁ => reads_freshId.bind fun id t₂ => .pure ?_
  rintro _ hn ⟨rfl, rfl, hid, -⟩ _ - ⟨rfl, heq⟩
  refine ⟨by simp, ?_⟩
  rw [hid, heq]
  exact Fresh.nil.cons (Nat.le_refl _)

theorem reads_traitNames (n : Nat) : ∀ s, Reads (traitNames n) s fun rs t ts =>
    rs ≠ [] ∧ ts = names (rs.map Reference.name) ∧
      Fresh s.nextId t.nextId (rs.map Reference.id) := by
  induction n with
  | zero => exact fun _ => .outOfFuel
  | succ n ih =>
    intro s
    refine (reads_reference _).bind fun r t => (reads_skipSymbol _).bind fun b t₁ => ?_
    cases b with
    | true =>
      refine (ih t₁).bind fun rs t₂ => .pure ?_
      rintro us hn₂ ⟨hne, rfl, hf⟩ _ hn₁ rfl _ hn ⟨rfl, hfr⟩
      refine ⟨by simp, ?_, hfr.append (hf.mono hn₁ (Nat.le_refl _)) hn (Nat.le_trans hn₁ hn₂)⟩
      cases rs with
      | nil => exact absurd rfl hne
      | cons r' rs => simp [names]
    | false =>
      refine .pure ?_
      rintro _ hn₁ rfl _ hn ⟨rfl, hfr⟩
      exact ⟨by simp, by simp [names], hfr.mono (Nat.le_refl _) hn₁⟩

/-- The superclass of a class, if it has one. -/
def superclassClause : Rule (Option Reference) := do
  if ← skipSymbol .less then some <$> reference .expectedSuperclassName else return none

/-- The traits of a class, if it has some. -/
def traitsClause (fuel : Nat) : Rule (List Reference) := do
  if ← skipSymbol .diamond then traitNames fuel else return []

theorem classDecl_eq (body : Rule (List Stmt)) (fuel : Nat) : classDecl body fuel = (do
    advance
    let name ← identifier .expectedIdentifier
    let superclass ← superclassClause
    let traits ← traitsClause fuel
    expect .leftBrace (.expectedBefore .leftBrace .classBody)
    let (methods, statics) ← members (namedFunction body true fuel) fuel
    return .classDecl name superclass traits methods statics) := by
  unfold classDecl superclassClause traitsClause
  simp only [bind_assoc]
  congr 1
  funext _
  congr 1
  funext name
  congr 1
  funext extends?
  cases extends? with
  | false =>
    simp only [Bool.false_eq_true, if_false, pure_bind]
    congr 1
    funext composes
    cases composes with
    | false => simp
    | true => simp
  | true =>
    simp only [if_true]
    congr 1
    funext r
    congr 1
    funext composes
    cases composes with
    | false => simp
    | true => simp

theorem reads_superclassClause :
    Reads superclassClause s fun superclass t ts =>
      ts = extending superclass ∧ Fresh s.nextId t.nextId (superclass.toList.map Reference.id) := by
  refine (reads_skipSymbol _).bind fun b t => ?_
  cases b with
  | true =>
    refine (reads_some (reads_reference _)).mono ?_
    rintro _ u _ - ⟨r, rfl, rfl, hf⟩ _ hn rfl
    exact ⟨by simp [extending], hf.mono hn (Nat.le_refl _)⟩
  | false => exact .pure fun us _ hus => ⟨by simpa [extending] using hus, .nil⟩

theorem reads_traitsClause (n : Nat) :
    Reads (traitsClause n) s fun traits t ts =>
      ts = composing traits ∧ Fresh s.nextId t.nextId (traits.map Reference.id) := by
  refine (reads_skipSymbol _).bind fun b t => ?_
  cases b with
  | true =>
    refine (reads_traitNames n t).mono ?_
    rintro rs u _ - ⟨hne, rfl, hf⟩ _ hn rfl
    refine ⟨?_, hf.mono hn (Nat.le_refl _)⟩
    cases rs with
    | nil => exact absurd rfl hne
    | cons r rs => simp [composing]
  | false => exact .pure fun us _ hus => ⟨by simpa [composing] using hus, .nil⟩

theorem reads_varDecl (he : ∀ s, Reads expression s (IsExpression s))
    (hs : s.current.kind = .keyword .var) :
    Reads (varDecl expression) s fun node t ts =>
      (∃ name init, node = .varDecl name init) ∧ ∀ span, IsDeclaration s ⟨span, node⟩ t ts := by
  refine (reads_advance_of hs (by simp)).bind fun _ t => (reads_identifier _).bind fun name t₁ =>
    (reads_skipSymbol _).bind fun b t₂ => ?_
  cases b with
  | true =>
    refine (reads_some (he t₂)).bind fun _ t₃ => (reads_expect _ _).bind fun _ t₄ => .pure ?_
    rintro _ hn₄ rfl us hn₃ ⟨e, rfl, hd, hf⟩ _ hn₂ rfl _ hn₁ ⟨rfl, -⟩ _ hn ⟨-, rfl⟩
    refine ⟨⟨name, some e, rfl⟩, fun span => ⟨by simpa using Derives.varInit hd, ?_⟩⟩
    exact hf.mono (Nat.le_trans hn (Nat.le_trans hn₁ hn₂)) hn₄
  | false =>
    refine Reads.bind (P := fun e _ ts => e = none ∧ ts = []) (.pure ⟨rfl, rfl⟩) fun _ t₃ =>
      (reads_expect _ _).bind fun _ t₄ => .pure ?_
    rintro _ - rfl _ - ⟨rfl, rfl⟩ _ - rfl _ - ⟨rfl, -⟩ _ - ⟨-, rfl⟩
    exact ⟨⟨name, none, rfl⟩, fun span => ⟨by simpa using Derives.var, .nil⟩⟩

section

variable (hb : ∀ s, Reads body s (IsBlock s))
include hb

theorem reads_funDecl (hs : s.current.kind = .keyword .fun) (n : Nat) :
    Reads (funDecl body n) s fun node t ts => ∀ span, IsDeclaration s ⟨span, node⟩ t ts := by
  refine (reads_advance_of hs (by simp)).bind fun _ t =>
    (reads_namedFunction hb false n).bind fun f t₁ => .pure ?_
  rintro us - ⟨hd, hf⟩ _ hn ⟨-, rfl⟩ span
  exact ⟨by simpa using Derives.fun hd, hf.mono hn (Nat.le_refl _)⟩

theorem reads_classDecl (hs : s.current.kind = .keyword .klass) (n : Nat) :
    Reads (classDecl body n) s fun node t ts => ∀ span, IsDeclaration s ⟨span, node⟩ t ts := by
  rw [classDecl_eq]
  refine (reads_advance_of hs (by simp)).bind fun _ t => (reads_identifier _).bind fun name t₁ =>
    reads_superclassClause.bind fun superclass t₂ => (reads_traitsClause n).bind fun traits t₃ =>
      (reads_expect _ _).bind fun _ t₄ => (reads_members hb n n t₄).bind fun fs t₅ => .pure ?_
  rintro _ hn₅ ⟨us, rfl, hd, hf⟩ _ hn₄ rfl _ hn₃ ⟨rfl, hft⟩ _ hn₂ ⟨rfl, hfs⟩ _ hn₁ ⟨rfl, -⟩
    _ hn ⟨-, rfl⟩ span
  refine ⟨by simpa using Derives.class hd, ?_⟩
  have h₁ := hft.append (hf.mono hn₄ (Nat.le_refl _)) hn₃ (Nat.le_trans hn₄ hn₅)
  have h₂ := hfs.append h₁ hn₂ (Nat.le_trans hn₃ (Nat.le_trans hn₄ hn₅))
  exact h₂.mono (Nat.le_trans hn hn₁) (Nat.le_refl _)

theorem reads_traitDecl (hs : s.current.kind = .keyword .trait) (n : Nat) :
    Reads (traitDecl body n) s fun node t ts => ∀ span, IsDeclaration s ⟨span, node⟩ t ts := by
  refine (reads_advance_of hs (by simp)).bind fun _ t => (reads_identifier _).bind fun name t₁ =>
    (reads_expect _ _).bind fun _ t₂ => (reads_members hb n n t₂).bind fun fs t₃ => .pure ?_
  rintro _ hn₃ ⟨us, rfl, hd, hf⟩ _ hn₂ rfl _ hn₁ ⟨rfl, -⟩ _ hn ⟨-, rfl⟩ span
  exact ⟨by simpa using Derives.trait hd,
    hf.mono (Nat.le_trans hn (Nat.le_trans hn₁ hn₂)) (Nat.le_refl _)⟩

end

/-! ## Statements -/

section

variable {statement : Rule Stmt}
  (he : ∀ s, Reads expression s (IsExpression s)) (hst : ∀ s, Reads statement s (IsStatement s))

include he

theorem reads_expressionStmt :
    Reads (expressionStmt expression) s fun node t ts =>
      (∃ e, node = .expression e) ∧ ∀ span, IsStatement s ⟨span, node⟩ t ts := by
  refine (he s).bind fun e t => (reads_expect _ _).bind fun _ t₁ => .pure ?_
  rintro _ hn₁ rfl us - ⟨hd, hf⟩
  refine ⟨⟨e, rfl⟩, fun span => ⟨by simpa using Derives.expression hd, nofun, ?_⟩⟩
  exact hf.mono (Nat.le_refl _) hn₁

theorem reads_printStmt (hs : s.current.kind = .keyword .print) :
    Reads (printStmt expression) s fun node t ts => ∀ span, IsStatement s ⟨span, node⟩ t ts := by
  refine (reads_advance_of hs (by simp)).bind fun _ t => (he t).bind fun e t₁ =>
    (reads_expect _ _).bind fun _ t₂ => .pure ?_
  rintro _ hn₂ rfl us hn₁ ⟨hd, hf⟩ _ hn ⟨-, rfl⟩ span
  exact ⟨by simpa using Derives.print hd, nofun, hf.mono hn hn₂⟩

theorem reads_optional (close : Symbol) :
    Reads (optional expression close) s fun value t ts =>
      Derives Within (.optional value) ts ∧
        Fresh s.nextId t.nextId ((value.map Expr.ids).getD []) := by
  refine (reads_atSymbol _).bind fun b t => ?_
  cases b with
  | true => exact .pure fun us _ ⟨_, hus, _⟩ => ⟨by simpa [hus] using Derives.absent, .nil⟩
  | false =>
    refine (reads_some (he t)).mono ?_
    rintro _ u ts - ⟨e, rfl, hd, hf⟩ us hn ⟨-, rfl, -⟩
    exact ⟨.present hd, hf.mono hn (Nat.le_refl _)⟩

theorem reads_returnStmt (hs : s.current.kind = .keyword .return) :
    Reads (returnStmt expression) s fun node t ts => ∀ span, IsStatement s ⟨span, node⟩ t ts := by
  refine (reads_advance_of hs (by simp)).bind fun _ t =>
    (reads_optional he _).bind fun value t₁ => (reads_expect _ _).bind fun _ t₂ => .pure ?_
  rintro _ hn₂ rfl us hn₁ ⟨hd, hf⟩ _ hn ⟨-, rfl⟩ span
  refine ⟨by simpa using Derives.return hd, nofun, ?_⟩
  rw [Stmt.ids_return]
  exact hf.mono hn hn₂

theorem reads_forInit :
    Reads (forInit expression) s fun init t ts => Derives Within (.clause init) ts ∧
      Fresh s.nextId t.nextId ((init.map Stmt.ids).getD []) := by
  refine (reads_skipSymbol _).bind fun b t => ?_
  cases b with
  | true => exact .pure fun us _ hus => ⟨by simpa [hus] using Derives.noClause, .nil⟩
  | false =>
    refine .current ?_
    cases hk : t.current.kind.isKeyword .var with
    | true =>
      have hvar := reads_varDecl he (isKeyword_iff.1 hk)
      refine (reads_some (reads_stmt (Q := fun st u ts => (∃ name init, st.node = .varDecl name init) ∧
        IsDeclaration t st u ts) (hvar.mono fun node u ts _ ⟨hnode, hd⟩ span =>
          ⟨hnode, hd span⟩))).mono ?_
      rintro _ u ts - ⟨⟨span, node⟩, rfl, ⟨name, init, rfl⟩, hd, hf⟩ us hn rfl
      exact ⟨.varClause hd, hf.mono hn (Nat.le_refl _)⟩
    | false =>
      refine (reads_some (reads_stmt (Q := fun st u ts => (∃ e, st.node = .expression e) ∧
        IsStatement t st u ts) ((reads_expressionStmt he).mono fun node u ts _ ⟨hnode, hd⟩ span =>
          ⟨hnode, hd span⟩))).mono ?_
      rintro _ u ts - ⟨⟨span, node⟩, rfl, ⟨e, rfl⟩, hd, -, hf⟩ us hn rfl
      exact ⟨.expressionClause hd, hf.mono hn (Nat.le_refl _)⟩

include hst

theorem reads_ifStmt (hs : s.current.kind = .keyword .if) :
    Reads (ifStmt expression statement) s fun node t ts =>
      ∀ span, IsStatement s ⟨span, node⟩ t ts := by
  refine (reads_advance_of hs (by simp)).bind fun _ t => (reads_expect _ _).bind fun _ t₁ =>
    (he t₁).bind fun condition t₂ => (reads_expect _ _).bind fun _ t₃ =>
      (hst t₃).bind fun yes t₄ => (reads_skipKeyword _).bind fun b t₅ => ?_
  cases b with
  | false =>
    refine Reads.bind (P := fun no u ts => no = none ∧ ts = [] ∧ u = t₅) (.pure ⟨rfl, rfl, rfl⟩)
      fun _ t₆ => .pure ?_
    rintro _ - ⟨rfl, rfl, rfl⟩ _ hn₅ ⟨rfl, -, hno⟩ us hn₄ ⟨hy, -, hfy⟩ _ hn₃ rfl vs hn₂ ⟨hc, hfc⟩
      _ hn₁ rfl _ hn ⟨-, rfl⟩ span
    refine ⟨by simpa using Derives.ifOnly hc hy, fun _ => hno rfl, ?_⟩
    have := hfc.append (hfy.mono hn₃ hn₅) hn₂ (Nat.le_trans hn₃ (Nat.le_trans hn₄ hn₅))
    rw [Stmt.ids_ifElse]
    simpa using this.mono (Nat.le_trans hn hn₁) (Nat.le_refl _)
  | true =>
    refine (reads_some (hst t₅)).bind fun _ t₆ => .pure ?_
    rintro us hn₆ ⟨no, rfl, hn', hopen, hfn⟩ _ hn₅ ⟨rfl, hk, -⟩ vs hn₄ ⟨hy, hclosed, hfy⟩ _ hn₃ rfl
      ws hn₂ ⟨hc, hfc⟩ _ hn₁ rfl _ hn ⟨-, rfl⟩ span
    have hyes : isOpen yes = false := by
      rw [← Bool.not_eq_true]
      exact fun ho => hclosed ho (hk rfl)
    refine ⟨by simpa using Derives.ifElse hc hy hyes hn', hopen, ?_⟩
    have h₁ := (hfy.mono (Nat.le_refl _) hn₅).append hfn (Nat.le_trans hn₄ hn₅) hn₆
    have h₂ := hfc.append (h₁.mono hn₃ (Nat.le_refl _)) hn₂
      (Nat.le_trans hn₃ (Nat.le_trans hn₄ (Nat.le_trans hn₅ hn₆)))
    exact h₂.mono (Nat.le_trans hn hn₁) (Nat.le_refl _)

theorem reads_whileStmt (hs : s.current.kind = .keyword .while) :
    Reads (whileStmt expression statement) s fun node t ts =>
      ∀ span, IsStatement s ⟨span, node⟩ t ts := by
  refine (reads_advance_of hs (by simp)).bind fun _ t => (reads_expect _ _).bind fun _ t₁ =>
    (he t₁).bind fun condition t₂ => (reads_expect _ _).bind fun _ t₃ =>
      (hst t₃).bind fun body t₄ => .pure ?_
  rintro us hn₄ ⟨hb, hopen, hfb⟩ _ hn₃ rfl vs hn₂ ⟨hc, hfc⟩ _ hn₁ rfl _ hn ⟨-, rfl⟩ span
  refine ⟨by simpa using Derives.while hc hb, hopen, ?_⟩
  have := hfc.append (hfb.mono hn₃ (Nat.le_refl _)) hn₂ (Nat.le_trans hn₃ hn₄)
  exact this.mono (Nat.le_trans hn hn₁) (Nat.le_refl _)

theorem reads_forStmt (hs : s.current.kind = .keyword .for) :
    Reads (forStmt expression statement) s fun node t ts =>
      ∀ span, IsStatement s ⟨span, node⟩ t ts := by
  refine (reads_advance_of hs (by simp)).bind fun _ t => (reads_expect _ _).bind fun _ t₁ =>
    (reads_forInit he).bind fun init t₂ => (reads_optional he _).bind fun condition t₃ =>
      (reads_expect _ _).bind fun _ t₄ => (reads_optional he _).bind fun step t₅ =>
        (reads_expect _ _).bind fun _ t₆ => (hst t₆).bind fun body t₇ => .pure ?_
  rintro us hn₇ ⟨hb, hopen, hfb⟩ _ hn₆ rfl vs hn₅ ⟨hstep, hfs⟩ _ hn₄ rfl ws hn₃ ⟨hc, hfc⟩
    xs hn₂ ⟨hi, hfi⟩ _ hn₁ rfl _ hn ⟨-, rfl⟩ span
  refine ⟨by simpa using Derives.for hi hc hstep hb, hopen, ?_⟩
  have h₁ := hfs.append (hfb.mono hn₆ (Nat.le_refl _)) hn₅ (Nat.le_trans hn₆ hn₇)
  have h₂ := hfc.append (h₁.mono hn₄ (Nat.le_refl _)) hn₃
    (Nat.le_trans hn₄ (Nat.le_trans hn₅ (Nat.le_trans hn₆ hn₇)))
  have h₃ := hfi.append h₂ hn₂
    (Nat.le_trans hn₃ (Nat.le_trans hn₄ (Nat.le_trans hn₅ (Nat.le_trans hn₆ hn₇))))
  rw [Stmt.ids_for]
  exact h₃.mono (Nat.le_trans hn hn₁) (Nat.le_refl _)

end

theorem reads_loopControl {node : Stmt.Node} {word : Keyword}
    (hs : s.current.kind = .keyword word)
    (hd : ∀ span, Derives Within (.statement ⟨span, node⟩) [.keyword word, .symbol .semicolon])
    (ho : ∀ span, isOpen ⟨span, node⟩ = false) (hi : ∀ span, Stmt.ids ⟨span, node⟩ = []) :
    Reads (loopControl node) s fun node t ts => ∀ span, IsStatement s ⟨span, node⟩ t ts := by
  refine (reads_advance_of hs (by simp)).bind fun _ t => (reads_expect _ _).bind fun _ t₁ => .pure ?_
  rintro _ - rfl _ - ⟨-, rfl⟩ span
  refine ⟨by simpa using hd span, fun h => ?_, by rw [hi]; exact .nil⟩
  rw [ho] at h
  cases h

theorem reads_blockStmt (hb : ∀ s, Reads body s (IsBlock s))
    (hs : s.current.kind = .symbol .leftBrace) :
    Reads (do advance; return .block (← body)) s fun node t ts =>
      ∀ span, IsStatement s ⟨span, node⟩ t ts := by
  refine (reads_advance_of hs (by simp)).bind fun _ t => (hb t).bind fun body t₁ => .pure ?_
  rintro _ - ⟨us, rfl, hd, hf⟩ _ hn ⟨-, rfl⟩ span
  exact ⟨by simpa using Derives.block hd, nofun, hf.mono hn (Nat.le_refl _)⟩

/-! ## Operators -/

/-- The stratum of the operand before an operator; what an assignment is to shows in the operand. -/
def needs : Operator → Stratum
  | .binary op => .ofBinary op
  | .logical op => .ofLogical op
  | .assign => .assignment
  | .ternary => .or
  | .call | .index | .property => .call

/-- The stratum of what an operator makes. -/
def made : Operator → Stratum
  | .binary op => .ofBinary op
  | .logical op => .ofLogical op
  | .assign => .assignment
  | .ternary => .ternary
  | .call | .index | .property => .call

theorem rank_le_of_bindsInside {op : Operator} {outer : Level}
    (h : op.bindsInside outer = true) : (stratumInside outer).rank ≤ (made op).rank := by
  revert h
  cases op with
  | binary op => cases op <;> cases outer <;> decide
  | logical op => cases op <;> cases outer <;> decide
  | _ => cases outer <;> decide

/-- What an operator makes is an operand for every operator that it has left. -/
theorem rank_needs_le (op : Operator) {next : Operator} (h : next.bindsInside op.level = false) :
    (needs next).rank ≤ (made op).rank := by
  revert h
  cases op with
  | binary op => cases op <;> cases next with
    | binary next => cases next <;> decide
    | logical next => cases next <;> decide
    | _ => decide
  | logical op => cases op <;> cases next with
    | binary next => cases next <;> decide
    | logical next => cases next <;> decide
    | _ => decide
  | _ => cases next with
    | binary next => cases next <;> decide
    | logical next => cases next <;> decide
    | _ => decide

theorem rank_needs_le_unary {next : Operator} (h : next.bindsInside .unary = false) :
    (needs next).rank ≤ Stratum.unary.rank := by
  revert h
  cases next with
  | binary next => cases next <;> decide
  | logical next => cases next <;> decide
  | _ => decide

theorem rank_needs_le_call (op : Operator) : (needs op).rank ≤ Stratum.call.rank := by
  cases op with
  | binary op => cases op <;> decide
  | logical op => cases op <;> decide
  | _ => decide

/-- The token of an operator. -/
def operatorToken : Operator → Token.Kind
  | .binary op => .symbol (binarySymbol op)
  | .logical op => .keyword (logicalKeyword op)
  | .assign => .symbol .equal
  | .ternary => .symbol .question
  | .call => .symbol .leftParen
  | .index => .symbol .leftBracket
  | .property => .symbol .dot

theorem ofToken?_eq_some {k : Token.Kind} {op : Operator} (h : Operator.ofToken? k = some op) :
    k = operatorToken op := by
  unfold Operator.ofToken? at h
  split at h <;> cases h <;> rfl

theorem ofToken?_operatorToken (op : Operator) : Operator.ofToken? (operatorToken op) = some op := by
  cases op with
  | binary op => cases op <;> rfl
  | logical op => cases op <;> rfl
  | _ => rfl

/-! ## Expressions -/

/-- An expression inside a level has been read. -/
def IsInside (outer : Level) (s : State) (e : Expr) (t : State) (ts : Tokens) : Prop :=
  Derives Within (.expr (stratumInside outer) e) ts ∧ Fresh s.nextId t.nextId e.ids ∧
    Stops outer t.current.kind

/-- The tokens `us` have been read as an operand that the next operator can continue. -/
structure IsOperand (outer : Level) (lo : Nat) (e : Expr) (us : Tokens) (s : State) : Prop where
  derives : ∃ ℓ, Derives Within (.expr ℓ e) us ∧ (stratumInside outer).rank ≤ ℓ.rank ∧
    ∀ op, Operator.ofToken? s.current.kind = some op → (needs op).rank ≤ ℓ.rank
  fresh : Fresh lo s.nextId e.ids
  le : lo ≤ s.nextId

/-- What an operator makes of an operand has been read, but for its identity. -/
def IsContinued (op : Operator) (left : Expr) (s : State) (node : Expr.Node) (t : State)
    (ts : Tokens) : Prop :=
  ∀ lo us, Derives Within (.expr (needs op) left) us → Fresh lo s.nextId left.ids →
    lo ≤ s.nextId →
    (∀ id span, Derives Within (.expr (made op) ⟨id, span, node⟩) (us ++ ts)) ∧
      (∀ next, Operator.ofToken? t.current.kind = some next →
        (needs next).rank ≤ (made op).rank) ∧
      ∃ ids, (∀ id span, Expr.ids ⟨id, span, node⟩ = id :: ids) ∧ Fresh lo t.nextId ids

section

variable {expression : Level → Rule Expr} {left : Expr} {op : Operator}
  (he : ∀ outer s, Reads (expression outer) s (IsInside outer s))
include he

theorem reads_lowest (s : State) : Reads (expression .lowest) s (IsExpression s) :=
  (he .lowest s).mono fun _ _ _ _ ⟨hd, hf, _⟩ => ⟨hd, hf⟩

/-- Behind a left operand an operator is read with what belongs to it, as one of the operations that
the grammar has for it. -/
theorem reads_continuation (hs : Operator.ofToken? s.current.kind = some op) (n : Nat) :
    Reads (continuation expression left op n) s (IsContinued op left s) := by
  have hk := ofToken?_eq_some hs
  refine .current ?_
  cases op with
  | binary op =>
    refine (reads_advance_of hk (by simp [operatorToken])).bind fun _ t =>
      (he _ t).bind fun right t₁ => .pure ?_
    rintro ts hn₁ ⟨hd, hf, hstop⟩ _ hn ⟨-, rfl⟩ lo us hl hfl hlo
    refine ⟨fun id span => ?_, fun next hnext => rank_needs_le _ (hstop next hnext), _,
      fun _ _ => rfl, hfl.append (hf.mono hn (Nat.le_refl _)) hlo (Nat.le_trans hn hn₁)⟩
    have hr : stratumInside (Operator.binary op).level = (Stratum.ofBinary op).tighter := by
      cases op <;> rfl
    simpa [operatorToken, made] using (Derives.binary hl (hr ▸ hd) :
      Derives Within (.expr (.ofBinary op) ⟨id, span, .binary op left _⟩) _)
  | logical op =>
    refine (reads_advance_of hk (by simp [operatorToken])).bind fun _ t =>
      (he _ t).bind fun right t₁ => .pure ?_
    rintro ts hn₁ ⟨hd, hf, hstop⟩ _ hn ⟨-, rfl⟩ lo us hl hfl hlo
    refine ⟨fun id span => ?_, fun next hnext => rank_needs_le _ (hstop next hnext), _,
      fun _ _ => rfl, hfl.append (hf.mono hn (Nat.le_refl _)) hlo (Nat.le_trans hn hn₁)⟩
    have hr : stratumInside (Operator.logical op).level = (Stratum.ofLogical op).tighter := by
      cases op <;> rfl
    simpa [operatorToken, made] using (Derives.logical hl (hr ▸ hd) :
      Derives Within (.expr (.ofLogical op) ⟨id, span, .logical op left _⟩) _)
  | assign =>
    obtain ⟨id', span', target⟩ := left
    refine (reads_advance_of hk (by simp [operatorToken])).bind fun _ t =>
      (he _ t).bind fun value t₁ => ?_
    cases target with
    | «variable» name =>
      refine .pure ?_
      rintro ts hn₁ ⟨hd, hf, hstop⟩ _ hn ⟨-, rfl⟩ lo us hl hfl hlo
      obtain rfl := hl.eq_of_variable
      exact ⟨fun id span => by simpa [operatorToken, made] using Derives.assign hd,
        fun next hnext => rank_needs_le .assign (hstop next hnext), _, fun _ _ => rfl,
        hf.mono (Nat.le_trans hlo hn) (Nat.le_refl _)⟩
    | get object property =>
      refine .pure ?_
      rintro ts hn₁ ⟨hd, hf, hstop⟩ _ hn ⟨-, rfl⟩ lo us hl hfl hlo
      obtain ⟨vs, rfl, ho⟩ := hl.of_get
      have hfo : Fresh lo s.nextId object.ids := hfl.sublist (List.sublist_cons_self _ _)
      exact ⟨fun id span => by simpa [operatorToken, made] using Derives.set ho hd,
        fun next hnext => rank_needs_le .assign (hstop next hnext), _, fun _ _ => rfl,
        (hfo.append (hf.mono hn (Nat.le_refl _)) hlo (Nat.le_trans hn hn₁)).perm
          List.perm_append_comm⟩
    | index array position =>
      refine .pure ?_
      rintro ts hn₁ ⟨hd, hf, hstop⟩ _ hn ⟨-, rfl⟩ lo us hl hfl hlo
      obtain ⟨vs, ws, rfl, ha, hp⟩ := hl.of_index
      have hfa : Fresh lo s.nextId (array.ids ++ position.ids) :=
        hfl.sublist (List.sublist_cons_self _ _)
      refine ⟨fun id span => by simpa [operatorToken, made] using Derives.indexSet ha hp hd,
        fun next hnext => rank_needs_le .assign (hstop next hnext), _, fun _ _ => rfl, ?_⟩
      have := hfa.append (hf.mono hn (Nat.le_refl _)) hlo (Nat.le_trans hn hn₁)
      rwa [List.append_assoc] at this
    | _ => exact .fail
  | ternary =>
    refine (reads_advance_of hk (by simp [operatorToken])).bind fun _ t =>
      (reads_lowest he t).bind fun yes t₁ => (reads_expect _ _).bind fun _ t₂ =>
        (he _ t₂).bind fun no t₃ => .pure ?_
    rintro ts hn₃ ⟨hd, hf, hstop⟩ _ hn₂ rfl vs hn₁ ⟨hy, hfy⟩ _ hn ⟨-, rfl⟩ lo us hl hfl hlo
    refine ⟨fun id span => ?_, fun next hnext => rank_needs_le _ (hstop next hnext), _,
      fun _ _ => rfl, ?_⟩
    · simpa [operatorToken, made] using (Derives.ternary hl hy hd :
        Derives Within (.expr .ternary ⟨id, span, .ternary left yes no⟩) _)
    · have h₁ := hfy.append (hf.mono hn₂ (Nat.le_refl _)) hn₁ (Nat.le_trans hn₂ hn₃)
      exact hfl.append (h₁.mono hn (Nat.le_refl _)) hlo
        (Nat.le_trans hn (Nat.le_trans hn₁ (Nat.le_trans hn₂ hn₃)))
  | call =>
    refine (reads_arguments (reads_lowest he) n hk).bind fun args t => .pure ?_
    rintro _ hn ⟨ts, rfl, hd, hle, hf⟩ lo us hl hfl hlo
    exact ⟨fun id span => by simpa [made] using Derives.call hl hd hle,
      fun next _ => rank_needs_le_call next, _, fun _ _ => rfl, hfl.append hf hlo hn⟩
  | index =>
    refine (reads_advance_of hk (by simp [operatorToken])).bind fun _ t =>
      (reads_lowest he t).bind fun position t₁ => (reads_expect _ _).bind fun _ t₂ => .pure ?_
    rintro _ hn₂ rfl ts hn₁ ⟨hd, hf⟩ _ hn ⟨-, rfl⟩ lo us hl hfl hlo
    exact ⟨fun id span => by simpa [operatorToken, made] using Derives.index hl hd,
      fun next _ => rank_needs_le_call next, _, fun _ _ => rfl,
      hfl.append (hf.mono hn hn₂) hlo (Nat.le_trans hn (Nat.le_trans hn₁ hn₂))⟩
  | property =>
    refine (reads_advance_of hk (by simp [operatorToken])).bind fun _ t =>
      (reads_identifier _).bind fun name t₁ => .pure ?_
    rintro _ hn₁ ⟨rfl, -⟩ _ hn ⟨-, rfl⟩ lo us hl hfl hlo
    exact ⟨fun id span => by simpa [operatorToken, made] using Derives.get hl,
      fun next _ => rank_needs_le_call next, _, fun _ _ => rfl,
      hfl.mono (Nat.le_refl _) (Nat.le_trans hn hn₁)⟩

end

/-! ## Operands -/

/-- What an operand is that begins with the token `t`. -/
def primaryNode (expression : Rule Expr) (body : Rule (List Stmt)) (fuel : Nat) (t : Token) :
    Rule Expr.Node :=
  match t.kind with
  | .number x => pure (.literal (.number x))
  | .string s => pure (.literal (.string s))
  | .keyword .true => pure (.literal (.boolean true))
  | .keyword .false => pure (.literal (.boolean false))
  | .keyword .nil => pure (.literal .nil)
  | .identifier name => pure (.variable ⟨name, t.span⟩)
  | .keyword .this => pure .this
  | .keyword .super => superName
  | .symbol .leftParen => grouping expression
  | .symbol .leftBracket => .array <$> commaSeparated .rightBracket expression fuel
  | .keyword .fun => lambda body t.span fuel
  | _ => fail t.span (.expectedExpression t.kind)

theorem primary_eq (expression : Rule Expr) (body : Rule (List Stmt)) (fuel : Nat) :
    primary expression body fuel = (do
      advance
      let t ← previousToken
      let node ← primaryNode expression body fuel t
      expr t.span node) := by
  unfold primary primaryNode
  congr 1
  funext _
  congr 1
  funext t
  cases t.kind with
  | keyword word => cases word <;> rfl
  | symbol sym => cases sym <;> rfl
  | _ => rfl

/-- An operand has been read behind its first token, but for its identity. -/
def IsPrimary (first : Token.Kind) (s : State) (node : Expr.Node) (t : State) (ts : Tokens) :
    Prop :=
  first ≠ .endOfFile ∧
    (∀ id span, Derives Within (.expr .primary ⟨id, span, node⟩) (first :: ts)) ∧
      ∃ ids, (∀ id span, Expr.ids ⟨id, span, node⟩ = id :: ids) ∧ Fresh s.nextId t.nextId ids

/-- What is read from a first token on is the primary expression that begins with it. -/
theorem reads_primaryNode {expression : Rule Expr}
    (he : ∀ s, Reads expression s (IsExpression s)) (hb : ∀ s, Reads body s (IsBlock s)) (n : Nat)
    (first : Token) : Reads (primaryNode expression body n first) s (IsPrimary first.kind s) := by
  obtain ⟨kind, span⟩ := first
  cases kind with
  | number x => exact .pure ⟨by simp, fun _ _ => .number, [], fun _ _ => rfl, .nil⟩
  | string text => exact .pure ⟨by simp, fun _ _ => .string, [], fun _ _ => rfl, .nil⟩
  | identifier name =>
    exact .pure ⟨by simp, fun _ _ => (Derives.variable :
      Derives Within (.expr .primary ⟨_, _, .variable ⟨name, span⟩⟩) _), [], fun _ _ => rfl, .nil⟩
  | keyword word =>
    cases word with
    | true => exact .pure ⟨by simp, fun _ _ => .true, [], fun _ _ => rfl, .nil⟩
    | false => exact .pure ⟨by simp, fun _ _ => .false, [], fun _ _ => rfl, .nil⟩
    | nil => exact .pure ⟨by simp, fun _ _ => .nil, [], fun _ _ => rfl, .nil⟩
    | this => exact .pure ⟨by simp, fun _ _ => .this, [], fun _ _ => rfl, .nil⟩
    | super =>
      refine (reads_expect _ _).bind fun _ t => (reads_identifier _).bind fun name t₁ => .pure ?_
      rintro _ - ⟨rfl, -⟩ _ - rfl
      exact ⟨by simp, fun _ _ => .super, [], fun _ _ => rfl, .nil⟩
    | «fun» =>
      refine (reads_lambda hb span n).mono ?_
      rintro node t ts - ⟨hd, hids⟩
      exact ⟨by simp, hd, hids⟩
    | _ => exact .fail
  | symbol sym =>
    cases sym with
    | leftParen =>
      refine (he s).bind fun inner t => (reads_expect _ _).bind fun _ t₁ => .pure ?_
      rintro _ hn₁ rfl us - ⟨hd, hf⟩
      exact ⟨by simp, fun _ _ => by simpa using Derives.group hd, _, fun _ _ => rfl,
        hf.mono (Nat.le_refl _) hn₁⟩
    | leftBracket =>
      refine .map ((reads_items he _ n).mono ?_)
      rintro elements t _ - ⟨us, rfl, hd, hf⟩
      exact ⟨by simp, fun _ _ => by simpa using Derives.array hd, _, fun _ _ => rfl, hf⟩
    | _ => exact .fail
  | _ => exact .fail

theorem reads_primary {expression : Rule Expr} (he : ∀ s, Reads expression s (IsExpression s))
    (hb : ∀ s, Reads body s (IsBlock s)) (n : Nat) :
    Reads (primary expression body n) s fun e t ts =>
      Derives Within (.expr .primary e) ts ∧ Fresh s.nextId t.nextId e.ids := by
  rw [primary_eq]
  refine reads_advance.bind fun _ t => .previous ((reads_primaryNode he hb n _).bind fun node t₁ =>
    (reads_expr _ node).mono ?_)
  rintro ⟨id, span, node'⟩ u _ - ⟨rfl, rfl, rfl, hu, -⟩ ts hn₁ ⟨hne, hd, ids, hids, hf⟩ us hn
    ⟨hp, hid, hus⟩
  rw [hp] at hne hd
  refine ⟨by simpa [hus hne] using hd _ _, ?_⟩
  rw [hids, hu]
  exact (hf.mono (Nat.le_of_eq hid.symm) (Nat.le_refl _)).cons (Nat.le_trans hn hn₁)

theorem unaryOp?_eq_some {k : Token.Kind} {op : UnaryOp} (h : unaryOp? k = some op) :
    k = .symbol (unarySymbol op) := by
  unfold unaryOp? at h
  split at h <;> cases h <;> rfl

theorem rank_stratumInside_le (outer : Level) :
    (stratumInside outer).rank ≤ Stratum.unary.rank := by
  cases outer <;> decide

/-! ## All rules -/

/-- What the rules of expressions read. -/
structure ExpressionRules (n : Nat) : Prop where
  expression : ∀ outer s, Reads (Parser.expression n outer) s (IsInside outer s)
  operators : ∀ outer left s, Reads (Parser.operators n outer left) s fun e t ts =>
    ∀ lo us, IsOperand outer lo left us s →
      Derives Within (.expr (stratumInside outer) e) (us ++ ts) ∧ Fresh lo t.nextId e.ids ∧
        Stops outer t.current.kind

/-- With an operator that binds inside the level an operand becomes another one. -/
theorem reads_continued {n : Nat} (ih : ExpressionRules n) {outer : Level} {op : Operator}
    (hop : Operator.ofToken? s.current.kind = some op) (hb : op.bindsInside outer = true)
    (left : Expr) :
    Reads (continuation (Parser.expression n) left op n >>= expr left.span) s fun e t ts =>
      ∀ lo us, IsOperand outer lo left us s → IsOperand outer lo e (us ++ ts) t := by
  refine (reads_continuation ih.expression hop n).bind fun node t => (reads_expr _ node).mono ?_
  rintro ⟨id, span, node'⟩ t₁ _ hn₁ ⟨rfl, rfl, rfl, hu, hc⟩ us hn hcont lo us₀ hleft
  obtain ⟨ℓ, hd, -, hneeds⟩ := hleft.derives
  obtain ⟨hmade, hnext, ids, hids, hf⟩ :=
    hcont lo us₀ (hd.of_rank_le (hneeds op hop)) hleft.fresh hleft.le
  rw [List.append_nil]
  refine ⟨⟨made op, hmade _ _, rank_le_of_bindsInside hb, fun next h' => ?_⟩, ?_, ?_⟩
  · exact hnext next (hc ▸ h')
  · rw [hids, hu]
    exact hf.cons (Nat.le_trans hleft.le hn)
  · exact Nat.le_trans (Nat.le_trans hleft.le hn) hn₁

theorem reads_operators {n : Nat} (ih : ExpressionRules n) (outer : Level) (left : Expr)
    (s : State) : Reads (operators (n + 1) outer left) s fun e t ts =>
      ∀ lo us, IsOperand outer lo left us s →
        Derives Within (.expr (stratumInside outer) e) (us ++ ts) ∧ Fresh lo t.nextId e.ids ∧
          Stops outer t.current.kind := by
  refine .current ?_
  cases hop : Operator.ofToken? s.current.kind with
  | none =>
    refine .pure fun lo us ⟨⟨ℓ, hd, hle, _⟩, hf, _⟩ => ?_
    refine ⟨by simpa using hd.of_rank_le hle, hf, fun next hnext => ?_⟩
    rw [hop] at hnext
    cases hnext
  | some op =>
    dsimp only
    split
    · next hb =>
      rw [← bind_assoc]
      refine (reads_continued ih hop hb left).bind fun e t => (ih.operators outer e t).mono ?_
      intro e' t₁ ts _ h us _ hcont lo us₀ hleft
      simpa using h lo (us₀ ++ us) (hcont lo us₀ hleft)
    · next hb =>
      refine .pure fun lo us ⟨⟨ℓ, hd, hle, _⟩, hf, _⟩ => ?_
      refine ⟨by simpa using hd.of_rank_le hle, hf, fun next hnext => ?_⟩
      rw [hop] at hnext
      cases hnext
      exact Bool.not_eq_true _ ▸ hb

/-- The operand that an expression begins with, and the operators in front of it. -/
def firstOperand (fuel : Nat) : Rule Expr := do
  let t ← currentToken
  match unaryOp? t.kind with
  | some op =>
    advance
    let operand ← Parser.expression fuel .unary
    expr t.span (.unary op operand)
  | none => primary (Parser.expression fuel .lowest) (block fuel) fuel

theorem expression_succ (n : Nat) (outer : Level) :
    Parser.expression (n + 1) outer = firstOperand n >>= operators n outer := by
  unfold firstOperand
  rw [bind_assoc, Parser.expression]
  congr 1
  funext t
  cases unaryOp? t.kind with
  | some op => simp only [bind_assoc]
  | none => rfl

theorem reads_firstOperand {n : Nat} (ih : ExpressionRules n)
    (hb : ∀ s, Reads (block n) s (IsBlock s)) (s : State) :
    Reads (firstOperand n) s fun e t ts => ∀ outer, IsOperand outer s.nextId e ts t := by
  refine .current ?_
  cases hop : unaryOp? s.current.kind with
  | some op =>
    have hk := unaryOp?_eq_some hop
    refine (reads_advance_of hk (by simp)).bind fun _ t => (ih.expression .unary t).bind
      fun operand t₁ => (reads_expr _ _).mono ?_
    rintro ⟨id, span, node⟩ t₂ _ hn₂ ⟨rfl, rfl, rfl, hu, hc⟩ us hn₁ ⟨hd, hf, hstop⟩ _ hn ⟨-, rfl⟩
      outer
    have hfresh : Fresh s.nextId t₁.nextId operand.ids := hf.mono hn (Nat.le_refl _)
    rw [List.append_nil]
    refine ⟨⟨.unary, .unary hd, rank_stratumInside_le outer, fun next h' => ?_⟩, ?_, ?_⟩
    · exact rank_needs_le_unary (hstop next (hc ▸ h'))
    · rw [hu]
      exact hfresh.cons (Nat.le_trans hn hn₁)
    · exact Nat.le_trans hn (Nat.le_trans hn₁ hn₂)
  | none =>
    refine (reads_primary (reads_lowest ih.expression) hb n).mono ?_
    rintro e t ts hn ⟨hd, hf⟩ outer
    refine ⟨⟨.primary, hd, ?_, fun next _ => ?_⟩, hf, hn⟩
    · exact Nat.le_trans (rank_stratumInside_le outer) (by decide)
    · exact Nat.le_trans (rank_needs_le_call next) (by decide)

theorem reads_expression {n : Nat} (ih : ExpressionRules n)
    (hb : ∀ s, Reads (block n) s (IsBlock s)) (outer : Level) (s : State) :
    Reads (Parser.expression (n + 1) outer) s (IsInside outer s) := by
  rw [expression_succ]
  refine (reads_firstOperand ih hb s).bind fun e t => (ih.operators outer e t).mono ?_
  intro e' t₁ ts _ h us _ hoperand
  exact h _ _ (hoperand outer)

/-- What all rules read with so much fuel. -/
structure Rules (n : Nat) : Prop extends ExpressionRules n where
  block : ∀ s, Reads (Parser.block n) s (IsBlock s)
  declaration : ∀ s, Reads (Parser.declaration n) s (IsDeclaration s)
  statement : ∀ s, Reads (Parser.statement n) s (IsStatement s)

theorem reads_statement {n : Nat} (ih : Rules n) (s : State) :
    Reads (statement (n + 1)) s (IsStatement s) := by
  have he := reads_lowest ih.expression
  have hexpr : Reads (stmt (expressionStmt (Parser.expression n .lowest))) s (IsStatement s) :=
    reads_stmt ((reads_expressionStmt he).mono fun _ _ _ _ h => h.2)
  refine .current ?_
  cases hk : s.current.kind with
  | keyword word =>
    cases word with
    | print => exact reads_stmt (reads_printStmt he hk)
    | «if» => exact reads_stmt (reads_ifStmt he ih.statement hk)
    | «while» => exact reads_stmt (reads_whileStmt he ih.statement hk)
    | «for» => exact reads_stmt (reads_forStmt he ih.statement hk)
    | «return» => exact reads_stmt (reads_returnStmt he hk)
    | «break» =>
      exact reads_stmt (reads_loopControl hk (fun _ => .break) (fun _ => rfl) fun _ => rfl)
    | «continue» =>
      exact reads_stmt (reads_loopControl hk (fun _ => .continue) (fun _ => rfl) fun _ => rfl)
    | _ => exact hexpr
  | symbol sym =>
    cases sym with
    | leftBrace => exact reads_stmt (reads_blockStmt ih.block hk)
    | _ => exact hexpr
  | _ => exact hexpr

theorem reads_declaration {n : Nat} (ih : Rules n) (s : State) :
    Reads (declaration (n + 1)) s (IsDeclaration s) := by
  have hstatement (hne : s.current.kind ≠ .keyword .fun) :
      Reads (statement n) s (IsDeclaration s) := by
    refine (ih.statement s).head.mono fun st t ts _ ⟨⟨hd, _, hf⟩, hhead⟩ => ⟨?_, hf⟩
    exact .statement hd fun h => hne (hhead _ h).symm
  refine .current ?_
  cases hk : s.current.kind with
  | keyword word =>
    cases word with
    | var =>
      exact reads_stmt ((reads_varDecl (reads_lowest ih.expression) hk).mono fun _ _ _ _ h => h.2)
    | «fun» => exact reads_stmt (reads_funDecl ih.block hk n)
    | klass => exact reads_stmt (reads_classDecl ih.block hk n)
    | trait => exact reads_stmt (reads_traitDecl ih.block hk n)
    | _ => exact hstatement (by simp [hk])
  | _ => exact hstatement (by simp [hk])

theorem rules (n : Nat) : Rules n := by
  induction n with
  | zero =>
    exact { expression := fun _ _ => .outOfFuel
            operators := fun _ _ _ => .outOfFuel
            block := fun _ => .outOfFuel
            declaration := fun _ => .outOfFuel
            statement := fun _ => .outOfFuel }
  | succ n ih =>
    exact { expression := reads_expression ih.toExpressionRules ih.block
            operators := reads_operators ih.toExpressionRules
            block := reads_statements (fun s => reads_recover (ih.declaration s)) n
            declaration := reads_declaration ih
            statement := reads_statement ih }

end Lox.Parser

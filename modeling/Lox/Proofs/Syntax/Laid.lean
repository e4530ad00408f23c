import Mathlib.Data.List.Perm.Basic
import Mathlib.Data.List.Infix
import Lox.Proofs.Scope.Rules
import Lox.Proofs.Syntax.Sound
import Lox.Proofs.Token.Stretch

/-!
# Pieces of a tree and their tokens

A tree is made of pieces: statements, expressions, functions and names, one in another.  Each lies
on a stretch of the tokens that the tree was read from; its span is that of the stretch, and the
pieces right inside it lie on stretches of it, one behind the other.

    Laid p us ↔ p.Fits us ∧ Holds p.inner us                                            (laid_iff)

Members of a class lie in the order of the text, though the tree has the static ones apart; that is
why `Holds` lets the pieces be rearranged.
-/

namespace Lox

open Grammar (Derives)

/-! ## Pieces -/

/-- A superclass or a trait as the expression that its name is. -/
def Reference.expr (r : Reference) : Expr := ⟨r.id, r.name.span, .variable r.name⟩

inductive Piece
  | stmts (body : List Stmt)
  | stmt (s : Stmt)
  | expr (e : Expr)
  /-- Parameters and a body, without the name of the function. -/
  | function (f : Function)
  | name (x : Identifier)

/-- A function that stands under its name. -/
def Function.pieces (f : Function) : List Piece := [.name f.name, .function f]

def Expr.Node.pieces : Expr.Node → List Piece
  | .variable x | .super x => [.name x]
  | .assign x value => [.name x, .expr value]
  | .get object x => [.expr object, .name x]
  | .set object x value => [.expr object, .name x, .expr value]
  | .lambda f => [.function f]
  | node => node.operands.map .expr

def Stmt.Node.pieces : Stmt.Node → List Piece
  | .expression e | .print e => [.expr e]
  | .varDecl x value => .name x :: value.toList.map .expr
  | .block body => [.stmts body]
  | .ifElse condition yes no => .expr condition :: .stmt yes :: no.toList.map .stmt
  | .while condition body => [.expr condition, .stmt body]
  | .for init condition step body =>
    init.toList.map .stmt ++ (condition.toList.map .expr ++ (step.toList.map .expr ++ [.stmt body]))
  | .break | .continue => []
  | .funDecl f => f.pieces
  | .return value => value.toList.map .expr
  | .classDecl x superclass traits methods statics =>
    .name x :: (superclass.toList.map (fun r => .expr r.expr) ++
      (traits.map (fun r => .expr r.expr) ++ (methods ++ statics).flatMap Function.pieces))
  | .traitDecl x methods statics => .name x :: (methods ++ statics).flatMap Function.pieces

/-- The keyword that a statement begins with. -/
def Stmt.Node.keyword? : Stmt.Node → Option Keyword
  | .expression _ | .block _ => none
  | .print _ => some .print
  | .varDecl _ _ => some .var
  | .ifElse _ _ _ => some .if
  | .while _ _ => some .while
  | .for _ _ _ _ => some .for
  | .break => some .break
  | .continue => some .continue
  | .funDecl _ => some .fun
  | .return _ => some .return
  | .classDecl _ _ _ _ _ => some .klass
  | .traitDecl _ _ _ => some .trait

namespace Piece

/-- The pieces right inside a piece. -/
def inner : Piece → List Piece
  | stmts body => body.map stmt
  | stmt s => s.node.pieces
  | expr e => e.node.pieces
  | function f => f.params.map name ++ [stmts f.body]
  | name _ => []

end Piece

/-! ## Stretches of tokens -/

/-- The stretches lie in `us` one behind the other. -/
inductive Sits : List (List Token) → List Token → Prop
  | nil {us : List Token} : Sits [] us
  | cons {segments : List (List Token)} {us vs ws : List Token} :
      Sits segments ws → Sits (vs :: segments) (us ++ vs ++ ws)

namespace Sits

variable {segments segments' : List (List Token)} {us vs : List Token}

theorem after (h : Sits segments vs) : Sits segments (us ++ vs) := by
  cases h with
  | nil => exact .nil
  | cons h =>
    rw [← List.append_assoc, ← List.append_assoc]
    exact .cons h

theorem append (h : Sits segments us) (h' : Sits segments' vs) :
    Sits (segments ++ segments') (us ++ vs) := by
  induction h with
  | nil => exact h'.after
  | cons _ ih =>
    rw [List.append_assoc]
    exact .cons ih

theorem single (us : List Token) : Sits [us] us := by
  have h : Sits [us] ([] ++ us ++ []) := .cons .nil
  rwa [List.nil_append, List.append_nil] at h

theorem isInfix (h : Sits segments us) (hv : vs ∈ segments) : vs <:+: us := by
  induction h with
  | nil => cases hv
  | @cons _ us₁ ws us₂ _ ih =>
    rcases List.mem_cons.1 hv with rfl | hv
    · exact ⟨us₁, us₂, rfl⟩
    · exact (ih hv).trans (List.suffix_append ..).isInfix

/-- Stretches in a row keep to an order that the tokens are in. -/
theorem pairwise {R : Token → Token → Prop} (h : Sits segments us) (hr : us.Pairwise R) :
    segments.Pairwise fun vs ws => ∀ a ∈ vs, ∀ b ∈ ws, R a b := by
  induction h with
  | nil => exact .nil
  | @cons segments us₁ ws us₂ h ih =>
    obtain ⟨-, hr₂, hcross⟩ := List.pairwise_append.1 hr
    refine .cons (fun xs hxs a ha b hb => ?_) (ih hr₂)
    exact hcross a (List.mem_append_right _ ha) b ((h.isInfix hxs).subset hb)

end Sits

/-! ## Pieces on their stretches -/

/-- What a piece says of the tokens that it lies on; what an expression was read from, it can be
read from anywhere. -/
def Piece.Fits : Piece → List Token → Prop
  | .stmts _, _ | .function _, _ => True
  | .stmt s, us =>
    Spans us s.span ∧ ∀ k, s.node.keyword? = some k → us.head?.map Token.kind = some (.keyword k)
  | .expr e, us =>
    Spans us e.span ∧ Derives Parser.Within (.expr .assignment e) (us.map Token.kind)
  | .name x, us => ∃ t, us = [t] ∧ t.kind = .identifier x.name ∧ t.span = x.span

/-- The piece lies on the tokens, and all that is inside it on stretches of them. -/
inductive Laid : Piece → List Token → Prop
  | mk {p : Piece} {us : List Token} {parts : List (Piece × List Token)} :
      p.Fits us → (parts.map Prod.fst).Perm p.inner → Sits (parts.map Prod.snd) us →
      (∀ q ∈ parts, Laid q.1 q.2) → Laid p us

/-- The pieces lie on stretches of the tokens, one behind the other, perhaps in another order. -/
def Holds (ps : List Piece) (us : List Token) : Prop :=
  ∃ parts : List (Piece × List Token), (parts.map Prod.fst).Perm ps ∧
    Sits (parts.map Prod.snd) us ∧ ∀ q ∈ parts, Laid q.1 q.2

theorem laid_iff {p : Piece} {us : List Token} : Laid p us ↔ p.Fits us ∧ Holds p.inner us := by
  constructor
  · rintro ⟨hfits, hperm, hsits, hlaid⟩
    exact ⟨hfits, _, hperm, hsits, hlaid⟩
  · rintro ⟨hfits, parts, hperm, hsits, hlaid⟩
    exact .mk hfits hperm hsits hlaid

namespace Holds

variable {ps qs : List Piece} {p : Piece} {us vs : List Token}

theorem nil : Holds [] us := ⟨[], .nil, .nil, nofun⟩

theorem append (h : Holds ps us) (h' : Holds qs vs) : Holds (ps ++ qs) (us ++ vs) := by
  obtain ⟨parts, hperm, hsits, hlaid⟩ := h
  obtain ⟨parts', hperm', hsits', hlaid'⟩ := h'
  refine ⟨parts ++ parts', ?_, ?_, List.forall_mem_append.2 ⟨hlaid, hlaid'⟩⟩
  · rw [List.map_append]
    exact hperm.append hperm'
  · rw [List.map_append]
    exact hsits.append hsits'

theorem after (h : Holds ps vs) : Holds ps (us ++ vs) := by
  have hnone : Holds [] us := nil
  exact hnone.append h

theorem before (h : Holds ps us) : Holds ps (us ++ vs) := by
  have hnone : Holds [] vs := nil
  have := h.append hnone
  rwa [List.append_nil] at this

theorem behind {t : Token} (h : Holds ps us) : Holds ps (t :: us) := by
  have hnone : Holds [] [t] := nil
  exact hnone.append h

theorem perm (h : Holds ps us) (hp : ps.Perm qs) : Holds qs us := by
  obtain ⟨parts, hperm, hsits, hlaid⟩ := h
  exact ⟨parts, hperm.trans hp, hsits, hlaid⟩

theorem single (h : Laid p us) : Holds [p] us :=
  ⟨[(p, us)], .refl _, .single us, by
    rintro _ hq
    cases List.mem_singleton.1 hq
    exact h⟩

theorem cons (h : Laid p us) (h' : Holds ps vs) : Holds (p :: ps) (us ++ vs) :=
  (single h).append h'

theorem exists_of_mem (h : Holds ps us) (hp : p ∈ ps) : ∃ vs, vs <:+: us ∧ Laid p vs := by
  obtain ⟨parts, hperm, hsits, hlaid⟩ := h
  obtain ⟨q, hq, rfl⟩ := List.mem_map.1 (hperm.mem_iff.2 hp)
  exact ⟨q.2, hsits.isInfix (List.mem_map_of_mem hq), hlaid q hq⟩

end Holds

theorem laid_name {x : Identifier} {t : Token} (hk : t.kind = .identifier x.name)
    (hs : t.span = x.span) : Laid (.name x) [t] :=
  laid_iff.2 ⟨⟨t, rfl, hk, hs⟩, .nil⟩

/-- A piece at any depth lies on some of the tokens. -/
theorem Laid.exists_of_mem {p q : Piece} {us : List Token} (h : Laid p us) (hq : q ∈ p.inner) :
    ∃ vs, vs <:+: us ∧ Laid q vs :=
  (laid_iff.1 h).2.exists_of_mem hq

end Lox

import Lox.Proofs.Syntax.Language
import Lox.Proofs.Syntax.Laying

/-!
# Spans select what was read

In a program that is read every expression knows its text: its span cuts the source where it begins
and where it ends, and the cut reads as the expression again, wherever it stood.

    Tree.parse source firstId = .ok tree → Contains tree.body e →
      ∃ slice, e.span.text? source = some slice ∧ …                                (spans_faithful)
-/

namespace Lox

open Lox.Parser Grammar

/-! ## Expressions in a tree -/

mutual

/-- The expressions in a statement that lie in no other one, those of its functions among them. -/
def Stmt.outermost : Stmt → List Expr
  | ⟨_, node⟩ =>
    match node with
    | .expression e | .print e => [e]
    | .varDecl _ value | .return value => value.toList
    | .block body => Stmt.outermosts body
    | .ifElse condition yes no => condition :: (yes.outermost ++ match no with
      | some s => s.outermost
      | none => [])
    | .while condition body => condition :: body.outermost
    | .for init condition step body =>
      (match init with
        | some s => s.outermost
        | none => []) ++ (condition.toList ++ (step.toList ++ body.outermost))
    | .break | .continue => []
    | .funDecl f => f.outermost
    | .classDecl _ superclass traits methods statics =>
      superclass.toList.map Reference.expr ++ (traits.map Reference.expr ++
        (Function.outermosts methods ++ Function.outermosts statics))
    | .traitDecl _ methods statics => Function.outermosts methods ++ Function.outermosts statics

def Stmt.outermosts : List Stmt → List Expr
  | [] => []
  | s :: ss => s.outermost ++ Stmt.outermosts ss

def Function.outermost : Function → List Expr
  | ⟨_, _, body, _, _⟩ => Stmt.outermosts body

def Function.outermosts : List Function → List Expr
  | [] => []
  | f :: fs => f.outermost ++ Function.outermosts fs

end

/-- The expressions right inside an expression; those in the body of a function without a name are
inside no other one in between. -/
def Expr.children (e : Expr) : List Expr :=
  e.node.operands ++ match e.node with
    | .lambda f => f.outermost
    | _ => []

/-- The expressions of a program, at any depth and in all functions; the names of superclasses and
traits are expressions. -/
inductive Contains (body : List Stmt) : Expr → Prop
  | outermost {e : Expr} : e ∈ Stmt.outermosts body → Contains body e
  | child {e child : Expr} : Contains body e → child ∈ e.children → Contains body child

theorem Stmt.outermosts_eq_flatMap (ss : List Stmt) :
    Stmt.outermosts ss = ss.flatMap Stmt.outermost := by
  induction ss with
  | nil => rfl
  | cons s ss ih => rw [Stmt.outermosts, List.flatMap_cons, ih]

theorem Stmt.outermost_ifElse (span : Span) (condition : Expr) (yes : Stmt) (no : Option Stmt) :
    Stmt.outermost ⟨span, .ifElse condition yes no⟩ =
      condition :: (yes.outermost ++ no.toList.flatMap Stmt.outermost) := by
  cases no with
  | none => rfl
  | some s => rw [Option.toList_some, List.flatMap_singleton]; rfl

theorem Stmt.outermost_for (span : Span) (init : Option Stmt) (condition step : Option Expr)
    (body : Stmt) :
    Stmt.outermost ⟨span, .for init condition step body⟩ =
      init.toList.flatMap Stmt.outermost ++
        (condition.toList ++ (step.toList ++ body.outermost)) := by
  cases init with
  | none => rfl
  | some s => rw [Option.toList_some, List.flatMap_singleton]; rfl

theorem Function.outermosts_eq_flatMap (fs : List Function) :
    Function.outermosts fs = fs.flatMap Function.outermost := by
  induction fs with
  | nil => rfl
  | cons f fs ih => rw [Function.outermosts, List.flatMap_cons, ih]

namespace Piece

def outermost : Piece → List Expr
  | stmts body => Stmt.outermosts body
  | stmt s => s.outermost
  | expr e => [e]
  | function f => f.outermost
  | name _ => []

@[simp] theorem flatMap_outermost_expr (es : List Expr) :
    (es.map expr).flatMap outermost = es := by
  rw [List.flatMap_map]
  exact List.flatMap_singleton' es

@[simp] theorem flatMap_outermost_references (rs : List Reference) :
    (rs.map fun r => expr r.expr).flatMap outermost = rs.map Reference.expr := by
  rw [List.flatMap_map]
  exact List.flatMap_pure_eq_map _ rs

@[simp] theorem flatMap_outermost_name (xs : List Identifier) :
    (xs.map name).flatMap outermost = [] := by
  rw [List.flatMap_map]
  exact List.flatMap_eq_nil_iff.2 fun _ _ => rfl

@[simp] theorem flatMap_outermost_pieces (f : Function) :
    f.pieces.flatMap outermost = f.outermost := List.append_nil _

@[simp] theorem flatMap_outermost_functions (fs : List Function) :
    (fs.flatMap Function.pieces).flatMap outermost = Function.outermosts fs := by
  rw [List.flatMap_assoc, Function.outermosts_eq_flatMap]
  simp only [flatMap_outermost_pieces]

@[simp] theorem flatMap_outermost_stmt (ss : List Stmt) :
    (ss.map stmt).flatMap outermost = ss.flatMap Stmt.outermost := by
  rw [List.flatMap_map]
  rfl

/-- The outermost expressions of what is not one itself are those of the pieces inside it. -/
theorem outermost_eq {p : Piece} (h : ∀ e, p ≠ expr e) :
    p.outermost = p.inner.flatMap outermost := by
  cases p with
  | stmts body => rw [inner, flatMap_outermost_stmt, outermost, Stmt.outermosts_eq_flatMap]
  | expr e => exact absurd rfl (h e)
  | function f =>
    rw [inner, List.flatMap_append, flatMap_outermost_name]
    obtain ⟨x, params, body, isGetter, span⟩ := f
    exact (List.append_nil _).symm
  | name x => rfl
  | stmt s =>
    obtain ⟨span, node⟩ := s
    cases node with
    | ifElse => simp [inner, outermost, Stmt.outermost_ifElse, Stmt.Node.pieces]
    | «for» => simp [inner, outermost, Stmt.outermost_for, Stmt.Node.pieces]
    | _ => simp [inner, outermost, Stmt.outermost, Stmt.Node.pieces, Function.outermosts_eq_flatMap]

end Piece

theorem Expr.children_eq (e : Expr) :
    e.children = e.node.pieces.flatMap Piece.outermost := by
  obtain ⟨id, span, node⟩ := e
  cases node <;> simp [Expr.children, Expr.Node.pieces, Expr.Node.operands, Piece.outermost]

/-! ## Where they lie -/

theorem Holds.flatMap {parts : List (Piece × List Token)} {us : List Token}
    {g : Piece → List Piece} (hsits : Sits (parts.map Prod.snd) us)
    (hg : ∀ q ∈ parts, Holds (g q.1) q.2) : Holds ((parts.map Prod.fst).flatMap g) us := by
  generalize hs : parts.map Prod.snd = segments at hsits
  induction hsits generalizing parts with
  | nil =>
    rw [List.map_eq_nil_iff.1 hs]
    exact .nil
  | cons _ ih =>
    obtain ⟨q, parts, rfl, rfl, htail⟩ := List.map_eq_cons_iff.1 hs
    obtain ⟨hq, hg⟩ := List.forall_mem_cons.1 hg
    exact hq.after.append (ih hg htail)

/-- If those of each piece lie on its tokens, so do the outermost expressions of them all. -/
theorem Holds.outermost {ps : List Piece} {us : List Token} {parts : List (Piece × List Token)}
    (hperm : (parts.map Prod.fst).Perm ps) (hsits : Sits (parts.map Prod.snd) us)
    (h : ∀ q ∈ parts, Holds (q.1.outermost.map .expr) q.2) :
    Holds ((ps.flatMap Piece.outermost).map .expr) us := by
  refine (Holds.flatMap (g := fun p => p.outermost.map .expr) hsits h).perm ?_
  rw [← List.map_flatMap]
  exact (hperm.flatMap_right _).map _

/-- The outermost expressions of a piece lie on stretches of its tokens. -/
theorem Laid.outermost {p : Piece} {us : List Token} (h : Laid p us) :
    Holds (p.outermost.map .expr) us := by
  induction h with
  | @mk p us parts hfits hperm hsits hlaid ih =>
    by_cases hp : ∃ e, p = .expr e
    · obtain ⟨e, rfl⟩ := hp
      exact .single (.mk hfits hperm hsits hlaid)
    · rw [Piece.outermost_eq fun e he => hp ⟨e, he⟩]
      exact Holds.outermost hperm hsits ih

theorem Laid.children {e : Expr} {us : List Token} (h : Laid (.expr e) us) :
    Holds (e.children.map .expr) us := by
  obtain ⟨-, parts, hperm, hsits, hlaid⟩ := laid_iff.1 h
  rw [Expr.children_eq]
  exact Holds.outermost hperm hsits fun q hq => (hlaid q hq).outermost

theorem Contains.exists_laid {body : List Stmt} {us : List Token} (h : Laid (.stmts body) us)
    {e : Expr} (he : Contains body e) : ∃ vs, vs <:+: us ∧ Laid (.expr e) vs := by
  induction he with
  | outermost hmem => exact h.outermost.exists_of_mem (List.mem_map_of_mem hmem)
  | child _ hmem ih =>
    obtain ⟨vs, hvs, hlaid⟩ := ih
    obtain ⟨ws, hws, hlaid⟩ := hlaid.children.exists_of_mem (List.mem_map_of_mem hmem)
    exact ⟨ws, hws.trans hvs, hlaid⟩

theorem Parser.State.tokens_start {tokens : List Token} (firstId : ExprId) (hne : tokens ≠ [])
    (h : ∀ t ∈ tokens, ∀ e, t.kind ≠ .invalid e) : (start tokens firstId).tokens = tokens := by
  obtain ⟨t, ts, rfl⟩ := List.exists_cons_of_ne_nil hne
  rw [start, advance, shift]
  split
  · next e he => exact absurd he (h t List.mem_cons_self e)
  · rfl

/-- A program that is read lies on tokens of its source. -/
theorem laid_of_parse {source : String} {firstId : ExprId} {tree : Tree}
    (h : Tree.parse source firstId = .ok tree) :
    ∃ us, us <:+: Token.ofSource source ∧ Laid (.stmts tree.body) us ∧
      ∀ t ∈ us, (∀ e, t.kind ≠ .invalid e) ∧ t.kind ≠ .endOfFile := by
  have hvalid : ∀ t ∈ Token.ofSource source, ∀ e, t.kind ≠ .invalid e := by
    obtain ⟨ts, hts, hd, -⟩ := derives_of_parse h
    exact IsProgram.valid ⟨ts, hts, hd⟩
  have hlined := Token.inLine_ofSource source
  have hne : Token.ofSource source ≠ [] := by
    obtain ⟨ts, t, hts, -⟩ := hlined.ended
    rw [hts]
    exact List.append_ne_nil_of_right_ne_nil _ (List.cons_ne_nil _ _)
  have hstart := State.tokens_start firstId hne hvalid
  obtain ⟨s, hrun, herrors, -⟩ := Tree.parse_eq_ok.1 h
  obtain ⟨-, hlays⟩ :=
    lays_program (fun s => lays_recover ((layingRules _).declaration s)) _ _ _ s hrun herrors
  obtain ⟨us, hpassed, hlaid⟩ := hlays (by rwa [hstart])
  have htokens := hpassed.tokens
  rw [hstart] at htokens
  have hmem : ∀ t ∈ us, t ∈ Token.ofSource source := fun t ht =>
    htokens ▸ List.mem_append_left _ ht
  refine ⟨us, htokens ▸ (List.prefix_append _ _).isInfix, hlaid, fun t ht =>
    ⟨hvalid t (hmem t ht), ?_⟩⟩
  exact (htokens ▸ hlined).ne_endOfFile (List.cons_ne_nil _ _) t ht

/-! ## The text alone -/

theorem Token.Spells.isLexeme {text : List Char} {kind : Kind} (h : Spells text kind)
    (hc : ¬StartsComment text) : IsLexeme text kind := by
  refine ⟨⟨[], .token h (fun more rest kind' hne heq _ => ?_) (by rwa [List.append_nil])⟩, ?_⟩
  · exact hne (List.append_eq_nil_iff.1 heq.symm).1
  · rintro e rfl
    cases h

/-- The tokens of a text between `print` and a semicolon. -/
theorem Token.ofSource_print {text : String} {kinds : List Kind}
    (h : IsText text.toList kinds) : (ofSource ("print " ++ text ++ ";")).map Token.kind =
      .keyword .print :: (kinds ++ [.symbol .semicolon, .endOfFile]) := by
  have hprint : IsLexeme Keyword.print.text.toList (.keyword .print) :=
    (Spells.keyword .print).isLexeme (by rintro ⟨rest, h | h⟩ <;> cases h)
  have hsemicolon : IsLexeme [';'] (.symbol .semicolon) :=
    (Spells.symbol .semicolon).isLexeme (by rintro ⟨rest, h | h⟩ <;> cases h)
  have hend (before : List Char) : ∃ ts, Tiles before [';'] ts ∧
      ts.map Token.kind = [.symbol .semicolon, .endOfFile] :=
    ⟨_, .lexeme .nil (hsemicolon.lexeme (by rintro _ ⟨⟩)) (.endOfFile .nil), rfl⟩
  obtain ⟨ts, hts, hkinds⟩ := hend ([] ++ [] ++ Keyword.print.text.toList ++ [' '] ++ text.toList)
  obtain ⟨us, hus, hkinds'⟩ := h _ [';'] ts (by rintro _ ⟨⟩; rfl) hts
  have hblank := hus.behind_gap (.blank rfl .nil)
  have hall := Tiles.lexeme .nil (hprint.lexeme (by rintro _ ⟨⟩; rfl)) hblank
  have hsource : ("print " ++ text ++ ";").toList =
      [] ++ Keyword.print.text.toList ++ ([' '] ++ (text.toList ++ [';'])) := by
    simp [Keyword.text]
  rw [← hsource] at hall
  have htokens : _ = ofSource ("print " ++ text ++ ";") := hall.eq_allFrom
  rw [← htokens, List.map_cons, List.map_append, hkinds, hkinds']

/-! ## Faithful spans -/

/-- The one span lies in the other. -/
def Span.In (a b : Span) : Prop := b.start.byte ≤ a.start.byte ∧ a.stop.byte ≤ b.stop.byte

/-- The spans do not overlap. -/
def Span.Apart (a b : Span) : Prop := a.stop.byte ≤ b.start.byte ∨ b.stop.byte ≤ a.start.byte

theorem Span.Apart.symm {a b : Span} (h : a.Apart b) : b.Apart a := Or.symm h

theorem Grammar.IsProgram.parse {source : String} {body : List Stmt}
    (h : IsProgram Within source body) (firstId : ExprId) :
    ∃ tree, Tree.parse source firstId = .ok tree ∧ Stmt.bares tree.body = Stmt.bares body := by
  obtain ⟨body', s, hrun, herrors, hbare⟩ := h.run firstId
  refine ⟨⟨body', s.nextId⟩, ?_, hbare⟩
  rw [Tree.parse, run?, hrun]
  dsimp only [Option.getD_some]
  rw [herrors fun _ hn => hn]
  rfl

theorem Stmt.exists_of_bare_eq_print {s : Stmt} {span : Span} {e : Expr}
    (h : s.bare = Stmt.bare ⟨span, .print e⟩) : ∃ e', s.node = .print e' ∧ e'.bare = e.bare := by
  obtain ⟨_, node⟩ := s
  have hprint : Stmt.bare ⟨span, .print e⟩ = ⟨.nowhere, .print e.bare⟩ := rfl
  rw [hprint] at h
  cases node with
  | print e' => exact ⟨e', rfl, by simpa [Stmt.bare] using h⟩
  | varDecl => rw [Stmt.bare_varDecl] at h; cases h
  | «return» => rw [Stmt.bare_return] at h; cases h
  | ifElse => rw [Stmt.bare_ifElse] at h; cases h
  | «for» => rw [Stmt.bare_for] at h; cases h
  | _ => simp [Stmt.bare] at h

/-- An expression that lies on tokens is read from their text again. -/
theorem Laid.parse_print {e : Expr} {us : List Token} {slice : String} (h : Laid (.expr e) us)
    (htext : Token.IsText slice.toList (us.map Token.kind)) (firstId : ExprId) :
    ∃ span printed nextId, Tree.parse ("print " ++ slice ++ ";") firstId =
      .ok ⟨[⟨span, .print printed⟩], nextId⟩ ∧ printed.bare = e.bare := by
  obtain ⟨⟨-, hd⟩, -⟩ := laid_iff.1 h
  have hprogram : IsProgram Within ("print " ++ slice ++ ";") [⟨.nowhere, .print e⟩] := by
    refine ⟨.keyword .print :: (us.map Token.kind ++ [.symbol .semicolon]) ++ [], ?_,
      .someDeclarations (.statement (.print hd) nofun) .noDeclarations⟩
    rw [Token.ofSource_print htext]
    simp
  obtain ⟨⟨body, nextId⟩, hparse, hbare⟩ := hprogram.parse firstId
  obtain ⟨s, rfl⟩ : ∃ s, body = [s] := by
    rw [Stmt.bares_eq_map, Stmt.bares_eq_map] at hbare
    exact List.length_eq_one_iff.1 (by simpa using congrArg List.length hbare)
  obtain ⟨printed, hnode, hprinted⟩ := Stmt.exists_of_bare_eq_print (List.cons.inj hbare).1
  obtain ⟨span, node⟩ := s
  cases hnode
  exact ⟨span, printed, nextId, hparse, hprinted⟩

/-- The span of some of the tokens lies in that of all. -/
theorem Spans.within {us vs : List Token} {span inside : Span} (hi : Spans vs inside)
    (h : Spans us span) (hv : vs <:+: us)
    (hs : ∀ t ∈ us, t.span.start.byte < t.span.stop.byte)
    (hp : us.Pairwise fun a b => a.span.stop.byte ≤ b.span.start.byte) :
    inside.In span := by
  obtain ⟨first, last, hfirst, hlast, rfl⟩ := h
  obtain ⟨first', last', hfirst', hlast', rfl⟩ := hi
  have hmem : first' ∈ us := hv.subset (List.mem_of_mem_head? hfirst')
  have hmem' : last' ∈ us := hv.subset (List.mem_of_getLast? hlast')
  constructor
  · obtain ⟨ts, rfl⟩ := List.head?_eq_some_iff.1 hfirst
    rcases List.mem_cons.1 hmem with rfl | ht
    · exact Nat.le_refl _
    · have hstart := hs first List.mem_cons_self
      have hbehind := (List.pairwise_cons.1 hp).1 first' ht
      dsimp only
      omega
  · obtain ⟨ts, rfl⟩ := List.getLast?_eq_some_iff.1 hlast
    rcases List.mem_append.1 hmem' with ht | ht
    · have hstop := hs last (List.mem_append_right _ (List.mem_singleton_self _))
      have hbefore := (List.pairwise_append.1 hp).2.2 last' ht last (List.mem_singleton_self _)
      dsimp only
      omega
    · cases List.mem_singleton.1 ht
      exact Nat.le_refl _

/-- Expressions on stretches in a row do not overlap. -/
theorem Holds.pairwise_apart {es : List Expr} {us : List Token} (h : Holds (es.map .expr) us)
    (hp : us.Pairwise fun a b => a.span.stop.byte ≤ b.span.start.byte) :
    es.Pairwise fun a b => a.span.Apart b.span := by
  let R : Piece → Piece → Prop := fun p q => ∀ a b, p = .expr a → q = .expr b → a.span.Apart b.span
  have hsymm : ∀ {p q : Piece}, R p q → R q p := fun h a b ha hb => (h b a hb ha).symm
  obtain ⟨parts, hperm, hsits, hlaid⟩ := h
  have hparts : (parts.map Prod.fst).Pairwise R := by
    refine List.pairwise_map.2 ((List.pairwise_map.1 (hsits.pairwise hp)).imp_of_mem ?_)
    rintro ⟨p, vs⟩ ⟨q, ws⟩ hpmem hqmem hpq a b rfl rfl
    obtain ⟨_, last, -, hlast, hspan⟩ := (laid_iff.1 (hlaid _ hpmem)).1.1
    obtain ⟨first, _, hfirst, -, hspan'⟩ := (laid_iff.1 (hlaid _ hqmem)).1.1
    rw [hspan, hspan']
    exact .inl (hpq last (List.mem_of_getLast? hlast) first (List.mem_of_mem_head? hfirst))
  exact (List.pairwise_map.1 ((hperm.pairwise_iff hsymm).1 hparts)).imp fun h => h _ _ rfl rfl

/-- The span of an expression selects a text of the source; those of the expressions right inside it
lie in it and do not overlap, and the text alone is read as the expression again. -/
theorem spans_faithful {source : String} {firstId : ExprId} {tree : Tree}
    (h : Tree.parse source firstId = .ok tree) {e : Expr} (he : Contains tree.body e) :
    (∀ child ∈ e.children, child.span.In e.span) ∧
    e.children.Pairwise (fun a b => a.span.Apart b.span) ∧
    ∃ slice, e.span.text? source = some slice ∧ ∀ firstId', ∃ span printed nextId,
      Tree.parse ("print " ++ slice ++ ";") firstId' = .ok ⟨[⟨span, .print printed⟩], nextId⟩ ∧
        printed.bare = e.bare := by
  obtain ⟨us, hus, hlaid, hgood⟩ := laid_of_parse h
  obtain ⟨vs, hvs, hlaid⟩ := he.exists_laid hlaid
  replace hgood := fun t ht => hgood t (hvs.subset ht)
  have hsource := hvs.trans hus
  obtain ⟨⟨hspan, -⟩, -⟩ := laid_iff.1 hlaid
  obtain ⟨before, text, after, hsplit, htext, -, hisText⟩ := Token.exists_isText_of_spans hsource hspan
    (fun t ht => (hgood t ht).1) fun t ht => (hgood t ht).2
  have hlined := Token.inLine_ofSource source
  have hpairs := hlined.apart.sublist hsource.sublist
  have hsolid : ∀ t ∈ vs, t.span.start.byte < t.span.stop.byte := fun t ht =>
    hlined.solid t (hsource.subset ht) (hgood t ht).2
  refine ⟨fun child hchild => ?_, ?_, String.ofList text, ?_, fun firstId' => ?_⟩
  · obtain ⟨ws, hws, hchild⟩ := hlaid.children.exists_of_mem (List.mem_map_of_mem hchild)
    exact (laid_iff.1 hchild).1.1.within hspan hws hsolid hpairs
  · exact hlaid.children.pairwise_apart hpairs
  · rw [htext]
    exact Token.text?_behind hsplit
  · exact hlaid.parse_print (by rwa [String.toList_ofList]) firstId'

/-- In `x=f(nil);` the call is read from `f(nil)`. -/
theorem spans_faithful_call :
    ∃ tree e, Tree.parse "x=f(nil);" 0 = .ok tree ∧ Contains tree.body e ∧
      e.span.text? "x=f(nil);" = some "f(nil)" ∧
      (∀ child ∈ e.children, child.span.In e.span) ∧
      e.children.Pairwise (fun a b => a.span.Apart b.span) ∧
      ∃ slice, e.span.text? "x=f(nil);" = some slice ∧ ∀ firstId, ∃ span printed nextId,
        Tree.parse ("print " ++ slice ++ ";") firstId = .ok ⟨[⟨span, .print printed⟩], nextId⟩ ∧
          printed.bare = e.bare := by
  let callee : Expr := ⟨1, .onLine 2 3, .variable ⟨"f", .onLine 2 3⟩⟩
  let call : Expr := ⟨3, .onLine 2 8, .call callee [⟨2, .onLine 4 7, .literal .nil⟩]⟩
  let whole : Expr := ⟨4, .onLine 0 8, .assign ⟨"x", .onLine 0 1⟩ call⟩
  have hparse : Tree.parse "x=f(nil);" 0 = .ok ⟨[⟨.onLine 0 9, .expression whole⟩], 5⟩ := by cbv
  have hcontains : Contains [⟨.onLine 0 9, .expression whole⟩] call :=
    .child (.outermost (List.mem_singleton_self whole)) (List.mem_singleton_self call)
  exact ⟨_, call, hparse, hcontains, by cbv, spans_faithful hparse hcontains⟩

end Lox

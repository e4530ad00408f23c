import Lox.Proofs.Scope.Enforced
import Lox.Proofs.Syntax.Faithful
import Lox.Proofs.Syntax.Fault

/-!
# Errors point at their text

The span of an error, whether the parser or the walk over the scopes has found it, selects the text
that the error is about; so the message quotes it.

    located_of_parse, breaks_of_ofProgram → errors_point
-/

namespace Lox

/-! ## Spans and their texts -/

/-- The span selects the slice of the source, and its line is the one that the slice begins on. -/
def Span.Selects (span : Span) (source slice : String) : Prop :=
  span.text? source = some slice ∧ ∃ before after, source.toList = before ++ slice.toList ++ after ∧
    span.start.byte = (String.ofList before).utf8ByteSize ∧ span.line = 1 + before.count '\n'

theorem Span.selects_behind {before text after : List Char} {source : String}
    (h : source.toList = before ++ text ++ after) :
    Span.Selects ⟨.behind before, .behind (before ++ text)⟩ source (String.ofList text) :=
  ⟨Token.text?_behind h, before, after, by rwa [String.toList_ofList], rfl, rfl⟩

theorem Span.isEmpty_behind {before text : List Char} :
    Span.isEmpty ⟨.behind before, .behind (before ++ text)⟩ = true ↔ text = [] := by
  rw [Span.isEmpty, beq_iff_eq]
  constructor
  · intro h
    have hbytes : (String.ofList before).utf8ByteSize =
        (String.ofList (before ++ text)).utf8ByteSize := h
    rw [String.ofList_append, String.utf8ByteSize_append] at hbytes
    cases text with
    | nil => rfl
    | cons c text =>
      rw [String.ofList_cons, String.utf8ByteSize_append, String.utf8ByteSize_singleton] at hbytes
      have := c.utf8Size_pos
      omega
  · rintro rfl
    rw [List.append_nil]

/-- The slice is a word of the source, and the span is that of the word. -/
structure IsWord (source : String) (span : Span) (slice : String) : Prop where
  token : ∃ t ∈ Token.ofSource source, t.isValid = true ∧ t.kind ≠ .endOfFile ∧ t.span = span
  selects : span.Selects source slice
  nonempty : slice ≠ "" ∧ span.isEmpty = false

theorem Token.isWord {source text : String} {t : Token} (ht : t ∈ ofSource source)
    (hv : t.isValid = true) (hne : t.kind ≠ .endOfFile)
    (h : ∀ cs, Spells cs t.kind → cs = text.toList) : IsWord source t.span text := by
  obtain ⟨before, word, after, hsplit, hcovers⟩ := (tiles_ofSource source).covers ht
  obtain ⟨hword, hlexeme⟩ := hcovers.kind.resolve_left fun h => hne h.2.2
  have htext : word = text.toList := by
    generalize hk : t.kind = kind at hlexeme
    cases hlexeme with
    | token hs => exact h word (hk ▸ hs)
    | _ => exact absurd hk (isValid_iff.1 hv _)
  have hselects := Span.selects_behind hsplit
  have hempty : ¬Span.isEmpty ⟨.behind before, .behind (before ++ word)⟩ = true :=
    Span.isEmpty_behind.not.2 hword
  rw [← hcovers.span] at hselects hempty
  rw [htext, String.ofList_toList] at hselects
  refine ⟨⟨t, ht, hv, hne, rfl⟩, hselects, ?_, Bool.eq_false_iff.2 hempty⟩
  rintro rfl
  exact hword htext

/-- The text of a name is the name. -/
theorem Token.isWord_name {source name : String} {t : Token} (ht : t ∈ ofSource source)
    (hk : t.kind = .identifier name) : IsWord source t.span name := by
  refine isWord ht (isValid_iff.2 (by rw [hk]; exact fun _ => Kind.noConfusion))
    (by rw [hk]; exact Kind.noConfusion) fun cs hs => ?_
  rw [hk] at hs
  cases hs
  exact String.toList_ofList.symm

theorem Token.isWord_keyword {source : String} {word : Keyword} {t : Token}
    (ht : t ∈ ofSource source) (hk : t.kind = .keyword word) : IsWord source t.span word.text := by
  refine isWord ht (isValid_iff.2 (by rw [hk]; exact fun _ => Kind.noConfusion))
    (by rw [hk]; exact Kind.noConfusion) fun cs hs => ?_
  rw [hk] at hs
  cases hs
  rfl

theorem Position.advanceBy_keyword (word : Keyword) (p : Position) :
    p.advanceBy word.text.toList =
      { p with byte := p.byte + word.text.utf8ByteSize, column := p.column + word.text.utf8ByteSize } := by
  cases word <;> rfl

/-- Of a span that begins with a keyword the keyword can be cut off. -/
theorem Spans.head_keyword {source : String} {us : List Token} {span : Span} {word : Keyword}
    (h : Spans us span) (hus : us <:+: Token.ofSource source) (hne : ∀ t ∈ us, t.kind ≠ .endOfFile)
    (hk : us.head?.map Token.kind = some (.keyword word)) :
    ∃ t ∈ us, t.kind = .keyword word ∧ t.span = span.head word.text.utf8ByteSize := by
  obtain ⟨first, last, hfirst, hlast, rfl⟩ := h
  have hkind : first.kind = .keyword word := by
    rw [hfirst] at hk
    exact Option.some.inj hk
  have hmem := List.mem_of_mem_head? hfirst
  refine ⟨first, hmem, hkind, ?_⟩
  have hline := Token.inLine_ofSource source
  have hle : first.span.stop ≤ last.span.stop := by
    obtain ⟨ts, rfl⟩ := List.head?_eq_some_iff.1 hfirst
    rcases List.mem_cons.1 (List.mem_of_getLast? hlast) with rfl | hmem'
    · exact Position.le_refl _
    · have hapart := (List.pairwise_cons.1 (hline.apart.sublist hus.sublist)).1 last hmem'
      have hsolid := hline.solid last (hus.subset (List.mem_cons_of_mem _ hmem'))
        (hne last (List.mem_cons_of_mem _ hmem'))
      exact (Position.le_def _ _).2 (.inl (Nat.lt_of_le_of_lt hapart hsolid))
  obtain ⟨before, text, after, -, hcovers⟩ := (Token.tiles_ofSource source).covers (hus.subset hmem)
  obtain ⟨-, hlexeme⟩ := hcovers.kind.resolve_left fun h => hne first hmem h.2.2
  have htext : text = word.text.toList := by
    rw [hkind] at hlexeme
    cases hlexeme with
    | token hs => cases hs; rfl
  have hstop : first.span.stop = first.span.start.advanceBy word.text.toList := by
    rw [hcovers.span, ← htext, Position.behind_append]
  rw [Span.head, ← Position.advanceBy_keyword, ← hstop, Position.min_eq_left hle]

theorem Token.span_of_endOfFile {source : String} {t : Token} (ht : t ∈ ofSource source)
    (hk : t.kind = .endOfFile) : t.span = ⟨.behind source.toList, .behind source.toList⟩ := by
  obtain ⟨before, word, after, hsplit, hcovers⟩ := (tiles_ofSource source).covers ht
  have hend := hcovers.kind.resolve_right fun h => h.2.ne_endOfFile hk
  obtain ⟨rfl, rfl, -⟩ := hend
  rw [List.append_nil, List.append_nil] at hsplit
  have hsource : source.toList = before := hsplit
  rw [hcovers.span, List.append_nil, hsource]

/-! ## Errors of the parser -/

/-- Where an error of the parser is that is not about an invalid token. -/
structure ParseError.Points (e : ParseError) (source slice : String) : Prop where
  /-- It has no text just if it is at the end of the source. -/
  isEmpty_iff : e.span.isEmpty = true ↔
    ∃ t ∈ Token.ofSource source, t.kind = .endOfFile ∧ e.span = t.span
  atEnd : e.span.isEmpty = true → e.span.start = .behind source.toList ∧
    e.render source = e.span.label "Error at end" e.message
  quotes : e.span.isEmpty = false →
    e.render source = e.span.label ("Error at '" ++ slice ++ "'") e.message
  word : e.span.isEmpty = false → e.kind ≠ .tooManyArguments →
    ∃ t ∈ Token.ofSource source, t.isValid = true ∧ t.kind ≠ .endOfFile ∧ e.span = t.span
  argument : e.kind = .tooManyArguments →
    e.span.isEmpty = false ∧ Parser.Surplus (Token.ofSource source) e.span

theorem ParseError.render_eq {e : ParseError} {source slice : String}
    (hk : ∀ error, e.kind ≠ .illegalToken error) (h : e.span.text? source = some slice) :
    e.render source = if e.span.isEmpty then e.span.label "Error at end" e.message
      else e.span.label ("Error at '" ++ slice ++ "'") e.message := by
  unfold render
  split
  · next error he => exact absurd he (hk error)
  · rw [h]

namespace Parser

/-- Some of the tokens are those that have been read. -/
theorem IsRead.exists_spans {source : String} {n : Nat} {e : Expr}
    (h : IsRead (Token.ofSource source) n e) :
    ∃ us, us.Sublist (Token.ofSource source) ∧ Spans us e.span ∧ ∀ t ∈ us, t.kind ≠ .endOfFile := by
  obtain ⟨s, t, hs, ht, -, us, hus, -, hspan⟩ := h
  have hline := ((Token.inLine_ofSource source).suffix hs (List.cons_ne_nil _ _)).filter
  have hvalid : InLine (us ++ t.valid) := hus ▸ hline
  have hne : t.valid ≠ [] := by
    rw [State.valid_eq ht]
    exact List.cons_ne_nil _ _
  refine ⟨us, ?_, hspan, hvalid.ne_endOfFile hne⟩
  have hsub : s.valid.Sublist s.tokens := List.filter_sublist
  rw [hus] at hsub
  exact ((List.sublist_append_left us _).trans hsub).trans hs.sublist

theorem Surplus.exists_text {source : String} {span : Span}
    (h : Surplus (Token.ofSource source) span) :
    ∃ before text after, source.toList = before ++ text ++ after ∧
      span = ⟨.behind before, .behind (before ++ text)⟩ ∧ text ≠ [] := by
  obtain ⟨-, -, -, hread⟩ := h
  obtain ⟨us, hus, hspan, hne⟩ := hread.exists_spans
  exact Token.exists_text_of_spans hus hspan hne

/-- An error that is located selects a text. -/
theorem Located.points {source : String} {e : ParseError} (h : Located (Token.ofSource source) e) :
    ∃ slice, e.span.Selects source slice ∧
      ((∀ error, e.kind ≠ .illegalToken error) → e.Points source slice) := by
  have hend {t : Token} {span : Span} (ht : t ∈ Token.ofSource source) (hk : t.kind = .endOfFile)
      (hspan : span = t.span) : span.isEmpty = true := by
    rw [hspan, Token.span_of_endOfFile ht hk]
    exact beq_self_eq_true _
  cases h with
  | @illegal t error ht hk =>
    obtain ⟨before, text, after, hsplit, hcovers⟩ := (Token.tiles_ofSource source).covers ht
    refine ⟨String.ofList text, ?_, fun h => absurd rfl (h error)⟩
    rw [hcovers.span]
    exact Span.selects_behind hsplit
  | @word t kind ht hv hkind =>
    obtain ⟨before, text, after, hsplit, hcovers⟩ := (Token.tiles_ofSource source).covers ht
    have hempty : t.span.isEmpty = true ↔ text = [] := by
      rw [hcovers.span]
      exact Span.isEmpty_behind
    have hselects : t.span.Selects source (String.ofList text) := by
      rw [hcovers.span]
      exact Span.selects_behind hsplit
    refine ⟨String.ofList text, hselects, fun hillegal => ?_⟩
    have hrender := ParseError.render_eq hillegal hselects.1
    refine ⟨⟨fun h => ⟨t, ht, ?_, rfl⟩, fun ⟨t', ht', hk', hspan⟩ => hend ht' hk' hspan⟩,
      fun h => ⟨?_, ?_⟩, fun h => ?_, fun h _ => ⟨t, ht, hv, fun hk => ?_, rfl⟩, ?_⟩
    · exact (hcovers.kind.resolve_right fun hne => hne.1 (hempty.1 h)).2.2
    · have hk := (hcovers.kind.resolve_right fun hne => hne.1 (hempty.1 h)).2.2
      rw [Token.span_of_endOfFile ht hk]
    · rw [hrender, if_pos h]
    · rw [hrender, if_neg (Bool.eq_false_iff.1 h)]
    · exact Bool.eq_false_iff.1 h (hend ht hk rfl)
    · rintro rfl
      cases hkind
  | @argument span hsurplus =>
    obtain ⟨before, text, after, hsplit, hspan, hne⟩ := hsurplus.exists_text
    have hempty : span.isEmpty = false := by
      rw [hspan, Bool.eq_false_iff, Ne, Span.isEmpty_behind]
      exact hne
    have hselects : span.Selects source (String.ofList text) := by
      rw [hspan]
      exact Span.selects_behind hsplit
    refine ⟨String.ofList text, hselects, fun hillegal => ?_⟩
    have hrender := ParseError.render_eq hillegal hselects.1
    refine ⟨⟨fun h => ?_, fun ⟨t, ht, hk, hspan⟩ => hend ht hk hspan⟩, fun h => ?_, fun h => ?_,
      fun _ h => absurd rfl h, fun _ => ⟨hempty, hsurplus⟩⟩
    · cases hempty.symm.trans h
    · cases hempty.symm.trans h
    · rw [hrender, if_neg (Bool.eq_false_iff.1 h)]

end Parser

/-! ## Where the parts of a program lie -/

open Nesting Grammar

/-- A part of a program as a piece of its tree. -/
def Nesting.Part.piece : Part → Piece
  | .stmts body => .stmts body
  | .stmt s => .stmt s
  | .expr e => .expr e
  | .function f => .function f

theorem Piece.function_mem_flatMap {f : Function} {fs : List Function} (h : f ∈ fs) :
    .function f ∈ fs.flatMap Function.pieces :=
  List.mem_flatMap.2 ⟨f, h, List.mem_cons_of_mem _ (List.mem_singleton_self _)⟩

/-- The members of a class or trait are among its pieces. -/
theorem Nesting.Part.piece_mem_members {ms ss : List Function} {m m' : Function → List Layer}
    {layers : List Layer} {q : Part}
    (h : (layers, q) ∈ (ms.map fun f => (m f, Part.function f)) ++
      ss.map fun f => (m' f, Part.function f)) :
    q.piece ∈ (ms ++ ss).flatMap Function.pieces := by
  rcases List.mem_append.1 h with h | h <;> obtain ⟨f, hf, heq⟩ := List.mem_map.1 h <;> cases heq
  · exact Piece.function_mem_flatMap (List.mem_append_left _ hf)
  · exact Piece.function_mem_flatMap (List.mem_append_right _ hf)

/-- What is right inside a part is right inside its piece. -/
theorem Nesting.Part.piece_mem_inner {p q : Part} {layers : List Layer}
    (h : (layers, q) ∈ p.inner) : q.piece ∈ p.piece.inner := by
  cases p with
  | stmts body =>
    obtain ⟨s, hs, heq⟩ := List.mem_map.1 h
    cases heq
    exact List.mem_map_of_mem hs
  | function f =>
    cases List.mem_singleton.1 h
    exact List.mem_append_right _ (List.mem_singleton_self _)
  | expr e =>
    obtain ⟨id, span, node⟩ := e
    show q.piece ∈ node.pieces
    cases node <;> grind [Part.inner, Part.piece, Expr.Node.operands, Expr.Node.pieces]
  | stmt s =>
    obtain ⟨span, node⟩ := s
    show q.piece ∈ node.pieces
    cases node with
    | classDecl =>
      exact List.mem_cons_of_mem _
        (List.mem_append_right _ (List.mem_append_right _ (piece_mem_members h)))
    | traitDecl => exact List.mem_cons_of_mem _ (piece_mem_members h)
    | _ => grind [Part.inner, Part.piece, Stmt.Node.pieces, Function.pieces]

theorem Nesting.Lies.exists_laid {body : List Stmt} {us : List Token} {path : List Layer}
    {part : Part} (h : Lies body path part) (hl : Laid (.stmts body) us) :
    ∃ vs, vs <:+: us ∧ Laid part.piece vs := by
  induction h with
  | self => exact ⟨us, List.infix_rfl, hl⟩
  | down _ hinner ih =>
    obtain ⟨vs, hvs, hlaid⟩ := ih
    obtain ⟨ws, hws, hlaid⟩ := hlaid.exists_of_mem (Part.piece_mem_inner hinner)
    exact ⟨ws, hws.trans hvs, hlaid⟩

/-- The tokens lie on some of the others. -/
theorem Laid.exists_in {p q : Piece} {us : List Token} (h : Laid p us)
    (hq : ∃ r ∈ p.inner, ∀ vs, Laid r vs → ∃ ws, ws <:+: vs ∧ Laid q ws) :
    ∃ ws, ws <:+: us ∧ Laid q ws := by
  obtain ⟨r, hr, hq⟩ := hq
  obtain ⟨vs, hvs, hlaid⟩ := h.exists_of_mem hr
  obtain ⟨ws, hws, hlaid⟩ := hq vs hlaid
  exact ⟨ws, hws.trans hvs, hlaid⟩

/-- The name that a statement declares lies in it. -/
theorem Stmt.exists_laid_name (s : Stmt) {x : Identifier} (hx : x ∈ s.declarations)
    {us : List Token} (h : Laid (.stmt s) us) : ∃ vs, vs <:+: us ∧ Laid (.name x) vs := by
  obtain ⟨span, node⟩ := s
  cases node with
  | varDecl | classDecl | traitDecl | funDecl =>
    cases List.mem_singleton.1 hx
    exact h.exists_of_mem List.mem_cons_self
  | ifElse condition yes no =>
    have hyes (hx : x ∈ yes.declarations) : ∃ vs, vs <:+: us ∧ Laid (.name x) vs :=
      h.exists_in ⟨.stmt yes, List.mem_cons_of_mem _ List.mem_cons_self,
        fun _ => yes.exists_laid_name hx⟩
    cases no with
    | none =>
      rw [Stmt.declarations, List.append_nil] at hx
      exact hyes hx
    | some s =>
      rw [Stmt.declarations] at hx
      rcases List.mem_append.1 hx with hx | hx
      · exact hyes hx
      · exact h.exists_in ⟨.stmt s, by simp [Piece.inner, Stmt.Node.pieces],
          fun _ => s.exists_laid_name hx⟩
  | «while» condition body =>
    exact h.exists_in ⟨.stmt body, by simp [Piece.inner, Stmt.Node.pieces],
      fun _ => body.exists_laid_name hx⟩
  | _ => cases hx

/-- So do the names of a scope in the part that opens it. -/
theorem Nesting.Part.exists_laid_name {part : Part} {x : Identifier} (hx : x ∈ part.declarations)
    {us : List Token} (h : Laid part.piece us) : ∃ vs, vs <:+: us ∧ Laid (.name x) vs := by
  have hbody {body : List Stmt} (hx : x ∈ body.flatMap Stmt.declarations) {vs : List Token}
      (h : Laid (.stmts body) vs) : ∃ ws, ws <:+: vs ∧ Laid (.name x) ws := by
    obtain ⟨s, hs, hx⟩ := List.mem_flatMap.1 hx
    exact h.exists_in ⟨.stmt s, List.mem_map_of_mem hs, fun _ => s.exists_laid_name hx⟩
  cases part with
  | stmts | expr => cases hx
  | function f =>
    rcases List.mem_append.1 hx with hx | hx
    · exact h.exists_of_mem (List.mem_append_left _ (List.mem_map_of_mem hx))
    · exact h.exists_in ⟨.stmts f.body, by simp [Part.piece, Piece.inner], fun _ => hbody hx⟩
  | stmt s =>
    obtain ⟨span, node⟩ := s
    cases node with
    | block body =>
      exact h.exists_in ⟨.stmts body, List.mem_singleton_self _, fun _ => hbody hx⟩
    | «for» init condition step body =>
      rcases List.mem_append.1 hx with hx | hx
      · obtain ⟨s, hs, hx⟩ := List.mem_flatMap.1 hx
        exact h.exists_in ⟨.stmt s, List.mem_append_left _ (List.mem_map_of_mem hs),
          fun _ => s.exists_laid_name hx⟩
      · exact h.exists_in ⟨.stmt body, by simp [Part.piece, Piece.inner, Stmt.Node.pieces],
          fun _ => body.exists_laid_name hx⟩
    | _ => cases hx

/-! ## Reads in own initializers -/

namespace Resolution

/-- If the walk ends with a local read in its own initializer, the error is at a variable of the
program. -/
def FindsRead (body : List Stmt) (w : Walk Unit) : Prop :=
  ∀ s t e, w s = .error e t → IsOwnRead e → ∃ id span x,
    Contains body ⟨id, span, .variable x⟩ ∧ e = ⟨x.span, .readInOwnInitializer x.name⟩

namespace FindsRead

variable {body : List Stmt} {w w' : Walk Unit}

theorem bind (h : FindsRead body w) (h' : FindsRead body w') : FindsRead body (do w; w') := by
  intro s t e ht hown
  rcases EStateM.bind_eq_error.1 ht with ht | ⟨_, u, -, ht⟩
  · exact h s t e ht hown
  · exact h' u t e ht hown

theorem within {region : Region} (h : FindsRead body w) :
    FindsRead body (within region w) := by
  intro s t e ht
  obtain ⟨u, hu⟩ := within_eq_error ht
  exact h _ u e hu

theorem inScope {scope : Scope} (h : FindsRead body w) : FindsRead body (inScope scope w) := by
  intro s t e ht
  obtain ⟨u, hu⟩ := inScope_eq_error ht
  exact h _ u e hu

theorem pure : FindsRead body (Pure.pure ()) := fun _ _ _ ht _ => by cases ht

theorem modify (f : State → State) : FindsRead body (modify f) := fun _ _ _ ht _ => by cases ht

/-- A step that finds nothing but other errors. -/
theorem of_other (h : ∀ s t e, w s = .error e t → ¬IsOwnRead e) : FindsRead body w :=
  fun s t e ht hown => absurd hown (h s t e ht)

theorem forM {α : Type} {walk : α → Walk Unit} {as : List α}
    (h : ∀ a ∈ as, FindsRead body (walk a)) : FindsRead body (as.forM walk) := by
  induction as with
  | nil => exact pure
  | cons a as ih =>
    obtain ⟨ha, has⟩ := List.forall_mem_cons.1 h
    exact ha.bind (ih has)

end FindsRead

section

variable {body : List Stmt}

theorem findsRead_fail {span : Span} {kind : ScopeErrorKind}
    (h : ∀ name, kind ≠ .readInOwnInitializer name) : FindsRead body (fail span kind) := by
  refine .of_other ?_
  rintro s t _ ⟨⟩ ⟨name, hname⟩
  exact h name hname

theorem findsRead_declare (name : Identifier) (warns : Bool) :
    FindsRead body (declare name warns) := by
  refine .of_other fun s t e ht => ?_
  rw [declare, EStateM.get_bind_apply] at ht
  cases hs : s.scopes with
  | nil =>
    simp only [hs] at ht
    cases ht
  | cons scope scopes =>
    simp only [hs] at ht
    split at ht
    · cases ht
      rintro ⟨_, ⟨⟩⟩
    · cases ht

theorem findsRead_introduce (name : Identifier) (warns : Bool) :
    FindsRead body (introduce name warns) := (findsRead_declare name warns).bind (.modify _)

theorem findsRead_readName {id : ExprId} {span : Span} {name : Identifier}
    (h : Contains body ⟨id, span, .variable name⟩) : FindsRead body (readName id name) := by
  intro s t e ht _
  rw [readName, EStateM.get_bind_apply] at ht
  split at ht
  · cases ht
    exact ⟨id, span, name, h, rfl⟩
  · cases ht

theorem findsRead_reference {r : Reference} (h : Contains body r.expr) :
    FindsRead body (reference r) := findsRead_readName h

theorem findsRead_receiver (id : ExprId) (span : Span) : FindsRead body (receiver id span) := by
  refine .of_other fun s t e ht => ?_
  rw [receiver, EStateM.get_bind_apply] at ht
  split at ht
  · cases ht
    rintro ⟨_, ⟨⟩⟩
  · split at ht
    · cases ht
      rintro ⟨_, ⟨⟩⟩
    · cases ht

theorem findsRead_superclass (id : ExprId) (span : Span) :
    FindsRead body (superclass id span) := by
  refine .of_other fun s t e ht => ?_
  rw [superclass, EStateM.get_bind_apply] at ht
  cases howner : s.context.owner <;> simp only [howner] at ht <;> cases ht <;> rintro ⟨_, ⟨⟩⟩

theorem findsRead_loopControl (span : Span) (word : Keyword) :
    FindsRead body (loopControl span word) := by
  intro s t e ht
  rw [loopControl, EStateM.get_bind_apply] at ht
  split at ht
  · exact findsRead_fail (fun _ => ScopeErrorKind.noConfusion) s t e ht
  · cases ht

theorem findsRead_returnAt (span : Span) : FindsRead body (returnAt span) := by
  intro s t e ht
  rw [returnAt, EStateM.get_bind_apply] at ht
  split at ht
  · exact findsRead_fail (fun _ => ScopeErrorKind.noConfusion) s t e ht
  · cases ht

theorem findsRead_returnValueAt (span : Span) : FindsRead body (returnValueAt span) := by
  intro s t e ht
  rw [returnValueAt, EStateM.get_bind_apply] at ht
  split at ht
  · exact findsRead_fail (fun _ => ScopeErrorKind.noConfusion) s t e ht
  · cases ht

theorem findsRead_checkSuperclass (name super : Identifier) :
    FindsRead body (checkSuperclass name super) := by
  unfold checkSuperclass
  split
  · exact findsRead_fail fun _ => ScopeErrorKind.noConfusion
  · exact .pure

end

mutual

/-- In an expression of the program it is so too; lambdas have statements of their own. -/
theorem findsRead_expr {body : List Stmt} (e : Expr) (h : Contains body e) :
    FindsRead body (expr e) := by
  obtain ⟨id, span, node⟩ := e
  have hoperand {e : Expr} (he : e ∈ node.operands) : Contains body e :=
    .child h (List.mem_append_left _ he)
  cases node with
  | literal value => exact .pure
  | group e | unary op e | get e property =>
    exact findsRead_expr e (hoperand (by simp [Expr.Node.operands]))
  | binary op left right | logical op left right | index left right =>
    exact (findsRead_expr left (hoperand (by simp [Expr.Node.operands]))).bind
      (findsRead_expr right (hoperand (by simp [Expr.Node.operands])))
  | ternary condition yes no =>
    exact (findsRead_expr condition (hoperand (by simp [Expr.Node.operands]))).bind
      ((findsRead_expr yes (hoperand (by simp [Expr.Node.operands]))).bind
        (findsRead_expr no (hoperand (by simp [Expr.Node.operands]))))
  | «variable» name => exact findsRead_readName h
  | assign name value =>
    exact (findsRead_expr value (hoperand (by simp [Expr.Node.operands]))).bind (.modify _)
  | call callee args =>
    exact (findsRead_expr callee (hoperand (by simp [Expr.Node.operands]))).bind
      (findsRead_exprs args fun e he => hoperand (by simp [Expr.Node.operands, he]))
  | set object property value =>
    exact (findsRead_expr value (hoperand (by simp [Expr.Node.operands]))).bind
      (findsRead_expr object (hoperand (by simp [Expr.Node.operands])))
  | array elements =>
    exact findsRead_exprs elements fun e he => hoperand (by simp [Expr.Node.operands, he])
  | indexSet array position value =>
    exact (findsRead_expr array (hoperand (by simp [Expr.Node.operands]))).bind
      ((findsRead_expr position (hoperand (by simp [Expr.Node.operands]))).bind
        (findsRead_expr value (hoperand (by simp [Expr.Node.operands]))))
  | lambda f =>
    exact findsRead_function .function f fun e he => .child h (List.mem_append_right _ he)
  | this => exact findsRead_receiver id span
  | super method => exact findsRead_superclass id span

theorem findsRead_exprs {body : List Stmt} (es : List Expr) (h : ∀ e ∈ es, Contains body e) :
    FindsRead body (exprs es) := by
  cases es with
  | nil => exact .pure
  | cons e es =>
    obtain ⟨he, hes⟩ := List.forall_mem_cons.1 h
    exact (findsRead_expr e he).bind (findsRead_exprs es hes)

theorem findsRead_function {body : List Stmt} (kind : FunctionContext) (f : Function)
    (h : ∀ e ∈ f.outermost, Contains body e) : FindsRead body (function kind f) := by
  obtain ⟨name, params, ss, isGetter, span⟩ := f
  exact .within (.inScope (.bind (.forM fun p _ => findsRead_introduce p false)
    (findsRead_stmts ss h)))

theorem findsRead_methods {body : List Stmt} (fs : List Function)
    (h : ∀ e ∈ Function.outermosts fs, Contains body e) : FindsRead body (methods fs) := by
  cases fs with
  | nil => exact .pure
  | cons f fs =>
    obtain ⟨hf, hfs⟩ := List.forall_mem_append.1 h
    exact (FindsRead.inScope (findsRead_function _ f hf)).bind (findsRead_methods fs hfs)

theorem findsRead_staticMethods {body : List Stmt} (fs : List Function)
    (h : ∀ e ∈ Function.outermosts fs, Contains body e) : FindsRead body (staticMethods fs) := by
  cases fs with
  | nil => exact .pure
  | cons f fs =>
    obtain ⟨hf, hfs⟩ := List.forall_mem_append.1 h
    exact (findsRead_function _ f hf).bind (findsRead_staticMethods fs hfs)

theorem findsRead_stmts {body : List Stmt} (ss : List Stmt)
    (h : ∀ e ∈ Stmt.outermosts ss, Contains body e) : FindsRead body (stmts ss) := by
  cases ss with
  | nil => exact .pure
  | cons s ss =>
    obtain ⟨hs, hss⟩ := List.forall_mem_append.1 h
    exact (findsRead_stmt s hs).bind (findsRead_stmts ss hss)

/-- In a statement of the program a local that is read in its own initializer is one of the
variables of the program. -/
theorem findsRead_stmt {body : List Stmt} (s : Stmt) (h : ∀ e ∈ s.outermost, Contains body e) :
    FindsRead body (stmt s) := by
  obtain ⟨span, node⟩ := s
  cases node with
  | expression e | print e => exact findsRead_expr e (h e (List.mem_singleton_self e))
  | varDecl name init =>
    rw [stmt_varDecl]
    refine (findsRead_declare name true).bind (.bind ?_ (.modify _))
    cases init with
    | none => exact .pure
    | some e => exact findsRead_expr e (h e (List.mem_singleton_self e))
  | block ss => exact .inScope (findsRead_stmts ss h)
  | ifElse condition yes no =>
    rw [stmt_ifElse]
    rw [Stmt.outermost_ifElse] at h
    obtain ⟨hc, h⟩ := List.forall_mem_cons.1 h
    obtain ⟨hyes, hno⟩ := List.forall_mem_append.1 h
    refine (findsRead_expr condition hc).bind ((findsRead_stmt yes hyes).bind ?_)
    cases no with
    | none => exact .pure
    | some s => exact findsRead_stmt s fun e he => hno e (by simpa using he)
  | «while» condition ss =>
    obtain ⟨hc, hs⟩ := List.forall_mem_cons.1 h
    exact (findsRead_expr condition hc).bind (.within (findsRead_stmt ss hs))
  | «for» init condition step ss =>
    rw [stmt_for]
    rw [Stmt.outermost_for] at h
    obtain ⟨hi, h⟩ := List.forall_mem_append.1 h
    obtain ⟨hc, h⟩ := List.forall_mem_append.1 h
    obtain ⟨hstep, hs⟩ := List.forall_mem_append.1 h
    have hinit : FindsRead body (optional stmt init) := by
      cases init with
      | none => exact .pure
      | some s => exact findsRead_stmt s fun e he => hi e (by simpa using he)
    have hcondition : FindsRead body (optional expr condition) := by
      cases condition with
      | none => exact .pure
      | some e => exact findsRead_expr e (hc e (List.mem_singleton_self e))
    have hbehind : FindsRead body (optional expr step) := by
      cases step with
      | none => exact .pure
      | some e => exact findsRead_expr e (hstep e (List.mem_singleton_self e))
    exact .inScope (hinit.bind (hcondition.bind (hbehind.bind (.within (findsRead_stmt ss hs)))))
  | «break» => exact findsRead_loopControl span .break
  | «continue» => exact findsRead_loopControl span .continue
  | funDecl f => exact (findsRead_introduce f.name true).bind (findsRead_function _ f h)
  | «return» value =>
    rw [stmt_return]
    refine (findsRead_returnAt span).bind ?_
    cases value with
    | none => exact .pure
    | some e =>
      exact (findsRead_returnValueAt span).bind (findsRead_expr e (h e (List.mem_singleton_self e)))
  | classDecl name superclass traits ms ss =>
    obtain ⟨hsuper, h⟩ := List.forall_mem_append.1 h
    obtain ⟨htraits, h⟩ := List.forall_mem_append.1 h
    obtain ⟨hms, hss⟩ := List.forall_mem_append.1 h
    have hreferences : FindsRead body (traits.forM reference) := .forM fun r hr =>
      findsRead_reference (htraits _ (List.mem_map_of_mem hr))
    have hmembers := (findsRead_methods ms hms).bind (findsRead_staticMethods ss hss)
    cases superclass with
    | none => exact (findsRead_introduce name true).bind (hreferences.bind (.within hmembers))
    | some r =>
      rw [stmt_subclass]
      exact (findsRead_introduce name true).bind ((findsRead_checkSuperclass name r.name).bind
        ((findsRead_reference (hsuper _ (List.mem_singleton_self _))).bind
          (hreferences.bind (.within (.inScope hmembers)))))
  | traitDecl name ms ss =>
    obtain ⟨hms, hss⟩ := List.forall_mem_append.1 h
    exact (findsRead_introduce name true).bind
      (.within ((findsRead_methods ms hms).bind (findsRead_staticMethods ss hss)))

end

end Resolution

/-! ## What errors are about -/

/-- The keyword that an error of the kind is at, if it is not at a name. -/
def ScopeErrorKind.keyword? : ScopeErrorKind → Option Keyword
  | redeclared _ | readInOwnInitializer _ | inheritFromSelf => none
  | topLevelReturn | valueFromInitializer => some .return
  | loopControlOutsideLoop word => some word
  | thisOutsideClass | thisInStaticMethod => some .this
  | superOutsideClass | superWithoutSuperclass | superInTrait => some .super

/-- What the error is about in the program, and its text. -/
inductive Blames (body : List Stmt) : ScopeError → String → Prop
  | read {id : ExprId} {span : Span} {x : Identifier} : Contains body ⟨id, span, .variable x⟩ →
      Blames body ⟨x.span, .readInOwnInitializer x.name⟩ x.name
  /-- A declaration behind one of the same name in the same scope. -/
  | declaration {path : List Layer} {part : Part} {x : Identifier} {before after : List Identifier} :
      Lies body path part → part.declarations = before ++ x :: after →
      x.name ∈ before.map Identifier.name → Blames body ⟨x.span, .redeclared x.name⟩ x.name
  | superclass {path : List Layer} {span : Span} {x : Identifier} {r : Reference}
      {traits : List Reference} {ms ss : List Function} :
      Lies body path (.stmt ⟨span, .classDecl x (some r) traits ms ss⟩) → r.name.name = x.name →
      Blames body ⟨r.name.span, .inheritFromSelf⟩ x.name
  | keyword {path : List Layer} {part : Part} {e : ScopeError} {word : Keyword} :
      Lies body path part → Breaks path part e → e.kind.keyword? = some word →
      Blames body e word.text

theorem exists_blames {body : List Stmt} {e : ScopeError}
    (h : Resolution.ofProgram body = .error e) : ∃ slice, Blames body e slice := by
  rcases Resolution.breaks_of_ofProgram h with hown | ⟨path, part, hl, hb⟩
  · unfold Resolution.ofProgram at h
    split at h
    · cases h
    · next t ht =>
      cases h
      obtain ⟨id, span, x, hx, rfl⟩ :=
        Resolution.findsRead_stmts body (fun _ => .outermost) _ _ _ ht hown
      exact ⟨_, .read hx⟩
  · cases hb with
    | redeclared hrepeats =>
      obtain ⟨before, x, after, hdeclarations, hx, rfl⟩ := hrepeats
      exact ⟨_, .declaration hl hdeclarations hx⟩
    | superclass heq => exact ⟨_, .superclass hl heq⟩
    | «return» hnot => exact ⟨_, .keyword hl (.return hnot) rfl⟩
    | value hin => exact ⟨_, .keyword hl (.value hin) rfl⟩
    | «break» hnot => exact ⟨_, .keyword hl (.break hnot) rfl⟩
    | «continue» hnot => exact ⟨_, .keyword hl (.continue hnot) rfl⟩
    | thisOutside hm => exact ⟨_, .keyword hl (.thisOutside hm) rfl⟩
    | thisInStatic hm hs => exact ⟨_, .keyword hl (.thisInStatic hm hs) rfl⟩
    | superOutside hm => exact ⟨_, .keyword hl (.superOutside hm) rfl⟩
    | superWithout hm ho => exact ⟨_, .keyword hl (.superWithout hm ho) rfl⟩
    | superInTrait hm ho => exact ⟨_, .keyword hl (.superInTrait hm ho) rfl⟩

section

variable {source : String} {us : List Token} (hus : us <:+: Token.ofSource source)
include hus

theorem Laid.isWord_name {x : Identifier} {vs : List Token} (h : Laid (.name x) vs)
    (hvs : vs <:+: us) : IsWord source x.span x.name := by
  obtain ⟨⟨t, rfl, hk, hspan⟩, -⟩ := laid_iff.1 h
  rw [← hspan]
  exact Token.isWord_name ((hvs.trans hus).subset (List.mem_singleton_self t)) hk

theorem Laid.isWord_this {id : ExprId} {span : Span} {vs : List Token}
    (h : Laid (.expr ⟨id, span, .this⟩) vs) (hvs : vs <:+: us) :
    IsWord source span Keyword.this.text := by
  obtain ⟨⟨⟨first, last, hfirst, hlast, hspan⟩, hd⟩, -⟩ := laid_iff.1 h
  obtain ⟨t, rfl, hk⟩ := List.map_eq_singleton_iff.1 hd.eq_of_this
  have hspan' : span = t.span := by
    cases hfirst
    cases hlast
    exact hspan
  rw [hspan']
  exact Token.isWord_keyword ((hvs.trans hus).subset (List.mem_singleton_self t)) hk

variable (hne : ∀ t ∈ us, t.kind ≠ .endOfFile)
include hne

theorem Spans.isWord_head {vs : List Token} {span : Span} {word : Keyword} (h : Spans vs span)
    (hvs : vs <:+: us) (hk : vs.head?.map Token.kind = some (.keyword word)) :
    IsWord source (span.head word.text.utf8ByteSize) word.text := by
  obtain ⟨t, ht, hword, hspan⟩ :=
    h.head_keyword (hvs.trans hus) (fun t ht => hne t (hvs.subset ht)) hk
  rw [← hspan]
  exact Token.isWord_keyword ((hvs.trans hus).subset ht) hword

theorem Laid.isWord_keyword {s : Stmt} {vs : List Token} {word : Keyword} (h : Laid (.stmt s) vs)
    (hvs : vs <:+: us) (hk : s.node.keyword? = some word) :
    IsWord source (s.span.head word.text.utf8ByteSize) word.text := by
  obtain ⟨⟨hspan, hkeyword⟩, -⟩ := laid_iff.1 h
  exact hspan.isWord_head hus hne hvs (hkeyword word hk)

theorem Laid.isWord_super {id : ExprId} {span : Span} {x : Identifier} {vs : List Token}
    (h : Laid (.expr ⟨id, span, .super x⟩) vs) (hvs : vs <:+: us) :
    IsWord source (span.head Name.super.utf8ByteSize) Keyword.super.text := by
  obtain ⟨⟨hspan, hd⟩, -⟩ := laid_iff.1 h
  have hkeyword : vs.head?.map Token.kind = some (.keyword .super) := by
    rw [← List.head?_map, hd.eq_of_super]
    rfl
  exact hspan.isWord_head hus hne hvs hkeyword

/-- The text of an error is a word where the error is. -/
theorem Blames.isWord {body : List Stmt} (hl : Laid (.stmts body) us) {e : ScopeError}
    {slice : String} (h : Blames body e slice) : IsWord source e.span slice := by
  cases h with
  | read hx =>
    obtain ⟨vs, hvs, hlaid⟩ := hx.exists_laid hl
    obtain ⟨ws, hws, hlaid⟩ := hlaid.exists_of_mem (List.mem_singleton_self (Piece.name _))
    exact hlaid.isWord_name hus (hws.trans hvs)
  | @declaration path part x before after hp hdeclarations hx =>
    obtain ⟨vs, hvs, hlaid⟩ := hp.exists_laid hl
    have hmem : x ∈ part.declarations := by
      rw [hdeclarations]
      exact List.mem_append_right _ List.mem_cons_self
    obtain ⟨ws, hws, hlaid⟩ := Part.exists_laid_name hmem hlaid
    exact hlaid.isWord_name hus (hws.trans hvs)
  | superclass hp heq =>
    obtain ⟨vs, hvs, hlaid⟩ := hp.exists_laid hl
    obtain ⟨ws, hws, hlaid⟩ :=
      hlaid.exists_of_mem (List.mem_cons_of_mem _ (List.mem_append_left _ List.mem_cons_self))
    obtain ⟨xs, hxs, hlaid⟩ := hlaid.exists_of_mem (List.mem_singleton_self (Piece.name _))
    rw [← heq]
    exact hlaid.isWord_name hus (hxs.trans (hws.trans hvs))
  | keyword hp hb hk =>
    obtain ⟨vs, hvs, hlaid⟩ := hp.exists_laid hl
    cases hb with
    | redeclared hrepeats =>
      obtain ⟨before, x, after, -, -, rfl⟩ := hrepeats
      cases hk
    | superclass => cases hk
    | «return» | value | «break» | «continue» =>
      cases hk
      exact hlaid.isWord_keyword hus hne hvs rfl
    | thisOutside | thisInStatic =>
      cases hk
      exact hlaid.isWord_this hus hvs
    | superOutside | superWithout | superInTrait =>
      cases hk
      exact hlaid.isWord_super hus hne hvs

end

theorem ScopeError.render_eq {e : ScopeError} {source slice : String}
    (h : IsWord source e.span slice) :
    e.render source = e.span.label ("Error at '" ++ slice ++ "'") e.message := by
  rw [render, h.selects.1]
  exact if_neg (Bool.eq_false_iff.1 h.nonempty.2)

/-- Every error of the parser selects a text, which is empty just at the end of the source and is
else a word or a whole argument.  An error of the walk over the scopes selects the word that it is
about. -/
theorem errors_point (source : String) (firstId : ExprId) :
    (∀ errors, Tree.parse source firstId = .error errors → ∀ e ∈ errors,
      ∃ slice, e.span.Selects source slice ∧
        ((∀ error, e.kind ≠ .illegalToken error) → e.Points source slice)) ∧
    ∀ tree e, Tree.parse source firstId = .ok tree → Resolution.ofProgram tree.body = .error e →
      ∃ slice, Blames tree.body e slice ∧ IsWord source e.span slice ∧
        e.render source = e.span.label ("Error at '" ++ slice ++ "'") e.message := by
  refine ⟨fun errors h e he => (located_of_parse h e he).points, fun tree e h herror => ?_⟩
  obtain ⟨us, hus, hlaid, hgood⟩ := laid_of_parse h
  obtain ⟨slice, hblames⟩ := exists_blames herror
  have hword := hblames.isWord hus (fun t ht => (hgood t ht).2) hlaid
  exact ⟨slice, hblames, hword, ScopeError.render_eq hword⟩

/-- A value is missing at the end of the one text, and the other returns from no function. -/
theorem errors_point_print_return :
    (∃ e slice, Tree.parse "print" 0 = .error [e] ∧ e.span.Selects "print" slice ∧
      e.Points "print" slice) ∧
    ∃ tree e slice, Tree.parse "return;" 0 = .ok tree ∧
      Resolution.ofProgram tree.body = .error e ∧ Blames tree.body e slice ∧
      IsWord "return;" e.span slice ∧
      e.render "return;" = e.span.label ("Error at '" ++ slice ++ "'") e.message := by
  constructor
  · have hparse : Tree.parse "print" 0 =
        .error [⟨.onLine 5 5, .expectedExpression .endOfFile⟩] := by cbv
    obtain ⟨slice, hselects, hpoints⟩ :=
      (errors_point "print" 0).1 _ hparse _ (List.mem_singleton_self _)
    exact ⟨_, slice, hparse, hselects, hpoints fun _ => ParseErrorKind.noConfusion⟩
  · have hparse : Tree.parse "return;" 0 = .ok ⟨[⟨.onLine 0 7, .return none⟩], 0⟩ := by cbv
    have herror : Resolution.ofProgram [⟨.onLine 0 7, .return none⟩] =
        .error ⟨.onLine 0 6, .topLevelReturn⟩ := rfl
    obtain ⟨slice, hblames⟩ := (errors_point "return;" 0).2 _ _ hparse herror
    exact ⟨_, _, slice, hparse, herror, hblames⟩

end Lox

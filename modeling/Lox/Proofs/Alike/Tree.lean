import Mathlib.Data.List.Forall2
import Lox.Proofs.Syntax.Identity

/-!
# Trees that are alike

Two trees are alike if they differ in identities and spans alone, and those that stand in the same
place are taken for each other by a given likeness.  That is what the trees of one text are that has
been read twice, or at two places of longer texts.

    e.Alike L e' → L'.Covers L e.ids → e.Alike L' e'                           (Expr.Alike.imp)
-/

namespace Lox

/-- Which identities and which spans are taken for each other. -/
structure Likeness where
  id : ExprId → ExprId → Prop
  span : Span → Span → Prop

variable {L L' : Likeness}

structure Identifier.Alike (L : Likeness) (n n' : Identifier) : Prop where
  name : n.name = n'.name
  span : L.span n.span n'.span

structure Reference.Alike (L : Likeness) (r r' : Reference) : Prop where
  id : L.id r.id r'.id
  name : r.name.Alike L r'.name

mutual

inductive Expr.Alike (L : Likeness) : Expr → Expr → Prop
  | mk {id id' : ExprId} {span span' : Span} {node node' : Expr.Node} :
      L.id id id' → L.span span span' → Expr.Node.Alike L node node' →
      Expr.Alike L ⟨id, span, node⟩ ⟨id', span', node'⟩

inductive Expr.Node.Alike (L : Likeness) : Expr.Node → Expr.Node → Prop
  | literal (value : Literal) : Expr.Node.Alike L (.literal value) (.literal value)
  | group {a a' : Expr} : Expr.Alike L a a' → Expr.Node.Alike L (.group a) (.group a')
  | binary {op : BinaryOp} {a a' b b' : Expr} : Expr.Alike L a a' → Expr.Alike L b b' →
      Expr.Node.Alike L (.binary op a b) (.binary op a' b')
  | unary {op : UnaryOp} {a a' : Expr} : Expr.Alike L a a' →
      Expr.Node.Alike L (.unary op a) (.unary op a')
  | logical {op : LogicalOp} {a a' b b' : Expr} : Expr.Alike L a a' → Expr.Alike L b b' →
      Expr.Node.Alike L (.logical op a b) (.logical op a' b')
  | ternary {a a' b b' c c' : Expr} : Expr.Alike L a a' → Expr.Alike L b b' →
      Expr.Alike L c c' → Expr.Node.Alike L (.ternary a b c) (.ternary a' b' c')
  | variable {name name' : Identifier} : name.Alike L name' →
      Expr.Node.Alike L (.variable name) (.variable name')
  | assign {name name' : Identifier} {a a' : Expr} : name.Alike L name' → Expr.Alike L a a' →
      Expr.Node.Alike L (.assign name a) (.assign name' a')
  | call {a a' : Expr} {args args' : List Expr} : Expr.Alike L a a' →
      List.Forall₂ (Expr.Alike L) args args' → Expr.Node.Alike L (.call a args) (.call a' args')
  | get {a a' : Expr} {name name' : Identifier} : Expr.Alike L a a' → name.Alike L name' →
      Expr.Node.Alike L (.get a name) (.get a' name')
  | set {a a' b b' : Expr} {name name' : Identifier} : Expr.Alike L a a' → name.Alike L name' →
      Expr.Alike L b b' → Expr.Node.Alike L (.set a name b) (.set a' name' b')
  | array {es es' : List Expr} : List.Forall₂ (Expr.Alike L) es es' →
      Expr.Node.Alike L (.array es) (.array es')
  | index {a a' b b' : Expr} : Expr.Alike L a a' → Expr.Alike L b b' →
      Expr.Node.Alike L (.index a b) (.index a' b')
  | indexSet {a a' b b' c c' : Expr} : Expr.Alike L a a' → Expr.Alike L b b' →
      Expr.Alike L c c' → Expr.Node.Alike L (.indexSet a b c) (.indexSet a' b' c')
  | lambda {f f' : Function} : Function.Alike L f f' → Expr.Node.Alike L (.lambda f) (.lambda f')
  | this : Expr.Node.Alike L .this .this
  | super {name name' : Identifier} : name.Alike L name' →
      Expr.Node.Alike L (.super name) (.super name')

inductive Function.Alike (L : Likeness) : Function → Function → Prop
  | mk {name name' : Identifier} {params params' : List Identifier} {body body' : List Stmt}
      {isGetter : Bool} {span span' : Span} :
      name.Alike L name' → List.Forall₂ (Identifier.Alike L) params params' →
      List.Forall₂ (Stmt.Alike L) body body' → L.span span span' →
      Function.Alike L ⟨name, params, body, isGetter, span⟩ ⟨name', params', body', isGetter, span'⟩

inductive Stmt.Alike (L : Likeness) : Stmt → Stmt → Prop
  | mk {span span' : Span} {node node' : Stmt.Node} : L.span span span' →
      Stmt.Node.Alike L node node' → Stmt.Alike L ⟨span, node⟩ ⟨span', node'⟩

inductive Stmt.Node.Alike (L : Likeness) : Stmt.Node → Stmt.Node → Prop
  | expression {e e' : Expr} : Expr.Alike L e e' →
      Stmt.Node.Alike L (.expression e) (.expression e')
  | print {e e' : Expr} : Expr.Alike L e e' → Stmt.Node.Alike L (.print e) (.print e')
  | varDecl {name name' : Identifier} {init init' : Option Expr} : name.Alike L name' →
      Option.Rel (Expr.Alike L) init init' →
      Stmt.Node.Alike L (.varDecl name init) (.varDecl name' init')
  | block {body body' : List Stmt} : List.Forall₂ (Stmt.Alike L) body body' →
      Stmt.Node.Alike L (.block body) (.block body')
  | ifElse {condition condition' : Expr} {yes yes' : Stmt} {no no' : Option Stmt} :
      Expr.Alike L condition condition' → Stmt.Alike L yes yes' →
      Option.Rel (Stmt.Alike L) no no' →
      Stmt.Node.Alike L (.ifElse condition yes no) (.ifElse condition' yes' no')
  | while {condition condition' : Expr} {body body' : Stmt} : Expr.Alike L condition condition' →
      Stmt.Alike L body body' →
      Stmt.Node.Alike L (.while condition body) (.while condition' body')
  | for {init init' : Option Stmt} {condition condition' step step' : Option Expr}
      {body body' : Stmt} : Option.Rel (Stmt.Alike L) init init' →
      Option.Rel (Expr.Alike L) condition condition' → Option.Rel (Expr.Alike L) step step' →
      Stmt.Alike L body body' →
      Stmt.Node.Alike L (.for init condition step body) (.for init' condition' step' body')
  | break : Stmt.Node.Alike L .break .break
  | continue : Stmt.Node.Alike L .continue .continue
  | funDecl {f f' : Function} : Function.Alike L f f' →
      Stmt.Node.Alike L (.funDecl f) (.funDecl f')
  | return {value value' : Option Expr} : Option.Rel (Expr.Alike L) value value' →
      Stmt.Node.Alike L (.return value) (.return value')
  | classDecl {name name' : Identifier} {superclass superclass' : Option Reference}
      {traits traits' : List Reference} {methods methods' statics statics' : List Function} :
      name.Alike L name' → Option.Rel (Reference.Alike L) superclass superclass' →
      List.Forall₂ (Reference.Alike L) traits traits' →
      List.Forall₂ (Function.Alike L) methods methods' →
      List.Forall₂ (Function.Alike L) statics statics' →
      Stmt.Node.Alike L (.classDecl name superclass traits methods statics)
        (.classDecl name' superclass' traits' methods' statics')
  | traitDecl {name name' : Identifier} {methods methods' statics statics' : List Function} :
      name.Alike L name' → List.Forall₂ (Function.Alike L) methods methods' →
      List.Forall₂ (Function.Alike L) statics statics' →
      Stmt.Node.Alike L (.traitDecl name methods statics) (.traitDecl name' methods' statics')

end

/-! ## Functions -/

namespace Function.Alike

variable {f f' : Function}

theorem name (h : f.Alike L f') : f.name.Alike L f'.name := by
  cases h; assumption

theorem params (h : f.Alike L f') : List.Forall₂ (Identifier.Alike L) f.params f'.params := by
  cases h; assumption

theorem body (h : f.Alike L f') : List.Forall₂ (Stmt.Alike L) f.body f'.body := by
  cases h; assumption

theorem span (h : f.Alike L f') : L.span f.span f'.span := by
  cases h; assumption

theorem isGetter (h : f.Alike L f') : f.isGetter = f'.isGetter := by
  cases h; rfl

theorem names (h : f.Alike L f') :
    f.params.map Identifier.name = f'.params.map Identifier.name :=
  List.forall₂_eq_eq_eq ▸ List.forall₂_map_left_iff.2
    (List.forall₂_map_right_iff.2 (h.params.imp fun _ _ => Identifier.Alike.name))

theorem arity (h : f.Alike L f') : f.arity = f'.arity := h.params.length_eq

theorem isEmpty (h : f.Alike L f') : f.body.isEmpty = f'.body.isEmpty := by
  have hb := h.body
  generalize f.body = body at hb
  generalize f'.body = body' at hb
  cases hb <;> rfl

theorem returnsDirectly (h : f.Alike L f') : f.returnsDirectly = f'.returnsDirectly := by
  have hb := h.body
  unfold Function.returnsDirectly
  generalize f.body = body at hb
  generalize f'.body = body' at hb
  induction hb with
  | nil => rfl
  | cons hs _ ih =>
    obtain ⟨-, hnode⟩ := hs
    rw [List.any_cons, List.any_cons, ih]
    cases hnode <;> rfl

end Function.Alike

/-! ## Coarser likenesses -/

/-- What `L` takes for each other is taken for each other by `L'` as well, if it comes to these
identities alone. -/
structure Likeness.Covers (L' L : Likeness) (ids : List ExprId) : Prop where
  id : ∀ id ∈ ids, ∀ id', L.id id id' → L'.id id id'
  span : ∀ a b, L.span a b → L'.span a b

namespace Likeness.Covers

variable {ids more : List ExprId}

theorem mono (h : L'.Covers L more) (hs : ∀ id ∈ ids, id ∈ more) : L'.Covers L ids :=
  ⟨fun id hid => h.id id (hs id hid), h.span⟩

theorem left (h : L'.Covers L (ids ++ more)) : L'.Covers L ids :=
  h.mono fun _ => List.mem_append_left more

theorem right (h : L'.Covers L (ids ++ more)) : L'.Covers L more :=
  h.mono fun _ => List.mem_append_right ids

theorem tail (h : L'.Covers L ids) : L'.Covers L ids.tail :=
  h.mono fun _ => List.mem_of_mem_tail

end Likeness.Covers

/-- One likeness is coarser than another. -/
instance : LE Likeness where
  le L L' := (∀ id id', L.id id id' → L'.id id id') ∧ ∀ a b, L.span a b → L'.span a b

theorem Likeness.covers_of_le (h : L ≤ L') (ids : List ExprId) : L'.Covers L ids :=
  ⟨fun id _ => h.1 id, h.2⟩

theorem Expr.id_mem_ids (e : Expr) : e.id ∈ e.ids := by
  obtain ⟨id, span, node⟩ := e
  cases node <;> exact List.mem_cons_self

theorem Identifier.Alike.imp {n n' : Identifier} (h : n.Alike L n')
    (hspan : ∀ a b, L.span a b → L'.span a b) : n.Alike L' n' :=
  ⟨h.name, hspan _ _ h.span⟩

theorem Reference.Alike.imp {r r' : Reference} (h : r.Alike L r') (hc : L'.Covers L [r.id]) :
    r.Alike L' r' :=
  ⟨hc.id _ List.mem_cons_self _ h.id, h.name.imp hc.span⟩

theorem Reference.Alike.imps {rs rs' : List Reference}
    (h : List.Forall₂ (Reference.Alike L) rs rs') (hc : L'.Covers L (rs.map Reference.id)) :
    List.Forall₂ (Reference.Alike L') rs rs' := by
  induction h with
  | nil => exact .nil
  | cons hr _ ih =>
    have hfirst : L'.Covers L ([_] ++ _) := hc
    exact .cons (hr.imp hfirst.left) (ih hc.tail)

mutual

/-- Expressions that are alike are so for more, if that covers the identities in them. -/
theorem Expr.Alike.imp {L L' : Likeness} {e e' : Expr} (h : e.Alike L e')
    (hc : L'.Covers L e.ids) : e.Alike L' e' := by
  obtain ⟨id, span, node⟩ := e
  obtain ⟨hid, hspan, hnode⟩ := h
  refine .mk (hc.id _ (Expr.id_mem_ids _) _ hid) (hc.span _ _ hspan) ?_
  replace hc := hc.tail
  cases node with
  | literal value =>
    cases hnode with | literal => exact .literal value
  | group a =>
    cases hnode with | group h => exact .group (h.imp hc)
  | binary op a b =>
    cases hnode with | binary h₁ h₂ => exact .binary (h₁.imp hc.left) (h₂.imp hc.right)
  | unary op a =>
    cases hnode with | unary h => exact .unary (h.imp hc)
  | logical op a b =>
    cases hnode with | logical h₁ h₂ => exact .logical (h₁.imp hc.left) (h₂.imp hc.right)
  | ternary a b c =>
    cases hnode with | ternary h₁ h₂ h₃ =>
    exact .ternary (h₁.imp hc.left) (h₂.imp hc.right.left) (h₃.imp hc.right.right)
  | «variable» name =>
    cases hnode with | «variable» hn => exact .variable (hn.imp hc.span)
  | assign name a =>
    cases hnode with | assign hn h => exact .assign (hn.imp hc.span) (h.imp hc)
  | call a args =>
    cases hnode with | call h hargs => exact .call (h.imp hc.left) (Expr.Alike.imps hargs hc.right)
  | get a name =>
    cases hnode with | get h hn => exact .get (h.imp hc) (hn.imp hc.span)
  | set a name b =>
    cases hnode with | set h₁ hn h₂ =>
    exact .set (h₁.imp hc.right) (hn.imp hc.span) (h₂.imp hc.left)
  | array es =>
    cases hnode with | array hes => exact .array (Expr.Alike.imps hes hc)
  | index a b =>
    cases hnode with | index h₁ h₂ => exact .index (h₁.imp hc.left) (h₂.imp hc.right)
  | indexSet a b c =>
    cases hnode with | indexSet h₁ h₂ h₃ =>
    exact .indexSet (h₁.imp hc.left) (h₂.imp hc.right.left) (h₃.imp hc.right.right)
  | lambda f =>
    cases hnode with | lambda hf => exact .lambda (hf.imp hc)
  | this =>
    cases hnode with | this => exact .this
  | super name =>
    cases hnode with | super hn => exact .super (hn.imp hc.span)
termination_by structural e

theorem Expr.Alike.imps {L L' : Likeness} {es es' : List Expr}
    (h : List.Forall₂ (Expr.Alike L) es es') (hc : L'.Covers L (Expr.idsOf es)) :
    List.Forall₂ (Expr.Alike L') es es' := by
  cases es with
  | nil => cases h; exact .nil
  | cons e es =>
    obtain - | ⟨he, hes⟩ := h
    exact .cons (he.imp hc.left) (Expr.Alike.imps hes hc.right)
termination_by structural es

theorem Function.Alike.imp {L L' : Likeness} {f f' : Function} (h : f.Alike L f')
    (hc : L'.Covers L f.ids) : f.Alike L' f' := by
  obtain ⟨name, params, body, isGetter, span⟩ := f
  obtain ⟨hn, hparams, hbody, hspan⟩ := h
  exact .mk (hn.imp hc.span) (hparams.imp fun _ _ hp => hp.imp hc.span)
    (Stmt.Alike.imps hbody hc) (hc.span _ _ hspan)
termination_by structural f

theorem Function.Alike.imps {L L' : Likeness} {fs fs' : List Function}
    (h : List.Forall₂ (Function.Alike L) fs fs') (hc : L'.Covers L (Function.idsOf fs)) :
    List.Forall₂ (Function.Alike L') fs fs' := by
  cases fs with
  | nil => cases h; exact .nil
  | cons f fs =>
    obtain - | ⟨hf, hfs⟩ := h
    exact .cons (hf.imp hc.left) (Function.Alike.imps hfs hc.right)
termination_by structural fs

/-- Statements that are alike are so for more, if that covers the identities in them. -/
theorem Stmt.Alike.imp {L L' : Likeness} {s s' : Stmt} (h : s.Alike L s')
    (hc : L'.Covers L s.ids) : s.Alike L' s' := by
  obtain ⟨span, node⟩ := s
  obtain ⟨hspan, hnode⟩ := h
  refine .mk (hc.span _ _ hspan) ?_
  cases node with
  | expression e =>
    cases hnode with | expression h => exact .expression (h.imp hc)
  | print e =>
    cases hnode with | print h => exact .print (h.imp hc)
  | varDecl name init =>
    cases hnode with | varDecl hn hinit =>
    cases init with
    | none => cases hinit; exact .varDecl (hn.imp hc.span) .none
    | some e => cases hinit with | some h => exact .varDecl (hn.imp hc.span) (.some (h.imp hc))
  | block body =>
    cases hnode with | block hbody => exact .block (Stmt.Alike.imps hbody hc)
  | ifElse condition yes no =>
    cases hnode with | ifElse h hyes hno =>
    rw [Stmt.ids_ifElse] at hc
    have hyes := hyes.imp hc.right.left
    cases no with
    | none => cases hno; exact .ifElse (h.imp hc.left) hyes .none
    | some s =>
      cases hno with | some hno =>
      exact .ifElse (h.imp hc.left) hyes (.some (hno.imp hc.right.right))
  | «while» condition body =>
    cases hnode with | «while» h hbody => exact .while (h.imp hc.left) (hbody.imp hc.right)
  | «for» init condition step body =>
    cases hnode with | «for» hinit hcondition hstep hbody =>
    rw [Stmt.ids_for] at hc
    have hbody := hbody.imp hc.right.right.right
    refine .for ?_ ?_ ?_ hbody
    · cases init with
      | none => cases hinit; exact .none
      | some s => cases hinit with | some h => exact .some (h.imp hc.left)
    · cases condition with
      | none => cases hcondition; exact .none
      | some e => cases hcondition with | some h => exact .some (h.imp hc.right.left)
    · cases step with
      | none => cases hstep; exact .none
      | some e => cases hstep with | some h => exact .some (h.imp hc.right.right.left)
  | «break» =>
    cases hnode with | «break» => exact .break
  | «continue» =>
    cases hnode with | «continue» => exact .continue
  | funDecl f =>
    cases hnode with | funDecl hf => exact .funDecl (hf.imp hc)
  | «return» value =>
    cases hnode with | «return» hvalue =>
    cases value with
    | none => cases hvalue; exact .return .none
    | some e => cases hvalue with | some h => exact .return (.some (h.imp hc))
  | classDecl name superclass traits methods statics =>
    cases hnode with | classDecl hn hsuperclass htraits hmethods hstatics =>
    refine .classDecl (hn.imp hc.span) ?_ (Reference.Alike.imps htraits hc.right.left)
      (Function.Alike.imps hmethods hc.right.right.left)
      (Function.Alike.imps hstatics hc.right.right.right)
    cases hsuperclass with
    | none => exact .none
    | some h => exact .some (h.imp hc.left)
  | traitDecl name methods statics =>
    cases hnode with | traitDecl hn hmethods hstatics =>
    exact .traitDecl (hn.imp hc.span) (Function.Alike.imps hmethods hc.left)
      (Function.Alike.imps hstatics hc.right)
termination_by structural s

theorem Stmt.Alike.imps {L L' : Likeness} {ss ss' : List Stmt}
    (h : List.Forall₂ (Stmt.Alike L) ss ss') (hc : L'.Covers L (Stmt.idsOf ss)) :
    List.Forall₂ (Stmt.Alike L') ss ss' := by
  cases ss with
  | nil => cases h; exact .nil
  | cons s ss =>
    obtain - | ⟨hs, hss⟩ := h
    exact .cons (hs.imp hc.left) (Stmt.Alike.imps hss hc.right)
termination_by structural ss

end

/-! ## Trees that do not differ -/

section

variable {S : ExprId → ExprId → Prop}

theorem Identifier.Alike.eq {n n' : Identifier} (h : n.Alike ⟨S, Eq⟩ n') : n = n' := by
  obtain ⟨hname, hspan⟩ := h
  cases n
  cases n'
  exact congrArg₂ _ hname hspan

theorem Identifier.Alike.eqs {ns ns' : List Identifier}
    (h : List.Forall₂ (Identifier.Alike ⟨S, Eq⟩) ns ns') : ns = ns' := by
  induction h with
  | nil => rfl
  | cons hn _ ih => rw [hn.eq, ih]

theorem Reference.Alike.eq {r r' : Reference} (h : r.Alike ⟨Eq, Eq⟩ r') : r = r' := by
  obtain ⟨hid, hname⟩ := h
  cases r
  cases r'
  exact congrArg₂ _ hid hname.eq

theorem Reference.Alike.eqs {rs rs' : List Reference}
    (h : List.Forall₂ (Reference.Alike ⟨Eq, Eq⟩) rs rs') : rs = rs' := by
  induction h with
  | nil => rfl
  | cons hr _ ih => rw [hr.eq, ih]

end

mutual

theorem Expr.Alike.eq {e e' : Expr} (h : e.Alike ⟨Eq, Eq⟩ e') : e = e' := by
  obtain ⟨id, span, node⟩ := e
  obtain ⟨⟨⟩, ⟨⟩, hnode⟩ := h
  congr 1
  cases node with
  | literal value =>
    cases hnode with | literal => rfl
  | group a =>
    cases hnode with | group h => rw [h.eq]
  | binary op a b =>
    cases hnode with | binary h₁ h₂ => rw [h₁.eq, h₂.eq]
  | unary op a =>
    cases hnode with | unary h => rw [h.eq]
  | logical op a b =>
    cases hnode with | logical h₁ h₂ => rw [h₁.eq, h₂.eq]
  | ternary a b c =>
    cases hnode with | ternary h₁ h₂ h₃ => rw [h₁.eq, h₂.eq, h₃.eq]
  | «variable» name =>
    cases hnode with | «variable» hn => rw [hn.eq]
  | assign name a =>
    cases hnode with | assign hn h => rw [hn.eq, h.eq]
  | call a args =>
    cases hnode with | call h hargs => rw [h.eq, Expr.Alike.eqs hargs]
  | get a name =>
    cases hnode with | get h hn => rw [h.eq, hn.eq]
  | set a name b =>
    cases hnode with | set h₁ hn h₂ => rw [h₁.eq, hn.eq, h₂.eq]
  | array es =>
    cases hnode with | array hes => rw [Expr.Alike.eqs hes]
  | index a b =>
    cases hnode with | index h₁ h₂ => rw [h₁.eq, h₂.eq]
  | indexSet a b c =>
    cases hnode with | indexSet h₁ h₂ h₃ => rw [h₁.eq, h₂.eq, h₃.eq]
  | lambda f =>
    cases hnode with | lambda hf => rw [hf.eq]
  | this =>
    cases hnode with | this => rfl
  | super name =>
    cases hnode with | super hn => rw [hn.eq]
termination_by structural e

theorem Expr.Alike.eqs {es es' : List Expr} (h : List.Forall₂ (Expr.Alike ⟨Eq, Eq⟩) es es') :
    es = es' := by
  cases es with
  | nil => cases h; rfl
  | cons e es =>
    obtain - | ⟨he, hes⟩ := h
    rw [he.eq, Expr.Alike.eqs hes]
termination_by structural es

theorem Function.Alike.eq {f f' : Function} (h : f.Alike ⟨Eq, Eq⟩ f') : f = f' := by
  obtain ⟨name, params, body, isGetter, span⟩ := f
  obtain ⟨hn, hparams, hbody, ⟨⟩⟩ := h
  rw [hn.eq, Identifier.Alike.eqs hparams, Stmt.Alike.eqs hbody]
termination_by structural f

theorem Function.Alike.eqs {fs fs' : List Function}
    (h : List.Forall₂ (Function.Alike ⟨Eq, Eq⟩) fs fs') : fs = fs' := by
  cases fs with
  | nil => cases h; rfl
  | cons f fs =>
    obtain - | ⟨hf, hfs⟩ := h
    rw [hf.eq, Function.Alike.eqs hfs]
termination_by structural fs

/-- With nothing taken for anything else, what is alike is the same. -/
theorem Stmt.Alike.eq {s s' : Stmt} (h : s.Alike ⟨Eq, Eq⟩ s') : s = s' := by
  obtain ⟨span, node⟩ := s
  obtain ⟨⟨⟩, hnode⟩ := h
  congr 1
  cases node with
  | expression e =>
    cases hnode with | expression h => rw [h.eq]
  | print e =>
    cases hnode with | print h => rw [h.eq]
  | varDecl name init =>
    cases hnode with | varDecl hn hinit =>
    cases init with
    | none => cases hinit; rw [hn.eq]
    | some e => cases hinit with | some h => rw [hn.eq, h.eq]
  | block body =>
    cases hnode with | block hbody => rw [Stmt.Alike.eqs hbody]
  | ifElse condition yes no =>
    cases hnode with | ifElse h hyes hno =>
    cases no with
    | none => cases hno; rw [h.eq, hyes.eq]
    | some s => cases hno with | some hno => rw [h.eq, hyes.eq, hno.eq]
  | «while» condition body =>
    cases hnode with | «while» h hbody => rw [h.eq, hbody.eq]
  | «for» init condition step body =>
    cases hnode with | @«for» _ init' _ condition' _ step' _ _ hinit hcondition hstep hbody =>
    have hi : init = init' := by
      cases init with
      | none => cases hinit; rfl
      | some s => cases hinit with | some h => rw [h.eq]
    have hc : condition = condition' := by
      cases condition with
      | none => cases hcondition; rfl
      | some e => cases hcondition with | some h => rw [h.eq]
    have hs : step = step' := by
      cases step with
      | none => cases hstep; rfl
      | some e => cases hstep with | some h => rw [h.eq]
    rw [hi, hc, hs, hbody.eq]
  | «break» =>
    cases hnode with | «break» => rfl
  | «continue» =>
    cases hnode with | «continue» => rfl
  | funDecl f =>
    cases hnode with | funDecl hf => rw [hf.eq]
  | «return» value =>
    cases hnode with | «return» hvalue =>
    cases value with
    | none => cases hvalue; rfl
    | some e => cases hvalue with | some h => rw [h.eq]
  | classDecl name superclass traits methods statics =>
    cases hnode with | @classDecl _ _ _ superclass' _ _ _ _ _ _ hn hsuperclass htraits hmethods hstatics =>
    have hs : superclass = superclass' := by
      cases hsuperclass with
      | none => rfl
      | some h => rw [h.eq]
    rw [hn.eq, hs, Reference.Alike.eqs htraits, Function.Alike.eqs hmethods,
      Function.Alike.eqs hstatics]
  | traitDecl name methods statics =>
    cases hnode with | traitDecl hn hmethods hstatics =>
    rw [hn.eq, Function.Alike.eqs hmethods, Function.Alike.eqs hstatics]
termination_by structural s

theorem Stmt.Alike.eqs {ss ss' : List Stmt} (h : List.Forall₂ (Stmt.Alike ⟨Eq, Eq⟩) ss ss') :
    ss = ss' := by
  cases ss with
  | nil => cases h; rfl
  | cons s ss =>
    obtain - | ⟨hs, hss⟩ := h
    rw [hs.eq, Stmt.Alike.eqs hss]
termination_by structural ss

end

end Lox

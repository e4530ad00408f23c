import Lox.Proofs.Scope.Place

/-!
# The rules of scope

What a program has to keep to besides the grammar, said of how its parts lie in one another.  Going
down from the program to a part one enters loops, functions and members of classes and traits; these
layers, innermost first, are the path of the part, and a rule asks for the nearest layer of a kind:

    Lies body path (.expr ⟨id, span, .this⟩) → ∃ m, member? path = some m ∧ m.isStatic = false
                                                                                (Rules.receivers)

`Breaks` says the same the other way round, with the error that is reported for each rule.
-/

namespace Lox

/-- The names that a statement declares in the scope around it, where they stand. -/
def Stmt.declarations : Stmt → List Identifier
  | ⟨_, node⟩ =>
    match node with
    | .varDecl name _ | .classDecl name _ _ _ _ | .traitDecl name _ _ => [name]
    | .funDecl f => [f.name]
    | .ifElse _ yes no =>
      yes.declarations ++ match no with
        | some s => s.declarations
        | none => []
    | .while _ body => body.declarations
    | _ => []

namespace Nesting

/-! ## Layers -/

/-- What has members. -/
inductive Owner
  | class (hasSuperclass : Bool)
  | trait

structure Member where
  owner : Owner
  function : Function
  isStatic : Bool

/-- What lies around a part of a program. -/
inductive Layer
  /-- The body of a `while` or `for`. -/
  | loop
  /-- A function that is declared by itself, or one without a name. -/
  | function
  | member (m : Member)

/-- The nearest member around a part. -/
def member? : List Layer → Option Member
  | [] => none
  | .member m :: _ => some m
  | .loop :: path | .function :: path => member? path

/-- The nearest function around a part, of whatever kind. -/
def function? : List Layer → Option Layer
  | [] => none
  | .loop :: path => function? path
  | .function :: _ => some .function
  | .member m :: _ => some (.member m)

def InFunction (path : List Layer) : Prop := function? path ≠ none

/-- The nearest function around a part sets up instances. -/
def InInitializer (path : List Layer) : Prop :=
  ∃ m, function? path = some (.member m) ∧ m.isStatic = false ∧
    m.function.name.name = Name.init

/-- A loop lies around a part in the same function. -/
def InLoop (path : List Layer) : Prop := ∃ outer, path = .loop :: outer

/-! ## Parts -/

inductive Part
  | stmts (body : List Stmt)
  | stmt (s : Stmt)
  | expr (e : Expr)
  | function (f : Function)

/-- The declarations in the scope that a part opens; other parts have none. -/
def Part.declarations : Part → List Identifier
  | .stmt ⟨_, .block body⟩ => body.flatMap Stmt.declarations
  | .stmt ⟨_, .for init _ _ body⟩ => init.toList.flatMap Stmt.declarations ++ body.declarations
  | .function f => f.params ++ f.body.flatMap Stmt.declarations
  | _ => []

/-- The parts right inside a part, each with the layer that is entered on the way to it. -/
def Part.inner : Part → List (List Layer × Part)
  | .stmts body => body.map fun s => ([], .stmt s)
  | .function f => [([], .stmts f.body)]
  | .expr ⟨_, _, .lambda f⟩ => [([.function], .function f)]
  | .expr ⟨_, _, node⟩ => node.operands.map fun e => ([], .expr e)
  | .stmt ⟨_, .expression e⟩ | .stmt ⟨_, .print e⟩ => [([], .expr e)]
  | .stmt ⟨_, .varDecl _ value⟩ | .stmt ⟨_, .return value⟩ =>
    value.toList.map fun e => ([], .expr e)
  | .stmt ⟨_, .block body⟩ => [([], .stmts body)]
  | .stmt ⟨_, .ifElse condition yes no⟩ =>
    ([], .expr condition) :: ([], .stmt yes) :: no.toList.map fun s => ([], .stmt s)
  | .stmt ⟨_, .while condition body⟩ => [([], .expr condition), ([.loop], .stmt body)]
  | .stmt ⟨_, .for init condition step body⟩ =>
    (init.toList.map fun s => ([], .stmt s)) ++
      ((condition.toList ++ step.toList).map fun e => ([], .expr e)) ++ [([.loop], .stmt body)]
  | .stmt ⟨_, .break⟩ | .stmt ⟨_, .continue⟩ => []
  | .stmt ⟨_, .funDecl f⟩ => [([.function], .function f)]
  | .stmt ⟨_, .classDecl _ superclass _ ms ss⟩ =>
    (ms.map fun f => ([.member ⟨.class superclass.isSome, f, false⟩], .function f)) ++
      ss.map fun f => ([.member ⟨.class superclass.isSome, f, true⟩], .function f)
  | .stmt ⟨_, .traitDecl _ ms ss⟩ =>
    (ms.map fun f => ([.member ⟨.trait, f, false⟩], .function f)) ++
      ss.map fun f => ([.member ⟨.trait, f, true⟩], .function f)

/-- The parts of a part at any depth, and their paths. -/
inductive Below (path : List Layer) (part : Part) : List Layer → Part → Prop
  | self : Below path part path part
  | down {path' layers : List Layer} {part' inner : Part} :
      Below path part path' part' → (layers, inner) ∈ part'.inner →
      Below path part (layers ++ path') inner

/-- The parts of a program, and their paths. -/
def Lies (body : List Stmt) : List Layer → Part → Prop := Below [] (.stmts body)

/-! ## Rules -/

/-- What a program has to keep to. -/
structure Rules (body : List Stmt) : Prop where
  /-- No scope declares a name twice; those of the globals are not in one. -/
  scopes : ∀ {path part}, Lies body path part → (part.declarations.map Identifier.name).Nodup
  returns : ∀ {path span value}, Lies body path (.stmt ⟨span, .return value⟩) → InFunction path
  values : ∀ {path span e}, Lies body path (.stmt ⟨span, .return (some e)⟩) → ¬InInitializer path
  breaks : ∀ {path span}, Lies body path (.stmt ⟨span, .break⟩) → InLoop path
  continues : ∀ {path span}, Lies body path (.stmt ⟨span, .continue⟩) → InLoop path
  receivers : ∀ {path id span}, Lies body path (.expr ⟨id, span, .this⟩) →
    ∃ m, member? path = some m ∧ m.isStatic = false
  supers : ∀ {path id span name}, Lies body path (.expr ⟨id, span, .super name⟩) →
    ∃ m, member? path = some m ∧ m.owner = .class true
  superclasses : ∀ {path span name r traits ms ss},
    Lies body path (.stmt ⟨span, .classDecl name (some r) traits ms ss⟩) →
    r.name.name ≠ name.name

/-- The error is at a declaration of a name that is among `names` or is declared before. -/
def Repeats (names : List String) (declarations : List Identifier) (e : ScopeError) : Prop :=
  ∃ before x after, declarations = before ++ x :: after ∧
    x.name ∈ names ++ before.map Identifier.name ∧ e = ⟨x.span, .redeclared x.name⟩

/-- A part breaks a rule, and the error says which and where. -/
inductive Breaks (path : List Layer) : Part → ScopeError → Prop
  | redeclared {part : Part} {e : ScopeError} :
      Repeats [] part.declarations e → Breaks path part e
  | return {span : Span} {value : Option Expr} :
      ¬InFunction path → Breaks path (.stmt ⟨span, .return value⟩)
        ⟨span.head Keyword.return.text.utf8ByteSize, .topLevelReturn⟩
  | value {span : Span} {e : Expr} :
      InInitializer path → Breaks path (.stmt ⟨span, .return (some e)⟩)
        ⟨span.head Keyword.return.text.utf8ByteSize, .valueFromInitializer⟩
  | break {span : Span} :
      ¬InLoop path → Breaks path (.stmt ⟨span, .break⟩)
        ⟨span.head Keyword.break.text.utf8ByteSize, .loopControlOutsideLoop .break⟩
  | continue {span : Span} :
      ¬InLoop path → Breaks path (.stmt ⟨span, .continue⟩)
        ⟨span.head Keyword.continue.text.utf8ByteSize, .loopControlOutsideLoop .continue⟩
  | thisOutside {id : ExprId} {span : Span} :
      member? path = none → Breaks path (.expr ⟨id, span, .this⟩) ⟨span, .thisOutsideClass⟩
  | thisInStatic {id : ExprId} {span : Span} {m : Member} :
      member? path = some m → m.isStatic = true →
      Breaks path (.expr ⟨id, span, .this⟩) ⟨span, .thisInStaticMethod⟩
  | superOutside {id : ExprId} {span : Span} {name : Identifier} :
      member? path = none → Breaks path (.expr ⟨id, span, .super name⟩)
        ⟨span.head Name.super.utf8ByteSize, .superOutsideClass⟩
  | superWithout {id : ExprId} {span : Span} {name : Identifier} {m : Member} :
      member? path = some m → m.owner = .class false →
      Breaks path (.expr ⟨id, span, .super name⟩)
        ⟨span.head Name.super.utf8ByteSize, .superWithoutSuperclass⟩
  | superInTrait {id : ExprId} {span : Span} {name : Identifier} {m : Member} :
      member? path = some m → m.owner = .trait →
      Breaks path (.expr ⟨id, span, .super name⟩)
        ⟨span.head Name.super.utf8ByteSize, .superInTrait⟩
  | superclass {span : Span} {name : Identifier} {r : Reference} {traits : List Reference}
      {ms ss : List Function} :
      r.name.name = name.name →
      Breaks path (.stmt ⟨span, .classDecl name (some r) traits ms ss⟩)
        ⟨r.name.span, .inheritFromSelf⟩

/-! ## Lemmas -/

@[simp] theorem not_repeats_nil {names : List String} {e : ScopeError} : ¬Repeats names [] e := by
  rintro ⟨before, x, after, hnil, -⟩
  exact List.append_ne_nil_of_right_ne_nil _ (List.cons_ne_nil _ _) hnil.symm

theorem repeats_cons {names : List String} {x : Identifier} {declarations : List Identifier}
    {e : ScopeError} :
    Repeats names (x :: declarations) e ↔
      (x.name ∈ names ∧ e = ⟨x.span, .redeclared x.name⟩) ∨
        Repeats (names ++ [x.name]) declarations e := by
  constructor
  · rintro ⟨before, y, after, hcons, hy, rfl⟩
    cases before with
    | nil =>
      cases hcons
      exact .inl ⟨by simpa using hy, rfl⟩
    | cons z before =>
      cases hcons
      exact .inr ⟨before, y, after, rfl, by simpa using hy, rfl⟩
  · rintro (⟨hx, rfl⟩ | ⟨before, y, after, rfl, hy, rfl⟩)
    · exact ⟨[], x, declarations, rfl, by simpa using hx, rfl⟩
    · exact ⟨x :: before, y, after, rfl, by simpa using hy, rfl⟩

theorem repeats_append {names : List String} {ds ds' : List Identifier} {e : ScopeError} :
    Repeats names (ds ++ ds') e ↔
      Repeats names ds e ∨ Repeats (names ++ ds.map Identifier.name) ds' e := by
  induction ds generalizing names with
  | nil => simp [not_repeats_nil]
  | cons x ds ih => simp [repeats_cons, ih, or_assoc]

/-- A name is declared twice if and only if there is an error to report. -/
theorem exists_repeats_iff {names : List String} {ds : List Identifier} (h : names.Nodup) :
    (∃ e, Repeats names ds e) ↔ ¬(names ++ ds.map Identifier.name).Nodup := by
  induction ds generalizing names with
  | nil => simpa [not_repeats_nil] using h
  | cons x ds ih =>
    by_cases hx : x.name ∈ names
    · refine iff_of_true ⟨_, repeats_cons.2 (.inl ⟨hx, rfl⟩)⟩ fun hn => ?_
      exact (List.nodup_append.1 hn).2.2 _ hx _ List.mem_cons_self rfl
    · have hnames : (names ++ [x.name]).Nodup := by
        refine List.nodup_append.2 ⟨h, List.pairwise_singleton _ _, fun a ha b hb => ?_⟩
        rintro rfl
        exact hx (List.mem_singleton.1 hb ▸ ha)
      simp [repeats_cons, hx, ih hnames]

/-- A program keeps to the rules if none of its parts breaks one. -/
theorem rules_iff {body : List Stmt} :
    Rules body ↔ ∀ path part, Lies body path part → ∀ e, ¬Breaks path part e := by
  constructor
  · intro h path part hl e hb
    cases hb with
    | redeclared hrepeats => exact (exists_repeats_iff List.nodup_nil).1 ⟨e, hrepeats⟩ (h.scopes hl)
    | «return» hnot => exact hnot (h.returns hl)
    | value hin => exact h.values hl hin
    | «break» hnot => exact hnot (h.breaks hl)
    | «continue» hnot => exact hnot (h.continues hl)
    | thisOutside hnone =>
      obtain ⟨m, hm, -⟩ := h.receivers hl
      simp [hm] at hnone
    | thisInStatic hm hstatic =>
      obtain ⟨m', hm', hinstance⟩ := h.receivers hl
      simp_all
    | superOutside hnone =>
      obtain ⟨m, hm, -⟩ := h.supers hl
      simp [hm] at hnone
    | superWithout hm howner | superInTrait hm howner =>
      obtain ⟨m', hm', hclass⟩ := h.supers hl
      simp_all
    | superclass heq => exact h.superclasses hl heq
  · intro h
    constructor
    case scopes =>
      intro path part hl
      refine Classical.byContradiction fun hn => ?_
      obtain ⟨e, he⟩ := (exists_repeats_iff List.nodup_nil).2 hn
      exact h _ _ hl e (.redeclared he)
    case returns =>
      intro path span value hl
      exact Classical.byContradiction fun hn => h _ _ hl _ (.return hn)
    case values => exact fun hl hin => h _ _ hl _ (.value hin)
    case breaks =>
      intro path span hl
      exact Classical.byContradiction fun hn => h _ _ hl _ (.break hn)
    case continues =>
      intro path span hl
      exact Classical.byContradiction fun hn => h _ _ hl _ (.continue hn)
    case receivers =>
      intro path id span hl
      cases hm : member? path with
      | none => exact absurd (.thisOutside hm) (h _ _ hl _)
      | some m =>
        refine ⟨m, rfl, Bool.eq_false_iff.2 fun hstatic => ?_⟩
        exact h _ _ hl _ (.thisInStatic hm hstatic)
    case supers =>
      intro path id span name hl
      cases hm : member? path with
      | none => exact absurd (.superOutside hm) (h _ _ hl _)
      | some m =>
        refine ⟨m, rfl, ?_⟩
        cases howner : m.owner with
        | trait => exact absurd (.superInTrait hm howner) (h _ _ hl _)
        | «class» hasSuperclass =>
          cases hasSuperclass with
          | false => exact absurd (.superWithout hm howner) (h _ _ hl _)
          | true => rfl
    case superclasses => exact fun hl heq => h _ _ hl _ (.superclass heq)

/-- What is below a part is the part itself or below one right inside it. -/
theorem below_iff {path path' : List Layer} {part part' : Part} :
    Below path part path' part' ↔ (path' = path ∧ part' = part) ∨
      ∃ p ∈ part.inner, Below (p.1 ++ path) p.2 path' part' := by
  constructor
  · intro h
    induction h with
    | self => exact .inl ⟨rfl, rfl⟩
    | down _ hd ih =>
      rcases ih with ⟨rfl, rfl⟩ | ⟨p, hfirst, hrest⟩
      · exact .inr ⟨_, hd, .self⟩
      · exact .inr ⟨p, hfirst, hrest.down hd⟩
  · rintro (⟨rfl, rfl⟩ | ⟨p, hd, h⟩)
    · exact .self
    · induction h with
      | self => exact Below.self.down hd
      | down _ hd' ih => exact ih.down hd'

/-- Something inside a part, or the part itself, breaks a rule. -/
def Offends (path : List Layer) (part : Part) (e : ScopeError) : Prop :=
  ∃ path' part', Below path part path' part' ∧ Breaks path' part' e

/-- One of the parts inside a part that is at `path` offends. -/
def SomeOffends (path : List Layer) (inner : List (List Layer × Part)) (e : ScopeError) : Prop :=
  ∃ p ∈ inner, Offends (p.1 ++ path) p.2 e

section

variable {path : List Layer} {e : ScopeError}

@[simp] theorem someOffends_nil : ¬SomeOffends path [] e := by
  rintro ⟨p, hp, -⟩
  cases hp

@[simp] theorem someOffends_cons {p : List Layer × Part} {ps : List (List Layer × Part)} :
    SomeOffends path (p :: ps) e ↔ Offends (p.1 ++ path) p.2 e ∨ SomeOffends path ps e := by
  simp [SomeOffends]

@[simp] theorem someOffends_append {ps qs : List (List Layer × Part)} :
    SomeOffends path (ps ++ qs) e ↔ SomeOffends path ps e ∨ SomeOffends path qs e := by
  simp only [SomeOffends, List.mem_append, or_and_right, exists_or]

@[simp] theorem someOffends_map {α : Type} {as : List α} {f : α → List Layer × Part} :
    SomeOffends path (as.map f) e ↔ ∃ a ∈ as, Offends ((f a).1 ++ path) (f a).2 e := by
  constructor
  · rintro ⟨p, hp, he⟩
    obtain ⟨a, ha, rfl⟩ := List.mem_map.1 hp
    exact ⟨a, ha, he⟩
  · rintro ⟨a, ha, he⟩
    exact ⟨f a, List.mem_map_of_mem ha, he⟩

theorem offends_iff {part : Part} :
    Offends path part e ↔ Breaks path part e ∨ SomeOffends path part.inner e := by
  constructor
  · rintro ⟨path', part', hb, hbreaks⟩
    rcases below_iff.1 hb with ⟨rfl, rfl⟩ | ⟨p, hp, hb⟩
    · exact .inl hbreaks
    · exact .inr ⟨p, hp, path', part', hb, hbreaks⟩
  · rintro (hbreaks | ⟨p, hp, path', part', hb, hbreaks⟩)
    · exact ⟨path, part, .self, hbreaks⟩
    · exact ⟨path', part', below_iff.2 (.inr ⟨p, hp, hb⟩), hbreaks⟩

/-- Whether there is a rule for the part besides that of its scope. -/
def Part.isRuled : Part → Bool
  | .expr ⟨_, _, .this⟩ | .expr ⟨_, _, .super _⟩ => true
  | .stmt ⟨_, .break⟩ | .stmt ⟨_, .continue⟩ | .stmt ⟨_, .return _⟩ => true
  | .stmt ⟨_, .classDecl _ (some _) _ _ _⟩ => true
  | _ => false

theorem offends_iff_of_not_isRuled {part : Part} (h : part.isRuled = false) :
    Offends path part e ↔ Repeats [] part.declarations e ∨ SomeOffends path part.inner e := by
  rw [offends_iff]
  refine or_congr_left ⟨fun hb => ?_, .redeclared⟩
  cases hb with
  | redeclared he => exact he
  | _ => cases h

end

end Nesting

end Lox

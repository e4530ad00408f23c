import Lox.Proofs.Run.Getter

/-!
# Members of classes and instances

A class has its own members, then those of its traits, the last trait first, and then what its
superclass has; of several own members of one name the last counts.  That is settled when it is
declared, whatever becomes of the names of its superclass and its traits:

    own, else the last trait that has one, else superclass           (Heap.MadeOf)

The tables may be gone through in any order to put them together, as each has one entry for a name.
An instance answers with what was stored last in its field, else with the method of its class, bound
to it.
-/

namespace Lox

/-! ## Tables -/

namespace Table

variable {α : Type}

theorem insertAll_append (t : Table α) (pairs pairs' : List (String × α)) :
    t.insertAll (pairs ++ pairs') = (t.insertAll pairs).insertAll pairs' := List.foldl_append

/-- In what order the entries of a table come does not matter. -/
theorem Distinct.lookup_of_perm {t : Table α} (ht : t.Distinct) {pairs : List (String × α)}
    (hp : pairs.Perm t.entries) (name : String) : pairs.lookup name = t.find? name := by
  have hd : (pairs.map Prod.fst).Nodup := (hp.map Prod.fst).nodup_iff.2 ht
  refine Option.ext fun a => ⟨fun h => ?_, fun h => ?_⟩
  · exact lookup_of_mem ht (hp.mem_iff.1 (mem_of_lookup h))
  · exact lookup_of_mem hd (hp.mem_iff.2 (mem_of_lookup h))

end Table

/-! ## Functions of one name -/

/-- The last function of that name. -/
def lastNamed (fs : List Function) (name : String) : Option Function :=
  fs.reverse.find? fun f => f.name.name = name

theorem lastNamed_cons (f : Function) (fs : List Function) (name : String) :
    lastNamed (f :: fs) name =
      (lastNamed fs name).or (if f.name.name = name then some f else none) := by
  unfold lastNamed
  rw [List.reverse_cons, List.find?_append, List.find?_singleton]
  simp only [decide_eq_true_eq]

/-- Under each name the table has the last function of that name, made in that frame. -/
def Table.Tabulates (t : Table Closure) (frame : FrameId) (kind : Function → FunctionKind)
    (fs : List Function) : Prop :=
  ∀ name, (t.find? name).map (fun c => (c.function, c.frame, c.kind)) =
    (lastNamed fs name).map fun f => (f, frame, kind f)

namespace Heap

theorem tabulates_newClosures (h : Heap) (frame : FrameId) (kind : Function → FunctionKind)
    (fs : List Function) : (h.newClosures frame kind fs).1.Tabulates frame kind fs := by
  -- behind some functions the table has what it had before, unless one of them has the name
  have hfold (table : Table Closure) (name : String) :
      ((fs.foldl (fun (acc : Table Closure × Heap) f =>
          (acc.1.insert f.name.name (acc.2.newClosure f frame (kind f)).1,
            (acc.2.newClosure f frame (kind f)).2)) (table, h)).1.find? name).map
        (fun c => (c.function, c.frame, c.kind)) =
      ((lastNamed fs name).map fun f => (f, frame, kind f)).or
        ((table.find? name).map fun c => (c.function, c.frame, c.kind)) := by
    induction fs generalizing h table with
    | nil => rfl
    | cons f fs ih =>
      rw [List.foldl_cons, ih, lastNamed_cons, Table.find?_insert]
      cases lastNamed fs name with
      | some g => rfl
      | none => by_cases hf : f.name.name = name <;> simp [hf, newClosure]
  intro name
  have hempty := hfold ∅ name
  rw [Table.find?_empty, Option.map_none, Option.or_none] at hempty
  exact hempty

/-! ## Composing -/

/-- The entries of a trait's table, none if there is no such trait. -/
def traitEntries (h : Heap) (members : Trait → Table Closure) (t : TraitId) :
    List (String × Closure) :=
  match h.traits[t.index]? with
  | some k => (members k).entries
  | none => []

/-- The member of a trait. -/
def traitMember? (h : Heap) (members : Trait → Table Closure) (name : String) (t : TraitId) :
    Option Closure :=
  match h.traits[t.index]? with
  | some k => (members k).find? name
  | none => none

/-- Own members come before those of traits, and later traits before earlier ones. -/
def composed? (h : Heap) (ts : List TraitId) (members : Trait → Table Closure)
    (own : Table Closure) (name : String) : Option Closure :=
  (own.find? name).or (ts.reverse.findSome? (h.traitMember? members name))

theorem compose_eq (h : Heap) (ts : List TraitId) (members : Trait → Table Closure)
    (own : Table Closure) :
    h.compose ts members own =
      .ofPairs ((ts.map (h.traitEntries members)).flatten ++ own.entries) := by
  have htraits (table : Table Closure) :
      ts.foldl (fun table t =>
        match h.traits[t.index]? with
        | some k => table.insertAll (members k).entries
        | none => table) table = table.insertAll (ts.map (h.traitEntries members)).flatten := by
    induction ts generalizing table with
    | nil => rfl
    | cons t ts ih =>
      rw [List.foldl_cons, ih, List.map_cons, List.flatten_cons, Table.insertAll_append,
        traitEntries]
      split <;> rfl
  exact (congrArg (·.insertAll own.entries) (htraits ∅)).trans
    (Table.insertAll_append _ _ _).symm

/-- Tables may be gone through in any order when they are put together. -/
theorem find?_ofPairs_rows {h : Heap} (hh : h.Tidy) {members : Trait → Table Closure}
    (hmembers : ∀ k : Trait, k.Tidy → (members k).Distinct) {ts : List TraitId}
    {own : Table Closure} (hown : own.Distinct) {rows : List (List (String × Closure))}
    {row : List (String × Closure)}
    (hrows : List.Forall₂ (fun ps t => ps.Perm (h.traitEntries members t)) rows ts)
    (hrow : row.Perm own.entries) (name : String) :
    (Table.ofPairs (rows.flatten ++ row)).find? name = h.composed? ts members own name := by
  have htrait {ps : List (String × Closure)} {t : TraitId}
      (hps : ps.Perm (h.traitEntries members t)) :
      ps.reverse.lookup name = h.traitMember? members name t := by
    have hperm := (List.reverse_perm ps).trans hps
    unfold traitEntries at hperm
    unfold traitMember?
    split
    · next k hk =>
      rw [hk] at hperm
      exact (hmembers k (hh.traits k (Array.mem_of_getElem? hk))).lookup_of_perm hperm name
    · next hk =>
      rw [hk] at hperm
      rw [List.perm_nil.1 hperm]
      rfl
  have htraits : rows.flatten.reverse.lookup name =
      ts.reverse.findSome? (h.traitMember? members name) := by
    clear hrow
    induction hrows with
    | nil => rfl
    | @cons ps t rows ts hps _ ih =>
      rw [List.flatten_cons, List.reverse_append, List.lookup_append, ih, htrait hps,
        List.reverse_cons, List.findSome?_append]
      congr 1
      simp
  show (Table.insertAll ∅ (rows.flatten ++ row)).find? name = _
  rw [Table.find?_insertAll, Table.find?_empty, Option.or_none, List.reverse_append,
    List.lookup_append, htraits, hown.lookup_of_perm ((List.reverse_perm row).trans hrow)]
  rfl

theorem find?_compose {h : Heap} (hh : h.Tidy) {members : Trait → Table Closure}
    (hmembers : ∀ k : Trait, k.Tidy → (members k).Distinct) (ts : List TraitId)
    {own : Table Closure} (hown : own.Distinct) (name : String) :
    (h.compose ts members own).find? name = h.composed? ts members own name := by
  rw [compose_eq]
  refine find?_ofPairs_rows hh hmembers hown ?_ (.refl _) name
  rw [List.forall₂_map_left_iff]
  exact List.forall₂_same.2 fun t _ => .refl _

/-! ## Classes -/

/-- The members were put together from those `fs` that were made in the frame and those of the
traits, by going through the tables in whatever order. -/
def Composes (h : Heap) (ts : List TraitId) (members : Trait → Table Closure) (frame : FrameId)
    (kind : Function → FunctionKind) (fs : List Function) (found : String → Option Closure) :
    Prop :=
  ∃ own : Table Closure, own.Tabulates frame kind fs ∧
    (∀ name, found name = h.composed? ts members own name) ∧
    ∀ rows row, List.Forall₂ (fun ps t => ps.Perm (h.traitEntries members t)) rows ts →
      row.Perm own.entries →
      ∀ name, (Table.ofPairs (rows.flatten ++ row)).find? name = found name

theorem composes_compose {h : Heap} (hh : h.Tidy) {members : Trait → Table Closure}
    (hmembers : ∀ k : Trait, k.Tidy → (members k).Distinct) (ts : List TraitId)
    {own : Table Closure} (hown : own.Distinct) {frame : FrameId}
    {kind : Function → FunctionKind} {fs : List Function} (ht : own.Tabulates frame kind fs) :
    h.Composes ts members frame kind fs (h.compose ts members own).find? := by
  refine ⟨own, ht, find?_compose hh hmembers ts hown, fun rows row hrows hrow name => ?_⟩
  rw [find?_ofPairs_rows hh hmembers hown hrows hrow, find?_compose hh hmembers ts hown]

/-- The class was declared with that superclass, those traits and those own members, when the heap
was `h₀`. -/
structure MadeOf (h₀ : Heap) (superclass : Option ClassId) (ts : List TraitId)
    (methods statics : List Function) (h : Heap) (c : ClassId) : Prop where
  methods : ∃ frame found, h₀.Composes ts Trait.methods frame Eval.methodKind methods found ∧
    ∀ es name, (h.edits es).method? c name =
      (found name).or (superclass.bind fun s => h₀.method? s name)
  statics : ∃ frame found, h₀.Composes ts Trait.statics frame (fun _ => .staticMethod) statics found ∧
    ∀ es name, (h.edits es).staticMethod? c name = found name
  superclass : ∀ es s name, superclass = some s → s.index < h₀.classes.size →
    (h.edits es).method? s name = h₀.method? s name

theorem method?_eq {h : Heap} {c : ClassId} {k : Class} (hk : h.classes[c.index]? = some k)
    (name : String) : h.method? c name = (k.methods.find? name).or
      (k.superclass.bind fun s => if s.index < c.index then h.method? s name else none) := by
  rw [method?, hk]
  dsimp only
  cases k.methods.find? name with
  | some f => rfl
  | none => cases k.superclass <;> rfl

theorem staticMethod?_edits {h : Heap} {c : ClassId} (hc : c.index < h.classes.size)
    (es : List Edit) (name : String) :
    (h.edits es).staticMethod? c name = h.staticMethod? c name := by
  have hk : h.classes[c.index]? = some h.classes[c.index] := Array.getElem?_eq_getElem hc
  obtain ⟨fields, hfields, -⟩ := exists_class_edits hk es
  simp only [staticMethod?, hfields, hk]

/-- A class that is made of composed tables is made of what they were composed of. -/
theorem madeOf_newClass {h₀ h : Heap} (hclasses : h.classes = h₀.classes)
    (htraits : h.traits = h₀.traits) (hh : h₀.Tidy) (x : String) (superclass : Option ClassId)
    (ts : List TraitId) {frame : FrameId} {methods statics : List Function}
    {ms ss : Table Closure} (hms : ms.Distinct) (hss : ss.Distinct)
    (hm : ms.Tabulates frame Eval.methodKind methods)
    (hs : ss.Tabulates frame (fun _ => .staticMethod) statics) (es₀ : List Edit) :
    h₀.MadeOf superclass ts methods statics
      ((h.newClass ⟨x, superclass, h.compose ts Trait.methods ms,
        h.compose ts Trait.statics ss, ∅⟩).2.edits es₀) ⟨h₀.classes.size⟩ := by
  have hcompose (members : Trait → Table Closure) (own : Table Closure) :
      h.compose ts members own = h₀.compose ts members own := by
    simp only [compose, htraits]
  rw [hcompose, hcompose]
  generalize hk : (⟨x, superclass, h₀.compose ts Trait.methods ms,
    h₀.compose ts Trait.statics ss, ∅⟩ : Class) = k
  have hrecord : (h.newClass k).2.classes[h₀.classes.size]? = some k := by
    simp [newClass, hclasses]
  have hsize : h₀.classes.size < (h.newClass k).2.classes.size := by simp [newClass, hclasses]
  have hold (s : ClassId) (hlt : s.index < h₀.classes.size) (name : String) :
      (h.newClass k).2.method? s name = h₀.method? s name := by
    have hedit := method?_edits (hclasses ▸ hlt) [.klass k] name
    exact hedit.trans (method?_of_classes_eq hclasses s name)
  constructor
  case methods =>
    refine ⟨frame, _, composes_compose hh (fun k hk => hk.methods) ts hms hm, fun es name => ?_⟩
    rw [← edits_append, method?_edits (c := ⟨h₀.classes.size⟩) hsize,
      method?_eq (c := ⟨h₀.classes.size⟩) hrecord, ← hk]
    congr 1
    cases superclass with
    | none => rfl
    | some s =>
      dsimp only [Option.bind_some]
      split
      · next hlt => rw [hk, hold s hlt]
      · next hge => rw [method?, Array.getElem?_eq_none (Nat.le_of_not_lt hge)]
  case statics =>
    refine ⟨frame, _, composes_compose hh (fun k hk => hk.statics) ts hss hs, fun es name => ?_⟩
    rw [← edits_append, staticMethod?_edits (c := ⟨h₀.classes.size⟩) hsize, staticMethod?, hrecord,
      ← hk]
  case superclass =>
    intro es s name _ hlt
    have hbelow : s.index < (h.newClass k).2.classes.size := Nat.lt_trans hlt hsize
    rw [← edits_append, method?_edits hbelow, hold s hlt]

end Heap

namespace Eval

variable {m m' : Machine}

/-! ## Declarations -/

theorem lookup_eq_ok {id : ExprId} {name : String} {span : Span} {v : Value}
    (h : lookup id name span m = .ok v m') : m.lookup id name = .ok v ∧ m' = m := by
  rw [lookup, EStateM.get_bind_apply] at h
  cases hl : m.lookup id name with
  | ok w =>
    rw [hl] at h
    cases h
    exact ⟨rfl, rfl⟩
  | error e =>
    rw [hl] at h
    cases h

theorem superclassOf_eq_ok {r : Reference} {c : ClassId} (h : superclassOf r m = .ok c m') :
    m.lookup r.id r.name.name = .ok (.klass c) ∧ m' = m := by
  obtain ⟨v, m₁, hlookup, h⟩ := EStateM.bind_eq_ok.1 h
  obtain ⟨hv, rfl⟩ := lookup_eq_ok hlookup
  cases v with
  | klass d =>
    cases h
    exact ⟨hv, rfl⟩
  | _ => cases h

theorem traitOf_eq_ok {r : Reference} {t : TraitId} (h : traitOf r m = .ok t m') :
    m.lookup r.id r.name.name = .ok (.trait t) ∧ m' = m := by
  obtain ⟨v, m₁, hlookup, h⟩ := EStateM.bind_eq_ok.1 h
  obtain ⟨hv, rfl⟩ := lookup_eq_ok hlookup
  cases v with
  | trait d =>
    cases h
    exact ⟨hv, rfl⟩
  | _ => cases h

theorem traitsOf_eq_ok {rs : List Reference} {ts : List TraitId}
    (h : rs.mapM traitOf m = .ok ts m') :
    List.Forall₂ (fun r t => m.lookup r.id r.name.name = .ok (.trait t)) rs ts ∧ m' = m := by
  induction rs generalizing ts m' with
  | nil =>
    cases h
    exact ⟨.nil, rfl⟩
  | cons r rs ih =>
    rw [List.mapM_cons] at h
    obtain ⟨t, m₁, ht, h⟩ := EStateM.bind_eq_ok.1 h
    obtain ⟨ts', m₂, hts, h⟩ := EStateM.bind_eq_ok.1 h
    cases h
    obtain ⟨ht, rfl⟩ := traitOf_eq_ok ht
    obtain ⟨hts, rfl⟩ := ih hts
    exact ⟨.cons ht hts, rfl⟩

/-- The machine when a class declaration looks its superclass and its traits up. -/
def naming (m : Machine) (x : Identifier) : Machine :=
  { m with heap := m.heap.define m.frame x.name .nil }

/-- What a class declaration goes on with are the class and the traits that it names. -/
structure Names (m : Machine) (superclass : Option Reference) (traits : List Reference)
    (found : Option ClassId × List TraitId) : Prop where
  superclass : Option.Rel (fun r c => m.lookup r.id r.name.name = .ok (.klass c)) superclass found.1
  traits : List.Forall₂ (fun r t => m.lookup r.id r.name.name = .ok (.trait t)) traits found.2

theorem classHeader_eq_ok {x : Identifier} {superclass : Option Reference}
    {traits : List Reference} {found : Option ClassId × List TraitId}
    (h : classHeader x superclass traits m = .ok found m') :
    m' = naming m x ∧ Names (naming m x) superclass traits found := by
  obtain ⟨_, m₁, hdefine, h⟩ := EStateM.bind_eq_ok.1 h
  cases hdefine
  obtain ⟨c, m₂, hsuper, h⟩ := EStateM.bind_eq_ok.1 h
  obtain ⟨ts, m₃, htraits, h⟩ := EStateM.bind_eq_ok.1 h
  cases h
  obtain ⟨htraits, rfl⟩ := traitsOf_eq_ok htraits
  cases superclass with
  | none =>
    cases hsuper
    exact ⟨rfl, .none, htraits⟩
  | some r =>
    obtain ⟨k, hk, rfl⟩ := EStateM.map_eq_ok.1 hsuper
    obtain ⟨hlookup, rfl⟩ := superclassOf_eq_ok hk
    exact ⟨rfl, .some hlookup, htraits⟩

/-- The frame for the members of a class changes nothing else. -/
theorem classFrame_eq_ok {c : Option ClassId} {frame : FrameId} (h : classFrame c m = .ok frame m') :
    ∃ h', m' = { m with heap := h' } ∧ h'.classes = m.heap.classes ∧ h'.traits = m.heap.traits ∧
      m.heap.Extends h' := by
  cases c with
  | none =>
    cases h
    exact ⟨m.heap, rfl, rfl, rfl, .refl _⟩
  | some k =>
    cases h
    exact ⟨_, rfl, rfl, rfl, m.heap.extends_newFrame _ _⟩

/-- Behind the frame for its members the name of a class is there. -/
theorem isSome_getIn?_of_classFrame {x : Identifier} {c : Option ClassId} {frame : FrameId}
    (hlt : m.frame.index < m.heap.frames.size) (h : classFrame c (naming m x) = .ok frame m') :
    (m'.heap.getIn? m.frame x.name).isSome := by
  obtain ⟨h', rfl, -, -, hgrown⟩ := classFrame_eq_ok h
  refine hgrown.bound m.frame x.name ?_
  show ((m.heap.define m.frame x.name .nil).getIn? m.frame x.name).isSome
  rw [Heap.getIn?_define, if_pos ⟨rfl, rfl, hlt⟩]
  rfl

theorem assignNearest_of_getIn? {x : Identifier} {v : Value}
    (hx : (m.heap.getIn? m.frame x.name).isSome) :
    assignNearest x v m = .ok () { m with heap := m.heap.define m.frame x.name v } := by
  have howner : m.heap.owner? m.frame x.name = some m.frame := by
    rw [Heap.owner?, if_pos hx]
  have hassign : m.heap.assign m.frame x.name v = (true, m.heap.define m.frame x.name v) := by
    rw [Heap.assign, howner]
  rw [assignNearest, assigned_apply, hassign]
  rfl

/-- Making functions gives the table of them. -/
theorem make_newClosures (m : Machine) (frame : FrameId) (kind : Function → FunctionKind)
    (fs : List Function) :
    ∃ t n, make (·.newClosures frame kind fs) m =
        .ok t { m with heap := { m.heap with closures := n } } ∧
      t.Distinct ∧ t.Tabulates frame kind fs := by
  obtain ⟨t, n, ht, -⟩ := m.heap.exists_newClosures frame kind fs
  have hdistinct := m.heap.distinct_newClosures frame kind fs
  have htabulates := m.heap.tabulates_newClosures frame kind fs
  rw [ht] at hdistinct htabulates
  exact ⟨t, n, Run.World.make_eq_ok.2 (by rw [ht]; exact ⟨rfl, rfl⟩), hdistinct, htabulates⟩

/-- Making functions leaves the variables as they are. -/
theorem getIn?_of_make_newClosures {frame : FrameId} {kind : Function → FunctionKind}
    {fs : List Function} {t : Table Closure}
    (h : make (·.newClosures frame kind fs) m = .ok t m') (f : FrameId) (x : String) :
    m'.heap.getIn? f x = m.heap.getIn? f x := by
  obtain ⟨t', n, hmake, -⟩ := make_newClosures m frame kind fs
  rw [hmake] at h
  cases h
  rfl

theorem exists_classMembers_eq (m : Machine) (x : Identifier) (c : Option ClassId)
    (ts : List TraitId) (methods statics : List Function) (frame : FrameId) :
    ∃ ms ss n, ms.Distinct ∧ ms.Tabulates frame methodKind methods ∧ ss.Distinct ∧
      ss.Tabulates frame (fun _ => .staticMethod) statics ∧
      classMembers x c ts methods statics frame m =
        assignNearest x (.klass ⟨m.heap.classes.size⟩) { m with
          heap := ({ m.heap with closures := n }.newClass ⟨x.name, c,
            { m.heap with closures := n }.compose ts Trait.methods ms,
            { m.heap with closures := n }.compose ts Trait.statics ss, ∅⟩).2 } := by
  obtain ⟨ms, k, hms, hmdistinct, hmtabulates⟩ := make_newClosures m frame methodKind methods
  obtain ⟨ss, n, hss, hsdistinct, hstabulates⟩ := make_newClosures
    { m with heap := { m.heap with closures := k } } frame (fun _ => .staticMethod) statics
  refine ⟨ms, ss, n, hmdistinct, hmtabulates, hsdistinct, hstabulates, ?_⟩
  rw [classMembers, EStateM.bind_of_ok hms, EStateM.bind_of_ok hss]
  rfl

/-- A class that is declared has its name in the current frame. -/
theorem declareClass_eq_ok (hm : m.heap.Tidy) (hf : m.frame.index < m.heap.frames.size)
    {x : Identifier} {superclass : Option Reference} {traits : List Reference}
    {methods statics : List Function}
    (h : declareClass x superclass traits methods statics m = .ok () m') :
    ∃ found, Names (naming m x) superclass traits found ∧
      m'.heap.getIn? m.frame x.name = some (.klass ⟨m.heap.classes.size⟩) ∧
      (naming m x).heap.MadeOf found.1 found.2 methods statics m'.heap ⟨m.heap.classes.size⟩ := by
  rw [declareClass_eq] at h
  obtain ⟨⟨c, ts⟩, m₁, hheader, h⟩ := EStateM.bind_eq_ok.1 h
  obtain ⟨rfl, hnames⟩ := classHeader_eq_ok hheader
  obtain ⟨frame, m₂, hframe, h⟩ := EStateM.bind_eq_ok.1 h
  obtain ⟨h₂, rfl, hclasses, htraits, hgrown⟩ := classFrame_eq_ok hframe
  obtain ⟨ms, ss, n, hmdistinct, hmtabulates, hsdistinct, hstabulates, hmembers⟩ :=
    exists_classMembers_eq { naming m x with heap := h₂ } x c ts methods statics frame
  have hbound : (h₂.getIn? m.frame x.name).isSome := isSome_getIn?_of_classFrame hf hframe
  rw [hmembers, assignNearest_of_getIn? hbound] at h
  cases h
  have hid : h₂.classes.size = m.heap.classes.size := by rw [hclasses]; rfl
  have hnaming : (naming m x).heap.Tidy :=
    (Heap.Onward.define m.heap m.frame x.name (.of_ne fun _ => Value.noConfusion)).tidy hm
  have hsize : m.frame.index < h₂.frames.size := by
    refine Nat.lt_of_lt_of_le hf (Nat.le_trans (Nat.le_of_eq ?_) hgrown.size)
    exact (m.heap.size_frames_define m.frame x.name .nil).symm
  refine ⟨(c, ts), hnames, ?_, ?_⟩
  · refine (Heap.getIn?_define _ _ _ _ _ _).trans ?_
    rw [if_pos ⟨rfl, rfl, hsize⟩]
    exact congrArg (fun size => some (Value.klass ⟨size⟩)) hid
  · exact Heap.madeOf_newClass (h := { h₂ with closures := n }) hclasses htraits hnaming x.name c ts
      hmdistinct hsdistinct hmtabulates hstabulates
      [.variable m.frame x.name (.klass ⟨h₂.classes.size⟩)]

/-- A trait that is declared has its name in the current frame. -/
theorem declareTrait_eq_ok (hf : m.frame.index < m.heap.frames.size) {x : Identifier}
    {methods statics : List Function} (h : declareTrait x methods statics m = .ok () m') :
    m'.heap.getIn? m.frame x.name = some (.trait ⟨m.heap.traits.size⟩) ∧
      ∃ k : Trait, m'.heap.traits[m.heap.traits.size]? = some k ∧
        k.methods.Tabulates m.frame methodKind methods ∧
        k.statics.Tabulates m.frame (fun _ => .staticMethod) statics := by
  obtain ⟨ms, i, hms, -, hmtabulates⟩ := make_newClosures m m.frame methodKind methods
  obtain ⟨ss, j, hss, -, hstabulates⟩ := make_newClosures
    { m with heap := { m.heap with closures := i } } m.frame (fun _ => .staticMethod) statics
  rw [declareTrait, EStateM.get_bind_apply, EStateM.bind_of_ok hms, EStateM.bind_of_ok hss] at h
  cases h
  refine ⟨?_, ⟨x.name, ms, ss⟩, Array.getElem?_push_size, hmtabulates, hstabulates⟩
  exact (Heap.getIn?_define _ _ _ _ _ _).trans (if_pos ⟨rfl, rfl, hf⟩)

/-! ## Instances -/

/-- The function runs with `this` as the instance, in a frame of its own around that. -/
structure BoundTo (h : Heap) (f : Closure) (i : InstanceId) (g : Closure) (h' : Heap) : Prop where
  function : g.function = f.function
  kind : g.kind = f.kind
  frame : g.frame = ⟨h.frames.size⟩
  enclosing : h'.enclosing? g.frame = some f.frame
  this : h'.getIn? g.frame Name.this = some (.object i)

theorem boundTo_bind (h : Heap) (f : Closure) (i : InstanceId) :
    BoundTo h f i (h.bind f (.object i)).1 (h.bind f (.object i)).2 where
  function := rfl
  kind := rfl
  frame := rfl
  enclosing := (Heap.enclosing?_newFrame _ _ _ _).trans (if_pos rfl)
  this := Run.getIn?_bind h f (.object i)

/-- What an instance answers with, which was made some edits ago. -/
theorem property_of_newInstance {h₀ : Heap} {k : ClassId} {es : List Heap.Edit}
    (hm : m.heap = (h₀.newInstance k).2.edits es) (name : Identifier) :
    let i := (h₀.newInstance k).1
    (∀ v, Heap.last (Heap.Edit.inField i name.name) es = some v →
      property (.object i) name m = .ok v m) ∧
    (Heap.last (Heap.Edit.inField i name.name) es = none →
      (∀ f, m.heap.method? k name.name = some f → ∃ g h', BoundTo m.heap f i g h' ∧
        property (.object i) name m = .ok (.function g) { m with heap := h' }) ∧
      (m.heap.method? k name.name = none → property (.object i) name m =
        .error (.error ⟨name.span, .undefinedProperty name.name⟩) m)) := by
  intro i
  have hnew : (h₀.newInstance k).2.instances[i.index]? = some ⟨k, ∅⟩ := Array.getElem?_push_size
  obtain ⟨fields, hfields, hfind⟩ := Heap.exists_instance_edits hnew es
  have hmember : m.heap.member? i name.name =
      ((Heap.last (Heap.Edit.inField i name.name) es).map .field).or
        ((m.heap.method? k name.name).map .method) := by
    rw [← hm] at hfields
    cases hlast : Heap.last (Heap.Edit.inField i name.name) es with
    | some v => simp only [Heap.member?, hfields, hfind, hlast, Option.some_or]; rfl
    | none =>
      simp only [Heap.member?, hfields, hfind, hlast, Table.find?_empty, Option.or_none]
      rfl
  refine ⟨fun v hv => ?_, fun hnone => ⟨fun f hf => ?_, fun hf => ?_⟩⟩
  · rw [hv] at hmember
    refine (EStateM.get_bind_apply _ m).trans ?_
    rw [hmember]
    rfl
  · rw [hnone, hf] at hmember
    exact ⟨_, _, boundTo_bind m.heap f i, property_of_method hmember⟩
  · rw [hnone, hf] at hmember
    refine (EStateM.get_bind_apply _ m).trans ?_
    rw [hmember]
    rfl

end Eval

namespace Run

variable {log : Log} {stack : List Config} {n : Nat} {span : Span} {x : Identifier} {m m' : Machine}
  {signal : Signal}

/-! ## Runs -/

theorem Reached.frame_lt {s : Stmt} (h : Reached log) (hv : log.Visited stack ⟨n, .stmt s, m⟩) :
    m.frame.index < m.heap.frames.size := by
  obtain ⟨W, -, ⟨π, hc, -⟩, -⟩ := h.visited hv
  exact hc.index_lt

/-- Whatever has happened, a class declaration that is passed leaves a new class in its frame under
its name.  From then on, whatever is done to the heap, the class answers to a name with the last of
its own methods of that name, else that of the last of its traits that has one, else what its
superclass answered then and still does; and its own static members come before those of its traits
in the same way.  All traits and the superclass are those that the declaration found, and the tables
may be gone through in any order to put these together.  A trait declaration leaves a trait that has
the last method and the last static method of each name, for good.  An instance that was made some
edits ago answers with what they have stored last in its field, else with the method of its class,
bound to it, else with an error. -/
theorem Reached.finds_members (h : Reached log) :
    (∀ stack n span x superclass traits methods statics m signal m',
      log.Visited stack ⟨n + 1, .stmt ⟨span, .classDecl x superclass traits methods statics⟩, m⟩ →
      Eval.stmt (n + 1) ⟨span, .classDecl x superclass traits methods statics⟩ m = .ok signal m' →
      ∃ found, Eval.Names (Eval.naming m x) superclass traits found ∧
        m'.heap.getIn? m.frame x.name = some (.klass ⟨m.heap.classes.size⟩) ∧
        (Eval.naming m x).heap.MadeOf found.1 found.2 methods statics m'.heap
          ⟨m.heap.classes.size⟩) ∧
    (∀ stack n span x methods statics m signal m',
      log.Visited stack ⟨n + 1, .stmt ⟨span, .traitDecl x methods statics⟩, m⟩ →
      Eval.stmt (n + 1) ⟨span, .traitDecl x methods statics⟩ m = .ok signal m' →
      m'.heap.getIn? m.frame x.name = some (.trait ⟨m.heap.traits.size⟩) ∧
        ∃ k : Trait, k.methods.Tabulates m.frame Eval.methodKind methods ∧
          k.statics.Tabulates m.frame (fun _ => .staticMethod) statics ∧
          ∀ es, (m'.heap.edits es).traits[m.heap.traits.size]? = some k) ∧
    ∀ (h₀ : Heap) k es (m : Machine) (name : Identifier),
      m.heap = (h₀.newInstance k).2.edits es →
      let i := (h₀.newInstance k).1
      (∀ v, Heap.last (Heap.Edit.inField i name.name) es = some v →
        Eval.property (.object i) name m = .ok v m) ∧
      (Heap.last (Heap.Edit.inField i name.name) es = none →
        (∀ f, m.heap.method? k name.name = some f → ∃ g h', Eval.BoundTo m.heap f i g h' ∧
          Eval.property (.object i) name m = .ok (.function g) { m with heap := h' }) ∧
        (m.heap.method? k name.name = none → Eval.property (.object i) name m =
          .error (.error ⟨name.span, .undefinedProperty name.name⟩) m)) := by
  refine ⟨?_, ?_, fun h₀ k es m name hm => Eval.property_of_newInstance hm name⟩
  · intro stack n span x superclass traits methods statics m signal m' hv hok
    have hok : (Eval.declareClass x superclass traits methods statics >>= fun _ =>
      pure Signal.next) m = .ok signal m' := hok
    obtain ⟨_, m₁, hdeclare, hok⟩ := EStateM.bind_eq_ok.1 hok
    cases hok
    exact Eval.declareClass_eq_ok (h.clean hv).tidy (h.frame_lt hv) hdeclare
  · intro stack n span x methods statics m signal m' hv hok
    have hok : (Eval.declareTrait x methods statics >>= fun _ => pure Signal.next) m =
      .ok signal m' := hok
    obtain ⟨_, m₁, hdeclare, hok⟩ := EStateM.bind_eq_ok.1 hok
    cases hok
    obtain ⟨hbound, k, hk, hmethods, hstatics⟩ :=
      Eval.declareTrait_eq_ok (h.frame_lt hv) hdeclare
    exact ⟨hbound, k, hmethods, hstatics, fun es =>
      Heap.trait_edits (t := ⟨m.heap.traits.size⟩) hk es⟩

/-- A function `f` with nothing in it. -/
def emptyMethod (start : Nat) : Function :=
  ⟨⟨"f", .onLine start (start + 1)⟩, [], [], false, .onLine start (start + 5)⟩

/-- `trait T{f(){}}` -/
def traitT : Stmt := ⟨.onLine 0 14, .traitDecl ⟨"T", .onLine 6 7⟩ [emptyMethod 8] []⟩

/-- `class A{f(){}}`, behind that -/
def classA : Stmt := ⟨.onLine 14 28, .classDecl ⟨"A", .onLine 20 21⟩ none [] [emptyMethod 22] []⟩

/-- `class B<A<>T{f(){}f(){}}`, behind that -/
def classB : Stmt :=
  ⟨.onLine 28 52, .classDecl ⟨"B", .onLine 34 35⟩ (some ⟨0, ⟨"A", .onLine 36 37⟩⟩)
    [⟨1, ⟨"T", .onLine 39 40⟩⟩] [emptyMethod 41, emptyMethod 46] []⟩

/-- Whether an evaluation goes right. -/
def succeeds {α : Type} : EStateM.Result Stop Machine α → Bool
  | .ok _ _ => true
  | .error _ _ => false

theorem exists_eq_ok_of_succeeds {α : Type} {r : EStateM.Result Stop Machine α}
    (h : succeeds r = true) : ∃ a, r = .ok a (machineOf r) := by
  cases r with
  | ok a m => exact ⟨a, rfl⟩
  | error => cases h

/-- The machine when the declaration of `B` is run. -/
def membersMachine : Machine :=
  machineOf (Eval.stmt 1 classA (machineOf (Eval.stmt 1 traitT ((Machine.start none (fun _ => 0)).learn []))))

/-- A class with a superclass and a trait that have a method of the name of two of its own. -/
theorem finds_members_three : ∃ log stack m signal m', Reached log ∧
    log.Visited stack ⟨1, .stmt classB, m⟩ ∧ Eval.stmt 1 classB m = .ok signal m' ∧
    (Eval.naming m ⟨"B", .onLine 34 35⟩).heap.MadeOf (some ⟨0⟩) [⟨0⟩]
      [emptyMethod 41, emptyMethod 46] [] m'.heap ⟨1⟩ := by
  have hparse : Tree.parse "trait T{f(){}}class A{f(){}}class B<A<>T{f(){}f(){}}" 0 =
      .ok ⟨[traitT, classA, classB], 2⟩ := by cbv
  have hresolve : Resolution.ofProgram [traitT, classA, classB] = .ok ⟨[], []⟩ := by cbv
  obtain ⟨log, hreached, -, hrun⟩ := (Reached.start none (fun _ => 0)).executes hparse hresolve 1
  obtain ⟨_, htrait⟩ := exists_eq_ok_of_succeeds
    (r := Eval.stmt 1 traitT ((Machine.start none (fun _ => 0)).learn [])) (by cbv)
  obtain ⟨_, hclass⟩ := exists_eq_ok_of_succeeds (r := Eval.stmt 1 classA
    (machineOf (Eval.stmt 1 traitT ((Machine.start none (fun _ => 0)).learn [])))) (by cbv)
  obtain ⟨signal, hok⟩ := exists_eq_ok_of_succeeds (r := Eval.stmt 1 classB membersMachine)
    (by cbv)
  have hvisited := ((Log.Visited.call ⟨_, hrun, .start⟩ (.programRest htrait)).call
    (.programRest hclass)).call .programFirst
  have hclasses : membersMachine.heap.classes.size = 1 := by cbv
  obtain ⟨hdeclared, -⟩ := hreached.finds_members
  obtain ⟨⟨found, ts⟩, hnames, -, hmade⟩ :=
    hdeclared _ _ _ _ _ _ _ _ membersMachine _ _ hvisited hok
  rw [hclasses] at hmade
  obtain ⟨hsuperclass, htraits⟩ := hnames
  have hA : (Eval.naming membersMachine ⟨"B", .onLine 34 35⟩).lookup 0 "A" =
      .ok (.klass ⟨0⟩) := by cbv
  have hT : (Eval.naming membersMachine ⟨"B", .onLine 34 35⟩).lookup 1 "T" =
      .ok (.trait ⟨0⟩) := by cbv
  cases hsuperclass with
  | some hlookup =>
    cases hA.symm.trans hlookup
    cases htraits with
    | cons hlookup hnil =>
      cases hnil
      cases hT.symm.trans hlookup
      exact ⟨log, _, membersMachine, signal, _, hreached, hvisited, hok, hmade⟩

end Run

end Lox

import Mathlib.Data.List.Sort
import Lox.Proofs.Scope.Accepted
import Lox.Proofs.Scope.Closing
import Lox.Proofs.Scope.Enforced
import Lox.Proofs.Scope.Reading
import Lox.Proofs.Syntax.Order
import Lox.Proofs.Syntax.Parsed

/-!
# What walking warns of

A walk that goes well declares names in the innermost scope, marks as read the variables that
something in its parts reads, and leaves a warning for each variable of a scope that closes unread.
`Tells` says so of the walk through a part; a whole program leaves the warnings of its scopes, in the
order in which they close:

    ofProgram body = .ok r → r.warnings = (closing .program (.stmts body)).flatMap leftUnread
                                                                               (warnings_eq)

In a text they are of the declarations that nothing reads, each once and in the order of the text
(`warnings_exact`).
-/

namespace Lox

namespace Lexical

open Resolution

/-! ## Labels -/

/-- A name that is declared, and whether to warn if nothing reads it. -/
abbrev Declared := Identifier × Bool

/-- Declarations that are warned of. -/
def warned (names : List Identifier) : List Declared := names.map fun name => (name, true)

/-- What never changes of a variable, with its name. -/
abbrev Label := String × Span × Bool

def Label.ofEntry (entry : String × Variable) : Label := (entry.1, entry.2.span, entry.2.warns)

def Label.ofDeclared (d : Declared) : Label := (d.1.name, d.1.span, d.2)

end Lexical

namespace Resolution

open Lexical

def Scope.labels (scope : Scope) : List Label := scope.entries.map Label.ofEntry

/-- The labels in the open scopes, innermost first. -/
def State.labels (s : State) : List (List Label) := s.scopes.map Scope.labels

theorem State.names_eq (s : State) : s.names = s.labels.map (·.map Prod.fst) := by
  unfold names labels
  rw [List.map_map]
  congr 1
  funext scope
  simp only [Table.names, Function.comp, Scope.labels, List.map_map]
  rfl

theorem Scope.labels_modify (scope : Scope) (name : String) {f : Variable → Variable}
    (hf : ∀ v, (f v).span = v.span ∧ (f v).warns = v.warns) :
    Scope.labels (scope.modify name f) = scope.labels :=
  Table.map_entries_modify (fun v => by simp [Label.ofEntry, hf v]) scope

theorem Scope.labels_define (scope : Scope) (name : String) :
    Scope.labels (scope.modify name Variable.define) = scope.labels :=
  scope.labels_modify name fun v => by unfold Variable.define; split <;> exact ⟨rfl, rfl⟩

theorem Scope.labels_markRead (scope : Scope) (name : String) :
    Scope.labels (scope.modify name Variable.markRead) = scope.labels :=
  scope.labels_modify name fun _ => ⟨rfl, rfl⟩

theorem State.labels_use (s : State) (id : ExprId) (name : String) (reads : Bool) :
    (s.use id name reads).labels = s.labels := by
  unfold use labels
  split
  · next hops _ =>
    cases reads with
    | false => rfl
    | true =>
      show (s.scopes.modify hops (·.modify name Variable.markRead)).map Scope.labels = _
      refine List.ext_getElem? fun i => ?_
      rw [List.getElem?_map, List.getElem?_map, List.getElem?_modify]
      cases s.scopes[i]? with
      | none => simp
      | some scope =>
        by_cases hi : hops = i
        · simp [hi, scope.labels_markRead name]
        · simp [hi]
  · rfl

theorem State.warnings_use (s : State) (id : ExprId) (name : String) (reads : Bool) :
    (s.use id name reads).warnings = s.warnings := by
  unfold use
  split <;> rfl

theorem State.isSome_status? {s : State} {name : String} {k : Nat}
    (h : distance? name s.scopes = some k) : (s.status? name k).isSome := by
  obtain ⟨hk, hname, -⟩ := List.findIdx?_eq_some_iff_getElem.1 h
  rw [status?, List.getElem?_eq_getElem hk, Option.bind_some, Option.isSome_map]
  exact hname

theorem State.labels_define (s : State) (name : String) :
    (s.modifyInnermost (·.modify name Variable.define)).labels = s.labels := by
  obtain ⟨_ | ⟨scope, scopes⟩, distances, warnings, context⟩ := s
  · rfl
  · simp only [modifyInnermost, labels, List.map_cons, Scope.labels_define]

theorem State.warnings_modifyInnermost (f : Scope → Scope) (s : State) :
    (s.modifyInnermost f).warnings = s.warnings := by
  unfold modifyInnermost
  split <;> rfl

theorem State.context_modifyInnermost (f : Scope → Scope) (s : State) :
    (s.modifyInnermost f).context = s.context := by
  unfold modifyInnermost
  split <;> rfl

/-- How far a variable is once it is readable. -/
def Status.define : Status → Status
  | .declared => .defined
  | st => st

theorem State.status?_define (s : State) (name x : String) (k : Nat) :
    (s.modifyInnermost (·.modify name Variable.define)).status? x k =
      if name = x ∧ k = 0 then (s.status? x k).map Status.define else s.status? x k := by
  obtain ⟨_ | ⟨scope, scopes⟩, distances, warnings, context⟩ := s
  · cases k <;> simp [modifyInnermost, status?]
  · cases k with
    | succ k => simp [modifyInnermost, status?]
    | zero =>
      by_cases hx : name = x
      · subst hx
        simp only [modifyInnermost, status?, List.getElem?_cons_zero, Option.bind_some,
          Table.find?_modify, if_true, and_self]
        cases scope.find? name with
        | none => rfl
        | some v =>
          obtain ⟨st, span, warns⟩ := v
          cases st <;> rfl
      · simp [modifyInnermost, status?, Table.find?_modify, hx]

theorem labels_declare {name : Identifier} {warns : Bool} {s t : State}
    (h : declare name warns s = .ok () t) :
    t.labels = s.labels.modifyHead (· ++ [Label.ofDeclared (name, warns)]) := by
  obtain ⟨hs, rfl⟩ | ⟨scope, scopes, hs, hnew, rfl⟩ := declare_eq_ok h
  · simp [State.labels, hs]
  · simp [State.labels, hs, Scope.labels, Table.entries_insert hnew, Label.ofEntry,
      Label.ofDeclared]

theorem State.labels_closeScope (s : State) : s.closeScope.labels = s.labels.tail := by
  unfold closeScope labels
  cases h : s.scopes <;> simp [h]

end Resolution

/-! ## What a scope leaves -/

/-- By source position. -/
def Warning.le (a b : Warning) : Bool := a.span.start ≤ b.span.start

/-- The warning of a declaration that nothing reads. -/
def Identifier.warning (name : Identifier) : Warning := ⟨name.span, name.name⟩

namespace Resolution

open Lexical

/-- The warning of a variable that nothing reads, if it is warned of. -/
def warning? (entry : String × Variable) : Option Warning :=
  if entry.2.warns && entry.2.status != .read then some ⟨entry.2.span, entry.1⟩ else none

theorem unused_eq_filterMap (scope : Scope) :
    unused scope = (scope.entries.filterMap warning?).mergeSort Warning.le := rfl

/-- A scope leaves a warning for each of its variables that are warned of and not read. -/
theorem unused_eq {scope : Scope} {declared : List Declared} (status : String → Status)
    (hlabels : scope.labels = declared.map Label.ofDeclared)
    (hdistinct : (declared.map fun m => m.1.name).Nodup)
    (hstatus : ∀ m ∈ declared,
      (scope.find? m.1.name).map Variable.status = some (status m.1.name)) :
    unused scope = ((((declared.filter Prod.snd).map Prod.fst).filter
      fun name => status name.name != .read).map Identifier.warning).mergeSort Warning.le := by
  have hnames : scope.names = declared.map fun m => m.1.name := by
    have := congrArg (List.map Prod.fst) hlabels
    simp only [Scope.labels, List.map_map] at this
    exact this
  let ofLabel? : Label → Option Warning := fun l =>
    if l.2.2 && status l.1 != .read then some ⟨l.2.1, l.1⟩ else none
  have hentries : scope.entries.filterMap warning? = scope.labels.filterMap ofLabel? := by
    rw [Scope.labels, List.filterMap_map]
    refine List.filterMap_congr fun entry hentry => ?_
    obtain ⟨name, v⟩ := entry
    have hname : name ∈ declared.map fun m => m.1.name := hnames ▸ List.mem_map_of_mem hentry
    obtain ⟨m, hm, rfl⟩ := List.mem_map.1 hname
    have := hstatus m hm
    rw [Table.find?_of_mem (hnames ▸ hdistinct) hentry, Option.map_some, Option.some.injEq] at this
    simp only [Function.comp, warning?, ofLabel?, Label.ofEntry, this]
  have hdeclared : (declared.map Label.ofDeclared).filterMap ofLabel? =
      (((declared.filter Prod.snd).map Prod.fst).filter
        fun name => status name.name != .read).map Identifier.warning := by
    rw [List.filterMap_map]
    clear hlabels hdistinct hstatus hnames
    induction declared with
    | nil => rfl
    | cons m rest ih =>
      obtain ⟨name, warns⟩ := m
      cases warns <;> by_cases hread : status name.name = .read <;>
        simp_all [ofLabel?, Label.ofDeclared, Identifier.warning]
  rw [unused_eq_filterMap, hentries, hlabels, hdeclared]

end Resolution

namespace Lexical

open Resolution

/-! ## Steps -/

/-- Something in the parts reads the name. -/
def ReadInAny (parts : List (Place × Node)) (name : String) (depth : Nat) : Prop :=
  ∃ p ∈ parts, ReadIn p name depth

open Classical in
/-- How far a variable has come behind parts in some of which it may be read. -/
noncomputable def behind (parts : List (Place × Node)) (name : String) (depth : Nat)
    (before : Status) : Status :=
  if ReadInAny parts name depth then .read else before

open Classical in
/-- The declarations in a scope that nothing reads. -/
noncomputable def unread (scope : Place × Node) : List Identifier :=
  scope.2.locals.filter fun name => ¬IsRead scope name.name

/-- The warnings that a scope leaves. -/
noncomputable def leftUnread (scope : Place × Node) : List Warning :=
  ((unread scope).map Identifier.warning).mergeSort Warning.le

/-- The warnings of the scopes that close inside the parts. -/
noncomputable def warningsIn (parts : List (Place × Node)) : List Warning :=
  parts.flatMap fun p => (closing p.1 p.2).flatMap leftUnread

/-- The way from `s` to `t` declares `more` in the innermost scope and goes through `parts`. -/
structure Told (π : Place) (more : List Declared) (parts : List (Place × Node)) (s t : State) :
    Prop where
  labels : t.labels = s.labels.modifyHead (· ++ more.map Label.ofDeclared)
  context : t.context = s.context
  marks : ∀ {x k d st}, k + d + 1 = π.openings.length → s.status? x k = some st →
    t.status? x k = some (behind parts x d st)
  /-- What is read is there. -/
  found : ∀ {x k d}, k + d + 1 = π.openings.length → ReadInAny parts x d →
    (t.status? x k).isSome
  news : ∀ {d}, d + 1 = π.openings.length → ∀ m ∈ more, s.status? m.1.name 0 = none ∧
    t.status? m.1.name 0 = some (behind parts m.1.name d .defined)
  distinct : π.openings ≠ [] → (more.map fun m => m.1.name).Nodup
  warnings : t.warnings = s.warnings ++ warningsIn parts

/-- What a walk that goes well from the place does. -/
def Tells (π : Place) (w : Walk Unit) (more : List Declared) (parts : List (Place × Node)) :
    Prop :=
  ∀ s t, At s π → w s = .ok () t → Told π more parts s t

theorem not_readInAny_nil {name : String} {depth : Nat} : ¬ReadInAny [] name depth := by
  rintro ⟨p, hp, -⟩
  cases hp

theorem readInAny_append {ps qs : List (Place × Node)} {name : String} {depth : Nat} :
    ReadInAny (ps ++ qs) name depth ↔ ReadInAny ps name depth ∨ ReadInAny qs name depth := by
  simp only [ReadInAny, List.mem_append, or_and_right, exists_or]

theorem readInAny_part {π : Place} {n : Node} (hn : n.isUse = false) {name : String}
    {depth : Nat} :
    ReadInAny [(π, n)] name depth ↔ ReadInAny (n.inner π) name depth := by
  unfold ReadInAny
  rw [← readIn_iff hn]
  simp only [List.mem_singleton, exists_eq_left]

theorem behind_congr {ps qs : List (Place × Node)} {name : String} {depth : Nat}
    (h : ReadInAny ps name depth ↔ ReadInAny qs name depth) (st : Status) :
    behind ps name depth st = behind qs name depth st := by
  unfold behind
  rw [propext h]

theorem behind_nil (name : String) (depth : Nat) (st : Status) : behind [] name depth st = st :=
  if_neg not_readInAny_nil

theorem behind_append (ps qs : List (Place × Node)) (name : String) (depth : Nat) (st : Status) :
    behind (ps ++ qs) name depth st = behind qs name depth (behind ps name depth st) := by
  unfold behind
  by_cases hq : ReadInAny qs name depth
  · rw [if_pos (readInAny_append.2 (.inr hq)), if_pos hq]
  · by_cases hp : ReadInAny ps name depth
    · rw [if_pos (readInAny_append.2 (.inl hp)), if_neg hq, if_pos hp]
    · rw [if_neg fun h => (readInAny_append.1 h).elim hp hq, if_neg hq, if_neg hp]

theorem warningsIn_append (ps qs : List (Place × Node)) :
    warningsIn (ps ++ qs) = warningsIn ps ++ warningsIn qs := List.flatMap_append ..

theorem warningsIn_part (π : Place) (n : Node) :
    warningsIn [(π, n)] =
      warningsIn (n.inner π) ++ if n.opensScope then leftUnread (π, n) else [] := by
  rw [warningsIn, List.flatMap_singleton, closing_eq, List.flatMap_append, warningsIn,
    List.flatMap_assoc]
  split
  · rw [List.flatMap_singleton]
  · rfl

namespace Told

variable {π ρ : Place} {a b : List Declared} {ps qs : List (Place × Node)} {s t u : State}

/-- One way behind the other: what is read on either of them is marked behind both, and the warnings
of the second come last. -/
theorem append (h : Told π a ps s t) (h' : Told ρ b qs t u)
    (hρ : ρ.openings.length = π.openings.length) : Told π (a ++ b) (ps ++ qs) s u where
  labels := by
    rw [h'.labels, h.labels, List.modifyHead_modifyHead, List.map_append]
    congr 1
    funext names
    exact List.append_assoc ..
  context := h'.context.trans h.context
  marks hk hst := by
    rw [behind_append]
    exact h'.marks (hρ ▸ hk) (h.marks hk hst)
  found hk hread := by
    rcases readInAny_append.1 hread with hread | hread
    · obtain ⟨st, hst⟩ := Option.isSome_iff_exists.1 (h.found hk hread)
      rw [h'.marks (hρ ▸ hk) hst]
      rfl
    · exact h'.found (hρ ▸ hk) hread
  news {d} hd m hm := by
    have hk : 0 + d + 1 = π.openings.length := by omega
    rw [behind_append]
    rcases List.mem_append.1 hm with hm | hm
    · obtain ⟨hnone, hsome⟩ := h.news hd m hm
      exact ⟨hnone, h'.marks (hρ ▸ hk) hsome⟩
    · obtain ⟨hnone, hsome⟩ := h'.news (hρ ▸ hd) m hm
      have hunread : ¬ReadInAny ps m.1.name d := fun hread => by
        have := h.found hk hread
        rw [hnone] at this
        cases this
      refine ⟨?_, ?_⟩
      · cases hs : s.status? m.1.name 0 with
        | none => rfl
        | some st => rw [h.marks hk hs] at hnone; cases hnone
      · rw [hsome, behind.eq_def ps, if_neg hunread]
  distinct hne := by
    have hne' : ρ.openings ≠ [] := by
      rw [← List.length_pos_iff, hρ]
      exact List.length_pos_iff.2 hne
    obtain ⟨d, hd⟩ : ∃ d, d + 1 = π.openings.length :=
      ⟨π.openings.length - 1, Nat.succ_pred_eq_of_pos (List.length_pos_iff.2 hne)⟩
    rw [List.map_append]
    refine List.nodup_append.2 ⟨h.distinct hne, h'.distinct hne', ?_⟩
    intro x hx y hy hxy
    obtain ⟨m, hm, rfl⟩ := List.mem_map.1 hx
    obtain ⟨m', hm', rfl⟩ := List.mem_map.1 hy
    have hsome := (h.news hd m hm).2
    have hnone := (h'.news (hρ ▸ hd) m' hm').1
    rw [← hxy, hsome] at hnone
    cases hnone
  warnings := by
    rw [h'.warnings, h.warnings, warningsIn_append, List.append_assoc]

theorem refl : Told π [] [] s s where
  labels := by cases h : s.labels <;> simp
  context := rfl
  marks _ hst := by rw [behind_nil, hst]
  found _ hread := absurd hread not_readInAny_nil
  news _ _ hm := by cases hm
  distinct _ := List.nodup_nil
  warnings := by simp [warningsIn]

theorem names (h : Told π a ps s t) :
    t.names = s.names.modifyHead (· ++ a.map fun d => d.1.name) := by
  rw [State.names_eq, State.names_eq, h.labels]
  cases s.labels with
  | nil => rfl
  | cons labels rest => simp [Label.ofDeclared]

theorem at_behind (h : Told π a ps s t) (hs : At s π)
    (hn : ρ.names = π.names.modifyHead (· ++ a.map fun d => d.1.name))
    (hc : ρ.context = π.context) : At t ρ :=
  ⟨by rw [h.names, hs.names, hn], by rw [h.context, hs.context, hc]⟩

/-- What counts of the parts is what they read and which scopes they open. -/
theorem congr (h : Told π a ps s t) (hread : ∀ x d, ReadInAny qs x d ↔ ReadInAny ps x d)
    (hwarnings : warningsIn qs = warningsIn ps) : Told π a qs s t := by
  have hbehind : behind qs = behind ps := by
    funext x d st
    exact behind_congr (hread x d) st
  obtain ⟨hl, hc, hm, hf, hn, hd, hw⟩ := h
  refine ⟨hl, hc, hbehind ▸ hm, fun hk hr => hf hk ((hread _ _).1 hr), ?_, hd, hwarnings ▸ hw⟩
  rw [hbehind]
  exact hn

end Told

theorem Place.length_names (π : Place) : π.names.length = π.openings.length := List.length_map ..

namespace Tells

variable {π ρ : Place} {w w' : Walk Unit} {a b : List Declared} {ps qs : List (Place × Node)}

/-- A check changes nothing. -/
theorem of_eq (h : ∀ s t, w s = .ok () t → t = s) : Tells π w [] [] := by
  intro s t _ ht
  obtain rfl := h s t ht
  exact .refl

theorem pure : Tells π (Pure.pure ()) [] [] := of_eq fun _ _ h => by cases h; rfl

theorem bind (h : Tells π w a ps)
    (hn : ρ.names = π.names.modifyHead (· ++ a.map fun d => d.1.name))
    (hc : ρ.context = π.context) (h' : Tells ρ w' b qs) :
    Tells π (do w; w') (a ++ b) (ps ++ qs) := by
  intro s u hs hu
  obtain ⟨_, t, hw, hw'⟩ := EStateM.bind_eq_ok.1 hu
  have ht := h s t hs hw
  refine ht.append (h' t u (ht.at_behind hs hn hc) hw') ?_
  rw [← Place.length_names, ← Place.length_names, hn, List.length_modifyHead]

/-- A walk that declares nothing, and what comes behind it. -/
theorem seq (h : Tells π w [] ps) (h' : Tells π w' b qs) : Tells π (do w; w') b (ps ++ qs) :=
  h.bind (by rw [List.map_nil]; exact (modifyHead_append_nil _).symm) rfl h'

theorem within {region : Region}
    (h : Tells { π with context := region.enter π.context } w a ps) :
    Tells π (Resolution.within region w) a ps := by
  intro s u hs hu
  obtain ⟨t, hw, rfl⟩ := within_eq_ok hu
  have hs' : At { s with context := region.enter s.context }
      { π with context := region.enter π.context } :=
    ⟨hs.names, congrArg region.enter hs.context⟩
  obtain ⟨hl, hc, hm, hf, hn, hd, hwarnings⟩ := h _ _ hs' hw
  exact ⟨hl, region.leave_eq hc, hm, hf, hn, hd, hwarnings⟩

theorem Place.means_iff {x : String} {k d : Nat} (hk : k + d + 1 = π.openings.length) :
    π.Means x d ↔ π.distance? x = some k := by
  constructor
  · rintro ⟨hops, hdist, hlen⟩
    rw [hdist, show hops = k by omega]
  · intro hdist
    exact ⟨k, hdist, by omega⟩

/-- A walk that at most records a use, after some check. -/
theorem use {id : ExprId} {name : String} {reads : Bool}
    (h : ∀ s t, w s = .ok () t → t = s.use id name reads) :
    Tells π w [] [(π, .use id name reads)] := by
  intro s t hs ht
  obtain rfl := h s t ht
  have hread {x : String} {k d : Nat} (hk : k + d + 1 = π.openings.length) :
      ReadInAny [(π, .use id name reads)] x d ↔
        reads = true ∧ name = x ∧ distance? x s.scopes = some k := by
    rw [hs.distance?, ← Place.means_iff hk, ← @readIn_use π id]
    simp [ReadInAny]
  constructor
  case labels => rw [State.labels_use]; cases s.labels <;> simp
  case context => exact s.context_use id name reads
  case marks =>
    intro x k d st hk hst
    rw [State.status?_use, hst, behind]
    by_cases hr : ReadInAny [(π, .use id name reads)] x d
    · rw [if_pos ((hread hk).1 hr), if_pos hr]
      rfl
    · rw [if_neg fun hc => hr ((hread hk).2 hc), if_neg hr]
  case found =>
    intro x k d hk hr
    have hc := (hread hk).1 hr
    rw [State.status?_use, if_pos hc, Option.isSome_map]
    exact State.isSome_status? hc.2.2
  case news => intro _ _ m hm; cases hm
  case distinct => exact fun _ => List.nodup_nil
  case warnings =>
    have hclosing : closing π (.use id name reads) = [] := by
      rw [closing_eq]
      rfl
    simp [warningsIn, hclosing, State.warnings_use]

/-- The declaration of a name around what is walked through in the middle of it. -/
theorem declaring {name : Identifier} {warns : Bool} (hπ : π.Settled)
    (h : Tells (π.initializing name.name) w [] ps) :
    Tells π (do declare name warns; w; define name.name) [(name, warns)] ps := by
  intro s u hs hu
  obtain ⟨_, t, hdeclare, hu⟩ := EStateM.bind_eq_ok.1 hu
  obtain ⟨_, t', hw, hdefine⟩ := EStateM.bind_eq_ok.1 hu
  cases hdefine
  have hadds := adds_declare name warns
  have ht : At t (π.initializing name.name) :=
    ⟨by rw [hadds.names hdeclare, hs.names, Place.names_initializing hπ],
      (hadds.context hdeclare).trans hs.context⟩
  have hlen : (π.initializing name.name).openings.length = π.openings.length :=
    List.length_modifyHead ..
  have hnew : s.status? name.name 0 = none :=
    (reading_declare name warns).fresh hdeclare (List.mem_singleton_self _)
  have told := h t t' ht hw
  have hkept {x : String} {k : Nat} {st : Status} (hst : s.status? x k = some st) :
      ¬(name.name = x ∧ k = 0) ∧ t.status? x k = some st := by
    refine ⟨?_, ?_⟩
    · rintro ⟨rfl, rfl⟩
      rw [hnew] at hst
      cases hst
    · simpa using (reading_declare (x := x) name warns).status hdeclare k st hst
  constructor
  case labels =>
    rw [State.labels_define, told.labels, labels_declare hdeclare, List.modifyHead_modifyHead]
    cases s.labels <;> simp
  case context =>
    rw [State.context_modifyInnermost, told.context, hadds.context hdeclare]
  case marks =>
    intro x k d st hk hst
    obtain ⟨hne, hst⟩ := hkept hst
    rw [State.status?_define, if_neg hne]
    exact told.marks (hlen ▸ hk) hst
  case found =>
    intro x k d hk hread
    have := told.found (hlen ▸ hk) hread
    rw [State.status?_define]
    split
    · rwa [Option.isSome_map]
    · exact this
  case news =>
    intro d hd m hm
    obtain rfl := List.mem_singleton.1 hm
    have hscopes : s.scopes ≠ [] := by
      rintro hnil
      have := congrArg List.length hs.names
      simp [State.names, Place.names, hnil] at this
      omega
    have := told.marks (k := 0) (d := d) (by omega) (status?_declare hdeclare hscopes)
    refine ⟨hnew, ?_⟩
    rw [State.status?_define, if_pos ⟨rfl, rfl⟩, this, behind, behind]
    split <;> rfl
  case distinct => exact fun _ => List.nodup_singleton _
  case warnings =>
    have hkeep : t.warnings = s.warnings := by
      obtain ⟨-, rfl⟩ | ⟨_, _, -, -, rfl⟩ := declare_eq_ok hdeclare <;> rfl
    rw [State.warnings_modifyInnermost, told.warnings, hkeep]

theorem introduce (hπ : π.Settled) (name : Identifier) (warns : Bool) :
    Tells π (introduce name warns) [(name, warns)] [] :=
  (declaring hπ pure : Tells π (do declare name warns; Pure.pure (); define name.name) _ _)

/-- A walk in a scope of its own, of which nothing is seen behind it but the warnings. -/
theorem inScopeOf {scope : Scope} {site : Site} (h : Tells (π.enter site scope.names) w a ps)
    (hread : ∀ {x d}, d < π.openings.length → (ReadInAny qs x d ↔ ReadInAny ps x d))
    (hwarnings : ∀ {scope' : Scope}, scope'.labels = scope.labels ++ a.map Label.ofDeclared →
      (∀ m ∈ a, (scope'.find? m.1.name).map Variable.status =
        some (behind ps m.1.name π.openings.length .defined)) →
      (a.map fun m => m.1.name).Nodup → warningsIn qs = warningsIn ps ++ unused scope') :
    Tells π (Resolution.inScope scope w) [] qs := by
  intro s u hs hu
  obtain ⟨t, hw, rfl⟩ := inScope_eq_ok hu
  have hs' : At { s with scopes := scope :: s.scopes } (π.enter site scope.names) := by
    refine ⟨?_, hs.context⟩
    have := hs.names
    unfold State.names at this ⊢
    simp [Place.names, Place.enter, Opening.names, this]
  have told := h _ t hs' hw
  have hlen : (π.enter site scope.names).openings.length = π.openings.length + 1 := rfl
  have hlabels : t.labels = (scope.labels ++ a.map Label.ofDeclared) :: s.labels := told.labels
  obtain ⟨scope', scopes, hscopes⟩ : ∃ scope' scopes, t.scopes = scope' :: scopes := by
    cases hscopes : t.scopes with
    | nil => simp [State.labels, hscopes] at hlabels
    | cons scope' scopes => exact ⟨scope', scopes, rfl⟩
  have hlabels' : scope'.labels = scope.labels ++ a.map Label.ofDeclared := by
    rw [State.labels, hscopes, List.map_cons] at hlabels
    exact (List.cons.inj hlabels).1
  constructor
  case labels => rw [State.labels_closeScope, hlabels]; cases s.labels <;> simp
  case context => rw [State.context_closeScope, told.context]
  case marks =>
    intro x k d st hk hst
    rw [State.status?_closeScope, told.marks (k := k + 1) (d := d) (by omega) hst]
    exact congrArg some (behind_congr (hread (by omega)).symm st)
  case found =>
    intro x k d hk hr
    rw [State.status?_closeScope]
    exact told.found (d := d) (by omega) ((hread (by omega)).1 hr)
  case news => intro _ _ m hm; cases hm
  case distinct => exact fun _ => List.nodup_nil
  case warnings =>
    have hstatus : ∀ m ∈ a, (scope'.find? m.1.name).map Variable.status =
        some (behind ps m.1.name π.openings.length .defined) := by
      intro m hm
      have := (told.news (d := π.openings.length) (by omega) m hm).2
      simpa [State.status?, hscopes] using this
    rw [hwarnings hlabels' hstatus (told.distinct (List.cons_ne_nil _ _)), ← List.append_assoc,
      State.closeScope, hscopes]
    exact congrArg (· ++ unused scope') told.warnings

/-- A scope with nothing in it that is warned of. -/
theorem inScope {scope : Scope} (site : Site) (hscope : ∀ l ∈ scope.labels, l.2.2 = false)
    (h : Tells (π.enter site scope.names) w [] ps) :
    Tells π (Resolution.inScope scope w) [] ps := by
  refine h.inScopeOf (fun _ => Iff.rfl) fun {scope'} hlabels _ _ => ?_
  have hnone : scope'.entries.filterMap warning? = [] := by
    refine List.filterMap_eq_nil_iff.2 fun entry hentry => ?_
    have hlabel : Label.ofEntry entry ∈ scope.labels := by
      rw [List.map_nil, List.append_nil] at hlabels
      exact hlabels ▸ List.mem_map_of_mem hentry
    have hwarns : entry.2.warns = false := hscope _ hlabel
    simp [warning?, hwarns]
  rw [unused_eq_filterMap, hnone]
  simp

/-- A part that opens a scope of its own. -/
theorem opens {n : Node} {ρ : Place} (site : Site) (ho : n.opensScope = true)
    (hn : n.isUse = false) (hρ : ρ.openings.length = π.openings.length)
    (ha : (a.filter Prod.snd).map Prod.fst = n.locals)
    (h : Tells (π.enter site []) w a (n.inner ρ)) :
    Tells π (Resolution.inScope ∅ w) [] [(ρ, n)] := by
  have h : Tells (π.enter site (∅ : Scope).names) w a (n.inner ρ) := h
  refine h.inScopeOf (fun _ => readInAny_part hn) fun {scope'} hlabels hstatus hd => ?_
  have hunused := unused_eq (fun name => behind (n.inner ρ) name π.openings.length .defined)
    hlabels hd hstatus
  have hleft : leftUnread (ρ, n) = unused scope' := by
    rw [hunused, ha, leftUnread, unread]
    congr 2
    refine List.filter_congr fun name _ => ?_
    have hread : IsRead (ρ, n) name.name ↔ ReadInAny (n.inner ρ) name.name π.openings.length := by
      rw [IsRead, readIn_iff hn, hρ, ReadInAny]
    by_cases hr : ReadInAny (n.inner ρ) name.name π.openings.length
    · rw [behind, if_pos hr]
      simp [hread.2 hr]
    · rw [behind, if_neg hr]
      simp [mt hread.1 hr]
  rw [warningsIn_part, if_pos ho, hleft]

/-- A part that opens no scope of its own. -/
theorem part {n : Node} (ho : n.opensScope = false)
    (hn : n.isUse = false) (h : Tells π w a (n.inner π)) :
    Tells π w a [(π, n)] := by
  intro s t hs ht
  refine (h s t hs ht).congr (fun x d => readInAny_part hn) ?_
  rw [warningsIn_part, ho, if_neg Bool.false_ne_true, List.append_nil]

end Tells

/-! ## The walk -/

theorem names_warned (names : List Identifier) :
    (warned names).map (fun d => d.1.name) = names.map Identifier.name := List.map_map ..

theorem warned_append (a b : List Identifier) : warned (a ++ b) = warned a ++ warned b :=
  List.map_append ..

theorem filter_warned (names : List Identifier) :
    ((warned names).filter Prod.snd).map Prod.fst = names := by
  induction names with
  | nil => rfl
  | cons name names ih => exact congrArg (name :: ·) ih

theorem filter_parameters (params : List Identifier) :
    (params.map fun p => ((p, false) : Declared)).filter Prod.snd = [] := by
  induction params with
  | nil => rfl
  | cons p ps ih => exact ih

theorem names_after {π : Place} {s : Stmt} (hπ : π.Settled) (h : s.WellFormed) :
    (π.after s).names =
      π.names.modifyHead (· ++ (warned s.declarations).map fun d => d.1.name) := by
  rw [Place.names_after hπ h, names_warned, s.declared_eq]

/-- The branches of `if` and the bodies of loops declare nothing around them. -/
theorem declarations_eq_nil {s : Stmt} (h : s.WellFormed) (hd : s.isDeclaration = false) :
    s.declarations = [] := by
  have := s.declared_eq_nil h hd
  rw [s.declared_eq] at this
  exact List.map_eq_nil_iff.1 this

theorem tells_readName (π : Place) (id : ExprId) (name : Identifier) :
    Tells π (readName id name) [] [(π, .use id name.name true)] :=
  .use fun _ _ h => (readName_eq_ok h).2

theorem tells_references (π : Place) (rs : List Reference) :
    Tells π (rs.forM reference) [] (rs.map fun r => (π, .use r.id r.name.name true)) := by
  induction rs with
  | nil => exact .pure
  | cons r rs ih => exact (tells_readName π r.id r.name).seq ih

theorem tells_parameters {π : Place} (hπ : π.Settled) (params : List Identifier) :
    Tells π (params.forM (introduce · false)) (params.map fun p => (p, false)) [] := by
  induction params generalizing π with
  | nil => exact .pure
  | cons p ps ih =>
    exact (Tells.introduce hπ p false).bind (Place.names_declare hπ p.name) rfl
      (ih (Place.settled_declare p.name))

theorem quiet_receiverScope : ∀ l ∈ Scope.labels receiverScope, l.2.2 = false := by decide

theorem quiet_superclassScope : ∀ l ∈ Scope.labels superclassScope, l.2.2 = false := by decide

mutual

theorem tells_expr (π : Place) (e : Expr) (h : e.WellFormed) :
    Tells π (expr e) [] [(π, .expr e)] := by
  obtain ⟨id, span, node⟩ := e
  refine .part rfl rfl ?_
  cases node with
  | literal value => exact .pure
  | group e => exact tells_expr π e h
  | unary op e => exact tells_expr π e h
  | binary op left right => exact (tells_expr π left h.1).seq (tells_expr π right h.2)
  | logical op left right => exact (tells_expr π left h.1).seq (tells_expr π right h.2)
  | ternary condition yes no =>
    exact (tells_expr π condition h.1).seq ((tells_expr π yes h.2.1).seq (tells_expr π no h.2.2))
  | «variable» name => exact tells_readName π id name
  | assign name value => exact (tells_expr π value h.2).seq (.use fun _ _ h => by cases h; rfl)
  | call callee args =>
    have := (tells_expr π callee h.1).seq (tells_exprs π args h.2)
    rwa [← List.append_nil (_ ++ _)] at this
  | get object property => exact tells_expr π object h
  | set object property value => exact (tells_expr π value h.2).seq (tells_expr π object h.1)
  | array elements =>
    have := tells_exprs π elements h
    rwa [← List.append_nil (List.map _ _)] at this
  | index array position => exact (tells_expr π array h.1).seq (tells_expr π position h.2)
  | indexSet array position value =>
    exact (tells_expr π array h.1).seq
      ((tells_expr π position h.2.1).seq (tells_expr π value h.2.2))
  | lambda f => exact tells_function π .function f h
  | this => exact .use fun _ _ h => (receiver_eq_ok h).2.2.2
  | super method => exact .use fun _ _ h => (superclass_eq_ok h).2

theorem tells_exprs (π : Place) (es : List Expr) (h : Expr.AllWellFormed es) :
    Tells π (exprs es) [] (es.map fun e => (π, .expr e)) := by
  cases es with
  | nil => exact .pure
  | cons e es => exact (tells_expr π e h.1).seq (tells_exprs π es h.2)

theorem tells_function (π : Place) (kind : FunctionContext) (f : Function) (h : f.WellFormed) :
    Tells π (function kind f) [] [(π, .function kind f)] := by
  obtain ⟨name, params, body, isGetter, span⟩ := f
  have hsettled : (π.inFunction kind ⟨name, params, body, isGetter, span⟩).Settled := by
    simp [Place.Settled, Place.inFunction]
  refine .within (.opens (.call ⟨name, params, body, isGetter, span⟩) rfl rfl rfl ?_
    ((tells_parameters (Place.settled_enter _ _) params).bind
      (ρ := π.inFunction kind ⟨name, params, body, isGetter, span⟩) ?_ rfl
      (tells_stmts _ hsettled body h.2.2)))
  · rw [List.filter_append, filter_parameters, List.nil_append, filter_warned]
    rfl
  · simp [Place.names, Place.inFunction, Place.enter, Opening.names]

theorem tells_methods (π : Place) (fs : List Function) (h : Function.AllWellFormed fs) :
    Tells π (methods fs) []
      (fs.map fun f => (π.inReceiver f, .function (methodContext f) f)) := by
  cases fs with
  | nil => exact .pure
  | cons f fs =>
    exact (Tells.inScope (.receiver f) quiet_receiverScope
      (tells_function (π.inReceiver f) (methodContext f) f h.1)).seq (tells_methods π fs h.2)

theorem tells_staticMethods (π : Place) (fs : List Function) (h : Function.AllWellFormed fs) :
    Tells π (staticMethods fs) [] (fs.map fun f => (π, .function .staticMethod f)) := by
  cases fs with
  | nil => exact .pure
  | cons f fs =>
    exact (tells_function π .staticMethod f h.1).seq (tells_staticMethods π fs h.2)

theorem tells_stmts (π : Place) (hπ : π.Settled) (ss : List Stmt) (h : Stmt.AllWellFormed ss) :
    Tells π (stmts ss) (warned (ss.flatMap Stmt.declarations)) [(π, .stmts ss)] := by
  refine .part rfl rfl ?_
  cases ss with
  | nil => exact .pure
  | cons s ss =>
    rw [List.flatMap_cons, warned_append]
    exact (tells_stmt π hπ s h.1).bind (names_after hπ h.1) (Place.context_after π s)
      (tells_stmts _ (Place.settled_after hπ s) ss h.2)

/-- A statement adds its declarations to the innermost scope; the warnings on the way are those of
the scopes that close inside it. -/
theorem tells_stmt (π : Place) (hπ : π.Settled) (s : Stmt) (h : s.WellFormed) :
    Tells π (stmt s) (warned s.declarations) [(π, .stmt s)] := by
  obtain ⟨span, node⟩ := s
  cases node with
  | expression e => exact .part rfl rfl (tells_expr π e h)
  | print e => exact .part rfl rfl (tells_expr π e h)
  | varDecl name init =>
    obtain ⟨-, hi⟩ := Stmt.wellFormed_varDecl.1 h
    rw [stmt_varDecl]
    refine .part rfl rfl (.declaring hπ ?_)
    cases init with
    | none => exact .pure
    | some e => exact tells_expr _ e (hi e rfl)
  | block body =>
    exact .opens _ rfl rfl rfl (filter_warned _)
      (tells_stmts _ (Place.settled_enter _ _) body h)
  | ifElse condition yes no =>
    obtain ⟨hc, ⟨hyd, hy⟩, hn⟩ := Stmt.wellFormed_ifElse.1 h
    have hdeclares : Stmt.declarations ⟨span, .ifElse condition yes no⟩ = [] :=
      declarations_eq_nil h rfl
    have hyes := tells_stmt π hπ yes hy
    rw [declarations_eq_nil hy hyd] at hyes
    rw [hdeclares, stmt_ifElse]
    refine .part rfl rfl ((tells_expr π condition hc).seq (hyes.seq ?_))
    cases no with
    | none => exact .pure
    | some no =>
      obtain ⟨hnd, hn⟩ := hn no rfl
      have hno := tells_stmt π hπ no hn
      rwa [declarations_eq_nil hn hnd] at hno
  | «while» condition body =>
    obtain ⟨hc, hd, hb⟩ := h
    have hbody : Tells π (within .loop (stmt body)) [] [(π.inLoop, .stmt body)] := by
      have := tells_stmt π.inLoop hπ body hb
      rw [declarations_eq_nil hb hd] at this
      exact .within this
    have hdeclares : Stmt.declarations ⟨span, .while condition body⟩ = [] := by
      exact (declarations_eq_nil hb hd : body.declarations = [])
    rw [hdeclares]
    exact .part rfl rfl ((tells_expr π condition hc).seq hbody)
  | «for» init condition step body =>
    obtain ⟨hi, hc, hs, hd, hb⟩ := Stmt.wellFormed_for.1 h
    let ρ := π.enter (.stmt ⟨span, .for init condition step body⟩) []
    have hρ : ρ.Settled := Place.settled_enter _ _
    have hinit : Tells ρ (optional stmt init) (warned (init.toList.flatMap Stmt.declarations))
        (init.toList.map fun s => (ρ, .stmt s)) := by
      cases init with
      | none => exact .pure
      | some i =>
        have := tells_stmt ρ hρ i (hi i rfl).2
        rwa [← List.append_nil i.declarations] at this
    have hcondition : Tells (ρ.afterClause init) (optional expr condition) []
        (condition.toList.map fun e => (ρ.afterClause init, .expr e)) := by
      cases condition with
      | none => exact .pure
      | some e => exact tells_expr _ e (hc e rfl)
    have hstep : Tells (ρ.afterClause init) (optional expr step) []
        (step.toList.map fun e => (ρ.afterClause init, .expr e)) := by
      cases step with
      | none => exact .pure
      | some e => exact tells_expr _ e (hs e rfl)
    have hbody : Tells (ρ.afterClause init) (within .loop (stmt body))
        (warned body.declarations) [((ρ.afterClause init).inLoop, .stmt body)] :=
      .within (tells_stmt (ρ.afterClause init).inLoop (Place.settled_afterClause hρ init) body hb)
    have hnames : (ρ.afterClause init).names = ρ.names.modifyHead
        (· ++ (warned (init.toList.flatMap Stmt.declarations)).map fun d => d.1.name) := by
      rw [Place.names_afterClause hρ hi, names_warned]
      cases init with
      | none => rfl
      | some i => simp [i.declared_eq]
    rw [stmt_for]
    refine .opens _ rfl rfl rfl ?_ (hinit.bind hnames (Place.context_afterClause ρ init)
      (hcondition.seq (hstep.seq hbody)))
    rw [← warned_append, filter_warned]
    rfl
  | «break» => exact .part rfl rfl (.of_eq fun _ _ h => (loopControl_eq_ok h).2)
  | «continue» => exact .part rfl rfl (.of_eq fun _ _ h => (loopControl_eq_ok h).2)
  | funDecl f =>
    exact .part rfl rfl ((Tells.introduce hπ f.name true).bind (Place.names_declare hπ _) rfl
      (tells_function _ .function f h.2))
  | «return» value =>
    have hreturn : Tells π (returnAt span) [] [] := .of_eq fun _ _ h => (returnAt_eq_ok h).2
    have hvalueAt : Tells π (returnValueAt span) [] [] :=
      .of_eq fun _ _ h => (returnValueAt_eq_ok h).2
    have hv := Stmt.wellFormed_return.1 h
    rw [stmt_return]
    refine .part rfl rfl (hreturn.seq ?_)
    cases value with
    | none => exact .pure
    | some e => exact hvalueAt.seq (tells_expr π e (hv e rfl))
  | classDecl name superclass traits ms ss =>
    obtain ⟨-, -, -, hms, hss⟩ := h
    have hdeclare := Tells.introduce hπ name true
    cases superclass with
    | none =>
      have members := (tells_methods
        (π.inClass ⟨span, .classDecl name none traits ms ss⟩ name none) ms hms).seq
          (tells_staticMethods _ ss hss)
      exact .part rfl rfl (hdeclare.bind (Place.names_declare hπ _) rfl
        ((tells_references _ traits).seq (.within members)))
    | some r =>
      have members := (tells_methods
        (π.inClass ⟨span, .classDecl name (some r) traits ms ss⟩ name (some r)) ms hms).seq
          (tells_staticMethods _ ss hss)
      have check : Tells (π.declare name.name) (checkSuperclass name r.name) [] [] :=
        .of_eq fun _ _ h => (checkSuperclass_eq_ok h).2
      rw [stmt_subclass]
      exact .part rfl rfl (hdeclare.bind (Place.names_declare hπ _) rfl
        (check.seq ((tells_readName _ r.id r.name).seq
          ((tells_references _ traits).seq (.within (.inScope _ quiet_superclassScope members))))))
  | traitDecl name ms ss =>
    have members := (tells_methods (π.inTrait name) ms h.2.1).seq
      (tells_staticMethods _ ss h.2.2)
    exact .part rfl rfl ((Tells.introduce hπ name true).bind (Place.names_declare hπ _) rfl
      (.within members))

end

/-! ## Programs -/

/-- A program that is accepted is warned of what its scopes leave, in the order in which they
close. -/
theorem warnings_eq {body : List Stmt} {r : Resolution} (hb : Stmt.AllWellFormed body)
    (hr : ofProgram body = .ok r) :
    r.warnings = (closing .program (.stmts body)).flatMap leftUnread := by
  unfold ofProgram at hr
  split at hr
  · next t ht =>
    cases hr
    have := (tells_stmts .program (fun _ ho => by cases ho) body hb _ t at_program ht).warnings
    simpa [warningsIn] using this
  · cases hr

/-! ## Texts -/

/-- The warnings of a scope are those of the declarations in it that nothing reads, each once, by
source position. -/
structure Leaves (scope : Place × Node) (warnings : List Warning) : Prop where
  eq_unread : warnings = (unread scope).map Identifier.warning
  ordered : warnings.Pairwise fun a b => a.span.start.byte < b.span.start.byte
  /-- In whatever order they are come upon. -/
  sorted : ∀ found : List Warning, found.Perm warnings → found.mergeSort Warning.le = warnings

theorem Warning.le_trans (a b c : Warning) (h : Warning.le a b = true)
    (h' : Warning.le b c = true) : Warning.le a c = true :=
  decide_eq_true (Position.le_trans (of_decide_eq_true h) (of_decide_eq_true h'))

theorem Warning.le_total (a b : Warning) : (Warning.le a b || Warning.le b a) = true := by
  rw [Bool.or_eq_true]
  exact (Position.le_total a.span.start b.span.start).imp decide_eq_true decide_eq_true

theorem mergeSort_of_perm {found warnings : List Warning}
    (h : warnings.Pairwise fun a b => a.span.start.byte < b.span.start.byte)
    (hp : found.Perm warnings) : found.mergeSort Warning.le = warnings := by
  have hle : warnings.Pairwise fun a b => Warning.le a b = true :=
    h.imp fun hab => decide_eq_true (.inl hab)
  have hsorted := (List.mergeSort_perm found Warning.le).trans hp
  refine hsorted.eq_of_pairwise (fun a b ha hb hab hba => ?_)
    (List.pairwise_mergeSort Warning.le_trans Warning.le_total _) hle
  have hstart := Position.le_antisymm (of_decide_eq_true hab) (of_decide_eq_true hba)
  have hdistinct : (warnings.map fun w => w.span.start.byte).Nodup :=
    List.pairwise_map.2 (h.imp Nat.ne_of_lt)
  exact List.inj_on_of_nodup_map hdistinct (hsorted.mem_iff.1 ha) hb (congrArg _ hstart)

theorem leaves_leftUnread {scope : Place × Node}
    (h : scope.2.locals.Pairwise Identifier.Before) : Leaves scope (leftUnread scope) := by
  have hordered : ((unread scope).map Identifier.warning).Pairwise
      fun a b => a.span.start.byte < b.span.start.byte :=
    List.pairwise_map.2 (h.filter _)
  have heq : leftUnread scope = (unread scope).map Identifier.warning :=
    mergeSort_of_perm hordered (.refl _)
  rw [heq]
  exact ⟨rfl, hordered, fun _ => mergeSort_of_perm hordered⟩

/-- What a text is warned of that is read and accepted.  Its scopes are those of all blocks, loops
and functions in it, at whatever place.  In the order in which they close each leaves a warning for
every variable, function, class or trait declared in it that no use reads, and no other, in the
order of the text. -/
theorem warnings_exact {source : String} {firstId : ExprId} {tree : Tree} {r : Resolution}
    (hparse : Tree.parse source firstId = .ok tree)
    (hresolve : Resolution.ofProgram tree.body = .ok r) :
    (∀ scope, scope ∈ closing .program (.stmts tree.body) ↔
      Occurs tree.body scope.1 scope.2 ∧ scope.2.opensScope = true) ∧
    ∃ left, List.Forall₂ Leaves (closing .program (.stmts tree.body)) left ∧
      r.warnings = left.flatten := by
  refine ⟨fun scope => ?_, (closing .program (.stmts tree.body)).map leftUnread, ?_, ?_⟩
  · rw [mem_closing, occurs_iff]
  · have hordered := ordered_stmts (inOrder_of_parse hparse).inside .program
    rw [List.forall₂_map_right_iff, List.forall₂_same]
    exact fun scope hs => leaves_leftUnread (hordered scope hs)
  · rw [warnings_eq (wellFormed_of_parse hparse) hresolve, List.flatMap_def]

/-- Of a variable that nothing reads a program is warned. -/
theorem warnings_exact_unread :
    ∃ tree r, Tree.parse "{ var x = nil; }" 0 = .ok tree ∧
      Resolution.ofProgram tree.body = .ok r ∧ r.warnings = [⟨.onLine 6 7, "x"⟩] ∧
      ∃ left, List.Forall₂ Leaves (closing .program (.stmts tree.body)) left ∧
        left.flatten = [⟨.onLine 6 7, "x"⟩] := by
  let body : List Stmt := [⟨.onLine 0 16, .block [⟨.onLine 2 14,
    .varDecl ⟨"x", .onLine 6 7⟩ (some ⟨0, .onLine 10 13, .literal .nil⟩)⟩]⟩]
  have hparse : Tree.parse "{ var x = nil; }" 0 = .ok ⟨body, 1⟩ := by cbv
  have hresolve : Resolution.ofProgram body = .ok ⟨[], [⟨.onLine 6 7, "x"⟩]⟩ := by cbv
  obtain ⟨-, left, hleft, heq⟩ := warnings_exact hparse hresolve
  exact ⟨⟨body, 1⟩, _, hparse, hresolve, rfl, left, hleft, heq.symm⟩

end Lexical

end Lox

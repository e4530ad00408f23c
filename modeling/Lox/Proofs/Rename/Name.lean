import Lox.Proofs.Alike.Content
import Lox.Proofs.Rename.Tree

/-!
# Names in renamed programs

At each place it is known of the open scopes which of them are the local's (`Renaming.flags`).  There
the local's name stands for its other name, and elsewhere each name for itself; so tables that differ
by a renaming answer alike to names that do:

    Table.Renamed ρ own R t t' → ρ.Names own name name' →
      Option.Rel R (t.find? name) (t'.find? name')                          (Table.Renamed.find?)
-/

namespace Lox

/-! ## Names -/

namespace Renaming

variable {ρ : Renaming} {own : Bool}

@[simp] theorem rename_false (name : String) : ρ.rename false name = name := by simp [rename]

theorem rename_of_ne {name : String} (h : name ≠ ρ.name) : ρ.rename own name = name :=
  if_neg fun h' => h h'.2

/-- The names stand for each other in a scope; one that the local belongs to does not have its other
name. -/
structure Names (ρ : Renaming) (own : Bool) (name name' : String) : Prop where
  eq : name' = ρ.rename own name
  ne_fresh : own = true → name ≠ ρ.fresh

theorem Names.other (name : String) : ρ.Names false name name :=
  ⟨(rename_false name).symm, nofun⟩

theorem Names.eq_iff {a b a' b' : String} (ha : ρ.Names own a a') (hb : ρ.Names own b b') :
    a = b ↔ a' = b' := by
  obtain ⟨rfl, ha⟩ := ha
  obtain ⟨rfl, hb⟩ := hb
  cases own with
  | false => simp
  | true =>
    have ha := ha rfl
    have hb := hb rfl
    unfold rename
    split <;> split <;> grind

/-! ## Spans -/

@[simp] theorem span_use (scopes : List Bool) (id : ExprId) (name : Identifier) :
    (ρ.use scopes id name).span = name.span := rfl

@[simp] theorem span_binder (name : Identifier) : (ρ.binder name).span = name.span := by
  unfold binder
  split <;> rfl

@[simp] theorem span_declared (scopes : List Bool) (name : Identifier) :
    (ρ.declared scopes name).span = name.span := by
  unfold declared
  split
  · rfl
  · exact span_binder name

/-! ## Places -/

/-- Of each open scope, the innermost first, whether the local belongs to it. -/
def flags (ρ : Renaming) (π : Lexical.Place) : List Bool :=
  π.openings.map fun o => ρ.owns o.site.locals

section Flags

open Lexical

variable {π : Lexical.Place}

theorem flags_modifyInnermost {f : Opening → Opening} (hf : ∀ o, (f o).site = o.site) :
    ρ.flags (π.modifyInnermost f) = ρ.flags π := by
  obtain ⟨openings, context⟩ := π
  cases openings with
  | nil => rfl
  | cons o os => simp [flags, Place.modifyInnermost, hf]

@[simp] theorem flags_program : ρ.flags .program = [] := rfl

@[simp] theorem flags_declare (name : String) : ρ.flags (π.declare name) = ρ.flags π :=
  flags_modifyInnermost fun _ => rfl

@[simp] theorem flags_initializing (name : String) : ρ.flags (π.initializing name) = ρ.flags π :=
  flags_modifyInnermost fun _ => rfl

@[simp] theorem flags_enter (site : Site) (names : List String) :
    ρ.flags (π.enter site names) = ρ.owns site.locals :: ρ.flags π := rfl

@[simp] theorem flags_after (s : Stmt) : ρ.flags (π.after s) = ρ.flags π := by
  unfold Place.after
  split <;> first | exact flags_declare _ | rfl

@[simp] theorem flags_afterClause (init : Option Stmt) :
    ρ.flags (π.afterClause init) = ρ.flags π := by
  cases init with
  | none => rfl
  | some s => exact flags_after s

@[simp] theorem flags_inLoop : ρ.flags π.inLoop = ρ.flags π := rfl

@[simp] theorem flags_inFunction (kind : Resolution.FunctionContext) (f : Function) :
    ρ.flags (π.inFunction kind f) = ρ.owns (Site.call f).locals :: ρ.flags π := rfl

@[simp] theorem flags_inReceiver (f : Function) :
    ρ.flags (π.inReceiver f) = false :: ρ.flags π := rfl

@[simp] theorem flags_inTrait (name : Identifier) : ρ.flags (π.inTrait name) = ρ.flags π :=
  flags_declare name.name

@[simp] theorem flags_inClass_none (s : Stmt) (name : Identifier) :
    ρ.flags (π.inClass s name none) = ρ.flags π := flags_declare name.name

@[simp] theorem flags_inClass_some (s : Stmt) (name : Identifier) (r : Reference) :
    ρ.flags (π.inClass s name (some r)) = ρ.owns (Site.stmt s).locals :: ρ.flags π :=
  congrArg _ (flags_declare name.name)

end Flags

end Renaming

/-! ## Tables -/

variable {α : Type} {ρ : Renaming} {own : Bool} {R S : α → α → Prop} {t t' : Table α}

/-- Tables of names that stand for each other, in one order, with related values. -/
def Table.Renamed (ρ : Renaming) (own : Bool) (R : α → α → Prop) (t t' : Table α) : Prop :=
  List.Forall₂ (fun a a' => ρ.Names own a.1 a'.1 ∧ R a.2 a'.2) t.entries t'.entries

namespace Table.Renamed

theorem empty : Table.Renamed ρ own R ∅ ∅ := .nil

theorem find? (h : Table.Renamed ρ own R t t') {name name' : String}
    (hn : ρ.Names own name name') : Option.Rel R (t.find? name) (t'.find? name') := by
  obtain ⟨entries⟩ := t
  obtain ⟨entries'⟩ := t'
  change List.Forall₂ _ entries entries' at h
  show Option.Rel R (entries.lookup name) (entries'.lookup name')
  induction h with
  | nil => exact .none
  | @cons a a' _ _ ha _ ih =>
    obtain ⟨key, v⟩ := a
    obtain ⟨key', v'⟩ := a'
    obtain ⟨hkey, hv⟩ := ha
    have hiff := hn.eq_iff hkey
    by_cases hk : name = key
    · rw [List.lookup_cons, List.lookup_cons, hk, hiff.1 hk, beq_self_eq_true, beq_self_eq_true]
      exact .some hv
    · rw [List.lookup_cons, List.lookup_cons, beq_false_of_ne hk,
        beq_false_of_ne fun hk' => hk (hiff.2 hk')]
      exact ih

theorem contains_eq (h : Table.Renamed ρ own R t t') {name name' : String}
    (hn : ρ.Names own name name') : t.contains name = t'.contains name' :=
  rel_isSome (h.find? hn)

theorem insert (h : Table.Renamed ρ own R t t') {name name' : String}
    (hn : ρ.Names own name name') {v v' : α} (hv : R v v') :
    Table.Renamed ρ own R (t.insert name v) (t'.insert name' v') := by
  obtain ⟨entries⟩ := t
  obtain ⟨entries'⟩ := t'
  change List.Forall₂ _ entries entries' at h
  show List.Forall₂ _ (insertEntry name v entries) (insertEntry name' v' entries')
  induction h with
  | nil => exact .cons ⟨hn, hv⟩ .nil
  | @cons a a' _ _ ha hrest ih =>
    obtain ⟨key, w⟩ := a
    obtain ⟨key', w'⟩ := a'
    obtain ⟨hkey, hw⟩ := ha
    have hiff := hn.eq_iff hkey
    by_cases hk : name = key
    · rw [insertEntry, insertEntry, if_pos hk, if_pos (hiff.1 hk)]
      exact .cons ⟨hkey, hv⟩ hrest
    · rw [insertEntry, insertEntry, if_neg hk, if_neg fun hk' => hk (hiff.2 hk')]
      exact .cons ⟨hkey, hw⟩ ih

theorem modify (h : Table.Renamed ρ own R t t') {name name' : String}
    (hn : ρ.Names own name name') {f f' : α → α} (hf : ∀ v v', R v v' → R (f v) (f' v')) :
    Table.Renamed ρ own R (t.modify name f) (t'.modify name' f') := by
  have hv := h.find? hn
  unfold Table.modify
  generalize t.find? name = o at hv
  generalize t'.find? name' = o' at hv
  cases hv with
  | none => exact h
  | some hv => exact h.insert hn (hf _ _ hv)

/-- Names bound one after the other to related values. -/
theorem insertZip (h : Table.Renamed ρ own R t t') {names names' : List String}
    (hn : List.Forall₂ (ρ.Names own) names names') {xs xs' : List α} (hx : List.Forall₂ R xs xs') :
    Table.Renamed ρ own R (t.insertAll (names.zip xs)) (t'.insertAll (names'.zip xs')) := by
  induction hn generalizing t t' xs xs' with
  | nil => exact h
  | cons hn _ ih =>
    cases hx with
    | nil => exact h
    | cons hx hxs => exact ih (h.insert hn hx) hxs

theorem single {name name' : String} (hn : ρ.Names own name name') {v v' : α} (hv : R v v') :
    Table.Renamed ρ own R (.ofPairs [(name, v)]) (.ofPairs [(name', v')]) :=
  empty.insert hn hv

end Table.Renamed

end Lox

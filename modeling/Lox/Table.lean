/-!
# Tables

A table maps names to values.  Inserting under a name that is there replaces its value, so

    (t.insert a x).find? b = if a = b then some x else t.find? b         (find?_insert)

and only a new name makes the table longer:

    t.contains a = false → (t.insert a x).names = t.names ++ [a]         (names_insert)
-/

namespace Lox

/-- A finite map from names, its entries in the order of their first insertion. -/
structure Table (α : Type) where
  entries : List (String × α)
deriving Repr

namespace Table

variable {α : Type}

def empty : Table α := ⟨[]⟩

instance : EmptyCollection (Table α) := ⟨empty⟩

/-- The value of the first entry under `name`. -/
def find? (t : Table α) (name : String) : Option α := t.entries.lookup name

def contains (t : Table α) (name : String) : Bool := (t.find? name).isSome

/-- The names of the entries, in the order of their first insertion. -/
def names (t : Table α) : List String := t.entries.map Prod.fst

/-- The entries with `name` mapped to `value`. -/
def insertEntry (name : String) (value : α) : List (String × α) → List (String × α)
  | [] => [(name, value)]
  | (key, old) :: rest =>
    if name = key then (key, value) :: rest else (key, old) :: insertEntry name value rest

/-- Maps `name` to `value`. -/
def insert (t : Table α) (name : String) (value : α) : Table α :=
  ⟨insertEntry name value t.entries⟩

/-- Changes the value of `name` if it has one. -/
def modify (t : Table α) (name : String) (f : α → α) : Table α :=
  match t.find? name with
  | some value => t.insert name (f value)
  | none => t

/-- Maps the names of `pairs` to their values, the last pair of a name counting. -/
def insertAll (t : Table α) (pairs : List (String × α)) : Table α :=
  pairs.foldl (fun t (name, value) => t.insert name value) t

def ofPairs (pairs : List (String × α)) : Table α := empty.insertAll pairs

/-! ## Lemmas -/

@[simp] theorem find?_empty (name : String) : (∅ : Table α).find? name = none := rfl

theorem lookup_insertEntry (a b : String) (x : α) (entries : List (String × α)) :
    (insertEntry a x entries).lookup b = if a = b then some x else entries.lookup b := by
  induction entries with
  | nil =>
    by_cases h : a = b
    · subst h; simp [insertEntry]
    · simp [insertEntry, List.lookup_cons, h, beq_false_of_ne (Ne.symm h)]
  | cons entry rest ih =>
    obtain ⟨key, old⟩ := entry
    by_cases hk : a = key
    · by_cases h : a = b
      · subst hk h; simp [insertEntry]
      · subst hk; simp [insertEntry, List.lookup_cons, h, beq_false_of_ne (Ne.symm h)]
    · by_cases hb : b = key
      · subst hb; simp [insertEntry, hk]
      · simp [insertEntry, hk, List.lookup_cons, beq_false_of_ne hb, ih]

@[simp] theorem find?_insert (t : Table α) (a b : String) (x : α) :
    (t.insert a x).find? b = if a = b then some x else t.find? b :=
  lookup_insertEntry a b x t.entries

theorem find?_modify (t : Table α) (a b : String) (f : α → α) :
    (t.modify a f).find? b = if a = b then (t.find? b).map f else t.find? b := by
  unfold modify
  split
  · next value h => by_cases hb : a = b <;> simp_all
  · next h => by_cases hb : a = b <;> simp_all

/-! ### Names -/

@[simp] theorem names_empty : (∅ : Table α).names = [] := rfl

theorem contains_eq (t : Table α) (name : String) : t.contains name = decide (name ∈ t.names) := by
  obtain ⟨entries⟩ := t
  unfold contains find? names
  induction entries with
  | nil => rfl
  | cons entry rest ih =>
    obtain ⟨key, value⟩ := entry
    by_cases h : name = key
    · subst h; simp
    · simp_all [List.lookup_cons, beq_false_of_ne h]

theorem insertEntry_of_notMem {name : String} {entries : List (String × α)}
    (h : name ∉ entries.map Prod.fst) (value : α) :
    insertEntry name value entries = entries ++ [(name, value)] := by
  induction entries with
  | nil => rfl
  | cons entry rest ih =>
    obtain ⟨key, old⟩ := entry
    obtain ⟨hk, h⟩ := List.ne_and_not_mem_of_not_mem_cons h
    rw [insertEntry, if_neg hk, ih h, List.cons_append]

theorem entries_insert {t : Table α} {name : String} (h : t.contains name = false) (value : α) :
    (t.insert name value).entries = t.entries ++ [(name, value)] := by
  rw [contains_eq] at h
  exact insertEntry_of_notMem (of_decide_eq_false h) value

theorem names_insert {t : Table α} {name : String} (h : t.contains name = false) (value : α) :
    (t.insert name value).names = t.names ++ [name] := by
  rw [names, entries_insert h, List.map_append]
  rfl

theorem names_insert_of_contains {t : Table α} {name : String} (h : t.contains name = true)
    (value : α) : (t.insert name value).names = t.names := by
  obtain ⟨entries⟩ := t
  rw [contains_eq] at h
  unfold insert names at *
  induction entries with
  | nil => simp at h
  | cons entry rest ih =>
    obtain ⟨key, old⟩ := entry
    by_cases hk : name = key
    · simp [insertEntry, hk]
    · simp only [List.map_cons, List.mem_cons, hk, false_or] at h
      simp [insertEntry, hk, ih (by simpa using h)]

@[simp] theorem names_modify (t : Table α) (name : String) (f : α → α) :
    (t.modify name f).names = t.names := by
  unfold modify
  split
  · next value h => exact names_insert_of_contains (by simp [contains, h]) _
  · rfl

/-! ### Entries -/

section Lookup

variable {κ : Type} [BEq κ] [LawfulBEq κ] {pairs : List (κ × α)} {key : κ} {a : α}

theorem mem_of_lookup (h : pairs.lookup key = some a) : (key, a) ∈ pairs := by
  induction pairs with
  | nil => cases h
  | cons pair pairs ih =>
    obtain ⟨key', b⟩ := pair
    rw [List.lookup_cons] at h
    split at h
    · next hkey =>
      obtain rfl := eq_of_beq hkey
      cases h
      exact List.mem_cons_self
    · exact List.mem_cons_of_mem _ (ih h)

theorem lookup_of_mem (hd : (pairs.map Prod.fst).Nodup) (h : (key, a) ∈ pairs) :
    pairs.lookup key = some a := by
  induction pairs with
  | nil => cases h
  | cons pair pairs ih =>
    obtain ⟨key', b⟩ := pair
    obtain ⟨hkey, hd⟩ := List.nodup_cons.1 hd
    rcases List.mem_cons.1 h with heq | h
    · cases heq
      rw [List.lookup_cons, beq_self_eq_true]
    · have hne : key ≠ key' := fun heq => hkey (List.mem_map.2 ⟨_, h, heq⟩)
      rw [List.lookup_cons, beq_false_of_ne hne]
      exact ih hd h

end Lookup

theorem find?_of_mem {t : Table α} (h : t.names.Nodup) {name : String} {a : α}
    (hm : (name, a) ∈ t.entries) : t.find? name = some a := lookup_of_mem h hm

theorem map_insertEntry {β : Type} {g : String × α → β} {name : String} {old new : α}
    (hg : g (name, new) = g (name, old)) {entries : List (String × α)}
    (h : entries.lookup name = some old) :
    (insertEntry name new entries).map g = entries.map g := by
  induction entries with
  | nil => cases h
  | cons entry rest ih =>
    obtain ⟨key, value⟩ := entry
    rw [List.lookup_cons] at h
    by_cases hk : name = key
    · subst hk
      rw [beq_self_eq_true] at h
      cases h
      simp [insertEntry, hg]
    · rw [beq_false_of_ne hk] at h
      simp [insertEntry, hk, ih h]

/-- What a change leaves alone in a value it leaves alone in the entries. -/
theorem map_entries_modify {β : Type} {g : String × α → β} {name : String} {f : α → α}
    (hg : ∀ a, g (name, f a) = g (name, a)) (t : Table α) :
    (t.modify name f).entries.map g = t.entries.map g := by
  unfold modify
  split
  · next a h => exact map_insertEntry (hg a) h
  · rfl

/-! ### Many entries -/

theorem find?_insertAll (t : Table α) (pairs : List (String × α)) (name : String) :
    (t.insertAll pairs).find? name = (pairs.reverse.lookup name).or (t.find? name) := by
  induction pairs generalizing t with
  | nil => rfl
  | cons pair pairs ih =>
    obtain ⟨key, value⟩ := pair
    show ((t.insert key value).insertAll pairs).find? name = _
    rw [ih, find?_insert, List.reverse_cons, List.lookup_append]
    by_cases h : key = name
    · subst h; simp
    · simp [h, List.lookup_cons, beq_false_of_ne (Ne.symm h)]

theorem isSome_find?_ofPairs {pairs : List (String × α)} {name : String} :
    ((ofPairs pairs).find? name).isSome ↔ name ∈ pairs.map Prod.fst := by
  show ((insertAll ∅ pairs).find? name).isSome ↔ _
  rw [find?_insertAll, find?_empty, Option.or_none, List.lookup_isSome_iff]
  simp

end Table

end Lox

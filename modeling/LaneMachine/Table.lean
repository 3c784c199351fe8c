import LaneMachine.Identifier
set_option autoImplicit false

/-!
# Tables

A finite map keyed by identifiers, kept as its entries in the order in which keys were
first inserted.  A table is read through `get?` alone; the three lemmas at the end say
what each operation does to that view.
-/

namespace LaneMachine

/-- A finite map from identifiers to values. -/
structure Table (α : Type) where
  /-- the entries, at most one for each key that `insert` was given -/
  entries : List (Identifier × α)
  deriving DecidableEq, Repr, Inhabited

namespace Table

variable {α : Type}

/-- The table without entries. -/
def empty : Table α := ⟨[]⟩

/-- Whether the table has no entry. -/
def isEmpty (table : Table α) : Bool := table.entries.isEmpty

/-- The value of the first entry for `key`. -/
def find (key : Identifier) : List (Identifier × α) → Option α
  | [] => none
  | (k, v) :: rest => if k = key then some v else find key rest

/-- The entries with the value for `key` replaced, or added at the end. -/
def put (key : Identifier) (value : α) : List (Identifier × α) → List (Identifier × α)
  | [] => [(key, value)]
  | (k, v) :: rest => if k = key then (key, value) :: rest else (k, v) :: put key value rest

/-- The value at `key`. -/
def get? (table : Table α) (key : Identifier) : Option α :=
  find key table.entries

/-- The table with `value` at `key`. -/
def insert (table : Table α) (key : Identifier) (value : α) : Table α :=
  ⟨put key value table.entries⟩

/-- The table without `key`. -/
def erase (table : Table α) (key : Identifier) : Table α :=
  ⟨table.entries.filter fun entry => entry.1 != key⟩

@[simp]
theorem get?_empty (key : Identifier) : (empty : Table α).get? key = none := rfl

theorem find_put (key other : Identifier) (value : α) (entries : List (Identifier × α)) :
    find other (put key value entries) = if other = key then some value else find other entries := by
  induction entries with
  | nil =>
    simp only [put, find, eq_comm]
  | cons entry rest ih =>
    obtain ⟨k, v⟩ := entry
    by_cases hk : k = key
    · subst hk
      by_cases ho : k = other
      · simp [put, find, ho]
      · simp [put, find, ho, Ne.symm ho]
    · by_cases ho : k = other
      · subst ho
        simp [put, find, hk]
      · simp [put, find, hk, ho, ih]

/-- Inserting changes the value at one key. -/
@[simp]
theorem get?_insert (table : Table α) (key other : Identifier) (value : α) :
    (table.insert key value).get? other = if other = key then some value else table.get? other :=
  find_put key other value table.entries

theorem find_filter (key other : Identifier) (entries : List (Identifier × α)) :
    find other (entries.filter fun entry => entry.1 != key) =
      if other = key then none else find other entries := by
  induction entries with
  | nil => simp [find]
  | cons entry rest ih =>
    obtain ⟨k, v⟩ := entry
    by_cases hk : k = key
    · subst hk
      by_cases ho : k = other
      · subst ho
        simpa using ih
      · simp [find, ih, ho, Ne.symm ho]
    · by_cases ho : k = other
      · subst ho
        simp [find, hk]
      · simp [find, ih, hk, ho]

/-- Erasing removes one key. -/
@[simp]
theorem get?_erase (table : Table α) (key other : Identifier) :
    (table.erase key).get? other = if other = key then none else table.get? other :=
  find_filter key other table.entries

theorem isEmpty_insert (table : Table α) (key : Identifier) (value : α) :
    (table.insert key value).isEmpty = false := by
  obtain ⟨entries⟩ := table
  cases entries with
  | nil => rfl
  | cons entry rest =>
    obtain ⟨k, v⟩ := entry
    by_cases hk : k = key <;> simp [insert, isEmpty, put, hk]

/-- A table has no entry exactly if every key is absent. -/
theorem isEmpty_iff (table : Table α) : table.isEmpty = true ↔ ∀ key, table.get? key = none := by
  obtain ⟨entries⟩ := table
  cases entries with
  | nil => simp [isEmpty, get?, find]
  | cons entry rest =>
    obtain ⟨k, v⟩ := entry
    simp only [isEmpty, List.isEmpty_cons, Bool.false_eq_true, get?, false_iff]
    intro h
    have := h k
    simp [find] at this

end Table

end LaneMachine

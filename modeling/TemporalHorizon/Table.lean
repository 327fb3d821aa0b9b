/-!
# Finite tables

A table remembers a value for some keys.  Newer entries stand in front and hide
older ones of the same key, so the tables of this library, which are written
once for each key, never hide anything.
-/

namespace TemporalHorizon

/-- A finite map from keys to values. -/
structure Table (κ α : Type) where
  entries : List (κ × α) := []
  deriving DecidableEq

namespace Table

variable {κ α : Type}

/-- The table without entries. -/
def empty : Table κ α := ⟨[]⟩

/-- The number of entries. -/
def size (table : Table κ α) : Nat := table.entries.length

/-- Enter a value for a key. -/
def insert (table : Table κ α) (key : κ) (value : α) : Table κ α :=
  ⟨(key, value) :: table.entries⟩

@[simp] theorem size_insert (table : Table κ α) (key : κ) (value : α) :
    (table.insert key value).size = table.size + 1 := rfl

variable [DecidableEq κ]

/-- The value of a key. -/
def get? (table : Table κ α) (key : κ) : Option α :=
  (table.entries.find? fun entry => entry.1 = key).map Prod.snd

/-- Whether a key has a value. -/
def contains (table : Table κ α) (key : κ) : Bool := (table.get? key).isSome

/-- Forget a key. -/
def erase (table : Table κ α) (key : κ) : Table κ α :=
  ⟨table.entries.filter fun entry => entry.1 ≠ key⟩

@[simp] theorem get?_empty (key : κ) : (empty : Table κ α).get? key = none := rfl

theorem get?_insert (table : Table κ α) (key other : κ) (value : α) :
    (table.insert key value).get? other = if key = other then some value else table.get? other := by
  unfold get? insert
  by_cases h : key = other <;> simp [h]

@[simp] theorem get?_insert_self (table : Table κ α) (key : κ) (value : α) :
    (table.insert key value).get? key = some value := by
  simp [get?_insert]

theorem mem_entries_of_get? {table : Table κ α} {key : κ} {value : α}
    (h : table.get? key = some value) : (key, value) ∈ table.entries := by
  obtain ⟨entry, hfind, rfl⟩ := Option.map_eq_some_iff.1 h
  have hkey : entry.1 = key := by simpa using List.find?_some hfind
  exact hkey ▸ List.mem_of_find?_eq_some hfind

theorem get?_erase (table : Table κ α) (key other : κ) :
    (table.erase key).get? other = if key = other then none else table.get? other := by
  unfold get? erase
  by_cases h : key = other
  · subst h
    simp
  · simp only [h, if_false, List.find?_filter]
    congr 2
    funext entry
    by_cases h' : entry.1 = other
    · simp [h', Ne.symm h]
    · simp [h']

end Table
end TemporalHorizon

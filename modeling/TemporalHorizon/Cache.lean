import TemporalHorizon.Failure
import TemporalHorizon.Table

/-!
# Representatives of formulas at steps

The cache remembers the literal that represents a formula at a step.  An entry is
written once and never changed.  A host literal can be bound to a key ahead of
time; the binding is then consumed by the first entry of that key, which takes
the host literal instead of any other.

Entries and bindings are filed under the packed number of the key.  The cache
also counts how many lookups found an entry and how many did not.
-/

namespace TemporalHorizon

/-- Representatives, bindings and lookup counts. -/
structure Cache where
  entries : Table Nat Lit := .empty
  bindings : Table Nat Lit := .empty
  hits : Nat := 0
  misses : Nat := 0
  deriving DecidableEq

namespace Cache

/-- The cache without entries and bindings. -/
def empty : Cache := {}

/-- The number of entries. -/
def size (cache : Cache) : Nat := cache.entries.size

/-- The entry of a key. -/
def entry? [Arithmetic] (cache : Cache) (key : Key) : Option Lit := cache.entries.get? key.pack

/-- The host literal waiting for the first entry of a key. -/
def binding? [Arithmetic] (cache : Cache) (key : Key) : Option Lit := cache.bindings.get? key.pack

/-- Look a key up and count the outcome. -/
def lookup [Arithmetic] (cache : Cache) (key : Key) : Option Lit × Cache :=
  match cache.entry? key with
  | some lit => (some lit, { cache with hits := cache.hits + 1 })
  | none => (none, { cache with misses := cache.misses + 1 })

/-- Write the entry of a key and consume its binding. -/
def write [Arithmetic] (cache : Cache) (key : Key) (lit : Lit) : Cache :=
  { cache with
    entries := cache.entries.insert key.pack lit
    bindings := cache.bindings.erase key.pack }

/-- The literal of a key, created on the first request: the bound host literal if
there is one, else a fresh atom.  The flag says whether it was created now. -/
def getOrCreate [Arithmetic] (cache : Cache) (key : Key) (supply : Supply) :
    (Lit × Bool) × Cache × Supply :=
  match cache.lookup key with
  | (some lit, cache) => ((lit, false), cache, supply)
  | (none, cache) =>
    match cache.binding? key with
    | some host => ((host, true), cache.write key host, supply)
    | none =>
      let (lit, supply) := supply.fresh
      ((lit, true), cache.write key lit, supply)

/-- Let a key be represented by an existing literal.  If a host literal is bound
to the key, that one becomes the representative, and the flag says that it still
has to be tied to the given literal.  A key with an entry is a fault. -/
def share [Arithmetic] (cache : Cache) (key : Key) (lit : Lit) :
    Except Fault ((Lit × Bool) × Cache) :=
  if (cache.entry? key).isSome then .error (.entryTwice key)
  else
    match cache.binding? key with
    | some host => .ok ((host, true), cache.write key host)
    | none => .ok ((lit, false), cache.write key lit)

/-- Bind a host literal to a key.  Nothing if the key already has an entry or a
binding. -/
def bind? [Arithmetic] (cache : Cache) (key : Key) (host : Lit) : Option Cache :=
  if (cache.entry? key).isSome || (cache.binding? key).isSome then none
  else some { cache with bindings := cache.bindings.insert key.pack host }

theorem entry?_write_self [Arithmetic] (cache : Cache) (key : Key) (lit : Lit) :
    Cache.entry? (cache.write key lit) key = some lit :=
  Table.get?_insert_self _ _ _

/-- The first entry of a key leaves all other entries as they are. -/
theorem entry?_write_of_some [Arithmetic] {cache : Cache} {key other : Key} {l : Lit}
    (hnone : cache.entry? key = none) (hl : cache.entry? other = some l) (lit : Lit) :
    Cache.entry? (cache.write key lit) other = some l := by
  have hne : key.pack ≠ other.pack := fun heq => by
    rw [Cache.entry?, heq] at hnone
    exact absurd (hl.symm.trans hnone) (Option.some_ne_none l)
  rw [Cache.entry?, write, Table.get?_insert, if_neg hne]
  exact hl

end Cache
end TemporalHorizon

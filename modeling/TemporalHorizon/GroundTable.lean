import TemporalHorizon.Failure
import TemporalHorizon.Table

/-!
# Ground atoms

Every atom of the theory has, at each step where it is mentioned, an atom of the
emitted program.  The ground table holds this correspondence in both directions.
-/

namespace TemporalHorizon

/-- Literals of ground atoms, and the ground atom that each program atom stands
for. -/
structure GroundTable where
  literals : Table Key Lit := .empty
  owners : Table Nat Key := .empty
  deriving DecidableEq

namespace GroundTable

/-- The table without ground atoms. -/
def empty : GroundTable := {}

/-- The number of ground atoms. -/
def size (table : GroundTable) : Nat := table.literals.size

/-- The literal of a ground atom. -/
def get? (table : GroundTable) (key : Key) : Option Lit := table.literals.get? key

/-- The ground atom that a program atom stands for. -/
def owner? (table : GroundTable) (atom : Nat) : Option Key := table.owners.get? atom

/-- Enter a ground atom.  Its literal must be positive, and it must be new. -/
def insert (table : GroundTable) (key : Key) (lit : Lit) : Except Fault GroundTable :=
  if lit.negated then .error .negativeGround
  else if (table.get? key).isSome then .error (.groundTwice key)
  else .ok
    { literals := table.literals.insert key lit
      owners := table.owners.insert lit.atom key }

/-- All ground atoms with their literals, the newest first. -/
def toList (table : GroundTable) : List (Key × Lit) := table.literals.entries

/-- Ground atoms by formula, then by step, then by literal. -/
def byKey (a b : Key × Lit) : Ordering :=
  ((Ordered.byNat a.1.formula.index b.1.formula.index).then
    (Ordered.byNat a.1.step b.1.step)).then (Lit.order a.2 b.2)

end GroundTable
end TemporalHorizon

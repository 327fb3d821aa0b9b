import TemporalHorizon.Failure
import TemporalHorizon.Rule

/-!
# Programs

A program is a list of rules together with a set of free atoms, which may be true
or false without any rule deriving them.  Only atoms in a head and free atoms can
be true in a stable model; they are the candidates.
-/

namespace TemporalHorizon

/-- Rules and free atoms. -/
structure Program where
  rules : List Rule := []
  /-- The free atoms, increasing. -/
  free : List Nat := []
  deriving DecidableEq

namespace Program

/-- The program without rules and free atoms. -/
def empty : Program := {}

/-- Add rules at the end. -/
def addRules (program : Program) (rules : List Rule) : Program :=
  { program with rules := program.rules ++ rules }

/-- Let an atom be free. -/
def addFree (program : Program) (atom : Nat) : Program :=
  { program with free := Ordered.insert Ordered.byNat atom program.free }

/-- Make a free atom an ordinary one. -/
def release (program : Program) (atom : Nat) : Program :=
  { program with free := program.free.filter fun other => other ≠ atom }

/-- All atoms in heads, rule by rule. -/
def heads (rules : List Rule) : List Nat := rules.flatMap Rule.head

/-- The atoms that may be true in a stable model, increasing. -/
def candidates (program : Program) : List Nat :=
  Ordered.ofList Ordered.byNat (program.free ++ heads program.rules)

end Program

/-- A set of atoms, increasing. -/
structure Model where
  atoms : List Nat
  deriving DecidableEq

namespace Model

/-- Whether an atom is true. -/
def contains (model : Model) (atom : Nat) : Bool := model.atoms.contains atom

/-- Whether a literal is true. -/
def holds (model : Model) (lit : Lit) : Bool := model.contains lit.atom != lit.negated

end Model
end TemporalHorizon

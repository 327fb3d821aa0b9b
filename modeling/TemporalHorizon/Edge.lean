import TemporalHorizon.Formula.Basic
import TemporalHorizon.Rule

/-!
# The edge of the horizon

What waits for steps that do not exist yet lives at the edge.  A *boundary* is a
reference to the next step of the current edge; until that step is reached, its
truth is an external atom that a solver may choose freely.  A *deferred*
requirement is a formula that must hold at a later step.  An *instance* is an
until or a release that is being unrolled step by step; at each step it leaves a
carrier, an atom that records whether it has been settled by then.
-/

namespace TemporalHorizon

/-- The truth of an external atom as a solver sees it. -/
inductive Truth where
  | true
  | false
  /-- Not determined yet: a solver may choose. -/
  | free
  deriving DecidableEq

/-- The name of a truth value. -/
def Truth.text : Truth → String
  | .true => "true"
  | .false => "false"
  | .free => "free"

/-- An external atom with its truth. -/
structure External where
  lit : Lit
  truth : Truth
  deriving DecidableEq

/-- The text of an external. -/
def External.text (external : External) : String :=
  "#external " ++ external.lit.text ++ ". [" ++ external.truth.text ++ "]"

/-- A reference to a step that does not exist yet. -/
structure Boundary where
  lit : Lit
  /-- What the literal will stand for at the target step. -/
  arg : Formula
  target : Nat
  weak : Bool
  deriving DecidableEq

/-- A requirement for a step that does not exist yet. -/
structure Deferred where
  step : Nat
  formula : Formula
  guard : List Lit
  deriving DecidableEq

/-- An until or release that is being unrolled. -/
structure Instance where
  formula : Formula
  op : Fixpoint
  lhs : Option Formula
  rhs : Formula
  guard : List Lit
  /-- The step at which it was required. -/
  origin : Nat
  /-- The step to which it has been unrolled. -/
  last : Nat
  /-- The carrier at step `last`. -/
  carrier : Option Lit
  deriving DecidableEq

/-- A carrier that an instance has left at a step. -/
structure Carrier where
  formula : Formula
  origin : Nat
  step : Nat
  lit : Lit
  deriving DecidableEq

/-- Everything that waits for later steps. -/
structure Edge where
  boundaries : List Boundary := []
  deferred : List Deferred := []
  instances : List Instance := []
  deriving DecidableEq

namespace Edge

/-- Open a boundary. -/
def openBoundary (edge : Edge) (boundary : Boundary) : Edge :=
  { edge with boundaries := edge.boundaries ++ [boundary] }

/-- The boundaries that target a step, and the edge without them. -/
def takeDue (edge : Edge) (step : Nat) : List Boundary × Edge :=
  (edge.boundaries.filter fun b => b.target = step,
    { edge with boundaries := edge.boundaries.filter fun b => b.target ≠ step })

/-- Postpone a requirement. -/
def defer (edge : Edge) (requirement : Deferred) : Edge :=
  { edge with deferred := edge.deferred ++ [requirement] }

/-- The requirements postponed to a step, and the edge without them. -/
def takeDeferred (edge : Edge) (step : Nat) : List Deferred × Edge :=
  (edge.deferred.filter fun d => d.step = step,
    { edge with deferred := edge.deferred.filter fun d => d.step ≠ step })

/-- Add an instance. -/
def addInstance (edge : Edge) (inst : Instance) : Edge :=
  { edge with instances := edge.instances ++ [inst] }

/-- Put an instance in the place of the one with the given number. -/
def setInstance (edge : Edge) (number : Nat) (inst : Instance) : Edge :=
  { edge with instances := edge.instances.set number inst }

/-- The externals of the open boundaries. -/
def externals (edge : Edge) : List External :=
  edge.boundaries.map fun b => ⟨b.lit, .free⟩

/-- What the open boundaries become if no further step comes: weak references
are true and strong ones false. -/
def closedExternals (edge : Edge) : List External :=
  edge.boundaries.map fun b => ⟨b.lit, if b.weak then .true else .false⟩

/-- The literals that hold if no further step comes. -/
def closingAssumptions (edge : Edge) : List Lit :=
  edge.boundaries.map fun b => if b.weak then b.lit else -b.lit

/-- The number of postponed requirements. -/
def pending (edge : Edge) : Nat := edge.deferred.length

end Edge
end TemporalHorizon

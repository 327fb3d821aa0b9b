import TemporalHorizon.Formula.Basic

/-!
# Nodes of shared formulas

A formula in a store is a node whose children are numbers of earlier formulas
and paths.  Equal formulas have one number, so a number can stand for a formula
wherever only its identity matters.
-/

namespace TemporalHorizon

/-- The number of a formula in a store. -/
structure FormulaId where
  index : Nat
  deriving DecidableEq

/-- The number of a path in a store. -/
structure PathId where
  index : Nat
  deriving DecidableEq

/-- The outermost constructor of a formula, over numbers of its parts. -/
inductive Node where
  | atom (name : String) (args : List Term) (positive : Bool)
  | bool (value : Bool)
  | initial
  | final
  | not (arg : FormulaId)
  | binary (op : Connective) (lhs rhs : FormulaId)
  | previous (arg : FormulaId) (weak : Bool)
  | next (arg : FormulaId) (weak : Bool)
  | initially (arg : FormulaId)
  | temporal (op : Fixpoint) (lhs rhs : FormulaId)
  | modal (op : Fixpoint) (arg : FormulaId)
  | dynamic (modality : Modality) (path : PathId) (arg : FormulaId)
  deriving DecidableEq

/-- The outermost constructor of a path, over numbers of its parts. -/
inductive PathNode where
  | skip
  | test (arg : FormulaId)
  | seq (first second : PathId)
  | choice (lhs rhs : PathId)
  | star (body : PathId)
  deriving DecidableEq

/-- The formulas that a node refers to, from left to right. -/
def Node.formulas : Node → List FormulaId
  | .atom _ _ _ | .bool _ | .initial | .final => []
  | .not arg | .previous arg _ | .next arg _ | .initially arg | .modal _ arg => [arg]
  | .binary _ lhs rhs | .temporal _ lhs rhs => [lhs, rhs]
  | .dynamic _ _ arg => [arg]

/-- The paths that a node refers to. -/
def Node.paths : Node → List PathId
  | .dynamic _ path _ => [path]
  | _ => []

/-- The formulas that a path node refers to. -/
def PathNode.formulas : PathNode → List FormulaId
  | .test arg => [arg]
  | _ => []

/-- The paths that a path node refers to, from left to right. -/
def PathNode.paths : PathNode → List PathId
  | .skip | .test _ => []
  | .seq lhs rhs | .choice lhs rhs => [lhs, rhs]
  | .star body => [body]

end TemporalHorizon

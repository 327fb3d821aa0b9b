import TemporalHorizon.Arithmetic
import TemporalHorizon.Store.Node

/-!
# A formula at a step

The encoder gives a literal to a formula at a step.  The pair of the formula's
number and the step is packed into one number, by the pairing along growing
squares.
-/

namespace TemporalHorizon

/-- A formula of a store at a step. -/
structure Key where
  formula : FormulaId
  step : Nat
  deriving DecidableEq

namespace Key

/-- The packed number of a key. -/
def pack [Arithmetic] (key : Key) : Nat := Arithmetic.pair key.formula.index key.step

/-- Both parts of a key are exact. -/
structure InRange [Arithmetic] (key : Key) : Prop where
  formula : Arithmetic.Fits key.formula.index
  step : Arithmetic.Fits key.step

instance [Arithmetic] : DecidablePred InRange := fun _ =>
  decidable_of_iff' _ ⟨fun h => And.intro h.formula h.step, fun h => ⟨h.1, h.2⟩⟩

/-- The number of a key in range is that of the pair of its parts. -/
theorem InRange.pack_eq [Arithmetic] {key : Key} (h : key.InRange) :
    key.pack = squarePair key.formula.index key.step := by
  rcases Nat.le_total key.formula.index key.step with hle | hle
  · exact Arithmetic.pair_eq h.step (Nat.lt_succ_of_le hle) (Nat.lt_succ_self _)
  · exact Arithmetic.pair_eq h.formula (Nat.lt_succ_self _) (Nat.lt_succ_of_le hle)

/-- The key as it is shown in messages. -/
def text (key : Key) : String :=
  "Key \x7b formula: FormulaId(" ++ toString key.formula.index ++ "), step: " ++
    toString key.step ++ " \x7d"

end Key
end TemporalHorizon

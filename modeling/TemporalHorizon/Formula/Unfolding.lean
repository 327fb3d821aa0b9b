import TemporalHorizon.Formula.Basic

/-!
# Unfolding a dynamic formula

A dynamic formula says the same as a formula in which the head of its path has
been unfolded: a move becomes a reference to the next step, a test a connective,
a sequence two modalities, and a choice or a star a junction of two cases.
-/

namespace TemporalHorizon

namespace Modality

/-- How two ways through a path are joined: a diamond needs one of them, a box
asks about both. -/
def junction : Modality → Connective
  | .diamond => .or
  | .box => .and

/-- How a test is joined with what follows it: a diamond needs the test, a box
asks about what follows only if the test holds. -/
def guard : Modality → Connective
  | .diamond => .and
  | .box => .implies

/-- The value of a modality over a move that cannot be made. -/
def afterEnd : Modality → Bool
  | .diamond => false
  | .box => true

end Modality

namespace Formula

/-- One unfolding of a dynamic formula over the head of its path. -/
def unfoldPath (modality : Modality) (path : Path) (arg : Formula) : Formula :=
  match path with
  | .skip => .next arg modality.afterEnd
  | .test test => .binary modality.guard test arg
  | .seq first second => .dynamic modality first (.dynamic modality second arg)
  | .choice lhs rhs =>
    .binary modality.junction (.dynamic modality lhs arg) (.dynamic modality rhs arg)
  | .star body =>
    .binary modality.junction arg (.dynamic modality body (.dynamic modality path arg))

end Formula
end TemporalHorizon

import TemporalHorizon.Failure
import TemporalHorizon.Formula.NormalForm

/-!
# Theories

A theory is a list of formulas, each attached to a stage.  It is accepted if all
its paths are in normal form and no formula of the final stage looks ahead.
-/

namespace TemporalHorizon

/-- Check the contract on a formula of a stage.  A path that is not in normal form
is reported before a reference to the future. -/
def validate (stage : Stage) (f : Formula) : Except Violation Unit :=
  match f.malformedPath? with
  | some path => .error (.malformedPath f path)
  | none =>
    if !stage.licensesFuture && f.referencesFuture then .error (.futureFormula f stage)
    else .ok ()

/-- Formulas attached to stages, in order. -/
structure Theory where
  formulas : List (Stage × Formula) := []
  deriving DecidableEq

namespace Theory

/-- The number of formulas. -/
def size (theory : Theory) : Nat := theory.formulas.length

/-- The formulas of the final stage, in order. -/
def finals (theory : Theory) : List Formula :=
  (theory.formulas.filter fun entry => entry.1 = .final).map Prod.snd

/-- The formulas of other stages than the final one that are required at an
instant, in order and with their stages. -/
def current (theory : Theory) (instant : Instant) : List (Stage × Formula) :=
  theory.formulas.filter fun entry => entry.1 ≠ .final && instant.stages.contains entry.1

/-- Check the formulas of a list one after the other. -/
def validateAll : List (Stage × Formula) → Except Violation Unit
  | [] => .ok ()
  | (stage, f) :: rest =>
    match validate stage f with
    | .ok () => validateAll rest
    | .error cause => .error cause

end Theory
end TemporalHorizon

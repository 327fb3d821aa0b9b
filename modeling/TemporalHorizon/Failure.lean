import TemporalHorizon.Formula.Text
import TemporalHorizon.Key
import TemporalHorizon.Literal
import TemporalHorizon.Time.Stage

/-!
# Failures

An operation may be refused for a reason that the caller can act on: a
`Violation` of the contract on its input.  A `Fault` is different: it reports
that a promise inside the library, or of a caller who builds its values by hand,
was broken.  The wording of both stands here and nowhere else.
-/

namespace TemporalHorizon

/-- Why an operation is refused. -/
inductive Violation where
  /-- The formula holds a path that is not in normal form. -/
  | malformedPath (formula : Formula) (path : Path)
  /-- The formula looks at a later step in a stage that does not allow it. -/
  | futureFormula (formula : Formula) (stage : Stage)
  /-- A reference to a later step in a stage that does not allow it. -/
  | futureReference (offset : Int) (step : Nat) (stage : Stage)
  /-- The step has not been reached; `horizon` is the last one that has. -/
  | outOfWindow (step : Nat) (horizon : Option Nat)
  /-- The horizon was closed at `last`. -/
  | horizonClosed (last : Nat)
  /-- Only the edge of the horizon can be closed. -/
  | notAtEdge (step : Nat) (horizon : Option Nat)
  /-- The formula already has a literal at the step. -/
  | lateBinding (formula : Formula) (step : Nat)
  /-- A host literal must be a plain atom. -/
  | negativeHost (lit : Lit)
  /-- Externals were left free after closing. -/
  | openExternals (count last : Nat)
  deriving DecidableEq

/-- The text of a step that may not exist. -/
def horizonText : Option Nat → String
  | none => "None"
  | some step => "Some(" ++ toString step ++ ")"

/-- A text between back quotes. -/
def backQuoted (text : String) : String := "\x60" ++ text ++ "\x60"

/-- The wording of a refusal for looking ahead. -/
def aheadMessage (subject : String) (stage : Stage) : String :=
  backQuoted subject ++ " references the future, which stage " ++ backQuoted stage.text ++
    " does not allow"

/-- The wording of a violation. -/
def Violation.message : Violation → String
  | .malformedPath formula path =>
    "path expression " ++ backQuoted path.text ++ " in " ++ backQuoted formula.text ++
      " is not in normal form"
  | .futureFormula formula stage => aheadMessage formula.text stage
  | .futureReference offset step stage =>
    aheadMessage
      ("reference " ++ toString offset ++ " step(s) ahead of step " ++ toString step) stage
  | .outOfWindow step horizon =>
    "step " ++ toString step ++ " has not been unrolled (horizon edge: " ++
      horizonText horizon ++ ")"
  | .horizonClosed last => "horizon was closed at step " ++ toString last
  | .notAtEdge step horizon =>
    "step " ++ toString step ++ " is not the horizon edge (current edge: " ++
      horizonText horizon ++ ")"
  | .lateBinding formula step =>
    backQuoted formula.text ++ " at step " ++ toString step ++ " already has a literal"
  | .negativeHost lit => "host literal " ++ backQuoted lit.text ++ " is not a positive atom"
  | .openExternals count last =>
    toString count ++ " external(s) left free after closing the horizon at step " ++
      toString last

/-- A broken promise. -/
inductive Fault where
  /-- A literal was asked for the number zero. -/
  | zeroAtom
  /-- A ground atom was given a negated literal. -/
  | negativeGround
  /-- A ground atom was entered twice. -/
  | groundTwice (key : Key)
  /-- A formula at a step was given a second literal. -/
  | entryTwice (key : Key)
  /-- The defining atom of a formula at a step was created twice. -/
  | definedTwice (key : Key)
  /-- A program has too many candidate atoms to be searched. -/
  | tooManyCandidates (count : Nat)
  /-- An unfolding went deeper than its bound. -/
  | unfoldingTooDeep (formula : Formula) (step : Nat)
  deriving DecidableEq

/-- The wording of a fault. -/
def Fault.message : Fault → String
  | .zeroAtom => "Atom index should not be zero"
  | .negativeGround => "Ground atom literal should be positive"
  | .groundTwice key => "Ground atom " ++ key.text ++ " should be interned once"
  | .entryTwice key => "Cache entry for " ++ key.text ++ " should be created only once"
  | .definedTwice key => key.text ++ " should not be allocated twice"
  | .tooManyCandidates count =>
    "Program is too large for brute force: " ++ toString count ++ " candidate atoms"
  | .unfoldingTooDeep formula step =>
    "Unfolding of " ++ formula.text ++ " at step " ++ toString step ++ " is too deep"

/-- How an operation can fail. -/
inductive Failure where
  | violation (cause : Violation)
  | fault (cause : Fault)
  deriving DecidableEq

/-- The literal of a signed number; zero is a fault. -/
def Lit.ofInt (value : Int) : Except Fault Lit :=
  match Lit.ofInt? value with
  | some lit => .ok lit
  | none => .error .zeroAtom

end TemporalHorizon

import TemporalHorizon.Formula.Basic

/-!
# The text of formulas and paths

Every composite formula is written between parentheses, so no operator needs a
precedence.  Constants start with an ampersand, and an atom shows its argument
list only if it has arguments.
-/

namespace TemporalHorizon

/-- The sign of a connective. -/
def Connective.text : Connective → String
  | .and => "&"
  | .or => "|"
  | .implies => "->"
  | .implied => "<-"
  | .equiv => "<>"

/-- The sign of a fixpoint operator. -/
def Fixpoint.text : Fixpoint → String
  | .since => "<?"
  | .trigger => "<*"
  | .untl => ">?"
  | .release => ">*"

/-- The text of an atom: a minus for the classical negation, the name, and the
arguments between parentheses if there are any. -/
def atomText (name : String) (args : List Term) (positive : Bool) : String :=
  (if positive then "" else "-") ++ name ++
    (if args.isEmpty then "" else "(" ++ Text.joined "," (Term.texts args) ++ ")")

mutual

/-- The text of a formula. -/
def Formula.text : Formula → String
  | .atom name args positive => atomText name args positive
  | .bool true => "&true"
  | .bool false => "&false"
  | .initial => "&initial"
  | .final => "&final"
  | .not arg => "(~" ++ arg.text ++ ")"
  | .binary op lhs rhs => "(" ++ lhs.text ++ op.text ++ rhs.text ++ ")"
  | .previous arg weak => "(" ++ (if weak then "<:" else "<") ++ arg.text ++ ")"
  | .next arg weak => "(" ++ (if weak then ">:" else ">") ++ arg.text ++ ")"
  | .initially arg => "(<<" ++ arg.text ++ ")"
  | .temporal op lhs rhs => "(" ++ lhs.text ++ op.text ++ rhs.text ++ ")"
  | .modal op arg => "(" ++ op.text ++ arg.text ++ ")"
  | .dynamic .box path arg => "([" ++ path.text ++ "]" ++ arg.text ++ ")"
  | .dynamic .diamond path arg => "(<" ++ path.text ++ ">" ++ arg.text ++ ")"

/-- The text of a path. -/
def Path.text : Path → String
  | .skip => "&true"
  | .test arg => "(?" ++ arg.text ++ ")"
  | .seq first second => "(" ++ first.text ++ ";;" ++ second.text ++ ")"
  | .choice lhs rhs => "(" ++ lhs.text ++ "+" ++ rhs.text ++ ")"
  | .star body => "(*" ++ body.text ++ ")"

end

end TemporalHorizon

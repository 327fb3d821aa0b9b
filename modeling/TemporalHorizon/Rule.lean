import TemporalHorizon.Literal
import TemporalHorizon.Text.Quoted

/-!
# Rules

A rule has a head of atoms and a body of literals.  The head is either a
disjunction, of which at least one atom must hold when the body does, or a
choice, which allows each of its atoms and demands none.  A rule with an empty
disjunctive head is a constraint: its body must not hold.
-/

namespace TemporalHorizon

/-- How the head of a rule is read. -/
inductive HeadKind where
  | disjunction
  | choice
  deriving DecidableEq

/-- A ground rule. -/
structure Rule where
  kind : HeadKind
  head : List Nat
  body : List Lit
  deriving DecidableEq

namespace Rule

/-! ## Constructors -/

def disjunctive (head : List Nat) (body : List Lit) : Rule := ⟨.disjunction, head, body⟩

/-- The atom holds whenever the body does. -/
def normal (atom : Nat) (body : List Lit) : Rule := disjunctive [atom] body

/-- The atom holds. -/
def fact (atom : Nat) : Rule := normal atom []

/-- The body does not hold. -/
def constraint (body : List Lit) : Rule := disjunctive [] body

/-- Each atom of the head may hold when the body does. -/
def choices (head : List Nat) (body : List Lit) : Rule := ⟨.choice, head, body⟩

/-- The atom may hold. -/
def choice (atom : Nat) : Rule := choices [atom] []

/-- The constraints that make two literals equal. -/
def equal (a b : Lit) : List Rule :=
  [constraint [a, -b], constraint [-a, b]]

/-- The constraints that make `e` equal to the disjunction of `a` and `b`. -/
def disjunctionOf (e a b : Lit) : List Rule :=
  [constraint [e, -a, -b], constraint [-e, a], constraint [-e, b]]

/-! ## Parts -/

def isConstraint (rule : Rule) : Bool :=
  rule.kind == .disjunction && rule.head.isEmpty

/-- The atoms of the positive body literals, in order. -/
def positiveBody (rule : Rule) : List Nat :=
  (rule.body.filter fun l => !l.negated).map Lit.atom

/-- The atoms of the negated body literals, in order. -/
def negativeBody (rule : Rule) : List Nat :=
  (rule.body.filter fun l => l.negated).map Lit.atom

/-- All atoms of the rule, the head first. -/
def atoms (rule : Rule) : List Nat :=
  rule.head ++ rule.body.map Lit.atom

/-! ## Text -/

/-- The text of a head: choices between braces, disjunctions bare. -/
def headText (rule : Rule) : String :=
  let names := rule.head.map fun atom => "x" ++ toString atom
  match rule.kind with
  | .choice => "\x7b" ++ Text.joined ";" names ++ "\x7d"
  | .disjunction => Text.joined "|" names

/-- The text of a body with the sign before it.  The sign is left out only
between a head and an empty body, and it is set off from a nonempty head. -/
def bodyText (rule : Rule) : String :=
  if rule.body.isEmpty then
    if rule.head.isEmpty then ":-" else ""
  else
    (if rule.head.isEmpty then ":- " else " :- ") ++ Text.joined ", " (rule.body.map Lit.text)

/-- The text of a rule, with the dot at its end. -/
def text (rule : Rule) : String :=
  rule.headText ++ rule.bodyText ++ "."

end Rule
end TemporalHorizon

import TemporalHorizon.Formula.Basic

/-!
# Normal form of paths and references to the future

A path is nullable if it can be run without moving.  A star over a nullable body
would make a dynamic formula refer to itself at the same step, so a path is in
normal form only if every star has a body that moves; nor may a path test the
constant false.  A formula is acceptable if all paths in it, those inside tests
included, are in normal form.
-/

namespace TemporalHorizon
namespace Path

/-- Whether the path can be run without moving. -/
def isNullable : Path → Bool
  | .skip => false
  | .test _ => true
  | .seq first second => first.isNullable && second.isNullable
  | .choice lhs rhs => lhs.isNullable || rhs.isNullable
  | .star _ => true

/-- Whether every star in the path moves in each round, and no test is the
constant false. -/
def isNormal : Path → Bool
  | .skip => true
  | .test arg => arg != .bool false
  | .seq first second => first.isNormal && second.isNormal
  | .choice lhs rhs => lhs.isNormal && rhs.isNormal
  | .star body => !body.isNullable && body.isNormal

/-- The number of constructors of the path, tests counted as one. -/
def size : Path → Nat
  | .skip => 1
  | .test _ => 1
  | .seq first second => first.size + second.size + 1
  | .choice lhs rhs => lhs.size + rhs.size + 1
  | .star body => body.size + 1

/-- The formulas tested by the paths that still have to be walked, the first of
the list first.  The budget bounds the number of paths taken off the list. -/
def walkTests : Nat → List Path → List Formula
  | 0, _ => []
  | _, [] => []
  | n + 1, .skip :: rest => walkTests n rest
  | n + 1, .test arg :: rest => arg :: walkTests n rest
  | n + 1, .seq first second :: rest => walkTests n (first :: second :: rest)
  | n + 1, .choice lhs rhs :: rest => walkTests n (lhs :: rhs :: rest)
  | n + 1, .star body :: rest => walkTests n (body :: rest)

/-- The formulas tested by the path, from left to right. -/
def tests (path : Path) : List Formula :=
  walkTests path.size [path]

end Path

mutual

/-- The first path of the formula, from left to right and an outer one before
those in its tests, that is not in normal form. -/
def Formula.malformedPath? : Formula → Option Path
  | .atom _ _ _ | .bool _ | .initial | .final => none
  | .not arg | .previous arg _ | .next arg _ | .initially arg | .modal _ arg =>
    arg.malformedPath?
  | .binary _ lhs rhs | .temporal _ lhs rhs => lhs.malformedPath? <|> rhs.malformedPath?
  | .dynamic _ path arg =>
    if path.isNormal then path.malformedTest? <|> arg.malformedPath? else some path

/-- The first path that is not in normal form inside the tests of a path. -/
def Path.malformedTest? : Path → Option Path
  | .skip => none
  | .test arg => arg.malformedPath?
  | .seq first second => first.malformedTest? <|> second.malformedTest?
  | .choice lhs rhs => lhs.malformedTest? <|> rhs.malformedTest?
  | .star body => body.malformedTest?

end

/-- Whether the formula looks at a later step.  The constant for the last step
is not counted: at a closed horizon it has a fixed value. -/
def Formula.referencesFuture : Formula → Bool
  | .atom _ _ _ | .bool _ | .initial | .final => false
  | .not arg | .previous arg _ | .initially arg => arg.referencesFuture
  | .binary _ lhs rhs => lhs.referencesFuture || rhs.referencesFuture
  | .next _ _ | .dynamic _ _ _ => true
  | .temporal op lhs rhs => op.isFuture || lhs.referencesFuture || rhs.referencesFuture
  | .modal op arg => op.isFuture || arg.referencesFuture

end TemporalHorizon

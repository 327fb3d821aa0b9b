import TemporalHorizon.Formula.Basic

/-!
# How deep a formula unfolds

The encoder unfolds a fixpoint operator along the trace and a dynamic formula
along its path.  With the horizon given, the depth of these unfoldings is
bounded, and the bound can be read off the formula:

* a future fixpoint unfolds once at every step up to the horizon, through a
  reference to the next step, and a past one once at every step back to 0;
* a path adds its own depth to that of the formula behind it, and a star does so
  once at every step, because its body moves in each round.
-/

namespace TemporalHorizon

mutual

/-- A bound on the depth to which a formula unfolds below a horizon. -/
def Formula.unfoldDepth (horizon : Nat) : Formula → Nat
  | .atom _ _ _ | .bool _ | .initial => 1
  | .final => 3
  | .not arg | .previous arg _ | .next arg _ | .initially arg => arg.unfoldDepth horizon + 1
  | .binary _ lhs rhs => lhs.unfoldDepth horizon + rhs.unfoldDepth horizon + 1
  | .temporal _ lhs rhs =>
    lhs.unfoldDepth horizon + rhs.unfoldDepth horizon + 2 * (horizon + 1)
  | .modal _ arg => arg.unfoldDepth horizon + 2 * (horizon + 1)
  | .dynamic _ path arg => path.unfoldDepth horizon + arg.unfoldDepth horizon

/-- A bound on the depth that a path adds to the formula behind it. -/
def Path.unfoldDepth (horizon : Nat) : Path → Nat
  | .skip => 2
  | .test arg => arg.unfoldDepth horizon + 2
  | .seq first second => first.unfoldDepth horizon + second.unfoldDepth horizon + 1
  | .choice lhs rhs => lhs.unfoldDepth horizon + rhs.unfoldDepth horizon + 2
  | .star body => (horizon + 1) * (body.unfoldDepth horizon + 2)

end

end TemporalHorizon

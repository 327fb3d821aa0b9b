import TemporalHorizon.Encoder.Head

/-!
# Moving the edge

When a step is reached, what was waiting for it falls due: boundaries are tied to
the literals of their arguments, postponed requirements are met and instances are
unrolled.  When the horizon is closed, nothing will fall due any more: open
boundaries are fixed and everything else at the edge is dropped.
-/

namespace TemporalHorizon
namespace Encoder

/-- Tie boundaries to the literals of their arguments at a step, in order, and
return their literals. -/
def tieBoundaries [Arithmetic] (window : Window) (step : Nat) : List Boundary → Encode (List Lit)
  | [] => return []
  | boundary :: rest => do
    let lit ← encode window boundary.arg step
    emit (.normal boundary.lit.atom [lit])
    let released ← tieBoundaries window step rest
    return boundary.lit :: released

/-- Take the boundaries that target a step off the edge and tie them there. -/
def resolveBoundaries [Arithmetic] (window : Window) (step : Nat) : Encode (List Lit) := do
  let due ← modifyGet fun encoder =>
    let (due, edge) := encoder.edge.takeDue step
    (due, { encoder with edge := edge })
  tieBoundaries window step due

/-- Take the requirements postponed to a step off the edge and meet them. -/
def runDeferred [Arithmetic] (window : Window) (step : Nat) : Encode Unit := do
  let due ← modifyGet fun encoder =>
    let (due, edge) := encoder.edge.takeDeferred step
    (due, { encoder with edge := edge })
  due.forM fun requirement => require window requirement.formula step requirement.guard

/-- Unroll the instance with the given number to a step, unless it is there. -/
def advanceInstance [Arithmetic] (window : Window) (step number : Nat) : Encode Unit := do
  match (← get).edge.instances[number]? with
  | none => pure ()
  | some inst =>
    if inst.last < step then
      let inst ← advance require window inst step
      modify fun encoder => { encoder with edge := encoder.edge.setInstance number inst }
    else pure ()

/-- Unroll all instances to a step.  An instance that is started on the way is
unrolled to the horizon at once, so only those that are there now are visited. -/
def advanceInstances [Arithmetic] (window : Window) (step : Nat) : Encode Unit := do
  let count := (← get).edge.instances.length
  (List.range count).forM (advanceInstance window step)

/-- Fix all open boundaries, derive those that have become true, and drop
everything that waits for a later step. -/
def close : Encode (List External) := do
  let fixed := (← get).edge.closedExternals
  emitAll ((fixed.filter fun e => e.truth = .true).map fun e => .fact e.lit.atom)
  modify fun encoder => { encoder with edge := {} }
  return fixed

end Encoder
end TemporalHorizon

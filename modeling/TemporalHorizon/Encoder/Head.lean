import TemporalHorizon.Encoder.Body

/-!
# Requirements

`require` emits rules that make a formula hold at a step whenever all literals of
a guard hold.  Where it can, it derives atoms instead of only excluding models:
an atom becomes the head of a rule, a disjunction a disjunctive head.  What has
no such form is encoded and its negation excluded.

The same requirement is taken on once.  Guards are compared as sets: a guard is
sorted, repetitions and the constant true are dropped, and a false guard demands
nothing.

An until and a release with two operands are unrolled along the trace.  An
instance carries from step to step the atom that records whether it is settled:
for an until, that the right operand has held; for a release, that the left one
has.  It has two defining rules at each step: carried forward, or settled here.
-/

namespace TemporalHorizon
namespace Encoder

/-- A guard as a set: increasing, without repetition and without the constant
true. -/
def guardSet (guard : List Lit) : List Lit :=
  Ordered.ofList Lit.order (guard.filter fun l => l ≠ Lit.truth)

/-- How a requirement is met from others. -/
abbrev Requiring := Window → Formula → Nat → List Lit → Encode Unit

/-! ## Disjunctions -/

/-- Sort disjuncts into a head and a body: atoms go to the head, other formulas
are encoded and negated in the body.  The constant false is dropped; the constant
true ends the walk, for then nothing is required. -/
def sortDisjuncts [Arithmetic] (window : Window) (step : Nat) :
    List Formula → List Nat → List Lit → Encode (Option (List Nat × List Lit))
  | [], head, body => return some (head, body)
  | .atom name args positive :: rest, head, body => do
    let lit ← groundAtom (.atom name args positive) step
    sortDisjuncts window step rest (head ++ [lit.atom]) body
  | .bool true :: _, _, _ => return none
  | .bool false :: rest, head, body => sortDisjuncts window step rest head body
  | f :: rest, head, body => do
    let lit ← encode window f step
    sortDisjuncts window step rest head (body ++ [-lit])

/-- Require a disjunction. -/
def requireDisjunction [Arithmetic] (window : Window) (f : Formula) (step : Nat)
    (guard : List Lit) : Encode Unit := do
  match ← sortDisjuncts window step f.disjuncts [] guard with
  | some (head, body) => emit (.disjunctive head body)
  | none => pure ()

/-! ## Instances of until and release -/

/-- An until needs one of its operands at each step; with a missing left operand
it needs none. -/
def requireOperands (rec : Requiring) (window : Window) (inst : Instance) (guard : List Lit)
    (step : Nat) : Encode Unit :=
  match inst.lhs with
  | some lhs => rec window (.or lhs inst.rhs) step guard
  | none => pure ()

/-- The literal that settles an instance at a step, after the requirements of the
instance there: an until needs one of its operands, and the right one at the last
step; a release needs its right operand. -/
def instanceWitness [Arithmetic] (rec : Requiring) (window : Window) (inst : Instance)
    (guard : List Lit) (step : Nat) : Encode Lit := do
  match inst.op with
  | .untl =>
    requireOperands rec window inst guard step
    let next ← encodeHasNext window step
    rec window inst.rhs step (guard ++ [-next])
    encode window inst.rhs step
  | _ =>
    rec window inst.rhs step guard
    match inst.lhs with
    | some lhs => encode window lhs step
    | none => return Lit.falsity

/-- A carrier holds if the one of the step before does. -/
def carryOn (earlier : Option Lit) (carrier : Lit) : Encode Unit :=
  match earlier with
  | some earlier => emit (.normal carrier.atom [earlier])
  | none => pure ()

/-- Unroll an instance to a step.  Nothing more is required once the carrier of
the step before holds. -/
def advance [Arithmetic] (rec : Requiring) (window : Window) (inst : Instance) (step : Nat) :
    Encode Instance := do
  let guard := inst.guard ++ (inst.carrier.map (- ·)).toList
  let witness ← instanceWitness rec window inst guard step
  let carrier ← fresh
  carryOn inst.carrier carrier
  emit (.normal carrier.atom [witness])
  modify fun encoder =>
    { encoder with carriers := encoder.carriers ++ [⟨inst.formula, inst.origin, step, carrier⟩] }
  return { inst with carrier := some carrier, last := step }

/-- Unroll an instance through the given number of steps. -/
def advanceThrough [Arithmetic] (rec : Requiring) (window : Window) :
    Nat → Nat → Instance → Encode Instance
  | 0, _, inst => return inst
  | count + 1, step, inst => do
    let inst ← advance rec window inst step
    advanceThrough rec window count (step + 1) inst

/-- Start an instance and unroll it to the horizon. -/
def startInstance [Arithmetic] (rec : Requiring) (window : Window) (inst : Instance) :
    Encode Unit := do
  let inst ← advanceThrough rec window (window.horizon + 1 - inst.origin) inst.origin inst
  modify fun encoder => { encoder with edge := encoder.edge.addInstance inst }

/-! ## All formulas -/

/-- Require that a step comes after the edge. -/
def requireStepAfter [Arithmetic] (window : Window) (step : Nat) (guard : List Lit) :
    Encode Unit := do
  let next ← encodeHasNext window step
  emit (.constraint (guard ++ [-next]))

/-- Require the argument of a next one step further on.  If that step is still to
come, the requirement is postponed, and a strong next also requires the step. -/
def requireNext [Arithmetic] (rec : Requiring) (window : Window) (f arg : Formula) (weak : Bool)
    (step : Nat) (guard : List Lit) : Encode Unit := do
  checkAhead window f
  match window.shift step 1 with
  | .reached after => rec window arg after guard
  | .pending target =>
    if weak then pure () else requireStepAfter window step guard
    defer ⟨target, arg, guard⟩
  | .afterEnd | .beforeStart => if weak then pure () else emit (.constraint guard)

/-- The rules of a requirement that has not been taken on before. -/
def requireNew [Arithmetic] (rec : Requiring) (window : Window) (f : Formula) (step : Nat)
    (guard : List Lit) : Encode Unit := do
  match f with
  | .atom _ _ _ =>
    let lit ← groundAtom f step
    emit (.normal lit.atom guard)
  | .bool true => pure ()
  | .bool false => emit (.constraint guard)
  | .binary .and lhs rhs =>
    rec window lhs step guard
    rec window rhs step guard
  | .binary .or _ _ => requireDisjunction window f step guard
  | .binary .implies lhs rhs =>
    let lit ← encode window lhs step
    rec window rhs step (guard ++ [lit])
  | .binary .implied lhs rhs =>
    let lit ← encode window rhs step
    rec window lhs step (guard ++ [lit])
  | .not arg =>
    let lit ← encode window arg step
    emit (.constraint (guard ++ [lit]))
  | .next arg weak => requireNext rec window f arg weak step guard
  | .modal .release arg =>
    rec window arg step guard
    rec window (.next f true) step guard
  | .modal .untl arg => startInstance rec window ⟨f, .untl, none, arg, guard, step, step, none⟩
  | .temporal .untl lhs rhs =>
    startInstance rec window ⟨f, .untl, some lhs, rhs, guard, step, step, none⟩
  | .temporal .release lhs rhs =>
    startInstance rec window ⟨f, .release, some lhs, rhs, guard, step, step, none⟩
  | .initial | .final | .binary .equiv _ _ | .previous _ _ | .initially _
  | .temporal _ _ _ | .modal _ _ | .dynamic _ _ _ =>
    let lit ← encode window f step
    emit (.constraint (guard ++ [-lit]))

/-- Require a formula at a step, unless the guard is false or the requirement has
been taken on before. -/
def requireStep [Arithmetic] (rec : Requiring) (window : Window) (f : Formula) (step : Nat)
    (guard : List Lit) : Encode Unit := do
  checkStep window step
  if Lit.falsity ∈ guard then
    pure ()
  else
    let guard := guardSet guard
    let key ← keyOf f step
    if (key, guard) ∈ (← get).required then
      pure ()
    else
      modify fun encoder => { encoder with required := encoder.required ++ [(key, guard)] }
      requireNew rec window f step guard

/-- Require a formula at a step, with unfoldings up to the given depth. -/
def requireWithin [Arithmetic] : Nat → Requiring
  | 0, _, f, step, _ => collapse (.unfoldingTooDeep f step)
  | depth + 1, window, f, step, guard => requireStep (requireWithin depth) window f step guard

/-- Make a formula hold at a step whenever all literals of the guard hold. -/
def require [Arithmetic] (window : Window) (f : Formula) (step : Nat) (guard : List Lit) :
    Encode Unit := do
  let _ ← register f
  requireWithin (f.unfoldDepth window.horizon) window f step guard

end Encoder
end TemporalHorizon

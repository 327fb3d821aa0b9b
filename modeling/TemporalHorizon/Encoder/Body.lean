import TemporalHorizon.Encoder.Basic
import TemporalHorizon.Encoder.Depth
import TemporalHorizon.Formula.NormalForm
import TemporalHorizon.Formula.Unfolding

/-!
# Literals of formulas

`encode` gives the literal that is equivalent to a formula at a step, and emits
the rules that make it so.  Every formula has one literal at a step: the first
request defines it, later ones find it.

One request is answered by `encodeStep` from the answers for other formulas and
steps.  A negation and a reference to a reached step share the literal of what
they refer to; a connective gets an atom of its own, chosen freely and tied to
its operands by constraints; a reference to a step that is still to come gets an
external atom; a fixpoint is unfolded by one step along the trace, and a dynamic
formula by one constructor of its path.
-/

namespace TemporalHorizon
namespace Encoder

/-- The constraints that make `x` equal to a connective of `a` and `b`. -/
def connectiveRules (op : Connective) (x a b : Lit) : List Rule :=
  match op with
  | .or => Rule.disjunctionOf x a b
  | .and => Rule.disjunctionOf (-x) (-a) (-b)
  | .implies => Rule.disjunctionOf x (-a) b
  | .implied => Rule.disjunctionOf x a (-b)
  | .equiv =>
    [.constraint [x, a, -b], .constraint [x, -a, b],
      .constraint [-x, a, b], .constraint [-x, -a, -b]]

/-- The constraints that make `x` equal to one unfolding of a fixpoint, from the
left and right operands here and the fixpoint itself at the adjacent step: right
and (left or adjacent) for a greatest fixpoint, right or (left and adjacent) for
a least one. -/
def fixpointRules (op : Fixpoint) (x left right adjacent : Lit) : List Rule :=
  if op.isGreatest then
    [.constraint [x, -right], .constraint [x, -left, -adjacent],
      .constraint [-x, right, left], .constraint [-x, right, adjacent]]
  else
    [.constraint [x, -right, -left], .constraint [x, -right, -adjacent],
      .constraint [-x, right], .constraint [-x, left, adjacent]]

/-- Refuse to look ahead from a stage that does not allow it. -/
def checkAhead (window : Window) (f : Formula) : Encode Unit :=
  if window.stage.licensesFuture then pure () else refuse (.futureFormula f window.stage)

/-- Refuse a formula over a path that is not in normal form. -/
def checkPath (f : Formula) (path : Path) : Encode Unit :=
  if path.isNormal then pure () else refuse (.malformedPath f path)

/-- How the literal of a formula at a step is found from others. -/
abbrev Encoding := Window → Formula → Nat → Encode Lit

/-- A fixpoint formula at the adjacent step: the one after, or the one before.
There is none before step 0. -/
def encodeAdjacent [Arithmetic] (rec : Encoding) (window : Window) (f : Formula) (op : Fixpoint)
    (step : Nat) : Encode (Option Lit) :=
  if op.isFuture then some <$> rec window (.next f op.isGreatest) step
  else
    match window.shift step (-1) with
    | .reached before => some <$> rec window f before
    | _ => pure none

/-- The left operand of a fixpoint.  Without one a least fixpoint has the constant
true there, and a greatest one the constant false. -/
def encodeLeft (rec : Encoding) (window : Window) (op : Fixpoint) (lhs : Option Formula)
    (step : Nat) : Encode Lit :=
  match lhs with
  | some lhs => rec window lhs step
  | none => pure (Lit.constant !op.isGreatest)

/-- A fixpoint at a step.  Where there is no adjacent step it has the literal of
its right operand. -/
def encodeFixpoint [Arithmetic] (rec : Encoding) (window : Window) (f : Formula) (key : Key)
    (op : Fixpoint) (lhs : Option Formula) (rhs : Formula) : Encode Lit := do
  let right ← rec window rhs key.step
  match ← encodeAdjacent rec window f op key.step with
  | none => share key right
  | some adjacent =>
    let left ← encodeLeft rec window op lhs key.step
    let x ← define key
    emitAll (fixpointRules op x left right adjacent)
    return x

/-- The literal of a composite formula at a step where it has none yet. -/
def encodeNew [Arithmetic] (rec : Encoding) (window : Window) (f : Formula) (key : Key) :
    Encode Lit := do
  let step := key.step
  match f with
  | .atom _ _ _ => groundAtom f step
  | .bool value => share key (Lit.constant value)
  | .initial => share key (Lit.constant (step == 0))
  | .final =>
    if window.isLast step then share key Lit.truth
    else if step < window.horizon then share key Lit.falsity
    else
      let next ← rec (window.withStage .always) Formula.hasNext step
      share key (-next)
  | .not arg =>
    let lit ← rec window arg step
    share key (-lit)
  | .binary op lhs rhs =>
    let a ← rec window lhs step
    let b ← rec window rhs step
    let x ← define key
    emitAll (connectiveRules op x a b)
    return x
  | .previous arg weak =>
    match window.shift step (-1) with
    | .reached before =>
      let lit ← rec window arg before
      share key lit
    | _ => share key (Lit.constant weak)
  | .next arg weak =>
    checkAhead window f
    match window.shift step 1 with
    | .reached after =>
      let lit ← rec window arg after
      share key lit
    | .pending target =>
      let (lit, _) ← getOrCreate key
      openBoundary ⟨lit, arg, target, weak⟩
      return lit
    | .afterEnd | .beforeStart => share key (Lit.constant weak)
  | .initially arg =>
    let lit ← rec window arg 0
    share key lit
  | .temporal op lhs rhs => encodeFixpoint rec window f key op (some lhs) rhs
  | .modal op arg => encodeFixpoint rec window f key op none arg
  | .dynamic modality path arg =>
    checkPath f path
    let lit ← rec window (Formula.unfoldPath modality path arg) step
    share key lit

/-- The literal of a formula at a step: that of the ground atom, the one found in
the cache, or a new one. -/
def encodeStep [Arithmetic] (rec : Encoding) (window : Window) (f : Formula) (step : Nat) :
    Encode Lit := do
  checkStep window step
  if f.isAtom then
    groundAtom f step
  else
    let key ← keyOf f step
    match ← lookup key with
    | some lit => return lit
    | none => encodeNew rec window f key

/-- The literal of a formula at a step, with unfoldings up to the given depth. -/
def encodeWithin [Arithmetic] : Nat → Encoding
  | 0, _, f, step => collapse (.unfoldingTooDeep f step)
  | depth + 1, window, f, step => encodeStep (encodeWithin depth) window f step

/-- The literal that is equivalent to a formula at a step. -/
def encode [Arithmetic] (window : Window) (f : Formula) (step : Nat) : Encode Lit := do
  let _ ← register f
  encodeWithin (f.unfoldDepth window.horizon) window f step

/-- The literal for "a next step exists".  Every stage may ask for it: it is about
the trace and not about a formula. -/
def encodeHasNext [Arithmetic] (window : Window) (step : Nat) : Encode Lit :=
  encode (window.withStage .always) Formula.hasNext step

/-- Refuse a host literal that is not a plain atom. -/
def checkHost (host : Lit) : Encode Unit :=
  if host.negated then refuse (.negativeHost host) else pure ()

/-- Let a host literal represent a formula at a step.  It must be a plain atom,
and the formula must not have a literal or a binding there.  An atom is tied to
its host at once, because it is never looked up in the cache. -/
def bind [Arithmetic] (f : Formula) (step : Nat) (host : Lit) : Encode Unit := do
  let key ← keyOf f step
  checkHost host
  match (← get).cache.bind? key host with
  | none => refuse (.lateBinding f step)
  | some cache =>
    modify fun encoder => { encoder with cache := cache }
    if f.isAtom then
      let lit ← groundAtom f step
      let _ ← share key lit
    else pure ()

end Encoder
end TemporalHorizon

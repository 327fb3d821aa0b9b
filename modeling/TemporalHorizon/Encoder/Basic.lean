import TemporalHorizon.Cache
import TemporalHorizon.Edge
import TemporalHorizon.GroundTable
import TemporalHorizon.Store.Basic
import TemporalHorizon.Time.Window

/-!
# The encoder

An encoder turns formulas at steps into literals and rules.  This module holds
its state and the few operations that change it: numbering a formula, handing
out an atom, looking up or writing a representative, entering a ground atom and
emitting a rule.  Everything else is built from them.

An operation that fails keeps what it had already done, so the state is returned
with a failure as well as with a result.

Atom 1 is reserved.  No rule ever derives it, so its positive literal serves as
the constant false and its negation as the constant true.  Rules are simplified
against these two when they are emitted.
-/

namespace TemporalHorizon

namespace Lit

/-- The constant false: an atom that nothing derives. -/
def falsity : Lit := ⟨1, false⟩

/-- The constant true. -/
def truth : Lit := ⟨1, true⟩

/-- The literal of a truth constant. -/
def constant (value : Bool) : Lit := if value then truth else falsity

@[simp] theorem neg_falsity : -falsity = truth := rfl

@[simp] theorem neg_truth : -truth = falsity := rfl

end Lit

/-- The state of an encoder. -/
structure Encoder where
  /-- Numbers of all formulas met so far. -/
  store : Store := .empty
  /-- Representatives of composite formulas. -/
  cache : Cache := .empty
  /-- Atoms still to be handed out; atom 1 is gone. -/
  supply : Supply := ⟨2⟩
  /-- Literals of ground atoms. -/
  ground : GroundTable := .empty
  edge : Edge := {}
  /-- All carriers, in the order of their creation. -/
  carriers : List Carrier := []
  /-- Requirements that have been taken on, with their guards. -/
  required : List (Key × List Lit) := []
  /-- Rules emitted and not taken away yet, in order. -/
  rules : List Rule := []
  deriving DecidableEq

/-- A computation of an encoder. -/
abbrev Encode := EStateM Failure Encoder

namespace Encoder

/-- A new encoder: only the reserved atom has been handed out. -/
def empty : Encoder := {}

/-- The number of atoms handed out so far. -/
def atomCount (encoder : Encoder) : Nat := encoder.supply.size

/-! ## Failing -/

/-- Fail with a violation. -/
def refuse {α : Type} (cause : Violation) : Encode α := throw (.violation cause)

/-- Fail with a fault. -/
def collapse {α : Type} (cause : Fault) : Encode α := throw (.fault cause)

/-- Refuse a step that the window does not show. -/
def checkStep (window : Window) (step : Nat) : Encode Unit :=
  match window.check step with
  | .ok () => pure ()
  | .error cause => refuse cause

theorem checkStep_of_le {window : Window} {step : Nat} (h : step ≤ window.horizon) :
    checkStep window step = pure () := by
  unfold checkStep Window.check
  rw [if_neg (Nat.not_lt_of_le h)]

theorem checkStep_of_lt {window : Window} {step : Nat} (h : window.horizon < step) :
    checkStep window step = refuse (.outOfWindow step (some window.horizon)) := by
  unfold checkStep Window.check
  rw [if_pos h]

/-! ## Numbering and atoms -/

/-- Number a formula and all its parts. -/
def register (f : Formula) : Encode FormulaId :=
  modifyGet fun encoder =>
    let (id, store) := encoder.store.intern f
    (id, { encoder with store := store })

/-- The key of a formula at a step. -/
def keyOf (f : Formula) (step : Nat) : Encode Key := do
  let id ← register f
  return ⟨id, step⟩

/-- Hand out an atom. -/
def fresh [Arithmetic] : Encode Lit :=
  modifyGet fun encoder =>
    let (lit, supply) := encoder.supply.fresh
    (lit, { encoder with supply := supply })

/-! ## Rules -/

/-- A rule without the constants in its body; nothing if the body is false. -/
def simplify? (rule : Rule) : Option Rule :=
  if Lit.falsity ∈ rule.body then none
  else some { rule with body := rule.body.filter fun l => l ≠ Lit.truth }

/-- Emit a rule, simplified. -/
def emit (rule : Rule) : Encode Unit :=
  modify fun encoder =>
    match simplify? rule with
    | some rule => { encoder with rules := encoder.rules ++ [rule] }
    | none => encoder

/-- Emit several rules in order. -/
def emitAll (rules : List Rule) : Encode Unit := rules.forM emit

/-- Take away the rules emitted so far. -/
def takeRules : Encode (List Rule) :=
  modifyGet fun encoder => (encoder.rules, { encoder with rules := [] })

/-! ## Representatives -/

/-- The literal that represents a key, if it has one. -/
def lookup [Arithmetic] (key : Key) : Encode (Option Lit) :=
  modifyGet fun encoder =>
    let (lit, cache) := encoder.cache.lookup key
    (lit, { encoder with cache := cache })

/-- The literal of a key, created if need be, and whether it was created. -/
def getOrCreate [Arithmetic] (key : Key) : Encode (Lit × Bool) :=
  modifyGet fun encoder =>
    let (answer, cache, supply) := encoder.cache.getOrCreate key encoder.supply
    (answer, { encoder with cache := cache, supply := supply })

/-- Fail if the literal of a key is not new. -/
def checkNew (key : Key) (isNew : Bool) : Encode Unit :=
  if isNew then pure () else collapse (.definedTwice key)

/-- Create the atom that defines a key, and let it be chosen freely: the
constraints that follow leave it one value. -/
def define [Arithmetic] (key : Key) : Encode Lit := do
  let (lit, isNew) ← getOrCreate key
  checkNew key isNew
  emit (.choice lit.atom)
  return lit

/-- Make a host literal equal to a literal. -/
def tieHost (host lit : Lit) : Encode Unit := do
  emit (.choice host.atom)
  emitAll (Rule.equal host lit)

/-- Let a key be represented by a literal.  A host literal that was bound to the
key is tied to the literal and represents the key instead. -/
def share [Arithmetic] (key : Key) (lit : Lit) : Encode Lit := do
  match (← get).cache.share key lit with
  | .error cause => collapse cause
  | .ok ((representative, bound), cache) =>
    modify fun encoder => { encoder with cache := cache }
    if bound then tieHost representative lit else pure ()
    return representative

/-! ## Ground atoms -/

/-- The literal of the atom with the opposite classical sign at a step, if both
are in use. -/
def opposite? (encoder : Encoder) (f : Formula) (step : Nat) : Option Lit :=
  match f with
  | .atom name args positive =>
    match encoder.store.find? (.atom name args !positive) with
    | some id => encoder.ground.get? ⟨id, step⟩
    | none => none
  | _ => none

/-- Enter a ground atom. -/
def enterGround (key : Key) (lit : Lit) : Encode Unit := do
  match (← get).ground.insert key lit with
  | .error cause => collapse cause
  | .ok ground => modify fun encoder => { encoder with ground := ground }

/-- Exclude the atom of the opposite classical sign at a step, if it is in use
there. -/
def excludeOpposite (f : Formula) (step : Nat) (lit : Lit) : Encode Unit := do
  match opposite? (← get) f step with
  | some other => emit (.constraint [lit, other])
  | none => pure ()

/-- The literal of an atom at a step.  A new one excludes the atom of the opposite
classical sign. -/
def groundAtom [Arithmetic] (f : Formula) (step : Nat) : Encode Lit := do
  let key ← keyOf f step
  match (← get).ground.get? key with
  | some lit => return lit
  | none =>
    let lit ← fresh
    enterGround key lit
    excludeOpposite f step lit
    return lit

/-! ## The edge -/

/-- Open a boundary. -/
def openBoundary (boundary : Boundary) : Encode Unit :=
  modify fun encoder => { encoder with edge := encoder.edge.openBoundary boundary }

/-- Postpone a requirement. -/
def defer (requirement : Deferred) : Encode Unit :=
  modify fun encoder => { encoder with edge := encoder.edge.defer requirement }

end Encoder
end TemporalHorizon

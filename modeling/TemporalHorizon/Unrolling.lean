import TemporalHorizon.Encoder.Advance
import TemporalHorizon.Theory

/-!
# Unrolling a theory

An unrolling grows the horizon of a theory one step at a time.  Each extension
returns a batch: the rules of the new step, the external atoms that are free now
and those that have been settled.  A batch is never taken back; later steps only
add rules.  At any time further formulas can be encoded or required at a reached
step, and the edge can be declared the last step.

A formula of the final stage is required at every step under the guard that the
step is the last one, and once more without it when the horizon is closed.
-/

namespace TemporalHorizon

/-- The outcome of one extension, or of closing the horizon. -/
structure Batch where
  step : Nat
  rules : List Rule
  /-- The external atoms that are free after this batch. -/
  externals : List External
  /-- The external atoms that were settled by this batch. -/
  released : List Lit
  deriving DecidableEq

/-- The lines of a batch: its step, its rules, the free externals and the settled
ones. -/
def Batch.lines (batch : Batch) : List String :=
  ("% step " ++ toString batch.step) ::
    (batch.rules.map Rule.text ++ batch.externals.map External.text ++
      batch.released.map fun lit => "#release " ++ lit.text ++ ".")

/-- The text of a batch: its lines, each with its end. -/
def Batch.text (batch : Batch) : String :=
  String.join (batch.lines.map fun line => line ++ "\n")

/-- A theory that is being unrolled. -/
structure Unrolling where
  theory : Theory
  /-- Keep a copy of every batch. -/
  recordHistory : Bool := true
  encoder : Encoder := .empty
  /-- The last reached step. -/
  edge : Option Instant := none
  history : List Batch := []
  deriving DecidableEq

/-- A computation of an unrolling.  Like the encoder's, it keeps its state when it
fails. -/
abbrev Unroll := EStateM Failure Unrolling

namespace Unrolling

/-- The encoder that has numbered the formulas of a theory, and the constant for
the last step if a formula of the final stage needs it. -/
def startEncoder (theory : Theory) : Encoder :=
  let formulas := theory.formulas.map Prod.snd ++
    (if theory.finals.isEmpty then [] else [Formula.final])
  { store := formulas.foldl (fun store f => (store.intern f).2) Store.empty }

/-- Start to unroll a theory, if it is accepted. -/
def start (theory : Theory) (recordHistory : Bool) : Except Violation Unrolling :=
  match Theory.validateAll theory.formulas with
  | .error cause => .error cause
  | .ok () =>
    .ok { theory := theory, recordHistory := recordHistory, encoder := startEncoder theory }

theorem start_eq_ok_iff {theory : Theory} {recordHistory : Bool} {unrolling : Unrolling} :
    start theory recordHistory = .ok unrolling ↔
      Theory.validateAll theory.formulas = .ok () ∧ unrolling =
        { theory := theory, recordHistory := recordHistory, encoder := startEncoder theory } := by
  unfold start
  constructor
  · intro h
    split at h
    · cases h
    · next hvalid =>
      cases h
      exact ⟨hvalid, rfl⟩
  · rintro ⟨hvalid, rfl⟩
    rw [hvalid]

/-- The index of the last reached step. -/
def horizon? (unrolling : Unrolling) : Option Nat := unrolling.edge.map Instant.index

/-- Whether the last reached step is the last of all. -/
def isClosed (unrolling : Unrolling) : Bool :=
  match unrolling.edge with
  | some edge => edge.last
  | none => false

/-- The name of a ground atom at its step, if the program atom is one. -/
def describe? (encoder : Encoder) (atom : Nat) : Option String := do
  let key ← encoder.ground.owner? atom
  let f ← encoder.store.formula? key.formula
  return f.text ++ "@" ++ toString key.step

/-! ## Computations -/

/-- Fail with a violation. -/
def refuse {α : Type} (cause : Violation) : Unroll α := throw (.violation cause)

/-- Run a computation of the encoder. -/
def withEncoder {α : Type} (action : Encode α) : Unroll α := fun unrolling =>
  match action unrolling.encoder with
  | .ok value encoder => .ok value { unrolling with encoder := encoder }
  | .error failure encoder => .error failure { unrolling with encoder := encoder }

/-- Pass on the refusal of a check. -/
def ensure (check : Except Violation Unit) : Unroll Unit :=
  match check with
  | .ok () => pure ()
  | .error cause => refuse cause

/-- Keep a batch, if batches are kept. -/
def record (batch : Batch) : Unroll Unit :=
  modify fun unrolling =>
    if unrolling.recordHistory then { unrolling with history := unrolling.history ++ [batch] }
    else unrolling

/-- Require the formulas of the final stage under the guard that this is the last
step. -/
def requireFinals [Arithmetic] (theory : Theory) (window : Window) (step : Nat) : Encode Unit := do
  let guard ← Encoder.encode window .final step
  theory.finals.forM fun f => Encoder.require (window.withStage .final) f step [guard]

/-- What the encoder does when a step is reached: settle what was waiting for it,
require the formulas of its stages, and require those of the final stage in case
this is the last step. -/
def reachStep [Arithmetic] (theory : Theory) (step : Nat) : Encode (List Lit) := do
  let window : Window := ⟨step, false, .always⟩
  let released ← Encoder.resolveBoundaries window step
  Encoder.runDeferred window step
  Encoder.advanceInstances window step
  (theory.current ⟨step, false⟩).forM fun (stage, f) =>
    Encoder.require (window.withStage stage) f step []
  if theory.finals.isEmpty then pure () else requireFinals theory window step
  return released

/-- Reach the next step. -/
def extend [Arithmetic] : Unroll Batch := do
  let unrolling ← get
  match unrolling.edge with
  | some ⟨last, true⟩ => refuse (.horizonClosed last)
  | _ =>
    let step := match unrolling.horizon? with
      | some horizon => horizon + 1
      | none => 0
    let released ← withEncoder (reachStep unrolling.theory step)
    modify fun unrolling => { unrolling with edge := some ⟨step, false⟩ }
    let rules ← withEncoder Encoder.takeRules
    let batch : Batch := ⟨step, rules, (← get).encoder.edge.externals, released⟩
    record batch
    return batch

/-- What the encoder does when a step turns out to be the last. -/
def closeStep [Arithmetic] (theory : Theory) (step : Nat) : Encode (List External) := do
  theory.finals.forM fun f => Encoder.require ⟨step, true, .final⟩ f step []
  Encoder.close

/-- Refuse to close another step than the edge. -/
def checkEdge (edge : Option Instant) (step : Nat) : Except Violation Unit :=
  if edge = some ⟨step, false⟩ then .ok () else .error (.notAtEdge step (edge.map Instant.index))

/-- Refuse to end with externals that are still open. -/
def checkSettled (edge : Edge) (step : Nat) : Except Violation Unit :=
  if edge.externals.isEmpty then .ok () else .error (.openExternals edge.externals.length step)

/-- Declare the edge to be the last step. -/
def close [Arithmetic] (step : Nat) : Unroll Batch := do
  let unrolling ← get
  match unrolling.edge with
  | some ⟨last, true⟩ => refuse (.horizonClosed last)
  | edge =>
    ensure (checkEdge edge step)
    let fixed ← withEncoder (closeStep unrolling.theory step)
    modify fun unrolling => { unrolling with edge := some ⟨step, true⟩ }
    ensure (checkSettled (← get).encoder.edge step)
    let rules ← withEncoder Encoder.takeRules
    let batch : Batch := ⟨step, rules, [], fixed.map External.lit⟩
    record batch
    return batch

/-- The window of the reached steps. -/
def window : Unroll Window := do
  match (← get).edge with
  | some edge => return ⟨edge.index, edge.last, .always⟩
  | none => refuse (.outOfWindow 0 none)

/-- The literal that is equivalent to a formula at a reached step, and the rules
that make it so. -/
def encode [Arithmetic] (f : Formula) (step : Nat) : Unroll (Lit × List Rule) := do
  ensure (validate .always f)
  let window ← window
  ensure (window.check step)
  let lit ← withEncoder (Encoder.encode window f step)
  return (lit, ← withEncoder Encoder.takeRules)

/-- The rules that make a formula hold at a reached step. -/
def require [Arithmetic] (f : Formula) (step : Nat) : Unroll (List Rule) := do
  ensure (validate .always f)
  let window ← window
  ensure (window.check step)
  withEncoder (Encoder.require window f step [])
  withEncoder Encoder.takeRules

/-- Let a host literal represent a formula at a step where it has no literal yet.
The rules tie the host literal to an atom; for other formulas that happens when
they are encoded. -/
def bind [Arithmetic] (f : Formula) (step : Nat) (host : Lit) : Unroll (List Rule) := do
  ensure (validate .always f)
  withEncoder (Encoder.bind f step host)
  withEncoder Encoder.takeRules

/-- An atom for the host. -/
def newLiteral [Arithmetic] : Unroll Lit := withEncoder Encoder.fresh

end Unrolling
end TemporalHorizon

import TemporalHorizon.Demo.Options
import TemporalHorizon.Report

/-!
# Running the demonstration

A run shows every batch of the unrolling, the names of the ground atoms, a few
counts and, if asked, the stable models of all rules with every underived ground
atom left open.
-/

namespace TemporalHorizon
namespace Demo

/-- Reach the given number of steps, and close the horizon if asked. -/
def unroll (options : Options) : Unroll Unit := do
  (List.range options.steps).forM fun _ => do
    let _ ← Unrolling.extend
  if options.close && 0 < options.steps then
    let _ ← Unrolling.close (options.steps - 1)

/-- The lines that name the ground atoms. -/
def atomLines (encoder : Encoder) : List String :=
  (List.range encoder.atomCount).filterMap fun i =>
    (Unrolling.describe? encoder (i + 1)).map fun name =>
      "x" ++ toString (i + 1) ++ " = " ++ name

/-- The line of a model: its number and the names of its ground atoms, sorted. -/
def modelLine (encoder : Encoder) (number : Nat) (model : Model) : String :=
  let names := model.atoms.filterMap (Unrolling.describe? encoder)
  "model #" ++ toString number ++ ": " ++ Text.joined " " (Ordered.ofList Ordered.byText names)

/-- The lines on the stable models, or a warning if there are too many candidates
to search. -/
def modelLines (unrolling : Unrolling) : List String :=
  let encoder := unrolling.encoder
  let program := encoder.program (unrolling.history.flatMap Batch.rules) true
  match program.models with
  | .ok models =>
    ("Total " ++ toString models.length ++ " stable model(s)") ::
      models.zipIdx.map fun entry => modelLine encoder (entry.2 + 1) entry.1
  | .error _ =>
    ["[WARN] " ++ toString program.candidates.length ++
      " candidate atoms, too many to enumerate (at most " ++
      toString Program.maxCandidates ++ ")"]

/-- The lines of a run after its options. -/
def report (options : Options) (unrolling : Unrolling) : List String :=
  let encoder := unrolling.encoder
  unrolling.history.flatMap Batch.lines ++ ["% atoms"] ++ atomLines encoder ++
    ["carriers: " ++ toString encoder.carriers.length,
      "cache hits: " ++ toString encoder.cache.hits,
      "cache misses: " ++ toString encoder.cache.misses] ++
    (if options.models then modelLines unrolling else [])

/-- The outcome of a run. -/
structure Outcome where
  exitCode : Nat
  lines : List String
  deriving DecidableEq

/-- Run the demonstration.  Arguments that cannot be read end it with code 2 and
without output, a failure with code 1. -/
def run (args : List String) : Outcome :=
  match Options.parse? args with
  | none => ⟨2, []⟩
  | some options =>
    match Unrolling.start options.formula.theory true with
    | .error _ => ⟨1, [options.line]⟩
    | .ok unrolling =>
      match unroll options unrolling with
      | .ok () unrolling => ⟨0, options.line :: report options unrolling⟩
      | .error _ _ => ⟨1, [options.line]⟩

end Demo
end TemporalHorizon

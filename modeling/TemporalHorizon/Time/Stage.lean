/-!
# Stages and instants

A formula of a theory is attached to a stage, which says at which steps it is
required: at step 0, at every later step, at every step, or at the last one.  An
instant is a step that has been reached, together with the knowledge whether it
is the last step; its stages follow from these two.
-/

namespace TemporalHorizon

/-- When a formula of a theory is required. -/
inductive Stage where
  /-- At step 0 only. -/
  | initial
  /-- At every step after step 0. -/
  | dynamic
  /-- At every step. -/
  | always
  /-- At the last step, once it is known. -/
  | final
  deriving DecidableEq

namespace Stage

/-- All stages, in the order in which they are listed. -/
def all : List Stage := [.initial, .dynamic, .always, .final]

theorem mem_all (stage : Stage) : stage ∈ all := by
  cases stage <;> simp [all]

/-- The name of a stage. -/
def text : Stage → String
  | .initial => "initial"
  | .dynamic => "dynamic"
  | .always => "always"
  | .final => "final"

/-- Whether formulas of this stage may look at later steps.  Those of the last
step may not: there is none. -/
def licensesFuture : Stage → Bool
  | .final => false
  | _ => true

end Stage

/-- A set of stages. -/
structure StageSet where
  /-- Membership. -/
  contains : Stage → Bool

namespace StageSet

/-- No stage. -/
def empty : StageSet := ⟨fun _ => false⟩

/-- The set with one more stage. -/
def insert (set : StageSet) (stage : Stage) : StageSet :=
  ⟨fun other => other == stage || set.contains other⟩

/-- The members, in the order of `Stage.all`. -/
def toList (set : StageSet) : List Stage :=
  Stage.all.filter set.contains

@[simp] theorem contains_empty (stage : Stage) : empty.contains stage = false := rfl

@[simp] theorem contains_insert (set : StageSet) (stage other : Stage) :
    (set.insert stage).contains other = (other == stage || set.contains other) := rfl

theorem mem_toList (set : StageSet) (stage : Stage) :
    stage ∈ set.toList ↔ set.contains stage = true := by
  simp [toList, Stage.mem_all]

end StageSet

/-- A step that has been reached. -/
structure Instant where
  index : Nat
  /-- The step is known to be the last one. -/
  last : Bool := false
  deriving DecidableEq

namespace Instant

/-- The stages of an instant: always, initial or dynamic by its index, and final
if it is the last one. -/
def stages (instant : Instant) : StageSet :=
  let current := (StageSet.empty.insert .always).insert
    (if instant.index = 0 then .initial else .dynamic)
  if instant.last then current.insert .final else current

/-- The same step, now known to be the last one. -/
def finalize (instant : Instant) : Instant := { instant with last := true }

/-- The text of an instant. -/
def text (instant : Instant) : String := "@" ++ toString instant.index

theorem contains_final_stages (instant : Instant) :
    instant.stages.contains .final = instant.last := by
  cases h : instant.last <;> by_cases h0 : instant.index = 0 <;> simp [stages, h, h0]

end Instant
end TemporalHorizon

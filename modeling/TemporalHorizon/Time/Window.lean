import TemporalHorizon.Failure

/-!
# The window of reached steps

A window shows the steps from 0 to the horizon, whether a step after the horizon
can still come, and the stage on whose behalf it is looked through.  A reference
from one step to another lands on a reached step, before step 0, on a step that
is still to come, or behind the end.
-/

namespace TemporalHorizon

/-- Where a reference lands. -/
inductive Position where
  /-- On a reached step. -/
  | reached (step : Nat)
  /-- Before step 0. -/
  | beforeStart
  /-- On a step that is still to come. -/
  | pending (step : Nat)
  /-- Behind the last step; there will never be such a step. -/
  | afterEnd
  deriving DecidableEq

/-- The reached steps, as seen by a formula of one stage. -/
structure Window where
  horizon : Nat
  closed : Bool
  stage : Stage
  deriving DecidableEq

namespace Window

/-- The same steps seen by a formula of another stage. -/
def withStage (window : Window) (stage : Stage) : Window := { window with stage := stage }

@[simp] theorem withStage_horizon (window : Window) (stage : Stage) :
    (window.withStage stage).horizon = window.horizon := rfl

@[simp] theorem withStage_closed (window : Window) (stage : Stage) :
    (window.withStage stage).closed = window.closed := rfl

/-- Whether the step is the last one of a closed horizon. -/
def isLast (window : Window) (step : Nat) : Bool :=
  window.closed && step == window.horizon

/-- Refuse a step that has not been reached. -/
def check (window : Window) (step : Nat) : Except Violation Unit :=
  if window.horizon < step then .error (.outOfWindow step (some window.horizon)) else .ok ()

/-- Where the number of a step lies. -/
def locate (window : Window) (target : Int) : Position :=
  if target < 0 then .beforeStart
  else if target.toNat ≤ window.horizon then .reached target.toNat
  else if window.closed then .afterEnd
  else .pending target.toNat

/-- The position `offset` steps away from a step. -/
def shift [Arithmetic] (window : Window) (step : Nat) (offset : Int) : Position :=
  window.locate (Arithmetic.signed step + offset)

@[simp] theorem shift_withStage [Arithmetic] (window : Window) (stage : Stage) (step : Nat)
    (offset : Int) : (window.withStage stage).shift step offset = window.shift step offset := rfl

/-- The position `offset` steps away from a reached step.  A stage that does not
look ahead refuses a positive offset. -/
def resolve [Arithmetic] (window : Window) (step : Nat) (offset : Int) :
    Except Violation Position :=
  match window.check step with
  | .error cause => .error cause
  | .ok () =>
    if 0 < offset && !window.stage.licensesFuture then
      .error (.futureReference offset step window.stage)
    else .ok (window.shift step offset)

/-! ## Exact steps -/

/-- All steps that the window shows are exact. -/
def InRange [Arithmetic] (window : Window) : Prop :=
  Arithmetic.Fits window.horizon

instance [Arithmetic] : DecidablePred InRange := fun window =>
  inferInstanceAs (Decidable (Arithmetic.Fits window.horizon))

theorem InRange.withStage [Arithmetic] {window : Window} (hw : window.InRange) (stage : Stage) :
    (window.withStage stage).InRange := hw

/-- The steps that the window shows are exact. -/
theorem InRange.fits [Arithmetic] {window : Window} (hw : window.InRange) {step : Nat}
    (hs : step ≤ window.horizon) : Arithmetic.Fits step :=
  Arithmetic.fitsNumbers_of_le hw (Nat.succ_le_succ hs)

theorem shift_eq [Arithmetic] {window : Window} (hw : window.InRange) {step : Nat}
    (hs : step ≤ window.horizon) (offset : Int) :
    window.shift step offset = window.locate (step + offset) := by
  rw [shift, Arithmetic.signed_eq hw (Nat.lt_succ_of_le hs)]

/-- Where the step after a given one lies. -/
def next (window : Window) (step : Nat) : Position :=
  if step + 1 ≤ window.horizon then .reached (step + 1)
  else if window.closed then .afterEnd
  else .pending (step + 1)

theorem locate_succ (window : Window) (step : Nat) :
    window.locate (step + 1) = window.next step := by
  show window.locate ((step + 1 : Nat) : Int) = window.next step
  unfold next locate
  rw [if_neg (by omega : ¬ ((step + 1 : Nat) : Int) < 0), Int.toNat_natCast]

/-- Where the step after is reached. -/
theorem eq_of_locate_succ {window : Window} {step after : Nat}
    (h : window.locate (step + 1) = .reached after) : after = step + 1 ∧ after ≤ window.horizon := by
  rw [locate_succ, next] at h
  split at h
  · next hle => exact ⟨(Position.reached.inj h).symm, (Position.reached.inj h) ▸ hle⟩
  · split at h <;> cases h

/-- Where the step before is reached. -/
theorem eq_of_locate_pred {window : Window} {step before : Nat}
    (h : window.locate (step + -1) = .reached before) :
    step = before + 1 ∧ before ≤ window.horizon := by
  unfold locate at h
  split at h
  · cases h
  · split at h
    · next hneg hle =>
      have hback : ((step : Int) + -1).toNat = before := Position.reached.inj h
      omega
    · split at h <;> cases h

section Exact

attribute [local instance] Arithmetic.exact

theorem inRange (window : Window) : window.InRange := rfl

/-- An offset of one leads to the step after. -/
theorem shift_one (window : Window) (step : Nat) : window.shift step 1 = window.next step :=
  window.locate_succ step

theorem eq_of_shift_one {window : Window} {step after : Nat}
    (h : window.shift step 1 = .reached after) : after = step + 1 ∧ after ≤ window.horizon :=
  eq_of_locate_succ h

/-- Step 0 has no step before it. -/
theorem shift_zero_back (window : Window) : window.shift 0 (-1) = .beforeStart := rfl

/-- An offset of minus one leads to the step before. -/
theorem shift_succ_back {window : Window} {step : Nat} (h : step ≤ window.horizon) :
    window.shift (step + 1) (-1) = .reached step := by
  show window.locate (((step + 1 : Nat) : Int) + -1) = .reached step
  have hback : ((step + 1 : Nat) : Int) + -1 = (step : Nat) := by omega
  rw [hback, locate, if_neg (by omega), Int.toNat_natCast, if_pos h]

theorem eq_of_shift_back {window : Window} {step before : Nat}
    (h : window.shift step (-1) = .reached before) :
    step = before + 1 ∧ before ≤ window.horizon :=
  eq_of_locate_pred h

end Exact

end Window
end TemporalHorizon

import Mathlib.Logic.Relation
import TemporalHorizon.Formula.Unfolding

/-!
# Truth in a finite trace

A trace has the steps from 0 to its last one, and says which atoms hold at which
of them.  This module says when a formula holds at a step of a trace and between
which steps a path can be run.  It speaks of whole traces and knows nothing of
horizons that move, literals or rules: it is what those are measured against.

The main statements are the unfolding laws.  A fixpoint operator holds at a step
by what holds there and by what itself has at the adjacent step, and a dynamic
formula holds exactly if one unfolding over the head of its path does.
-/

namespace TemporalHorizon

/-- A finite trace. -/
structure Trace where
  /-- The last step. -/
  last : Nat
  /-- Whether an atom, given by name, arguments and classical sign, holds at a
  step. -/
  atomHolds : String → List Term → Bool → Nat → Prop

/-- The truth of a connective of two propositions. -/
def Connective.Holds (a b : Prop) : Connective → Prop
  | .and => a ∧ b
  | .or => a ∨ b
  | .implies => a → b
  | .implied => b → a
  | .equiv => (a ↔ b)

/-- The truth of a fixpoint operator at a step, over the steps up to a last one,
from the truth of its operands. -/
def Fixpoint.Holds (last : Nat) (left right : Nat → Prop) (step : Nat) : Fixpoint → Prop
  | .since => ∃ i, i ≤ step ∧ right i ∧ ∀ j, i < j → j ≤ step → left j
  | .trigger => ∀ i, i ≤ step → right i ∨ ∃ j, i < j ∧ j ≤ step ∧ left j
  | .untl => ∃ i, step ≤ i ∧ i ≤ last ∧ right i ∧ ∀ j, step ≤ j → j < i → left j
  | .release => ∀ i, step ≤ i → i ≤ last → right i ∨ ∃ j, step ≤ j ∧ j < i ∧ left j

mutual

/-- Whether a formula holds at a step of a trace.  A missing left operand of a
fixpoint operator is true for a least fixpoint and false for a greatest one. -/
def Formula.Holds (trace : Trace) : Formula → Nat → Prop
  | .atom name args positive => trace.atomHolds name args positive
  | .bool value => fun _ => value = true
  | .initial => fun step => step = 0
  | .final => fun step => step = trace.last
  | .not arg => fun step => ¬ arg.Holds trace step
  | .binary op lhs rhs => fun step => op.Holds (lhs.Holds trace step) (rhs.Holds trace step)
  | .previous arg weak => fun step =>
    if step = 0 then weak = true else arg.Holds trace (step - 1)
  | .next arg weak => fun step =>
    if step < trace.last then arg.Holds trace (step + 1) else weak = true
  | .initially arg => fun _ => arg.Holds trace 0
  | .temporal op lhs rhs => fun step =>
    op.Holds trace.last (lhs.Holds trace) (rhs.Holds trace) step
  | .modal op arg => fun step =>
    op.Holds trace.last (fun _ => op.isGreatest = false) (arg.Holds trace) step
  | .dynamic .diamond path arg => fun step => ∃ i, path.Runs trace step i ∧ arg.Holds trace i
  | .dynamic .box path arg => fun step => ∀ i, path.Runs trace step i → arg.Holds trace i

/-- Whether a path can be run from one step of a trace to another. -/
def Path.Runs (trace : Trace) : Path → Nat → Nat → Prop
  | .skip => fun i j => j = i + 1 ∧ i < trace.last
  | .test arg => fun i j => j = i ∧ arg.Holds trace i
  | .seq first second => fun i j => ∃ k, first.Runs trace i k ∧ second.Runs trace k j
  | .choice lhs rhs => fun i j => lhs.Runs trace i j ∨ rhs.Runs trace i j
  | .star body => Relation.ReflTransGen (body.Runs trace)

end

namespace Fixpoint

variable {last step : Nat} {left right : Nat → Prop}

/-! ## Unfolding a fixpoint operator along the trace -/

theorem holds_since_zero : since.Holds last left right 0 ↔ right 0 := by
  constructor
  · rintro ⟨i, hi, hr, _⟩
    obtain rfl : i = 0 := by omega
    exact hr
  · intro hr
    exact ⟨0, Nat.le_refl 0, hr, fun j h h' => by omega⟩

theorem holds_since_succ :
    since.Holds last left right (step + 1) ↔
      right (step + 1) ∨ (left (step + 1) ∧ since.Holds last left right step) := by
  constructor
  · rintro ⟨i, hi, hr, hl⟩
    by_cases h : i = step + 1
    · exact .inl (h ▸ hr)
    · exact .inr ⟨hl _ (by omega) (Nat.le_refl _), i, by omega, hr,
        fun j hij hj => hl j hij (by omega)⟩
  · rintro (hr | ⟨hl, i, hi, hr, hls⟩)
    · exact ⟨step + 1, Nat.le_refl _, hr, fun j h h' => by omega⟩
    · refine ⟨i, by omega, hr, fun j hij hj => ?_⟩
      by_cases h : j = step + 1
      · exact h ▸ hl
      · exact hls j hij (by omega)

theorem holds_trigger_zero : trigger.Holds last left right 0 ↔ right 0 := by
  constructor
  · intro h
    rcases h 0 (Nat.le_refl 0) with hr | ⟨j, hj, hj', _⟩
    · exact hr
    · omega
  · intro hr i hi
    obtain rfl : i = 0 := by omega
    exact .inl hr

theorem holds_trigger_succ :
    trigger.Holds last left right (step + 1) ↔
      right (step + 1) ∧ (left (step + 1) ∨ trigger.Holds last left right step) := by
  constructor
  · intro h
    constructor
    · rcases h (step + 1) (Nat.le_refl _) with hr | ⟨j, hj, hj', _⟩
      · exact hr
      · omega
    · by_cases hl : left (step + 1)
      · exact .inl hl
      · refine .inr fun i hi => ?_
        rcases h i (by omega) with hr | ⟨j, hij, hj, hlj⟩
        · exact .inl hr
        · have : j ≠ step + 1 := fun e => hl (e ▸ hlj)
          exact .inr ⟨j, hij, by omega, hlj⟩
  · rintro ⟨hr, hl⟩ i hi
    by_cases h : i = step + 1
    · exact .inl (h ▸ hr)
    · rcases hl with hl | ht
      · exact .inr ⟨step + 1, by omega, Nat.le_refl _, hl⟩
      · rcases ht i (by omega) with hri | ⟨j, hij, hj, hlj⟩
        · exact .inl hri
        · exact .inr ⟨j, hij, by omega, hlj⟩

theorem holds_untl_last : untl.Holds last left right last ↔ right last := by
  constructor
  · rintro ⟨i, hi, hi', hr, _⟩
    obtain rfl : i = last := by omega
    exact hr
  · intro hr
    exact ⟨last, Nat.le_refl _, Nat.le_refl _, hr, fun j h h' => by omega⟩

theorem holds_untl_of_lt (h : step < last) :
    untl.Holds last left right step ↔
      right step ∨ (left step ∧ untl.Holds last left right (step + 1)) := by
  constructor
  · rintro ⟨i, hi, hi', hr, hl⟩
    by_cases e : i = step
    · exact .inl (e ▸ hr)
    · exact .inr ⟨hl _ (Nat.le_refl _) (by omega), i, by omega, hi', hr,
        fun j hj hji => hl j (by omega) hji⟩
  · rintro (hr | ⟨hl, i, hi, hi', hr, hls⟩)
    · exact ⟨step, Nat.le_refl _, by omega, hr, fun j h h' => by omega⟩
    · refine ⟨i, by omega, hi', hr, fun j hj hji => ?_⟩
      by_cases e : j = step
      · exact e ▸ hl
      · exact hls j (by omega) hji

theorem holds_release_last : release.Holds last left right last ↔ right last := by
  constructor
  · intro h
    rcases h last (Nat.le_refl _) (Nat.le_refl _) with hr | ⟨j, hj, hj', _⟩
    · exact hr
    · omega
  · intro hr i hi hi'
    obtain rfl : i = last := by omega
    exact .inl hr

theorem holds_release_of_lt (h : step < last) :
    release.Holds last left right step ↔
      right step ∧ (left step ∨ release.Holds last left right (step + 1)) := by
  constructor
  · intro hrel
    constructor
    · rcases hrel step (Nat.le_refl _) (by omega) with hr | ⟨j, hj, hj', _⟩
      · exact hr
      · omega
    · by_cases hl : left step
      · exact .inl hl
      · refine .inr fun i hi hi' => ?_
        rcases hrel i (by omega) hi' with hr | ⟨j, hj, hji, hlj⟩
        · exact .inl hr
        · have : j ≠ step := fun e => hl (e ▸ hlj)
          exact .inr ⟨j, by omega, hji, hlj⟩
  · rintro ⟨hr, hl⟩ i hi hi'
    by_cases e : i = step
    · exact .inl (e ▸ hr)
    · rcases hl with hl | hrel
      · exact .inr ⟨step, Nat.le_refl _, by omega, hl⟩
      · rcases hrel i (by omega) hi' with hri | ⟨j, hj, hji, hlj⟩
        · exact .inl hri
        · exact .inr ⟨j, by omega, hji, hlj⟩

end Fixpoint

namespace Formula

/-! ## Unfolding a dynamic formula along its path -/

/-- One unfolding over the head of the path keeps the truth of a diamond. -/
theorem holds_unfoldPath_diamond (trace : Trace) (path : Path) (arg : Formula) (step : Nat) :
    (unfoldPath .diamond path arg).Holds trace step ↔
      (diamond path arg).Holds trace step := by
  cases path with
  | skip =>
    simp only [unfoldPath, Modality.afterEnd, diamond, Holds, Path.Runs]
    by_cases h : step < trace.last <;> simp [h]
  | test f =>
    simp only [unfoldPath, Modality.guard, diamond, Holds, Path.Runs, Connective.Holds]
    constructor
    · rintro ⟨hf, h⟩
      exact ⟨step, ⟨rfl, hf⟩, h⟩
    · rintro ⟨j, ⟨rfl, hf⟩, h⟩
      exact ⟨hf, h⟩
  | seq first second =>
    simp only [unfoldPath, diamond, Holds, Path.Runs]
    constructor
    · rintro ⟨k, hk, j, hj, h⟩
      exact ⟨j, ⟨k, hk, hj⟩, h⟩
    · rintro ⟨j, ⟨k, hk, hj⟩, h⟩
      exact ⟨k, hk, j, hj, h⟩
  | choice lhs rhs =>
    simp only [unfoldPath, Modality.junction, diamond, Holds, Path.Runs, Connective.Holds]
    constructor
    · rintro (⟨j, hj, h⟩ | ⟨j, hj, h⟩)
      · exact ⟨j, .inl hj, h⟩
      · exact ⟨j, .inr hj, h⟩
    · rintro ⟨j, hj | hj, h⟩
      · exact .inl ⟨j, hj, h⟩
      · exact .inr ⟨j, hj, h⟩
  | star body =>
    simp only [unfoldPath, Modality.junction, diamond, Holds, Path.Runs, Connective.Holds]
    constructor
    · rintro (h | ⟨k, hk, j, hj, h⟩)
      · exact ⟨step, .refl, h⟩
      · exact ⟨j, .head hk hj, h⟩
    · rintro ⟨j, hj, h⟩
      rcases Relation.ReflTransGen.cases_head hj with rfl | ⟨k, hk, hkj⟩
      · exact .inl h
      · exact .inr ⟨k, hk, j, hkj, h⟩

/-- One unfolding over the head of the path keeps the truth of a box. -/
theorem holds_unfoldPath_box (trace : Trace) (path : Path) (arg : Formula) (step : Nat) :
    (unfoldPath .box path arg).Holds trace step ↔ (box path arg).Holds trace step := by
  cases path with
  | skip =>
    simp only [unfoldPath, Modality.afterEnd, box, Holds, Path.Runs]
    by_cases h : step < trace.last <;> simp [h]
  | test f =>
    simp only [unfoldPath, Modality.guard, box, Holds, Path.Runs, Connective.Holds]
    constructor
    · rintro h j ⟨rfl, hf⟩
      exact h hf
    · exact fun h hf => h step ⟨rfl, hf⟩
  | seq first second =>
    simp only [unfoldPath, box, Holds, Path.Runs]
    constructor
    · rintro h j ⟨k, hk, hj⟩
      exact h k hk j hj
    · exact fun h k hk j hj => h j ⟨k, hk, hj⟩
  | choice lhs rhs =>
    simp only [unfoldPath, Modality.junction, box, Holds, Path.Runs, Connective.Holds]
    constructor
    · rintro ⟨hl, hr⟩ j (hj | hj)
      · exact hl j hj
      · exact hr j hj
    · exact fun h => ⟨fun j hj => h j (.inl hj), fun j hj => h j (.inr hj)⟩
  | star body =>
    simp only [unfoldPath, Modality.junction, box, Holds, Path.Runs, Connective.Holds]
    constructor
    · rintro ⟨h, hs⟩ j hj
      rcases Relation.ReflTransGen.cases_head hj with rfl | ⟨k, hk, hkj⟩
      · exact h
      · exact hs k hk j hkj
    · exact fun h => ⟨h step .refl, fun k hk j hj => h j (.head hk hj)⟩

end Formula
end TemporalHorizon

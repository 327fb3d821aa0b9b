import TemporalHorizon.Encoder.Depth
import TemporalHorizon.Formula.NormalForm
import TemporalHorizon.Formula.Unfolding

/-!
# The tree of requests

To answer a request for a formula at a step, the encoder asks for other formulas
at other steps.  This module states which ones, without the encoder: `requests`
lists what one answer may ask for, and `Bounded n f s` says that no chain of
requests from `f` at `s` has more than `n` members.

The main statement, `Formula.bounded_unfoldDepth`, is that the depth read off a
formula bounds its chains.  For a path it is said with the formula behind it left
open: if the chains from that formula are bounded at all steps that a run of the
path can lead to, the path adds no more than its own depth.  A path that is not
nullable leads to later steps only, and that is why a star comes to an end.
-/

namespace TemporalHorizon

/-- What an answer for a formula at a step may ask for, below a horizon. -/
def Formula.requests (horizon : Nat) (f : Formula) (step : Nat) : List (Formula × Nat) :=
  match f with
  | .atom _ _ _ | .bool _ | .initial => []
  | .final => [(Formula.hasNext, step)]
  | .not arg => [(arg, step)]
  | .binary _ lhs rhs => [(lhs, step), (rhs, step)]
  | .previous arg _ => [(arg, step - 1)]
  | .next arg _ => if step < horizon then [(arg, step + 1)] else []
  | .initially arg => [(arg, 0)]
  | .temporal op lhs rhs =>
    (if op.isFuture then [(.next f op.isGreatest, step)]
      else if step = 0 then [] else [(f, step - 1)]) ++ [(lhs, step), (rhs, step)]
  | .modal op arg =>
    (if op.isFuture then [(.next f op.isGreatest, step)]
      else if step = 0 then [] else [(f, step - 1)]) ++ [(arg, step)]
  | .dynamic modality path arg =>
    if path.isNormal then [(Formula.unfoldPath modality path arg, step)] else []

/-- Whether no chain of requests from a formula at a step has more than the given
number of members. -/
def Bounded (horizon : Nat) : Nat → Formula → Nat → Prop
  | 0, _, _ => False
  | n + 1, f, step => ∀ request ∈ f.requests horizon step, Bounded horizon n request.1 request.2

namespace Bounded

variable {horizon : Nat}

theorem succ_iff {n : Nat} {f : Formula} {step : Nat} :
    Bounded horizon (n + 1) f step ↔
      ∀ request ∈ f.requests horizon step, Bounded horizon n request.1 request.2 := Iff.rfl

theorem succ {n : Nat} {f : Formula} {step : Nat} (h : Bounded horizon n f step) :
    Bounded horizon (n + 1) f step := by
  induction n generalizing f step with
  | zero => exact h.elim
  | succ n ih => exact fun request hr => ih (h request hr)

/-- A bound may be raised. -/
theorem mono {n m : Nat} {f : Formula} {step : Nat} (h : Bounded horizon n f step)
    (hnm : n ≤ m) : Bounded horizon m f step := by
  induction m with
  | zero =>
    obtain rfl : n = 0 := by omega
    exact h
  | succ m ih =>
    by_cases e : n = m + 1
    · exact e ▸ h
    · exact (ih (by omega)).succ

/-- One member more than all requests have. -/
theorem of_requests {n m : Nat} {f : Formula} {step : Nat}
    (h : ∀ request ∈ f.requests horizon step, Bounded horizon n request.1 request.2)
    (hnm : n < m) : Bounded horizon m f step :=
  mono (n := n + 1) h hnm

theorem hasNext (step : Nat) : Bounded horizon 2 Formula.hasNext step := by
  intro request hr
  by_cases h : step < horizon
  · simp only [Formula.hasNext, Formula.requests, h, if_true, List.mem_singleton] at hr
    subst hr
    intro request hr
    simp [Formula.requests] at hr
  · simp [Formula.hasNext, Formula.requests, h] at hr

theorem binary {n : Nat} {op : Connective} {lhs rhs : Formula} {step : Nat}
    (hl : Bounded horizon n lhs step) (hr : Bounded horizon n rhs step) :
    Bounded horizon (n + 1) (.binary op lhs rhs) step := by
  rw [succ_iff]
  simp [Formula.requests, hl, hr]

/-- The bound of a next is that of its argument at the step after, if there is
one. -/
theorem next {n : Nat} {arg : Formula} {weak : Bool} {step : Nat}
    (h : step < horizon → Bounded horizon n arg (step + 1)) :
    Bounded horizon (n + 1) (.next arg weak) step := by
  rw [succ_iff]
  by_cases hs : step < horizon <;> simp [Formula.requests, hs, h]

/-- A dynamic formula has one member more than its unfolding. -/
theorem dynamic {n : Nat} {modality : Modality} {path : Path} {arg : Formula} {step : Nat}
    (h : path.isNormal → Bounded horizon n (Formula.unfoldPath modality path arg) step) :
    Bounded horizon (n + 1) (.dynamic modality path arg) step := by
  rw [succ_iff]
  by_cases hp : path.isNormal <;> simp_all [Formula.requests]

/-- A formula that asks for itself along the trace, at the step after through a
next or at the step before, and else only for formulas with a common bound. -/
theorem fixpoint {n : Nat} {f : Formula} (future weak : Bool)
    (h : ∀ step, step ≤ horizon → ∀ request ∈ f.requests horizon step,
      (future = true ∧ request = (.next f weak, step)) ∨
      (future = false ∧ 0 < step ∧ request = (f, step - 1)) ∨
      Bounded horizon n request.1 request.2)
    (step : Nat) (hs : step ≤ horizon) : Bounded horizon (n + 2 * (horizon + 1)) f step := by
  cases future with
  | true =>
    suffices key : ∀ k step, step ≤ horizon → horizon - step = k →
        Bounded horizon (n + 2 * (k + 1)) f step from
      (key _ step hs rfl).mono (by omega)
    intro k
    induction k with
    | zero =>
      intro step hs hk
      refine of_requests (n := n + 1) (fun request hq => ?_) (by omega)
      rcases h step hs request hq with ⟨_, rfl⟩ | ⟨hf, _⟩ | hb
      · exact next fun hlt => absurd hlt (by omega)
      · cases hf
      · exact hb.mono (by omega)
    | succ k ih =>
      intro step hs hk
      refine of_requests (n := n + 2 * (k + 1) + 1) (fun request hq => ?_) (by omega)
      rcases h step hs request hq with ⟨_, rfl⟩ | ⟨hf, _⟩ | hb
      · exact next fun hlt => ih (step + 1) (by omega) (by omega)
      · cases hf
      · exact hb.mono (by omega)
  | false =>
    suffices key : ∀ step, step ≤ horizon → Bounded horizon (n + step + 1) f step from
      (key step hs).mono (by omega)
    intro step
    induction step with
    | zero =>
      intro hs request hq
      rcases h 0 hs request hq with ⟨hf, _⟩ | ⟨_, hlt, _⟩ | hb
      · cases hf
      · omega
      · exact hb
    | succ step ih =>
      intro hs request hq
      rcases h (step + 1) hs request hq with ⟨hf, _⟩ | ⟨_, _, rfl⟩ | hb
      · cases hf
      · exact ih (by omega)
      · exact hb.mono (by omega)

end Bounded

/-! ## All formulas -/

theorem Formula.unfoldDepth_pos (horizon : Nat) : (f : Formula) → 0 < f.unfoldDepth horizon
  | .atom _ _ _ | .bool _ | .initial | .final | .not _ | .binary _ _ _ | .previous _ _
  | .next _ _ | .initially _ => by simp [Formula.unfoldDepth]
  | .temporal _ _ _ | .modal _ _ => by simp only [Formula.unfoldDepth]; omega
  | .dynamic _ _ arg => by
    have := arg.unfoldDepth_pos horizon
    simp only [Formula.unfoldDepth]
    omega

mutual

/-- The depth read off a formula bounds its chains of requests. -/
theorem Formula.bounded_unfoldDepth (horizon : Nat) :
    (f : Formula) → (step : Nat) → step ≤ horizon →
      Bounded horizon (f.unfoldDepth horizon) f step
  | .atom _ _ _, step, hs => by simp [Formula.unfoldDepth, Bounded, Formula.requests]
  | .bool _, step, hs => by simp [Formula.unfoldDepth, Bounded, Formula.requests]
  | .initial, step, hs => by simp [Formula.unfoldDepth, Bounded, Formula.requests]
  | .final, step, hs => by
    intro request hq
    simp only [Formula.requests, List.mem_singleton] at hq
    exact hq ▸ Bounded.hasNext step
  | .not arg, step, hs => by
    intro request hq
    simp only [Formula.requests, List.mem_singleton] at hq
    exact hq ▸ arg.bounded_unfoldDepth horizon step hs
  | .binary op lhs rhs, step, hs =>
    .binary ((lhs.bounded_unfoldDepth horizon step hs).mono (by omega))
      ((rhs.bounded_unfoldDepth horizon step hs).mono (by omega))
  | .previous arg weak, step, hs => by
    intro request hq
    simp only [Formula.requests, List.mem_singleton] at hq
    exact hq ▸ arg.bounded_unfoldDepth horizon (step - 1) (by omega)
  | .next arg weak, step, hs =>
    .next fun h => arg.bounded_unfoldDepth horizon (step + 1) (by omega)
  | .initially arg, step, hs => by
    intro request hq
    simp only [Formula.requests, List.mem_singleton] at hq
    exact hq ▸ arg.bounded_unfoldDepth horizon 0 (by omega)
  | .temporal op lhs rhs, step, hs => by
    have hl := lhs.bounded_unfoldDepth horizon
    have hr := rhs.bounded_unfoldDepth horizon
    refine Bounded.fixpoint op.isFuture op.isGreatest (fun step hs request hq => ?_) step hs
    simp only [Formula.requests, List.mem_append, List.mem_cons, List.not_mem_nil, or_false] at hq
    rcases hq with hq | rfl | rfl
    · cases hop : op.isFuture <;> by_cases h0 : step = 0 <;> simp_all
      omega
    · exact .inr (.inr ((hl step hs).mono (by omega)))
    · exact .inr (.inr ((hr step hs).mono (by omega)))
  | .modal op arg, step, hs => by
    have ha := arg.bounded_unfoldDepth horizon
    refine Bounded.fixpoint op.isFuture op.isGreatest (fun step hs request hq => ?_) step hs
    simp only [Formula.requests, List.mem_append, List.mem_singleton] at hq
    rcases hq with hq | rfl
    · cases hop : op.isFuture <;> by_cases h0 : step = 0 <;> simp_all
      omega
    · exact .inr (.inr (ha step hs))
  | .dynamic modality path arg, step, hs => by
    have ha := arg.bounded_unfoldDepth horizon
    by_cases hp : path.isNormal
    · exact path.bounded_dynamic horizon modality hp arg (arg.unfoldDepth horizon) step hs
        fun i _ hi _ => ha i hi
    · exact Bounded.of_requests (n := 0)
        (fun request hq => by simp [Formula.requests, hp] at hq) (Formula.unfoldDepth_pos horizon _)

/-- A path in normal form adds no more than its depth to a bound for the formula
behind it.  The bound is needed at later steps only if the path is not nullable. -/
theorem Path.bounded_dynamic (horizon : Nat) (modality : Modality) :
    (path : Path) → path.isNormal → (arg : Formula) → (n step : Nat) → step ≤ horizon →
      (∀ i, step ≤ i → i ≤ horizon → (path.isNullable = false → step < i) →
        Bounded horizon n arg i) →
      Bounded horizon (path.unfoldDepth horizon + n) (.dynamic modality path arg) step
  | .skip, _, arg, n, step, hs, h => by
    refine (Bounded.dynamic (n := n + 1) fun _ => Bounded.next fun hlt =>
      h (step + 1) (by omega) (by omega) (by omega)).mono ?_
    simp only [Path.unfoldDepth]
    omega
  | .test f, _, arg, n, step, hs, h => by
    have hf := f.bounded_unfoldDepth horizon step hs
    refine (Bounded.dynamic (n := f.unfoldDepth horizon + n + 1) fun _ => Bounded.binary
      (hf.mono (by omega)) ((h step (Nat.le_refl _) hs (by simp [Path.isNullable])).mono
        (by omega))).mono ?_
    simp only [Path.unfoldDepth]
    omega
  | .seq first second, hp, arg, n, step, hs, h => by
    simp only [Path.isNormal, Bool.and_eq_true] at hp
    refine (Bounded.dynamic (n := first.unfoldDepth horizon + (second.unfoldDepth horizon + n))
      fun _ => ?_).mono (by simp only [Path.unfoldDepth]; omega)
    refine first.bounded_dynamic horizon modality hp.1 (.dynamic modality second arg) _ step hs
      fun i hi hi' hmove => ?_
    refine second.bounded_dynamic horizon modality hp.2 arg n i hi' fun j hj hj' hmove' => ?_
    refine h j (by omega) hj' fun hnull => ?_
    simp only [Path.isNullable, Bool.and_eq_false_iff] at hnull
    rcases hnull with h1 | h2
    · have := hmove h1
      omega
    · have := hmove' h2
      omega
  | .choice lhs rhs, hp, arg, n, step, hs, h => by
    simp only [Path.isNormal, Bool.and_eq_true] at hp
    have hl := lhs.bounded_dynamic horizon modality hp.1 arg n step hs fun i hi hi' hmove =>
      h i hi hi' fun hnull => hmove (by simp_all [Path.isNullable])
    have hr := rhs.bounded_dynamic horizon modality hp.2 arg n step hs fun i hi hi' hmove =>
      h i hi hi' fun hnull => hmove (by simp_all [Path.isNullable])
    refine (Bounded.dynamic
      (n := lhs.unfoldDepth horizon + rhs.unfoldDepth horizon + n + 1) fun _ => Bounded.binary
        (hl.mono (by omega)) (hr.mono (by omega))).mono (by simp only [Path.unfoldDepth]; omega)
  | .star body, hp, arg, n, step, hs, h => by
    have hstar := hp
    simp only [Path.isNormal, Bool.and_eq_true, Bool.not_eq_true'] at hp
    have hbody := body.bounded_dynamic horizon modality hp.2
    have harg : ∀ i, step ≤ i → i ≤ horizon → Bounded horizon n arg i := fun i hi hi' =>
      h i hi hi' (by simp [Path.isNullable])
    -- With `k` steps left, `k + 1` rounds are enough.
    suffices key : ∀ k i, step ≤ i → i ≤ horizon → horizon - i ≤ k →
        Bounded horizon ((k + 1) * (body.unfoldDepth horizon + 2) + n)
          (.dynamic modality (.star body) arg) i from
      (key horizon step (Nat.le_refl _) hs (by omega))
    intro k
    induction k with
    | zero =>
      intro i hi hi' hk
      refine (Bounded.dynamic (n := body.unfoldDepth horizon + n + 1) fun _ => Bounded.binary
        ((harg i hi hi').mono (by omega)) ((hbody _ n i hi' fun j hj hj' hmove => ?_).mono
          (by omega))).mono (by omega)
      have := hmove hp.1
      omega
    | succ k ih =>
      intro i hi hi' hk
      have hrest := hbody (.dynamic modality (.star body) arg)
        ((k + 1) * (body.unfoldDepth horizon + 2) + n) i hi' fun j hj hj' hmove => by
          have := hmove hp.1
          exact ih j (by omega) hj' (by omega)
      have hsum : (k + 1 + 1) * (body.unfoldDepth horizon + 2) =
          (k + 1) * (body.unfoldDepth horizon + 2) + (body.unfoldDepth horizon + 2) :=
        Nat.succ_mul _ _
      exact (Bounded.dynamic
        (n := body.unfoldDepth horizon + ((k + 1) * (body.unfoldDepth horizon + 2) + n) + 1)
        fun _ => Bounded.binary ((harg i hi hi').mono (by omega)) (hrest.mono (by omega))).mono
          (by omega)

end

end TemporalHorizon

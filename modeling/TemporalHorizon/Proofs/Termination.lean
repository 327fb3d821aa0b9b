import TemporalHorizon.Encoder.Advance
import TemporalHorizon.Proofs.CallTree

/-!
# The encoder's depth is enough

The encoder unfolds formulas up to a depth that it reads off them, and fails with
`Fault.unfoldingTooDeep` if that should not be enough.  Here it is shown never to
happen, whatever the formula, the window, the step and the state.

A computation is `Shallow` if it never ends in that fault.  What does not unfold
is shallow by its parts; an answer is shallow if the answers it asks for are; and
by the bound on chains of requests that goes on to the end.
-/

namespace TemporalHorizon


namespace Window

/-- The number of moves to the step after from a reached step on. -/
def stepsLeft (window : Window) (step : Nat) : Nat := window.horizon - step

theorem stepsLeft_le (window : Window) (step : Nat) : window.stepsLeft step ≤ window.horizon :=
  Nat.sub_le _ _

/-- A move leaves fewer steps. -/
theorem stepsLeft_lt [Arithmetic] {window : Window} (hw : window.InRange) {step after : Nat}
    (hs : step ≤ window.horizon) (h : window.shift step 1 = .reached after) :
    window.stepsLeft after < window.stepsLeft step := by
  rw [shift_eq hw hs] at h
  obtain ⟨rfl, hle⟩ := eq_of_locate_succ h
  unfold stepsLeft
  omega

end Window

/-- Whether a computation never fails for lack of depth. -/
def Shallow {α : Type} (action : Encode α) : Prop :=
  ∀ encoder failure after, action encoder = .error failure after →
    ∀ f step, failure ≠ .fault (.unfoldingTooDeep f step)

namespace Shallow

variable {α β : Type}

theorem pure (a : α) : Shallow (pure a : Encode α) := by
  intro encoder failure after h
  cases h

theorem bind {x : Encode α} {next : α → Encode β} (hx : Shallow x)
    (hn : ∀ a, Shallow (next a)) : Shallow (x >>= next) := by
  intro encoder failure after h
  change EStateM.bind x next encoder = _ at h
  unfold EStateM.bind at h
  split at h
  · exact hn _ _ _ _ h
  · next heq =>
    cases h
    exact hx _ _ _ heq

theorem map {x : Encode α} (g : α → β) (hx : Shallow x) : Shallow (g <$> x) := by
  intro encoder failure after h
  change EStateM.map g x encoder = _ at h
  unfold EStateM.map at h
  split at h
  · cases h
  · next heq =>
    cases h
    exact hx _ _ _ heq

theorem get : Shallow (get : Encode Encoder) := by
  intro encoder failure after h
  cases h

theorem modifyGet (g : Encoder → α × Encoder) : Shallow (modifyGet g : Encode α) := by
  intro encoder failure after h
  cases h

theorem modify (g : Encoder → Encoder) : Shallow (modify g : Encode PUnit) := modifyGet _

theorem refuse (cause : Violation) : Shallow (Encoder.refuse cause : Encode α) := by
  intro encoder failure after h f step
  cases h
  exact fun e => nomatch e

theorem refuse_bind (cause : Violation) (next : α → Encode β) :
    Shallow (Encoder.refuse cause >>= next) := by
  intro encoder failure after h f step
  cases h
  exact fun e => nomatch e

theorem collapse {cause : Fault} (hc : ∀ f step, cause ≠ .unfoldingTooDeep f step) :
    Shallow (Encoder.collapse cause : Encode α) := by
  intro encoder failure after h f step
  cases h
  exact fun e => hc f step (Failure.fault.inj e)

theorem forM {xs : List α} {action : α → Encode PUnit} (h : ∀ x ∈ xs, Shallow (action x)) :
    Shallow (xs.forM action) := by
  induction xs with
  | nil => exact pure _
  | cons x xs ih =>
    exact bind (h x List.mem_cons_self) fun _ => ih fun y hy => h y (List.mem_cons_of_mem x hy)

/-! ## Computations that do not unfold -/

theorem register (f : Formula) : Shallow (Encoder.register f) := modifyGet _

theorem keyOf (f : Formula) (step : Nat) : Shallow (Encoder.keyOf f step) :=
  bind (register f) fun _ => pure _

/-- The key has the step that was asked for. -/
theorem keyOf_bind {f : Formula} {step : Nat} {next : Key → Encode α}
    (h : ∀ id, Shallow (next ⟨id, step⟩)) : Shallow (Encoder.keyOf f step >>= next) := by
  unfold Encoder.keyOf
  rw [bind_assoc]
  exact bind (register f) fun id => by simpa only [pure_bind] using h id

theorem fresh [Arithmetic] : Shallow Encoder.fresh := modifyGet _

theorem emit (rule : Rule) : Shallow (Encoder.emit rule) := modify _

theorem emitAll (rules : List Rule) : Shallow (Encoder.emitAll rules) :=
  forM fun rule _ => emit rule

theorem lookup [Arithmetic] (key : Key) : Shallow (Encoder.lookup key) := modifyGet _

theorem getOrCreate [Arithmetic] (key : Key) : Shallow (Encoder.getOrCreate key) := modifyGet _

theorem define [Arithmetic] (key : Key) : Shallow (Encoder.define key) := by
  refine bind (getOrCreate key) fun (lit, isNew) => bind ?_ fun _ => bind (emit _) fun _ => pure _
  unfold Encoder.checkNew
  split
  · exact pure _
  · exact collapse (by simp)

theorem share [Arithmetic] (key : Key) (lit : Lit) : Shallow (Encoder.share key lit) := by
  refine bind get fun encoder => ?_
  split
  · next cause h =>
    refine collapse fun f step e => ?_
    subst e
    unfold Cache.share at h
    split at h
    · cases h
    · split at h <;> cases h
  · refine bind (modify _) fun _ => ?_
    split
    · exact bind (bind (emit _) fun _ => emitAll _) fun _ => pure _
    · exact pure _

theorem enterGround (key : Key) (lit : Lit) : Shallow (Encoder.enterGround key lit) := by
  refine bind get fun encoder => ?_
  split
  · next cause h =>
    refine collapse fun f step e => ?_
    subst e
    unfold GroundTable.insert at h
    split at h
    · cases h
    · split at h <;> cases h
  · exact modify _

theorem groundAtom [Arithmetic] (f : Formula) (step : Nat) :
    Shallow (Encoder.groundAtom f step) := by
  refine bind (keyOf f step) fun key => bind get fun encoder => ?_
  split
  · exact pure _
  · refine bind fresh fun lit => bind (enterGround _ _) fun _ => bind ?_ fun _ => pure _
    refine bind get fun encoder => ?_
    split
    · exact emit _
    · exact pure _

theorem checkAhead (window : Window) (f : Formula) : Shallow (Encoder.checkAhead window f) := by
  unfold Encoder.checkAhead
  split
  · exact pure _
  · exact refuse _

theorem checkPath (f : Formula) (path : Path) : Shallow (Encoder.checkPath f path) := by
  unfold Encoder.checkPath
  split
  · exact pure _
  · exact refuse _

theorem carryOn (earlier : Option Lit) (carrier : Lit) :
    Shallow (Encoder.carryOn earlier carrier) := by
  cases earlier with
  | none => exact pure _
  | some earlier => exact emit _

/-! ## Answers -/

variable [Arithmetic]

/-- A fixpoint is shallow if its operands here and the fixpoint itself at the
adjacent step are. -/
theorem encodeFixpoint {rec : Encoder.Encoding} {window : Window} {f : Formula} {key : Key}
    {op : Fixpoint} {lhs : Option Formula} {rhs : Formula} (hw : window.InRange)
    (hs : key.step ≤ window.horizon) (right : Shallow (rec window rhs key.step))
    (left : ∀ l, lhs = some l → Shallow (rec window l key.step))
    (future : op.isFuture = true → Shallow (rec window (.next f op.isGreatest) key.step))
    (past : op.isFuture = false → key.step ≠ 0 → Shallow (rec window f (key.step - 1))) :
    Shallow (Encoder.encodeFixpoint rec window f key op lhs rhs) := by
  refine bind right fun r => bind ?_ fun adjacent => ?_
  · unfold Encoder.encodeAdjacent
    cases hop : op.isFuture with
    | true => exact map _ (future hop)
    | false =>
      rw [if_neg Bool.false_ne_true, Window.shift_eq hw hs]
      split
      · next before hback =>
        have hstep := (Window.eq_of_locate_pred hback).1
        rw [hstep, Nat.add_sub_cancel] at past
        exact map _ (past hop (Nat.succ_ne_zero before))
      · exact pure _
  · cases adjacent with
    | none => exact share _ _
    | some adjacent =>
      refine bind ?_ fun l => bind (define _) fun x => bind (emitAll _) fun _ => pure _
      cases lhs with
      | none => exact pure _
      | some lhs => exact left lhs rfl

/-- A new answer is shallow if all answers that it asks for are. -/
theorem encodeNew {rec : Encoder.Encoding} {window : Window} {f : Formula} {key : Key}
    (hw : window.InRange) (hs : key.step ≤ window.horizon)
    (h : ∀ stage, ∀ request ∈ f.requests window.horizon key.step,
      Shallow (rec (window.withStage stage) request.1 request.2)) :
    Shallow (Encoder.encodeNew rec window f key) := by
  have here : ∀ request ∈ f.requests window.horizon key.step,
      Shallow (rec window request.1 request.2) := h window.stage
  cases f with
  | atom name args positive => exact groundAtom _ _
  | bool value => exact share _ _
  | initial => exact share _ _
  | final =>
    unfold Encoder.encodeNew
    dsimp only
    split
    · exact share _ _
    · split
      · exact share _ _
      · exact bind (h .always (Formula.hasNext, key.step) (by simp [Formula.requests]))
          fun _ => share _ _
  | not arg => exact bind (here (arg, key.step) (by simp [Formula.requests])) fun _ => share _ _
  | binary op lhs rhs =>
    exact bind (here (lhs, key.step) (by simp [Formula.requests])) fun _ =>
      bind (here (rhs, key.step) (by simp [Formula.requests])) fun _ =>
      bind (define _) fun _ => bind (emitAll _) fun _ => pure _
  | previous arg weak =>
    unfold Encoder.encodeNew
    dsimp only
    rw [Window.shift_eq hw hs]
    split
    · next before hback =>
      have := here (arg, key.step - 1) (by simp [Formula.requests])
      rw [(Window.eq_of_locate_pred hback).1] at this
      exact bind this fun _ => share _ _
    · exact share _ _
  | next arg weak =>
    unfold Encoder.encodeNew
    refine bind (checkAhead _ _) fun _ => ?_
    rw [Window.shift_eq hw hs]
    split
    · next after hn =>
      obtain ⟨rfl, hle⟩ := Window.eq_of_locate_succ hn
      exact bind (here (arg, key.step + 1)
        (by simp [Formula.requests, Nat.lt_of_succ_le hle])) fun _ => share _ _
    · exact bind (getOrCreate _) fun _ => bind (modify _) fun _ => pure _
    · exact share _ _
    · exact share _ _
  | initially arg => exact bind (here (arg, 0) (by simp [Formula.requests])) fun _ => share _ _
  | temporal op lhs rhs =>
    exact encodeFixpoint hw hs (here (rhs, key.step) (by simp [Formula.requests]))
      (fun l e => by cases e; exact here (lhs, key.step) (by simp [Formula.requests]))
      (fun hop => here (_, key.step) (by simp [Formula.requests, hop]))
      (fun hop hs => here (_, key.step - 1) (by simp [Formula.requests, hop, hs]))
  | modal op arg =>
    exact encodeFixpoint hw hs (here (arg, key.step) (by simp [Formula.requests]))
      (fun l e => by cases e)
      (fun hop => here (_, key.step) (by simp [Formula.requests, hop]))
      (fun hop hs => here (_, key.step - 1) (by simp [Formula.requests, hop, hs]))
  | dynamic modality path arg =>
    by_cases hp : path.isNormal
    · exact bind (checkPath _ _) fun _ =>
        bind (here (Formula.unfoldPath modality path arg, key.step)
          (by simp [Formula.requests, hp])) fun _ => share _ _
    · unfold Encoder.encodeNew Encoder.checkPath
      simp only [hp, if_false, Bool.false_eq_true]
      exact refuse_bind _ _

/-- An answer is shallow if all answers that it asks for are. -/
theorem encodeStep {rec : Encoder.Encoding} {window : Window} {f : Formula} {step : Nat}
    (hw : window.InRange)
    (h : step ≤ window.horizon → ∀ stage, ∀ request ∈ f.requests window.horizon step,
      Shallow (rec (window.withStage stage) request.1 request.2)) :
    Shallow (Encoder.encodeStep rec window f step) := by
  unfold Encoder.encodeStep
  rcases Nat.lt_or_ge window.horizon step with hs | hs
  · rw [Encoder.checkStep_of_lt hs]
    exact refuse_bind _ _
  · rw [Encoder.checkStep_of_le hs]
    refine bind (pure _) fun _ => ?_
    split
    · exact groundAtom _ _
    · refine keyOf_bind fun id => bind (lookup _) fun lit => ?_
      cases lit with
      | some lit => exact pure _
      | none => exact encodeNew hw hs (h hs)

/-- A depth that bounds the chains of requests is enough. -/
theorem encodeWithin_of_bounded {depth : Nat} {window : Window} {f : Formula} {step : Nat}
    (hw : window.InRange) (h : step ≤ window.horizon → Bounded window.horizon depth f step)
    (hd : 0 < depth) :
    Shallow (Encoder.encodeWithin depth window f step) := by
  induction depth generalizing window f step with
  | zero => omega
  | succ depth ih =>
    refine encodeStep hw fun hs stage request hq => ih hw (fun _ => ?_) ?_
    · exact h hs request hq
    · have := h hs request hq
      cases depth with
      | zero => exact this.elim
      | succ depth => omega

/-- No request for a literal fails for lack of depth. -/
theorem encode {window : Window} (hw : window.InRange) (f : Formula) (step : Nat) :
    Shallow (Encoder.encode window f step) :=
  bind (register f) fun _ =>
    encodeWithin_of_bounded hw (f.bounded_unfoldDepth window.horizon step)
      (f.unfoldDepth_pos window.horizon)

theorem encodeHasNext {window : Window} (hw : window.InRange) (step : Nat) :
    Shallow (Encoder.encodeHasNext window step) := @encode _ (window.withStage .always) hw _ _

/-! ## Requirements -/

theorem sortDisjuncts {window : Window} (hw : window.InRange) (step : Nat) (fs : List Formula)
    (head : List Nat) (body : List Lit) :
    Shallow (Encoder.sortDisjuncts window step fs head body) := by
  fun_induction Encoder.sortDisjuncts window step fs head body with
  | case1 => exact pure _
  | case2 head body name args positive rest ih => exact bind (groundAtom _ _) ih
  | case3 => exact pure _
  | case4 head body rest ih => exact ih
  | case5 head body f rest _ _ _ ih => exact bind (encode hw _ _) ih

theorem requireDisjunction {window : Window} (hw : window.InRange) (f : Formula) (step : Nat)
    (guard : List Lit) :
    Shallow (Encoder.requireDisjunction window f step guard) := by
  refine bind (sortDisjuncts hw _ _ _ _) fun sorted => ?_
  cases sorted with
  | none => exact pure _
  | some parts => exact emit _

theorem instanceWitness {rec : Encoder.Requiring} {window : Window} {inst : Instance}
    {guard : List Lit} {step : Nat} (hw : window.InRange)
    (operands : ∀ lhs, inst.op = .untl → inst.lhs = some lhs → ∀ guard,
      Shallow (rec window (.or lhs inst.rhs) step guard))
    (right : ∀ guard, Shallow (rec window inst.rhs step guard)) :
    Shallow (Encoder.instanceWitness rec window inst guard step) := by
  unfold Encoder.instanceWitness
  split
  · next hop =>
    refine bind ?_ fun _ => bind (encodeHasNext hw _) fun _ => bind (right _) fun _ => encode hw _ _
    unfold Encoder.requireOperands
    split
    · next lhs hl => exact operands lhs hop hl _
    · exact pure _
  · refine bind (right _) fun _ => ?_
    split
    · exact encode hw _ _
    · exact pure _

/-- Unrolling an instance is shallow if the requirements on its operands are.  What
follows gets the instance with a new carrier and nothing else changed but the
step it has been unrolled to. -/
theorem advance_bind {rec : Encoder.Requiring} {window : Window} {inst : Instance} {step : Nat}
    {next : Instance → Encode α} (hw : window.InRange)
    (operands : ∀ lhs, inst.op = .untl → inst.lhs = some lhs → ∀ guard,
      Shallow (rec window (.or lhs inst.rhs) step guard))
    (right : ∀ guard, Shallow (rec window inst.rhs step guard))
    (h : ∀ carrier, Shallow (next { inst with carrier := some carrier, last := step })) :
    Shallow (Encoder.advance rec window inst step >>= next) := by
  simp only [Encoder.advance, bind_assoc, pure_bind]
  exact bind (instanceWitness hw operands right) fun _ => bind fresh fun carrier =>
    bind (carryOn _ _) fun _ => bind (emit _) fun _ => bind (modify _) fun _ => h carrier

theorem advanceThrough_bind {rec : Encoder.Requiring} {window : Window} {inst : Instance}
    {next : Instance → Encode α} {count step : Nat} (hw : window.InRange)
    (operands : ∀ lhs, inst.op = .untl → inst.lhs = some lhs → ∀ i guard,
      i < step + count → Shallow (rec window (.or lhs inst.rhs) i guard))
    (right : ∀ i guard, i < step + count → Shallow (rec window inst.rhs i guard))
    (h : ∀ inst, Shallow (next inst)) :
    Shallow (Encoder.advanceThrough rec window count step inst >>= next) := by
  induction count generalizing step inst with
  | zero => simpa only [Encoder.advanceThrough, pure_bind] using h inst
  | succ count ih =>
    simp only [Encoder.advanceThrough, bind_assoc]
    refine advance_bind hw (fun lhs hop hl guard => operands lhs hop hl step guard (by omega))
      (fun guard => right step guard (by omega)) fun carrier => ?_
    exact ih (fun lhs hop hl i guard hi => operands lhs hop hl i guard (by omega))
      (fun i guard hi => right i guard (by omega))

theorem startInstance {rec : Encoder.Requiring} {window : Window} {inst : Instance}
    (hw : window.InRange)
    (operands : ∀ lhs, inst.op = .untl → inst.lhs = some lhs → ∀ i guard,
      i ≤ window.horizon → Shallow (rec window (.or lhs inst.rhs) i guard))
    (right : ∀ i guard, i ≤ window.horizon → Shallow (rec window inst.rhs i guard))
    (horigin : inst.origin ≤ window.horizon) :
    Shallow (Encoder.startInstance rec window inst) :=
  advanceThrough_bind hw (fun lhs hop hl i guard hi => operands lhs hop hl i guard (by omega))
    (fun i guard hi => right i guard (by omega)) fun _ => modify _

/-- A requirement is shallow if its rules are; those are needed at reached steps
only. -/
theorem requireStep {rec : Encoder.Requiring} {window : Window} {f : Formula} {step : Nat}
    {guard : List Lit}
    (h : step ≤ window.horizon → ∀ guard, Shallow (Encoder.requireNew rec window f step guard)) :
    Shallow (Encoder.requireStep rec window f step guard) := by
  unfold Encoder.requireStep
  rcases Nat.lt_or_ge window.horizon step with hs | hs
  · rw [Encoder.checkStep_of_lt hs]
    exact refuse_bind _ _
  · rw [Encoder.checkStep_of_le hs]
    refine bind (pure _) fun _ => ?_
    split
    · exact pure _
    · refine bind (keyOf _ _) fun key => bind get fun encoder => ?_
      split
      · exact pure _
      · exact bind (modify _) fun _ => h hs _

theorem requireNext {rec : Encoder.Requiring} {window : Window} {f arg : Formula} {weak : Bool}
    {step : Nat} {guard : List Lit} (hw : window.InRange)
    (h : ∀ after, window.shift step 1 = .reached after → Shallow (rec window arg after guard)) :
    Shallow (Encoder.requireNext rec window f arg weak step guard) := by
  refine bind (checkAhead _ _) fun _ => ?_
  split
  · next after hn => exact h after hn
  · cases weak with
    | true => exact modify _
    | false => exact bind (bind (encodeHasNext hw _) fun _ => emit _) fun _ => modify _
  · cases weak with
    | true => exact pure _
    | false => exact emit _
  · cases weak with
    | true => exact pure _
    | false => exact emit _

theorem requireNew_next {rec : Encoder.Requiring} {window : Window} {arg : Formula} {weak : Bool}
    {step : Nat} {guard : List Lit} (hw : window.InRange)
    (h : ∀ after, window.shift step 1 = .reached after → Shallow (rec window arg after guard)) :
    Shallow (Encoder.requireNew rec window (.next arg weak) step guard) := by
  unfold Encoder.requireNew
  exact requireNext hw h

/-- The depth read off a formula is enough for the requirement of it. -/
theorem requireWithin {window : Window} (hw : window.InRange) :
    (f : Formula) → (depth : Nat) → f.unfoldDepth window.horizon ≤ depth →
      ∀ step guard, Shallow (Encoder.requireWithin depth window f step guard)
  | f, 0, h, _, _ => by
    have := f.unfoldDepth_pos window.horizon
    omega
  | .atom _ _ _, depth + 1, h, step, guard =>
    requireStep fun _ _ => bind (groundAtom _ _) fun _ => emit _
  | .bool true, depth + 1, h, step, guard => requireStep fun _ _ => pure _
  | .bool false, depth + 1, h, step, guard => requireStep fun _ _ => emit _
  | .initial, depth + 1, h, step, guard =>
    requireStep fun _ _ => bind (encode hw _ _) fun _ => emit _
  | .final, depth + 1, h, step, guard =>
    requireStep fun _ _ => bind (encode hw _ _) fun _ => emit _
  | .not arg, depth + 1, h, step, guard =>
    requireStep fun _ _ => bind (encode hw _ _) fun _ => emit _
  | .binary .and lhs rhs, depth + 1, h, step, guard => by
    simp only [Formula.unfoldDepth] at h
    exact requireStep fun _ _ => bind (requireWithin hw lhs depth (by omega) _ _) fun _ =>
      requireWithin hw rhs depth (by omega) _ _
  | .binary .or lhs rhs, depth + 1, h, step, guard =>
    requireStep fun _ _ => requireDisjunction hw _ _ _
  | .binary .implies lhs rhs, depth + 1, h, step, guard => by
    simp only [Formula.unfoldDepth] at h
    exact requireStep fun _ _ => bind (encode hw _ _) fun _ =>
      requireWithin hw rhs depth (by omega) _ _
  | .binary .implied lhs rhs, depth + 1, h, step, guard => by
    simp only [Formula.unfoldDepth] at h
    exact requireStep fun _ _ => bind (encode hw _ _) fun _ =>
      requireWithin hw lhs depth (by omega) _ _
  | .binary .equiv lhs rhs, depth + 1, h, step, guard =>
    requireStep fun _ _ => bind (encode hw _ _) fun _ => emit _
  | .previous arg weak, depth + 1, h, step, guard =>
    requireStep fun _ _ => bind (encode hw _ _) fun _ => emit _
  | .next arg weak, depth + 1, h, step, guard => by
    simp only [Formula.unfoldDepth] at h
    exact requireStep fun _ _ => requireNew_next hw fun _ _ =>
      requireWithin hw arg depth (by omega) _ _
  | .initially arg, depth + 1, h, step, guard =>
    requireStep fun _ _ => bind (encode hw _ _) fun _ => emit _
  | .temporal .since lhs rhs, depth + 1, h, step, guard =>
    requireStep fun _ _ => bind (encode hw _ _) fun _ => emit _
  | .temporal .trigger lhs rhs, depth + 1, h, step, guard =>
    requireStep fun _ _ => bind (encode hw _ _) fun _ => emit _
  | .temporal .untl lhs rhs, depth + 1, h, step, guard => by
    simp only [Formula.unfoldDepth] at h
    refine requireStep fun hs guard => startInstance hw (fun l _ hl i guard _ => ?_)
      (fun i guard _ => requireWithin hw rhs depth (by omega) _ _) hs
    cases depth with
    | zero => omega
    | succ depth => exact requireStep fun _ _ => requireDisjunction hw _ _ _
  | .temporal .release lhs rhs, depth + 1, h, step, guard => by
    simp only [Formula.unfoldDepth] at h
    exact requireStep fun hs guard => startInstance hw (fun l hop => nomatch hop)
      (fun i guard _ => requireWithin hw rhs depth (by omega) _ _) hs
  | .modal .since arg, depth + 1, h, step, guard =>
    requireStep fun _ _ => bind (encode hw _ _) fun _ => emit _
  | .modal .trigger arg, depth + 1, h, step, guard =>
    requireStep fun _ _ => bind (encode hw _ _) fun _ => emit _
  | .modal .untl arg, depth + 1, h, step, guard => by
    simp only [Formula.unfoldDepth] at h
    exact requireStep fun hs guard => startInstance hw (fun l _ hl => nomatch hl)
      (fun i guard _ => requireWithin hw arg depth (by omega) _ _) hs
  | .modal .release arg, depth + 1, h, step, guard => by
    simp only [Formula.unfoldDepth] at h
    have harg := requireWithin hw arg
    -- With `k` steps left, `k + 1` rounds of two are enough.
    suffices key : ∀ k step depth guard, window.stepsLeft step ≤ k →
        arg.unfoldDepth window.horizon + 2 * (k + 1) ≤ depth →
        Shallow (Encoder.requireWithin depth window (.modal .release arg) step guard) from
      key window.horizon step (depth + 1) guard (window.stepsLeft_le step) h
    intro k
    induction k with
    | zero =>
      intro step depth guard hk hd
      obtain ⟨depth, rfl⟩ : ∃ d, depth = d + 2 := ⟨depth - 2, by omega⟩
      refine requireStep fun _ _ => bind (harg (depth + 1) (by omega) _ _) fun _ =>
        requireStep fun hs _ => requireNew_next hw fun after hn => ?_
      have := Window.stepsLeft_lt hw hs hn
      omega
    | succ k ih =>
      intro step depth guard hk hd
      obtain ⟨depth, rfl⟩ : ∃ d, depth = d + 2 := ⟨depth - 2, by omega⟩
      refine requireStep fun _ _ => bind (harg (depth + 1) (by omega) _ _) fun _ =>
        requireStep fun hs _ => requireNew_next hw fun after hn => ?_
      have := Window.stepsLeft_lt hw hs hn
      exact ih _ _ _ (by omega) (by omega)
  | .dynamic _ _ _, depth + 1, h, step, guard =>
    requireStep fun _ _ => bind (encode hw _ _) fun _ => emit _

/-- No requirement fails for lack of depth. -/
theorem require {window : Window} (hw : window.InRange) (f : Formula) (step : Nat)
    (guard : List Lit) :
    Shallow (Encoder.require window f step guard) :=
  bind (register f) fun _ => requireWithin hw f _ (Nat.le_refl _) _ _

/-! ## The edge -/

theorem resolveBoundaries {window : Window} (hw : window.InRange) (step : Nat) :
    Shallow (Encoder.resolveBoundaries window step) := by
  refine bind (modifyGet _) fun due => ?_
  induction due with
  | nil => exact pure _
  | cons boundary due ih =>
    exact bind (encode hw _ _) fun _ => bind (emit _) fun _ => bind ih fun _ => pure _

theorem runDeferred {window : Window} (hw : window.InRange) (step : Nat) :
    Shallow (Encoder.runDeferred window step) :=
  bind (modifyGet _) fun _ => forM fun _ _ => require hw _ _ _

theorem advanceInstances {window : Window} (hw : window.InRange) (step : Nat) :
    Shallow (Encoder.advanceInstances window step) := by
  refine bind get fun encoder => forM fun number _ => bind get fun encoder => ?_
  split
  · exact pure _
  · split
    · exact advance_bind hw (fun _ _ _ _ => require hw _ _ _) (fun _ => require hw _ _ _)
        fun _ => modify _
    · exact pure _

end Shallow
end TemporalHorizon

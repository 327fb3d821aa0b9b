import TemporalHorizon.Proofs.Acts
import TemporalHorizon.Proofs.Assertions
import TemporalHorizon.Proofs.Exactness

/-!
# The recursions come to an end

The operations of the encoder are recursions without a visible end.  Unfolding a star leads
to a formula that holds the formula it came from, references lead to later and to earlier
steps, and the walk over the instances at the edge goes on over those that it has itself
put there.  The encoder bounds these recursions, by a depth that it reads off the formula
and by the number of instances at the start.  The bounds are not part of what is computed:
the runs to bounded depth settle, and what they settle on is the outcome of the encoder.

* `SettlesOn`: the runs to all large depths have one outcome, which was not cut off.
* `Refines`: a run that is not cut off has the outcome of a deeper one.
* `Encoder.advanceRounds`: the walk over the instances as it is meant, over a list that
  grows while it is walked over, for a given number of rounds.
* `Encoder.settles`: all of these settle.
-/

namespace TemporalHorizon

variable {α β : Type}

/-- An outcome that was cut off for lack of depth. -/
def CutOff (outcome : EStateM.Result Failure Encoder α) : Prop :=
  ∃ f step after, outcome = .error (.fault (.unfoldingTooDeep f step)) after

theorem Shallow.not_cutOff {x : Encode α} (h : Shallow x) (e : Encoder) : ¬ CutOff (x e) := by
  rintro ⟨f, step, after, heq⟩
  exact h e _ after heq f step rfl

/-- The runs of a recursion to all large depths have the outcome of a computation, which was
not cut off. -/
def SettlesOn (runs : Nat → Encode α) (x : Encode α) (e : Encoder) : Prop :=
  (∃ depth, ∀ deeper, depth ≤ deeper → runs deeper e = x e) ∧ ¬ CutOff (x e)

/-! ## Deeper runs -/

/-- Where a computation is not cut off, another one has the same outcome. -/
def Refines (x y : Encode α) : Prop := ∀ e, ¬ CutOff (x e) → y e = x e

/-- Where a way to meet requirements is not cut off, another one meets them in the same way. -/
def RefinesAll (rec rec' : Encoder.Requiring) : Prop :=
  ∀ window f s guard, Refines (rec window f s guard) (rec' window f s guard)

namespace Refines

theorem refl (x : Encode α) : Refines x x := fun _ _ => rfl

theorem trans {x y z : Encode α} (h : Refines x y) (h' : Refines y z) : Refines x z := by
  intro e hx
  have hy := h e hx
  rw [h' e (by rwa [hy]), hy]

theorem bind {x y : Encode α} {next next' : α → Encode β} (hx : Refines x y)
    (hn : ∀ a, Refines (next a) (next' a)) : Refines (x >>= next) (y >>= next') := by
  intro e hcut
  cases h : x e with
  | ok a after =>
    have hy : y e = .ok a after := (hx e fun ⟨_, _, _, heq⟩ => by rw [h] at heq; cases heq).trans h
    rw [bind_ok h] at hcut ⊢
    rw [bind_ok hy]
    exact hn a after hcut
  | error failure after =>
    rw [bind_error h] at hcut ⊢
    have hfirst : ¬ CutOff (x e) := by
      rintro ⟨f, step, later, heq⟩
      rw [h] at heq
      cases heq
      exact hcut ⟨f, step, after, rfl⟩
    exact bind_error ((hx e hfirst).trans h)

/-- Only what comes first is changed. -/
theorem bind_left {x y : Encode α} (hx : Refines x y) (next : α → Encode β) :
    Refines (x >>= next) (y >>= next) := bind hx fun _ => refl _

section Requirements

variable [Arithmetic]

variable {rec rec' : Encoder.Requiring} {window : Window}

theorem instanceWitness (h : RefinesAll rec rec') (inst : Instance) (guard : List Lit)
    (step : Nat) :
    Refines (Encoder.instanceWitness rec window inst guard step)
      (Encoder.instanceWitness rec' window inst guard step) := by
  have hoperands : Refines (Encoder.requireOperands rec window inst guard step)
      (Encoder.requireOperands rec' window inst guard step) := by
    unfold Encoder.requireOperands
    split
    · exact h _ _ _ _
    · exact refl _
  unfold Encoder.instanceWitness
  split
  · exact bind hoperands fun _ => bind (refl _) fun _ => bind_left (h _ _ _ _) _
  · exact bind_left (h _ _ _ _) _

theorem advanceThrough (h : RefinesAll rec rec') (count step : Nat) (inst : Instance) :
    Refines (Encoder.advanceThrough rec window count step inst)
      (Encoder.advanceThrough rec' window count step inst) := by
  induction count generalizing step inst with
  | zero => exact refl _
  | succ count ih => exact bind (bind_left (instanceWitness h _ _ _) _) fun _ => ih _ _

theorem startInstance (h : RefinesAll rec rec') (inst : Instance) :
    Refines (Encoder.startInstance rec window inst) (Encoder.startInstance rec' window inst) :=
  bind_left (advanceThrough h _ _ _) _

theorem requireNext (h : RefinesAll rec rec') (f arg : Formula) (weak : Bool) (step : Nat)
    (guard : List Lit) :
    Refines (Encoder.requireNext rec window f arg weak step guard)
      (Encoder.requireNext rec' window f arg weak step guard) := by
  refine bind (refl _) fun _ => ?_
  split
  · exact h _ _ _ _
  · exact refl _
  · exact refl _
  · exact refl _

theorem requireNew (h : RefinesAll rec rec') (f : Formula) (step : Nat) (guard : List Lit) :
    Refines (Encoder.requireNew rec window f step guard)
      (Encoder.requireNew rec' window f step guard) := by
  unfold Encoder.requireNew
  split
  · exact refl _
  · exact refl _
  · exact refl _
  · exact bind (h _ _ _ _) fun _ => h _ _ _ _
  · exact refl _
  · exact bind (refl _) fun _ => h _ _ _ _
  · exact bind (refl _) fun _ => h _ _ _ _
  · exact refl _
  · exact requireNext h _ _ _ _ _
  · exact bind (h _ _ _ _) fun _ => h _ _ _ _
  · exact startInstance h _
  · exact startInstance h _
  · exact startInstance h _
  all_goals exact refl _

theorem requireStep (h : RefinesAll rec rec') :
    RefinesAll (Encoder.requireStep rec) (Encoder.requireStep rec') := by
  intro window f step guard
  refine bind (refl _) fun _ => ?_
  split
  · exact refl _
  · refine bind (refl _) fun key => bind (refl _) fun encoder => ?_
    split
    · exact refl _
    · exact bind (refl _) fun _ => requireNew h _ _ _

/-- A requirement that is not cut off is met in the same way to any larger depth. -/
theorem requireWithin_succ (depth : Nat) :
    RefinesAll (Encoder.requireWithin depth) (Encoder.requireWithin (depth + 1)) := by
  induction depth with
  | zero => exact fun window f s guard e hcut => absurd ⟨f, s, e, rfl⟩ hcut
  | succ depth ih => exact requireStep ih

theorem requireWithin {depth deeper : Nat} (hle : depth ≤ deeper) :
    RefinesAll (Encoder.requireWithin depth) (Encoder.requireWithin deeper) := by
  intro window f s guard
  obtain ⟨more, rfl⟩ := Nat.exists_eq_add_of_le hle
  clear hle
  induction more with
  | zero => exact refl _
  | succ more ih => exact ih.trans (requireWithin_succ (depth + more) window f s guard)

end Requirements
end Refines

namespace Encoder

/-! ## The walk over the instances -/

/-- The instances from a number on have been unrolled to a step. -/
def Rested (e : Encoder) (step number : Nat) : Prop :=
  ∀ i inst, number ≤ i → e.edge.instances[i]? = some inst → step ≤ inst.last

variable {window : Window} {step number : Nat} {e : Encoder}

section Rounds

variable [Arithmetic]

/-- Unroll the instances from a number on to a step, one after the other, for a given number
of rounds.  Those that are put on the edge meanwhile are visited too. -/
def advanceRounds (window : Window) (step : Nat) : Nat → Nat → Encode Unit
  | 0, number => do
    match (← get).edge.instances[number]? with
    | none => pure ()
    | some inst => collapse (.unfoldingTooDeep inst.formula step)
  | rounds + 1, number => do
    match (← get).edge.instances[number]? with
    | none => pure ()
    | some _ =>
      advanceInstance window step number
      advanceRounds window step rounds (number + 1)

/-- The walk does the same without words if it ends in range. -/
theorem agrees_advanceRounds (hw : window.InRange) (step rounds number : Nat) :
    Agrees 0 (advanceRounds window step rounds number)
      (@advanceRounds .exact window step rounds number) := by
  induction rounds generalizing number with
  | zero =>
    refine .bind (.same .get) fun e => ?_
    split
    · exact .pure _
    · exact .same (.collapse _)
  | succ rounds ih =>
    refine .bind (.same .get) fun e => ?_
    split
    · exact .pure _
    · exact .bind (.advanceInstance hw _ _) fun _ => ih _

theorem advanceRounds_none (h : e.edge.instances[number]? = none) (rounds : Nat) :
    advanceRounds window step rounds number e = .ok () e := by
  cases rounds <;>
  · unfold advanceRounds
    rw [bind_ok (get_ok e), h]
    rfl

theorem advanceRounds_succ {inst : Instance} (h : e.edge.instances[number]? = some inst)
    (rounds : Nat) :
    advanceRounds window step (rounds + 1) number e = (do
      advanceInstance window step number
      advanceRounds window step rounds (number + 1)) e := by
  rw [advanceRounds, bind_ok (get_ok e), h]

/-- Instances that have been unrolled to the step are only looked at. -/
theorem advanceRounds_rested (h : e.Rested step number) {rounds : Nat}
    (hrounds : e.edge.instances.length ≤ number + rounds) :
    advanceRounds window step rounds number e = .ok () e := by
  induction rounds generalizing number with
  | zero => exact advanceRounds_none (List.getElem?_eq_none hrounds) 0
  | succ rounds ih =>
    cases hinst : e.edge.instances[number]? with
    | none => exact advanceRounds_none hinst _
    | some inst =>
      have hidle : advanceInstance window step number e = .ok () e := by
        unfold advanceInstance
        rw [bind_ok (get_ok e), hinst]
        show (if inst.last < step then _ else _ : Encode Unit) e = _
        rw [if_neg (Nat.not_lt_of_le (h number inst (Nat.le_refl _) hinst))]
        rfl
      rw [advanceRounds_succ hinst, bind_ok hidle]
      exact ih (fun i other hi => h i other (by omega)) (by omega)

end Rounds

section Exact

attribute [local instance] Arithmetic.exact

/-- What is put on the edge while an instance is unrolled has been unrolled itself. -/
theorem Advances.rested {given : List Rule} {after : Encoder} {first : Nat}
    (ha : Advances given window step number e after) (h : e.Rested step first)
    (hnumber : number < first) : after.Rested step first := by
  cases ha with
  | idle _ => exact h
  | @moved inst carrier strands middle _ _ hstep hspins _ =>
    intro i other hi hother
    have hother : (middle.edge.instances.set number _)[i]? = some other := hother
    rw [List.getElem?_set_ne (by omega), hspins.instances] at hother
    rcases Nat.lt_or_ge i e.edge.instances.length with hlt | hge
    · rw [List.getElem?_append_left hlt] at hother
      exact h i other hi hother
    · rw [List.getElem?_append_right hge] at hother
      obtain ⟨strand, hstrand, rfl⟩ := List.mem_map.1 (List.mem_of_getElem? hother)
      rw [(hspins.complete strand hstrand).2]
      exact hstep

/-- The walk over the instances that are there at the start has the outcome of the walk over
all of them. -/
theorem advanceRounds_eq (window : Window) (number count : Nat) (h : e.Fit)
    (hrested : e.Rested step (number + count)) :
    ∃ enough, ∀ rounds, enough ≤ rounds → advanceRounds window step rounds number e =
      (List.range' number count).forM (advanceInstance window step) e := by
  induction count generalizing number e with
  | zero =>
    refine ⟨e.edge.instances.length, fun rounds hrounds => ?_⟩
    exact advanceRounds_rested hrested (by omega)
  | succ count ih =>
    have hforM : (List.range' number (count + 1)).forM (advanceInstance window step) e = (do
        advanceInstance window step number
        (List.range' (number + 1) count).forM (advanceInstance window step)) e := rfl
    have hadvance := advanceInstance_leads [] h window step number
    cases hinst : e.edge.instances[number]? with
    | none =>
      -- There is nothing from this number on, so nothing is done either way.
      have hidle : advanceInstance window step number e = .ok () e := by
        unfold advanceInstance
        rw [bind_ok (get_ok e), hinst]
        rfl
      obtain ⟨enough, heq⟩ := ih (number + 1) h (by rwa [Nat.add_right_comm, Nat.add_assoc])
      refine ⟨enough, fun rounds hrounds => ?_⟩
      rw [hforM, bind_ok hidle, ← heq rounds hrounds, advanceRounds_none hinst,
        advanceRounds_none (List.getElem?_eq_none ?_)]
      exact Nat.le_succ_of_le (List.getElem?_eq_none_iff.1 hinst)
    | some inst =>
      cases hrun : advanceInstance window step number e with
      | error failure after =>
        refine ⟨1, fun rounds hrounds => ?_⟩
        obtain ⟨rounds, rfl⟩ : ∃ r, rounds = r + 1 := ⟨rounds - 1, by omega⟩
        rw [hforM, advanceRounds_succ hinst, bind_error hrun, bind_error hrun]
      | ok _ after =>
        have hadvances := hadvance.of_ok hrun
        have hlater := hadvances.rested hrested (by omega)
        obtain ⟨enough, heq⟩ := ih (number + 1) (hadvances.fit h)
          (by rwa [Nat.add_right_comm, Nat.add_assoc])
        refine ⟨enough + 1, fun rounds hrounds => ?_⟩
        obtain ⟨rounds, rfl⟩ : ∃ r, rounds = r + 1 := ⟨rounds - 1, by omega⟩
        rw [hforM, advanceRounds_succ hinst, bind_ok hrun, bind_ok hrun]
        exact heq rounds (by omega)

/-! ## Paths that are not in normal form -/

/-- A formula over a path that is not in normal form is refused at once: it has been numbered
and looked up, and nothing else has happened. -/
theorem encodeStep_malformed (rec : Encoding) {modality : Modality} {path : Path} {arg : Formula}
    (h : e.Fit) (hpath : path.isNormal = false) (hs : step ≤ window.horizon) :
    encodeStep rec window (.dynamic modality path arg) step e =
      .error (.violation (.malformedPath (.dynamic modality path arg) path))
        (e.numbered (.dynamic modality path arg)).missed := by
  have hcheck : checkStep window step e = .ok () e := by
    rw [checkStep_of_le hs]
    rfl
  have hnone : (e.numbered (.dynamic modality path arg)).cache.entry?
      ⟨(e.store.intern (.dynamic modality path arg)).1, step⟩ = none := by
    have hfit := h.of_follows (numbered_follows [] h.toTidy (.dynamic modality path arg)) rfl
    have hentry := hfit.paths (.dynamic modality path arg) step hpath
    exact (Sheet.ofTable_eq (numbered_names e (.dynamic modality path arg) step).number).symm.trans
      hentry
  have hlookup : lookup ⟨(e.store.intern (.dynamic modality path arg)).1, step⟩
      (e.numbered (.dynamic modality path arg)) =
        .ok none (e.numbered (.dynamic modality path arg)).missed := by
    unfold lookup Cache.lookup
    show EStateM.modifyGet _ _ = _
    unfold EStateM.modifyGet
    simp only [hnone]
    rfl
  have hrefused : checkPath (.dynamic modality path arg) path
      (e.numbered (.dynamic modality path arg)).missed =
        .error (.violation (.malformedPath (.dynamic modality path arg) path))
          (e.numbered (.dynamic modality path arg)).missed := by
    unfold checkPath
    rw [hpath]
    rfl
  unfold encodeStep
  rw [bind_ok hcheck, if_neg (by simp [Formula.isAtom]), bind_ok (keyOf_ok _ _ _), bind_ok hlookup]
  exact bind_error hrefused

theorem advanceInstances_settles (h : e.Fit) (window : Window) (step : Nat) :
    SettlesOn (fun rounds => advanceRounds window step rounds 0) (advanceInstances window step)
      e := by
  refine ⟨?_, (Shallow.advanceInstances window.inRange step).not_cutOff e⟩
  have hrested : e.Rested step (0 + e.edge.instances.length) := by
    intro i inst hi hinst
    rw [List.getElem?_eq_none (by omega)] at hinst
    cases hinst
  obtain ⟨enough, heq⟩ := advanceRounds_eq window 0 _ h hrested
  refine ⟨enough, fun rounds hrounds => (heq rounds hrounds).trans ?_⟩
  rw [← List.range_eq_range']
  rfl

end Exact

/-! ## All recursions -/

section InRange

variable [Arithmetic]

theorem encode_settles (hw : window.InRange) (f : Formula) (step : Nat) (e : Encoder) :
    SettlesOn (fun depth => do
      let _ ← register f
      encodeWithin depth window f step) (encode window f step) e := by
  refine ⟨⟨f.unfoldDepth window.horizon, fun deeper hle => ?_⟩,
    (Shallow.encode hw f step).not_cutOff e⟩
  have heq := encodeWithin_of_bounded hw (f.bounded_unfoldDepth window.horizon step)
    (f.unfoldDepth_pos window.horizon) hle
  simp only [encode, heq]

theorem require_settles (hw : window.InRange) (f : Formula) (step : Nat) (guard : List Lit)
    (e : Encoder) :
    SettlesOn (fun depth => do
      let _ ← register f
      requireWithin depth window f step guard) (require window f step guard) e := by
  refine ⟨⟨f.unfoldDepth window.horizon, fun deeper hle => ?_⟩,
    (Shallow.require hw f step guard).not_cutOff e⟩
  have hdeeper := Refines.requireWithin hle window f step guard
  refine Refines.bind (.refl (register f)) (fun _ => hdeeper) e ?_
  exact (Shallow.require hw f step guard).not_cutOff e

/-- The walk over the instances settles where it settles without words, if that is in range. -/
theorem advanceInstances_settles_of_exact (hw : window.InRange)
    (h : @SettlesOn Unit (fun rounds => @advanceRounds .exact window step rounds 0)
      (@advanceInstances .exact window step) e)
    (hrange : (stateAfter (advanceInstances window step) e).InRange) :
    SettlesOn (fun rounds => advanceRounds window step rounds 0) (advanceInstances window step)
      e := by
  have hrun := (Agrees.advanceInstances hw step).agree e (Nat.zero_le _) (.inl hrange)
  obtain ⟨⟨enough, heq⟩, hwhole⟩ := h
  refine ⟨⟨enough, fun rounds hrounds => ?_⟩, hrun ▸ hwhole⟩
  have hwalk : @advanceRounds .exact window step rounds 0 e = advanceInstances window step e :=
    (heq rounds hrounds).trans hrun.symm
  have hstate : (stateAfter (@advanceRounds .exact window step rounds 0) e).InRange := by
    rw [stateAfter_congr hwalk]
    exact hrange
  exact ((agrees_advanceRounds hw step rounds 0).agree e (Nat.zero_le _) (.inr hstate)).trans hwalk

/-- A star over a path that can be run through without a move is refused. -/
theorem encodeWithin_star {operations : List Operation}
    (hoperations : ∀ operation ∈ operations, operation.InRange) {window : Window}
    (hw : window.InRange) {step : Nat} (hs : step ≤ window.horizon) (modality : Modality)
    {body : Path} (hbody : body.isNullable = true) (arg : Formula) (depth : Nat)
    (hrange : ((empty.performAll operations).numbered
      (.dynamic modality (.star body) arg)).InRange) :
    encodeWithin (depth + 1) window (.dynamic modality (.star body) arg) step
        (empty.performAll operations) =
      .error (.violation (.malformedPath (.dynamic modality (.star body) arg) (.star body)))
        ((empty.performAll operations).numbered (.dynamic modality (.star body) arg)).missed := by
  have hgrown : (empty.performAll operations).Grows
      ((empty.performAll operations).numbered (.dynamic modality (.star body) arg)) :=
    Change.grows (@Change.number _ 0 _ _)
  have hsame := performAll_eq_exact hoperations (hrange.of_grows hgrown)
  rw [hsame] at hrange ⊢
  have hpath : (Path.star body).isNormal = false := by
    rw [Path.isNormal, hbody]
    rfl
  have hrefused : @encodeWithin .exact (depth + 1) window (.dynamic modality (.star body) arg)
      step (@performAll .exact empty operations) =
        .error (.violation (.malformedPath (.dynamic modality (.star body) arg) (.star body)))
          ((@performAll .exact empty operations).numbered
            (.dynamic modality (.star body) arg)).missed :=
    encodeStep_malformed _ (fit_performAll operations) hpath hs
  have hstate : (stateAfter (@encodeWithin .exact (depth + 1) window
      (.dynamic modality (.star body) arg) step) (@performAll .exact empty operations)).InRange := by
    rw [stateAfter_error hrefused]
    exact ⟨hrange.atoms, hrange.formulas⟩
  exact ((Agrees.encodeWithin (depth + 1)).ask hw _ step |>.agree _ (Nat.zero_le _)
    (.inr hstate)).trans hrefused

/-- **Every recursion of the encoder comes to an end.**  The request for a literal and the
requirement, whatever the encoder, the formula, its paths, the window and the step, have the
outcome of the recursion to any large depth.  The walk over the instances, on any edge that
operations can leave, has the outcome of the walk that also visits what is put on the edge
meanwhile, if it ends in range.  A star over a path that can be run through without a move is
refused before it is unfolded, to whatever depth. -/
theorem settles {operations : List Operation}
    (hoperations : ∀ operation ∈ operations, operation.InRange) {window : Window}
    (hwindow : window.InRange) (f : Formula) (step : Nat) (guard : List Lit) :
    (∀ e, SettlesOn (fun depth => do
      let _ ← register f
      encodeWithin depth window f step) (encode window f step) e) ∧
    (∀ e, SettlesOn (fun depth => do
      let _ ← register f
      requireWithin depth window f step guard) (require window f step guard) e) ∧
    ((stateAfter (advanceInstances window step) (empty.performAll operations)).InRange →
      SettlesOn (fun rounds => advanceRounds window step rounds 0) (advanceInstances window step)
        (empty.performAll operations)) ∧
    ∀ modality body arg depth, body.isNullable = true → step ≤ window.horizon →
      let star := Formula.dynamic modality (.star body) arg
      ((empty.performAll operations).numbered star).InRange →
      encodeWithin (depth + 1) window star step (empty.performAll operations) =
        .error (.violation (.malformedPath star (.star body)))
          ((empty.performAll operations).numbered star).missed := by
  refine ⟨encode_settles hwindow f step, require_settles hwindow f step guard,
    fun hrange => ?_, fun modality body arg depth hbody hs =>
      encodeWithin_star hoperations hwindow hs modality hbody arg depth⟩
  obtain ⟨hsame, -⟩ := run_eq_exact hoperations (Agrees.advanceInstances hwindow step) hrange
  rw [hsame] at hrange ⊢
  exact advanceInstances_settles_of_exact hwindow
    (advanceInstances_settles (fit_performAll operations) window step) hrange

end InRange

/-- The repetition of a test, on an edge with an instance that has been advanced. -/
theorem settles_star :
    let p := Formula.atom "p" [] true
    let waits := Formula.temporal .untl p (.next p false)
    let operations : List Operation := [.require ⟨0, false, .initial⟩ waits 0 [],
      .resolveBoundaries ⟨1, false, .initial⟩ 1, .advanceInstances ⟨1, false, .initial⟩ 1]
    let star := Formula.dynamic .box (.star (.test p)) waits
    (Path.test p).isNullable = true ∧ (∀ operation ∈ operations, operation.InRange) ∧
      (stateAfter (advanceInstances ⟨2, false, .initial⟩ 2)
        (empty.performAll operations)).InRange ∧
      ((empty.performAll operations).numbered star).InRange ∧
      (empty.performAll operations).edge.instances.map (·.last) = [1] ∧
      SettlesOn (fun rounds => advanceRounds ⟨2, false, .initial⟩ 2 rounds 0)
        (advanceInstances ⟨2, false, .initial⟩ 2) (empty.performAll operations) ∧
      encodeWithin 1 ⟨2, false, .initial⟩ star 2 (empty.performAll operations) =
        .error (.violation (.malformedPath star (.star (.test p))))
          ((empty.performAll operations).numbered star).missed := by
  intro p waits operations star
  have hoperations : ∀ operation ∈ operations, operation.InRange := by decide +kernel
  have hwindow : Window.InRange ⟨2, false, .initial⟩ := by decide
  have hadvanced : (stateAfter (advanceInstances ⟨2, false, .initial⟩ 2)
      (empty.performAll operations)).InRange := by decide +kernel
  have hnumbered : ((empty.performAll operations).numbered star).InRange := by decide +kernel
  have hsettles := settles hoperations hwindow star 2 []
  have hnullable : (Path.test p).isNullable = true := by decide
  have hinstances : (empty.performAll operations).edge.instances.map (·.last) = [1] := by
    decide +kernel
  exact ⟨hnullable, hoperations, hadvanced, hnumbered, hinstances, hsettles.2.2.1 hadvanced,
    hsettles.2.2.2 .box (.test p) waits 0 hnullable (Nat.le_refl 2) hnumbered⟩

end Encoder
end TemporalHorizon

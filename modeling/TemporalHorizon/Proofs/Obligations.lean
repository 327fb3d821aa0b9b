import TemporalHorizon.Proofs.Intended

/-!
# Requirements and truth

On a closed horizon a requirement under a true guard and the truth of its formula
come to the same, in a set of atoms in which all literals are right.

* From below: if the rules of the ledger are satisfied and all its requirements are
  met, then every formula that is required under a true guard holds
  (`Discharges.ensures`).  This goes by recursion on the formula.
* From above: if the theory and the demands hold, then so does every formula that is
  warranted under a true guard (`Warranted.holds`), and all rules of the requirement
  are satisfied (`Duty.satisfiedBy`).

An until or a release is unrolled over all steps up to the last one.  What it asks
for at a step counts only as long as its witness has not come, which is what the
carriers are for; `Formula.Unrolls.holds_iff` is the same statement about traces.
-/

namespace TemporalHorizon

attribute [local instance] Arithmetic.exact

/-! ## Steps -/

namespace Instant

variable {edge : Instant} {s t : Nat}

/-- A step before the edge has the step after it. -/
theorem after_of_lt (h : s < edge.index) : edge.after s = .reached (s + 1) := by
  rw [after, Window.shift_one]
  exact if_pos h

theorem eq_of_after_reached (ha : edge.after s = .reached t) : s < edge.index ∧ t = s + 1 := by
  obtain ⟨rfl, hle⟩ := Window.eq_of_shift_one ha
  exact ⟨hle, rfl⟩

theorem eq_of_after_ne (hs : s ≤ edge.index) (ha : ∀ t, edge.after s ≠ .reached t) :
    s = edge.index := by
  by_contra hne
  exact ha (s + 1) (after_of_lt (Nat.lt_of_le_of_ne hs hne))

end Instant

/-! ## Unrolled formulas in a trace -/

namespace Fixpoint

variable {last origin : Nat} {left right : Nat → Prop}

/-- An until asks for one of its operands at each step, and for the right one at the
last step, as long as the right one has not come. -/
theorem holds_untl_iff (h : origin ≤ last) :
    untl.Holds last left right origin ↔
      ∀ t, origin ≤ t → t ≤ last → (¬ ∃ i, origin ≤ i ∧ i < t ∧ right i) →
        (left t ∨ right t) ∧ (t = last → right t) := by
  constructor
  · rintro ⟨i, ho, hi, hr, hl⟩ t hot htl hopen
    rcases Nat.lt_trichotomy i t with hlt | rfl | hgt
    · exact absurd ⟨i, ho, hlt, hr⟩ hopen
    · exact ⟨.inr hr, fun _ => hr⟩
    · exact ⟨.inl (hl t hot hgt), fun htlast => by omega⟩
  · -- From the last step backwards.
    intro hasks
    obtain ⟨rest, hrest⟩ := Nat.exists_eq_add_of_le h
    induction rest generalizing origin with
    | zero =>
      obtain rfl : last = origin := hrest
      refine holds_untl_last.2 ((hasks last (Nat.le_refl _) (Nat.le_refl _) ?_).2 rfl)
      rintro ⟨i, hle, hlt, -⟩
      omega
    | succ rest ih =>
      have hlt : origin < last := by omega
      rw [holds_untl_of_lt hlt]
      have hnow := hasks origin (Nat.le_refl _) h (by rintro ⟨i, hle, hlt, -⟩; omega)
      rcases Classical.em (right origin) with hr | hr
      · exact .inl hr
      · refine .inr ⟨hnow.1.resolve_right hr, ih hlt (fun t hot htl hopen => ?_) (by omega)⟩
        refine hasks t (by omega) htl ?_
        rintro ⟨i, hoi, hit, hri⟩
        have hne : i ≠ origin := fun heq => hr (heq ▸ hri)
        exact hopen ⟨i, by omega, hit, hri⟩

/-- A release asks for its right operand at each step, as long as the left one has not
come before. -/
theorem holds_release_iff :
    release.Holds last left right origin ↔
      ∀ t, origin ≤ t → t ≤ last → (¬ ∃ i, origin ≤ i ∧ i < t ∧ left i) → right t := by
  constructor
  · intro h t hot htl hopen
    exact (h t hot htl).resolve_right hopen
  · intro hasks t hot htl
    rcases Classical.em (∃ i, origin ≤ i ∧ i < t ∧ left i) with hcome | hopen
    · exact .inr hcome
    · exact .inl (hasks t hot htl hopen)

/-- What an unrolled formula asks for at a step at which it is open. -/
def Asks (trace : Trace) (lhs : Option Formula) (rhs : Formula) (t : Nat) : Fixpoint → Prop
  | .untl => (untl.leftHolds trace lhs t ∨ rhs.Holds trace t) ∧
    (t = trace.last → rhs.Holds trace t)
  | _ => rhs.Holds trace t

end Fixpoint

/-- An unrolled formula holds if at each step at which it is open it has what it asks
for. -/
theorem Formula.Unrolls.holds_iff {f rhs : Formula} {op : Fixpoint} {lhs : Option Formula}
    (h : f.Unrolls op lhs rhs) {trace : Trace} {origin : Nat} (ho : origin ≤ trace.last) :
    f.Holds trace origin ↔
      ∀ t, origin ≤ t → t ≤ trace.last → ¬ f.Settled trace origin t → op.Asks trace lhs rhs t := by
  simp only [Formula.settled_iff h]
  cases h with
  | eventually arg => exact Fixpoint.holds_untl_iff ho
  | untl lhs rhs => exact Fixpoint.holds_untl_iff ho
  | release lhs rhs => exact Fixpoint.holds_release_iff

/-! ## Disjunctions -/

theorem Formula.holds_iff_disjuncts (trace : Trace) (f : Formula) (s : Nat) :
    f.Holds trace s ↔ ∃ g ∈ f.disjuncts, g.Holds trace s := by
  induction f using Formula.disjuncts.induct with
  | case1 lhs rhs ihl ihr =>
    rw [Formula.disjuncts]
    simp only [List.mem_append, or_and_right, exists_or]
    rw [← ihl, ← ihr]
    exact Iff.rfl
  | case2 f hf =>
    rw [Formula.disjuncts.eq_2 f hf]
    simp

/-! ## Theories in a trace -/

/-- The steps of a stage, up to a last step. -/
def Stage.Spans (last k : Nat) : Stage → Prop
  | .initial => k = 0
  | .dynamic => 1 ≤ k ∧ k ≤ last
  | .always => k ≤ last
  | .final => k = last

theorem Stage.Spans.le {stage : Stage} {last k : Nat} (h : stage.Spans last k) : k ≤ last := by
  cases stage with
  | initial =>
    rw [show k = 0 from h]
    exact Nat.zero_le last
  | dynamic => exact h.2
  | always => exact h
  | final => exact Nat.le_of_eq h

/-- The formulas of a theory hold at all steps of their stages, and the demands hold
at theirs. -/
structure Brief.HoldsIn (brief : Brief) (trace : Trace) : Prop where
  staged : ∀ stage f, (stage, f) ∈ brief.theory.formulas → ∀ k, stage.Spans trace.last k →
    f.Holds trace k
  demanded : ∀ f s, (f, s) ∈ brief.demands → f.Holds trace s

theorem Theory.mem_finals {theory : Theory} {f : Formula} :
    f ∈ theory.finals ↔ (.final, f) ∈ theory.formulas := by
  simp [finals]

theorem Theory.mem_current {theory : Theory} {stage : Stage} {f : Formula} {last k : Nat}
    (hk : k ≤ last) :
    (stage, f) ∈ theory.current ⟨k, false⟩ ↔
      (stage, f) ∈ theory.formulas ∧ stage ≠ .final ∧ stage.Spans last k := by
  unfold current
  rw [List.mem_filter]
  refine and_congr_right fun _ => ?_
  by_cases hzero : k = 0
  · cases stage <;> simp [Instant.stages, Stage.Spans, hzero]
  · have hone : 1 ≤ k := Nat.one_le_iff_ne_zero.2 hzero
    cases stage <;> simp [Instant.stages, Stage.Spans, hzero, hone, hk]

namespace Ledger

variable {edge : Instant} {ledger : Ledger} {trace : Trace} {atoms : Set Nat}

namespace Faithful

/-- One of the disjuncts holds if an atom of the head is true or the body is not. -/
theorem sorted_iff (h : ledger.Faithful trace atoms) {s : Nat} {fs : List Formula}
    {head : List Nat} {body : List Lit} (hs : ledger.lit.Sorted s fs head body) :
    (∃ g ∈ fs, g.Holds trace s) ↔
      (∃ a ∈ head, a ∈ atoms) ∨ ¬ ∀ l ∈ body, l.TrueIn atoms := by
  induction hs with
  | nil => simp
  | @atom f rest a head body hf ha _ ih =>
    rw [Ledger.lit, if_pos hf] at ha
    simp only [List.mem_cons, exists_eq_or_imp, ih, h.ground f s a ha, or_assoc]
  | @falsity rest head body _ ih =>
    have hfalse : ¬ (Formula.bool false).Holds trace s := nofun
    simp only [List.mem_cons, exists_eq_or_imp, ih, hfalse, false_or]
  | @other f rest x head body _ _ hx _ ih =>
    simp only [List.mem_cons, exists_eq_or_imp, forall_eq_or_imp, ih, Lit.trueIn_neg,
      h.lit f s x hx]
    rw [not_and_or, not_not, or_left_comm]

/-- The literals of a guard set are those of the guard, but for the constant true. -/
theorem guardSet_iff (h : ledger.Faithful trace atoms) {guard : List Lit}
    (hpos : ∀ l ∈ guard, 0 < l.atom) :
    (∀ l ∈ Encoder.guardSet guard, l.TrueIn atoms) ↔ ∀ l ∈ guard, l.TrueIn atoms := by
  constructor
  · intro hall l hl
    by_cases htruth : l = Lit.truth
    · subst htruth
      exact h.one
    · exact hall l (Encoder.mem_guardSet hpos hl htruth)
  · intro hall l hl
    exact hall l (Encoder.mem_of_mem_guardSet hl)

/-- The guard of a step is true if the guard is and the witness has not come. -/
theorem stepGuard_iff (h : ledger.Faithful trace atoms) {f : Formula} {origin t : Nat}
    {earlier : Option Lit} (hearlier : ledger.Earlier f origin t earlier) (guard : List Lit) :
    (∀ l ∈ stepGuard guard earlier, l.TrueIn atoms) ↔
      (∀ l ∈ guard, l.TrueIn atoms) ∧ ¬ f.Settled trace origin t := by
  cases hearlier with
  | start =>
    rw [show stepGuard guard none = guard from List.append_nil guard]
    exact (and_iff_left Formula.not_settled_origin).symm
  | @step t c _ hc =>
    show (∀ l ∈ guard ++ [-c], l.TrueIn atoms) ↔ _
    rw [List.forall_mem_append, List.forall_mem_singleton, Lit.trueIn_neg,
      h.carrier f origin t c hc]

end Faithful

/-! ## From below: met requirements hold -/

/-- A formula that has been unrolled has been prepared at every step. -/
theorem Unrolled.prepared {f rhs : Formula} {origin t : Nat} {guard : List Lit}
    {carrier : Option Lit} {op : Fixpoint} {lhs : Option Formula}
    (hu : ledger.Unrolled f origin guard t carrier) (hf : f.Unrolls op lhs rhs) {i : Nat}
    (ho : origin ≤ i) (hi : i < t) :
    ∃ earlier, ledger.Earlier f origin i earlier ∧
      ledger.Prepared i (stepGuard guard earlier) op lhs rhs := by
  induction hu with
  | start => exact absurd hi (Nat.not_lt_of_le ho)
  | @step t earlier _ hu hs ih =>
    rcases Nat.lt_or_eq_of_le (Nat.le_of_lt_succ hi) with hlt | rfl
    · exact ih hlt
    · obtain ⟨hf', hp, -, -, -⟩ := hs
      obtain ⟨rfl, rfl, rfl⟩ := hf.unique hf'
      exact ⟨earlier, hu.earlier, hp⟩

/-- In a set of atoms the literals of a ledger are right, its rules are satisfied, and
its requirements are met. -/
structure Discharges (edge : Instant) (ledger : Ledger) (trace : Trace) (atoms : Set Nat) :
    Prop where
  faithful : ledger.Faithful trace atoms
  last : trace.last = edge.index
  rules : ∀ rule ∈ ledger.rules, rule.SatisfiedBy atoms
  met : ∀ f s guard, ledger.required f s guard → Met edge ledger f s guard
  reached : ∀ f s guard, ledger.required f s guard → s ≤ edge.index

/-- A formula holds wherever it is required under a true guard. -/
def Ensures (ledger : Ledger) (trace : Trace) (atoms : Set Nat) (f : Formula) (s : Nat) : Prop :=
  ∀ guard, ledger.required f s guard → (∀ l ∈ guard, l.TrueIn atoms) → f.Holds trace s

namespace Discharges

variable {f arg lhs rhs : Formula} {s t : Nat} {guard : List Lit}

/-- A requirement that is passed on under a true guard has been taken on. -/
theorem holds_of_owes (h : Discharges edge ledger trace atoms)
    (hf : Ensures ledger trace atoms f s) (howes : ledger.Owes f s guard)
    (hguard : ∀ l ∈ guard, l.TrueIn atoms) : f.Holds trace s := by
  rcases howes with hfalse | hreq
  · exact absurd (hguard Lit.falsity hfalse) h.faithful.one
  · exact hf _ hreq fun l hl => hguard l (Encoder.mem_of_mem_guardSet hl)

/-- A constraint that was posted has a false literal. -/
theorem not_all_of_constraint (h : Discharges edge ledger trace atoms) {body : List Lit}
    (hposted : ledger.Posted (.constraint body)) : ¬ ∀ l ∈ body, l.TrueIn atoms :=
  (Rule.satisfiedBy_constraint body).1 (hposted.satisfiedBy h.faithful.one h.rules)

/-- A constraint that was posted under a true guard excludes its last literal. -/
theorem not_of_constraint (h : Discharges edge ledger trace atoms) {l : Lit}
    (hposted : ledger.Posted (.constraint (guard ++ [l])))
    (hguard : ∀ l ∈ guard, l.TrueIn atoms) : ¬ l.TrueIn atoms := by
  intro htrue
  refine h.not_all_of_constraint hposted (List.forall_mem_append.2 ⟨hguard, ?_⟩)
  exact List.forall_mem_singleton.2 htrue

/-- Disjunctions are not passed on: their literals are all that counts. -/
theorem ensures_or (h : Discharges edge ledger trace atoms) :
    Ensures ledger trace atoms (.binary .or lhs rhs) s := by
  intro guard hreq hguard
  rcases (h.met _ s guard hreq).or_of with hcut | ⟨head, body, hs, hposted⟩
  · exact (Formula.holds_iff_disjuncts trace _ s).2 ⟨.bool true, hcut.truth_mem, rfl⟩
  · rw [Formula.holds_iff_disjuncts, h.faithful.sorted_iff hs]
    rcases Classical.em (∀ l ∈ body, l.TrueIn atoms) with hbody | hbody
    · exact .inl (hposted.satisfiedBy h.faithful.one h.rules rfl
        (List.forall_mem_append.2 ⟨hguard, hbody⟩))
    · exact .inr hbody

/-- A required next holds if its argument does at the step after. -/
theorem ensures_next (h : Discharges edge ledger trace atoms) {weak : Bool}
    (harg : s < edge.index → Ensures ledger trace atoms arg (s + 1)) :
    Ensures ledger trace atoms (.next arg weak) s := by
  intro guard hreq hguard
  have hs := h.reached _ s guard hreq
  -- At the last step only a weak next can be left.
  have hend : s = edge.index → (weak = false → False) → (Formula.next arg weak).Holds trace s := by
    intro heq hstrong
    rw [Formula.holds_next_of_le (by rw [h.last, heq])]
    exact Bool.eq_true_of_not_eq_false hstrong
  rcases (h.met _ s guard hreq).next_of with ⟨t, ha, howes⟩ | ⟨t, ha, hstrong⟩ | ⟨ha, hstrong⟩
  · obtain ⟨hlt, rfl⟩ := Instant.eq_of_after_reached ha
    rw [Formula.holds_next_of_lt (by rw [h.last]; exact hlt)]
    exact h.holds_of_owes (harg hlt) howes hguard
  · have heq : s = edge.index := by
      refine @Instant.eq_of_after_ne ⟨edge.index, false⟩ s hs fun t' ht' => ?_
      rw [ht'] at ha
      cases ha
    refine hend heq fun hweak => ?_
    obtain ⟨n, hn, hposted⟩ := hstrong hweak
    have hfalse := h.not_of_constraint hposted hguard
    rw [Lit.trueIn_neg, not_not, h.faithful.lit _ s n hn, Formula.holds_hasNext, h.last] at hfalse
    exact Nat.ne_of_lt hfalse heq
  · refine hend (Instant.eq_of_after_ne hs fun t' ht' => ?_) fun hweak =>
      h.not_all_of_constraint (hstrong hweak) hguard
    rw [ht'] at ha
    rcases ha with ha | ha <;> cases ha

/-- A required always holds if its argument does at all later steps: by induction on
the number of steps that are left. -/
theorem ensures_always (h : Discharges edge ledger trace atoms)
    (harg : ∀ t, Ensures ledger trace atoms arg t) :
    Ensures ledger trace atoms (.modal .release arg) s := by
  have hfix : Formula.IsFixpoint (.modal .release arg) .release none arg := .modal .release arg
  intro guard hreq hguard
  have hs := h.reached _ s guard hreq
  obtain ⟨rest, hrest⟩ := Nat.exists_eq_add_of_le hs
  induction rest using Nat.strongRecOn generalizing s guard with
  | ind rest ih =>
    obtain ⟨hnow, hnext⟩ := (h.met _ s guard hreq).always_of
    rw [hfix.holds_future rfl (by rw [h.last]; exact hs)]
    refine ⟨h.holds_of_owes (harg s) hnow hguard, .inr ?_⟩
    refine h.holds_of_owes (h.ensures_next fun hlt guard' hreq' hguard' => ?_) hnext hguard
    exact ih (edge.index - (s + 1)) (by omega) guard' hreq' hguard' hlt (by omega)

/-- What an unrolled formula requires at a step under a true guard is what it asks
for. -/
theorem asks_of_prepared (h : Discharges edge ledger trace atoms)
    (hrhs : Ensures ledger trace atoms rhs t) {op : Fixpoint} {left : Option Formula}
    (hp : ledger.Prepared t guard op left rhs) (hguard : ∀ l ∈ guard, l.TrueIn atoms) :
    op.Asks trace left rhs t := by
  -- At the last step the right operand is required without the way out.
  have hend : ∀ n, ledger.lit Formula.hasNext t = some n →
      ledger.Owes rhs t (guard ++ [-n]) → t = trace.last → rhs.Holds trace t := by
    intro n hn howes heq
    refine h.holds_of_owes hrhs howes (List.forall_mem_append.2 ⟨hguard, ?_⟩)
    rw [List.forall_mem_singleton, Lit.trueIn_neg, h.faithful.lit _ t n hn, Formula.holds_hasNext]
    exact Nat.not_lt_of_le (Nat.le_of_eq heq.symm)
  cases hp with
  | eventually hn howes => exact ⟨.inl rfl, hend _ hn howes⟩
  | untl hor hn howes => exact ⟨h.holds_of_owes h.ensures_or hor hguard, hend _ hn howes⟩
  | release howes => exact h.holds_of_owes hrhs howes hguard

/-- A required formula that is unrolled holds if its right operand does wherever it is
required. -/
theorem ensures_unrolled (h : Discharges edge ledger trace atoms) {op : Fixpoint}
    {left : Option Formula} (hf : f.Unrolls op left rhs)
    (hrhs : ∀ t, Ensures ledger trace atoms rhs t) : Ensures ledger trace atoms f s := by
  intro guard hreq hguard
  have hs := h.reached f s guard hreq
  obtain ⟨carrier, hunrolled⟩ := (h.met f s guard hreq).unrolled_of hf
  rw [hf.holds_iff (by rw [h.last]; exact hs), h.last]
  intro t hst ht hopen
  obtain ⟨earlier, hearlier, hp⟩ := hunrolled.prepared hf hst (Nat.lt_succ_of_le ht)
  exact h.asks_of_prepared (hrhs t) hp ((h.faithful.stepGuard_iff hearlier guard).2 ⟨hguard, hopen⟩)

/-- A required formula without a rule of its own. -/
theorem ensures_excluded (h : Discharges edge ledger trace atoms) (hf : f.isExcluded = true) :
    Ensures ledger trace atoms f s := by
  intro guard hreq hguard
  obtain ⟨x, hx, hposted⟩ := (h.met f s guard hreq).excluded_of hf
  have hfalse := h.not_of_constraint hposted hguard
  rwa [Lit.trueIn_neg, not_not, h.faithful.lit f s x hx] at hfalse

/-- **What is required under a true guard holds.** -/
theorem ensures (h : Discharges edge ledger trace atoms) (f : Formula) (s : Nat) :
    Ensures ledger trace atoms f s := by
  match f with
  | .atom name args positive =>
    intro guard hreq hguard
    obtain ⟨a, ha, hposted⟩ := (h.met _ s guard hreq).atom_of rfl
    rw [← h.faithful.ground _ s a ha]
    exact (Rule.satisfiedBy_normal a.atom guard).1
      (hposted.satisfiedBy h.faithful.one h.rules) hguard
  | .bool true => exact fun _ _ _ => rfl
  | .bool false =>
    intro guard hreq hguard
    exact absurd hguard (h.not_all_of_constraint (h.met _ s guard hreq).falsity_of)
  | .not arg =>
    intro guard hreq hguard
    obtain ⟨x, hx, hposted⟩ := (h.met _ s guard hreq).not_of
    have hfalse := h.not_of_constraint hposted hguard
    rwa [h.faithful.lit arg s x hx] at hfalse
  | .binary .and lhs rhs =>
    intro guard hreq hguard
    obtain ⟨hl, hr⟩ := (h.met _ s guard hreq).and_of
    exact ⟨h.holds_of_owes (h.ensures lhs s) hl hguard, h.holds_of_owes (h.ensures rhs s) hr hguard⟩
  | .binary .or lhs rhs => exact h.ensures_or
  | .binary .implies lhs rhs =>
    intro guard hreq hguard hlhs
    obtain ⟨x, hx, howes⟩ := (h.met _ s guard hreq).implies_of
    refine h.holds_of_owes (h.ensures rhs s) howes (List.forall_mem_append.2 ⟨hguard, ?_⟩)
    exact List.forall_mem_singleton.2 ((h.faithful.lit lhs s x hx).2 hlhs)
  | .binary .implied lhs rhs =>
    intro guard hreq hguard hrhs
    obtain ⟨x, hx, howes⟩ := (h.met _ s guard hreq).implied_of
    refine h.holds_of_owes (h.ensures lhs s) howes (List.forall_mem_append.2 ⟨hguard, ?_⟩)
    exact List.forall_mem_singleton.2 ((h.faithful.lit rhs s x hx).2 hrhs)
  | .next arg weak => exact h.ensures_next fun _ => h.ensures arg (s + 1)
  | .modal .release arg => exact h.ensures_always fun t => h.ensures arg t
  | .modal .untl arg => exact h.ensures_unrolled (.eventually arg) fun t => h.ensures arg t
  | .temporal .untl lhs rhs => exact h.ensures_unrolled (.untl lhs rhs) fun t => h.ensures rhs t
  | .temporal .release lhs rhs =>
    exact h.ensures_unrolled (.release lhs rhs) fun t => h.ensures rhs t
  | .initial | .final | .binary .equiv _ _ | .previous _ _ | .initially _ | .dynamic _ _ _ =>
    exact h.ensures_excluded rfl
  | .temporal .since _ _ | .temporal .trigger _ _ | .modal .since _ | .modal .trigger _ =>
    exact h.ensures_excluded rfl
termination_by structural f

end Discharges

/-! ## From above: warranted requirements hold -/

/-- What holds under a true guard holds for all that it is passed on to. -/
theorem Child.holds {f g : Formula} {s t : Nat} {guard guard' : List Lit}
    (hc : Child edge ledger f s guard g t guard') (h : ledger.Faithful trace atoms)
    (hlast : trace.last = edge.index)
    (hs : s ≤ edge.index) (hf : (∀ l ∈ guard, l.TrueIn atoms) → f.Holds trace s) :
    t ≤ edge.index ∧ ((∀ l ∈ guard', l.TrueIn atoms) → g.Holds trace t) := by
  have hs' : s ≤ trace.last := hlast ▸ hs
  -- What an unrolled formula asks for at a step whose guard is true.
  have hasks : ∀ {op left rhs earlier t}, f.Unrolls op left rhs → s ≤ t → t ≤ edge.index →
      ledger.Earlier f s t earlier → (∀ l ∈ stepGuard guard earlier, l.TrueIn atoms) →
      op.Asks trace left rhs t := by
    intro op left rhs earlier t hu ho ht hearlier hguard
    obtain ⟨hguard, hopen⟩ := (h.stepGuard_iff hearlier guard).1 hguard
    exact (hu.holds_iff hs').1 (hf hguard) t ho (hlast ▸ ht) hopen
  cases hc with
  | andLeft => exact ⟨hs, fun hguard => (hf hguard).1⟩
  | andRight => exact ⟨hs, fun hguard => (hf hguard).2⟩
  | @implies lhs rhs _ _ x hx =>
    refine ⟨hs, fun hguard => ?_⟩
    obtain ⟨hguard, htrue⟩ := List.forall_mem_append.1 hguard
    exact hf hguard ((h.lit lhs s x hx).1 (List.forall_mem_singleton.1 htrue))
  | @implied lhs rhs _ _ x hx =>
    refine ⟨hs, fun hguard => ?_⟩
    obtain ⟨hguard, htrue⟩ := List.forall_mem_append.1 hguard
    exact hf hguard ((h.lit rhs s x hx).1 (List.forall_mem_singleton.1 htrue))
  | next ha =>
    obtain ⟨hlt, rfl⟩ := Instant.eq_of_after_reached ha
    exact ⟨hlt, fun hguard => (Formula.holds_next_of_lt (hlast ▸ hlt) _ _).1 (hf hguard)⟩
  | alwaysNow =>
    refine ⟨hs, fun hguard => ?_⟩
    obtain ⟨hnow, -⟩ := ((Formula.IsFixpoint.modal .release g).holds_future rfl hs').1 (hf hguard)
    exact hnow
  | @alwaysNext arg _ _ =>
    refine ⟨hs, fun hguard => ?_⟩
    obtain ⟨-, hnext⟩ := ((Formula.IsFixpoint.modal .release arg).holds_future rfl hs').1 (hf hguard)
    exact hnext.resolve_left nofun
  | operands hu ho ht hearlier => exact ⟨ht, fun hguard => (hasks hu ho ht hearlier hguard).1⟩
  | @settle _ _ _ _ _ _ _ n hu ho ht hearlier hn =>
    refine ⟨ht, fun hguard => ?_⟩
    obtain ⟨hguard, hfalse⟩ := List.forall_mem_append.1 hguard
    rw [List.forall_mem_singleton, Lit.trueIn_neg, h.lit _ t n hn, Formula.holds_hasNext] at hfalse
    exact (hasks hu ho ht hearlier hguard).2 (by omega)
  | hold hu ho ht hearlier => exact ⟨ht, fun hguard => hasks hu ho ht hearlier hguard⟩

/-- **What is warranted under a true guard holds**, if the theory and the demands
do. -/
theorem Warranted.holds {brief : Brief} {f : Formula} {s : Nat} {guard : List Lit}
    (hw : Warranted brief edge ledger f s guard) (hbrief : brief.HoldsIn trace)
    {role : Nat → Role} {due : List Boundary} (hsound : Sound role due edge ledger)
    (h : ledger.Faithful trace atoms) (hlast : trace.last = edge.index)
    :
    s ≤ edge.index ∧ ((∀ l ∈ guard, l.TrueIn atoms) → f.Holds trace s) := by
  induction hw with
  | @staged stage f k hmem hk =>
    obtain ⟨hformula, -, hspans⟩ := (Theory.mem_current (hlast ▸ hk)).1 hmem
    exact ⟨hk, fun _ => hbrief.staged stage f hformula k hspans⟩
  | @guarded f k g hmem hk hg =>
    refine ⟨hk, fun hguard => ?_⟩
    have hfinal : k = trace.last := (h.lit .final k g hg).1 (hguard g (List.mem_singleton.2 rfl))
    exact hbrief.staged .final f (Theory.mem_finals.1 hmem) k hfinal
  | @last f hmem _ =>
    exact ⟨Nat.le_refl _, fun _ => hbrief.staged .final f (Theory.mem_finals.1 hmem) _ hlast.symm⟩
  | @demanded f s hmem hs => exact ⟨hs, fun _ => hbrief.demanded f s hmem⟩
  | @child f s guard g t guard' hparent hc ih =>
    have hpos : ∀ l ∈ guard, 0 < l.atom := fun l hl => (hsound.warranted_inScope hparent l hl).pos
    refine hc.holds h hlast ih.1 fun hguard => ih.2 ?_
    exact (h.guardSet_iff hpos).1 hguard

/-- The rules of a requirement are satisfied if its formula holds wherever its guard
is true. -/
theorem Duty.satisfiedBy {f : Formula} {s : Nat} {guard : List Lit} {rule : Rule}
    (hd : Duty edge ledger f s guard rule) (h : ledger.Faithful trace atoms)
    (hlast : trace.last = edge.index)
    (hs : s ≤ edge.index) (hf : (∀ l ∈ guard, l.TrueIn atoms) → f.Holds trace s) :
    rule.SatisfiedBy atoms := by
  cases hd with
  | @atom _ _ _ a _ ha =>
    rw [Rule.satisfiedBy_normal, h.ground f s a ha]
    exact hf
  | falsity =>
    rw [Rule.satisfiedBy_constraint]
    exact fun hguard => Bool.false_ne_true (hf hguard)
  | @or lhs rhs _ _ head body hsorted =>
    intro _ hbody
    obtain ⟨hguard, hbody⟩ := List.forall_mem_append.1 hbody
    have hholds := (h.sorted_iff hsorted).1 ((Formula.holds_iff_disjuncts trace _ s).1 (hf hguard))
    exact hholds.resolve_right (not_not_intro hbody)
  | @not arg _ _ x hx =>
    rw [Rule.satisfiedBy_constraint, List.forall_mem_append, List.forall_mem_singleton,
      h.lit arg s x hx]
    exact fun hall => hf hall.1 hall.2
  | @stepAfter arg _ _ n hn =>
    rw [Rule.satisfiedBy_constraint, List.forall_mem_append, List.forall_mem_singleton,
      Lit.trueIn_neg, h.lit _ s n hn, Formula.holds_hasNext]
    rintro ⟨hguard, hend⟩
    exact Bool.false_ne_true ((Formula.holds_next_of_le (Nat.le_of_not_lt hend) _ _).1 (hf hguard))
  | @noStep arg _ _ ha =>
    have heq : s = edge.index := by
      refine Instant.eq_of_after_ne hs fun t ht => ?_
      rw [ht] at ha
      rcases ha with ha | ha <;> cases ha
    rw [Rule.satisfiedBy_constraint]
    intro hguard
    have hend : trace.last ≤ s := by rw [hlast, heq]
    exact Bool.false_ne_true ((Formula.holds_next_of_le hend _ _).1 (hf hguard))
  | @excluded _ _ _ x _ hx =>
    rw [Rule.satisfiedBy_constraint, List.forall_mem_append, List.forall_mem_singleton,
      Lit.trueIn_neg, h.lit f s x hx]
    exact fun hall => hall.2 (hf hall.1)

end Ledger
end TemporalHorizon

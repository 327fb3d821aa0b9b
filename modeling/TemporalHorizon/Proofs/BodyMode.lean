import TemporalHorizon.Proofs.ExactSessions
import TemporalHorizon.Proofs.Truth

/-!
# Answers are right on a closed horizon

When the horizon is closed, the literal that was returned for a formula at a step is
true in a stable model exactly if the formula holds at that step of the trace that
the model induces.  It does not matter when the literal was returned, nor what other
rules there are for ground atoms.

An atom that is chosen freely is fixed by its constraints.  One that has waited for
a later step is not: it has a single rule at most, and since nothing else derives
it, it is true only if the body of that rule is.
-/

namespace TemporalHorizon

section Exact

attribute [local instance] Arithmetic.exact

namespace Ledger

variable {role : Nat → Role} {edge : Instant} {ledger : Ledger} {others : List Rule}
  {atoms : Set Nat}

/-- The value of an atom that has waited for the step after a given one. -/
theorem Sound.awaited_mem_iff (h : Sound role [] edge ledger)
    (hsettled : ledger.edge.boundaries = [])
    (hothers : ∀ rule ∈ others, ∀ a ∈ rule.head, ledger.IsGround a)
    (stable : StableModel ⟨ledger.rules ++ others, []⟩ atoms) {arg : Formula} {weak : Bool}
    {s a : Nat} (ha : role a = .awaited arg weak s) :
    (∃ y, s + 1 ≤ edge.index ∧ ledger.lit arg (s + 1) = some y ∧
      (a ∈ atoms ↔ y.TrueIn atoms)) ∨
    (s = edge.index ∧ (a ∈ atoms ↔ weak = true)) := by
  have hone := h.one_notMem hothers stable nofun
  have hrules : ∀ rule ∈ ledger.rules, rule.SatisfiedBy atoms := fun rule hr =>
    stable.satisfied rule (List.mem_append_left _ hr)
  cases (h.awaited_of_role ha).2 with
  | waiting hb =>
    rw [hsettled] at hb
    cases hb
  | @tied y hs hy hposted =>
    refine .inl ⟨y, hs, hy, fun hmem => ?_, fun htrue => ?_⟩
    · obtain ⟨raw, hderives, hbody⟩ := h.derived hothers stable nofun hmem List.not_mem_nil
      cases hderives with
      | tie ha' _ hy' =>
        rw [ha] at ha'
        cases ha'
        rw [hy] at hy'
        cases hy'
        exact hbody y (List.mem_singleton.2 rfl)
      | ending ha' _ =>
        rw [ha] at ha'
        cases ha'
        omega
      | ground ha' | chosen ha' | carried ha' _ _ | settled _ ha' _ _ =>
        rw [ha] at ha'
        cases ha'
    · exact hposted.mem_of_trueIn hone hrules htrue
  | ended _ hs hfact =>
    refine .inr ⟨hs, fun hmem => ?_, fun hweak => ?_⟩
    · obtain ⟨raw, hderives, -⟩ := h.derived hothers stable nofun hmem List.not_mem_nil
      cases hderives with
      | tie ha' hle _ =>
        rw [ha] at ha'
        cases ha'
        omega
      | ending ha' _ =>
        rw [ha] at ha'
        cases ha'
        rfl
      | ground ha' | chosen ha' | carried ha' _ _ | settled _ ha' _ _ =>
        rw [ha] at ha'
        cases ha'
    · exact (Rule.satisfiedBy_normal a []).1 ((hfact hweak).satisfiedBy hone hrules) nofun

/-- **In a stable model every literal means its formula.** -/
theorem Sound.trueIn_iff (h : Sound role [] edge ledger)
    (hsettled : ledger.edge.boundaries = [])
    (hothers : ∀ rule ∈ others, ∀ a ∈ rule.head, ledger.IsGround a)
    (stable : StableModel ⟨ledger.rules ++ others, []⟩ atoms) {f : Formula} {s : Nat} {l : Lit}
    (hl : ledger.lit f s = some l) :
    l.TrueIn atoms ↔ f.Holds (ledger.trace edge.index atoms) s := by
  have hone := h.one_notMem hothers stable nofun
  have hrules : ∀ rule ∈ ledger.rules, rule.SatisfiedBy atoms := fun rule hr =>
    stable.satisfied rule (List.mem_append_left _ hr)
  refine h.induction_lits (P := fun f s l => l.TrueIn atoms ↔
    f.Holds (ledger.trace edge.index atoms) s) ?_ ?_ hl
  · intro f s l hatom hl
    exact trueIn_ground_iff hatom hl edge.index atoms
  · intro f s l hatom hf hs ih hbacked
    have hagree : ledger.lit.Agree (ledger.trace edge.index atoms) atoms f s := ih
    cases hbacked with
    | shared hy => exact hy.trueIn_iff hatom hone rfl hf hs hagree
    | @chosen _ _ a ha =>
      cases (h.chosen_of_role ha).2.2 with
      | source hy hposted =>
        rw [← hy.trueIn_iff hatom hone rfl hf hs hagree]
        exact (Rule.equal_satisfied_iff _ _).1 fun rule hr =>
          (hposted rule hr).satisfiedBy hone hrules
      | definition hd hposted =>
        exact (hd.satisfied_iff hone hs hagree).1 fun rule hr =>
          (hposted rule hr).satisfiedBy hone hrules
    | @awaited arg weak _ a ha =>
      rw [Lit.trueIn_positive]
      rcases h.awaited_mem_iff hsettled hothers stable ha with ⟨y, hlt, hy, hiff⟩ | ⟨rfl, hiff⟩
      · rw [hiff, Formula.holds_next_of_lt hlt]
        refine ih arg (s + 1) ?_ y hy
        rw [Formula.requests, if_pos (Nat.lt_of_succ_le hlt)]
        exact List.mem_singleton.2 rfl
      · exact hiff.trans (Formula.holds_next_of_le (Nat.le_refl _) arg weak).symm

end Ledger

theorem Session.Proper.answer_iff {theory : Theory} {session : Session}
    (h : Session.Proper theory session) {n : Nat} (hclosed : session.unrolling.edge = some ⟨n, true⟩)
    {others : List Rule} (hothers : ∀ rule ∈ others, ∀ a ∈ rule.head, session.ledger.IsGround a)
    {atoms : Set Nat} (stable : StableModel ⟨session.rules ++ others, []⟩ atoms)
    {f : Formula} {s : Nat} {l : Lit} (hl : (f, s, l) ∈ session.answers) :
    l.TrueIn atoms ↔ f.Holds (session.ledger.trace n atoms) s := by
  have hstanding := h.standing
  rw [← h.ledger_rules] at stable
  rw [hclosed] at hstanding
  obtain ⟨role, hsound, -⟩ := hstanding.accounted
  exact hsound.trueIn_iff (hstanding.settled _ rfl rfl) hothers stable
    (hstanding.covers.answered f s l hl).2

end Exact

namespace Session

/-- **Body mode is correct on every closed horizon.**  In a session in range, a literal that
was returned for a formula at a step is true in a stable model of all rules so far, and any
rules for ground atoms, exactly if the formula holds there in the trace of the model. -/
theorem Reachable.answer_trueIn_iff [Arithmetic] {theory : Theory} {session : Session}
    (h : Reachable theory session) (hrange : session.InRange) {n : Nat}
    (hclosed : session.unrolling.edge = some ⟨n, true⟩)
    {others : List Rule} (hothers : ∀ rule ∈ others, ∀ a ∈ rule.head, session.ledger.IsGround a)
    {atoms : Set Nat} (stable : StableModel ⟨session.rules ++ others, []⟩ atoms)
    {f : Formula} {s : Nat} {l : Lit} (hl : (f, s, l) ∈ session.answers) :
    l.TrueIn atoms ↔ f.Holds (session.ledger.trace n atoms) s :=
  (h.exact hrange).proper.answer_iff hclosed hothers stable hl

/-- A reference to the next step that was answered while that step was still to
come, in the model in which the atom holds there. -/
theorem answer_trueIn_iff_awaited :
    let p := Formula.atom "p" [] true
    let session := after {} [.extend, .encode (.next p false) 0, .extend, .close 1]
    Reachable {} session ∧ session.InRange ∧ session.unrolling.edge = some ⟨1, true⟩ ∧
      session.rules = [.normal 2 [⟨3, false⟩]] ∧ (.next p false, 0, ⟨2, false⟩) ∈ session.answers ∧
      session.ledger.IsGround 3 ∧ StableModel ⟨session.rules ++ [.choice 3], []⟩ {2, 3} ∧
      (Lit.TrueIn {2, 3} ⟨2, false⟩ ↔
        (Formula.next p false).Holds (session.ledger.trace 1 {2, 3}) 0) := by
  intro p session
  have hreach : Reachable {} session := reachable_after rfl (by decide)
  have hrange : session.InRange := by decide +kernel
  have hclosed : session.unrolling.edge = some ⟨1, true⟩ := by decide +kernel
  have hrules : session.rules = [.normal 2 [⟨3, false⟩]] := by decide +kernel
  have hanswer : (.next p false, 0, ⟨2, false⟩) ∈ session.answers := by decide +kernel
  have hground : session.ledger.IsGround 3 := ⟨p, 1, by decide +kernel⟩
  have hothers : ∀ rule ∈ [Rule.choice 3], ∀ a ∈ rule.head, session.ledger.IsGround a := by
    intro rule hr a ha
    cases List.mem_singleton.1 hr
    cases List.mem_singleton.1 ha
    exact hground
  have hstable : StableModel ⟨session.rules ++ [.choice 3], []⟩ {2, 3} := by
    rw [hrules]
    refine ⟨?_, fun part hpart hreduct _ => Set.Subset.antisymm hpart ?_⟩
    · intro rule hr
      rcases List.mem_cons.1 hr with rfl | hr
      · exact (Rule.satisfiedBy_normal 2 _).2 fun _ => .inl rfl
      · cases List.mem_singleton.1 hr
        exact nofun
    · have hthree : 3 ∈ part := hreduct (.choice 3) (by decide) nofun 3 (by decide) (.inr rfl)
      have htwo : 2 ∈ part := by
        obtain ⟨a, ha, hmem⟩ := hreduct (.normal 2 [⟨3, false⟩]) (by decide)
          (by simpa [Rule.ReductBody, Rule.normal, Rule.disjunctive] using hthree)
        cases List.mem_singleton.1 ha
        exact hmem
      rintro a (rfl | rfl)
      · exact htwo
      · exact hthree
  exact ⟨hreach, hrange, hclosed, hrules, hanswer, hground, hstable,
    hreach.answer_trueIn_iff hrange hclosed hothers hstable hanswer⟩

end Session
end TemporalHorizon

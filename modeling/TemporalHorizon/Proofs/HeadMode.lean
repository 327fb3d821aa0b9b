import Mathlib.Data.Set.Function
import TemporalHorizon.Proofs.ExactSessions
import TemporalHorizon.Proofs.Obligations

/-!
# Requirements enforce exactly the theory

On a closed horizon, let every ground atom be chosen freely.  Then the stable models
of all rules are, up to the atoms that were handed out for other purposes, the
interpretations of the ground atoms that the theory and the demands allow.

A stable model is intended, so it is known from its ground atoms and no two stable
models have the same ones.  Its rules are satisfied and all requirements are met, so
what is required holds.  In the other direction an admissible interpretation extends
to an intended set.  Each rule comes from a role or from a requirement, and what is
required is warranted, so the set satisfies all rules; it is stable because intended
sets are minimal.
-/

namespace TemporalHorizon

section Exact

attribute [local instance] Arithmetic.exact

/-- No atom is true together with its classical negation. -/
def Trace.Consistent (trace : Trace) : Prop :=
  ∀ name args k, ¬ (trace.atomHolds name args true k ∧ trace.atomHolds name args false k)

theorem Formula.Settled.mono {trace : Trace} {f : Formula} {origin t t' : Nat}
    (h : f.Settled trace origin t) (hle : t ≤ t') : f.Settled trace origin t' := by
  obtain ⟨op, lhs, rhs, i, hf, ho, hi, hw⟩ := h
  exact ⟨op, lhs, rhs, i, hf, ho, Nat.lt_of_lt_of_le hi hle, hw⟩

namespace Ledger

variable {role : Nat → Role} {due : List Boundary} {edge : Instant} {ledger : Ledger}
  {atoms : Set Nat} {brief : Brief}

/-! ## Intended sets satisfy what is emitted -/

/-- The value of a shared literal. -/
theorem Faithful.source_iff {trace : Trace} (h : ledger.Faithful trace atoms)
    (hlast : trace.last = edge.index) {f : Formula} {s : Nat} {y : Lit}
    (hy : Sheet.Source ledger.lit edge f s y) (hapt : Apt edge f s) :
    y.TrueIn atoms ↔ f.Holds trace s := by
  cases hatom : f.isAtom with
  | true => exact h.lit f s y (hy.lit_of_isAtom hatom)
  | false =>
    obtain ⟨hf, hs⟩ := hapt.resolve_left (by rw [hatom]; exact Bool.false_ne_true)
    exact hy.trueIn_iff hatom h.one hlast hf (hlast ▸ hs) fun g t _ l hl => h.lit g t l hl

/-- A rule of the ledger is satisfied by a set in which all atoms have their values in a
trace that is as the theory and the demands say. -/
theorem Emitted.satisfiedBy {rule : Rule} (hm : Emitted role edge ledger rule)
    (h : Sound role due edge ledger) (horderly : Orderly brief edge ledger) {trace : Trace}
    (hlast : trace.last = edge.index) (hvalues : ∀ a, a ∈ atoms ↔ (role a).Holds trace)
    (hconsistent : trace.Consistent)
    (hbrief : brief.HoldsIn trace) : rule.SatisfiedBy atoms := by
  have hfaithful := h.faithful hlast hvalues
  -- The value of an atom, by its role.
  have hvalue : ∀ {a r}, role a = r → (a ∈ atoms ↔ r.Holds trace) := by
    rintro a r rfl
    exact hvalues a
  have hapt : ∀ {a f s}, role a = .chosen f s → Apt edge f s := fun ha =>
    h.apt _ _ _ (h.chosen_of_role ha).1
  cases hm with
  | choose _ => exact nofun
  | @equal a f s y _ ha hy hrule =>
    refine (Rule.equal_satisfied_iff ⟨a, false⟩ y).2 ?_ rule hrule
    exact (hvalue ha).trans (hfaithful.source_iff hlast hy (hapt ha)).symm
  | @definition a f s rules _ ha hd hrule =>
    have hs := ((hapt ha).resolve_left hd.not_isAtom).2
    refine (hd.satisfied_iff hfaithful.one (hlast ▸ hs) fun g t _ l hl => ?_).2 (hvalue ha) rule hrule
    exact hfaithful.lit g t l hl
  | @opposite name args positive s a b ha hb =>
    rw [Rule.satisfiedBy_constraint]
    intro hall
    have htrue : trace.atomHolds name args positive s :=
      (hfaithful.lit (.atom name args positive) s a ha).1 (hall a List.mem_cons_self)
    have htrue' : trace.atomHolds name args (!positive) s :=
      (hfaithful.lit (.atom name args !positive) s b hb).1
        (hall b (List.mem_cons_of_mem _ List.mem_cons_self))
    cases positive with
    | true => exact hconsistent name args s ⟨htrue, htrue'⟩
    | false => exact hconsistent name args s ⟨htrue', htrue⟩
  | @tie a arg weak s y ha hs hy =>
    rw [Rule.satisfiedBy_normal, hvalue ha, List.forall_mem_singleton, hfaithful.lit arg _ y hy]
    exact (Formula.holds_next_of_lt (hlast ▸ hs) arg weak).2
  | @ending a arg ha _ =>
    refine (Rule.satisfiedBy_normal a []).2 fun _ => (hvalue ha).2 ?_
    exact (Formula.holds_next_of_le (Nat.le_of_eq hlast) arg true).2 rfl
  | @duty f s guard _ hreq hd =>
    obtain ⟨whole, rfl, hw⟩ := horderly.warranted f s guard hreq
    obtain ⟨hs, hholds⟩ := hw.holds hbrief h hfaithful hlast
    refine hd.satisfiedBy hfaithful hlast hs fun hguard => hholds ?_
    exact (hfaithful.guardSet_iff fun l hl => (h.warranted_inScope hw l hl).pos).1 hguard
  | @carried a f o t c ha _ hc =>
    rw [Rule.satisfiedBy_normal, hvalue ha, List.forall_mem_singleton, hfaithful.carrier f o t c hc]
    exact fun hcome => hcome.mono (Nat.le_succ _)
  | @settled a f op lhs rhs o t w hf ha ho hw =>
    rw [Rule.satisfiedBy_normal, hvalue ha, List.forall_mem_singleton, hfaithful.lit _ t w hw]
    exact fun hholds => (Formula.settled_succ hf ho).2 (.inr hholds)

/-! ## Stable models and admissible interpretations -/

/-- The interpretations of the ground atoms in whose traces the theory and the demands
hold.  Atoms without a ground atom are false. -/
def admissible (brief : Brief) (ledger : Ledger) (last : Nat) : Set (Set Nat) :=
  {chosen | chosen ⊆ ledger.groundAtoms ∧ (ledger.trace last chosen).Consistent ∧
    brief.HoldsIn (ledger.trace last chosen)}

/-- The rules that let all ground atoms be chosen freely. -/
def FreeChoice (ledger : Ledger) (choices : List Rule) : Prop :=
  ∀ rule, rule ∈ choices ↔ ∃ a, ledger.IsGround a ∧ rule = .choice a

theorem FreeChoice.isGround {choices : List Rule} (h : ledger.FreeChoice choices) :
    ∀ rule ∈ choices, ∀ a ∈ rule.head, ledger.IsGround a := by
  intro rule hr a ha
  obtain ⟨b, hb, rfl⟩ := (h rule).1 hr
  cases List.mem_singleton.1 ha
  exact hb

/-- An intended set that satisfies the rules of the ledger is stable. -/
theorem Intended.stableModel (hintended : Intended role ledger edge.index atoms)
    (h : Sound role [] edge ledger) (hsettled : ledger.edge.boundaries = [])
    (hrules : ∀ rule ∈ ledger.rules, rule.SatisfiedBy atoms) {choices : List Rule}
    (hchoices : ledger.FreeChoice choices) :
    StableModel ⟨ledger.rules ++ choices, []⟩ atoms where
  satisfied := by
    intro rule hr
    rcases List.mem_append.1 hr with hr | hr
    · exact hrules rule hr
    · obtain ⟨a, -, rfl⟩ := (hchoices rule).1 hr
      exact nofun
  minimal := by
    intro part hpart hreduct _
    refine hintended.eq_of_remains h (by rw [hsettled, List.append_nil]) ⟨hpart, ?_, ?_⟩
    · intro a ha hmem
      have hrule : Rule.choice a ∈ choices := (hchoices _).2 ⟨a, ha, rfl⟩
      exact hreduct _ (List.mem_append_right _ hrule) nofun a (List.mem_singleton.2 rfl) hmem
    · exact fun rule hr => hreduct rule (List.mem_append_left _ hr)

namespace Standing

variable {theory : Theory} {log : Log} {n : Nat} {choices : List Rule}

/-- What is required holds in a stable model, whatever other rules there are for ground
atoms. -/
theorem stableModel_admissible (h : Standing theory log (some ⟨n, true⟩) ledger)
    {others : List Rule}
    (hothers : ∀ rule ∈ others, ∀ a ∈ rule.head, ledger.IsGround a)
    (stable : StableModel ⟨ledger.rules ++ others, []⟩ atoms) :
    atoms ∩ ledger.groundAtoms ∈ admissible ⟨theory, log.demands⟩ ledger n := by
  obtain ⟨role, hsound, -⟩ := h.accounted
  have hintended := hsound.intended (h.settled _ rfl rfl) hothers stable
  have hrules : ∀ rule ∈ ledger.rules, rule.SatisfiedBy atoms := fun rule hr =>
    stable.satisfied rule (List.mem_append_left _ hr)
  have hdischarges : Discharges ⟨n, true⟩ ledger (ledger.trace n atoms) atoms :=
    ⟨hintended.faithful hsound, rfl, hrules, h.met, h.orderly.reached⟩
  have hholds : ∀ f s, ledger.Owes f s [] → f.Holds (ledger.trace n atoms) s := fun f s howes =>
    hdischarges.holds_of_owes (hdischarges.ensures f s) howes nofun
  refine ⟨Set.inter_subset_right, ?_⟩
  rw [hsound.trace_inter n atoms]
  refine ⟨?_, ?_, fun f s hd => hholds f s (h.covers.demanded f s hd).2⟩
  · rintro name args k ⟨⟨a, ha, htrue⟩, ⟨b, hb, htrue'⟩⟩
    have hfalse : ∀ x y : Lit, ledger.Posted (.constraint [x, y]) → x.TrueIn atoms →
        ¬ y.TrueIn atoms := by
      intro x y hposted hx
      have hguard : ∀ l ∈ [x], l.TrueIn atoms := List.forall_mem_singleton.2 hx
      exact hdischarges.not_of_constraint hposted hguard
    rcases hsound.opposites name args k a b ha hb with hposted | hposted
    · exact hfalse a b hposted htrue htrue'
    · exact hfalse b a hposted htrue' htrue
  · intro stage f hf k hspans
    have hk : k ≤ n := hspans.le
    by_cases hfinal : stage = .final
    · subst hfinal
      obtain rfl : k = n := hspans
      exact hholds f k (h.covers.finals _ rfl rfl f (Theory.mem_finals.2 hf))
    · refine hholds f k (h.covers.staged _ rfl k hk (stage, f) ?_)
      exact (Theory.mem_current hk).2 ⟨hf, hfinal, hspans⟩

/-- **The stable models are the admissible interpretations**, in one-to-one
correspondence by restriction to the ground atoms. -/
theorem bijOn_stableModels (h : Standing theory log (some ⟨n, true⟩) ledger)
    (hchoices : ledger.FreeChoice choices) :
    Set.BijOn (fun atoms => atoms ∩ ledger.groundAtoms)
      {atoms | StableModel ⟨ledger.rules ++ choices, []⟩ atoms}
      (admissible ⟨theory, log.demands⟩ ledger n) := by
  obtain ⟨role, hsound, -⟩ := h.accounted
  have hsettled := h.settled _ rfl rfl
  refine ⟨fun atoms stable => h.stableModel_admissible hchoices.isGround stable, ?_, ?_⟩
  · -- An intended set is determined by its trace, and the trace by the ground atoms.
    intro atoms stable atoms' stable' heq
    have hintended := hsound.intended hsettled hchoices.isGround stable
    have hintended' := hsound.intended hsettled hchoices.isGround stable'
    have htrace : ledger.trace n atoms = ledger.trace n atoms' := by
      rw [← hsound.trace_inter n atoms, ← hsound.trace_inter n atoms']
      exact congrArg (ledger.trace n) heq
    exact hintended.eq_of_trace hintended' htrace
  · rintro chosen ⟨hchosen, hconsistent, hbrief⟩
    obtain ⟨atoms, hintended, rfl⟩ := hsound.exists_intended n hchosen
    rw [hsound.trace_inter n atoms] at hconsistent hbrief
    refine ⟨atoms, hintended.stableModel hsound hsettled (fun rule hr => ?_) hchoices, rfl⟩
    obtain ⟨raw, hsimple, hm⟩ := hsound.rules rule hr
    rw [Encoder.satisfiedBy_simplify hsimple (hintended.one_notMem hsound)]
    exact hm.satisfiedBy hsound h.orderly rfl hintended hconsistent hbrief

end Standing
end Ledger

namespace Session

variable {theory : Theory} {session : Session}

/-- A choice for every ground atom of the symbol table. -/
def choices (session : Session) : List Rule :=
  session.unrolling.encoder.ground.toList.map fun entry => .choice entry.2.atom

theorem Proper.freeChoice (h : Proper theory session) :
    session.ledger.FreeChoice session.choices := by
  obtain ⟨role, hsound, -⟩ := h.standing.accounted
  intro rule
  constructor
  · intro hr
    obtain ⟨⟨key, lit⟩, hmem, rfl⟩ := List.mem_map.1 hr
    obtain ⟨⟨f, hid⟩, hget⟩ := h.tidy.ground key lit hmem
    have hl : session.ledger.ground f key.step = some lit := (Sheet.ofTable_eq hid).trans hget
    obtain ⟨a, negated⟩ := lit
    obtain ⟨-, hpos, -⟩ := hsound.ground f key.step _ hl
    cases hpos
    exact ⟨a, ⟨f, key.step, hl⟩, rfl⟩
  · rintro ⟨a, ⟨f, s, hl⟩, rfl⟩
    obtain ⟨id, -, hget⟩ := Option.bind_eq_some_iff.1 hl
    exact List.mem_map.2 ⟨(⟨id, s⟩, ⟨a, false⟩), Table.mem_entries_of_get? hget, rfl⟩

theorem Proper.bijOn_choices (h : Proper theory session) {n : Nat}
    (hclosed : session.unrolling.edge = some ⟨n, true⟩) :
    Set.BijOn (fun atoms => atoms ∩ session.ledger.groundAtoms)
      {atoms | StableModel ⟨session.rules ++ session.choices, []⟩ atoms}
      (Ledger.admissible ⟨theory, session.demands⟩ session.ledger n) := by
  have hstanding := h.standing
  rw [hclosed] at hstanding
  rw [← h.ledger_rules]
  exact hstanding.bijOn_stableModels h.freeChoice

end Session
end Exact

namespace Session

/-- **Head mode enforces exactly the theory.**  In a session in range, on a closed horizon
and with a choice for every ground atom, restriction to the ground atoms is a one-to-one
correspondence between the stable models of all rules and the interpretations that are
consistent and in which every formula of the theory holds at all steps of its stage and
every formula that was required holds at its step. -/
theorem Reachable.bijOn_admissible [Arithmetic] {theory : Theory} {session : Session}
    (h : Reachable theory session) (hrange : session.InRange) {n : Nat}
    (hclosed : session.unrolling.edge = some ⟨n, true⟩) :
    Set.BijOn (fun atoms => atoms ∩ session.ledger.groundAtoms)
      {atoms | StableModel ⟨session.rules ++ session.choices, []⟩ atoms}
      (Ledger.admissible ⟨theory, session.demands⟩ session.ledger n) :=
  (h.exact hrange).proper.bijOn_choices hclosed

/-- An until that has to wait for its right operand: it was unrolled over two steps,
and the operand was excluded at the first one. -/
theorem bijOn_admissible_untl :
    let p := Formula.atom "p" [] true
    let q := Formula.atom "q" [] true
    let theory : Theory := ⟨[(.initial, .temporal .untl p q)]⟩
    let session := after theory [.extend, .require (.not q) 0, .extend, .close 1]
    Reachable theory session ∧ session.InRange ∧ session.unrolling.edge = some ⟨1, true⟩ ∧
      session.demands = [(.not q, 0)] ∧
      session.choices = [.choice 7, .choice 6, .choice 3, .choice 2] ∧
      Set.BijOn (fun atoms => atoms ∩ session.ledger.groundAtoms)
        {atoms | StableModel ⟨session.rules ++ session.choices, []⟩ atoms}
        (Ledger.admissible ⟨theory, session.demands⟩ session.ledger 1) := by
  intro p q theory session
  have hreach : Reachable theory session := reachable_after rfl (by decide)
  have hrange : session.InRange := by decide +kernel
  have hclosed : session.unrolling.edge = some ⟨1, true⟩ := by decide +kernel
  have hdemands : session.demands = [(.not q, 0)] := by decide +kernel
  have hchoices : session.choices = [.choice 7, .choice 6, .choice 3, .choice 2] := by
    decide +kernel
  exact ⟨hreach, hrange, hclosed, hdemands, hchoices, hreach.bijOn_admissible hrange hclosed⟩

end Session
end TemporalHorizon

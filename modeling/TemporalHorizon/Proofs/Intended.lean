import TemporalHorizon.Proofs.BodyMode

/-!
# The intended model

The ground atoms that are true induce a trace, and the role of an atom says which
value the atom should have there.  A set of atoms is `Intended` if it agrees with
the roles in its own trace.  This module shows that

* every stable model is intended, so it is known from its ground atoms,
* every choice of ground atoms extends to an intended set,
* an intended set has no smaller set that satisfies the reduct of the ledger, if all
  ground atoms are chosen freely.

Whether an intended set satisfies the rules of the ledger is another matter: that
is what requirements are for.
-/

namespace TemporalHorizon

attribute [local instance] Arithmetic.exact

/-! ## Carriers -/

theorem Formula.Unrolls.unique {f rhs rhs' : Formula} {op op' : Fixpoint}
    {lhs lhs' : Option Formula} (h : f.Unrolls op lhs rhs) (h' : f.Unrolls op' lhs' rhs') :
    op = op' ∧ lhs = lhs' ∧ rhs = rhs' := by
  cases h <;> cases h' <;> exact ⟨rfl, rfl, rfl⟩

/-- The witness of an unrolled formula has come, from its origin on and before a
step. -/
def Formula.Settled (trace : Trace) (f : Formula) (origin t : Nat) : Prop :=
  ∃ op lhs rhs i, f.Unrolls op lhs rhs ∧ origin ≤ i ∧ i < t ∧
    (Ledger.witnessOf op lhs rhs).Holds trace i

section Settled

variable {trace : Trace} {f rhs : Formula} {op : Fixpoint} {lhs : Option Formula} {origin t : Nat}

theorem Formula.settled_iff (h : f.Unrolls op lhs rhs) :
    f.Settled trace origin t ↔
      ∃ i, origin ≤ i ∧ i < t ∧ (Ledger.witnessOf op lhs rhs).Holds trace i := by
  constructor
  · rintro ⟨op', lhs', rhs', i, hf, hrest⟩
    obtain ⟨rfl, rfl, rfl⟩ := h.unique hf
    exact ⟨i, hrest⟩
  · rintro ⟨i, hrest⟩
    exact ⟨op, lhs, rhs, i, h, hrest⟩

theorem Formula.not_settled_origin : ¬ f.Settled trace origin origin := by
  rintro ⟨-, -, -, i, -, hle, hlt, -⟩
  exact Nat.not_lt_of_le hle hlt

theorem Formula.settled_succ (h : f.Unrolls op lhs rhs) (hle : origin ≤ t) :
    f.Settled trace origin (t + 1) ↔
      f.Settled trace origin t ∨ (Ledger.witnessOf op lhs rhs).Holds trace t := by
  rw [Formula.settled_iff h, Formula.settled_iff h]
  constructor
  · rintro ⟨i, ho, hi, hw⟩
    rcases Nat.lt_or_eq_of_le (Nat.le_of_lt_succ hi) with hlt | rfl
    · exact .inl ⟨i, ho, hlt, hw⟩
    · exact .inr hw
  · rintro (⟨i, ho, hi, hw⟩ | hw)
    · exact ⟨i, ho, Nat.lt_succ_of_lt hi, hw⟩
    · exact ⟨t, hle, Nat.lt_succ_self t, hw⟩

end Settled

/-! ## Intended sets -/

theorem Sheet.Source.lit_of_isAtom {lit : Sheet} {edge : Instant} {f : Formula} {s : Nat} {y : Lit}
    (h : Sheet.Source lit edge f s y) (hatom : f.isAtom = true) : lit f s = some y := by
  cases h with
  | atom _ hl => exact hl
  | fixpointStart hf _ _ => cases hf <;> cases hatom
  | _ => cases hatom

/-- A shared literal is constant, or it has the atom of a literal that was asked
for. -/
theorem Sheet.Source.atom_cases {lit : Sheet} {edge : Instant} {f : Formula} {s : Nat} {y : Lit}
    (h : Sheet.Source lit edge f s y) (hatom : f.isAtom = false) (hf : f.malformedPath? = none) :
    y.atom = 1 ∨ ∃ g t l, (g, t) ∈ f.requests edge.index s ∧ lit g t = some l ∧
      y.atom = l.atom := by
  cases h with
  | atom hf' _ =>
    rw [hatom] at hf'
    cases hf'
  | @bool value _ => exact .inl (by cases value <;> rfl)
  | initial => exact .inl (by cases s == 0 <;> rfl)
  | last _ => exact .inl rfl
  | notLast _ => exact .inl rfl
  | @atEdge _ y hl => exact .inr ⟨Formula.hasNext, s, y, List.mem_singleton.2 rfl, hl, rfl⟩
  | @not arg _ y hl => exact .inr ⟨arg, s, y, List.mem_singleton.2 rfl, hl, rfl⟩
  | @previousStart _ weak => exact .inl (by cases weak <;> rfl)
  | @previous arg _ before _ hl => exact .inr ⟨arg, before, y, List.mem_singleton.2 rfl, hl, rfl⟩
  | @next arg _ _ _ hlt hl =>
    refine .inr ⟨arg, s + 1, y, ?_, hl, rfl⟩
    rw [Formula.requests, if_pos hlt]
    exact List.mem_singleton.2 rfl
  | @nextEnd _ weak _ => exact .inl (by cases weak <;> rfl)
  | @initially arg _ _ hl => exact .inr ⟨arg, 0, y, List.mem_singleton.2 rfl, hl, rfl⟩
  | @fixpointStart _ op lhs rhs _ hfix hop hl =>
    exact .inr ⟨rhs, 0, y, (Encoder.requests_of_isFixpoint hfix _).1, hl, rfl⟩
  | @dynamic modality path arg _ _ hl =>
    exact .inr ⟨_, s, y, Formula.unfoldPath_mem_requests hf, hl, rfl⟩

theorem Sheet.Definition.not_isAtom {lit : Sheet} {f : Formula} {s : Nat} {x : Lit}
    {rules : List Rule} (h : Sheet.Definition lit f s x rules) : ¬ f.isAtom = true := by
  cases h with
  | binary _ _ => exact Bool.false_ne_true
  | fixpoint hf _ _ _ => cases hf <;> exact Bool.false_ne_true

/-- Whether an atom in a role should be true. -/
def Role.Holds (trace : Trace) : Role → Prop
  | .idle | .bound _ _ => False
  | .ground f s | .chosen f s => f.Holds trace s
  | .awaited arg weak s => (Formula.next arg weak).Holds trace s
  | .carrier f origin t => f.Settled trace origin (t + 1)

namespace Ledger

/-- Every atom has the value that its role asks for in the trace of the set. -/
def Intended (role : Nat → Role) (ledger : Ledger) (last : Nat) (atoms : Set Nat) : Prop :=
  ∀ a, a ∈ atoms ↔ (role a).Holds (ledger.trace last atoms)

/-- All literals and carriers have the values that they have in a trace. -/
structure Faithful (ledger : Ledger) (trace : Trace) (atoms : Set Nat) : Prop where
  one : 1 ∉ atoms
  ground : ∀ f s l, ledger.ground f s = some l → (l.atom ∈ atoms ↔ f.Holds trace s)
  lit : ∀ f s l, ledger.lit f s = some l → (l.TrueIn atoms ↔ f.Holds trace s)
  carrier : ∀ f origin t c, ⟨f, origin, t, c⟩ ∈ ledger.carriers →
    (c.TrueIn atoms ↔ f.Settled trace origin (t + 1))

/-- The atoms that stand for ground atoms. -/
def groundAtoms (ledger : Ledger) : Set Nat := {a | ledger.IsGround a}

variable {role : Nat → Role} {edge : Instant} {ledger : Ledger} {others : List Rule}
  {atoms : Set Nat} {last : Nat}

/-- The literals of ground atoms are positive, so a trace depends on the ground atoms
only. -/
theorem Sound.trace_congr {due : List Boundary} (h : Sound role due edge ledger)
    {atoms atoms' : Set Nat}
    (heq : ∀ a, ledger.IsGround a → (a ∈ atoms ↔ a ∈ atoms')) (last : Nat) :
    ledger.trace last atoms = ledger.trace last atoms' := by
  have hlit : ∀ f s l, ledger.ground f s = some l → (l.TrueIn atoms ↔ l.TrueIn atoms') := by
    rintro f s ⟨a, negated⟩ hl
    obtain ⟨-, hpos, -⟩ := h.ground f s _ hl
    cases hpos
    exact heq a ⟨f, s, hl⟩
  unfold trace
  congr 1
  funext name args positive k
  refine propext (exists_congr fun l => and_congr_right fun hl => ?_)
  exact hlit _ k l hl

theorem Sound.trace_inter {due : List Boundary} (h : Sound role due edge ledger) (last : Nat)
    (atoms : Set Nat) :
    ledger.trace last (atoms ∩ ledger.groundAtoms) = ledger.trace last atoms :=
  h.trace_congr (fun _ ha => and_iff_left ha) last

/-! ## Stable models are intended -/

theorem mem_carrierRules_witness (carrier : Lit) (earlier : Option Lit) (witness : Lit) :
    Rule.normal carrier.atom [witness] ∈ carrierRules carrier earlier witness :=
  List.mem_append_right _ (List.mem_singleton.2 rfl)

theorem mem_carrierRules_earlier (carrier earlier witness : Lit) :
    Rule.normal carrier.atom [earlier] ∈ carrierRules carrier (some earlier) witness :=
  List.mem_cons_self

/-- A carrier is true from the step on at which the witness comes. -/
theorem Sound.carrier_mem_iff (h : Sound role [] edge ledger)
    (hsettled : ledger.edge.boundaries = [])
    (hothers : ∀ rule ∈ others, ∀ a ∈ rule.head, ledger.IsGround a)
    (stable : StableModel ⟨ledger.rules ++ others, []⟩ atoms) {f : Formula} {origin t a : Nat}
    (ha : role a = .carrier f origin t) :
    a ∈ atoms ↔ f.Settled (ledger.trace edge.index atoms) origin (t + 1) := by
  have hone := h.one_notMem hothers stable nofun
  have hrules : ∀ rule ∈ ledger.rules, rule.SatisfiedBy atoms := fun rule hr =>
    stable.satisfied rule (List.mem_append_left _ hr)
  induction t using Nat.strongRecOn generalizing a with
  | ind t ih =>
    obtain ⟨op, lhs, rhs, earlier, w, hf, hearlier, hw, hposted, ho⟩ := h.carrier_of_role ha
    have hwitness := h.trueIn_iff hsettled hothers stable hw
    have hcarried : ∀ t' c, t' + 1 = t → ⟨f, origin, t', c⟩ ∈ ledger.carriers →
        (c.TrueIn atoms ↔ f.Settled (ledger.trace edge.index atoms) origin t) := by
      rintro t' c rfl hc
      obtain ⟨hpos, hrole⟩ := h.carriers _ hc
      exact (Lit.trueIn_of_positive hpos).trans (ih t' (Nat.lt_succ_self t') hrole)
    rw [Formula.settled_succ hf ho, ← hwitness]
    constructor
    · intro hmem
      obtain ⟨raw, hderives, hbody⟩ := h.derived hothers stable nofun hmem List.not_mem_nil
      cases hderives with
      | @carried _ _ t c ha' hle hc =>
        rw [ha] at ha'
        cases ha'
        exact .inl ((hcarried t c rfl hc).1 (hbody c (List.mem_singleton.2 rfl)))
      | settled hf' ha' _ hw' =>
        rw [ha] at ha'
        cases ha'
        obtain ⟨rfl, rfl, rfl⟩ := hf.unique hf'
        rw [hw] at hw'
        cases hw'
        exact .inr (hbody w (List.mem_singleton.2 rfl))
      | ground ha' | chosen ha' | tie ha' _ _ | ending ha' _ =>
        rw [ha] at ha'
        cases ha'
    · rintro (hbefore | hnow)
      · cases hearlier with
        | start => exact absurd hbefore Formula.not_settled_origin
        | @step t c hle hc =>
          rw [← hcarried t c rfl hc] at hbefore
          exact (hposted _ (mem_carrierRules_earlier _ c w)).mem_of_trueIn hone hrules hbefore
      · exact (hposted _ (mem_carrierRules_witness _ earlier w)).mem_of_trueIn hone hrules hnow

/-- **Every stable model is intended.** -/
theorem Sound.intended (h : Sound role [] edge ledger)
    (hsettled : ledger.edge.boundaries = [])
    (hothers : ∀ rule ∈ others, ∀ a ∈ rule.head, ledger.IsGround a)
    (stable : StableModel ⟨ledger.rules ++ others, []⟩ atoms) :
    Intended role ledger edge.index atoms := by
  have hone := h.one_notMem hothers stable nofun
  have hrules : ∀ rule ∈ ledger.rules, rule.SatisfiedBy atoms := fun rule hr =>
    stable.satisfied rule (List.mem_append_left _ hr)
  have hmeans : ∀ f s l, ledger.lit f s = some l →
      (l.TrueIn atoms ↔ f.Holds (ledger.trace edge.index atoms) s) := fun f s l hl =>
    h.trueIn_iff hsettled hothers stable hl
  intro a
  have hunderived : (role a).isSettled = false → a ∉ atoms := by
    intro hopen hmem
    obtain ⟨raw, hderives, -⟩ := h.derived hothers stable nofun hmem List.not_mem_nil
    rw [hderives.isSettled] at hopen
    cases hopen
  cases ha : role a with
  | idle => exact iff_of_false (hunderived (by rw [ha]; rfl)) id
  | bound f s => exact iff_of_false (hunderived (by rw [ha]; rfl)) id
  | ground f s =>
    have hl := h.ground_of_role ha
    exact trueIn_ground_iff (h.ground f s _ hl).1 hl edge.index atoms
  | chosen f s =>
    obtain ⟨hentry, -, hdetermined⟩ := h.chosen_of_role ha
    cases hatom : f.isAtom with
    | false => exact hmeans f s ⟨a, false⟩ (by rw [lit, hatom]; exact hentry)
    | true =>
      -- A host literal that was bound to an atom: it is tied to the ground atom.
      cases hdetermined with
      | source hy hposted =>
        have hequal := (Rule.equal_satisfied_iff ⟨a, false⟩ _).1 fun rule hr =>
          (hposted rule hr).satisfiedBy hone hrules
        exact hequal.trans (hmeans f s _ (hy.lit_of_isAtom hatom))
      | definition hd _ => exact absurd hatom hd.not_isAtom
  | awaited arg weak s => exact hmeans (.next arg weak) s ⟨a, false⟩ (h.awaited_of_role ha).1
  | carrier f origin t => exact h.carrier_mem_iff hsettled hothers stable ha

/-! ## Every choice of ground atoms is possible -/

/-- Any set of ground atoms extends to an intended set. -/
theorem Sound.exists_intended {due : List Boundary} (h : Sound role due edge ledger) (last : Nat)
    {chosen : Set Nat} (hchosen : chosen ⊆ ledger.groundAtoms) :
    ∃ atoms, Intended role ledger last atoms ∧ atoms ∩ ledger.groundAtoms = chosen := by
  let atoms : Set Nat := {a | (role a).Holds (ledger.trace last chosen)}
  have hground : ∀ a, ledger.IsGround a → (a ∈ atoms ↔ a ∈ chosen) := by
    rintro a ⟨f, s, hl⟩
    obtain ⟨hatom, -, ha⟩ := h.ground f s _ hl
    show (role a).Holds (ledger.trace last chosen) ↔ a ∈ chosen
    rw [show role a = .ground f s from ha]
    exact (trueIn_ground_iff hatom hl last chosen).symm
  refine ⟨atoms, fun a => ?_, ?_⟩
  · rw [h.trace_congr hground last]
    exact Iff.rfl
  · refine Set.Subset.antisymm (fun a ha => (hground a ha.2).1 ha.1) fun a ha => ?_
    exact ⟨(hground a (hchosen ha)).2 ha, hchosen ha⟩

/-- If every atom has the value that its role asks for in a trace, then all literals and
carriers have the values that they have there.  The trace need not be the one that the
set induces. -/
theorem Sound.faithful {due : List Boundary} (h : Sound role due edge ledger) {trace : Trace}
    (hlast : trace.last = edge.index) (hvalue : ∀ a, a ∈ atoms ↔ (role a).Holds trace) :
    ledger.Faithful trace atoms := by
  have hone : 1 ∉ atoms := by
    rw [hvalue 1, h.idle 1 (.inl (Nat.le_refl 1))]
    exact id
  have hground : ∀ f s l, ledger.ground f s = some l → (l.TrueIn atoms ↔ f.Holds trace s) := by
    intro f s l hl
    obtain ⟨-, hpos, hrole⟩ := h.ground f s l hl
    rw [Lit.trueIn_of_positive hpos, hvalue l.atom, hrole]
    exact Iff.rfl
  refine ⟨hone, fun f s l hl => ?_, fun f s l hl => ?_, fun f origin t c hc => ?_⟩
  · rw [← Lit.trueIn_of_positive (h.ground f s l hl).2.1]
    exact hground f s l hl
  · refine h.induction_lits (P := fun f s l => l.TrueIn atoms ↔ f.Holds trace s) ?_ ?_ hl
    · exact fun f s l _ hl => hground f s l hl
    · intro f s l hatom hf hs ih hbacked
      cases hbacked with
      | shared hy =>
        rw [← hlast] at hs ih
        exact hy.trueIn_iff hatom hone hlast hf hs ih
      | @chosen _ _ a ha =>
        rw [Lit.trueIn_positive, hvalue a, ha]
        exact Iff.rfl
      | @awaited arg weak _ a ha =>
        rw [Lit.trueIn_positive, hvalue a, ha]
        exact Iff.rfl
  · obtain ⟨hpos, hrole⟩ := h.carriers _ hc
    rw [Lit.trueIn_of_positive hpos, hvalue c.atom, hrole]
    exact Iff.rfl

namespace Intended

/-- An intended set is known from its trace. -/
theorem eq_of_trace {atoms' : Set Nat} (h : Intended role ledger last atoms)
    (h' : Intended role ledger last atoms')
    (htrace : ledger.trace last atoms = ledger.trace last atoms') : atoms = atoms' := by
  ext a
  rw [h a, h' a, htrace]

theorem one_notMem {due : List Boundary} (hintended : Intended role ledger last atoms)
    (h : Sound role due edge ledger) : 1 ∉ atoms := by
  rw [hintended 1, h.idle 1 (.inl (Nat.le_refl 1))]
  exact id

/-- In an intended set every literal means its formula. -/
theorem trueIn_iff {due : List Boundary} (hintended : Intended role ledger edge.index atoms)
    (h : Sound role due edge ledger) {f : Formula} {s : Nat} {l : Lit}
    (hl : ledger.lit f s = some l) :
    l.TrueIn atoms ↔ f.Holds (ledger.trace edge.index atoms) s :=
  (h.faithful rfl hintended).lit f s l hl

theorem faithful {due : List Boundary} (hintended : Intended role ledger edge.index atoms)
    (h : Sound role due edge ledger) :
    ledger.Faithful (ledger.trace edge.index atoms) atoms :=
  h.faithful rfl hintended

end Intended

/-! ## Intended sets are minimal -/

/-- A part of a set satisfies the reduct of a ledger by the set and keeps all ground
atoms. -/
structure Remains (ledger : Ledger) (atoms part : Set Nat) : Prop where
  subset : part ⊆ atoms
  ground : ∀ a, ledger.IsGround a → a ∈ atoms → a ∈ part
  rules : ∀ rule ∈ ledger.rules, rule.ReductSatisfiedBy atoms part

variable {part : Set Nat}

theorem Remains.mem_of_choice (hpart : ledger.Remains atoms part) (hone : 1 ∉ atoms) {a : Nat}
    (hposted : ledger.Posted (.choice a)) (hmem : a ∈ atoms) : a ∈ part :=
  hposted.reductSatisfiedBy hone hpart.subset hpart.rules nofun a (List.mem_singleton.2 rfl) hmem

theorem Remains.mem_of_normal (hpart : ledger.Remains atoms part) (hone : 1 ∉ atoms) {a : Nat}
    {l : Lit} (hposted : ledger.Posted (.normal a [l])) (hl : l.TrueIn atoms)
    (hkept : l.atom ∈ atoms → l.atom ∈ part) : a ∈ part :=
  hposted.mem_part hone hpart.subset hpart.rules (hl.keptIn hkept)

theorem Remains.mem_of_fact (hpart : ledger.Remains atoms part) (hone : 1 ∉ atoms) {a : Nat}
    (hposted : ledger.Posted (.fact a)) : a ∈ part := by
  obtain ⟨b, hb, hmem⟩ := hposted.reductSatisfiedBy hone hpart.subset hpart.rules nofun
  cases List.mem_singleton.1 hb
  exact hmem

namespace Intended

/-- The literals that are true in an intended set are kept in a part that satisfies
the reduct. -/
theorem lit_atom_mem {due : List Boundary} (hintended : Intended role ledger edge.index atoms)
    (h : Sound role due edge ledger) (hwaiting : ledger.edge.boundaries ++ due = [])
    (hpart : ledger.Remains atoms part) {f : Formula} {s : Nat} {l : Lit}
    (hl : ledger.lit f s = some l) : l.atom ∈ atoms → l.atom ∈ part := by
  have hone := hintended.one_notMem h
  refine h.induction_lits (P := fun _ _ l => l.atom ∈ atoms → l.atom ∈ part) ?_ ?_ hl
  · rintro f s ⟨a, negated⟩ hatom hl hmem
    obtain ⟨-, hpos, -⟩ := h.ground f s _ hl
    cases hpos
    exact hpart.ground a ⟨f, s, hl⟩ hmem
  · intro f s l hatom hf hs ih hbacked hmem
    cases hbacked with
    | shared hy =>
      rcases hy.atom_cases hatom hf with hconstant | ⟨g, t, l', hq, hl', heq⟩
      · rw [hconstant] at hmem
        exact absurd hmem hone
      · rw [heq] at hmem ⊢
        exact ih g t hq l' hl' hmem
    | @chosen _ _ a ha =>
      exact hpart.mem_of_choice hone (h.chosen_of_role ha).2.1 hmem
    | @awaited arg weak _ a ha =>
      have hholds : (Formula.next arg weak).Holds (ledger.trace edge.index atoms) s := by
        have hrole := (hintended a).1 hmem
        rwa [ha] at hrole
      cases (h.awaited_of_role ha).2 with
      | waiting hb =>
        rw [hwaiting] at hb
        cases hb
      | @tied y hlt hy hposted =>
        rw [Formula.holds_next_of_lt hlt, ← hintended.trueIn_iff h hy] at hholds
        have hq : (arg, s + 1) ∈ (Formula.next arg weak).requests edge.index s := by
          rw [Formula.requests, if_pos (Nat.lt_of_succ_le hlt)]
          exact List.mem_singleton.2 rfl
        exact hpart.mem_of_normal hone hposted hholds (ih arg (s + 1) hq y hy)
      | ended _ hs hfact =>
        rw [Formula.holds_next_of_le (Nat.le_of_eq hs.symm)] at hholds
        exact hpart.mem_of_fact hone (hfact hholds)

/-- Carriers are kept as well. -/
theorem carrier_mem {due : List Boundary} (hintended : Intended role ledger edge.index atoms)
    (h : Sound role due edge ledger) (hwaiting : ledger.edge.boundaries ++ due = [])
    (hpart : ledger.Remains atoms part) {f : Formula} {origin t a : Nat}
    (ha : role a = .carrier f origin t) (hmem : a ∈ atoms) : a ∈ part := by
  have hone := hintended.one_notMem h
  induction t using Nat.strongRecOn generalizing a with
  | ind t ih =>
    have hcome : f.Settled (ledger.trace edge.index atoms) origin (t + 1) := by
      have hrole := (hintended a).1 hmem
      rwa [ha] at hrole
    obtain ⟨op, lhs, rhs, earlier, w, hf, hearlier, hw, hposted, ho⟩ := h.carrier_of_role ha
    rcases (Formula.settled_succ hf ho).1 hcome with hbefore | hnow
    · cases hearlier with
      | start => exact absurd hbefore Formula.not_settled_origin
      | @step t c hle hc =>
        obtain ⟨hpos, hrole⟩ := h.carriers _ hc
        have hcmem : c.atom ∈ atoms := by
          rw [hintended c.atom, hrole]
          exact hbefore
        exact hpart.mem_of_normal hone (hposted _ (mem_carrierRules_earlier _ c w))
          ((Lit.trueIn_of_positive hpos).2 hcmem) (ih t (Nat.lt_succ_self t) hrole)
    · have htrue : w.TrueIn atoms := (hintended.trueIn_iff h hw).2 hnow
      exact hpart.mem_of_normal hone (hposted _ (mem_carrierRules_witness _ earlier w)) htrue
        (hintended.lit_atom_mem h hwaiting hpart hw)

/-- **An intended set is minimal.**  No smaller set satisfies the reduct of the ledger
and keeps the ground atoms. -/
theorem eq_of_remains {due : List Boundary} (hintended : Intended role ledger edge.index atoms)
    (h : Sound role due edge ledger) (hwaiting : ledger.edge.boundaries ++ due = [])
    (hpart : ledger.Remains atoms part) : part = atoms := by
  refine Set.Subset.antisymm hpart.subset fun a hmem => ?_
  have hone := hintended.one_notMem h
  have hholds := (hintended a).1 hmem
  cases ha : role a with
  | idle | bound f s =>
    rw [ha] at hholds
    exact hholds.elim
  | ground f s => exact hpart.ground a ⟨f, s, h.ground_of_role ha⟩ hmem
  | chosen f s => exact hpart.mem_of_choice hone (h.chosen_of_role ha).2.1 hmem
  | awaited arg weak s =>
    have hl : ledger.lit (.next arg weak) s = some ⟨a, false⟩ := (h.awaited_of_role ha).1
    exact hintended.lit_atom_mem h hwaiting hpart hl hmem
  | carrier f origin t => exact hintended.carrier_mem h hwaiting hpart ha hmem

end Intended

end Ledger
end TemporalHorizon

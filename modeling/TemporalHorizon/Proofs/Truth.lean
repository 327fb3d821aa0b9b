import Mathlib.Tactic.Tauto
import TemporalHorizon.Proofs.Models
import TemporalHorizon.Trace

/-!
# What the literals of a ledger mean

A set of atoms tells which ground atoms hold at which steps, and so induces a
trace.  This module compares the literal of a formula in such a set with the truth
of the formula in the trace.

Both are determined by the formulas that the formula asks for, and chains of
requests are finite, so everything here is an induction along requests
(`Formula.induction_requests`).  One step of it is made by `Source.trueIn_iff` for
a literal that is shared, and by `Definition.satisfied_iff` for an atom with a
definition: the rules of the definition are satisfied exactly if the atom has the
right value.  The horizon is closed throughout.
-/

namespace TemporalHorizon

attribute [local instance] Arithmetic.exact

/-! ## Induction along requests -/

theorem Formula.request_le {f g : Formula} {horizon s t : Nat} (hs : s ≤ horizon)
    (hq : (g, t) ∈ f.requests horizon s) : t ≤ horizon := by
  cases f with
  | atom name args positive | bool value | initial => simp [Formula.requests] at hq
  | final | not arg | initially arg | previous arg weak =>
    simp only [Formula.requests, List.mem_singleton, Prod.mk.injEq] at hq
    omega
  | binary op lhs rhs =>
    simp only [Formula.requests, List.mem_cons, List.not_mem_nil, or_false, Prod.mk.injEq] at hq
    omega
  | next arg weak | dynamic modality path arg =>
    simp only [Formula.requests] at hq
    split at hq
    · simp only [List.mem_singleton, Prod.mk.injEq] at hq
      omega
    · cases hq
  | temporal op lhs rhs | modal op arg =>
    simp only [Formula.requests] at hq
    split at hq
    · simp only [List.mem_append, List.mem_cons, List.not_mem_nil, or_false, Prod.mk.injEq] at hq
      omega
    · split at hq
      · simp only [List.mem_append, List.mem_cons, List.not_mem_nil, or_false, false_or,
          Prod.mk.injEq] at hq
        omega
      · simp only [List.mem_append, List.mem_cons, List.not_mem_nil, or_false, Prod.mk.injEq] at hq
        omega

theorem Formula.request_wellFormed {f g : Formula} {horizon s t : Nat}
    (hf : f.malformedPath? = none) (hq : (g, t) ∈ f.requests horizon s) :
    g.malformedPath? = none := by
  by_cases hfinal : f = .final
  · subst hfinal
    simp only [Formula.requests, List.mem_singleton, Prod.mk.injEq] at hq
    exact hq.1 ▸ rfl
  · have hadmits : (Window.mk horizon false .always).Admits f := ⟨hf, .inl rfl⟩
    exact (hadmits.request hfinal hq).wellFormed

/-- An acceptable dynamic formula asks for its unfolding. -/
theorem Formula.unfoldPath_mem_requests {modality : Modality} {path : Path} {arg : Formula}
    {horizon s : Nat} (hf : (Formula.dynamic modality path arg).malformedPath? = none) :
    (Formula.unfoldPath modality path arg, s) ∈
      (Formula.dynamic modality path arg).requests horizon s := by
  have hpath : path.isNormal = true := by
    cases hn : path.isNormal with
    | true => rfl
    | false => simp [Formula.malformedPath?, hn] at hf
  simp [Formula.requests, hpath]

/-- What follows for a formula at a step from all that it asks for, is true for all
acceptable formulas at reached steps. -/
theorem Formula.induction_requests {horizon : Nat} {P : Formula → Nat → Prop}
    (step : ∀ f s, f.malformedPath? = none → s ≤ horizon →
      (∀ g t, (g, t) ∈ f.requests horizon s → P g t) → P f s)
    (f : Formula) (s : Nat) (hf : f.malformedPath? = none) (hs : s ≤ horizon) : P f s := by
  have hbound := f.bounded_unfoldDepth horizon s hs
  generalize f.unfoldDepth horizon = n at hbound
  induction n generalizing f s with
  | zero => exact hbound.elim
  | succ n ih =>
    refine step f s hf hs fun g t hq => ih g t ?_ ?_ (hbound (g, t) hq)
    · exact Formula.request_wellFormed hf hq
    · exact Formula.request_le hs hq

/-! ## Next and fixpoints -/

theorem Formula.holds_next_of_lt {trace : Trace} {s : Nat} (h : s < trace.last) (arg : Formula)
    (weak : Bool) : (Formula.next arg weak).Holds trace s ↔ arg.Holds trace (s + 1) := by
  show (if s < trace.last then _ else _) ↔ _
  rw [if_pos h]

theorem Formula.holds_next_of_le {trace : Trace} {s : Nat} (h : trace.last ≤ s) (arg : Formula)
    (weak : Bool) : (Formula.next arg weak).Holds trace s ↔ weak = true := by
  show (if s < trace.last then _ else _) ↔ _
  rw [if_neg (Nat.not_lt_of_le h)]

/-- Every step but the last has one after it. -/
theorem Formula.holds_hasNext (trace : Trace) (s : Nat) :
    Formula.hasNext.Holds trace s ↔ s < trace.last := by
  rcases Nat.lt_or_ge s trace.last with hlt | hge
  · exact (holds_next_of_lt hlt _ _).trans (iff_of_true rfl hlt)
  · exact (holds_next_of_le hge _ _).trans (iff_of_false nofun (Nat.not_lt_of_le hge))

/-- The truth of the left operand of a fixpoint; a missing operand is a constant. -/
def Fixpoint.leftHolds (trace : Trace) (op : Fixpoint) : Option Formula → Nat → Prop
  | some lhs => lhs.Holds trace
  | none => fun _ => op.isGreatest = false

/-- One unfolding of a fixpoint: right and (left or adjacent) for a greatest one,
right or (left and adjacent) for a least one. -/
def Fixpoint.Unfolds (op : Fixpoint) (left right adjacent : Prop) : Prop :=
  if op.isGreatest then right ∧ (left ∨ adjacent) else right ∨ (left ∧ adjacent)

namespace Formula.IsFixpoint

variable {f : Formula} {op : Fixpoint} {lhs : Option Formula} {rhs : Formula}

theorem holds (h : f.IsFixpoint op lhs rhs) (trace : Trace) (s : Nat) :
    f.Holds trace s ↔ op.Holds trace.last (op.leftHolds trace lhs) (rhs.Holds trace) s := by
  cases h <;> exact Iff.rfl

theorem holds_zero (h : f.IsFixpoint op lhs rhs) (hop : op.isFuture = false) (trace : Trace) :
    f.Holds trace 0 ↔ rhs.Holds trace 0 := by
  rw [h.holds]
  cases op with
  | since => exact Fixpoint.holds_since_zero
  | trigger => exact Fixpoint.holds_trigger_zero
  | untl | release => cases hop

theorem holds_succ (h : f.IsFixpoint op lhs rhs) (hop : op.isFuture = false) (trace : Trace)
    (s : Nat) :
    f.Holds trace (s + 1) ↔ op.Unfolds (op.leftHolds trace lhs (s + 1))
      (rhs.Holds trace (s + 1)) (f.Holds trace s) := by
  rw [h.holds, h.holds]
  cases op with
  | since => exact Fixpoint.holds_since_succ
  | trigger => exact Fixpoint.holds_trigger_succ
  | untl | release => cases hop

theorem holds_future (h : f.IsFixpoint op lhs rhs) (hop : op.isFuture = true) {trace : Trace}
    {s : Nat} (hs : s ≤ trace.last) :
    f.Holds trace s ↔ op.Unfolds (op.leftHolds trace lhs s) (rhs.Holds trace s)
      ((Formula.next f op.isGreatest).Holds trace s) := by
  rcases Nat.lt_or_eq_of_le hs with hlt | rfl
  · rw [Formula.holds_next_of_lt hlt, h.holds, h.holds]
    cases op with
    | untl => exact Fixpoint.holds_untl_of_lt hlt
    | release => exact Fixpoint.holds_release_of_lt hlt
    | since | trigger => cases hop
  · rw [Formula.holds_next_of_le (Nat.le_refl _), h.holds]
    cases op with
    | untl =>
      rw [Fixpoint.holds_untl_last]
      simp [Fixpoint.Unfolds, Fixpoint.isGreatest]
    | release =>
      rw [Fixpoint.holds_release_last]
      simp [Fixpoint.Unfolds, Fixpoint.isGreatest]
    | since | trigger => cases hop

end Formula.IsFixpoint

/-! ## The rules of definitions -/

section Rules

variable {atoms : Set Nat}

theorem Rule.equal_satisfied_iff (x y : Lit) :
    (∀ rule ∈ Rule.equal x y, rule.SatisfiedBy atoms) ↔ (x.TrueIn atoms ↔ y.TrueIn atoms) := by
  simp only [Rule.equal, List.forall_mem_cons, List.not_mem_nil, false_implies, implies_true,
    and_true, Rule.satisfiedBy_constraint, Lit.trueIn_neg]
  tauto

theorem Encoder.connectiveRules_satisfied_iff (op : Connective) (x a b : Lit) :
    (∀ rule ∈ Encoder.connectiveRules op x a b, rule.SatisfiedBy atoms) ↔
      (x.TrueIn atoms ↔ op.Holds (a.TrueIn atoms) (b.TrueIn atoms)) := by
  cases op <;>
    simp only [Encoder.connectiveRules, Rule.disjunctionOf, List.forall_mem_cons,
      List.not_mem_nil, false_implies, implies_true, and_true, Rule.satisfiedBy_constraint,
      Lit.trueIn_neg, Connective.Holds] <;>
    tauto

theorem Encoder.fixpointRules_satisfied_iff (op : Fixpoint) (x left right adjacent : Lit) :
    (∀ rule ∈ Encoder.fixpointRules op x left right adjacent, rule.SatisfiedBy atoms) ↔
      (x.TrueIn atoms ↔ op.Unfolds (left.TrueIn atoms) (right.TrueIn atoms)
        (adjacent.TrueIn atoms)) := by
  unfold Encoder.fixpointRules Fixpoint.Unfolds
  split <;>
    simp only [List.forall_mem_cons, List.not_mem_nil, false_implies, implies_true, and_true,
      Rule.satisfiedBy_constraint, Lit.trueIn_neg] <;>
    tauto

end Rules

/-! ## One step of the induction -/

namespace Sheet

variable {lit : Sheet} {edge : Instant} {trace : Trace} {atoms : Set Nat} {f : Formula} {s : Nat}

/-- All literals for what a formula asks for have the right values. -/
def Agree (lit : Sheet) (trace : Trace) (atoms : Set Nat) (f : Formula) (s : Nat) : Prop :=
  ∀ g t, (g, t) ∈ f.requests trace.last s → ∀ l, lit g t = some l →
    (l.TrueIn atoms ↔ g.Holds trace t)

/-- A shared literal has the right value. -/
theorem Source.trueIn_iff {y : Lit} (h : Source lit edge f s y) (hatom : f.isAtom = false)
    (hone : 1 ∉ atoms) (hlast : trace.last = edge.index) (hf : f.malformedPath? = none)
    (hs : s ≤ trace.last) (hagree : lit.Agree trace atoms f s) :
    y.TrueIn atoms ↔ f.Holds trace s := by
  cases h with
  | atom hf' _ =>
    rw [hatom] at hf'
    cases hf'
  | bool => exact Lit.trueIn_constant hone _
  | initial =>
    rw [Lit.trueIn_constant hone, beq_iff_eq]
    exact Iff.rfl
  | last _ =>
    rw [← hlast]
    exact iff_of_true hone rfl
  | notLast hlt =>
    refine iff_of_false hone fun heq => ?_
    have heq : s = trace.last := heq
    omega
  | @atEdge _ y hl =>
    rw [Lit.trueIn_neg, hagree Formula.hasNext s (List.mem_singleton.2 rfl) y hl]
    have hfinal : Formula.final.Holds trace s ↔ s = trace.last := Iff.rfl
    rw [Formula.holds_hasNext, hfinal]
    omega
  | @not arg _ y hl =>
    rw [Lit.trueIn_neg, hagree arg s (List.mem_singleton.2 rfl) y hl]
    exact Iff.rfl
  | previousStart => exact Lit.trueIn_constant hone _
  | @previous arg weak before _ hl =>
    exact hagree arg before (List.mem_singleton.2 rfl) y hl
  | @next arg weak _ _ hlt hl =>
    have hlt : s < trace.last := hlast ▸ hlt
    rw [Formula.holds_next_of_lt hlt]
    refine hagree arg (s + 1) ?_ y hl
    rw [Formula.requests, if_pos hlt]
    exact List.mem_singleton.2 rfl
  | @nextEnd arg weak _ =>
    rw [Lit.trueIn_constant hone, Formula.holds_next_of_le (Nat.le_of_eq hlast)]
  | @initially arg _ _ hl => exact hagree arg 0 (List.mem_singleton.2 rfl) y hl
  | @fixpointStart _ op lhs rhs _ hfix hop hl =>
    rw [hfix.holds_zero hop]
    exact hagree rhs 0 (Encoder.requests_of_isFixpoint hfix _).1 y hl
  | @dynamic modality path arg _ _ hl =>
    rw [hagree _ s (Formula.unfoldPath_mem_requests hf) y hl]
    cases modality with
    | diamond => exact Formula.holds_unfoldPath_diamond trace path arg s
    | box => exact Formula.holds_unfoldPath_box trace path arg s

/-- The rules of a definition are satisfied exactly if the atom has the right
value. -/
theorem Definition.satisfied_iff {x : Lit} {rules : List Rule} (h : Definition lit f s x rules)
    (hone : 1 ∉ atoms) (hs : s ≤ trace.last) (hagree : lit.Agree trace atoms f s) :
    (∀ rule ∈ rules, rule.SatisfiedBy atoms) ↔ (x.TrueIn atoms ↔ f.Holds trace s) := by
  cases h with
  | @binary op lhs rhs _ _ a b ha hb =>
    rw [Encoder.connectiveRules_satisfied_iff,
      hagree lhs s (by simp [Formula.requests]) a ha, hagree rhs s (by simp [Formula.requests]) b hb]
    exact Iff.rfl
  | @fixpoint _ op lhs rhs _ _ l r adjacent hf hr hadj hl =>
    obtain ⟨hqr, hqf, hqp, hql⟩ := Encoder.requests_of_isFixpoint (s := s) hf trace.last
    have hleft : l.TrueIn atoms ↔ op.leftHolds trace lhs s := by
      cases lhs with
      | some lhs => exact hagree lhs s (hql lhs rfl) l hl
      | none =>
        cases hl
        rw [Lit.trueIn_constant hone, Bool.not_eq_true']
        exact Iff.rfl
    rw [Encoder.fixpointRules_satisfied_iff, hleft, hagree rhs s hqr r hr]
    cases hop : op.isFuture with
    | true =>
      rw [Sheet.adjacent_future hop] at hadj
      rw [hagree _ s (hqf hop) adjacent hadj, hf.holds_future hop hs]
    | false =>
      cases s with
      | zero =>
        rw [Sheet.adjacent, hop] at hadj
        cases hadj
      | succ before =>
        rw [Sheet.adjacent_past hop] at hadj
        rw [hagree f before (hqp hop (Nat.succ_ne_zero _)) adjacent hadj, hf.holds_succ hop]

end Sheet

/-! ## The trace of a set of atoms -/

namespace Ledger

/-- The trace that a set of atoms induces: an atom holds at a step if it has a literal
there and the literal is true. -/
def trace (ledger : Ledger) (last : Nat) (atoms : Set Nat) : Trace where
  last := last
  atomHolds := fun name args positive k =>
    ∃ l, ledger.ground (.atom name args positive) k = some l ∧ l.TrueIn atoms

theorem trueIn_ground_iff {ledger : Ledger} {f : Formula} {s : Nat} {l : Lit}
    (hatom : f.isAtom = true) (hl : ledger.ground f s = some l) (last : Nat) (atoms : Set Nat) :
    l.TrueIn atoms ↔ f.Holds (ledger.trace last atoms) s := by
  cases f with
  | atom name args positive =>
    constructor
    · exact fun htrue => ⟨l, hl, htrue⟩
    · rintro ⟨l', hl', htrue⟩
      rw [hl] at hl'
      cases hl'
      exact htrue
  | _ => cases hatom

/-- What is true of the literals of ground atoms, and of the literal of any other
formula if it is true of all that the formula asks for, is true of all literals of a
ledger. -/
theorem Sound.induction_lits {role : Nat → Role} {due : List Boundary} {edge : Instant}
    {ledger : Ledger} (h : Sound role due edge ledger) {P : Formula → Nat → Lit → Prop}
    (ground : ∀ f s l, f.isAtom = true → ledger.ground f s = some l → P f s l)
    (step : ∀ f s l, f.isAtom = false → f.malformedPath? = none → s ≤ edge.index →
      (∀ g t, (g, t) ∈ f.requests edge.index s → ∀ l, ledger.lit g t = some l → P g t l) →
      Backed role edge ledger f s l → P f s l)
    {f : Formula} {s : Nat} {l : Lit} (hl : ledger.lit f s = some l) : P f s l := by
  have atoms : ∀ f s l, f.isAtom = true → ledger.lit f s = some l → P f s l := by
    intro f s l hatom hl
    rw [lit, if_pos hatom] at hl
    exact ground f s l hatom hl
  cases hatom : f.isAtom with
  | true => exact atoms f s l hatom hl
  | false =>
    have hentry : ledger.entry f s = some l := by
      rwa [lit, hatom] at hl
    obtain ⟨hf, hs⟩ := (h.apt f s l hentry).resolve_left (by rw [hatom]; exact Bool.false_ne_true)
    refine Formula.induction_requests (P := fun f s => ∀ l, ledger.lit f s = some l → P f s l)
      ?_ f s hf hs l hl
    intro f s hf hs ih l hl
    cases hatom : f.isAtom with
    | true => exact atoms f s l hatom hl
    | false =>
      rw [lit, hatom] at hl
      exact step f s l hatom hf hs ih (h.entry f s l hl)

end Ledger
end TemporalHorizon

import Mathlib.Data.Set.Basic
import TemporalHorizon.StableModel.Program

/-!
# What a stable model is

A set of atoms is a stable model of a program if it satisfies all rules and no
smaller set satisfies their reduct by it.  In the reduct the negated literals are
read in the whole set, and a choice keeps those of its atoms that the set has
chosen.  A free atom is a choice without a body.

The sets here are arbitrary sets of atoms.  That only candidates can be true in a
stable model is a consequence, `StableModel.subset_candidates`.
-/

namespace TemporalHorizon

/-- Whether a literal is true in a set of atoms. -/
def Lit.TrueIn (atoms : Set Nat) (lit : Lit) : Prop :=
  if lit.negated then lit.atom ∉ atoms else lit.atom ∈ atoms

namespace Rule

/-- Whether a set satisfies a rule.  A choice is always satisfied. -/
def SatisfiedBy (atoms : Set Nat) (rule : Rule) : Prop :=
  rule.kind = .disjunction → (∀ lit ∈ rule.body, lit.TrueIn atoms) → ∃ a ∈ rule.head, a ∈ atoms

/-- Whether the body of a rule holds in a part of a set, with the negated literals
read in the whole set. -/
def ReductBody (atoms part : Set Nat) (rule : Rule) : Prop :=
  ∀ lit ∈ rule.body, if lit.negated then lit.atom ∉ atoms else lit.atom ∈ part

/-- Whether a part of a set satisfies the reduct of a rule by the set. -/
def ReductSatisfiedBy (atoms part : Set Nat) (rule : Rule) : Prop :=
  rule.ReductBody atoms part →
    match rule.kind with
    | .disjunction => ∃ a ∈ rule.head, a ∈ part
    | .choice => ∀ a ∈ rule.head, a ∈ atoms → a ∈ part

/-- Reading all literals in the whole set gives the body itself. -/
theorem reductBody_self (atoms : Set Nat) (rule : Rule) :
    rule.ReductBody atoms atoms ↔ ∀ lit ∈ rule.body, lit.TrueIn atoms := Iff.rfl

/-- A set satisfies the reduct of a rule by itself exactly if it satisfies the
rule. -/
theorem reductSatisfiedBy_self (atoms : Set Nat) (rule : Rule) :
    rule.ReductSatisfiedBy atoms atoms ↔ rule.SatisfiedBy atoms := by
  obtain ⟨kind, head, body⟩ := rule
  cases kind <;> simp [ReductSatisfiedBy, SatisfiedBy, ReductBody, Lit.TrueIn]

end Rule

/-- Whether a set of atoms is a stable model of a program. -/
structure StableModel (program : Program) (atoms : Set Nat) : Prop where
  /-- It satisfies all rules. -/
  satisfied : ∀ rule ∈ program.rules, rule.SatisfiedBy atoms
  /-- No smaller set satisfies the reduct. -/
  minimal : ∀ part ⊆ atoms, (∀ rule ∈ program.rules, rule.ReductSatisfiedBy atoms part) →
    (∀ a ∈ program.free, a ∈ atoms → a ∈ part) → part = atoms

namespace StableModel

/-- Only atoms in heads and free atoms are true in a stable model. -/
theorem subset_candidates {program : Program} {atoms : Set Nat}
    (stable : StableModel program atoms) :
    ∀ a ∈ atoms, a ∈ program.free ∨ ∃ rule ∈ program.rules, a ∈ rule.head := by
  intro a ha
  by_contra hn
  simp only [not_or, not_exists, not_and] at hn
  -- Without `a` the set still satisfies the reduct, since no head contains `a`.
  have smaller : ∀ rule ∈ program.rules, rule.ReductSatisfiedBy atoms (atoms \ {a}) := by
    intro rule hrule hbody
    have whole : rule.ReductBody atoms atoms := by
      intro lit hlit
      have h := hbody lit hlit
      by_cases hneg : lit.negated
      · simpa only [hneg, if_true] using h
      · simp only [hneg, if_false, Bool.false_eq_true] at h ⊢
        exact h.1
    have hself := (rule.reductSatisfiedBy_self atoms).2 (stable.satisfied rule hrule) whole
    have keep : ∀ b ∈ rule.head, b ∈ atoms → b ∈ atoms \ {a} := fun b hb hba =>
      ⟨hba, fun e => hn.2 rule hrule (e ▸ hb)⟩
    cases hk : rule.kind with
    | disjunction =>
      simp only [hk] at hself ⊢
      obtain ⟨b, hb, hba⟩ := hself
      exact ⟨b, hb, keep b hb hba⟩
    | choice => simpa only [hk] using keep
  have heq := stable.minimal (atoms \ {a}) (fun b hb => hb.1) smaller
    fun b hb hba => ⟨hba, fun e => hn.1 (e ▸ hb)⟩
  have hmem : a ∈ atoms \ {a} := heq.symm ▸ ha
  exact hmem.2 rfl

end StableModel
end TemporalHorizon

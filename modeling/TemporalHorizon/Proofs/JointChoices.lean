import TemporalHorizon.Proofs.Enumeration

/-!
# A choice over several atoms

One choice over several atoms allows the same sets as one choice for each of them.  The
search does not treat the two alike: of a joint choice the reduct keeps a disjunction of
the atoms that the set has chosen, and a proper part of the set is enough for it as soon as
one of them is left.  So the joint choice has fewer models, never others.

* `accepts_of_joint`: what the search accepts with the joint choice it accepts with the
  single ones.
* `not_accepts_joint_iff`: a set that is accepted with the single choices is lost exactly
  if a proper part of it has some, but not all, of the atoms chosen and is held up by
  nothing else (`Undercut`).
* `modelsAssuming_joint`: the same for the lists that the search returns.
-/

namespace TemporalHorizon

namespace Rule

theorem looselySatisfiedBy_choices {atoms part : Set Nat} {head : List Nat} {body : List Lit} :
    (choices head body).LooselySatisfiedBy atoms part ↔
      ((choices head body).ReductBody atoms part →
        (∃ a ∈ head, a ∈ atoms) → ∃ a ∈ head, a ∈ part) := Iff.rfl

/-- One choice for each atom of a list, all with the same body. -/
def eachChoice (head : List Nat) (body : List Lit) : List Rule :=
  head.map fun a => choices [a] body

theorem heads_eachChoice (head : List Nat) (body : List Lit) :
    (eachChoice head body).flatMap Rule.head = head := by
  induction head with
  | nil => rfl
  | cons a rest ih => exact congrArg (a :: ·) ih

theorem satisfiedBy_eachChoice {atoms : Set Nat} {head : List Nat} {body : List Lit} :
    ∀ rule ∈ eachChoice head body, rule.SatisfiedBy atoms := by
  simp [eachChoice, SatisfiedBy, choices]

/-- The single choices ask a part for all atoms that the set has chosen. -/
theorem looselySatisfiedBy_eachChoice {atoms part : Set Nat} {head : List Nat}
    {body : List Lit} :
    (∀ rule ∈ eachChoice head body, rule.LooselySatisfiedBy atoms part) ↔
      ((choices head body).ReductBody atoms part → ∀ a ∈ head, a ∈ atoms → a ∈ part) := by
  have hone : ∀ a, (choices [a] body).LooselySatisfiedBy atoms part ↔
      ((choices head body).ReductBody atoms part → a ∈ atoms → a ∈ part) := by
    intro a
    rw [looselySatisfiedBy_choices]
    simp only [List.mem_singleton, exists_eq_left]
    rfl
  simp only [eachChoice, List.forall_mem_map, hone]
  exact ⟨fun h hbody a ha => h a ha hbody, fun h a ha hbody => h hbody a ha⟩

end Rule

namespace Program

variable {before after : List Rule} {head : List Nat} {body : List Lit} {free : List Nat}

/-- A program with one choice over a list of atoms, between other rules. -/
def withJointChoice (before after : List Rule) (head : List Nat) (body : List Lit)
    (free : List Nat) : Program :=
  ⟨before ++ Rule.choices head body :: after, free⟩

/-- The program with one choice for each of the atoms instead. -/
def withEachChoice (before after : List Rule) (head : List Nat) (body : List Lit)
    (free : List Nat) : Program :=
  ⟨before ++ (Rule.eachChoice head body ++ after), free⟩

theorem candidates_withEachChoice :
    (withEachChoice before after head body free).candidates =
      (withJointChoice before after head body free).candidates := by
  have hheads : heads (before ++ (Rule.eachChoice head body ++ after)) =
      heads (before ++ Rule.choices head body :: after) := by
    simp only [heads, List.flatMap_append, List.flatMap_cons, Rule.heads_eachChoice]
    rfl
  simp only [candidates, withEachChoice, withJointChoice, hheads]

/-- The rules of both programs beside the choices in question. -/
def others (before after : List Rule) (free : List Nat) : List Rule :=
  before ++ (after ++ free.map Rule.choice)

theorem forall_expanded_joint {test : Rule → Prop} :
    (∀ rule ∈ (withJointChoice before after head body free).expanded, test rule) ↔
      test (.choices head body) ∧ ∀ rule ∈ others before after free, test rule := by
  simp only [expanded, withJointChoice, others, List.forall_mem_append, List.forall_mem_cons]
  tauto

theorem forall_expanded_each {test : Rule → Prop} :
    (∀ rule ∈ (withEachChoice before after head body free).expanded, test rule) ↔
      (∀ rule ∈ Rule.eachChoice head body, test rule) ∧
        ∀ rule ∈ others before after free, test rule := by
  simp only [expanded, withEachChoice, others, List.forall_mem_append]
  tauto

/-- A part of a set that keeps the set from being accepted with the joint choice although
the single choices do not mind it. -/
structure Undercut (before after : List Rule) (head : List Nat) (body : List Lit)
    (free : List Nat) (atoms part : Set Nat) : Prop where
  /-- It is a part of the set. -/
  subset : part ⊆ atoms
  /-- The reduct of all other rules holds in it. -/
  others : ∀ rule ∈ others before after free, rule.LooselySatisfiedBy atoms part
  /-- The choice is open in it. -/
  body : (Rule.choices head body).ReductBody atoms part
  /-- It has one of the atoms. -/
  kept : ∃ a ∈ head, a ∈ part
  /-- It has left out another one that the set has chosen. -/
  dropped : ∃ a ∈ head, a ∈ atoms ∧ a ∉ part

/-- A set that is undercut has chosen two atoms at least. -/
theorem Undercut.exists_ne {atoms part : Set Nat}
    (h : Undercut before after head body free atoms part) :
    ∃ a ∈ head, ∃ b ∈ head, a ∈ atoms ∧ b ∈ atoms ∧ a ≠ b := by
  obtain ⟨a, ha, hkept⟩ := h.kept
  obtain ⟨b, hb, hmem, hdropped⟩ := h.dropped
  exact ⟨a, ha, b, hb, h.subset hkept, hmem, fun heq => hdropped (heq ▸ hkept)⟩

theorem accepts_of_joint {atoms : Set Nat}
    (h : (withJointChoice before after head body free).Accepts atoms) :
    (withEachChoice before after head body free).Accepts atoms := by
  obtain ⟨hsat, hminimal⟩ := h
  have hothers := (forall_expanded_joint.1 hsat).2
  refine ⟨forall_expanded_each.2 ⟨Rule.satisfiedBy_eachChoice, hothers⟩, ?_⟩
  intro part hsub hreduct
  obtain ⟨hchoices, hrest⟩ := forall_expanded_each.1 hreduct
  refine hminimal part hsub (forall_expanded_joint.2 ⟨?_, hrest⟩)
  rw [Rule.looselySatisfiedBy_choices]
  rintro hbody ⟨a, ha, hmem⟩
  exact ⟨a, ha, Rule.looselySatisfiedBy_eachChoice.1 hchoices hbody a ha hmem⟩

/-- A set that the single choices admit is lost exactly if a part undercuts it. -/
theorem not_accepts_joint_iff {atoms : Set Nat}
    (h : (withEachChoice before after head body free).Accepts atoms) :
    ¬ (withJointChoice before after head body free).Accepts atoms ↔
      ∃ part, Undercut before after head body free atoms part := by
  obtain ⟨hsat, hminimal⟩ := h
  have hothers := (forall_expanded_each.1 hsat).2
  have hjoint : ∀ rule ∈ (withJointChoice before after head body free).expanded,
      rule.SatisfiedBy atoms := forall_expanded_joint.2 ⟨nofun, hothers⟩
  constructor
  · intro hnot
    obtain ⟨part, hsub, hreduct, hne⟩ : ∃ part ⊆ atoms,
        (∀ rule ∈ (withJointChoice before after head body free).expanded,
          rule.LooselySatisfiedBy atoms part) ∧ part ≠ atoms := by
      by_contra hnone
      push Not at hnone
      exact hnot ⟨hjoint, hnone⟩
    obtain ⟨hchoice, hrest⟩ := forall_expanded_joint.1 hreduct
    -- The part is no model of the single choices, so it leaves out an atom that is open in it.
    have hopen : ¬ ((Rule.choices head body).ReductBody atoms part →
        ∀ a ∈ head, a ∈ atoms → a ∈ part) := fun hall =>
      hne (hminimal part hsub
        (forall_expanded_each.2 ⟨Rule.looselySatisfiedBy_eachChoice.2 hall, hrest⟩))
    push Not at hopen
    obtain ⟨hbody, a, ha, hmem, hdropped⟩ := hopen
    exact ⟨part, hsub, hrest, hbody, Rule.looselySatisfiedBy_choices.1 hchoice hbody ⟨a, ha, hmem⟩,
      a, ha, hmem, hdropped⟩
  · rintro ⟨part, under⟩ ⟨-, hjointMinimal⟩
    obtain ⟨a, -, hmem, hdropped⟩ := under.dropped
    have heq := hjointMinimal part under.subset
      (forall_expanded_joint.2 ⟨fun _ _ => under.kept, under.others⟩)
    exact hdropped (heq ▸ hmem)

/-- The models that the search returns if there are few enough candidates. -/
def found (program : Program) (assumptions : List Lit) : List Model :=
  (program.stableCodes.map fun code => ⟨decode program.candidates code⟩).filter
    fun model => assumptions.all model.holds

/-- The models are the decoded codes that are accepted and meet the assumptions. -/
theorem mem_found {program : Program} {assumptions : List Lit} {model : Model} :
    model ∈ program.found assumptions ↔
      (∃ code < 1 <<< program.candidates.length, model = ⟨decode program.candidates code⟩) ∧
        program.Accepts model.toSet ∧ assumptions.all model.holds = true := by
  unfold found
  rw [List.mem_filter, List.mem_map, ← and_assoc]
  refine and_congr_left fun _ => ?_
  constructor
  · rintro ⟨code, hcode, rfl⟩
    have hlt := lt_of_mem_stableCodes hcode
    refine ⟨⟨code, hlt, rfl⟩, ?_⟩
    rw [toSet_decode]
    exact (isStable_coded_iff_accepts hlt).1 (List.mem_filter.1 hcode).2
  · rintro ⟨⟨code, hlt, rfl⟩, haccepts⟩
    rw [toSet_decode] at haccepts
    exact ⟨code, List.mem_filter.2 ⟨List.mem_range.2 hlt,
      (isStable_coded_iff_accepts hlt).2 haccepts⟩, rfl⟩

/-- The codes that pass with the joint choice are those among the codes of the single ones. -/
theorem stableCodes_joint :
    (withJointChoice before after head body free).stableCodes =
      (withEachChoice before after head body free).stableCodes.filter
        (isStable ((withJointChoice before after head body free).coded
          (withJointChoice before after head body free).candidates)) := by
  unfold stableCodes
  rw [List.filter_filter, candidates_withEachChoice]
  refine List.filter_congr fun code hcode => ?_
  have hlt := List.mem_range.1 hcode
  cases hstable : isStable ((withJointChoice before after head body free).coded
      (withJointChoice before after head body free).candidates) code with
  | false => rfl
  | true =>
    have haccepts := accepts_of_joint ((isStable_coded_iff_accepts hlt).1 hstable)
    rw [← candidates_withEachChoice] at haccepts hlt
    have heach := (isStable_coded_iff_accepts hlt).2 haccepts
    rw [candidates_withEachChoice] at heach
    rw [heach]
    rfl

theorem found_joint_sublist (assumptions : List Lit) :
    ((withJointChoice before after head body free).found assumptions).Sublist
      ((withEachChoice before after head body free).found assumptions) := by
  unfold found
  rw [stableCodes_joint, candidates_withEachChoice]
  exact (List.filter_sublist.map _).filter _

theorem notMem_found_joint_iff {assumptions : List Lit} {model : Model}
    (hmodel : model ∈ (withEachChoice before after head body free).found assumptions) :
    model ∉ (withJointChoice before after head body free).found assumptions ↔
      ∃ part, Undercut before after head body free model.toSet part := by
  obtain ⟨hcode, haccepts, hassumed⟩ := mem_found.1 hmodel
  rw [candidates_withEachChoice] at hcode
  rw [← not_accepts_joint_iff haccepts, mem_found]
  exact not_congr ⟨fun h => h.2.1, fun h => ⟨hcode, h, hassumed⟩⟩

/-- **A joint choice only loses models.**  If one choice over several atoms is replaced by one
choice for each of them, the candidates stay the same and the list that the search returns
stays the same but for models that are added: those with a part that keeps some, but not all,
of the atoms chosen and that satisfies the reduct of all other rules.  So no model that has
chosen one atom at most is lost. -/
theorem modelsAssuming_joint (before after : List Rule) (head : List Nat) (body : List Lit)
    (free : List Nat)
    (few : (withJointChoice before after head body free).candidates.length ≤ 24)
    (assumptions : List Lit) :
    (withEachChoice before after head body free).candidates =
        (withJointChoice before after head body free).candidates ∧
      ∃ joint each,
        (withJointChoice before after head body free).modelsAssuming assumptions = .ok joint ∧
        (withEachChoice before after head body free).modelsAssuming assumptions = .ok each ∧
        joint.Sublist each ∧
        (∀ model ∈ each, model ∉ joint ↔
          ∃ part, Undercut before after head body free model.toSet part) ∧
        ∀ model ∈ each, (∀ a ∈ head, ∀ b ∈ head, a ∈ model.toSet → b ∈ model.toSet → a = b) →
          model ∈ joint := by
  have hcandidates := @candidates_withEachChoice before after head body free
  refine ⟨hcandidates, _, _, modelsAssuming_eq few assumptions,
    modelsAssuming_eq (hcandidates ▸ few) assumptions, found_joint_sublist assumptions,
    fun model => notMem_found_joint_iff, fun model hmodel hsingle => ?_⟩
  by_contra hno
  obtain ⟨part, under⟩ := (notMem_found_joint_iff hmodel).1 hno
  obtain ⟨a, ha, b, hb, hmem, hmem', hne⟩ := under.exists_ne
  exact hne (hsingle a ha b hb hmem hmem')

/-- Two atoms that may both hold: with the joint choice they never do, since either of them
alone satisfies what the reduct keeps of it. -/
theorem modelsAssuming_joint_pair :
    (withJointChoice [] [] [1, 2] [] []).candidates.length ≤ 24 ∧
      (withJointChoice [] [] [1, 2] [] []).modelsAssuming [] = .ok [⟨[]⟩, ⟨[1]⟩, ⟨[2]⟩] ∧
      (withEachChoice [] [] [1, 2] [] []).modelsAssuming [] =
        .ok [⟨[]⟩, ⟨[1]⟩, ⟨[2]⟩, ⟨[1, 2]⟩] ∧
      ∃ part, Undercut [] [] [1, 2] [] [] {a | a ∈ [1, 2]} part := by
  have few : (withJointChoice [] [] [1, 2] [] []).candidates.length ≤ 24 := by decide
  have hjoint : (withJointChoice [] [] [1, 2] [] []).modelsAssuming [] =
      .ok [⟨[]⟩, ⟨[1]⟩, ⟨[2]⟩] := by decide +kernel
  have heach : (withEachChoice [] [] [1, 2] [] []).modelsAssuming [] =
      .ok [⟨[]⟩, ⟨[1]⟩, ⟨[2]⟩, ⟨[1, 2]⟩] := by decide +kernel
  obtain ⟨-, joint, each, hfound, hfound', -, hlost, -⟩ :=
    modelsAssuming_joint [] [] [1, 2] [] [] few []
  obtain rfl := Except.ok.inj (hjoint.symm.trans hfound)
  obtain rfl := Except.ok.inj (heach.symm.trans hfound')
  exact ⟨few, hjoint, heach, (hlost ⟨[1, 2]⟩ (by simp)).1 (by simp)⟩

end Program
end TemporalHorizon

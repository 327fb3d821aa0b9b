import Mathlib.Data.Nat.Bitwise
import TemporalHorizon.StableModel.Search

/-!
# Codes of sets

The search for stable models works on codes: numbers read as sets of bits.  This module
says what its tests mean for the sets, and that a code passes the test for minimality
exactly if no proper part of it is a model of the reduct.

The test has two branches.  If every head of the reduct is a single bit, there is a least
model, and the rounds of derivation stop at it: a round that changes anything adds the
head of a rule, so there are no more such rounds than rules.  Otherwise all parts of the
code are visited in decreasing order; `le_pred_and` is the reason that the step from one
part to the next skips none.
-/

namespace TemporalHorizon
namespace CodedRule

/-! ## Bits -/

theorem covers_iff {code part : Nat} :
    covers code part = true ↔ ∀ i, part.testBit i = true → code.testBit i = true := by
  unfold covers
  rw [beq_iff_eq]
  constructor
  · intro h i hi
    rw [← h, Nat.testBit_and, Bool.and_eq_true] at hi
    exact hi.2
  · intro h
    refine Nat.eq_of_testBit_eq fun i => ?_
    rw [Nat.testBit_and]
    cases hi : part.testBit i with
    | true => exact h i hi
    | false => rfl

theorem covers_refl (code : Nat) : covers code code = true := covers_iff.2 fun _ h => h

theorem covers_trans {a b c : Nat} (h : covers b a = true) (h' : covers c b = true) :
    covers c a = true :=
  covers_iff.2 fun i hi => covers_iff.1 h' i (covers_iff.1 h i hi)

theorem eq_of_covers {a b : Nat} (h : covers a b = true) (h' : covers b a = true) : a = b := by
  refine Nat.eq_of_testBit_eq fun i => Bool.eq_iff_iff.2 ⟨covers_iff.1 h' i, covers_iff.1 h i⟩

theorem meets_iff {code other : Nat} :
    meets code other = true ↔ ∃ i, code.testBit i = true ∧ other.testBit i = true := by
  unfold meets
  rw [bne_iff_ne]
  constructor
  · intro h
    obtain ⟨i, hi⟩ := Nat.exists_testBit_of_ne_zero h
    rw [Nat.testBit_and, Bool.and_eq_true] at hi
    exact ⟨i, hi⟩
  · rintro ⟨i, hi⟩ h
    have hbit := Nat.testBit_and code other i
    rw [h, Nat.zero_testBit, hi.1, hi.2] at hbit
    cases hbit

theorem meets_of_covers {code other head : Nat} (h : covers other code = true)
    (hm : meets head code = true) : meets head other = true := by
  obtain ⟨i, hi, hcode⟩ := meets_iff.1 hm
  exact meets_iff.2 ⟨i, hi, covers_iff.1 h i hcode⟩

/-- What a part of a code meets in the code, it meets in the whole. -/
theorem meets_and_of_covers {code part head : Nat} (h : covers code part = true) :
    meets (head &&& code) part = meets head part := by
  unfold covers at h
  rw [beq_iff_eq] at h
  unfold meets
  rw [Nat.and_assoc, Nat.and_comm code part, h]

/-- The head that a rule keeps in the reduct by a code. -/
def reducedHead (rule : CodedRule) (code : Nat) : Nat :=
  if rule.choice then rule.head &&& code else rule.head

theorem reduced?_eq_some {code : Nat} {rule : CodedRule} {reduced : Nat × Nat} :
    reduced? code rule = some reduced ↔ meets rule.negative code = false ∧
      rule.reducedHead code ≠ 0 ∧ (rule.reducedHead code, rule.positive) = reduced := by
  unfold reduced? reducedHead
  cases meets rule.negative code <;> simp

end CodedRule

namespace Program

open CodedRule

/-- A single bit that meets a code is in it. -/
theorem covers_of_isSingle {head code : Nat} (h : isSingle head = true)
    (hm : meets head code = true) : covers code head = true := by
  unfold isSingle at h
  rw [Bool.and_eq_true, bne_iff_ne, beq_iff_eq] at h
  obtain ⟨k, rfl⟩ := (Nat.and_sub_one_eq_zero_iff_isPowerOfTwo h.1).1 h.2
  obtain ⟨i, hi, hcode⟩ := meets_iff.1 hm
  rw [Nat.testBit_two_pow, decide_eq_true_eq] at hi
  refine covers_iff.2 fun j hj => ?_
  rw [Nat.testBit_two_pow, decide_eq_true_eq] at hj
  rw [← hj, hi]
  exact hcode

/-! ## Walking down the parts of a code -/

/-- Below a part of a code, the next part that is visited is the largest one. -/
theorem le_pred_and {part code other : Nat} (hpart : covers code part = true)
    (hother : covers code other = true) (hlt : other < part) : other ≤ (part - 1) &&& code := by
  unfold covers at hpart hother
  rw [beq_iff_eq] at hpart hother
  induction part using Nat.strong_induction_on generalizing code other with
  | _ part ih =>
    have hpart' : part / 2 &&& code / 2 = part / 2 := by rw [← Nat.and_div_two, hpart]
    have hother' : other / 2 &&& code / 2 = other / 2 := by rw [← Nat.and_div_two, hother]
    have hdiv : ((part - 1) &&& code) / 2 = (part - 1) / 2 &&& code / 2 := Nat.and_div_two
    have hmod : ((part - 1) &&& code) % 2 = 1 ↔ (part - 1) % 2 = 1 ∧ code % 2 = 1 :=
      Nat.and_mod_two_eq_one
    -- By the last bit of the part: if it is set, the walk clears it and nothing else.
    rcases Nat.mod_two_eq_zero_or_one part with heven | hodd
    · have hodd : other % 2 = 1 → code % 2 = 1 := fun h =>
        (Nat.and_mod_two_eq_one.1 (hother.symm ▸ h)).2
      have hhalf : (part - 1) / 2 = part / 2 - 1 := by omega
      have hle := ih (part / 2) (by omega) hpart' hother' (by omega)
      rw [hhalf] at hdiv
      omega
    · have hhalf : (part - 1) / 2 = part / 2 := by omega
      rw [hhalf, hpart'] at hdiv
      omega

theorem noModelBelow_iff {reduct : List (Nat × Nat)} {code : Nat} : ∀ {budget part : Nat},
    part ≤ budget → covers code part = true →
      (noModelBelow reduct code budget part = true ↔
        ∀ other, covers code other = true → other < part → satisfiesReduct reduct other = false)
  | 0, part, hle, _ => by
    obtain rfl := Nat.le_zero.1 hle
    exact ⟨fun _ other _ hlt => absurd hlt (Nat.not_lt_zero other), fun _ => rfl⟩
  | budget + 1, 0, _, _ =>
    ⟨fun _ other _ hlt => absurd hlt (Nat.not_lt_zero other), fun _ => rfl⟩
  | budget + 1, part + 1, hle, hpart => by
    have hsmaller : covers code (part &&& code) = true :=
      covers_iff.2 fun i hi => by
        rw [Nat.testBit_and, Bool.and_eq_true] at hi
        exact hi.2
    have hlast : part &&& code ≤ part := Nat.and_le_left
    have ih := @noModelBelow_iff reduct code budget (part &&& code) (by omega) hsmaller
    unfold noModelBelow
    cases hmodel : satisfiesReduct reduct (part &&& code) with
    | true =>
      rw [if_pos hmodel]
      refine ⟨nofun, fun h => ?_⟩
      rw [h (part &&& code) hsmaller (by omega)] at hmodel
      cases hmodel
    | false =>
      rw [if_neg (by rw [hmodel]; nofun), ih]
      constructor
      · intro h other hother hlt
        rcases Nat.lt_or_eq_of_le (le_pred_and hpart hother hlt) with hless | heq
        · exact h other hother hless
        · rw [heq]
          exact hmodel
      · exact fun h other hother hlt => h other hother (by omega)

/-! ## Rounds of derivation -/

/-- A round adds the heads of the rules whose bodies hold. -/
theorem testBit_derive {reduct : List (Nat × Nat)} {code i : Nat} :
    (derive reduct code).testBit i = true ↔ code.testBit i = true ∨
      ∃ rule ∈ reduct, covers code rule.2 = true ∧ rule.1.testBit i = true := by
  -- The bodies are read in `code`, while the heads are collected on the way.
  have hfold : ∀ (rules : List (Nat × Nat)) (acc : Nat),
      (rules.foldl (fun acc rule => if covers code rule.2 then acc ||| rule.1 else acc)
        acc).testBit i = true ↔ acc.testBit i = true ∨
          ∃ rule ∈ rules, covers code rule.2 = true ∧ rule.1.testBit i = true := by
    intro rules
    induction rules with
    | nil => simp
    | cons rule rest ih =>
      intro acc
      rw [List.foldl_cons, ih]
      by_cases hbody : covers code rule.2 = true
      · simp [hbody, or_assoc]
      · simp [hbody]
  exact hfold reduct code

theorem covers_derive (reduct : List (Nat × Nat)) (code : Nat) :
    covers (derive reduct code) code = true :=
  covers_iff.2 fun _ hi => testBit_derive.2 (.inl hi)

theorem covers_derive_head {reduct : List (Nat × Nat)} {code : Nat} {rule : Nat × Nat}
    (hrule : rule ∈ reduct) (hbody : covers code rule.2 = true) :
    covers (derive reduct code) rule.1 = true :=
  covers_iff.2 fun _ hi => testBit_derive.2 (.inr ⟨rule, hrule, hbody, hi⟩)

/-- The number of rules whose heads have been added. -/
def settled (reduct : List (Nat × Nat)) (code : Nat) : Nat :=
  reduct.countP fun rule => covers code rule.1

/-- A round that changes a code settles one more rule at least. -/
theorem settled_lt_derive {reduct : List (Nat × Nat)} {code : Nat}
    (h : derive reduct code ≠ code) :
    settled reduct code < settled reduct (derive reduct code) := by
  obtain ⟨rule, hrule, hbody, hnew⟩ : ∃ rule ∈ reduct, covers code rule.2 = true ∧
      ¬ covers code rule.1 = true := by
    by_contra hnone
    refine h (eq_of_covers (covers_derive reduct code) (covers_iff.2 fun i hi => ?_))
    rcases testBit_derive.1 hi with hi | ⟨rule, hrule, hbody, hi⟩
    · exact hi
    · by_contra hno
      exact hnone ⟨rule, hrule, hbody, fun hcovers => hno (covers_iff.1 hcovers i hi)⟩
  have hmono : ∀ rules : List (Nat × Nat),
      settled rules code ≤ settled rules (derive reduct code) := fun rules =>
    List.countP_mono_left fun _ _ hcovers => covers_trans hcovers (covers_derive reduct code)
  have hhead := covers_derive_head hrule hbody
  obtain ⟨before, after, hsplit⟩ := List.append_of_mem hrule
  have hcount : ∀ code, settled reduct code = settled before code +
      (settled after code + if covers code rule.1 then 1 else 0) := by
    intro code
    rw [settled, hsplit, List.countP_append, List.countP_cons]
    rfl
  have hbefore := hmono before
  have hafter := hmono after
  rw [hcount code, hcount (derive reduct code), if_neg hnew, if_pos hhead]
  omega

/-- With a round for every rule that is not settled, derivation comes to an end. -/
theorem derive_deriveAll {reduct : List (Nat × Nat)} : ∀ {rounds code : Nat},
    reduct.length ≤ settled reduct code + rounds →
      derive reduct (deriveAll reduct rounds code) = deriveAll reduct rounds code
  | 0, code, h => by
    by_contra hne
    have hlt := settled_lt_derive hne
    have hle : settled reduct (derive reduct code) ≤ reduct.length := List.countP_le_length
    have heq : deriveAll reduct 0 code = code := rfl
    rw [heq] at hlt
    omega
  | rounds + 1, code, h => by
    unfold deriveAll
    dsimp only
    split
    · next heq => exact heq
    · next hne =>
      have hlt := settled_lt_derive hne
      exact derive_deriveAll (by omega)

theorem derive_leastModel (reduct : List (Nat × Nat)) :
    derive reduct (leastModel reduct) = leastModel reduct :=
  derive_deriveAll (Nat.le_add_left _ _)

/-- If all heads are single bits, derivation stays inside every model. -/
theorem covers_deriveAll {reduct : List (Nat × Nat)} {model : Nat}
    (hsingle : ∀ rule ∈ reduct, isSingle rule.1 = true)
    (hmodel : satisfiesReduct reduct model = true) : ∀ {rounds code : Nat},
    covers model code = true → covers model (deriveAll reduct rounds code) = true
  | 0, _, h => h
  | rounds + 1, code, h => by
    have hnext : covers model (derive reduct code) = true := by
      refine covers_iff.2 fun i hi => ?_
      rcases testBit_derive.1 hi with hi | ⟨rule, hrule, hbody, hi⟩
      · exact covers_iff.1 h i hi
      · have hrules := List.all_eq_true.1 hmodel rule hrule
        rw [covers_trans hbody h] at hrules
        exact covers_iff.1 (covers_of_isSingle (hsingle rule hrule) hrules) i hi
    unfold deriveAll
    dsimp only
    split
    · exact h
    · exact covers_deriveAll hsingle hmodel hnext

theorem covers_leastModel {reduct : List (Nat × Nat)} {model : Nat}
    (hsingle : ∀ rule ∈ reduct, isSingle rule.1 = true)
    (hmodel : satisfiesReduct reduct model = true) :
    covers model (leastModel reduct) = true :=
  covers_deriveAll hsingle hmodel (covers_iff.2 fun i hi => by simp at hi)

theorem meets_self {head : Nat} (h : head ≠ 0) : meets head head = true := by
  obtain ⟨i, hi⟩ := Nat.exists_testBit_of_ne_zero h
  exact meets_iff.2 ⟨i, hi, hi⟩

/-- The end of derivation is a model. -/
theorem satisfiesReduct_leastModel {reduct : List (Nat × Nat)}
    (hsingle : ∀ rule ∈ reduct, isSingle rule.1 = true) :
    satisfiesReduct reduct (leastModel reduct) = true := by
  refine List.all_eq_true.2 fun rule hrule => ?_
  cases hbody : covers (leastModel reduct) rule.2 with
  | false => rfl
  | true =>
    have hhead := covers_derive_head hrule hbody
    rw [derive_leastModel] at hhead
    have hne : rule.1 ≠ 0 := by
      have h := hsingle rule hrule
      unfold isSingle at h
      rw [Bool.and_eq_true, bne_iff_ne] at h
      exact h.1
    exact meets_of_covers hhead (meets_self hne)

/-! ## Minimal models -/

/-- **The test for minimality.**  A model of the reduct passes it exactly if no proper part
of it is a model. -/
theorem isMinimal_iff {rules : List CodedRule} {code : Nat}
    (hmodel : satisfiesReduct (rules.filterMap (reduced? code)) code = true) :
    isMinimal rules code = true ↔ ∀ part, covers code part = true →
      satisfiesReduct (rules.filterMap (reduced? code)) part = true → part = code := by
  unfold isMinimal
  dsimp only
  split
  · next hall =>
    have hsingle : ∀ rule ∈ rules.filterMap (reduced? code), isSingle rule.1 = true :=
      List.all_eq_true.1 hall
    rw [beq_iff_eq]
    constructor
    · intro hleast part hpart hsat
      have hcovers := covers_leastModel hsingle hsat
      rw [hleast] at hcovers
      exact eq_of_covers hcovers hpart
    · intro h
      exact h _ (covers_leastModel hsingle hmodel) (satisfiesReduct_leastModel hsingle)
  · rw [noModelBelow_iff (Nat.le_refl code) (covers_refl code)]
    constructor
    · intro h part hpart hsat
      by_contra hne
      have hle : part ≤ code := by
        unfold covers at hpart
        rw [beq_iff_eq] at hpart
        exact hpart ▸ Nat.and_le_right
      rw [h part hpart (Nat.lt_of_le_of_ne hle hne)] at hsat
      cases hsat
    · intro h part hpart hlt
      cases hsat : satisfiesReduct (rules.filterMap (reduced? code)) part with
      | false => rfl
      | true => exact absurd (h part hpart hsat) (Nat.ne_of_lt hlt)

/-- What the reduct says rule by rule. -/
theorem satisfiesReduct_iff {rules : List CodedRule} {code part : Nat} :
    satisfiesReduct (rules.filterMap (reduced? code)) part = true ↔
      ∀ rule ∈ rules, meets rule.negative code = false → covers part rule.positive = true →
        rule.reducedHead code ≠ 0 → meets (rule.reducedHead code) part = true := by
  unfold satisfiesReduct
  rw [List.all_eq_true]
  constructor
  · intro h rule hrule hnegative hbody hhead
    have hreduced : reduced? code rule = some (rule.reducedHead code, rule.positive) :=
      reduced?_eq_some.2 ⟨hnegative, hhead, rfl⟩
    have hsat := h _ (List.mem_filterMap.2 ⟨rule, hrule, hreduced⟩)
    rw [hbody] at hsat
    exact hsat
  · intro h reduced hmem
    obtain ⟨rule, hrule, hreduced⟩ := List.mem_filterMap.1 hmem
    obtain ⟨hnegative, hhead, rfl⟩ := reduced?_eq_some.1 hreduced
    cases hbody : covers part rule.positive with
    | false => rfl
    | true => exact h rule hrule hnegative hbody hhead

/-- A code that satisfies the rules is a model of their reduct by it. -/
theorem satisfiesReduct_of_satisfied {rules : List CodedRule} {code : Nat}
    (h : ∀ rule ∈ rules, rule.satisfied code = true) :
    satisfiesReduct (rules.filterMap (reduced? code)) code = true := by
  refine satisfiesReduct_iff.2 fun rule hrule hnegative hbody hhead => ?_
  have hsat := h rule hrule
  unfold satisfied bodyHolds at hsat
  unfold reducedHead at hhead ⊢
  cases hchoice : rule.choice with
  | true =>
    rw [hchoice] at hhead
    obtain ⟨i, hi⟩ := Nat.exists_testBit_of_ne_zero hhead
    have hi' := hi
    rw [if_pos rfl, Nat.testBit_and, Bool.and_eq_true] at hi'
    exact meets_iff.2 ⟨i, hi, hi'.2⟩
  | false =>
    rw [hchoice, hbody, hnegative] at hsat
    exact hsat

/-- **The test for stability.** -/
theorem isStable_iff {rules : List CodedRule} {code : Nat} :
    isStable rules code = true ↔ (∀ rule ∈ rules, rule.satisfied code = true) ∧
      ∀ part, covers code part = true →
        satisfiesReduct (rules.filterMap (reduced? code)) part = true → part = code := by
  unfold isStable
  rw [Bool.and_eq_true, List.all_eq_true]
  exact and_congr_right fun h => isMinimal_iff (satisfiesReduct_of_satisfied h)

/-! ## The search -/

/-- The search finds the numbers that pass the test, in increasing order. -/
theorem searchBelow_eq (test : Nat → Bool) (bound : Nat) (found : List Nat) :
    searchBelow test bound found = (List.range bound).filter test ++ found := by
  induction bound generalizing found with
  | zero => rfl
  | succ bound ih =>
    rw [searchBelow, ih, List.range_succ, List.filter_append]
    cases htest : test bound <;> simp [htest]

end Program
end TemporalHorizon

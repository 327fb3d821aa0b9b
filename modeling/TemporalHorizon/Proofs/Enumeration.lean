import Mathlib.Data.List.Basic
import Mathlib.Data.Set.Insert
import TemporalHorizon.Proofs.Codes
import TemporalHorizon.StableModel.Semantics

/-!
# The search finds the stable models

The search returns a list of models, and a stable model is a set of atoms that is defined
without codes, candidates or search.  This module joins the two.

* `denoted`: the set of atoms that a code stands for; `exists_code` and `codeHead_decode`
  say that codes below the bound and sets of candidates correspond.
* `codeRule?_eq_some`: a rule is dropped exactly if it asks for an atom that is no candidate.
* `satisfied_codeOf`, `reduct_codeOf`: what the tests on a coded rule say about the rule.  The
  coded reduct keeps a choice as a disjunction of the atoms chosen (`LooselySatisfiedBy`).
* `isStable_coded_iff_accepts`: a code passes the test exactly if no proper part of its set
  satisfies the reduct loosely; `isStable_coded_iff`: if every choice has one atom at most,
  these are the stable models.
* `modelsAssuming_eq_stableModels`: the list holds each stable model once, in order.

Free atoms need no treatment of their own, since they are coded as choices without a body.
Constraints are left out of the reduct that the search computes; they are satisfied by the
set itself and hence by all its parts, so that nothing is lost (`reduct_codeOf`).
-/

namespace TemporalHorizon

/-! ## Bodies by their atoms -/

namespace Rule

theorem mem_positiveBody {rule : Rule} {a : Nat} :
    a ∈ rule.positiveBody ↔ ∃ lit ∈ rule.body, lit.negated = false ∧ lit.atom = a := by
  simp [positiveBody, and_assoc]

theorem mem_negativeBody {rule : Rule} {a : Nat} :
    a ∈ rule.negativeBody ↔ ∃ lit ∈ rule.body, lit.negated = true ∧ lit.atom = a := by
  simp [negativeBody, and_assoc]

theorem reductBody_iff_atoms {atoms part : Set Nat} {rule : Rule} :
    rule.ReductBody atoms part ↔
      (∀ a ∈ rule.positiveBody, a ∈ part) ∧ ∀ a ∈ rule.negativeBody, a ∉ atoms := by
  constructor
  · intro h
    constructor
    · intro a ha
      obtain ⟨lit, hlit, hsign, rfl⟩ := mem_positiveBody.1 ha
      simpa [hsign] using h lit hlit
    · intro a ha
      obtain ⟨lit, hlit, hsign, rfl⟩ := mem_negativeBody.1 ha
      simpa [hsign] using h lit hlit
  · rintro ⟨hpositive, hnegative⟩ lit hlit
    cases hsign : lit.negated with
    | false => simpa using hpositive _ (mem_positiveBody.2 ⟨lit, hlit, hsign, rfl⟩)
    | true => simpa using hnegative _ (mem_negativeBody.2 ⟨lit, hlit, hsign, rfl⟩)

/-- A body that holds in a part holds in the whole set. -/
theorem ReductBody.mono {atoms part : Set Nat} {rule : Rule} (hsub : part ⊆ atoms)
    (h : rule.ReductBody atoms part) : rule.ReductBody atoms atoms := by
  obtain ⟨hpositive, hnegative⟩ := reductBody_iff_atoms.1 h
  exact reductBody_iff_atoms.2 ⟨fun a ha => hsub (hpositive a ha), hnegative⟩

/-- Whether a part of a set satisfies the reduct of a rule by the set, if a choice asks for one
of the atoms that the set has chosen instead of all. -/
def LooselySatisfiedBy (atoms part : Set Nat) (rule : Rule) : Prop :=
  rule.ReductBody atoms part →
    match rule.kind with
    | .disjunction => ∃ a ∈ rule.head, a ∈ part
    | .choice => (∃ a ∈ rule.head, a ∈ atoms) → ∃ a ∈ rule.head, a ∈ part

theorem ReductSatisfiedBy.loosely {atoms part : Set Nat} {rule : Rule}
    (h : rule.ReductSatisfiedBy atoms part) : rule.LooselySatisfiedBy atoms part := by
  intro hbody
  have hhead := h hbody
  cases hkind : rule.kind with
  | disjunction => simpa only [hkind] using hhead
  | choice =>
    simp only [hkind] at hhead
    rintro ⟨a, ha, hmem⟩
    exact ⟨a, ha, hhead a ha hmem⟩

/-- A choice of one atom at most leaves nothing loose. -/
theorem looselySatisfiedBy_iff {atoms part : Set Nat} {rule : Rule}
    (single : rule.kind = .choice → ∀ a ∈ rule.head, ∀ b ∈ rule.head, a = b) :
    rule.LooselySatisfiedBy atoms part ↔ rule.ReductSatisfiedBy atoms part := by
  refine ⟨fun h hbody => ?_, ReductSatisfiedBy.loosely⟩
  have hhead := h hbody
  cases hkind : rule.kind with
  | disjunction => simpa only [hkind] using hhead
  | choice =>
    simp only [hkind] at hhead
    intro a ha hmem
    obtain ⟨b, hb, hpart⟩ := hhead ⟨a, ha, hmem⟩
    rw [single hkind a ha b hb]
    exact hpart

end Rule

namespace Program

open CodedRule

/-! ## Candidates -/

theorem pairwise_candidates (program : Program) : program.candidates.Pairwise (· < ·) :=
  Ordered.pairwise_ofList_byNat _

theorem nodup_candidates (program : Program) : program.candidates.Nodup :=
  (pairwise_candidates program).imp Nat.ne_of_lt

theorem mem_candidates {program : Program} {a : Nat} :
    a ∈ program.candidates ↔ a ∈ program.free ∨ ∃ rule ∈ program.rules, a ∈ rule.head := by
  unfold candidates heads
  rw [Ordered.mem_ofList fun _ _ _ _ => Ordered.byNat_eq_eq.1, List.mem_append, List.mem_flatMap]

/-! ## Sets and their codes -/

section

variable {candidates : List Nat}

/-- The atoms whose bits are in a code. -/
def denoted (candidates : List Nat) (code : Nat) : Set Nat :=
  {a | ∃ i, candidates[i]? = some a ∧ code.testBit i = true}

theorem mem_of_mem_denoted {code a : Nat} (h : a ∈ denoted candidates code) : a ∈ candidates := by
  obtain ⟨i, hi, -⟩ := h
  exact List.mem_of_getElem? hi

theorem mem_decode {code a : Nat} : a ∈ decode candidates code ↔ a ∈ denoted candidates code := by
  unfold decode denoted
  simp only [List.mem_map, List.mem_filter, List.mem_zipIdx_iff_getElem?, Prod.exists]
  constructor
  · rintro ⟨b, i, hi, rfl⟩
    exact ⟨i, hi⟩
  · rintro ⟨i, hi⟩
    exact ⟨a, i, hi, rfl⟩

theorem bit?_eq_none {a : Nat} : bit? candidates a = none ↔ a ∉ candidates := by
  simp [bit?, List.idxOf?_eq_none_iff]

/-- No two positions hold the same candidate. -/
theorem position_unique (distinct : candidates.Nodup) {i j a : Nat}
    (hi : candidates[i]? = some a) (hj : candidates[j]? = some a) : i = j := by
  obtain ⟨hlt, -⟩ := List.getElem?_eq_some_iff.1 hi
  exact (List.getElem?_inj hlt distinct).1 (hi.trans hj.symm)

theorem testBit_denoted (distinct : candidates.Nodup) {code i a : Nat}
    (hi : candidates[i]? = some a) : code.testBit i = true ↔ a ∈ denoted candidates code := by
  refine ⟨fun h => ⟨i, hi, h⟩, ?_⟩
  rintro ⟨j, hj, h⟩
  rw [position_unique distinct hi hj]
  exact h

theorem testBit_bit? (distinct : candidates.Nodup) {a bit i : Nat}
    (h : bit? candidates a = some bit) : bit.testBit i = true ↔ candidates[i]? = some a := by
  obtain ⟨j, hj, rfl⟩ := Option.map_eq_some_iff.1 h
  obtain ⟨hlt, hget, -⟩ := List.idxOf?_eq_some_iff.1 hj
  have hget : candidates[j]? = some a := List.getElem?_eq_some_iff.2 ⟨hlt, hget⟩
  rw [Nat.one_shiftLeft, Nat.testBit_two_pow, decide_eq_true_eq]
  constructor
  · rintro rfl
    exact hget
  · exact fun hi => position_unique distinct hget hi

theorem codeHead_cons (candidates : List Nat) (a : Nat) (rest : List Nat) :
    codeHead candidates (a :: rest) =
      (bit? candidates a).getD 0 ||| codeHead candidates rest := rfl

/-- The code of a list of atoms has the bits of the candidates among them. -/
theorem testBit_codeHead (distinct : candidates.Nodup) {atoms : List Nat} {i : Nat} :
    (codeHead candidates atoms).testBit i = true ↔ ∃ a ∈ atoms, candidates[i]? = some a := by
  induction atoms with
  | nil => simp [codeHead]
  | cons a rest ih =>
    have hsplit : (∃ b ∈ a :: rest, candidates[i]? = some b) ↔
        candidates[i]? = some a ∨ ∃ b ∈ rest, candidates[i]? = some b := by simp
    rw [codeHead_cons, Nat.testBit_or, Bool.or_eq_true, ih, hsplit]
    refine or_congr_left ?_
    cases hbit : bit? candidates a with
    | some bit => exact testBit_bit? distinct hbit
    | none =>
      have hmem := bit?_eq_none.1 hbit
      simp only [Option.getD_none, Nat.zero_testBit, Bool.false_eq_true, false_iff]
      exact fun hi => hmem (List.mem_of_getElem? hi)

/-- The code of a list depends on its members only. -/
theorem codeHead_congr (distinct : candidates.Nodup)
    {atoms others : List Nat} (h : ∀ a, a ∈ atoms ↔ a ∈ others) :
    codeHead candidates atoms = codeHead candidates others := by
  refine Nat.eq_of_testBit_eq fun i => Bool.eq_iff_iff.2 ?_
  rw [testBit_codeHead distinct, testBit_codeHead distinct]
  simp only [h]

theorem meets_codeHead (distinct : candidates.Nodup) {atoms : List Nat}
    {code : Nat} : meets (codeHead candidates atoms) code = true ↔
      ∃ a ∈ atoms, a ∈ denoted candidates code := by
  rw [meets_iff]
  constructor
  · rintro ⟨i, hhead, hi⟩
    obtain ⟨a, ha, hget⟩ := (testBit_codeHead distinct).1 hhead
    exact ⟨a, ha, i, hget, hi⟩
  · rintro ⟨a, ha, i, hget, hi⟩
    exact ⟨i, (testBit_codeHead distinct).2 ⟨a, ha, hget⟩, hi⟩

theorem covers_codeHead (distinct : candidates.Nodup) {atoms : List Nat}
    (known : ∀ a ∈ atoms, a ∈ candidates) {code : Nat} :
    covers code (codeHead candidates atoms) = true ↔
      ∀ a ∈ atoms, a ∈ denoted candidates code := by
  rw [covers_iff]
  constructor
  · intro h a ha
    obtain ⟨i, hget⟩ := List.mem_iff_getElem?.1 (known a ha)
    exact ⟨i, hget, h i ((testBit_codeHead distinct).2 ⟨a, ha, hget⟩)⟩
  · intro h i hi
    obtain ⟨a, ha, hget⟩ := (testBit_codeHead distinct).1 hi
    exact (testBit_denoted distinct hget).2 (h a ha)

theorem denoted_mono {code part : Nat} (h : covers code part = true) :
    denoted candidates part ⊆ denoted candidates code := by
  rintro a ⟨i, hget, hi⟩
  exact ⟨i, hget, covers_iff.1 h i hi⟩

/-- Below the bound, every bit is the bit of a candidate. -/
theorem lt_length_of_testBit {code i : Nat}
    (hlt : code < 1 <<< candidates.length) (hi : code.testBit i = true) :
    i < candidates.length := by
  by_contra hle
  rw [Nat.one_shiftLeft] at hlt
  have hpow : 2 ^ candidates.length ≤ 2 ^ i := Nat.pow_le_pow_right Nat.two_pos (by omega)
  rw [Nat.testBit_lt_two_pow (Nat.lt_of_lt_of_le hlt hpow)] at hi
  cases hi

/-- The atoms of a code have that code. -/
theorem codeHead_decode (distinct : candidates.Nodup) {code : Nat}
    (hlt : code < 1 <<< candidates.length) :
    codeHead candidates (decode candidates code) = code := by
  refine Nat.eq_of_testBit_eq fun i => Bool.eq_iff_iff.2 ?_
  rw [testBit_codeHead distinct]
  constructor
  · rintro ⟨a, ha, hget⟩
    exact (testBit_denoted distinct hget).2 (mem_decode.1 ha)
  · intro hi
    have hget := List.getElem?_eq_getElem (lt_length_of_testBit hlt hi)
    exact ⟨_, mem_decode.2 ⟨i, hget, hi⟩, hget⟩

theorem covers_of_denoted_subset (distinct : candidates.Nodup)
    {code part : Nat} (hlt : part < 1 <<< candidates.length)
    (h : denoted candidates part ⊆ denoted candidates code) : covers code part = true := by
  refine covers_iff.2 fun i hi => ?_
  have hget := List.getElem?_eq_getElem (lt_length_of_testBit hlt hi)
  exact (testBit_denoted distinct hget).2 (h ⟨i, hget, hi⟩)

/-- Every set of candidates has a code. -/
theorem exists_code (distinct : candidates.Nodup) {atoms : Set Nat}
    (hsub : ∀ a ∈ atoms, a ∈ candidates) :
    ∃ code < 1 <<< candidates.length, denoted candidates code = atoms := by
  classical
  let members := candidates.filter fun a => a ∈ atoms
  have hmembers : ∀ a, a ∈ members ↔ a ∈ atoms := by
    intro a
    rw [List.mem_filter, decide_eq_true_eq]
    exact ⟨And.right, fun ha => ⟨hsub a ha, ha⟩⟩
  refine ⟨codeHead candidates members, ?_, ?_⟩
  · rw [Nat.one_shiftLeft]
    refine Nat.lt_pow_two_of_testBit _ fun i hi => Bool.eq_false_iff.2 fun hbit => ?_
    obtain ⟨a, -, hget⟩ := (testBit_codeHead distinct).1 hbit
    rw [List.getElem?_eq_none hi] at hget
    cases hget
  · ext a
    constructor
    · rintro ⟨i, hget, hi⟩
      obtain ⟨b, hb, hget'⟩ := (testBit_codeHead distinct).1 hi
      obtain rfl := Option.some.inj (hget.symm.trans hget')
      exact (hmembers a).1 hb
    · intro ha
      obtain ⟨i, hget⟩ := List.mem_iff_getElem?.1 (hsub a ha)
      exact ⟨i, hget, (testBit_codeHead distinct).2 ⟨a, (hmembers a).2 ha, hget⟩⟩

/-! ## Rules and their codes -/

/-- The code of a rule, part by part. -/
def codeOf (candidates : List Nat) (rule : Rule) : CodedRule :=
  ⟨rule.kind == .choice, codeHead candidates rule.head, codeHead candidates rule.positiveBody,
    codeHead candidates rule.negativeBody⟩

/-- The code of a body consists of those of its positive and its negated atoms. -/
theorem codeBody?_eq_some {body : List Lit} {code : Nat × Nat}
    (h : codeBody? candidates body = some code) :
    (∀ lit ∈ body, lit.negated = false → lit.atom ∈ candidates) ∧
      code.1 = codeHead candidates ((body.filter fun lit => !lit.negated).map Lit.atom) ∧
      code.2 = codeHead candidates ((body.filter fun lit => lit.negated).map Lit.atom) := by
  induction body generalizing code with
  | nil =>
    cases h
    exact ⟨nofun, rfl, rfl⟩
  | cons lit rest ih =>
    unfold codeBody? at h
    split at h
    · next bit hrest hbit hsign =>
      cases h
      obtain ⟨hknown, hpositive, hnegative⟩ := ih hrest
      have hmem : lit.atom ∈ candidates := by
        by_contra hno
        rw [bit?_eq_none.2 hno] at hbit
        cases hbit
      refine ⟨List.forall_mem_cons.2 ⟨fun _ => hmem, hknown⟩, ?_, ?_⟩
      · simp [hsign, codeHead_cons, hbit, ← hpositive]
      · simp [hsign, ← hnegative]
    · next bit hrest hbit hsign =>
      cases h
      obtain ⟨hknown, hpositive, hnegative⟩ := ih hrest
      refine ⟨List.forall_mem_cons.2 ⟨fun hf => ?_, hknown⟩, ?_, ?_⟩
      · rw [hsign] at hf
        cases hf
      · simp [hsign, ← hpositive]
      · simp [hsign, codeHead_cons, hbit, ← hnegative]
    · next hrest hbit hsign =>
      cases h
      obtain ⟨hknown, hpositive, hnegative⟩ := ih hrest
      refine ⟨List.forall_mem_cons.2 ⟨fun hf => ?_, hknown⟩, ?_, ?_⟩
      · rw [hsign] at hf
        cases hf
      · simp [hsign, ← hpositive]
      · simp [hsign, codeHead_cons, hbit, ← hnegative]
    · cases h
    · cases h

theorem codeBody?_eq_none {body : List Lit} (h : codeBody? candidates body = none) :
    ∃ lit ∈ body, lit.negated = false ∧ lit.atom ∉ candidates := by
  induction body with
  | nil => cases h
  | cons lit rest ih =>
    unfold codeBody? at h
    split at h
    · cases h
    · cases h
    · cases h
    · next hbit hsign => exact ⟨lit, List.mem_cons_self, hsign, bit?_eq_none.1 hbit⟩
    · next hrest =>
      obtain ⟨other, hother, hwrong⟩ := ih hrest
      exact ⟨other, List.mem_cons_of_mem _ hother, hwrong⟩

/-- A rule is dropped exactly if its positive body has an atom that is no candidate. -/
theorem codeRule?_eq_some {rule : Rule} {coded : CodedRule} :
    codeRule? candidates rule = some coded ↔
      (∀ a ∈ rule.positiveBody, a ∈ candidates) ∧ codeOf candidates rule = coded := by
  unfold codeRule?
  cases hbody : codeBody? candidates rule.body with
  | none =>
    obtain ⟨lit, hlit, hsign, hno⟩ := codeBody?_eq_none hbody
    refine ⟨nofun, fun h => absurd (h.1 lit.atom ?_) hno⟩
    exact Rule.mem_positiveBody.2 ⟨lit, hlit, hsign, rfl⟩
  | some code =>
    obtain ⟨hknown, hpositive, hnegative⟩ := codeBody?_eq_some hbody
    have hcode : codeOf candidates rule =
        ⟨rule.kind == .choice, codeHead candidates rule.head, code.1, code.2⟩ := by
      rw [hpositive, hnegative]
      rfl
    rw [hcode]
    refine ⟨fun h => ⟨fun a ha => ?_, Option.some.inj h⟩, fun h => congrArg some h.2⟩
    obtain ⟨lit, hlit, hsign, rfl⟩ := Rule.mem_positiveBody.1 ha
    exact hknown lit hlit hsign

/-- A rule that is dropped has a false body. -/
theorem known_of_reductBody {atoms : Set Nat} {part : Nat} {rule : Rule}
    (h : rule.ReductBody atoms (denoted candidates part)) :
    ∀ a ∈ rule.positiveBody, a ∈ candidates := fun a ha =>
  mem_of_mem_denoted ((Rule.reductBody_iff_atoms.1 h).1 a ha)

theorem body_codeOf (distinct : candidates.Nodup) {rule : Rule}
    (known : ∀ a ∈ rule.positiveBody, a ∈ candidates) (code part : Nat) :
    rule.ReductBody (denoted candidates code) (denoted candidates part) ↔
      covers part (codeOf candidates rule).positive = true ∧
        meets (codeOf candidates rule).negative code = false := by
  have hnegative : meets (codeHead candidates rule.negativeBody) code = false ↔
      ∀ a ∈ rule.negativeBody, a ∉ denoted candidates code := by
    rw [← Bool.not_eq_true, meets_codeHead distinct]
    exact ⟨fun h a ha hmem => h ⟨a, ha, hmem⟩, fun h ⟨a, ha, hmem⟩ => h a ha hmem⟩
  exact Rule.reductBody_iff_atoms.trans
    (and_congr (covers_codeHead distinct known).symm hnegative.symm)

/-- A code satisfies a coded rule exactly if its set satisfies the rule. -/
theorem satisfied_codeOf (distinct : candidates.Nodup) {rule : Rule}
    (known : ∀ a ∈ rule.positiveBody, a ∈ candidates) {code : Nat} :
    (codeOf candidates rule).satisfied code = true ↔
      rule.SatisfiedBy (denoted candidates code) := by
  have hbody : (codeOf candidates rule).bodyHolds code = true ↔
      ∀ lit ∈ rule.body, lit.TrueIn (denoted candidates code) := by
    rw [← rule.reductBody_self, body_codeOf distinct known]
    simp [bodyHolds]
  have hhead : meets (codeOf candidates rule).head code = true ↔
      ∃ a ∈ rule.head, a ∈ denoted candidates code := meets_codeHead distinct
  unfold satisfied Rule.SatisfiedBy
  rw [Bool.or_eq_true, Bool.or_eq_true, Bool.not_eq_true', hhead, ← hbody]
  cases hkind : rule.kind <;> cases (codeOf candidates rule).bodyHolds code <;>
    simp [codeOf, hkind]

theorem reducedHead_choice {rule : Rule} (hkind : rule.kind = .choice)
    {code : Nat} : (codeOf candidates rule).reducedHead code =
      codeHead candidates rule.head &&& code := by
  simp [reducedHead, codeOf, hkind]

theorem reducedHead_disjunction {rule : Rule} (hkind : rule.kind = .disjunction) {code : Nat} :
    (codeOf candidates rule).reducedHead code = codeHead candidates rule.head := by
  simp [reducedHead, codeOf, hkind]

/-- What the reduct of a coded rule asks of a part of a code, the loose reduct of the rule asks
of the set of that part. -/
theorem reduct_codeOf (distinct : candidates.Nodup) {rule : Rule}
    (known : ∀ a ∈ rule.positiveBody, a ∈ candidates) {code part : Nat}
    (hpart : covers code part = true) (hsat : rule.SatisfiedBy (denoted candidates code)) :
    (meets (codeOf candidates rule).negative code = false →
      covers part (codeOf candidates rule).positive = true →
      (codeOf candidates rule).reducedHead code ≠ 0 →
        meets ((codeOf candidates rule).reducedHead code) part = true) ↔
      rule.LooselySatisfiedBy (denoted candidates code) (denoted candidates part) := by
  have hbody := body_codeOf distinct known code part
  unfold Rule.LooselySatisfiedBy
  cases hkind : rule.kind with
  | disjunction =>
    rw [reducedHead_disjunction hkind, meets_codeHead distinct]
    constructor
    · intro h hreduct
      -- The body holds in the set, so an atom of the head is in it and the head is not empty.
      have hwhole := hsat hkind (hreduct.mono (denoted_mono hpart))
      have hmeets := (meets_codeHead distinct).2 hwhole
      refine h (hbody.1 hreduct).2 (hbody.1 hreduct).1 fun hzero => ?_
      rw [hzero] at hmeets
      simp [meets] at hmeets
    · exact fun h hnegative hpositive _ => h (hbody.2 ⟨hpositive, hnegative⟩)
  | choice =>
    have hne : codeHead candidates rule.head &&& code ≠ 0 ↔
        ∃ a ∈ rule.head, a ∈ denoted candidates code := by
      rw [← meets_codeHead distinct, meets, bne_iff_ne]
    have hmeets : meets (codeHead candidates rule.head &&& code) part = true ↔
        ∃ a ∈ rule.head, a ∈ denoted candidates part := by
      rw [← meets_codeHead distinct, meets_and_of_covers hpart]
    rw [reducedHead_choice hkind, hne, hmeets]
    exact ⟨fun h hreduct => h (hbody.1 hreduct).2 (hbody.1 hreduct).1,
      fun h hnegative hpositive => h (hbody.2 ⟨hpositive, hnegative⟩)⟩

end

/-! ## Programs and their codes -/

/-- The rules of a program, with a choice for every free atom. -/
def expanded (program : Program) : List Rule := program.rules ++ program.free.map Rule.choice

theorem coded_eq {program : Program} {candidates : List Nat}
    (known : ∀ a ∈ program.free, a ∈ candidates) :
    program.coded candidates = program.expanded.filterMap (codeRule? candidates) := by
  unfold coded expanded
  rw [List.filterMap_append, List.filterMap_map]
  congr 1
  refine List.filterMap_congr fun a ha => ?_
  cases hbit : bit? candidates a with
  | none => exact absurd (known a ha) (bit?_eq_none.1 hbit)
  | some bit =>
    refine (codeRule?_eq_some.2 ⟨fun _ hb => absurd hb List.not_mem_nil, ?_⟩).symm
    simp [codeOf, codeHead, Rule.choice, Rule.choices, Rule.positiveBody, Rule.negativeBody, hbit]

theorem forall_coded_iff {program : Program} {test : CodedRule → Prop} :
    (∀ coded ∈ program.coded program.candidates, test coded) ↔
      ∀ rule ∈ program.expanded, (∀ a ∈ rule.positiveBody, a ∈ program.candidates) →
        test (codeOf program.candidates rule) := by
  rw [coded_eq fun a ha => mem_candidates.2 (.inl ha)]
  constructor
  · intro h rule hrule known
    exact h _ (List.mem_filterMap.2 ⟨rule, hrule, codeRule?_eq_some.2 ⟨known, rfl⟩⟩)
  · intro h coded hcoded
    obtain ⟨rule, hrule, hcode⟩ := List.mem_filterMap.1 hcoded
    obtain ⟨known, rfl⟩ := codeRule?_eq_some.1 hcode
    exact h rule hrule known

/-- A stable model in terms of the expanded program. -/
theorem stableModel_iff_expanded {program : Program} {atoms : Set Nat} :
    StableModel program atoms ↔ (∀ rule ∈ program.expanded, rule.SatisfiedBy atoms) ∧
      ∀ part ⊆ atoms, (∀ rule ∈ program.expanded, rule.ReductSatisfiedBy atoms part) →
        part = atoms := by
  have hfree : ∀ part : Set Nat, (∀ rule ∈ program.free.map Rule.choice,
      rule.ReductSatisfiedBy atoms part) ↔ ∀ a ∈ program.free, a ∈ atoms → a ∈ part := by
    intro part
    simp [Rule.ReductSatisfiedBy, Rule.ReductBody, Rule.choice, Rule.choices]
  have hsat : ∀ rule ∈ program.free.map Rule.choice, rule.SatisfiedBy atoms := by
    simp [Rule.SatisfiedBy, Rule.choice, Rule.choices]
  unfold expanded
  constructor
  · intro stable
    refine ⟨List.forall_mem_append.2 ⟨stable.satisfied, hsat⟩, fun part hpart hreduct => ?_⟩
    obtain ⟨hrules, hchoices⟩ := List.forall_mem_append.1 hreduct
    exact stable.minimal part hpart hrules ((hfree part).1 hchoices)
  · rintro ⟨hrules, hminimal⟩
    refine ⟨(List.forall_mem_append.1 hrules).1, fun part hpart hreduct hkept => ?_⟩
    exact hminimal part hpart (List.forall_mem_append.2 ⟨hreduct, (hfree part).2 hkept⟩)

/-- Every choice has one atom at most. -/
def SingleChoices (program : Program) : Prop :=
  ∀ rule ∈ program.rules, rule.kind = .choice → ∀ a ∈ rule.head, ∀ b ∈ rule.head, a = b

theorem SingleChoices.expanded {program : Program} (single : program.SingleChoices) :
    ∀ rule ∈ program.expanded, rule.kind = .choice → ∀ a ∈ rule.head, ∀ b ∈ rule.head, a = b := by
  refine List.forall_mem_append.2 ⟨single, ?_⟩
  simp [Rule.choice, Rule.choices]

/-- Whether a set passes the test of the search: it satisfies all rules, and no smaller set
satisfies their loose reduct. -/
def Accepts (program : Program) (atoms : Set Nat) : Prop :=
  (∀ rule ∈ program.expanded, rule.SatisfiedBy atoms) ∧
    ∀ part ⊆ atoms, (∀ rule ∈ program.expanded, rule.LooselySatisfiedBy atoms part) → part = atoms

theorem accepts_iff_stableModel {program : Program} (single : program.SingleChoices)
    {atoms : Set Nat} : program.Accepts atoms ↔ StableModel program atoms := by
  rw [stableModel_iff_expanded]
  refine and_congr_right fun _ => forall₂_congr fun part _ => imp_congr_left ?_
  exact forall₂_congr fun rule hrule => Rule.looselySatisfiedBy_iff (single.expanded rule hrule)

/-- A code passes the test exactly if its set is accepted. -/
theorem isStable_coded_iff_accepts {program : Program} {code : Nat}
    (hlt : code < 1 <<< program.candidates.length) :
    isStable (program.coded program.candidates) code = true ↔
      program.Accepts (denoted program.candidates code) := by
  have distinct := nodup_candidates program
  have hsat : (∀ coded ∈ program.coded program.candidates, coded.satisfied code = true) ↔
      ∀ rule ∈ program.expanded, rule.SatisfiedBy (denoted program.candidates code) := by
    rw [forall_coded_iff]
    refine forall₂_congr fun rule hrule => ?_
    constructor
    · intro h hkind hbody
      have known := known_of_reductBody ((rule.reductBody_self _).2 hbody)
      exact (satisfied_codeOf distinct known).1 (h known) hkind hbody
    · exact fun h known => (satisfied_codeOf distinct known).2 h
  rw [isStable_iff, Accepts, hsat]
  refine and_congr_right fun hmodel => ?_
  have hreduct : ∀ part, covers code part = true →
      (satisfiesReduct ((program.coded program.candidates).filterMap (reduced? code)) part = true ↔
        ∀ rule ∈ program.expanded, rule.LooselySatisfiedBy (denoted program.candidates code)
          (denoted program.candidates part)) := by
    intro part hpart
    rw [satisfiesReduct_iff, forall_coded_iff]
    refine forall₂_congr fun rule hrule => ?_
    have hone := fun known => reduct_codeOf distinct known hpart (hmodel rule hrule)
    constructor
    · intro h hbody
      have known := known_of_reductBody hbody
      exact (hone known).1 (h known) hbody
    · exact fun h known => (hone known).2 h
  constructor
  · intro h atoms hsub hsatisfied
    obtain ⟨part, hpartLt, rfl⟩ := exists_code distinct fun a ha => mem_of_mem_denoted (hsub ha)
    have hpart := covers_of_denoted_subset distinct hpartLt hsub
    rw [h part hpart ((hreduct part hpart).2 hsatisfied)]
  · intro h part hpart hsatisfied
    have heq := h _ (denoted_mono hpart) ((hreduct part hpart).1 hsatisfied)
    exact eq_of_covers (covers_of_denoted_subset distinct hlt heq.ge) hpart

/-- If every choice has one atom at most, a code passes the test exactly if its set is a stable
model. -/
theorem isStable_coded_iff {program : Program} (single : program.SingleChoices) {code : Nat}
    (hlt : code < 1 <<< program.candidates.length) :
    isStable (program.coded program.candidates) code = true ↔
      StableModel program (denoted program.candidates code) :=
  (isStable_coded_iff_accepts hlt).trans (accepts_iff_stableModel single)

end Program

/-! ## The list of models -/

namespace Model

/-- The atoms that are true, as a set. -/
def toSet (model : Model) : Set Nat := {a | a ∈ model.atoms}

theorem holds_iff {model : Model} {lit : Lit} :
    model.holds lit = true ↔ lit.TrueIn model.toSet := by
  unfold holds contains Lit.TrueIn toSet
  cases lit.negated <;> simp

end Model

namespace Program

open CodedRule

theorem toSet_decode (candidates : List Nat) (code : Nat) :
    (Model.mk (decode candidates code)).toSet = denoted candidates code :=
  Set.ext fun _ => mem_decode

/-- The codes of the stable models, increasing. -/
def stableCodes (program : Program) : List Nat :=
  (List.range (1 <<< program.candidates.length)).filter
    (isStable (program.coded program.candidates))

theorem lt_of_mem_stableCodes {program : Program} {code : Nat} (h : code ∈ program.stableCodes) :
    code < 1 <<< program.candidates.length :=
  List.mem_range.1 (List.mem_filter.1 h).1

theorem mem_stableCodes {program : Program} (single : program.SingleChoices) {code : Nat}
    (hlt : code < 1 <<< program.candidates.length) :
    code ∈ program.stableCodes ↔ StableModel program (denoted program.candidates code) := by
  unfold stableCodes
  rw [List.mem_filter, List.mem_range, isStable_coded_iff single hlt]
  exact and_iff_right hlt

theorem modelsAssuming_eq {program : Program} (few : program.candidates.length ≤ 24)
    (assumptions : List Lit) : program.modelsAssuming assumptions =
      .ok ((program.stableCodes.map fun code => ⟨decode program.candidates code⟩).filter
        fun model => assumptions.all model.holds) := by
  unfold modelsAssuming
  dsimp only
  rw [if_neg (by rw [maxCandidates]; omega), searchBelow_eq, List.append_nil]
  rfl

theorem pairwise_codeHead (program : Program) (assumptions : List Lit) :
    ((program.stableCodes.map fun code => Model.mk (decode program.candidates code)).filter
      fun model => assumptions.all model.holds).Pairwise fun model later =>
        codeHead program.candidates model.atoms < codeHead program.candidates later.atoms := by
  have distinct := nodup_candidates program
  have hcodes : program.stableCodes.Pairwise (· < ·) := List.pairwise_lt_range.filter _
  refine List.Pairwise.filter _ (List.pairwise_map.2 (hcodes.imp_of_mem fun hcode hlater hlt => ?_))
  rw [codeHead_decode distinct (lt_of_mem_stableCodes hcode),
    codeHead_decode distinct (lt_of_mem_stableCodes hlater)]
  exact hlt

/-- **The search is exact.**  If every choice has one atom at most and there are at most 24
candidates, the search returns a list in increasing order of the codes over the increasing
list of candidates, and the sets in it, each of them once, are the stable models in which
all assumptions are true. -/
theorem modelsAssuming_eq_stableModels (program : Program) (single : program.SingleChoices)
    (few : program.candidates.length ≤ 24) (assumptions : List Lit) :
    ∃ models, program.modelsAssuming assumptions = .ok models ∧
      (models.map Model.toSet).Nodup ∧
      program.candidates.Pairwise (· < ·) ∧
      (models.Pairwise fun model later =>
        codeHead program.candidates model.atoms < codeHead program.candidates later.atoms) ∧
      ∀ atoms : Set Nat, atoms ∈ models.map Model.toSet ↔
        StableModel program atoms ∧ ∀ lit ∈ assumptions, lit.TrueIn atoms := by
  have distinct := nodup_candidates program
  have hincreasing := pairwise_codeHead program assumptions
  refine ⟨_, modelsAssuming_eq few assumptions, ?_, pairwise_candidates program, hincreasing, ?_⟩
  · refine List.pairwise_map.2 (hincreasing.imp ?_)
    intro model later hlt heq
    exact Nat.ne_of_lt hlt (codeHead_congr distinct fun a => Set.ext_iff.1 heq a)
  · intro atoms
    simp only [List.mem_map, List.mem_filter, List.all_eq_true, Model.holds_iff]
    constructor
    · rintro ⟨model, ⟨⟨code, hcode, rfl⟩, hassumed⟩, rfl⟩
      refine ⟨?_, hassumed⟩
      rw [toSet_decode]
      exact (mem_stableCodes single (lt_of_mem_stableCodes hcode)).1 hcode
    · rintro ⟨stable, hassumed⟩
      obtain ⟨code, hlt, rfl⟩ := exists_code distinct fun a ha =>
        mem_candidates.2 (stable.subset_candidates a ha)
      refine ⟨_, ⟨⟨code, (mem_stableCodes single hlt).2 stable, rfl⟩, ?_⟩, toSet_decode _ _⟩
      rw [toSet_decode]
      exact hassumed

/-- A disjunction with one atom excluded, a choice that follows the other, and a free atom
that is assumed to be false. -/
theorem modelsAssuming_eq_stableModels_disjunctive :
    let program : Program := ⟨[.disjunctive [1, 2] [], .choices [3] [⟨1, false⟩],
      .constraint [⟨2, false⟩]], [4]⟩
    program.SingleChoices ∧ program.candidates.length ≤ 24 ∧
      {atoms | StableModel program atoms ∧ ∀ lit ∈ [Lit.mk 4 true], lit.TrueIn atoms} =
        {{a | a ∈ [1]}, {a | a ∈ [1, 3]}} := by
  intro program
  have single : program.SingleChoices := by
    simp [program, SingleChoices, Rule.disjunctive, Rule.choices, Rule.constraint]
  have few : program.candidates.length ≤ 24 := by decide
  obtain ⟨models, hmodels, -, -, -, hmem⟩ :=
    modelsAssuming_eq_stableModels program single few [⟨4, true⟩]
  have hfound : program.modelsAssuming [⟨4, true⟩] = .ok [⟨[1]⟩, ⟨[1, 3]⟩] := by
    decide +kernel
  obtain rfl := Except.ok.inj (hfound.symm.trans hmodels)
  refine ⟨single, few, Set.ext fun atoms => (hmem atoms).symm.trans ?_⟩
  simp [Model.toSet]

end Program
end TemporalHorizon

import TemporalHorizon.Proofs.Session
import TemporalHorizon.StableModel.Semantics

/-!
# Stable models of emitted rules

What a stable model makes of the rules of a sound ledger, whatever other rules for
ground atoms stand beside them.

* No rule derives atom 1, so it is false and the constants mean what they say.
  Hence a rule and its simplified form say the same, and a posted rule can be read
  as if it had not been simplified.
* An atom that is true is free, or the head of a rule with a true body
  (`StableModel.supported`).  The role of the atom tells which rules these can be:
  `Derives` lists them.
-/

namespace TemporalHorizon

attribute [local instance] Arithmetic.exact

/-! ## Literals and rules in a set of atoms -/

section Reading

variable {atoms part : Set Nat} {raw rule : Rule}

/-- Whether a literal holds in a part of a set, with negated literals read in the
whole set. -/
def Lit.KeptIn (atoms part : Set Nat) (l : Lit) : Prop :=
  if l.negated then l.atom ∉ atoms else l.atom ∈ part

theorem Rule.reductBody_iff : rule.ReductBody atoms part ↔ ∀ l ∈ rule.body, l.KeptIn atoms part :=
  Iff.rfl

theorem Lit.KeptIn.trueIn (hpart : part ⊆ atoms) {l : Lit} (h : l.KeptIn atoms part) :
    l.TrueIn atoms := by
  unfold KeptIn at h
  unfold TrueIn
  split
  · next hneg =>
    rw [if_pos hneg] at h
    exact h
  · next hpos =>
    rw [if_neg hpos] at h
    exact hpart h

theorem Lit.TrueIn.keptIn {l : Lit} (h : l.TrueIn atoms) (hkept : l.atom ∈ atoms → l.atom ∈ part) :
    l.KeptIn atoms part := by
  unfold TrueIn at h
  unfold KeptIn
  split
  · next hneg =>
    rw [if_pos hneg] at h
    exact h
  · next hpos =>
    rw [if_neg hpos] at h
    exact hkept h

@[simp] theorem Lit.trueIn_positive (atoms : Set Nat) (a : Nat) :
    Lit.TrueIn atoms ⟨a, false⟩ ↔ a ∈ atoms := Iff.rfl

theorem Lit.trueIn_of_positive {l : Lit} (h : l.negated = false) :
    l.TrueIn atoms ↔ l.atom ∈ atoms := by
  rw [TrueIn, h]
  exact Iff.rfl

@[simp] theorem Lit.trueIn_neg (atoms : Set Nat) (l : Lit) :
    (-l).TrueIn atoms ↔ ¬ l.TrueIn atoms := by
  obtain ⟨a, negated⟩ := l
  cases negated with
  | false => exact Iff.rfl
  | true => exact not_not.symm

theorem Lit.trueIn_constant (h : 1 ∉ atoms) (value : Bool) :
    (Lit.constant value).TrueIn atoms ↔ value = true := by
  cases value with
  | true => exact ⟨fun _ => rfl, fun _ => h⟩
  | false => exact ⟨fun hone => absurd hone h, nofun⟩

theorem Rule.satisfiedBy_constraint (body : List Lit) :
    (Rule.constraint body).SatisfiedBy atoms ↔ ¬ ∀ l ∈ body, l.TrueIn atoms := by
  constructor
  · intro h hbody
    obtain ⟨a, ha, -⟩ := h rfl hbody
    cases ha
  · intro h _ hbody
    exact absurd hbody h

theorem Rule.satisfiedBy_normal (a : Nat) (body : List Lit) :
    (Rule.normal a body).SatisfiedBy atoms ↔ ((∀ l ∈ body, l.TrueIn atoms) → a ∈ atoms) := by
  constructor
  · intro h hbody
    obtain ⟨b, hb, hmem⟩ := h rfl hbody
    cases List.mem_singleton.1 hb
    exact hmem
  · intro h _ hbody
    exact ⟨a, List.mem_singleton.2 rfl, h hbody⟩

/-! ## Simplified rules -/

theorem Encoder.simplify?_eq_some (h : Encoder.simplify? raw = some rule) :
    rule.kind = raw.kind ∧ rule.head = raw.head ∧
      rule.body = raw.body.filter fun l => l ≠ Lit.truth := by
  unfold simplify? at h
  split at h
  · cases h
  · cases h
    exact ⟨rfl, rfl, rfl⟩

/-- Without the constants a body holds where it did before. -/
theorem Encoder.reductBody_simplify (h : Encoder.simplify? raw = some rule) (hone : 1 ∉ atoms) :
    rule.ReductBody atoms part ↔ raw.ReductBody atoms part := by
  obtain ⟨-, -, hbody⟩ := simplify?_eq_some h
  rw [Rule.reductBody_iff, Rule.reductBody_iff, hbody]
  constructor
  · intro hall l hl
    by_cases htruth : l = Lit.truth
    · subst htruth
      exact hone
    · exact hall l (List.mem_filter.2 ⟨hl, by simpa using htruth⟩)
  · intro hall l hl
    exact hall l (List.mem_filter.1 hl).1

theorem Encoder.reductSatisfiedBy_simplify (h : Encoder.simplify? raw = some rule)
    (hone : 1 ∉ atoms) :
    rule.ReductSatisfiedBy atoms part ↔ raw.ReductSatisfiedBy atoms part := by
  obtain ⟨hkind, hhead, -⟩ := simplify?_eq_some h
  unfold Rule.ReductSatisfiedBy
  rw [reductBody_simplify h hone, hkind, hhead]

theorem Encoder.satisfiedBy_simplify (h : Encoder.simplify? raw = some rule) (hone : 1 ∉ atoms) :
    rule.SatisfiedBy atoms ↔ raw.SatisfiedBy atoms := by
  rw [← Rule.reductSatisfiedBy_self, ← Rule.reductSatisfiedBy_self,
    reductSatisfiedBy_simplify h hone]

/-- The reduct of a posted rule is satisfied if those of all rules in the ledger
are. -/
theorem Ledger.Posted.reductSatisfiedBy {ledger : Ledger} (h : ledger.Posted raw)
    (hone : 1 ∉ atoms) (hpart : part ⊆ atoms)
    (hrules : ∀ rule ∈ ledger.rules, rule.ReductSatisfiedBy atoms part) :
    raw.ReductSatisfiedBy atoms part := by
  cases hs : Encoder.simplify? raw with
  | some simple =>
    exact (Encoder.reductSatisfiedBy_simplify hs hone).1 (hrules simple (h simple hs))
  | none =>
    -- The body has the constant false in it.
    intro hbody
    unfold Encoder.simplify? at hs
    split at hs
    · next hfalse => exact absurd (hpart (hbody Lit.falsity hfalse)) hone
    · cases hs

theorem Ledger.Posted.satisfiedBy {ledger : Ledger} (h : ledger.Posted raw) (hone : 1 ∉ atoms)
    (hrules : ∀ rule ∈ ledger.rules, rule.SatisfiedBy atoms) : raw.SatisfiedBy atoms := by
  refine (raw.reductSatisfiedBy_self atoms).1 (h.reductSatisfiedBy hone (fun _ ha => ha) ?_)
  exact fun rule hr => (rule.reductSatisfiedBy_self atoms).2 (hrules rule hr)

/-- The head of a posted rule follows from its one literal. -/
theorem Ledger.Posted.mem_part {ledger : Ledger} {a : Nat} {l : Lit}
    (h : ledger.Posted (.normal a [l])) (hone : 1 ∉ atoms) (hpart : part ⊆ atoms)
    (hrules : ∀ rule ∈ ledger.rules, rule.ReductSatisfiedBy atoms part)
    (hl : l.KeptIn atoms part) : a ∈ part := by
  have hbody : (Rule.normal a [l]).ReductBody atoms part := by
    intro l' hl'
    cases List.mem_singleton.1 hl'
    exact hl
  obtain ⟨b, hb, hmem⟩ := h.reductSatisfiedBy hone hpart hrules hbody
  cases List.mem_singleton.1 hb
  exact hmem

theorem Ledger.Posted.mem_of_trueIn {ledger : Ledger} {a : Nat} {l : Lit}
    (h : ledger.Posted (.normal a [l])) (hone : 1 ∉ atoms)
    (hrules : ∀ rule ∈ ledger.rules, rule.SatisfiedBy atoms) (hl : l.TrueIn atoms) : a ∈ atoms :=
  h.mem_part hone (fun _ ha => ha)
    (fun rule hr => (rule.reductSatisfiedBy_self atoms).2 (hrules rule hr)) hl

end Reading

/-! ## Support -/

/-- An atom of a stable model is free, or the head of a rule with a true body. -/
theorem StableModel.supported {program : Program} {atoms : Set Nat}
    (stable : StableModel program atoms) {a : Nat} (ha : a ∈ atoms) :
    a ∈ program.free ∨
      ∃ rule ∈ program.rules, a ∈ rule.head ∧ ∀ l ∈ rule.body, l.TrueIn atoms := by
  by_contra hn
  obtain ⟨hfree, hrules⟩ := not_or.1 hn
  have hpart : atoms \ {a} ⊆ atoms := fun b hb => hb.1
  -- Without the atom the reduct is still satisfied: a rule that needs it has a false body.
  have smaller : ∀ rule ∈ program.rules, rule.ReductSatisfiedBy atoms (atoms \ {a}) := by
    intro rule hrule hbody
    have htrue : ∀ l ∈ rule.body, l.TrueIn atoms := fun l hl =>
      Lit.KeptIn.trueIn hpart (hbody l hl)
    have hother : ∀ b ∈ rule.head, b ∈ atoms → b ∈ atoms \ {a} := fun b hb hba =>
      ⟨hba, fun e => hrules ⟨rule, hrule, e ▸ hb, htrue⟩⟩
    have hself := (rule.reductSatisfiedBy_self atoms).2 (stable.satisfied rule hrule) htrue
    cases hk : rule.kind with
    | disjunction =>
      simp only [hk] at hself ⊢
      obtain ⟨b, hb, hba⟩ := hself
      exact ⟨b, hb, hother b hb hba⟩
    | choice => simpa only [hk] using hother
  have heq := stable.minimal (atoms \ {a}) hpart smaller
    fun b hb hba => ⟨hba, fun e => hfree (e ▸ hb)⟩
  have hmem : a ∈ atoms \ {a} := heq.symm ▸ ha
  exact hmem.2 rfl

/-! ## Which rules derive an atom -/

theorem Rule.head_of_mem_equal {x y : Lit} {rule : Rule} (h : rule ∈ Rule.equal x y) :
    rule.head = [] := by
  simp only [Rule.equal, List.mem_cons, List.not_mem_nil, or_false] at h
  rcases h with rfl | rfl <;> rfl

/-- Definitions are made of constraints. -/
theorem Sheet.Definition.head_eq_nil {lit : Sheet} {f : Formula} {s : Nat} {x : Lit}
    {rules : List Rule} (h : Definition lit f s x rules) {rule : Rule} (hr : rule ∈ rules) :
    rule.head = [] := by
  cases h with
  | @binary op _ _ _ _ _ _ _ _ =>
    cases op <;>
      simp only [Encoder.connectiveRules, Rule.disjunctionOf, List.mem_cons, List.not_mem_nil,
        or_false] at hr <;>
      rcases hr with rfl | rfl | rfl | rfl <;> rfl
  | fixpoint _ _ _ _ =>
    unfold Encoder.fixpointRules at hr
    split at hr <;>
      simp only [List.mem_cons, List.not_mem_nil, or_false] at hr <;>
      rcases hr with rfl | rfl | rfl | rfl <;> rfl

/-- The head that disjuncts are sorted into has the atoms of ground atoms. -/
theorem Sheet.Sorted.mem_head {lit : Sheet} {s : Nat} {fs : List Formula} {head : List Nat}
    {body : List Lit} (h : lit.Sorted s fs head body) {a : Nat} (ha : a ∈ head) :
    ∃ f l, f ∈ fs ∧ f.isAtom = true ∧ lit f s = some l ∧ l.atom = a := by
  induction h with
  | nil => cases ha
  | @atom f _ l _ _ hf hl _ ih =>
    rcases List.mem_cons.1 ha with rfl | ha
    · exact ⟨f, l, List.mem_cons_self, hf, hl, rfl⟩
    · obtain ⟨g, l', hg, hrest⟩ := ih ha
      exact ⟨g, l', List.mem_cons_of_mem _ hg, hrest⟩
  | falsity _ ih =>
    obtain ⟨g, l', hg, hrest⟩ := ih ha
    exact ⟨g, l', List.mem_cons_of_mem _ hg, hrest⟩
  | other _ _ _ _ ih =>
    obtain ⟨g, l', hg, hrest⟩ := ih ha
    exact ⟨g, l', List.mem_cons_of_mem _ hg, hrest⟩

/-- The external atoms that are free after a batch. -/
def Batch.waiting (batch : Batch) : List Nat := batch.externals.map fun e => e.lit.atom

/-- The external atoms that are free now. -/
def Session.waiting (session : Session) : List Nat :=
  session.unrolling.encoder.edge.externals.map fun e => e.lit.atom

namespace Ledger

/-- Whether an atom stands for a ground atom at a step. -/
def IsGround (ledger : Ledger) (a : Nat) : Prop := ∃ f s, ledger.ground f s = some ⟨a, false⟩

/-- The rules that can derive an atom.  Ground atoms may also be derived by rules
that do not belong to the ledger. -/
inductive Derives (role : Nat → Role) (edge : Instant) (ledger : Ledger) (a : Nat) : Rule → Prop
  | ground {f s rule} : role a = .ground f s → Derives role edge ledger a rule
  | chosen {f s} : role a = .chosen f s → Derives role edge ledger a (.choice a)
  | tie {arg weak s y} : role a = .awaited arg weak s → s + 1 ≤ edge.index →
    ledger.lit arg (s + 1) = some y → Derives role edge ledger a (.normal a [y])
  | ending {arg} : role a = .awaited arg true edge.index → edge.last = true →
    Derives role edge ledger a (.fact a)
  | carried {f o t c} : role a = .carrier f o (t + 1) → o ≤ t →
    ⟨f, o, t, c⟩ ∈ ledger.carriers → Derives role edge ledger a (.normal a [c])
  | settled {f op lhs rhs o t w} : f.Unrolls op lhs rhs → role a = .carrier f o t → o ≤ t →
    ledger.lit (witnessOf op lhs rhs) t = some w → Derives role edge ledger a (.normal a [w])

theorem Derives.isSettled {role : Nat → Role} {edge : Instant} {ledger : Ledger} {a : Nat}
    {rule : Rule} (h : Derives role edge ledger a rule) : (role a).isSettled = true := by
  cases h with
  | ground ha | chosen ha | tie ha _ _ | ending ha _ | carried ha _ _ | settled _ ha _ _ =>
    rw [ha]
    rfl

theorem Derives.role_ne_idle {role : Nat → Role} {edge : Instant} {ledger : Ledger} {a : Nat}
    {rule : Rule} (h : Derives role edge ledger a rule) : role a ≠ .idle := by
  intro hidle
  have hsettled := h.isSettled
  rw [hidle] at hsettled
  cases hsettled

namespace Sound

variable {role : Nat → Role} {due : List Boundary} {edge : Instant} {ledger : Ledger}

theorem isGround_role (h : Sound role due edge ledger) {a : Nat} (ha : ledger.IsGround a) :
    ∃ f s, role a = .ground f s := by
  obtain ⟨f, s, hl⟩ := ha
  exact ⟨f, s, (h.ground f s _ hl).2.2⟩

/-- A rule of a sound ledger derives only atoms in the right roles. -/
theorem derives (h : Sound role due edge ledger) {raw : Rule}
    (hm : Emitted role edge ledger raw) {a : Nat} (ha : a ∈ raw.head) :
    Derives role edge ledger a raw := by
  cases hm with
  | choose hrole =>
    cases List.mem_singleton.1 ha
    exact .chosen hrole
  | equal _ _ hmem =>
    rw [Rule.head_of_mem_equal hmem] at ha
    cases ha
  | definition _ hd hmem =>
    rw [hd.head_eq_nil hmem] at ha
    cases ha
  | opposite _ _ => cases ha
  | tie hrole hs hy =>
    cases List.mem_singleton.1 ha
    exact .tie hrole hs hy
  | ending hrole hlast =>
    cases List.mem_singleton.1 ha
    exact .ending hrole hlast
  | carried hrole ho hc =>
    cases List.mem_singleton.1 ha
    exact .carried hrole ho hc
  | settled hf hrole ho hw =>
    cases List.mem_singleton.1 ha
    exact .settled hf hrole ho hw
  | duty _ hd =>
    cases hd with
    | atom _ hl =>
      cases List.mem_singleton.1 ha
      exact .ground (h.ground _ _ _ hl).2.2
    | or hs =>
      obtain ⟨f, l, -, hf, hl, rfl⟩ := hs.mem_head ha
      rw [Ledger.lit, if_pos hf] at hl
      exact .ground (h.ground f _ l hl).2.2
    | falsity | not _ | stepAfter _ | noStep _ | excluded _ _ => cases ha

variable {others : List Rule} {free : List Nat} {atoms : Set Nat}

/-- The reserved atom is false. -/
theorem one_notMem (h : Sound role due edge ledger)
    (hothers : ∀ rule ∈ others, ∀ a ∈ rule.head, ledger.IsGround a)
    (stable : StableModel ⟨ledger.rules ++ others, free⟩ atoms)
    (hfree : ∀ a ∈ free, role a ≠ .idle) : 1 ∉ atoms := by
  intro hone
  have hidle := h.idle 1 (.inl (Nat.le_refl _))
  rcases stable.supported hone with hmem | ⟨rule, hrule, ha, -⟩
  · exact hfree 1 hmem hidle
  · rcases List.mem_append.1 hrule with hrule | hrule
    · obtain ⟨raw, hsimple, hm⟩ := h.rules rule hrule
      rw [(Encoder.simplify?_eq_some hsimple).2.1] at ha
      exact (h.derives hm ha).role_ne_idle hidle
    · obtain ⟨f, s, hrole⟩ := h.isGround_role (hothers rule hrule 1 ha)
      rw [hidle] at hrole
      cases hrole

/-- An atom that is true and not free is derived by a rule with a true body. -/
theorem derived (h : Sound role due edge ledger)
    (hothers : ∀ rule ∈ others, ∀ a ∈ rule.head, ledger.IsGround a)
    (stable : StableModel ⟨ledger.rules ++ others, free⟩ atoms)
    (hfree : ∀ a ∈ free, role a ≠ .idle) {a : Nat} (ha : a ∈ atoms) (hbound : a ∉ free) :
    ∃ raw, Derives role edge ledger a raw ∧ ∀ l ∈ raw.body, l.TrueIn atoms := by
  have hone := h.one_notMem hothers stable hfree
  obtain ⟨rule, hrule, hhead, hbody⟩ := (stable.supported ha).resolve_left hbound
  rcases List.mem_append.1 hrule with hrule | hrule
  · obtain ⟨raw, hsimple, hm⟩ := h.rules rule hrule
    rw [(Encoder.simplify?_eq_some hsimple).2.1] at hhead
    exact ⟨raw, h.derives hm hhead, (Encoder.reductBody_simplify hsimple hone).1 hbody⟩
  · obtain ⟨f, s, hrole⟩ := h.isGround_role (hothers rule hrule a hhead)
    exact ⟨rule, .ground hrole, hbody⟩

end Sound
end Ledger
end TemporalHorizon

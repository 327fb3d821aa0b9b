import TemporalHorizon.Proofs.References

/-!
# Stable models of two programs for the same formulas

Two ledgers on the same closed horizon have taken on the same formulas, perhaps one of
them step by step and the other afterwards.  Their rules differ, because a literal that
was asked for early waits where a late one is shared.  This module carries a stable model
from one to the other.

Let a set be stable for the rules of the first ledger.  Its trace gives every atom of the
other ledger a value.  The set of these atoms satisfies the rules there, and what is left
to show is that no smaller part satisfies their reduct.  From such a part a part of the
stable model is `Rebuilt`: it has the ground atoms that the part has, the atoms that are
chosen, and what follows from these.

* `Comparison.keptIn`: a literal that the rebuilt part keeps is kept by the given part.
* `Comparison.owes_of_warranted`: so is a guard, and hence whatever is required under it.
* `Comparison.rebuilt_reduct`: so the rebuilt part satisfies the reduct.  It is the whole
  stable model, and the given part has all its ground atoms.

The first statement needs that no literal of the first ledger waits, or that only firm
literals stand in the bodies of rules for atoms; that is what `Formula.isSteady` asks for.
It goes along the steps at which the parts of a formula are required, and asks nothing of a
rule without a head.
-/

namespace TemporalHorizon

attribute [local instance] Arithmetic.exact

/-! ## Steady formulas -/

namespace Formula

/-- The steps from one step to the last one. -/
def stepsFrom (horizon s : Nat) : List Nat := List.range' s (horizon + 1 - s)

theorem mem_stepsFrom {horizon s t : Nat} : t ∈ stepsFrom horizon s ↔ s ≤ t ∧ t ≤ horizon := by
  rw [stepsFrom, List.mem_range'_1]
  omega

/-- Whether a requirement of the formula at a step may derive atoms. -/
def derives (horizon : Nat) : Formula → Nat → Bool
  | .atom _ _ _, _ => true
  | .binary .and lhs rhs, s => lhs.derives horizon s || rhs.derives horizon s
  | .binary .or lhs rhs, _ => (lhs.disjuncts ++ rhs.disjuncts).any isAtom
  | .binary .implies _ rhs, s => rhs.derives horizon s
  | .binary .implied lhs _, s => lhs.derives horizon s
  | .next arg _, s => decide (s < horizon) && arg.derives horizon (s + 1)
  | .modal .untl arg, s | .modal .release arg, s => (stepsFrom horizon s).any (arg.derives horizon)
  | .temporal .untl lhs rhs, s => (lhs.disjuncts ++ rhs.disjuncts).any isAtom ||
    (stepsFrom horizon s).any (rhs.derives horizon)
  | .temporal .release _ rhs, s => (stepsFrom horizon s).any (rhs.derives horizon)
  | _, _ => false

/-- Whether the rule of a disjunction at a step, if there is one and it derives atoms, has only
firm literals in its body. -/
def isSteadyRule (horizon : Nat) (disjuncts : List Formula) (s : Nat) : Bool :=
  decide (.bool true ∈ disjuncts) || !disjuncts.any isAtom ||
    disjuncts.all fun f => f.isFirm horizon false s

/-- Whether all literals are firm that a requirement of the formula at a step puts into the
bodies of rules for atoms, up to the last step. -/
def isSteady (horizon : Nat) : Formula → Nat → Bool
  | .binary .and lhs rhs, s => lhs.isSteady horizon s && rhs.isSteady horizon s
  | .binary .or lhs rhs, s => isSteadyRule horizon (lhs.disjuncts ++ rhs.disjuncts) s
  | .binary .implies lhs rhs, s =>
    (!rhs.derives horizon s || lhs.isFirm horizon true s) && rhs.isSteady horizon s
  | .binary .implied lhs rhs, s =>
    (!lhs.derives horizon s || rhs.isFirm horizon true s) && lhs.isSteady horizon s
  | .next arg _, s => decide (horizon ≤ s) || arg.isSteady horizon (s + 1)
  | .modal .untl arg, s | .modal .release arg, s =>
    (stepsFrom horizon s).all (arg.isSteady horizon)
  | .temporal .untl lhs rhs, s => (stepsFrom horizon s).all fun t =>
    isSteadyRule horizon (lhs.disjuncts ++ rhs.disjuncts) t && rhs.isSteady horizon t
  | .temporal .release _ rhs, s => (stepsFrom horizon s).all (rhs.isSteady horizon)
  | _, _ => true

end Formula

namespace Ledger.Child

variable {edge : Instant} {ledger : Ledger} {f g : Formula} {s t : Nat} {guard guard' : List Lit}

/-- What is passed on is for a reached step. -/
theorem reached (hc : Child edge ledger f s guard g t guard')
    (hs : s ≤ edge.index) : t ≤ edge.index := by
  cases hc with
  | andLeft | andRight | implies _ | implied _ | alwaysNow | alwaysNext => exact hs
  | next ha =>
    obtain ⟨hlt, rfl⟩ := Instant.eq_of_after_reached ha
    exact hlt
  | operands _ _ ht _ | settle _ _ ht _ _ | hold _ _ ht _ => exact ht

/-- A steady formula passes on steady formulas. -/
theorem isSteady (hc : Child edge ledger f s guard g t guard')
    (hs : s ≤ edge.index)
    (hf : f.isSteady edge.index s = true) : g.isSteady edge.index t = true := by
  -- What is unrolled is steady at all steps from the one of the requirement on.
  have hunrolled : ∀ {steady : Nat → Bool}, (Formula.stepsFrom edge.index s).all steady = true →
      ∀ {k}, s ≤ k → k ≤ edge.index → steady k = true := fun hall _ hle hk =>
    List.all_eq_true.1 hall _ (Formula.mem_stepsFrom.2 ⟨hle, hk⟩)
  cases hc with
  | andLeft => exact (Bool.and_eq_true_iff.1 hf).1
  | andRight | implies _ | implied _ => exact (Bool.and_eq_true_iff.1 hf).2
  | next ha =>
    obtain ⟨hlt, rfl⟩ := Instant.eq_of_after_reached ha
    refine (Bool.or_eq_true_iff.1 hf).resolve_left fun hend => ?_
    exact absurd (of_decide_eq_true hend) (Nat.not_le_of_lt hlt)
  | alwaysNow => exact hunrolled hf (Nat.le_refl s) hs
  | alwaysNext =>
    refine Bool.or_eq_true_iff.2 (.inr (List.all_eq_true.2 fun k hk => ?_))
    obtain ⟨hle, hk⟩ := Formula.mem_stepsFrom.1 hk
    exact hunrolled hf (Nat.le_of_succ_le hle) hk
  | operands hu hle ht _ =>
    cases hu
    exact (Bool.and_eq_true_iff.1 (hunrolled hf hle ht)).1
  | settle hu hle ht _ _ =>
    cases hu with
    | eventually => exact hunrolled hf hle ht
    | untl => exact (Bool.and_eq_true_iff.1 (hunrolled hf hle ht)).2
  | hold hu hle ht _ =>
    cases hu
    exact hunrolled hf hle ht

/-- A formula that passes on one that may derive atoms may derive atoms. -/
theorem derives (hc : Child edge ledger f s guard g t guard')
    (hs : s ≤ edge.index)
    (hg : g.derives edge.index t = true) : f.derives edge.index s = true := by
  have hunrolled : ∀ {later : Nat → Bool} {k}, s ≤ k → k ≤ edge.index → later k = true →
      (Formula.stepsFrom edge.index s).any later = true := fun hle hk hlater =>
    List.any_eq_true.2 ⟨_, Formula.mem_stepsFrom.2 ⟨hle, hk⟩, hlater⟩
  cases hc with
  | andLeft => exact Bool.or_eq_true_iff.2 (.inl hg)
  | andRight => exact Bool.or_eq_true_iff.2 (.inr hg)
  | implies _ | implied _ => exact hg
  | next ha =>
    obtain ⟨hlt, rfl⟩ := Instant.eq_of_after_reached ha
    exact Bool.and_eq_true_iff.2 ⟨decide_eq_true hlt, hg⟩
  | alwaysNow => exact hunrolled (Nat.le_refl s) hs hg
  | alwaysNext =>
    obtain ⟨k, hk, hlater⟩ := List.any_eq_true.1 (Bool.and_eq_true_iff.1 hg).2
    obtain ⟨hle, hk⟩ := Formula.mem_stepsFrom.1 hk
    exact hunrolled (Nat.le_of_succ_le hle) hk hlater
  | operands hu _ _ _ =>
    cases hu
    exact Bool.or_eq_true_iff.2 (.inl hg)
  | settle hu hle ht _ _ =>
    cases hu with
    | eventually => exact hunrolled hle ht hg
    | untl => exact Bool.or_eq_true_iff.2 (.inr (hunrolled hle ht hg))
  | hold hu hle ht _ =>
    cases hu
    exact hunrolled hle ht hg

end Ledger.Child

/-- What a requirement passes on has its guard, and perhaps more. -/
theorem Ledger.Child.guard_subset {edge : Instant} {ledger : Ledger} {f g : Formula} {s t : Nat}
    {guard guard' : List Lit} (hc : Child edge ledger f s guard g t guard') :
    ∀ l ∈ guard, l ∈ guard' := by
  cases hc with
  | andLeft | andRight | next _ | alwaysNow | alwaysNext => exact fun _ hl => hl
  | implies _ | implied _ | operands _ _ _ _ | hold _ _ _ _ =>
    exact fun _ hl => List.mem_append_left _ hl
  | settle _ _ _ _ _ =>
    exact fun _ hl => List.mem_append_left _ (List.mem_append_left _ hl)

namespace Sheet.Sorted

variable {lit : Sheet} {s : Nat} {fs : List Formula} {head : List Nat} {body : List Lit}
  {f : Formula} {l : Lit}

/-- An atom among the disjuncts is in the head, the negation of any other formula but the
constant false is in the body. -/
theorem cases_of_mem (h : lit.Sorted s fs head body) (hf : f ∈ fs) :
    f.isAtom = true ∧ (∃ l, lit f s = some l ∧ l.atom ∈ head) ∨ f = .bool false ∨
      f.isAtom = false ∧ (∀ value, f ≠ .bool value) ∧ ∃ x, lit f s = some x ∧ -x ∈ body := by
  induction h with
  | nil => cases hf
  | @atom g _ l _ _ hg hl _ ih =>
    rcases List.mem_cons.1 hf with rfl | hf
    · exact .inl ⟨hg, l, hl, List.mem_cons_self⟩
    · refine (ih hf).imp_left (And.imp_right ?_)
      exact fun ⟨l', hl', hmem⟩ => ⟨l', hl', List.mem_cons_of_mem _ hmem⟩
  | falsity _ ih =>
    rcases List.mem_cons.1 hf with rfl | hf
    · exact .inr (.inl rfl)
    · exact ih hf
  | @other g _ x _ _ hg hbool hx _ ih =>
    rcases List.mem_cons.1 hf with rfl | hf
    · exact .inr (.inr ⟨hg, hbool, x, hx, List.mem_cons_self⟩)
    · refine (ih hf).imp_right (Or.imp_right (And.imp_right (And.imp_right ?_)))
      exact fun ⟨x', hx', hmem⟩ => ⟨x', hx', List.mem_cons_of_mem _ hmem⟩

/-- If all disjuncts were sorted, none of them is the constant true. -/
theorem truth_notMem (h : lit.Sorted s fs head body) : .bool true ∉ fs := by
  intro hmem
  rcases h.cases_of_mem hmem with ⟨hatom, -⟩ | hfalse | ⟨-, hbool, -⟩
  · cases hatom
  · cases hfalse
  · exact hbool true rfl

/-- Without an atom among the disjuncts there is no head. -/
theorem head_eq_nil (h : lit.Sorted s fs head body) (hnone : fs.any Formula.isAtom = false) :
    head = [] := by
  refine List.eq_nil_iff_forall_not_mem.2 fun a ha => ?_
  obtain ⟨f, l, hf, hatom, -⟩ := h.mem_head ha
  exact absurd (List.any_eq_true.2 ⟨f, hf, hatom⟩) (by rw [hnone]; exact Bool.false_ne_true)

/-- A literal in the body is that of a negated disjunct. -/
theorem mem_body (h : lit.Sorted s fs head body) (hl : l ∈ body) :
    ∃ f x, f ∈ fs ∧ f.isAtom = false ∧ f ≠ .bool false ∧ lit f s = some x ∧ l = -x := by
  induction h with
  | nil => cases hl
  | atom _ _ _ ih | falsity _ ih =>
    obtain ⟨f, x, hf, hrest⟩ := ih hl
    exact ⟨f, x, List.mem_cons_of_mem _ hf, hrest⟩
  | @other g _ x _ _ hg hbool hx _ ih =>
    rcases List.mem_cons.1 hl with rfl | hl
    · exact ⟨g, x, List.mem_cons_self, hg, hbool false, hx, rfl⟩
    · obtain ⟨f, x, hf, hrest⟩ := ih hl
      exact ⟨f, x, List.mem_cons_of_mem _ hf, hrest⟩

end Sheet.Sorted

/-! ## Formulas at the first step -/

/-- A theory and demands that ask for some formulas at step 0 and for nothing else. -/
structure Brief.Asks (brief : Brief) (fs : List Formula) : Prop where
  staged : ∀ stage f, (stage, f) ∈ brief.theory.formulas → stage = .initial ∧ f ∈ fs
  demanded : ∀ f s, (f, s) ∈ brief.demands → s = 0 ∧ f ∈ fs
  complete : ∀ f ∈ fs, (.initial, f) ∈ brief.theory.formulas ∨ (f, 0) ∈ brief.demands

namespace Brief.Asks

variable {brief : Brief} {fs : List Formula} {f : Formula}

theorem current (h : brief.Asks fs) {stage : Stage} {k : Nat}
    (hmem : (stage, f) ∈ brief.theory.current ⟨k, false⟩) : k = 0 ∧ f ∈ fs := by
  obtain ⟨hformula, -, hspans⟩ := (Theory.mem_current (Nat.le_refl k)).1 hmem
  obtain ⟨rfl, hf⟩ := h.staged stage f hformula
  exact ⟨hspans, hf⟩

theorem not_mem_finals (h : brief.Asks fs) : f ∉ brief.theory.finals := fun hmem =>
  Stage.noConfusion (h.staged .final f (Theory.mem_finals.1 hmem)).1

theorem holdsIn_iff (h : brief.Asks fs) (trace : Trace) :
    brief.HoldsIn trace ↔ ∀ f ∈ fs, f.Holds trace 0 := by
  constructor
  · intro hbrief f hf
    exact (h.complete f hf).elim (fun hmem => hbrief.staged .initial f hmem 0 rfl)
      (hbrief.demanded f 0)
  · intro hall
    refine ⟨fun stage f hmem k hspans => ?_, fun f s hmem => ?_⟩
    · obtain ⟨rfl, hf⟩ := h.staged stage f hmem
      obtain rfl : k = 0 := hspans
      exact hall f hf
    · obtain ⟨rfl, hf⟩ := h.demanded f s hmem
      exact hall f hf

theorem owes {theory : Theory} {log : Log} {edge : Instant} {ledger : Ledger}
    (h : Brief.Asks ⟨theory, log.demands⟩ fs)
    (hcovers : Ledger.Covers theory log (some edge) ledger) (hf : f ∈ fs) :
    ledger.Owes f 0 [] := by
  rcases h.complete f hf with hmem | hmem
  · refine hcovers.staged edge rfl 0 (Nat.zero_le _) (.initial, f) ?_
    exact (Theory.mem_current (Nat.zero_le 0)).2 ⟨hmem, Stage.noConfusion, rfl⟩
  · exact (hcovers.demanded f 0 hmem).2

end Brief.Asks

namespace Ledger.Warranted

variable {brief : Brief} {edge : Instant} {ledger : Ledger} {f : Formula} {s : Nat}
  {guard : List Lit}

/-- What is required is for a reached step. -/
theorem reached (hw : Warranted brief edge ledger f s guard)
    : s ≤ edge.index := by
  induction hw with
  | staged _ hs | guarded _ hs _ | demanded _ hs => exact hs
  | last _ _ => exact Nat.le_refl _
  | child _ hc ih => exact hc.reached ih

/-- All that is required for the sake of steady formulas is steady. -/
theorem isSteady (hw : Warranted brief edge ledger f s guard)
    {fs : List Formula} (hasks : brief.Asks fs)
    (hfs : ∀ f ∈ fs, f.isSteady edge.index 0 = true) : f.isSteady edge.index s = true := by
  induction hw with
  | staged hmem _ =>
    obtain ⟨rfl, hf⟩ := hasks.current hmem
    exact hfs _ hf
  | guarded hmem _ _ => exact absurd hmem hasks.not_mem_finals
  | last hmem _ => exact absurd hmem hasks.not_mem_finals
  | demanded hmem _ =>
    obtain ⟨rfl, hf⟩ := hasks.demanded _ _ hmem
    exact hfs _ hf
  | child hparent hc ih => exact hc.isSteady hparent.reached ih

end Ledger.Warranted

/-- A rule without a head that a set satisfies is satisfied in all its parts. -/
theorem Rule.reductSatisfiedBy_of_head_eq_nil {rule : Rule} {atoms part : Set Nat}
    (hhead : rule.head = []) (hsat : rule.SatisfiedBy atoms) (hpart : part ⊆ atoms) :
    rule.ReductSatisfiedBy atoms part := by
  intro hbody
  have hself := (rule.reductSatisfiedBy_self atoms).2 hsat fun l hl =>
    Lit.KeptIn.trueIn hpart (hbody l hl)
  rw [hhead] at hself ⊢
  split at hself
  · obtain ⟨a, ha, -⟩ := hself
    cases ha
  · exact nofun

namespace Ledger

/-! ## Rebuilding a part -/

/-- The ground atoms that are true in a set, by their names and steps. -/
def facts (ledger : Ledger) (atoms : Set Nat) : Set (Formula × Nat) :=
  {fact | ∃ l, ledger.ground fact.1 fact.2 = some l ∧ l.atom ∈ atoms}

/-- Every next has the literal of its argument: none had to wait for it. -/
def Resolved (edge : Instant) (ledger : Ledger) : Prop :=
  ∀ arg weak s y, ledger.entry (.next arg weak) s = some y →
    Sheet.Source ledger.lit edge (.next arg weak) s y

/-- The atoms of a set that follow from given facts and from what is chosen, with negated
literals read in the whole set. -/
inductive Rebuilt (role : Nat → Role) (edge : Instant) (ledger : Ledger) (atoms : Set Nat)
    (held : Set (Formula × Nat)) : Nat → Prop
  | ground {a f s} : role a = .ground f s → a ∈ atoms → (f, s) ∈ held →
    Rebuilt role edge ledger atoms held a
  | derived {a raw} : Derives role edge ledger a raw → (∀ f s, role a ≠ .ground f s) → a ∈ atoms →
    (∀ l ∈ raw.body, l.negated = true → l.atom ∉ atoms) →
    (∀ l ∈ raw.body, l.negated = false → Rebuilt role edge ledger atoms held l.atom) →
    Rebuilt role edge ledger atoms held a

/-- The part of a set that is rebuilt. -/
def rebuilt (role : Nat → Role) (edge : Instant) (ledger : Ledger) (atoms : Set Nat)
    (held : Set (Formula × Nat)) : Set Nat := {a | Rebuilt role edge ledger atoms held a}

section Rebuilt

variable {role : Nat → Role} {edge : Instant} {ledger : Ledger} {atoms : Set Nat}
  {held : Set (Formula × Nat)}

theorem rebuilt_subset : rebuilt role edge ledger atoms held ⊆ atoms := by
  intro a ha
  cases ha with
  | ground _ hmem _ => exact hmem
  | derived _ _ hmem _ _ => exact hmem

theorem Rebuilt.of_derives {a : Nat} {raw : Rule} (hd : Derives role edge ledger a raw)
    (hrole : ∀ f s, role a ≠ .ground f s) (hmem : a ∈ atoms)
    (hbody : raw.ReductBody atoms (rebuilt role edge ledger atoms held)) :
    a ∈ rebuilt role edge ledger atoms held := by
  refine .derived hd hrole hmem (fun l hl hneg => ?_) fun l hl hpos => ?_
  · have hkept := hbody l hl
    rwa [if_pos hneg] at hkept
  · have hkept := hbody l hl
    rwa [if_neg (by rw [hpos]; exact Bool.false_ne_true)] at hkept

/-- A rule that derives an atom is satisfied in the rebuilt part. -/
theorem reductSatisfiedBy_normal {a : Nat} {body : List Lit}
    (hd : Derives role edge ledger a (.normal a body)) (hrole : ∀ f s, role a ≠ .ground f s)
    (hsat : (Rule.normal a body).SatisfiedBy atoms) :
    (Rule.normal a body).ReductSatisfiedBy atoms (rebuilt role edge ledger atoms held) := by
  intro hbody
  have hmem := (Rule.satisfiedBy_normal a body).1 hsat fun l hl =>
    Lit.KeptIn.trueIn rebuilt_subset (hbody l hl)
  exact ⟨a, List.mem_singleton.2 rfl, .of_derives hd hrole hmem hbody⟩

/-- A ground atom that is rebuilt is held. -/
theorem Rebuilt.mem_held {a : Nat} {f : Formula} {s : Nat}
    (h : Rebuilt role edge ledger atoms held a) (ha : role a = .ground f s) : (f, s) ∈ held := by
  cases h with
  | ground ha' _ hheld =>
    rw [ha] at ha'
    cases ha'
    exact hheld
  | derived _ hrole _ _ _ => exact absurd ha (hrole f s)

/-- An atom that waited is rebuilt from its argument. -/
theorem Rebuilt.keptIn_of_awaited {a : Nat} {arg : Formula} {weak : Bool} {s : Nat}
    (h : Rebuilt role edge ledger atoms held a) (ha : role a = .awaited arg weak s)
    (hlt : s < edge.index) :
    ∃ y, ledger.lit arg (s + 1) = some y ∧
      y.KeptIn atoms (rebuilt role edge ledger atoms held) := by
  cases h with
  | ground ha' _ _ =>
    rw [ha] at ha'
    cases ha'
  | derived hd _ _ hneg hpos =>
    cases hd with
    | @tie _ _ _ y ha' _ hy =>
      rw [ha] at ha'
      cases ha'
      refine ⟨y, hy, ?_⟩
      unfold Lit.KeptIn
      split
      · next hnegated => exact hneg y (List.mem_singleton.2 rfl) hnegated
      · next hpositive => exact hpos y (List.mem_singleton.2 rfl) (Bool.eq_false_iff.2 hpositive)
    | ending ha' _ =>
      rw [ha] at ha'
      cases ha'
      exact absurd hlt (Nat.lt_irrefl _)
    | ground ha' | chosen ha' | carried ha' _ _ | settled _ ha' _ _ =>
      rw [ha] at ha'
      cases ha'

end Rebuilt

/-! ## Comparing literals -/

/-- Two ledgers in which all atoms have their values in the same trace, and a part of the
second set that satisfies the reduct there.  The requirements of the second ledger are
met. -/
structure Comparison (edge : Instant) (trace : Trace) (role : Nat → Role) (ledger : Ledger)
    (atoms : Set Nat) (role' : Nat → Role) (other : Ledger) (atoms' part : Set Nat) : Prop where
  valued : Valued role edge ledger trace atoms
  defined : ∀ a f s, role a = .chosen f s → f.isDefinedAt s = true
  reading : Reading role' edge other trace atoms' part
  met : ∀ f s guard, other.required f s guard → Met edge other f s guard
  reached : ∀ f s guard, other.required f s guard → s ≤ edge.index

namespace Comparison

variable {edge : Instant} {trace : Trace} {role role' : Nat → Role} {ledger other : Ledger}
  {atoms atoms' part : Set Nat} {f g : Formula} {s t : Nat} {l m : Lit} {sign turn : Bool}

/-- A literal with the sign of its reference is kept only if what it refers to is. -/
theorem exists_referent (h : Comparison edge trace role ledger atoms role' other atoms' part)
    {held : Set (Formula × Nat)} (hbacked : Backed role edge ledger f s l)
    (href : f.reference? edge.index s = some sign)
    (hfirm : ledger.Resolved edge ∨ f.delaysNegation edge.index s = false)
    (hkept : (l.signed sign).KeptIn atoms (rebuilt role edge ledger atoms held))
    (hr : f.RefersTo edge.index s g t turn) :
    ∃ y, ledger.lit g t = some y ∧
      (y.signed (sign == turn)).KeptIn atoms (rebuilt role edge ledger atoms held) := by
  have hshared : Sheet.Source ledger.lit edge f s l → ∃ y, ledger.lit g t = some y ∧
      (y.signed (sign == turn)).KeptIn atoms (rebuilt role edge ledger atoms held) := by
    intro hsource
    obtain ⟨y, hy, rfl⟩ := hsource.exists_lit hr (by rw [href]; exact Option.some_ne_none _)
    rw [Lit.signed_signed] at hkept
    exact ⟨y, hy, hkept⟩
  cases hbacked with
  | shared hy => exact hshared hy
  | chosen ha =>
    have hdefined := h.defined _ _ _ ha
    rw [hr.isDefinedAt] at hdefined
    cases hdefined
  | @awaited arg weak _ a ha =>
    rcases hfirm with hresolved | hfirm
    · exact hshared (hresolved arg weak s _ (h.valued.sound.awaited_of_role ha).1)
    · cases hr with
      | fixpoint hf _ => cases hf
      | next hlt =>
        -- The argument is no negation, so the waiting atom itself is kept.
        have hsign : sign = true := by
          cases sign with
          | true => rfl
          | false =>
            rw [Formula.reference?, if_pos hlt] at href
            simp [Formula.delaysNegation, href, hlt] at hfirm
        subst hsign
        exact Rebuilt.keptIn_of_awaited hkept ha hlt

/-- A literal that is true in one set is true in the other. -/
theorem trueIn (h : Comparison edge trace role ledger atoms role' other atoms' part)
    (hl : ledger.lit f s = some l) (hm : other.lit f s = some m)
    (htrue : (l.signed sign).TrueIn atoms) : (m.signed sign).TrueIn atoms' := by
  rw [Lit.trueIn_signed, h.valued.faithful.lit f s l hl] at htrue
  rw [Lit.trueIn_signed, h.reading.faithful.lit f s m hm]
  exact htrue

/-- **A literal that is kept in the rebuilt part is kept in the given part.** -/
theorem keptIn (h : Comparison edge trace role ledger atoms role' other atoms' part) (sign : Bool)
    (hl : ledger.lit f s = some l) (hm : other.lit f s = some m)
    (hfirm : ledger.Resolved edge ∨ f.isFirm edge.index sign s = true)
    (hkept : (l.signed sign).KeptIn atoms (rebuilt role edge ledger atoms (other.facts part))) :
    (m.signed sign).KeptIn atoms' part := by
  -- By induction along the references, in both ledgers at once.
  refine h.valued.sound.induction_lits (P := fun f s l => ledger.lit f s = some l →
    ∀ m sign, other.lit f s = some m → ledger.Resolved edge ∨ f.isFirm edge.index sign s = true →
    (l.signed sign).KeptIn atoms (rebuilt role edge ledger atoms (other.facts part)) →
    (m.signed sign).KeptIn atoms' part) ?_ ?_ hl hl m sign hm hfirm hkept
  · rintro f s ⟨a, negated⟩ hatom hground hl m sign hm - hkept
    obtain ⟨-, hpos, hrole⟩ := h.valued.sound.ground f s _ hground
    cases hpos
    have htrue := h.trueIn hl hm (hkept.trueIn rebuilt_subset)
    rw [lit, if_pos hatom] at hm
    cases sign with
    | false => exact Lit.keptIn_signed_false (h.reading.sound.ground f s m hm).2.1 htrue
    | true =>
      refine htrue.keptIn fun _ => ?_
      obtain ⟨m', hm', hmem⟩ := Rebuilt.mem_held hkept hrole
      rw [hm] at hm'
      cases hm'
      exact hmem
  · intro f s l hatom hf hs ih hbacked hl m sign hm hfirm hkept
    have htrue := h.trueIn hl hm (hkept.trueIn rebuilt_subset)
    by_cases href : f.reference? edge.index s = some sign
    · have hdelays : ledger.Resolved edge ∨ f.delaysNegation edge.index s = false := by
        refine hfirm.imp_right fun hfirm => ?_
        simpa [Formula.isFirm, href] using hfirm
      have hentry : other.entry f s = some m := by rwa [lit, hatom] at hm
      refine h.reading.keptIn_of_referents (h.reading.sound.entry f s m hentry) hatom htrue
        fun g t turn hr y' hy' _ => ?_
      obtain ⟨y, hy, hkept'⟩ := h.exists_referent hbacked href hdelays hkept hr
      refine ih g t (hr.mem_requests hf) y hy hy y' _ hy' ?_ hkept'
      refine hdelays.imp_right fun hdelays => ?_
      have hg : g.delaysNegation edge.index t = false :=
        Bool.eq_false_iff.2 fun hg => Bool.eq_false_iff.1 hdelays (hr.delaysNegation hg)
      simp [Formula.isFirm, hg]
    · exact h.reading.keptIn_of_trueIn hm href htrue

/-- A guard that is joined by a literal with a sign is kept if both are. -/
theorem keptIn_concat (h : Comparison edge trace role ledger atoms role' other atoms' part)
    (sign : Bool) (hl : ledger.lit f s = some l) (hm : other.lit f s = some m)
    (hfirm : ledger.Resolved edge ∨ f.isFirm edge.index sign s = true) {guard guard' : List Lit}
    (hkept : ∀ x ∈ guard ++ [l.signed sign],
      x.KeptIn atoms (rebuilt role edge ledger atoms (other.facts part)))
    (hguard : ∀ x ∈ guard', x.KeptIn atoms' part) :
    ∀ x ∈ guard' ++ [m.signed sign], x.KeptIn atoms' part := by
  refine List.forall_mem_append.2 ⟨hguard, List.forall_mem_singleton.2 ?_⟩
  exact h.keptIn sign hl hm hfirm (hkept _ (List.mem_append_right _ List.mem_cons_self))

/-! ## Comparing requirements -/

/-- A requirement that is owed under a kept guard has been taken on. -/
theorem required_of_owes (h : Comparison edge trace role ledger atoms role' other atoms' part)
    {guard : List Lit} (howes : other.Owes f s guard)
    (hguard : ∀ l ∈ guard, l.KeptIn atoms' part) :
    ∃ guard', other.required f s guard' ∧ ∀ l ∈ guard', l.KeptIn atoms' part := by
  rcases howes with hfalse | hreq
  · exact absurd (h.reading.subset (hguard Lit.falsity hfalse)) h.reading.faithful.one
  · exact ⟨_, hreq, fun l hl => hguard l (Encoder.mem_of_mem_guardSet hl)⟩

/-- The literal of a carrier is negated in a guard, so it is frozen. -/
theorem keptIn_stepGuard (h : Comparison edge trace role ledger atoms role' other atoms' part)
    {origin : Nat} {guard guard' : List Lit} {earlier earlier' : Option Lit}
    (hearlier : ledger.Earlier f origin t earlier) (hearlier' : other.Earlier f origin t earlier')
    (htrue : ∀ l ∈ stepGuard guard earlier, l.TrueIn atoms)
    (hguard : ∀ l ∈ guard', l.KeptIn atoms' part) :
    ∀ l ∈ stepGuard guard' earlier', l.KeptIn atoms' part := by
  have hopen := ((h.valued.faithful.stepGuard_iff hearlier guard).1 htrue).2
  cases hearlier' with
  | start =>
    rw [show stepGuard guard' none = guard' from List.append_nil guard']
    exact hguard
  | @step t c _ hc =>
    refine List.forall_mem_append.2 ⟨hguard, List.forall_mem_singleton.2 ?_⟩
    rw [← h.reading.faithful.carrier f origin t c hc, ← Lit.trueIn_neg] at hopen
    exact Lit.keptIn_signed_false (h.reading.sound.carriers _ hc).1 hopen

/-- What is passed on under a kept guard is passed on in the other ledger. -/
theorem owes_of_child (h : Comparison edge trace role ledger atoms role' other atoms' part)
    {guard guard' parent : List Lit} (hc : Child edge ledger f s guard g t guard')
    (hsteady : ledger.Resolved edge ∨ f.isSteady edge.index s = true)
    (hderives : g.derives edge.index t = true)
    (hkept : ∀ l ∈ guard', l.KeptIn atoms (rebuilt role edge ledger atoms (other.facts part)))
    (hreq : other.required f s parent) (hparent : ∀ l ∈ parent, l.KeptIn atoms' part) :
    ∃ child, other.Owes g t child ∧ ∀ l ∈ child, l.KeptIn atoms' part := by
  have hmet := h.met f s parent hreq
  have htrue : ∀ l ∈ guard', l.TrueIn atoms := fun l hl => (hkept l hl).trueIn rebuilt_subset
  cases hc with
  | andLeft => exact ⟨parent, hmet.and_of.1, hparent⟩
  | andRight => exact ⟨parent, hmet.and_of.2, hparent⟩
  | @implies lhs rhs _ _ x hx =>
    obtain ⟨x', hx', howes⟩ := hmet.implies_of
    have hfirm := hsteady.imp_right fun hf =>
      (Bool.or_eq_true_iff.1 (Bool.and_eq_true_iff.1 hf).1).resolve_left (by simp [hderives])
    exact ⟨_, howes, h.keptIn_concat true hx hx' hfirm hkept hparent⟩
  | @implied lhs rhs _ _ x hx =>
    obtain ⟨x', hx', howes⟩ := hmet.implied_of
    have hfirm := hsteady.imp_right fun hf =>
      (Bool.or_eq_true_iff.1 (Bool.and_eq_true_iff.1 hf).1).resolve_left (by simp [hderives])
    exact ⟨_, howes, h.keptIn_concat true hx hx' hfirm hkept hparent⟩
  | next ha =>
    have hs := h.reached _ s parent hreq
    obtain ⟨hlt, rfl⟩ := Instant.eq_of_after_reached ha
    rcases hmet.next_of with ⟨t', ha', howes⟩ | ⟨t', ha', -⟩ | ⟨ha', -⟩
    · obtain ⟨-, rfl⟩ := Instant.eq_of_after_reached ha'
      exact ⟨parent, howes, hparent⟩
    · rw [@Instant.after_of_lt ⟨edge.index, false⟩ s hlt] at ha'
      cases ha'
    · rw [ha] at ha'
      rcases ha' with ha' | ha' <;> cases ha'
  | alwaysNow => exact ⟨parent, hmet.always_of.1, hparent⟩
  | alwaysNext => exact ⟨parent, hmet.always_of.2, hparent⟩
  | operands hu ho ht hearlier =>
    obtain ⟨carrier, hunrolled⟩ := hmet.unrolled_of hu
    obtain ⟨earlier', hearlier', hp⟩ := hunrolled.prepared hu ho (Nat.lt_succ_of_le ht)
    cases hp with
    | untl howes _ _ =>
      exact ⟨_, howes, h.keptIn_stepGuard hearlier hearlier' htrue hparent⟩
  | @settle _ left rhs _ _ _ earlier n hu ho ht hearlier hn =>
    obtain ⟨carrier, hunrolled⟩ := hmet.unrolled_of hu
    obtain ⟨earlier', hearlier', hp⟩ := hunrolled.prepared hu ho (Nat.lt_succ_of_le ht)
    have hguard := h.keptIn_stepGuard hearlier hearlier'
      (fun l hl => htrue l (List.mem_append_left _ hl)) hparent
    have hnext : ∀ n', other.lit Formula.hasNext t = some n' →
        ∀ l ∈ stepGuard parent earlier' ++ [-n'], l.KeptIn atoms' part := fun n' hn' =>
      h.keptIn_concat false hn hn' (.inr (by simp [Formula.isFirm])) hkept hguard
    cases hp with
    | eventually hn' howes => exact ⟨_, howes, hnext _ hn'⟩
    | untl _ hn' howes => exact ⟨_, howes, hnext _ hn'⟩
  | hold hu ho ht hearlier =>
    obtain ⟨carrier, hunrolled⟩ := hmet.unrolled_of hu
    obtain ⟨earlier', hearlier', hp⟩ := hunrolled.prepared hu ho (Nat.lt_succ_of_le ht)
    cases hp with
    | release howes => exact ⟨_, howes, h.keptIn_stepGuard hearlier hearlier' htrue hparent⟩

/-- A guard set is kept if and only if the guard is. -/
theorem keptIn_guard (h : Comparison edge trace role ledger atoms role' other atoms' part)
    {held : Set (Formula × Nat)} {guard : List Lit} (hpos : ∀ l ∈ guard, 0 < l.atom)
    (hkept : ∀ l ∈ Encoder.guardSet guard, l.KeptIn atoms (rebuilt role edge ledger atoms held)) :
    ∀ l ∈ guard, l.KeptIn atoms (rebuilt role edge ledger atoms held) := by
  intro l hl
  by_cases htruth : l = Lit.truth
  · subst htruth
    exact h.valued.faithful.one
  · exact hkept l (Encoder.mem_guardSet hpos hl htruth)

/-- **What is required under a kept guard is required in the other ledger**, and its guard
is kept there. -/
theorem owes_of_warranted (h : Comparison edge trace role ledger atoms role' other atoms' part)
    {brief : Brief} {fs : List Formula} (hasks : brief.Asks fs)
    (howed : ∀ f ∈ fs, other.Owes f 0 [])
    (hsteady : ledger.Resolved edge ∨ ∀ f ∈ fs, f.isSteady edge.index 0 = true)
    {guard : List Lit} (hw : Warranted brief edge ledger f s guard)
    (hderives : f.derives edge.index s = true)
    (hkept : ∀ l ∈ guard, l.KeptIn atoms (rebuilt role edge ledger atoms (other.facts part))) :
    ∃ guard', other.Owes f s guard' ∧ ∀ l ∈ guard', l.KeptIn atoms' part := by
  induction hw with
  | staged hmem _ =>
    obtain ⟨rfl, hf⟩ := hasks.current hmem
    exact ⟨[], howed _ hf, nofun⟩
  | guarded hmem _ _ => exact absurd hmem hasks.not_mem_finals
  | last hmem _ => exact absurd hmem hasks.not_mem_finals
  | demanded hmem _ =>
    obtain ⟨rfl, hf⟩ := hasks.demanded _ _ hmem
    exact ⟨[], howed _ hf, nofun⟩
  | child hparent hc ih =>
    have hpos := fun l hl => (h.valued.sound.warranted_inScope hparent l hl).pos
    obtain ⟨guard', howes, hguard'⟩ :=
      ih (hc.derives hparent.reached hderives)
        (h.keptIn_guard hpos fun l hl => hkept l (hc.guard_subset l hl))
    obtain ⟨taken, hreq, htaken⟩ := h.required_of_owes howes hguard'
    exact h.owes_of_child hc (hsteady.imp_right (hparent.isSteady hasks)) hderives hkept
      hreq htaken

/-! ## The reduct -/

/-- An atom that is required under a kept guard is kept. -/
theorem mem_facts_of_atom (h : Comparison edge trace role ledger atoms role' other atoms' part)
    (hatom : f.isAtom = true) {guard : List Lit} (hreq : other.required f s guard)
    (hguard : ∀ l ∈ guard, l.KeptIn atoms' part) : (f, s) ∈ other.facts part := by
  obtain ⟨a, ha, hposted⟩ := (h.met f s guard hreq).atom_of hatom
  obtain ⟨b, hb, hmem⟩ :=
    hposted.reductSatisfiedBy h.reading.faithful.one h.reading.subset h.reading.rules hguard
  cases List.mem_singleton.1 hb
  exact ⟨a, ha, hmem⟩

/-- If a disjunction is required under a kept guard and its negated disjuncts are kept, then
one of its atoms is. -/
theorem exists_mem_facts_of_or
    (h : Comparison edge trace role ledger atoms role' other atoms' part) {lhs rhs : Formula}
    (hsteady : ledger.Resolved edge ∨ (Formula.binary .or lhs rhs).isSteady edge.index s = true)
    (hderives : (Formula.binary .or lhs rhs).derives edge.index s = true)
    {guard : List Lit} (hreq : other.required (.binary .or lhs rhs) s guard)
    (hguard : ∀ l ∈ guard, l.KeptIn atoms' part) {head : List Nat} {body : List Lit}
    (hs : ledger.lit.Sorted s (Formula.binary .or lhs rhs).disjuncts head body)
    (hbody : ∀ l ∈ body, l.KeptIn atoms (rebuilt role edge ledger atoms (other.facts part))) :
    ∃ f l, f.isAtom = true ∧ (f, s) ∈ other.facts part ∧ ledger.lit f s = some l ∧
      l.atom ∈ head := by
  rcases (h.met _ s guard hreq).or_of with hcut | ⟨head', body', hs', hposted⟩
  · -- In the first ledger all disjuncts were sorted, so none is the constant true.
    exact absurd hcut.truth_mem hs.truth_notMem
  · have hbody' : ∀ l ∈ body', l.KeptIn atoms' part := by
      intro l hl
      obtain ⟨f, m, hf, hatom, hfalse, hm, rfl⟩ := hs'.mem_body hl
      rcases hs.cases_of_mem hf with ⟨hatom', -⟩ | hfalse' | ⟨-, -, x, hx, hmem⟩
      · rw [hatom] at hatom'
        cases hatom'
      · exact absurd hfalse' hfalse
      · refine h.keptIn false hx hm (hsteady.imp_right fun hsteady => ?_) (hbody _ hmem)
        rcases Bool.or_eq_true_iff.1 hsteady with hnone | hfirm
        · have hany : (Formula.binary .or lhs rhs).disjuncts.any Formula.isAtom = true := hderives
          rcases Bool.or_eq_true_iff.1 hnone with htruth | hnone
          · exact absurd (of_decide_eq_true htruth) hs.truth_notMem
          · rw [show (lhs.disjuncts ++ rhs.disjuncts).any Formula.isAtom = true from hany] at hnone
            cases hnone
        · exact List.all_eq_true.1 hfirm f hf
    obtain ⟨b, hb, hmem⟩ :=
      hposted.reductSatisfiedBy h.reading.faithful.one h.reading.subset h.reading.rules
        (List.forall_mem_append.2 ⟨hguard, hbody'⟩)
    obtain ⟨f, m, hf, hatom, hm, rfl⟩ := hs'.mem_head hb
    rw [lit, if_pos hatom] at hm
    rcases hs.cases_of_mem hf with ⟨-, l, hl, hhead⟩ | rfl | ⟨hatom', -⟩
    · exact ⟨f, l, hatom, ⟨m, hm, hmem⟩, hl, hhead⟩
    · cases hatom
    · rw [hatom] at hatom'
      cases hatom'

/-- A ground atom that the given part has is rebuilt. -/
theorem mem_rebuilt (h : Comparison edge trace role ledger atoms role' other atoms' part)
    (hl : ledger.ground f s = some l) (hheld : (f, s) ∈ other.facts part) :
    l.atom ∈ rebuilt role edge ledger atoms (other.facts part) := by
  obtain ⟨m, hm, hmem⟩ := id hheld
  have hholds := (h.reading.faithful.ground f s m hm).1 (h.reading.subset hmem)
  exact .ground (h.valued.sound.ground f s l hl).2.2 ((h.valued.faithful.ground f s l hl).2 hholds)
    hheld

/-- **The rebuilt part satisfies the reduct.** -/
theorem rebuilt_reduct (h : Comparison edge trace role ledger atoms role' other atoms' part)
    {brief : Brief} {fs : List Formula} (hasks : brief.Asks fs)
    (horderly : Orderly brief edge ledger) (howed : ∀ f ∈ fs, other.Owes f 0 [])
    (hsteady : ledger.Resolved edge ∨ ∀ f ∈ fs, f.isSteady edge.index 0 = true)
    (hrules : ∀ rule ∈ ledger.rules, rule.SatisfiedBy atoms) {rule : Rule}
    (hrule : rule ∈ ledger.rules) :
    rule.ReductSatisfiedBy atoms (rebuilt role edge ledger atoms (other.facts part)) := by
  have hone := h.valued.faithful.one
  obtain ⟨raw, hsimple, hm⟩ := h.valued.sound.rules rule hrule
  rw [Encoder.reductSatisfiedBy_simplify hsimple hone]
  have hraw := (Encoder.satisfiedBy_simplify hsimple hone).1 (hrules rule hrule)
  have hother : ∀ {a r}, role a = r → (∀ f s, r ≠ .ground f s) → ∀ f s, role a ≠ .ground f s := by
    rintro a r rfl hne
    exact hne
  cases hm with
  | choose ha =>
    intro hbody b hb hmem
    cases List.mem_singleton.1 hb
    exact .of_derives (.chosen ha) (hother ha nofun) hmem hbody
  | equal _ _ hmem =>
    exact Rule.reductSatisfiedBy_of_head_eq_nil (Rule.head_of_mem_equal hmem) hraw rebuilt_subset
  | definition _ hd hmem =>
    exact Rule.reductSatisfiedBy_of_head_eq_nil (hd.head_eq_nil hmem) hraw rebuilt_subset
  | opposite _ _ => exact Rule.reductSatisfiedBy_of_head_eq_nil rfl hraw rebuilt_subset
  | tie ha hs hy => exact reductSatisfiedBy_normal (.tie ha hs hy) (hother ha nofun) hraw
  | ending ha hlast => exact reductSatisfiedBy_normal (.ending ha hlast) (hother ha nofun) hraw
  | carried ha ho hc => exact reductSatisfiedBy_normal (.carried ha ho hc) (hother ha nofun) hraw
  | settled hf ha ho hw =>
    exact reductSatisfiedBy_normal (.settled hf ha ho hw) (hother ha nofun) hraw
  | @duty f s guard _ hreq hd =>
    obtain ⟨whole, rfl, hw⟩ := horderly.warranted f s guard hreq
    have hpos := fun l hl => (h.valued.sound.warranted_inScope hw l hl).pos
    -- Under a kept guard the requirement is on the list of the other ledger too.
    have hrequired : f.derives edge.index s = true → (∀ l ∈ Encoder.guardSet whole,
        l.KeptIn atoms (rebuilt role edge ledger atoms (other.facts part))) →
        ∃ guard', other.required f s guard' ∧ ∀ l ∈ guard', l.KeptIn atoms' part := by
      intro hderives hkept
      obtain ⟨guard', howes, hguard'⟩ :=
        h.owes_of_warranted hasks howed hsteady hw hderives (h.keptIn_guard hpos hkept)
      exact h.required_of_owes howes hguard'
    cases hd with
    | @atom _ _ _ a hatom ha =>
      intro hbody
      have hderives : f.derives edge.index s = true := by
        cases f with
        | atom name args positive => rfl
        | _ => cases hatom
      obtain ⟨guard', hreq', hguard'⟩ := hrequired hderives hbody
      exact ⟨a.atom, List.mem_singleton.2 rfl,
        h.mem_rebuilt ha (h.mem_facts_of_atom hatom hreq' hguard')⟩
    | @or lhs rhs _ _ head body hs =>
      cases hderives : (Formula.binary .or lhs rhs).derives edge.index s with
      | false =>
        exact Rule.reductSatisfiedBy_of_head_eq_nil (hs.head_eq_nil hderives) hraw rebuilt_subset
      | true =>
        intro hbody
        obtain ⟨hguard, hbody⟩ := List.forall_mem_append.1 hbody
        obtain ⟨guard', hreq', hguard'⟩ := hrequired hderives hguard
        obtain ⟨f, l, hatom, hheld, hl, hhead⟩ := h.exists_mem_facts_of_or
          (hsteady.imp_right (hw.isSteady hasks)) hderives hreq' hguard' hs hbody
        rw [lit, if_pos hatom] at hl
        exact ⟨l.atom, hhead, h.mem_rebuilt hl hheld⟩
    | falsity | not _ | stepAfter _ | noStep _ | excluded _ _ =>
      exact Rule.reductSatisfiedBy_of_head_eq_nil rfl hraw rebuilt_subset

end Comparison

/-! ## Counterparts -/

/-- No host literal is bound, and every atom that may be chosen belongs to a formula that is
defined at its step. -/
structure Native (ledger : Ledger) : Prop where
  binding : ∀ f s, ledger.binding f s = none
  chosen : ∀ rule ∈ ledger.rules, rule.kind = .choice → ∀ a ∈ rule.head, ∃ f s,
    f.isDefinedAt s = true ∧ ledger.entry f s = some ⟨a, false⟩

section Counterpart

variable {role : Nat → Role} {edge : Instant} {ledger other : Ledger} {atoms : Set Nat}

/-- In a native ledger the formula of a chosen atom is defined at its step. -/
theorem Sound.isDefinedAt (h : Sound role [] edge ledger) (hnative : ledger.Native) {a : Nat}
    {f : Formula} {s : Nat} (ha : role a = .chosen f s) : f.isDefinedAt s = true := by
  obtain ⟨-, hposted, -⟩ := h.chosen_of_role ha
  obtain ⟨g, t, hdefined, hentry⟩ :=
    hnative.chosen _ (hposted (.choice a) rfl) rfl a List.mem_cons_self
  cases h.entry g t _ hentry with
  | shared hy =>
    rw [hy.isDefinedAt] at hdefined
    cases hdefined
  | chosen ha' =>
    rw [ha] at ha'
    cases ha'
    exact hdefined
  | awaited _ => cases hdefined

/-- An atom holds in the trace of a set exactly if it is among its facts. -/
theorem Sound.atomHolds_iff (h : Sound role [] edge ledger) (last : Nat) (atoms : Set Nat)
    (name : String) (args : List Term) (positive : Bool) (k : Nat) :
    (ledger.trace last atoms).atomHolds name args positive k ↔
      (.atom name args positive, k) ∈ ledger.facts atoms := by
  refine exists_congr fun l => and_congr_right fun hl => ?_
  exact Lit.trueIn_of_positive (h.ground _ k l hl).2.1

/-- **Every stable model has a counterpart with the same facts**, if no literal had to wait
or if all formulas are steady. -/
theorem Standing.exists_counterpart {theory theory' : Theory} {log log' : Log} {n : Nat}
    (h : Standing theory log (some ⟨n, true⟩) ledger)
    (h' : Standing theory' log' (some ⟨n, true⟩) other)
    {fs : List Formula} (hasks : Brief.Asks ⟨theory, log.demands⟩ fs)
    (hasks' : Brief.Asks ⟨theory', log'.demands⟩ fs) (hnative : ledger.Native)
    (hsteady : ledger.Resolved ⟨n, true⟩ ∨ ∀ f ∈ fs, f.isSteady n 0 = true)
    (stable : StableModel ⟨ledger.rules, []⟩ atoms) :
    ∃ atoms', StableModel ⟨other.rules, []⟩ atoms' ∧ other.facts atoms' = ledger.facts atoms := by
  obtain ⟨role, hsound, -⟩ := h.accounted
  obtain ⟨role', hsound', -⟩ := h'.accounted
  have hnone : ∀ rule ∈ ([] : List Rule), ∀ a ∈ rule.head, ledger.IsGround a := nofun
  rw [← List.append_nil ledger.rules] at stable
  have hintended := hsound.intended (h.settled _ rfl rfl) hnone stable
  obtain ⟨-, hconsistent, hbrief⟩ := h.stableModel_admissible hnone stable
  rw [List.append_nil] at stable
  rw [hsound.trace_inter n atoms] at hconsistent hbrief
  -- The values that the trace of the stable model gives to the atoms of the other ledger.
  let atoms' : Set Nat := {a | (role' a).Holds (ledger.trace n atoms)}
  have hvalued' : Valued role' ⟨n, true⟩ other (ledger.trace n atoms) atoms' :=
    ⟨hsound', h'.settled _ rfl rfl, rfl, fun _ => Iff.rfl⟩
  have hrules' : ∀ rule ∈ other.rules, rule.SatisfiedBy atoms' := by
    intro rule hr
    obtain ⟨raw, hsimple, hm⟩ := hsound'.rules rule hr
    rw [Encoder.satisfiedBy_simplify hsimple hvalued'.faithful.one]
    exact hm.satisfiedBy hsound' h'.orderly rfl hvalued'.values hconsistent
      ((hasks'.holdsIn_iff _).2 ((hasks.holdsIn_iff _).1 hbrief))
  -- A part that satisfies the reduct has all facts of the stable model.
  have hfacts : ∀ part ⊆ atoms', (∀ rule ∈ other.rules, rule.ReductSatisfiedBy atoms' part) →
      ledger.facts atoms ⊆ other.facts part := by
    intro part hpart hreduct
    have hcomparison : Comparison ⟨n, true⟩ (ledger.trace n atoms) role ledger atoms role' other
        atoms' part :=
      ⟨⟨hsound, h.settled _ rfl rfl, rfl, hintended⟩, fun _ _ _ => hsound.isDefinedAt hnative,
        ⟨hvalued', hpart, hreduct⟩, h'.met, h'.orderly.reached⟩
    have hwhole := stable.minimal _ rebuilt_subset (fun rule hr => hcomparison.rebuilt_reduct hasks
      h.orderly (fun f hf => hasks'.owes h'.covers hf) hsteady stable.satisfied hr) nofun
    rintro ⟨f, s⟩ ⟨l, hl, hmem⟩
    rw [← hwhole] at hmem
    exact Rebuilt.mem_held hmem (hsound.ground f s l hl).2.2
  have hequal : other.facts atoms' = ledger.facts atoms := by
    refine Set.Subset.antisymm ?_ (hfacts atoms' (fun _ ha => ha) fun rule hr =>
      (rule.reductSatisfiedBy_self atoms').2 (hrules' rule hr))
    rintro ⟨f, s⟩ ⟨m, hm, hmem⟩
    have hholds := (hvalued'.faithful.ground f s m hm).1 hmem
    cases f with
    | atom name args positive => exact (hsound.atomHolds_iff n atoms name args positive s).1 hholds
    | _ => cases (hsound'.ground _ s m hm).1
  have htrace : other.trace n atoms' = ledger.trace n atoms := by
    unfold trace
    congr 1
    funext name args positive k
    refine propext ((hsound'.atomHolds_iff n atoms' name args positive k).trans ?_)
    rw [hequal]
    exact (hsound.atomHolds_iff n atoms name args positive k).symm
  have hintended' : Intended role' other (Instant.mk n true).index atoms' := by
    intro a
    rw [htrace]
    exact Iff.rfl
  refine ⟨atoms', ⟨hrules', fun part hpart hreduct _ => ?_⟩, hequal⟩
  refine hintended'.eq_of_remains hsound'
    (by rw [h'.settled _ rfl rfl, List.append_nil]) ⟨hpart, ?_, hreduct⟩
  rintro a ⟨f, s, hl⟩ hmem
  have hheld : (f, s) ∈ other.facts atoms' := ⟨_, hl, hmem⟩
  obtain ⟨m, hm, hmem'⟩ := hfacts part hpart hreduct (hequal ▸ hheld)
  rw [hl] at hm
  cases hm
  exact hmem'

end Counterpart

end Ledger
end TemporalHorizon

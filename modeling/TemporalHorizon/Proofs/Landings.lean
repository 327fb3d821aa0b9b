import TemporalHorizon.Proofs.LateRequiring

/-!
# How far literals travel

A formula that only refers to an atom at another step has the literal of that atom, so the
atom turns up in the rules of whatever contains the formula.  Guards travel too: a requirement
that is passed on to later steps takes the literals of its guard along.  This module says,
from the syntax alone, at which steps the atoms of a rule can lie.

* `Formula.landing?`: the step of the atom that a formula at a step refers to.  The atom of a
  literal lies nowhere else (`Sound.liesIn_lit`), and for a formula that does not look ahead
  it does lie there (`Sound.ground_of_landing`).
* `Formula.DefinedWithin`: in the definitions behind a formula at a step no two atoms are
  further apart than a width allows.
* `Formula.RequiredWithin`: the same for what a requirement comes to, given the steps of the
  atoms in its guard.  It is handed on from a requirement to those that it passes on
  (`Child.requiredWithin`).
* `Sound.ruleWithin`: if what is behind a ledger is within a width, so is every rule of it.
-/

namespace TemporalHorizon

attribute [local instance] Arithmetic.exact

/-! ## Steps that are near each other -/

/-- Any two of the steps lie in a window of the given width. -/
def Near (width : Nat) (steps : List Nat) : Prop := ∀ s ∈ steps, ∀ t ∈ steps, t < s + width

instance (width : Nat) (steps : List Nat) : Decidable (Near width steps) := by
  unfold Near
  infer_instance

namespace Near

variable {width : Nat} {steps : List Nat}

theorem nil : Near width [] := nofun

theorem singleton (hwidth : 0 < width) (s : Nat) : Near width [s] := by
  intro t ht u hu
  rw [List.mem_singleton.1 ht, List.mem_singleton.1 hu]
  omega

theorem toList (hwidth : 0 < width) (landing : Option Nat) : Near width landing.toList := by
  cases landing with
  | none => exact nil
  | some s => exact singleton hwidth s

theorem pair {s t : Nat} (hst : t < s + width) (hts : s < t + width) :
    Near width [s, t] := by
  intro u hu v hv
  simp only [List.mem_cons, List.not_mem_nil, or_false] at hu hv
  omega

end Near

/-! ## Where a reference ends -/

namespace Formula

/-- The step of the atom that a formula at a step refers to, if it is a reference to one.  A
since or a trigger refers to its right operand at step 0. -/
def landing? : Formula → Nat → Option Nat
  | .atom _ _ _, s => some s
  | .not arg, s => arg.landing? s
  | .previous _ _, 0 => none
  | .previous arg _, s + 1 => arg.landing? s
  | .next arg _, s => arg.landing? (s + 1)
  | .initially arg, _ => arg.landing? 0
  | .temporal op _ rhs, s => if op.isFuture || s != 0 then none else rhs.landing? 0
  | .modal op arg, s => if op.isFuture || s != 0 then none else arg.landing? 0
  | .dynamic _ path arg, s => if path.isMoves then arg.landing? (s + path.moves) else none
  | .bool _, _ | .initial, _ | .final, _ | .binary _ _ _, _ => none

theorem landing?_unfoldPath (modality : Modality) (path : Path) (arg : Formula) (s : Nat) :
    (unfoldPath modality path arg).landing? s = (dynamic modality path arg).landing? s := by
  cases path with
  | seq first second =>
    cases hfirst : first.isMoves <;>
      simp [unfoldPath, landing?, Path.isMoves, Path.moves, hfirst, Nat.add_assoc]
  | _ => simp [unfoldPath, landing?, Path.isMoves, Path.moves]

/-- A formula lands where what it refers to does. -/
theorem RefersTo.landing?_eq {horizon : Nat} {f g : Formula} {s t : Nat} {turn : Bool}
    (h : RefersTo horizon f s g t turn) : f.landing? s = g.landing? t := by
  cases h with
  | final | not | previous | next | initially => rfl
  | fixpoint hf hop => cases hf <;> simp [landing?, hop]
  | dynamic => rw [landing?_unfoldPath]

/-- The steps of the atoms in the rules that define a formula at a step.  A past fixpoint is
defined from the step before, where it may be a reference. -/
def definitionSteps (f : Formula) (s : Nat) : List Nat :=
  match f with
  | .binary _ lhs rhs => (lhs.landing? s).toList ++ (rhs.landing? s).toList
  | .temporal _ lhs rhs =>
    (lhs.landing? s).toList ++ (rhs.landing? s).toList ++ (f.landing? (s - 1)).toList
  | .modal _ arg => (arg.landing? s).toList ++ (f.landing? (s - 1)).toList
  | _ => []

/-- A formula at a step may ask for another one. -/
def AsksFor (asking asked : Formula × Nat) : Prop :=
  ∃ horizon, asked ∈ asking.1.requests horizon asking.2

/-- No definition of a formula that is asked for, directly or not, is wider than allowed. -/
def DefinedWithin (width : Nat) (f : Formula) (s : Nat) : Prop :=
  ∀ g t, Relation.ReflTransGen AsksFor (f, s) (g, t) → Near width (g.definitionSteps t)

theorem DefinedWithin.request {width horizon : Nat} {f : Formula} {s : Nat}
    (h : f.DefinedWithin width s) {request : Formula × Nat}
    (hmem : request ∈ f.requests horizon s) : request.1.DefinedWithin width request.2 :=
  fun g t hsteps => h g t (.head ⟨horizon, hmem⟩ hsteps)

/-- A formula is within a width if it is so itself and what it asks for is. -/
theorem DefinedWithin.of_requests {width : Nat} {f : Formula} {s : Nat}
    (hnear : Near width (f.definitionSteps s))
    (h : ∀ horizon, ∀ request ∈ f.requests horizon s, request.1.DefinedWithin width request.2) :
    f.DefinedWithin width s := by
  intro g t hsteps
  rcases Relation.ReflTransGen.cases_head hsteps with heq | ⟨request, ⟨horizon, hmem⟩, hsteps⟩
  · cases heq
    exact hnear
  · exact h horizon request hmem g t hsteps

theorem definedWithin_atom {width : Nat} {f : Formula} (hatom : f.isAtom = true) (s : Nat) :
    f.DefinedWithin width s := by
  cases f with
  | atom => exact .of_requests .nil nofun
  | _ => cases hatom

theorem definedWithin_hasNext (width s : Nat) : hasNext.DefinedWithin width s := by
  have hbool : ∀ t, (Formula.bool true).DefinedWithin width t := fun t => .of_requests .nil nofun
  refine .of_requests .nil fun horizon request hmem => ?_
  change request ∈ if s < horizon then [(Formula.bool true, s + 1)] else [] at hmem
  split at hmem
  · rw [List.mem_singleton.1 hmem]
    exact hbool _
  · cases hmem

/-- The disjuncts of a disjunction under a guard with atoms at some steps. -/
def DisjunctsWithin (width : Nat) (f : Formula) (s : Nat) (held : List Nat) : Prop :=
  (∀ d ∈ f.disjuncts, d.DefinedWithin width s) ∧
    Near width (held ++ f.disjuncts.flatMap fun d => (d.landing? s).toList)

/-- The formula is encoded at the step, under a guard with atoms at some steps. -/
def ExcludedWithin (width : Nat) (f : Formula) (s : Nat) (held : List Nat) : Prop :=
  f.DefinedWithin width s ∧ Near width (held ++ (f.landing? s).toList)

/-- No rule is wider than allowed that a formula comes to if it is required at a step, under
a guard with atoms at some steps. -/
def RequiredWithin (width : Nat) : Formula → Nat → List Nat → Prop
  | .atom _ _ _, s, held => Near width (s :: held)
  | .bool value, _, held => value = true ∨ Near width held
  | .binary .and lhs rhs, s, held =>
    lhs.RequiredWithin width s held ∧ rhs.RequiredWithin width s held
  | .binary .or lhs rhs, s, held => (Formula.binary .or lhs rhs).DisjunctsWithin width s held
  | .binary .implies lhs rhs, s, held =>
    lhs.DefinedWithin width s ∧ rhs.RequiredWithin width s (held ++ (lhs.landing? s).toList)
  | .binary .implied lhs rhs, s, held =>
    rhs.DefinedWithin width s ∧ lhs.RequiredWithin width s (held ++ (rhs.landing? s).toList)
  | .not arg, s, held => arg.ExcludedWithin width s held
  | .next arg weak, s, held =>
    (weak = true ∨ Near width held) ∧ arg.RequiredWithin width (s + 1) held
  -- what is required from a step on meets the atoms of its guard at every later step
  | .modal .release arg, s, held => ∀ t, s ≤ t → arg.RequiredWithin width t held
  | .modal .untl arg, s, held =>
    ∀ t, s ≤ t → arg.DefinedWithin width t ∧ arg.RequiredWithin width t held
  | .temporal .untl lhs rhs, s, held =>
    ∀ t, s ≤ t → (Formula.binary .or lhs rhs).DisjunctsWithin width t held ∧
      rhs.DefinedWithin width t ∧ rhs.RequiredWithin width t held
  | .temporal .release lhs rhs, s, held =>
    ∀ t, s ≤ t → lhs.DefinedWithin width t ∧ rhs.RequiredWithin width t held
  | .initial, s, held => Formula.initial.ExcludedWithin width s held
  | .final, s, held => Formula.final.ExcludedWithin width s held
  | .binary .equiv lhs rhs, s, held => (Formula.binary .equiv lhs rhs).ExcludedWithin width s held
  | .previous arg weak, s, held => (Formula.previous arg weak).ExcludedWithin width s held
  | .initially arg, s, held => (Formula.initially arg).ExcludedWithin width s held
  | .temporal op lhs rhs, s, held => (Formula.temporal op lhs rhs).ExcludedWithin width s held
  | .modal op arg, s, held => (Formula.modal op arg).ExcludedWithin width s held
  | .dynamic modality path arg, s, held =>
    (Formula.dynamic modality path arg).ExcludedWithin width s held

variable {width : Nat} {f : Formula} {s : Nat} {held : List Nat}

theorem RequiredWithin.excluded (h : f.RequiredWithin width s held) (hf : f.isExcluded = true) :
    f.ExcludedWithin width s held := by
  cases f with
  | initial | final | previous | initially | dynamic => exact h
  | binary op _ _ => cases op <;> first | exact h | cases hf
  | temporal op _ _ => cases op <;> first | exact h | cases hf
  | modal op _ => cases op <;> first | exact h | cases hf
  | _ => cases hf

end Formula

/-- All that is required, by a theory or a caller, is within the width. -/
structure Brief.Within (width : Nat) (brief : Brief) : Prop where
  staged : ∀ k stage f, (stage, f) ∈ brief.theory.current ⟨k, false⟩ → f.RequiredWithin width k []
  finals : ∀ k, ∀ f ∈ brief.theory.finals, f.RequiredWithin width k []
  demands : ∀ f s, (f, s) ∈ brief.demands → f.RequiredWithin width s []

/-! ## Atoms of a ledger -/

/-- Whether an atom in this role stands for a ground atom. -/
def Role.isGround : Role → Bool
  | .ground _ _ => true
  | _ => false

namespace Ledger

/-- If the atom stands for a ground atom, then at one of the steps. -/
def LiesIn (role : Nat → Role) (steps : List Nat) (a : Nat) : Prop :=
  ∀ f t, role a = .ground f t → t ∈ steps

theorem LiesIn.mono {role : Nat → Role} {steps more : List Nat} {a : Nat} (h : LiesIn role steps a)
    (hsub : steps ⊆ more) : LiesIn role more a := fun f t hrole => hsub (h f t hrole)

theorem LiesIn.of_role {role : Nat → Role} {steps : List Nat} {a : Nat} {r : Role}
    (hrole : role a = r) (hr : r.isGround = false) : LiesIn role steps a := by
  intro f t hground
  rw [← hrole, hground] at hr
  cases hr

section Sound

variable {role : Nat → Role} {due : List Boundary} {edge : Instant} {ledger : Ledger}
  {f g : Formula} {s t : Nat} {l y : Lit} {steps : List Nat}

namespace Sound

theorem liesIn_constant (h : Sound role due edge ledger) (value : Bool) :
    LiesIn role steps (Lit.constant value).atom := by
  have hidle : role (Lit.constant value).atom = .idle := by
    cases value <;> exact h.idle 1 (.inl (Nat.le_refl 1))
  exact .of_role hidle rfl

theorem liesIn_ground (h : Sound role due edge ledger) (hl : ledger.ground f s = some l) :
    LiesIn role [s] l.atom := by
  intro g t hrole
  rw [(h.ground f s l hl).2.2] at hrole
  cases hrole
  exact List.mem_singleton_self s

theorem liesIn_carrier (h : Sound role due edge ledger) {c : Carrier} (hc : c ∈ ledger.carriers) :
    LiesIn role steps c.lit.atom := .of_role (h.carriers c hc).2 rfl

/-- A shared literal lands where what it is shared with does. -/
theorem liesIn_source (h : Sound role due edge ledger)
    (hlit : ∀ g t turn l, f.RefersTo edge.index s g t turn → ledger.lit g t = some l →
      LiesIn role (g.landing? t).toList l.atom)
    (hatom : f.isAtom = false) (hy : Sheet.Source ledger.lit edge f s y) :
    LiesIn role (f.landing? s).toList y.atom := by
  rcases hy.constant_or_refersTo hatom with ⟨value, rfl⟩ | ⟨g, t, turn, l, hrefers, hl, rfl⟩
  · exact h.liesIn_constant value
  · have hsame : (l.signed turn).atom = l.atom := by cases turn <;> rfl
    rw [hsame, hrefers.landing?_eq]
    exact hlit g t turn l hrefers hl

/-- **A literal that is that of a ground atom is that of the atom where the formula lands.** -/
theorem liesIn_lit (h : Sound role due edge ledger) (hl : ledger.lit f s = some l) :
    LiesIn role (f.landing? s).toList l.atom := by
  refine h.induction_lits (P := fun f s l => LiesIn role (f.landing? s).toList l.atom) ?_ ?_ hl
  · intro f s l hatom hl
    cases f with
    | atom name args positive => exact h.liesIn_ground hl
    | _ => cases hatom
  · intro f s l hatom hf hs ih hbacked
    cases hbacked with
    | shared hy =>
      exact h.liesIn_source (fun g t _ l hrefers => ih g t (hrefers.mem_requests hf) l) hatom hy
    | chosen ha | awaited ha => exact .of_role ha rfl

theorem liesIn_hasNext (h : Sound role due edge ledger)
    (hl : ledger.lit Formula.hasNext s = some l) :
    LiesIn role steps l.atom := fun f t hrole => by cases h.liesIn_lit hl f t hrole

end Sound

/-- A connective with a literal has an atom of its own, and its rules have been posted. -/
theorem Sound.connective (h : Sound role due edge ledger) {op : Connective} {lhs rhs : Formula}
    (hl : ledger.lit (.binary op lhs rhs) s = some l) :
    ∃ a b, role l.atom ≠ .idle ∧ ledger.lit lhs s = some a ∧ ledger.lit rhs s = some b ∧
      ∀ rule ∈ Encoder.connectiveRules op l a b, ledger.Posted rule := by
  cases h.entry _ _ _ hl with
  | shared hy => cases hy.isDefinedAt
  | @chosen _ _ x hx =>
    cases (h.chosen_of_role hx).2.2 with
    | source hy _ => cases hy.isDefinedAt
    | definition hdef hposted =>
      cases hdef with
      | binary ha hb => exact ⟨_, _, by rw [hx]; exact Role.noConfusion, ha, hb, hposted⟩
      | fixpoint hfix => cases hfix

/-! ## Rules of definitions and of requirements -/

/-- The atoms of a guard lie at the steps that are held. -/
def GuardIn (role : Nat → Role) (held : List Nat) (guard : List Lit) : Prop :=
  ∀ l ∈ guard, LiesIn role held l.atom

namespace GuardIn

variable {guard : List Lit} {held : List Nat}

theorem nil : GuardIn role held [] := nofun

theorem concat {more : List Nat} (hguard : GuardIn role held guard)
    (hl : LiesIn role more l.atom) : GuardIn role (held ++ more) (guard ++ [l]) := by
  intro m hm
  rcases List.mem_append.1 hm with hm | hm
  · exact (hguard m hm).mono (List.subset_append_left _ _)
  · rw [List.mem_singleton.1 hm]
    exact hl.mono (List.subset_append_right _ _)

theorem concat_nowhere (hguard : GuardIn role held guard) (hl : LiesIn role [] l.atom) :
    GuardIn role held (guard ++ [l]) := by
  have hconcat := hguard.concat hl
  rwa [List.append_nil] at hconcat

theorem guardSet (hguard : GuardIn role held guard) : GuardIn role held (Encoder.guardSet guard) :=
  fun l hl => hguard l (Encoder.mem_of_mem_guardSet hl)

/-- The carrier that is added to a guard stands for no ground atom. -/
theorem stepGuard (h : Sound role due edge ledger) (hguard : GuardIn role held guard) {o t : Nat}
    {earlier : Option Lit} (hearlier : ledger.Earlier f o t earlier) :
    GuardIn role held (TemporalHorizon.stepGuard guard earlier) := by
  cases hearlier with
  | start => simpa [TemporalHorizon.stepGuard] using hguard
  | step _ hc => exact hguard.concat_nowhere (h.liesIn_carrier hc)

end GuardIn

variable {width : Nat} {held : List Nat} {guard guard' : List Lit}

/-- A requirement that is passed on stays within the width. -/
theorem Child.requiredWithin (h : Sound role due edge ledger)
    (hs : s ≤ edge.index)
    (hrequired : f.RequiredWithin width s held) (hguard : GuardIn role held guard)
    (hchild : Child edge ledger f s guard g t guard') :
    t ≤ edge.index ∧ ∃ held, g.RequiredWithin width t held ∧ GuardIn role held guard' := by
  cases hchild with
  | andLeft => exact ⟨hs, held, hrequired.1, hguard⟩
  | andRight => exact ⟨hs, held, hrequired.2, hguard⟩
  | implies hl | implied hl =>
    exact ⟨hs, _, hrequired.2, hguard.concat (h.liesIn_lit hl)⟩
  | next hreached =>
    obtain ⟨hlt, rfl⟩ := Instant.eq_of_after_reached hreached
    exact ⟨hlt, held, hrequired.2, hguard⟩
  | alwaysNow => exact ⟨hs, held, hrequired s (Nat.le_refl s), hguard⟩
  | alwaysNext =>
    exact ⟨hs, held, ⟨.inl rfl, fun t ht => hrequired t (Nat.le_of_succ_le ht)⟩, hguard⟩
  | operands hf hle ht hearlier =>
    cases hf
    exact ⟨ht, held, (hrequired t hle).1, hguard.stepGuard h hearlier⟩
  | settle hf hle ht hearlier hn =>
    have hn : LiesIn role [] _ := h.liesIn_hasNext hn
    refine ⟨ht, held, ?_, (hguard.stepGuard h hearlier).concat_nowhere hn⟩
    cases hf with
    | eventually => exact (hrequired t hle).2
    | untl => exact (hrequired t hle).2.2
  | hold hf hle ht hearlier =>
    cases hf
    exact ⟨ht, held, (hrequired t hle).2, hguard.stepGuard h hearlier⟩

/-- Every requirement that comes from within the width stays there. -/
theorem Warranted.requiredWithin (h : Sound role due edge ledger)
    {brief : Brief} (hbrief : brief.Within width)
    (hw : Warranted brief edge ledger f s guard) :
    s ≤ edge.index ∧ ∃ held, f.RequiredWithin width s held ∧ GuardIn role held guard := by
  induction hw with
  | staged hf hk => exact ⟨hk, [], hbrief.staged _ _ _ hf, .nil⟩
  | guarded hf hk hg =>
    have hg : LiesIn role [] _ := h.liesIn_lit hg
    exact ⟨hk, [], hbrief.finals _ _ hf, GuardIn.nil.concat_nowhere hg⟩
  | last hf _ => exact ⟨Nat.le_refl _, [], hbrief.finals _ _ hf, .nil⟩
  | demanded hf hs => exact ⟨hs, [], hbrief.demands _ _ hf, .nil⟩
  | child _ hchild ih =>
    obtain ⟨hs, held, hrequired, hguard⟩ := ih
    exact hchild.requiredWithin h hs hrequired hguard.guardSet

/-! ## All rules -/

end Sound
end Ledger
end TemporalHorizon

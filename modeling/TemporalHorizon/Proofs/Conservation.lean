import TemporalHorizon.Proofs.Acts
import TemporalHorizon.Proofs.Enumeration
import TemporalHorizon.Proofs.Truncation
import TemporalHorizon.Proofs.Truth

/-!
# A request for a literal is a conservative extension

The rules that come with a literal say nothing new about the atoms from before.  They choose
new atoms and fix them by constraints; a new ground atom is derived by no rule, and a new
external is free.  So a stable model from before goes on to exactly one stable model, once the
new externals have been given values, and every stable model arises in this way.

* `StableModel.split_iff`: what choices of new atoms, and constraints, make of the stable models
  of a program.
* `Conservative`: one program says the same as another about the atoms of the latter, and fixes
  all atoms that it has in addition, apart from some that are left to choose.
* `Ledger.Move.conservative`: one move is a conservative extension.  The rules of a definition
  are satisfied exactly if the defined atom has the value that the definition computes from the
  literals of the operands.  Constants have been simplified away, so they mean what they say even
  if some other rule derives the reserved atom.
* `Session.Reachable.conservative_encode`: a request for a literal is a conservative extension.
-/

namespace TemporalHorizon

section Exact

attribute [local instance] Arithmetic.exact

/-! ## Splitting a program -/

/-- A rule sees its own atoms only. -/
theorem Rule.reductSatisfiedBy_congr {rule : Rule} {atoms atoms' part part' : Set Nat}
    (hwhole : ∀ a ∈ rule.atoms, (a ∈ atoms ↔ a ∈ atoms'))
    (hpart : ∀ a ∈ rule.atoms, (a ∈ part ↔ a ∈ part')) :
    rule.ReductSatisfiedBy atoms part ↔ rule.ReductSatisfiedBy atoms' part' := by
  have hhead : ∀ a ∈ rule.head, a ∈ rule.atoms := fun a ha => List.mem_append_left _ ha
  have hbody : rule.ReductBody atoms part ↔ rule.ReductBody atoms' part' := by
    refine forall₂_congr fun l hl => ?_
    have hl : l.atom ∈ rule.atoms := List.mem_append_right _ (List.mem_map_of_mem hl)
    rw [hwhole _ hl, hpart _ hl]
  unfold Rule.ReductSatisfiedBy
  rw [hbody]
  refine imp_congr_right fun _ => ?_
  cases rule.kind with
  | disjunction => exact exists_congr fun a => and_congr_right fun ha => hpart a (hhead a ha)
  | choice =>
    refine forall₂_congr fun a ha => ?_
    rw [hwhole a (hhead a ha), hpart a (hhead a ha)]

theorem Rule.satisfiedBy_congr {rule : Rule} {atoms atoms' : Set Nat}
    (h : ∀ a ∈ rule.atoms, (a ∈ atoms ↔ a ∈ atoms')) :
    rule.SatisfiedBy atoms ↔ rule.SatisfiedBy atoms' := by
  rw [← reductSatisfiedBy_self, ← reductSatisfiedBy_self, reductSatisfiedBy_congr h h]

section Splitting

variable {program later : Program} {top : List Rule} {scope atoms : Set Nat}

/-- The stable models of a program with choices of new atoms, and constraints: they are
stable models of the program on its own atoms, contain no other atoms than chosen ones, and
satisfy the constraints. -/
theorem StableModel.split_iff (hscope : ∀ rule ∈ program.expanded, ∀ a ∈ rule.atoms, a ∈ scope)
    (hlater : ∀ rule, rule ∈ later.expanded ↔ rule ∈ program.expanded ∨ rule ∈ top)
    (htop : ∀ rule ∈ top, rule.head = [] ∨ ∃ a, a ∉ scope ∧ rule = .choice a) :
    StableModel later atoms ↔ StableModel program (atoms ∩ scope) ∧
      (∀ a ∈ atoms, a ∉ scope → Rule.choice a ∈ top) ∧
      ∀ rule ∈ top, rule.head = [] → rule.SatisfiedBy atoms := by
  simp only [Program.stableModel_iff_expanded, hlater, or_imp, forall_and]
  constructor
  · rintro ⟨⟨hbottom, hsat⟩, hminimal⟩
    have stable : StableModel ⟨program.expanded ++ top, []⟩ atoms :=
      ⟨List.forall_mem_append.2 ⟨hbottom, hsat⟩, fun part hpart hrules _ =>
        hminimal part hpart (List.forall_mem_append.1 hrules)⟩
    have hrestricted : StableModel ⟨program.expanded, []⟩ (atoms ∩ scope) := by
      refine StableModel.restrict hscope (fun rule hr => .inr fun a ha => .inl ?_)
        (List.forall_mem_nil _) stable
      rcases htop rule hr with hnil | ⟨b, hb, rfl⟩
      · rw [hnil] at ha
        cases ha
      · exact List.mem_singleton.1 ha ▸ hb
    refine ⟨⟨hrestricted.satisfied, fun part hpart hrules =>
      hrestricted.minimal part hpart hrules nofun⟩, fun a ha hnew => ?_,
      fun rule hr _ => hsat rule hr⟩
    -- A true atom is in a head, and those of the program are in its scope.
    obtain ⟨rule, hr, hhead⟩ := (stable.subset_candidates a ha).resolve_left nofun
    rcases List.mem_append.1 hr with hr | hr
    · exact absurd (hscope rule hr a (List.mem_append_left _ hhead)) hnew
    · rcases htop rule hr with hnil | ⟨b, -, rfl⟩
      · rw [hnil] at hhead
        cases hhead
      · exact List.mem_singleton.1 hhead ▸ hr
  · rintro ⟨⟨hbottom, hminimal⟩, hchosen, hconstraints⟩
    have hinter : ∀ {part : Set Nat}, ∀ rule ∈ program.expanded, ∀ a ∈ rule.atoms,
        (a ∈ part ∩ scope ↔ a ∈ part) := fun rule hr a ha =>
      ⟨And.left, fun h => ⟨h, hscope rule hr a ha⟩⟩
    refine ⟨⟨fun rule hr => (Rule.satisfiedBy_congr (hinter rule hr)).1 (hbottom rule hr),
      fun rule hr => ?_⟩, fun part hpart hrules => Set.Subset.antisymm hpart fun a ha => ?_⟩
    · rcases htop rule hr with hnil | ⟨a, -, rfl⟩
      · exact hconstraints rule hr hnil
      · exact nofun
    · by_cases hin : a ∈ scope
      · have hwhole : part ∩ scope = atoms ∩ scope :=
          hminimal _ (Set.inter_subset_inter_left _ hpart) fun rule hr =>
            (Rule.reductSatisfiedBy_congr (hinter rule hr) (hinter rule hr)).2 (hrules.1 rule hr)
        exact (hwhole.symm ▸ ⟨ha, hin⟩ : a ∈ part ∩ scope).1
      · exact hrules.2 _ (hchosen a ha hin) nofun a (List.mem_singleton.2 rfl) ha

end Splitting

/-! ## Conservative extensions -/

/-- A program goes on to a later one without saying anything new about the atoms in its
scope: each of its stable models, together with any choice of the fresh atoms, is extended by
exactly one stable model of the later program, and these are all. -/
structure Conservative (scope fresh : Set Nat) (program later : Program) : Prop where
  extend : ∀ atoms, StableModel program atoms → ∀ chosen ⊆ fresh,
    ∃! whole, StableModel later whole ∧ whole ∩ scope = atoms ∧ whole ∩ fresh = chosen
  restrict : ∀ whole, StableModel later whole → StableModel program (whole ∩ scope)

namespace Conservative

variable {scope scope' fresh fresh' : Set Nat} {a b c : Program}

/-- Nothing that is in the scope is fresh, so nothing is left to choose. -/
theorem refl (hscope : ∀ atoms, StableModel a atoms → atoms ⊆ scope) :
    Conservative scope ∅ a a := by
  have hinter : ∀ atoms, StableModel a atoms → atoms ∩ scope = atoms := fun atoms stable =>
    Set.inter_eq_left.2 (hscope atoms stable)
  refine ⟨fun atoms stable chosen hchosen => ⟨atoms, ⟨stable, hinter atoms stable, ?_⟩, ?_⟩,
    fun whole stable => (hinter whole stable).symm ▸ stable⟩
  · rw [Set.inter_empty, Set.subset_empty_iff.1 hchosen]
  · rintro whole ⟨hwhole, hin, -⟩
    exact (hinter whole hwhole).symm.trans hin

theorem trans (h : Conservative scope fresh a b) (h' : Conservative scope' fresh' b c)
    (hscope : scope ⊆ scope') (hfresh : fresh ⊆ scope') :
    Conservative scope (fresh ∪ fresh') a c := by
  -- What the middle program sees of the scope and of its own fresh atoms is all there is.
  have hinter : ∀ {part : Set Nat}, part ⊆ scope' → ∀ whole : Set Nat,
      whole ∩ scope' ∩ part = whole ∩ part := fun hpart whole => by
    rw [Set.inter_assoc, Set.inter_eq_right.2 hpart]
  refine ⟨fun atoms stable chosen hchosen => ?_, fun whole stable => ?_⟩
  · obtain ⟨middle, ⟨hmiddle, hin, hfirst⟩, hunique⟩ :=
      h.extend atoms stable (chosen ∩ fresh) Set.inter_subset_right
    obtain ⟨whole, ⟨hwhole, hin', hsecond⟩, hunique'⟩ :=
      h'.extend middle hmiddle (chosen ∩ fresh') Set.inter_subset_right
    refine ⟨whole, ⟨hwhole, ?_, ?_⟩, ?_⟩
    · rw [← hinter hscope, hin', hin]
    · rw [Set.inter_union_distrib_left, ← hinter hfresh, hin', hfirst, hsecond,
        ← Set.inter_union_distrib_left, Set.inter_eq_left.2 hchosen]
    · rintro other ⟨hother, hscoped, hfreed⟩
      have hsplit : ∀ {part : Set Nat}, part ⊆ fresh ∪ fresh' → other ∩ part = chosen ∩ part :=
        fun hpart => by rw [← hfreed, Set.inter_assoc, Set.inter_eq_right.2 hpart]
      refine hunique' other ⟨hother, ?_, hsplit Set.subset_union_right⟩
      refine hunique _ ⟨h'.restrict other hother, ?_, ?_⟩
      · rw [hinter hscope, hscoped]
      · rw [hinter hfresh, hsplit Set.subset_union_left]
  · rw [← hinter hscope]
    exact h.restrict _ (h'.restrict whole stable)

/-- The order of rules and free atoms does not matter. -/
theorem congr (h : Conservative scope fresh a b)
    (hrules : ∀ rule, rule ∈ b.expanded ↔ rule ∈ c.expanded) : Conservative scope fresh a c := by
  have hstable : ∀ atoms, StableModel b atoms ↔ StableModel c atoms := fun atoms => by
    simp only [Program.stableModel_iff_expanded, hrules]
  refine ⟨fun atoms stable chosen hchosen => ?_, fun whole stable =>
    h.restrict whole ((hstable whole).2 stable)⟩
  simpa only [hstable] using h.extend atoms stable chosen hchosen

/-- One atom is added, and its value is computed from the rest. -/
theorem of_value {atom : Nat} (hatom : atom ∉ scope) (value : Set Nat → Set Nat → Prop)
    (hscope : ∀ atoms, StableModel a atoms → atoms ⊆ scope)
    (hfresh : ∀ old chosen, ∀ other ∈ fresh, other = atom ∧ (value old chosen ↔ atom ∈ chosen))
    (hvalue : ∀ whole, StableModel b whole ↔ StableModel a (whole ∩ scope) ∧
      (∀ other ∈ whole, other ∉ scope → other = atom) ∧
      (atom ∈ whole ↔ value (whole ∩ scope) (whole ∩ fresh))) :
    Conservative scope fresh a b := by
  refine ⟨fun atoms stable chosen hchosen => ?_, fun whole stable => ((hvalue whole).1 stable).1⟩
  have hatoms := hscope atoms stable
  let whole : Set Nat := {other | other ∈ atoms ∨ other = atom ∧ value atoms chosen}
  have hin : whole ∩ scope = atoms := by
    ext other
    constructor
    · rintro ⟨hold | ⟨rfl, -⟩, hother⟩
      · exact hold
      · exact absurd hother hatom
    · exact fun hold => ⟨.inl hold, hatoms hold⟩
  have hnew : atom ∈ whole ↔ value atoms chosen :=
    ⟨fun h => (h.resolve_left fun hold => hatom (hatoms hold)).2, fun h => .inr ⟨rfl, h⟩⟩
  have hfreed : whole ∩ fresh = chosen := by
    ext other
    constructor
    · rintro ⟨hmem, hother⟩
      obtain ⟨rfl, hiff⟩ := hfresh atoms chosen other hother
      exact hiff.1 (hnew.1 hmem)
    · intro hmem
      obtain ⟨rfl, hiff⟩ := hfresh atoms chosen other (hchosen hmem)
      exact ⟨hnew.2 (hiff.2 hmem), hchosen hmem⟩
  refine ⟨whole, ⟨(hvalue whole).2 ⟨hin.symm ▸ stable, ?_, ?_⟩, hin, hfreed⟩, ?_⟩
  · rintro other (hold | ⟨rfl, -⟩) hother
    · exact absurd (hatoms hold) hother
    · rfl
  · rw [hin, hfreed, hnew]
  · rintro other ⟨hstable, hin', hfreed'⟩
    obtain ⟨-, honly, hiff⟩ := (hvalue other).1 hstable
    rw [hin', hfreed'] at hiff
    ext x
    by_cases hx : x ∈ scope
    · have hold : x ∈ other ∩ scope ↔ x ∈ whole ∩ scope := by rw [hin', hin]
      exact ⟨fun h => (hold.1 ⟨h, hx⟩).1, fun h => (hold.2 ⟨h, hx⟩).1⟩
    · constructor
      · intro hmem
        cases honly x hmem hx
        exact hnew.2 (hiff.1 hmem)
      · rintro (hold | ⟨rfl, hval⟩)
        · exact absurd (hatoms hold) hx
        · exact hiff.2 hval

end Conservative

/-! ## Definitions compute values -/

/-- Emitted constraints are satisfied where the constraints that they were made of are, with
the reserved atom read as false. -/
theorem Encoder.satisfied_simplified_iff {rules : List Rule}
    (hhead : ∀ raw ∈ rules, raw.head = []) (atoms : Set Nat) :
    (∀ rule ∈ rules.filterMap simplify?, rule.SatisfiedBy atoms) ↔
      ∀ raw ∈ rules, raw.SatisfiedBy (atoms \ {1}) := by
  have hone : 1 ∉ atoms \ {1} := fun h => h.2 rfl
  have hread : ∀ raw ∈ rules, ∀ rule, simplify? raw = some rule →
      (rule.SatisfiedBy atoms ↔ raw.SatisfiedBy (atoms \ {1})) := by
    intro raw hraw rule hsimple
    rw [← satisfiedBy_simplify hsimple hone]
    refine Rule.satisfiedBy_congr fun a ha => ⟨fun hmem => ⟨hmem, ?_⟩, And.left⟩
    obtain ⟨heq, hreduced⟩ := reduced_of_simplify? hsimple
    rcases List.mem_append.1 ha with ha | ha
    · rw [heq, hhead raw hraw] at ha
      cases ha
    · obtain ⟨l, hl, rfl⟩ := List.mem_map.1 ha
      exact hreduced l hl
  constructor
  · intro hall raw hraw
    cases hsimple : simplify? raw with
    | some rule =>
      exact (hread raw hraw rule hsimple).1 (hall rule (List.mem_filterMap.2 ⟨raw, hraw, hsimple⟩))
    | none =>
      -- The body has the constant false in it.
      intro _ hbody
      unfold simplify? at hsimple
      split at hsimple
      · next hfalse => exact absurd (hbody Lit.falsity hfalse) hone
      · cases hsimple
  · intro hall rule hr
    obtain ⟨raw, hraw, hsimple⟩ := List.mem_filterMap.1 hr
    exact (hread raw hraw rule hsimple).2 (hall raw hraw)

/-- The atoms that have been handed out. -/
def Ledger.scope (ledger : Ledger) : Set Nat := {a | 0 < a ∧ a < ledger.next}

theorem Lit.InScope.trueIn_inter {ledger : Ledger} {l : Lit} (h : l.InScope ledger.next)
    (atoms : Set Nat) : l.TrueIn (atoms ∩ ledger.scope) ↔ l.TrueIn atoms := by
  have hmem : l.atom ∈ atoms ∩ ledger.scope ↔ l.atom ∈ atoms :=
    ⟨And.left, fun hin => ⟨hin, h.pos, h.lt⟩⟩
  unfold TrueIn
  rw [hmem]

/-- The rules of a definition are satisfied exactly if the atom has the value that the
definition computes from literals in scope. -/
theorem Sheet.Definition.exists_value {ledger : Ledger} {f : Formula} {s : Nat} {x : Lit}
    {rules : List Rule} (h : Definition ledger.lit f s x rules)
    (hlit : ∀ g t l, ledger.lit g t = some l → l.InScope ledger.next) (htwo : 2 ≤ ledger.next) :
    ∃ value : Set Nat → Prop,
      (∀ atoms, (∀ rule ∈ rules, rule.SatisfiedBy atoms) ↔ (x.TrueIn atoms ↔ value atoms)) ∧
      ∀ atoms, value (atoms ∩ ledger.scope) ↔ value atoms := by
  cases h with
  | @binary op _ _ _ _ a b ha hb =>
    refine ⟨fun atoms => op.Holds (a.TrueIn atoms) (b.TrueIn atoms), fun atoms =>
      Encoder.connectiveRules_satisfied_iff op x a b, fun atoms => ?_⟩
    beta_reduce
    rw [(hlit _ _ _ ha).trueIn_inter, (hlit _ _ _ hb).trueIn_inter]
  | @fixpoint _ op _ _ _ _ left right adjacent _ hr hadj hl =>
    refine ⟨fun atoms =>
      op.Unfolds (left.TrueIn atoms) (right.TrueIn atoms) (adjacent.TrueIn atoms),
      fun atoms => Encoder.fixpointRules_satisfied_iff op x left right adjacent, fun atoms => ?_⟩
    beta_reduce
    rw [(inScope_left hlit htwo hl).trueIn_inter, (hlit _ _ _ hr).trueIn_inter,
      (inScope_adjacent hlit hadj).trueIn_inter]

/-! ## Moves -/

namespace Ledger

/-- The program of a ledger: its rules and some others, with the atoms free that wait at the
edge. -/
def program (ledger : Ledger) (others : List Rule) : Program :=
  ⟨ledger.rules ++ others, ledger.edge.boundaries.map fun b => b.lit.atom⟩

/-- A ledger goes on to a later one by a conservative extension: some atoms have been opened,
and they are all that is left to choose. -/
def Conserves (others : List Rule) (ledger later : Ledger) : Prop :=
  ∃ opened, (later.program others).free = (ledger.program others).free ++ opened ∧
    Conservative ledger.scope {a | a ∈ opened} (ledger.program others) (later.program others)

section Moves

variable {role : Nat → Role} {due : List Boundary} {edge : Instant} {ledger later : Ledger}
  {others : List Rule}

/-- Nothing has been opened. -/
theorem Conserves.of_none (hedge : later.edge = ledger.edge)
    (h : Conservative ledger.scope ∅ (ledger.program others) (later.program others)) :
    Conserves others ledger later := by
  refine ⟨[], ?_, ?_⟩
  · rw [List.append_nil, program, hedge]
    rfl
  · have hnone : {a : Nat | a ∈ []} = (∅ : Set Nat) :=
      Set.eq_empty_iff_forall_notMem.2 fun _ => nofun
    exact hnone ▸ h

theorem mem_expanded_program {rule : Rule} : rule ∈ (ledger.program others).expanded ↔
    rule ∈ ledger.rules ∨ rule ∈ others ∨
      ∃ b ∈ ledger.edge.boundaries, rule = .choice b.lit.atom := by
  simp [program, Program.expanded, eq_comm]

/-- Posted rules are added to the program. -/
theorem mem_expanded_post (others : List Rule) {raws : List Rule}
    (hrules : later.rules = (ledger.post raws).rules)
    (hedge : later.edge = ledger.edge) (rule : Rule) :
    rule ∈ (later.program others).expanded ↔
      rule ∈ (ledger.program others).expanded ∨ rule ∈ raws.filterMap Encoder.simplify? := by
  rw [mem_expanded_program, mem_expanded_program, hrules, hedge, Ledger.post, List.mem_append]
  exact or_right_comm

theorem Sound.boundary_inScope (h : Sound role due edge ledger) {b : Boundary}
    (hb : b ∈ ledger.edge.boundaries) : b.lit.atom ∈ ledger.scope := by
  obtain ⟨s, -, hrole⟩ := (h.boundaries b (List.mem_append_left _ hb)).role_eq
  have hused : role b.lit.atom ≠ .idle := by
    rw [hrole]
    exact Role.noConfusion
  have hscope := h.inScope_of_role hused
  exact ⟨hscope.pos, hscope.lt⟩

/-- The program of a sound ledger speaks of atoms that have been handed out. -/
theorem Sound.expanded_inScope (h : Sound role due edge ledger)
    (hothers : ∀ rule ∈ others, ∀ a ∈ rule.atoms, a ∈ ledger.scope) :
    ∀ rule ∈ (ledger.program others).expanded, ∀ a ∈ rule.atoms, a ∈ ledger.scope := by
  intro rule hr a ha
  rcases mem_expanded_program.1 hr with hr | hr | ⟨b, hb, rfl⟩
  · exact h.atoms_inScope hr a ha
  · exact hothers rule hr a ha
  · cases List.mem_singleton.1 ha
    exact h.boundary_inScope hb

theorem Sound.stableModel_subset (h : Sound role due edge ledger)
    (hothers : ∀ rule ∈ others, ∀ a ∈ rule.atoms, a ∈ ledger.scope) (atoms : Set Nat)
    (stable : StableModel (ledger.program others) atoms) : atoms ⊆ ledger.scope := by
  intro a ha
  rcases stable.subset_candidates a ha with hfree | ⟨rule, hr, hhead⟩
  · obtain ⟨b, hb, rfl⟩ := List.mem_map.1 hfree
    exact h.boundary_inScope hb
  · exact h.expanded_inScope hothers rule (List.mem_append_left _ hr) a
      (List.mem_append_left _ hhead)

theorem next_notMem_scope (ledger : Ledger) : ledger.next ∉ ledger.scope := fun h =>
  Nat.lt_irrefl _ h.2

/-- A new atom that is free. -/
theorem Sound.conservative_free (h : Sound role due edge ledger)
    (hothers : ∀ rule ∈ others, ∀ a ∈ rule.atoms, a ∈ ledger.scope) {b : Boundary}
    (hb : b.lit.atom = ledger.next) (hrules : later.rules = ledger.rules)
    (hedge : later.edge = ledger.edge.openBoundary b) :
    Conservative ledger.scope {ledger.next} (ledger.program others) (later.program others) := by
  have hlater : ∀ rule, rule ∈ (later.program others).expanded ↔
      rule ∈ (ledger.program others).expanded ∨ rule ∈ [Rule.choice ledger.next] := by
    intro rule
    rw [mem_expanded_program, mem_expanded_program, hrules, hedge, List.mem_singleton, ← hb]
    simp only [Edge.openBoundary, List.mem_append, List.mem_singleton, or_and_right, exists_or,
      exists_eq_left, or_assoc]
  refine .of_value ledger.next_notMem_scope (fun _ chosen => ledger.next ∈ chosen)
    (h.stableModel_subset hothers) (fun _ _ other hother => ⟨hother, Iff.rfl⟩) fun whole => ?_
  rw [StableModel.split_iff (h.expanded_inScope hothers) hlater fun rule hr =>
    .inr ⟨ledger.next, ledger.next_notMem_scope, List.mem_singleton.1 hr⟩]
  refine and_congr_right fun _ => and_congr ?_ (iff_of_true (fun rule hr hn => ?_) ?_)
  · refine forall₃_congr fun a _ _ => ?_
    rw [List.mem_singleton]
    exact ⟨fun heq => List.head_eq_of_cons_eq (congrArg Rule.head heq), congrArg Rule.choice⟩
  · rw [List.mem_singleton.1 hr] at hn
    cases hn
  · exact ⟨fun hmem => ⟨hmem, rfl⟩, And.left⟩

/-- A new atom that no rule derives, with constraints that do not hold without it. -/
theorem Sound.conservative_enter (h : Sound role due edge ledger)
    (hothers : ∀ rule ∈ others, ∀ a ∈ rule.atoms, a ∈ ledger.scope) {raws : List Rule}
    (hraws : ∀ raw ∈ raws, raw.head = [] ∧ ⟨ledger.next, false⟩ ∈ raw.body)
    (hrules : later.rules = (ledger.post raws).rules) (hedge : later.edge = ledger.edge) :
    Conservative ledger.scope ∅ (ledger.program others) (later.program others) := by
  have hnew : ∀ rule ∈ raws.filterMap Encoder.simplify?,
      rule.head = [] ∧ ⟨ledger.next, false⟩ ∈ rule.body := by
    intro rule hr
    obtain ⟨raw, hraw, hsimple⟩ := List.mem_filterMap.1 hr
    obtain ⟨-, hhead, hbody⟩ := Encoder.simplify?_eq_some hsimple
    rw [hhead, hbody]
    refine ⟨(hraws raw hraw).1, List.mem_filter.2 ⟨(hraws raw hraw).2, ?_⟩⟩
    exact decide_eq_true (by simp [Lit.truth])
  refine .of_value ledger.next_notMem_scope (fun _ _ => False)
    (h.stableModel_subset hothers) (fun _ _ _ => False.elim) fun whole => ?_
  rw [StableModel.split_iff (h.expanded_inScope hothers) (mem_expanded_post others hrules hedge)
    fun rule hr => .inl (hnew rule hr).1]
  refine and_congr_right fun _ => ⟨fun ⟨hold, _⟩ => ?_, fun ⟨honly, hfalse⟩ => ?_⟩
  · have hscope : ∀ a ∈ whole, a ∈ ledger.scope := by
      intro a ha
      by_contra hout
      cases (hnew _ (hold a ha hout)).1
    exact ⟨fun a ha hout => absurd (hscope a ha) hout,
      iff_of_false (fun hmem => ledger.next_notMem_scope (hscope _ hmem)) id⟩
  · refine ⟨fun a ha hout => absurd (honly a ha hout ▸ ha) hfalse.1, fun rule hr _ _ hbody => ?_⟩
    exact absurd (hbody _ (hnew rule hr).2) hfalse.1

/-- A new atom that is chosen, and fixed by a definition. -/
theorem Sound.conservative_define (h : Sound role due edge ledger)
    (hothers : ∀ rule ∈ others, ∀ a ∈ rule.atoms, a ∈ ledger.scope) {f : Formula} {s : Nat}
    {rules : List Rule} (hd : Sheet.Definition ledger.lit f s ⟨ledger.next, false⟩ rules)
    (hrules : later.rules = (ledger.post (.choice ledger.next :: rules)).rules)
    (hedge : later.edge = ledger.edge) :
    Conservative ledger.scope ∅ (ledger.program others) (later.program others) := by
  obtain ⟨value, hvalue, hlocal⟩ := hd.exists_value (fun _ _ _ => h.lit_inScope) h.next_ge
  have hnil : ∀ rule ∈ rules.filterMap Encoder.simplify?, rule.head = [] := by
    intro rule hr
    obtain ⟨raw, hraw, hsimple⟩ := List.mem_filterMap.1 hr
    rw [(Encoder.reduced_of_simplify? hsimple).1, hd.head_eq_nil hraw]
  have htop : (Rule.choice ledger.next :: rules).filterMap Encoder.simplify? =
      .choice ledger.next :: rules.filterMap Encoder.simplify? := rfl
  have hlater := mem_expanded_post others hrules hedge
  rw [htop] at hlater
  refine .of_value ledger.next_notMem_scope (fun old _ => value (old \ {1}))
    (h.stableModel_subset hothers) (fun _ _ _ => False.elim) fun whole => ?_
  rw [StableModel.split_iff (h.expanded_inScope hothers) hlater fun rule hr =>
    (List.mem_cons.1 hr).symm.imp (hnil rule) fun heq => ⟨_, ledger.next_notMem_scope, heq⟩]
  refine and_congr_right fun _ => and_congr ?_ ?_
  · refine forall₃_congr fun a _ _ => ⟨fun hmem => ?_, fun heq => heq ▸ List.mem_cons_self⟩
    rcases List.mem_cons.1 hmem with heq | hmem
    · exact List.head_eq_of_cons_eq (congrArg Rule.head heq)
    · cases hnil _ hmem
  · -- The constraints are satisfied exactly if the atom has the computed value.
    have hdefined : (∀ rule ∈ Rule.choice ledger.next :: rules.filterMap Encoder.simplify?,
        rule.head = [] → rule.SatisfiedBy whole) ↔
          ∀ rule ∈ rules.filterMap Encoder.simplify?, rule.SatisfiedBy whole := by
      rw [List.forall_mem_cons]
      exact ⟨fun hall rule hr => hall.2 rule hr (hnil rule hr), fun hall =>
        ⟨nofun, fun rule hr _ => hall rule hr⟩⟩
    have hone : ledger.next ≠ 1 := Nat.ne_of_gt h.next_ge
    have hnew : ledger.next ∈ whole \ {1} ↔ ledger.next ∈ whole :=
      ⟨And.left, fun hmem => ⟨hmem, hone⟩⟩
    rw [hdefined, Encoder.satisfied_simplified_iff fun raw => hd.head_eq_nil, hvalue,
      ← hlocal (whole \ {1}), Lit.trueIn_positive, hnew, Set.inter_comm, ← Set.inter_sdiff_assoc,
      Set.inter_comm]

/-- One move of a request, where no host literal is bound. -/
theorem Move.conservative (hm : Move edge ledger later) (h : Sound role due edge ledger)
    (hplain : Plain edge ledger)
    (hothers : ∀ rule ∈ others, ∀ a ∈ rule.atoms, a ∈ ledger.scope) :
    Conserves others ledger later := by
  have hcandidate : ∀ f s, ledger.candidate f s = ⟨ledger.next, false⟩ := fun f s => by
    rw [candidate, hplain.binding, Option.getD_none]
  cases hm with
  | enter _ _ _ =>
    refine .of_none rfl (h.conservative_enter hothers (fun raw hraw => ?_) rfl rfl)
    obtain ⟨other, -, rfl⟩ := List.mem_map.1 hraw
    exact ⟨rfl, List.mem_cons_self⟩
  | @share f s y _ _ _ _ _ =>
    have hrules : (ledger.share f s y).rules = ledger.rules := by
      rw [Ledger.share, tieRules, hplain.binding, post_nil]
      rfl
    have hsame : (ledger.share f s y).program others = ledger.program others := by
      rw [program, hrules]
      rfl
    refine .of_none rfl ?_
    rw [hsame]
    exact .refl (h.stableModel_subset hothers)
  | define _ _ _ hd =>
    rw [hcandidate] at hd
    refine .of_none rfl (h.conservative_define hothers hd ?_ rfl)
    rw [hcandidate]
    rfl
  | @await arg weak _ _ _ =>
    have hatom : (ledger.candidate (.next arg weak) edge.index).atom = ledger.next := by
      rw [hcandidate]
    refine ⟨[(ledger.candidate (.next arg weak) edge.index).atom], List.map_append, ?_⟩
    have hone : {a | a ∈ [(ledger.candidate (.next arg weak) edge.index).atom]} =
        {ledger.next} := by
      rw [hatom]
      ext a
      exact List.mem_singleton
    rw [hone]
    exact h.conservative_free hothers hatom rfl rfl

/-- All moves of a request. -/
theorem Moves.conservative (hm : Moves edge ledger later) (h : Sound role due edge ledger)
    (hplain : Plain edge ledger)
    (hothers : ∀ rule ∈ others, ∀ a ∈ rule.atoms, a ∈ ledger.scope) :
    Conserves others ledger later := by
  suffices hrun : (∃ role', Sound role' due edge later) ∧ Plain edge later ∧
      Conserves others ledger later from hrun.2.2
  induction hm with
  | refl => exact ⟨⟨role, h⟩, hplain, .of_none rfl (.refl (h.stableModel_subset hothers))⟩
  | @tail middle later hrun hmove ih =>
    obtain ⟨⟨role', h'⟩, hplain', opened, hopened, hfirst⟩ := ih
    have hscope : ledger.scope ⊆ middle.scope := fun a ha =>
      ⟨ha.1, Nat.lt_of_lt_of_le ha.2 (Moves.grows hrun).next⟩
    obtain ⟨role'', -, h''⟩ := hmove.sound h'
    obtain ⟨more, hmore, hsecond⟩ := hmove.conservative h' hplain' fun rule hr a ha =>
      hscope (hothers rule hr a ha)
    refine ⟨⟨role'', h''⟩, hmove.plain hplain', opened ++ more, ?_, ?_⟩
    · rw [hmore, hopened, List.append_assoc]
    · have hunion : {a | a ∈ opened ++ more} = {a | a ∈ opened} ∪ {a | a ∈ more} := by
        ext a
        exact List.mem_append
      rw [hunion]
      refine hfirst.trans hsecond hscope fun a ha => ?_
      have hfree : a ∈ (middle.program others).free := by
        rw [hopened]
        exact List.mem_append_right _ ha
      obtain ⟨b, hb, rfl⟩ := List.mem_map.1 hfree
      exact h'.boundary_inScope hb

end Moves
end Ledger

/-- A request that has been answered was to be granted. -/
theorem Unrolling.grants_of_encode {u later : Unrolling} {f : Formula} {s : Nat}
    {answer : Lit × List Rule} (h : Unrolling.encode f s u = .ok answer later) : u.Grants f s := by
  by_contra hgrants
  obtain ⟨cause, hrefused⟩ := Unrolling.checked_refused hgrants fun window => do
    let lit ← Unrolling.withEncoder (Encoder.encode window f s)
    return (lit, ← Unrolling.withEncoder Encoder.takeRules)
  have hrefused : Unrolling.encode f s u = _ := hrefused
  rw [h] at hrefused
  cases hrefused

namespace Session

variable {theory : Theory} {session : Session}

/-- What is free in a session is free in the program of its ledger. -/
theorem free_program (session : Session) (others : List Rule) :
    (session.ledger.program others).free = session.waiting := by
  simp only [Session.waiting, Edge.externals, List.map_map]
  rfl

theorem Proper.conservative_answer (h : Proper theory session) (hplain : session.bound = [])
    {f : Formula} {s : Nat} {l : Lit} {rules : List Rule} {unrolling : Unrolling}
    (hok : Unrolling.encode f s session.unrolling = .ok (l, rules) unrolling) {others : List Rule}
    (hothers : ∀ rule ∈ others, ∀ a ∈ rule.atoms, a ∈ session.allocated) :
    ∃ opened, (session.perform (.encode f s)).waiting = session.waiting ++ opened ∧
      Conservative session.allocated {a | a ∈ opened}
        ⟨session.rules ++ others, session.waiting⟩
        ⟨session.rules ++ others ++ rules, session.waiting ++ opened⟩ := by
  obtain ⟨hvalid, edge, hedge, hs⟩ := Unrolling.grants_of_encode hok
  obtain ⟨lit, after, hencode, ha⟩ := h.sane.encode_ok hvalid hedge hs
  have hlater := (session.perform (.encode f s)).free_program others
  simp only [Session.perform, hencode] at hlater ⊢
  rw [hok] at hencode
  cases hencode
  obtain ⟨role, hsound, -⟩ := h.standing.accounted
  obtain ⟨hunbound, -⟩ := h.standing.unbound hplain
  rw [hedge] at hsound hunbound
  have hmoves : Ledger.Moves edge session.ledger (after.ledger session.rules) := ha.moves
  obtain ⟨opened, hopened, hconservative⟩ := hmoves.conservative hsound hunbound hothers
  rw [session.free_program] at hopened
  refine ⟨opened, hlater.symm.trans hopened, ?_⟩
  have hbefore : session.ledger.program others = ⟨session.rules ++ others, session.waiting⟩ := by
    rw [← session.free_program others, ← h.ledger_rules]
    rfl
  rw [← hbefore]
  refine hconservative.congr fun rule => ?_
  rw [Program.expanded, hopened]
  simp only [Program.expanded, Ledger.program, List.mem_append, Encoder.ledger]
  tauto

end Session
end Exact

namespace Session

/-- **A request for a literal is a conservative extension.**  In a session without bindings,
whether it is open or closed, let a literal be asked for, and let other rules be given about the
atoms handed out so far.  The atoms that wait at the edge afterwards are those from before and
some newly opened ones.  For each stable model from before and each choice of the newly opened
atoms there is exactly one stable model of all rules that agrees with both, and every stable
model of all rules, cut down to the atoms from before, is a stable model from before.  The
session must be in range after the request. -/
theorem Reachable.conservative_encode [Arithmetic] {theory : Theory} {session : Session}
    (h : Reachable theory session) {f : Formula} {s : Nat}
    (hrange : (session.perform (.encode f s)).InRange) (hplain : session.bound = [])
    {l : Lit} {rules : List Rule} {unrolling : Unrolling}
    (hok : Unrolling.encode f s session.unrolling = .ok (l, rules) unrolling) {others : List Rule}
    (hothers : ∀ rule ∈ others, ∀ a ∈ rule.atoms, a ∈ session.allocated) :
    ∃ opened, (session.perform (.encode f s)).waiting = session.waiting ++ opened ∧
      Conservative session.allocated {a | a ∈ opened}
        ⟨session.rules ++ others, session.waiting⟩
        ⟨session.rules ++ others ++ rules, session.waiting ++ opened⟩ := by
  rw [encode_eq_exact hrange] at hok
  rw [perform_eq_exact (.inl hrange) trivial]
  exact (h.exact (hrange.of_perform trivial)).proper.conservative_answer hplain hok hothers

/-- A conjunction with a reference to the step that is still to come, beside rules that derive
the reserved atom from one of its operands. -/
theorem conservative_encode_and :
    let p := Formula.atom "p" [] true
    let f := Formula.binary .and p (.next p false)
    let session := after ⟨[]⟩ [.extend, .encode p 0]
    let others : List Rule := [.choice 2, .normal 1 [⟨2, false⟩]]
    Reachable ⟨[]⟩ session ∧ (session.perform (.encode f 0)).InRange ∧ session.bound = [] ∧
      (∀ rule ∈ others, ∀ a ∈ rule.atoms, a ∈ session.allocated) ∧ session.waiting = [] ∧
      ∃ l rules unrolling, Unrolling.encode f 0 session.unrolling = .ok (l, rules) unrolling ∧
        rules = [.choice 4, .constraint [⟨4, true⟩, ⟨2, false⟩, ⟨3, false⟩],
          .constraint [⟨4, false⟩, ⟨2, true⟩], .constraint [⟨4, false⟩, ⟨3, true⟩]] ∧
        Conservative session.allocated {a | a ∈ [3]} ⟨session.rules ++ others, session.waiting⟩
          ⟨session.rules ++ others ++ rules, session.waiting ++ [3]⟩ := by
  intro p f session others
  have hreach : Reachable ⟨[]⟩ session := reachable_after rfl (by decide)
  have hplain : session.bound = [] := by decide +kernel
  have hrange : (session.perform (.encode f 0)).InRange := by decide +kernel
  have hnext : session.unrolling.encoder.supply.next = 3 := by decide +kernel
  have hothers : ∀ rule ∈ others, ∀ a ∈ rule.atoms, a ∈ session.allocated := by
    unfold allocated
    rw [hnext]
    decide
  have hwaiting : session.waiting = [] := by decide +kernel
  have hlater : (session.perform (.encode f 0)).waiting = [3] := by decide +kernel
  have hrules : (match Unrolling.encode f 0 session.unrolling with
      | .ok answer _ => some answer.2
      | .error _ _ => none) =
        some [.choice 4, .constraint [⟨4, true⟩, ⟨2, false⟩, ⟨3, false⟩],
          .constraint [⟨4, false⟩, ⟨2, true⟩], .constraint [⟨4, false⟩, ⟨3, true⟩]] := by
    decide +kernel
  cases hok : Unrolling.encode f 0 session.unrolling with
  | error failure unrolling =>
    rw [hok] at hrules
    cases hrules
  | ok answer unrolling =>
    obtain ⟨l, rules⟩ := answer
    rw [hok] at hrules
    obtain ⟨opened, hopened, hconservative⟩ := hreach.conservative_encode hrange hplain hok hothers
    rw [hlater, hwaiting] at hopened
    cases hopened
    exact ⟨hreach, hrange, hplain, hothers, hwaiting, l, rules, unrolling, rfl,
      Option.some.inj hrules, hconservative⟩

end Session
end TemporalHorizon

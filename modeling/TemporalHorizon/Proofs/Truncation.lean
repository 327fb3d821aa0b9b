import Mathlib.Order.BooleanAlgebra.Set
import TemporalHorizon.Proofs.ExactSessions
import TemporalHorizon.Proofs.Models

/-!
# A truncated horizon is a sound over-approximation

What a stable model says about the atoms handed out before an extension is a stable
model of the rules before it, with the atoms free that were waiting at the edge.

The argument is that of splitting a program (`StableModel.restrict`).  It needs two
facts about an extension.  All atoms of the rules so far have been handed out, and a
new rule derives only atoms that are new or were waiting at the edge; the latter is
the invariant `Ahead` of the moves of an extension.  It rests on where requirements
go: a new one is for the new step, where no ground atom has been in use.

* `Session.Reachable.stableModel_inter_allocated`: a truncated horizon is a sound
  over-approximation.
* `Session.Reachable.derives_new_or_released`: an extension defines nothing in retrospect.
-/

namespace TemporalHorizon

section Exact

attribute [local instance] Arithmetic.exact

/-! ## Splitting a program -/

/-- A stable model of two parts of a program, cut down to the atoms of the first
part, is a stable model of that part if the second derives none of its atoms but
those that are free in it. -/
theorem StableModel.restrict {bottom top : List Rule} {free free' : List Nat} {scope : Set Nat}
    {atoms : Set Nat} (hbottom : ∀ rule ∈ bottom, ∀ a ∈ rule.atoms, a ∈ scope)
    (htop : ∀ rule ∈ top, rule ∈ bottom ∨ ∀ a ∈ rule.head, a ∉ scope ∨ a ∈ free)
    (hfree : ∀ a ∈ free', a ∉ scope) (stable : StableModel ⟨bottom ++ top, free'⟩ atoms) :
    StableModel ⟨bottom, free⟩ (atoms ∩ scope) := by
  -- A rule of the bottom does not see what lies outside.
  have hreduct : ∀ rule ∈ bottom, ∀ part ⊆ atoms ∩ scope,
      (rule.ReductSatisfiedBy (atoms ∩ scope) part ↔
        rule.ReductSatisfiedBy atoms (part ∪ (atoms \ scope))) := by
    intro rule hrule part hpart
    have hmem : ∀ a ∈ rule.atoms, (a ∈ part ↔ a ∈ part ∪ (atoms \ scope)) := fun a ha =>
      ⟨.inl, fun h => h.resolve_right fun hout => hout.2 (hbottom rule hrule a ha)⟩
    have hwhole : ∀ a ∈ rule.atoms, (a ∈ atoms ∩ scope ↔ a ∈ atoms) := fun a ha =>
      ⟨And.left, fun h => ⟨h, hbottom rule hrule a ha⟩⟩
    have hhead : ∀ a ∈ rule.head, a ∈ rule.atoms := fun a ha => List.mem_append_left _ ha
    have hbody : rule.ReductBody (atoms ∩ scope) part ↔
        rule.ReductBody atoms (part ∪ (atoms \ scope)) := by
      refine forall₂_congr fun l hl => ?_
      have hl : l.atom ∈ rule.atoms := List.mem_append_right _ (List.mem_map_of_mem hl)
      rw [hwhole _ hl, hmem _ hl]
    unfold Rule.ReductSatisfiedBy
    rw [hbody]
    refine imp_congr_right fun _ => ?_
    cases rule.kind with
    | disjunction => exact exists_congr fun a => and_congr_right fun ha => hmem a (hhead a ha)
    | choice =>
      refine forall₂_congr fun a ha => ?_
      rw [hwhole a (hhead a ha), hmem a (hhead a ha)]
  have hsplit : atoms ∩ scope ∪ (atoms \ scope) = atoms := Set.inter_union_sdiff atoms scope
  refine ⟨fun rule hrule => ?_, fun part hpart hrules hkept => ?_⟩
  · rw [← Rule.reductSatisfiedBy_self, hreduct rule hrule _ fun _ ha => ha, hsplit,
      Rule.reductSatisfiedBy_self]
    exact stable.satisfied rule (List.mem_append_left _ hrule)
  · have hbelow : part ∪ (atoms \ scope) ⊆ atoms := by
      rintro a (ha | ha)
      · exact (hpart ha).1
      · exact ha.1
    -- What the top derives is outside, or was free below.
    have hall : part ∪ (atoms \ scope) = atoms := by
      refine stable.minimal _ hbelow (fun rule hrule => ?_) fun a ha hmem => .inr ⟨hmem, hfree a ha⟩
      rcases List.mem_append.1 hrule with hrule | hrule
      · exact (hreduct rule hrule part hpart).1 (hrules rule hrule)
      · rcases htop rule hrule with hold | hnew
        · exact (hreduct rule hold part hpart).1 (hrules rule hold)
        · intro hbody
          have hkeep : ∀ a ∈ rule.head, a ∈ atoms → a ∈ part ∪ (atoms \ scope) := by
            intro a ha hmem
            by_cases hin : a ∈ scope
            · exact .inl (hkept a ((hnew a ha).resolve_left (not_not.2 hin)) ⟨hmem, hin⟩)
            · exact .inr ⟨hmem, hin⟩
          have htrue : rule.ReductBody atoms atoms := fun l hl =>
            Lit.KeptIn.trueIn hbelow (hbody l hl)
          have hself := (rule.reductSatisfiedBy_self atoms).2
            (stable.satisfied rule (List.mem_append_right _ hrule)) htrue
          cases hk : rule.kind with
          | disjunction =>
            simp only [hk] at hself ⊢
            obtain ⟨a, ha, hmem⟩ := hself
            exact ⟨a, ha, hkeep a ha hmem⟩
          | choice => simpa only [hk] using hkeep
    refine Set.Subset.antisymm hpart fun a ha => ?_
    have hmem : a ∈ part ∪ (atoms \ scope) := hall.symm ▸ ha.1
    exact hmem.resolve_right fun hout => hout.2 ha.2

/-! ## Atoms of rules -/

@[simp] theorem Lit.inScope_neg {next : Nat} {l : Lit} : (-l).InScope next ↔ l.InScope next :=
  ⟨fun h => ⟨h.pos, h.lt⟩, InScope.neg⟩

namespace Sheet

variable {lit : Sheet} {next : Nat} {f : Formula} {s : Nat} {l : Lit}

theorem inScope_adjacent (hlit : ∀ g t l, lit g t = some l → l.InScope next) {op : Fixpoint}
    (hl : lit.adjacent f op s = some l) : l.InScope next := by
  unfold adjacent at hl
  split at hl
  · exact hlit _ _ l hl
  · split at hl
    · cases hl
    · exact hlit _ _ l hl

theorem inScope_left (hlit : ∀ g t l, lit g t = some l → l.InScope next) (htwo : 2 ≤ next)
    {op : Fixpoint} {lhs : Option Formula} (hl : lit.left op lhs s = some l) :
    l.InScope next := by
  cases lhs with
  | some lhs => exact hlit _ _ l hl
  | none =>
    cases hl
    exact .constant htwo _

/-- A definition speaks of the atom of the formula and of literals of the sheet. -/
theorem Definition.inScope {x : Lit} {rules : List Rule} (h : Definition lit f s x rules)
    (hlit : ∀ g t l, lit g t = some l → l.InScope next) (htwo : 2 ≤ next) (hx : x.InScope next) :
    ∀ rule ∈ rules, ∀ l ∈ rule.body, l.InScope next := by
  cases h with
  | @binary op _ _ _ _ _ _ ha hb =>
    have ha := hlit _ _ _ ha
    have hb := hlit _ _ _ hb
    cases op <;>
      simp [Encoder.connectiveRules, Rule.disjunctionOf, Rule.constraint, Rule.disjunctive, hx, ha,
        hb]
  | fixpoint _ hr hadj hl =>
    have hr := hlit _ _ _ hr
    have hadj := inScope_adjacent hlit hadj
    have hl := inScope_left hlit htwo hl
    unfold Encoder.fixpointRules
    split <;> simp [Rule.constraint, Rule.disjunctive, hx, hr, hadj, hl]

theorem Sorted.inScope (hlit : ∀ g t l, lit g t = some l → l.InScope next) {fs : List Formula}
    {head : List Nat} {body : List Lit} (h : lit.Sorted s fs head body) :
    ∀ l ∈ body, l.InScope next := by
  induction h with
  | nil => nofun
  | atom _ _ _ ih => exact ih
  | falsity _ ih => exact ih
  | other _ _ hx _ ih =>
    intro l hl
    rcases List.mem_cons.1 hl with rfl | hl
    · exact (hlit _ _ _ hx).neg
    · exact ih l hl

end Sheet

namespace Ledger

section Scope

variable {role : Nat → Role} {due : List Boundary} {edge : Instant} {ledger : Ledger}

theorem Sound.body_inScope (h : Sound role due edge ledger) {raw : Rule}
    (hm : Emitted role edge ledger raw) : ∀ l ∈ raw.body, l.InScope ledger.next := by
  have hlit : ∀ g t l, ledger.lit g t = some l → l.InScope ledger.next := fun _ _ _ =>
    h.lit_inScope
  have hrole : ∀ {a : Nat}, role a ≠ .idle → Lit.InScope ledger.next ⟨a, false⟩ := fun ha =>
    h.inScope_of_role ha
  have hground : ∀ {f s l}, ledger.ground f s = some l → l.InScope ledger.next := fun hl =>
    h.inScope_of_role (by rw [(h.ground _ _ _ hl).2.2]; exact Role.noConfusion)
  cases hm with
  | choose _ | ending _ _ => nofun
  | equal ha hy hmem =>
    have hx := hrole (by rw [ha]; exact Role.noConfusion)
    have hy := h.source_inScope hy
    simp only [Rule.equal, List.mem_cons, List.not_mem_nil, or_false] at hmem
    rcases hmem with rfl | rfl <;> simp [Rule.constraint, Rule.disjunctive, hx, hy]
  | definition ha hd hmem =>
    exact hd.inScope hlit h.next_ge (hrole (by rw [ha]; exact Role.noConfusion)) _ hmem
  | opposite ha hb => simp [Rule.constraint, Rule.disjunctive, hground ha, hground hb]
  | tie _ _ hy => simp [Rule.normal, Rule.disjunctive, hlit _ _ _ hy]
  | carried _ _ hc =>
    have hc : Lit.InScope ledger.next _ := h.inScope_of_role
      (by rw [(h.carriers _ hc).2]; exact Role.noConfusion)
    simpa [Rule.normal, Rule.disjunctive] using hc
  | settled _ _ _ hw => simp [Rule.normal, Rule.disjunctive, hlit _ _ _ hw]
  | duty hreq hd =>
    have hguard := h.guards _ _ _ hreq
    cases hd with
    | atom _ _ | falsity | noStep _ => exact hguard
    | or hs =>
      intro l hl
      rcases List.mem_append.1 hl with hl | hl
      · exact hguard l hl
      · exact hs.inScope hlit l hl
    | not hx =>
      have hx := hlit _ _ _ hx
      intro l hl
      rcases List.mem_append.1 hl with hl | hl
      · exact hguard l hl
      · cases List.mem_singleton.1 hl
        exact hx
    | stepAfter hx | excluded _ hx =>
      have hx := hlit _ _ _ hx
      intro l hl
      rcases List.mem_append.1 hl with hl | hl
      · exact hguard l hl
      · cases List.mem_singleton.1 hl
        exact hx.neg

/-- All atoms of the rules of a sound ledger have been handed out. -/
theorem Sound.atoms_inScope (h : Sound role due edge ledger) {rule : Rule}
    (hr : rule ∈ ledger.rules) : ∀ a ∈ rule.atoms, 0 < a ∧ a < ledger.next := by
  obtain ⟨raw, hsimple, hm⟩ := h.rules rule hr
  obtain ⟨-, hhead, hbody⟩ := Encoder.simplify?_eq_some hsimple
  intro a ha
  rcases List.mem_append.1 ha with ha | ha
  · rw [hhead] at ha
    have huse := h.in_use (h.derives hm ha).role_ne_idle
    exact ⟨Nat.lt_of_succ_lt huse.1, huse.2⟩
  · obtain ⟨l, hl, rfl⟩ := List.mem_map.1 ha
    rw [hbody] at hl
    have hscope := h.body_inScope hm l (List.mem_filter.1 hl).1
    exact ⟨hscope.pos, hscope.lt⟩

end Scope

/-! ## What an extension derives -/

/-- An atom that an extension may derive: a new one, or one that was waiting. -/
def Open (base : Ledger) (a : Nat) : Prop :=
  base.next ≤ a ∨ ∃ b ∈ base.edge.boundaries, b.lit.atom = a

/-- While a step is being reached, the ground atoms at the step and the boundaries
are new, and the new rules derive only new atoms and those that were waiting. -/
structure Ahead (k : Nat) (base ledger : Ledger) : Prop where
  binding : ∀ f s, ledger.binding f s = none
  next_le : base.next ≤ ledger.next
  ground : ∀ f s l, ledger.ground f s = some l → k ≤ s → base.next ≤ l.atom
  boundaries : ∀ b ∈ ledger.edge.boundaries, base.next ≤ b.lit.atom
  added : ∃ more, ledger.rules = base.rules ++ more ∧
    ∀ rule ∈ more, ∀ a ∈ rule.head, base.Open a

namespace Ahead

variable {k : Nat} {base ledger later : Ledger} {brief : Brief} {edge : Instant}

theorem rules (h : Ahead k base ledger) :
    ∀ rule ∈ ledger.rules, rule ∈ base.rules ∨ ∀ a ∈ rule.head, base.Open a := by
  obtain ⟨more, hrules, hmore⟩ := h.added
  intro rule hr
  rw [hrules] at hr
  exact (List.mem_append.1 hr).imp_right (hmore rule)

theorem post (h : Ahead k base ledger) {rules : List Rule}
    (hrules : ∀ raw ∈ rules, ∀ a ∈ raw.head, base.Open a) : Ahead k base (ledger.post rules) := by
  obtain ⟨more, hold, hmore⟩ := h.added
  refine { h with added := ⟨more ++ rules.filterMap Encoder.simplify?, ?_, fun rule hr => ?_⟩ }
  · rw [← List.append_assoc, ← hold]
    rfl
  · rcases List.mem_append.1 hr with hr | hr
    · exact hmore rule hr
    · obtain ⟨raw, hraw, hsimple⟩ := List.mem_filterMap.1 hr
      rw [(Encoder.simplify?_eq_some hsimple).2.1]
      exact hrules raw hraw

theorem candidate_eq (h : Ahead k base ledger) (f : Formula) (s : Nat) :
    ledger.candidate f s = ⟨ledger.next, false⟩ := by
  rw [candidate, h.binding, Option.getD_none]

theorem write (h : Ahead k base ledger) (f : Formula) (s : Nat) (l : Lit) :
    Ahead k base (ledger.write f s l) :=
  { h with binding := put_none h.binding f s }

theorem claim (h : Ahead k base ledger) (f : Formula) (s : Nat) :
    Ahead k base (ledger.claim f s) := by
  refine { h.write f s (ledger.candidate f s) with next_le := ?_ }
  show base.next ≤ if (ledger.binding f s).isSome then ledger.next else ledger.next + 1
  rw [h.binding]
  exact Nat.le_succ_of_le h.next_le

theorem move (h : Ahead k base ledger) (hm : Move edge ledger later) : Ahead k base later := by
  cases hm with
  | @enter f s _ _ _ =>
    have hentered : Ahead k base
        { ledger with
          ground := ledger.ground.put f s (some ⟨ledger.next, false⟩)
          next := ledger.next + 1 } := by
      refine { h with ground := fun g t l hl hk => ?_, next_le := Nat.le_succ_of_le h.next_le }
      by_cases heq : g = f ∧ t = s
      · rw [heq.1, heq.2] at hl
        have hl : some _ = some l := (Sheet.put_self _ _ _ _).symm.trans hl
        cases hl
        exact h.next_le
      · exact h.ground g t l ((Sheet.put_of_ne heq).symm.trans hl) hk
    refine hentered.post fun raw hraw a ha => ?_
    obtain ⟨other, -, rfl⟩ := List.mem_map.1 hraw
    cases ha
  | @share f s y _ _ _ _ _ =>
    refine (h.write f s _).post fun raw hraw => ?_
    rw [tieRules, h.binding] at hraw
    cases hraw
  | @define f s rules _ _ _ hd =>
    refine (h.claim f s).post fun raw hraw a ha => ?_
    rcases List.mem_cons.1 hraw with rfl | hraw
    · cases List.mem_singleton.1 ha
      rw [h.candidate_eq]
      exact .inl h.next_le
    · rw [hd.head_eq_nil hraw] at ha
      cases ha
  | @await arg weak _ _ _ =>
    refine { h.claim (.next arg weak) edge.index with boundaries := fun b hb => ?_ }
    rcases List.mem_append.1 hb with hb | hb
    · exact h.boundaries b hb
    · cases List.mem_singleton.1 hb
      rw [h.candidate_eq]
      exact h.next_le

/-- A rule of a requirement at the step derives only new atoms. -/
theorem head_of_duty (h : Ahead k base ledger) {f : Formula} {s : Nat} {guard : List Lit}
    {rule : Rule} (hs : k ≤ s) (hd : Duty edge ledger f s guard rule) :
    ∀ a ∈ rule.head, base.Open a := by
  intro a ha
  cases hd with
  | atom _ hl =>
    cases List.mem_singleton.1 ha
    exact .inl (h.ground _ _ _ hl hs)
  | or hsorted =>
    obtain ⟨g, l, -, hg, hl, rfl⟩ := hsorted.mem_head ha
    rw [Ledger.lit, if_pos hg] at hl
    exact .inl (h.ground _ _ _ hl hs)
  | falsity | not _ | stepAfter _ | noStep _ | excluded _ _ => cases ha

theorem headMove (h : Ahead k base ledger) (hm : HeadMove brief edge k ledger later) :
    Ahead k base later := by
  cases hm with
  | body hm => exact h.move hm
  | demand _ _ _ _ => exact { h with }
  | duty hs _ hd =>
    refine h.post fun raw hraw => ?_
    cases List.mem_singleton.1 hraw
    exact h.head_of_duty hs hd
  | defer _ _ _ => exact { h with }
  | @carry f op lhs rhs o guard t earlier w _ _ _ _ _ _ =>
    have hcarried : Ahead k base
        { ledger with
          next := ledger.next + 1
          carriers := ledger.carriers ++ [Carrier.mk f o t ⟨ledger.next, false⟩] } :=
      { h with next_le := Nat.le_succ_of_le h.next_le }
    refine hcarried.post fun raw hraw a ha => .inl ?_
    rcases List.mem_append.1 hraw with hraw | hraw
    · obtain ⟨c, -, rfl⟩ := List.mem_map.1 hraw
      cases List.mem_singleton.1 ha
      exact h.next_le
    · cases List.mem_singleton.1 hraw
      cases List.mem_singleton.1 ha
      exact h.next_le
  | rest _ _ _ _ _ _ => exact { h with }

/-- The moves of an extension keep to new atoms and those that were waiting. -/
theorem reachMoves {a b : List Boundary × Ledger} (hm : ReachMoves brief edge k a b)
    (hdue : ∀ due ∈ a.1, due ∈ base.edge.boundaries) (h : Ahead k base a.2) :
    (∀ due ∈ b.1, due ∈ base.edge.boundaries) ∧ Ahead k base b.2 := by
  induction hm with
  | refl => exact ⟨hdue, h⟩
  | tail _ hmove ih =>
    obtain ⟨hdue, h⟩ := ih
    cases hmove with
    | head hm => exact ⟨hdue, h.headMove hm⟩
    | tie _ =>
      refine ⟨fun b hb => hdue b (List.mem_cons_of_mem _ hb), h.post fun raw hraw a ha => ?_⟩
      cases List.mem_singleton.1 hraw
      cases List.mem_singleton.1 ha
      exact .inr ⟨_, hdue _ List.mem_cons_self, rfl⟩
    | settle _ _ => exact ⟨hdue, { h with }⟩

/-- Between two requests without bindings nothing is ahead of the next step. -/
theorem standing {theory : Theory} {log : Log} {edge : Option Instant}
    (h : Standing theory log edge ledger) (hplain : log.bound = []) :
    Ahead (stepAfter edge) ledger ledger.cleared := by
  obtain ⟨hplain, hnone⟩ := h.unbound hplain
  refine ⟨hplain.binding, Nat.le_refl _, fun f s l hl hk => ?_, nofun,
    ⟨[], (List.append_nil _).symm, nofun⟩⟩
  have hl : ledger.ground f s = some l := hl
  cases edge with
  | none =>
    rw [hnone rfl] at hl
    cases hl
  | some edge =>
    have hs : s ≤ edge.index := hplain.ground f s l hl
    have hk : edge.index + 1 ≤ s := hk
    omega

end Ahead
end Ledger

namespace Session

/-- The atoms that have been handed out. -/
def allocated (session : Session) : Set Nat :=
  {a | 0 < a ∧ a < session.unrolling.encoder.supply.next}

theorem Proper.extend_inter_allocated {theory : Theory} {session : Session}
    (h : Proper theory session) (hplain : session.bound = [])
    (hopen : session.unrolling.isClosed = false) :
    ∃ batch unrolling, Unrolling.extend session.unrolling = .ok batch unrolling ∧
      ∀ (others : List Rule) (atoms : Set Nat),
        (∀ rule ∈ others, ∀ a ∈ rule.atoms, a ∈ session.allocated) →
        StableModel ⟨session.rules ++ others ++ batch.rules, batch.waiting⟩ atoms →
        StableModel ⟨session.rules ++ others, session.waiting⟩ (atoms ∩ session.allocated) := by
  have hstep := session.unrolling.nextStep_eq
  have hexpects := h.standing.poised.expects (Unrolling.last_of_isClosed hopen)
  rw [← hstep] at hexpects
  obtain ⟨released, after, hok, -, hext, -⟩ := Encoder.Does.exists_ok
    (.reachStep theory _) (@Encoder.reachStep_does session.rules ⟨theory, session.demands⟩ _ _ _
      h.tidy h.accepted hexpects (Nat.le_refl _))
  rw [← h.theory_eq] at hok
  obtain ⟨history, hextend⟩ := Unrolling.extend_ok hopen hok
  refine ⟨_, _, hextend, fun others atoms hothers stable => ?_⟩
  have hahead : Ledger.Ahead session.unrolling.nextStep session.ledger (after.ledger session.rules) := by
    have hstart := Ledger.Ahead.standing h.standing hplain
    rw [← hstep] at hstart
    exact (Ledger.Ahead.reachMoves hext.moves (fun _ hb => hb) hstart).2
  obtain ⟨role, hsound, -⟩ := h.standing.accounted
  have hnew : ∀ {a : Nat}, session.ledger.next ≤ a → a ∉ session.allocated := fun hle hin =>
    absurd hin.2 (Nat.not_lt_of_le hle)
  refine StableModel.restrict (fun rule hr => ?_) (fun rule hr => ?_) (fun a ha => ?_) stable
  · rcases List.mem_append.1 hr with hr | hr
    · exact hsound.atoms_inScope (h.ledger_rules.symm ▸ hr)
    · exact hothers rule hr
  · rcases hahead.rules rule (List.mem_append_right _ hr) with hold | hnewRule
    · exact .inl (List.mem_append_left _ (h.ledger_rules ▸ hold))
    · refine .inr fun a ha => ?_
      rcases hnewRule a ha with hle | ⟨b, hb, rfl⟩
      · exact .inl (hnew hle)
      · exact .inr (List.mem_map.2 ⟨_, List.mem_map.2 ⟨b, hb, rfl⟩, rfl⟩)
  · obtain ⟨e, he, rfl⟩ := List.mem_map.1 ha
    obtain ⟨b, hb, rfl⟩ := List.mem_map.1 he
    exact hnew (hahead.boundaries b hb)

/-- An extension that succeeds has kept to new atoms and those that were waiting, all of
which it has released. -/
theorem Proper.ahead_of_extend {theory : Theory} {session : Session}
    (h : Proper theory session) (hplain : session.bound = []) {batch : Batch}
    {unrolling : Unrolling} (hextend : Unrolling.extend session.unrolling = .ok batch unrolling) :
    ∃ after : Encoder, batch.rules = after.rules ∧
      batch.released = session.unrolling.encoder.edge.boundaries.map Boundary.lit ∧
      Ledger.Ahead session.unrolling.nextStep session.ledger (after.ledger session.rules) := by
  have hopen : session.unrolling.isClosed = false := by
    rw [Bool.eq_false_iff]
    intro hclosed
    obtain ⟨cause, hrefused⟩ := Unrolling.extend_refused hclosed
    rw [hextend] at hrefused
    cases hrefused
  have hstep := session.unrolling.nextStep_eq
  have hexpects := h.standing.poised.expects (Unrolling.last_of_isClosed hopen)
  rw [← hstep] at hexpects
  obtain ⟨released, after, hok, rfl, hext, -⟩ := Encoder.Does.exists_ok (.reachStep theory _)
    (@Encoder.reachStep_does session.rules ⟨theory, session.demands⟩ _ _ _ h.tidy h.accepted
      hexpects (Nat.le_refl _))
  rw [← h.theory_eq] at hok
  obtain ⟨history, hbatch⟩ := Unrolling.extend_ok hopen hok
  rw [hextend] at hbatch
  cases hbatch
  have hstart := Ledger.Ahead.standing h.standing hplain
  rw [← hstep] at hstart
  exact ⟨after, rfl, rfl, (Ledger.Ahead.reachMoves hext.moves (fun _ hb => hb) hstart).2⟩

theorem Proper.head_of_extend {theory : Theory} {session : Session}
    (h : Proper theory session) (hplain : session.bound = []) {batch : Batch}
    {unrolling : Unrolling} (hextend : Unrolling.extend session.unrolling = .ok batch unrolling) :
    ∀ rule ∈ batch.rules, ∀ a ∈ rule.head,
      (session.unrolling.encoder.supply.next ≤ a ∧ a < unrolling.encoder.supply.next) ∨
        ∃ l ∈ batch.released, l.atom = a := by
  intro rule hrule a ha
  obtain ⟨after, hrules, hreleased, hahead⟩ := h.ahead_of_extend hplain hextend
  obtain ⟨more, hadded, hmore⟩ := hahead.added
  rw [h.ledger_rules] at hadded
  have hnew : rule ∈ more := List.append_cancel_left hadded ▸ hrules ▸ hrule
  rcases hmore rule hnew a ha with hle | ⟨b, hb, rfl⟩
  · -- The atom is in scope, as all atoms of the rules of the session after the extension.
    have hlater : Proper theory (session.perform .extend) := h.perform trivial
    have hperform : session.perform .extend =
        { session with unrolling := unrolling, rules := session.rules ++ batch.rules } := by
      simp only [Session.perform, hextend]
    obtain ⟨role, hsound, -⟩ := hlater.standing.accounted
    have hin : rule ∈ (session.perform .extend).ledger.rules := by
      rw [hlater.ledger_rules, hperform]
      exact List.mem_append_right _ hrule
    have hscope := hsound.atoms_inScope hin a (List.mem_append_left _ ha)
    rw [hperform] at hscope
    exact .inl ⟨hle, hscope.2⟩
  · exact .inr ⟨b.lit, hreleased ▸ List.mem_map_of_mem hb, rfl⟩

end Session
end Exact

namespace Session

/-! ## The next extension -/

/-- **A truncated horizon is a sound over-approximation.**  In a session without
bindings the next extension succeeds, and a stable model of the rules after it, cut
down to the atoms from before, is a stable model of the rules before it.  The session
must be in range after the extension. -/
theorem Reachable.stableModel_inter_allocated [Arithmetic] {theory : Theory} {session : Session}
    (h : Reachable theory session) (hrange : (session.perform .extend).InRange)
    (hplain : session.bound = []) (hopen : session.unrolling.isClosed = false) :
    ∃ batch unrolling, Unrolling.extend session.unrolling = .ok batch unrolling ∧
      ∀ (others : List Rule) (atoms : Set Nat),
        (∀ rule ∈ others, ∀ a ∈ rule.atoms, a ∈ session.allocated) →
        StableModel ⟨session.rules ++ others ++ batch.rules, batch.waiting⟩ atoms →
        StableModel ⟨session.rules ++ others, session.waiting⟩ (atoms ∩ session.allocated) := by
  rw [extend_eq_exact hrange]
  exact (h.exact (hrange.of_perform trivial)).proper.extend_inter_allocated hplain hopen

/-- An atom that is required at every step, and a reference to it at the step that is
still to come. -/
theorem stableModel_inter_allocated_always :
    let p := Formula.atom "p" [] true
    let theory : Theory := ⟨[(.always, p)]⟩
    let session := after theory [.extend, .encode (.next p false) 0]
    Reachable theory session ∧ session.bound = [] ∧ session.unrolling.isClosed = false ∧
      (session.perform .extend).InRange ∧ session.waiting = [3] ∧
      ∃ batch unrolling, Unrolling.extend session.unrolling = .ok batch unrolling ∧
        batch.rules = [.normal 3 [⟨4, false⟩], .fact 4] ∧
        StableModel ⟨session.rules ++ [] ++ batch.rules, batch.waiting⟩ {2, 3, 4} ∧
        StableModel ⟨session.rules ++ [], session.waiting⟩ ({2, 3, 4} ∩ session.allocated) := by
  intro p theory session
  have hreach : Reachable theory session := reachable_after rfl (by decide)
  have hplain : session.bound = [] := by decide +kernel
  have hopen : session.unrolling.isClosed = false := by decide +kernel
  have hrange : (session.perform .extend).InRange := by decide +kernel
  have hwaiting : session.waiting = [3] := by decide +kernel
  have hrules : session.rules = [.fact 2] := by decide +kernel
  obtain ⟨batch, unrolling, hextend, hrestrict⟩ :=
    hreach.stableModel_inter_allocated hrange hplain hopen
  have hbatch : (Request.batch? session.unrolling .extend).map
      (fun batch => (batch.rules, batch.waiting)) =
        some ([.normal 3 [⟨4, false⟩], .fact 4], []) := by decide +kernel
  rw [Request.batch?, hextend] at hbatch
  obtain ⟨hnew, hfree⟩ := Prod.mk.inj (Option.some.inj hbatch)
  have hstable : StableModel ⟨session.rules ++ [] ++ batch.rules, batch.waiting⟩ {2, 3, 4} := by
    rw [hrules, hnew, hfree]
    refine ⟨?_, fun part hpart hreduct _ => Set.Subset.antisymm hpart ?_⟩
    · intro rule hr
      simp only [List.append_nil, List.cons_append, List.nil_append, List.mem_cons,
        List.not_mem_nil, or_false] at hr
      rcases hr with rfl | rfl | rfl
      · exact (Rule.satisfiedBy_normal 2 _).2 fun _ => .inl rfl
      · exact (Rule.satisfiedBy_normal 3 _).2 fun _ => .inr (.inl rfl)
      · exact (Rule.satisfiedBy_normal 4 _).2 fun _ => .inr (.inr rfl)
    · have hnormal : ∀ a body, Rule.normal a body ∈ [Rule.fact 2, .normal 3 [⟨4, false⟩], .fact 4] →
          (∀ l ∈ body, l.KeptIn {2, 3, 4} part) → a ∈ part := by
        intro a body hmem hbody
        obtain ⟨b, hb, hpart⟩ := hreduct _ hmem hbody
        cases List.mem_singleton.1 hb
        exact hpart
      have hnil : ∀ l ∈ ([] : List Lit), l.KeptIn {2, 3, 4} part := List.forall_mem_nil _
      have hfour : 4 ∈ part := hnormal 4 [] (by decide) hnil
      rintro a (rfl | rfl | rfl)
      · exact hnormal 2 [] (by decide) hnil
      · refine hnormal 3 [⟨4, false⟩] (by decide) fun l hl => ?_
        cases List.mem_singleton.1 hl
        exact hfour
      · exact hfour
  exact ⟨hreach, hplain, hopen, hrange, hwaiting, batch, unrolling, hextend, hnew, hstable,
    hrestrict [] {2, 3, 4} (List.forall_mem_nil _) hstable⟩

/-- **Nothing is defined in retrospect.**  In a session without bindings, a rule of an
extension derives only atoms that this extension has handed out and atoms of literals
that it has released.  The session must be in range after the extension. -/
theorem Reachable.derives_new_or_released [Arithmetic] {theory : Theory} {session : Session}
    (h : Reachable theory session) (hrange : (session.perform .extend).InRange)
    (hplain : session.bound = []) {batch : Batch} {unrolling : Unrolling}
    (hextend : Unrolling.extend session.unrolling = .ok batch unrolling) :
    ∀ rule ∈ batch.rules, ∀ a ∈ rule.head,
      (session.unrolling.encoder.supply.next ≤ a ∧ a < unrolling.encoder.supply.next) ∨
        ∃ l ∈ batch.released, l.atom = a := by
  rw [extend_eq_exact hrange] at hextend
  exact (h.exact (hrange.of_perform trivial)).proper.head_of_extend hplain hextend

/-- A required atom at the new step, and a reference to it that was waiting: the one is
new, the other is released. -/
theorem derives_new_or_released_always :
    let p := Formula.atom "p" [] true
    let theory : Theory := ⟨[(.always, p)]⟩
    let session := after theory [.extend, .encode (.next p false) 0]
    Reachable theory session ∧ (session.perform .extend).InRange ∧ session.bound = [] ∧
      session.unrolling.encoder.supply.next = 4 ∧
      ∃ batch unrolling, Unrolling.extend session.unrolling = .ok batch unrolling ∧
        batch.rules = [.normal 3 [⟨4, false⟩], .fact 4] ∧ batch.released = [⟨3, false⟩] ∧
        ∀ rule ∈ batch.rules, ∀ a ∈ rule.head,
          (session.unrolling.encoder.supply.next ≤ a ∧ a < unrolling.encoder.supply.next) ∨
            ∃ l ∈ batch.released, l.atom = a := by
  intro p theory session
  have hreach : Reachable theory session := reachable_after rfl (by decide)
  have hrange : (session.perform .extend).InRange := by decide +kernel
  have hplain : session.bound = [] := by decide +kernel
  have hbatch : (Request.batch? session.unrolling .extend).map
      (fun batch => (batch.rules, batch.released)) =
        some ([.normal 3 [⟨4, false⟩], .fact 4], [⟨3, false⟩]) := by decide +kernel
  rw [Request.batch?] at hbatch
  cases hextend : Unrolling.extend session.unrolling with
  | error cause unrolling =>
    rw [hextend] at hbatch
    cases hbatch
  | ok batch unrolling =>
    rw [hextend] at hbatch
    obtain ⟨hrules, hreleased⟩ := Prod.mk.inj (Option.some.inj hbatch)
    exact ⟨hreach, hrange, hplain, by decide +kernel, batch, unrolling, rfl, hrules, hreleased,
      hreach.derives_new_or_released hrange hplain hextend⟩

end Session
end TemporalHorizon

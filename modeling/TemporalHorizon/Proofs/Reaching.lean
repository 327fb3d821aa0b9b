import TemporalHorizon.Proofs.Fulfilment
import TemporalHorizon.Unrolling

/-!
# Reaching a step and closing the horizon

When a step is reached, the boundaries that were waiting for it are tied to the
literals of their arguments, the postponed requirements are met, the instances are
unrolled, and the formulas of the stages are required.  `ReachMove` lists what all
this can do to a ledger, together with the boundaries that still have to be tied.

Between two operations a ledger is `Orderly`: what waits at the edge waits for the
step after it, and it belongs to a requirement on the list.  That is what makes the
requirements on the list come true one step further on: `reachStep_does` says that
all of them are met at the new edge if they were met at the old one, and
`closeStep_does` says the same for the edge that is declared to be the last step.
-/

namespace TemporalHorizon

attribute [local instance] Arithmetic.exact

/-! ## The step after the edge -/

/-- From a reached step a next leads to the step after the edge at most. -/
theorem Instant.pending_eq {edge : Instant} {s t : Nat} (h : edge.after s = .pending t)
    (hs : s ≤ edge.index) : t = edge.index + 1 := by
  rw [Instant.after, Window.shift_one, Window.next] at h
  split at h
  · cases h
  · next hreached =>
    split at h
    · cases h
    · have ht := Position.pending.inj h
      have hreached : ¬ s + 1 ≤ edge.index := hreached
      omega

/-- The step that was still to come is reached one step further on. -/
theorem Instant.after_succ {i s t : Nat} (h : (Instant.mk i false).after s = .pending t)
    (hs : s ≤ i) : (Instant.mk (i + 1) false).after s = .reached (i + 1) := by
  rw [Instant.after, Window.shift_one, Window.next] at h ⊢
  dsimp only at h ⊢
  split at h
  · cases h
  · rw [if_pos (by omega), (by omega : s + 1 = i + 1)]

namespace Ledger

/-! ## What waits at the edge -/

/-- A postponed requirement is the argument of a next that is on the list. -/
structure Postponed (edge : Instant) (ledger : Ledger) (d : Deferred) : Prop where
  step_eq : d.step = edge.index + 1
  wellFormed : d.formula.malformedPath? = none
  origin : ∃ weak s, ledger.required (.next d.formula weak) s d.guard ∧
    (Instant.mk edge.index false).after s = .pending d.step

/-- An instance belongs to a requirement on the list, and has left its last carrier
at the step before a given one. -/
structure Rests (ledger : Ledger) (t : Nat) (inst : Instance) : Prop where
  wellFormed : inst.formula.malformedPath? = none
  required : ledger.required inst.formula inst.origin inst.guard
  unrolls : inst.formula.Unrolls inst.op inst.lhs inst.rhs
  origin_le : inst.origin ≤ t
  earlier : ledger.Earlier inst.formula inst.origin t inst.carrier

/-- Everything on the list of requirements is warranted, and what waits at the edge
waits for the step after it.  Instances that have not been unrolled to the edge are
passed over. -/
structure Orderly (brief : Brief) (edge : Instant) (ledger : Ledger) : Prop where
  wellFormed : ∀ f s guard, ledger.required f s guard → f.malformedPath? = none
  reached : ∀ f s guard, ledger.required f s guard → s ≤ edge.index
  warranted : ∀ f s guard, ledger.required f s guard →
    ∃ whole, Encoder.guardSet whole = guard ∧ Warranted brief edge ledger f s whole
  boundaries : ∀ b ∈ ledger.edge.boundaries,
    b.target = edge.index + 1 ∧ b.arg.malformedPath? = none
  deferred : ∀ d ∈ ledger.edge.deferred, ledger.Postponed edge d
  instances : ∀ inst ∈ ledger.edge.instances, inst.last = edge.index →
    ledger.Rests (edge.index + 1) inst

section Growing

variable {ledger later : Ledger} {brief : Brief} {edge : Instant}

theorem Postponed.mono (h : ledger.Keeps later) {d : Deferred} (hd : ledger.Postponed edge d) :
    later.Postponed edge d := by
  obtain ⟨weak, s, hr, ha⟩ := hd.origin
  exact ⟨hd.step_eq, hd.wellFormed, weak, s, h.required _ _ _ hr, ha⟩

theorem Rests.mono (h : ledger.Keeps later) {t : Nat} {inst : Instance}
    (hi : ledger.Rests t inst) : later.Rests t inst :=
  ⟨hi.wellFormed, h.required _ _ _ hi.required, hi.unrolls, hi.origin_le, hi.earlier.mono h⟩

/-- A ledger stays orderly over a change that takes nothing on, if what is new at the
edge is in order. -/
theorem Orderly.keep (ho : Orderly brief edge ledger) (h : ledger.Keeps later)
    (hsame : later.required = ledger.required)
    (hb : ∀ b ∈ later.edge.boundaries, b ∈ ledger.edge.boundaries ∨
      b.target = edge.index + 1 ∧ b.arg.malformedPath? = none)
    (hd : ∀ d ∈ later.edge.deferred, d ∈ ledger.edge.deferred ∨ later.Postponed edge d)
    (hi : ∀ inst ∈ later.edge.instances, inst ∈ ledger.edge.instances ∨
      later.Rests (edge.index + 1) inst) : Orderly brief edge later where
  wellFormed := fun f s guard hr => ho.wellFormed f s guard (hsame ▸ hr)
  reached := fun f s guard hr => ho.reached f s guard (hsame ▸ hr)
  warranted := fun f s guard hr => by
    obtain ⟨whole, hset, hw⟩ := ho.warranted f s guard (hsame ▸ hr)
    exact ⟨whole, hset, hw.mono h (.refl _) rfl fun _ hd => hd⟩
  boundaries := fun b hmem => (hb b hmem).elim (ho.boundaries b) id
  deferred := fun d hmem => (hd d hmem).elim (fun hold => (ho.deferred d hold).mono h) id
  instances := fun inst hmem hlast =>
    (hi inst hmem).elim (fun hold => (ho.instances inst hold hlast).mono h) id

/-- A boundary that is opened refers to the step after the edge. -/
theorem Move.boundaries (hm : Move edge ledger later) :
    ∀ b ∈ later.edge.boundaries, b ∈ ledger.edge.boundaries ∨
      b.target = edge.index + 1 ∧ b.arg.malformedPath? = none := by
  intro b hb
  cases hm with
  | enter _ _ _ => exact .inl hb
  | share _ _ _ _ _ => exact .inl hb
  | define _ _ _ _ => exact .inl hb
  | await hwell _ _ =>
    rcases List.mem_append.1 hb with hb | hb
    · exact .inl hb
    · cases List.mem_singleton.1 hb
      exact .inr ⟨rfl, hwell⟩

theorem Moves.boundaries (hm : Moves edge ledger later) :
    ∀ b ∈ later.edge.boundaries, b ∈ ledger.edge.boundaries ∨
      b.target = edge.index + 1 ∧ b.arg.malformedPath? = none := by
  induction hm with
  | refl => exact fun b hb => .inl hb
  | tail _ hmove ih => exact fun b hb => (hmove.boundaries b hb).elim (ih b) .inr

theorem Move.orderly (hm : Move edge ledger later) (ho : Orderly brief edge ledger) :
    Orderly brief edge later := by
  obtain ⟨hd, hi, -, hr⟩ := hm.frame
  exact ho.keep hm.grows.toKeeps hr hm.boundaries (fun d hmem => .inl (hd ▸ hmem))
    fun inst hmem => .inl (hi ▸ hmem)

theorem HeadMove.orderly {first : Nat} (hm : HeadMove brief edge first ledger later)
    (ho : Orderly brief edge ledger) : Orderly brief edge later := by
  have hkeeps := hm.grows.toKeeps
  have hold : ∀ {α : Type} {xs : List α} {P : α → Prop}, ∀ x ∈ xs, x ∈ xs ∨ P x :=
    fun _ hx => .inl hx
  cases hm with
  | body hm => exact hm.orderly ho
  | @demand f s guard hwell _ hs hw =>
    refine ⟨fun g t guard' hr => ?_, fun g t guard' hr => ?_, fun g t guard' hr => ?_,
      ho.boundaries, fun d hd => (ho.deferred d hd).mono hkeeps,
      fun inst hinst hlast => (ho.instances inst hinst hlast).mono hkeeps⟩
    · rcases hr with hr | ⟨rfl, -, -⟩
      · exact ho.wellFormed g t guard' hr
      · exact hwell
    · rcases hr with hr | ⟨-, rfl, -⟩
      · exact ho.reached g t guard' hr
      · exact hs
    · rcases hr with hr | ⟨rfl, rfl, rfl⟩
      · obtain ⟨whole, hset, hw'⟩ := ho.warranted g t guard' hr
        exact ⟨whole, hset, hw'.mono hkeeps (.refl _) rfl fun _ hd => hd⟩
      · exact ⟨guard, rfl, hw.mono hkeeps (.refl _) rfl fun _ hd => hd⟩
  | duty _ _ _ => exact ho.keep hkeeps rfl hold hold hold
  | @defer arg weak s guard t hwell hr ha =>
    refine ho.keep hkeeps rfl hold (fun d hd => ?_) hold
    rcases List.mem_append.1 hd with hd | hd
    · exact .inl hd
    · cases List.mem_singleton.1 hd
      have ht := Instant.pending_eq ha (ho.reached _ _ _ hr)
      have hopen : (Instant.mk edge.index false).after s = .pending t := by
        rw [← ha, ← Instant.last_of_pending ha]
      exact .inr ⟨ht, hwell, weak, s, hr, hopen⟩
  | carry _ _ _ _ _ _ => exact ho.keep hkeeps rfl hold hold hold
  | @rest inst hwell hr hf hlast horigin hearlier =>
    refine ho.keep hkeeps rfl hold hold fun other hmem => ?_
    rcases List.mem_append.1 hmem with hmem | hmem
    · exact .inl hmem
    · cases List.mem_singleton.1 hmem
      exact .inr ⟨hwell, hr, hf, Nat.le_succ_of_le horigin,
        hearlier.mono hkeeps⟩

theorem HeadMoves.orderly {first : Nat} (hm : HeadMoves brief edge first ledger later)
    (ho : Orderly brief edge ledger) : Orderly brief edge later := by
  induction hm with
  | refl => exact ho
  | tail _ hmove ih => exact hmove.orderly ih

/-- The instances that requirements start have been unrolled to the edge. -/
theorem HeadMoves.instances {first : Nat} (hm : HeadMoves brief edge first ledger later) :
    ∃ more, later.edge.instances = ledger.edge.instances ++ more ∧
      ∀ inst ∈ more, inst.last = edge.index := by
  induction hm with
  | refl => exact ⟨[], (List.append_nil _).symm, nofun⟩
  | tail _ hmove ih =>
    obtain ⟨more, hmore, hlast⟩ := ih
    cases hmove with
    | body hm => exact ⟨more, hm.frame.2.1.trans hmore, hlast⟩
    | demand _ _ _ _ => exact ⟨more, hmore, hlast⟩
    | duty _ _ _ => exact ⟨more, hmore, hlast⟩
    | defer _ _ _ => exact ⟨more, hmore, hlast⟩
    | carry _ _ _ _ _ _ => exact ⟨more, hmore, hlast⟩
    | @rest inst _ _ _ hrest _ _ =>
      refine ⟨more ++ [inst], ?_, fun other hmem => ?_⟩
      · show _ ++ [inst] = _
        rw [hmore, List.append_assoc]
      · rcases List.mem_append.1 hmem with hmem | hmem
        · exact hlast other hmem
        · cases List.mem_singleton.1 hmem
          exact hrest

end Growing

/-! ## Moving the edge -/

/-- What reaching a step can do to a ledger at a time, together with the boundaries
that still have to be tied. -/
inductive ReachMove (brief : Brief) (edge : Instant) (first : Nat) :
    List Boundary × Ledger → List Boundary × Ledger → Prop
  | head {due ledger later} : HeadMove brief edge first ledger later →
    ReachMove brief edge first (due, ledger) (due, later)
  | tie {b due ledger y} : ledger.lit b.arg edge.index = some y →
    ReachMove brief edge first (b :: due, ledger) (due, ledger.post [.normal b.lit.atom [y]])
  | settle {due ledger} (deferred : List Deferred) (instances : List Instance) :
    ReachMove brief edge first (due, ledger)
      (due, { ledger with
        edge := { ledger.edge with deferred := deferred, instances := instances } })

/-- Moves of an extension one after the other. -/
abbrev ReachMoves (brief : Brief) (edge : Instant) (first : Nat) :
    List Boundary × Ledger → List Boundary × Ledger → Prop :=
  Relation.ReflTransGen (ReachMove brief edge first)

theorem HeadMoves.reachMoves {brief : Brief} {edge : Instant} {first : Nat}
    {ledger later : Ledger} (h : HeadMoves brief edge first ledger later)
    (due : List Boundary) : ReachMoves brief edge first (due, ledger) (due, later) := by
  induction h with
  | refl => exact .refl
  | tail _ hmove ih => exact ih.tail (.head hmove)

theorem ReachMoves.keeps {brief : Brief} {edge : Instant} {first : Nat}
    {a b : List Boundary × Ledger} (h : ReachMoves brief edge first a b) : a.2.Keeps b.2 := by
  induction h with
  | refl => exact .refl _
  | tail _ hmove ih =>
    refine ih.trans ?_
    cases hmove with
    | head hm => exact hm.grows.toKeeps
    | tie _ => exact (Grows.post _ _).toKeeps
    | settle _ _ => exact { Keeps.refl _ with }

/-- The ledger without the boundaries at its edge. -/
def cleared (ledger : Ledger) : Ledger :=
  { ledger with edge := { ledger.edge with boundaries := [] } }

theorem keeps_cleared (ledger : Ledger) : ledger.Keeps ledger.cleared :=
  { Keeps.refl ledger with }

/-- A ledger is ready for a step: everything that waits at the edge waits for it. -/
structure Expects (brief : Brief) (k : Nat) (ledger : Ledger) : Prop where
  wellFormed : ∀ f s guard, ledger.required f s guard → f.malformedPath? = none
  reached : ∀ f s guard, ledger.required f s guard → s ≤ k
  warranted : ∀ f s guard, ledger.required f s guard →
    ∃ whole, Encoder.guardSet whole = guard ∧ Warranted brief ⟨k, false⟩ ledger f s whole
  boundaries : ∀ b ∈ ledger.edge.boundaries, b.target = k ∧ b.arg.malformedPath? = none
  deferred : ∀ d ∈ ledger.edge.deferred, d.step = k ∧ d.formula.malformedPath? = none ∧
    ∃ weak s, ledger.required (.next d.formula weak) s d.guard ∧
      (Instant.mk k false).after s = .reached k
  instances : ∀ inst ∈ ledger.edge.instances, inst.last < k ∧ ledger.Rests k inst

theorem Orderly.expects {brief : Brief} {edge : Instant} {ledger : Ledger}
    (h : Orderly brief edge ledger) (hopen : edge.last = false)
    (hlast : ∀ inst ∈ ledger.edge.instances, inst.last = edge.index) :
    Expects brief (edge.index + 1) ledger where
  wellFormed := h.wellFormed
  reached := fun f s guard hr => Nat.le_succ_of_le (h.reached f s guard hr)
  warranted := fun f s guard hr => by
    obtain ⟨whole, hset, hw⟩ := h.warranted f s guard hr
    have hprecedes : edge.Precedes ⟨edge.index + 1, false⟩ :=
      ⟨Nat.le_succ _, fun hclosed => by rw [hopen] at hclosed; cases hclosed⟩
    exact ⟨whole, hset, hw.mono (.refl _) hprecedes rfl fun _ hd => hd⟩
  boundaries := h.boundaries
  deferred := fun d hd => by
    obtain ⟨hstep, hwell, weak, s, hr, ha⟩ := h.deferred d hd
    exact ⟨hstep, hwell, weak, s, hr, Instant.after_succ ha (h.reached _ _ _ hr)⟩
  instances := fun inst hinst =>
    ⟨by rw [hlast inst hinst]; exact Nat.lt_succ_self _, h.instances inst hinst (hlast inst hinst)⟩

/-- What was met at an edge is met at the next one, once what was waiting for the
next step has been taken up there. -/
theorem Met.reach {edge : Instant} (hopen : edge.last = false) {ledger later : Ledger}
    (h : ledger.Keeps later)
    (hd : ∀ d ∈ ledger.edge.deferred, later.Owes d.formula (edge.index + 1) d.guard)
    (hi : ∀ inst ∈ ledger.edge.instances, ∃ carrier,
      later.Stepped inst.formula inst.origin inst.guard (edge.index + 1) inst.carrier carrier ∧
      later.Waits inst.formula inst.origin inst.guard (edge.index + 1) (some carrier))
    {f : Formula} {s : Nat} {guard : List Lit} (hs : s ≤ edge.index)
    (hm : Met edge ledger f s guard) : Met ⟨edge.index + 1, false⟩ later f s guard := by
  have hprecedes : edge.Precedes ⟨edge.index + 1, false⟩ :=
    ⟨Nat.le_succ _, fun hclosed => by rw [hopen] at hclosed; cases hclosed⟩
  refine hm.transfer h hprecedes ?_ ?_
  · rintro arg weak t rfl ha - hdue
    exact .nextReached (Instant.after_succ ha hs) (hd _ (hdue hopen))
  · intro op lhs rhs carrier hf hu hw
    obtain ⟨inst, hinst, rfl, rfl, rfl, -, rfl⟩ := hw hopen
    obtain ⟨carrier, hstepped, hwaits⟩ := hi inst hinst
    exact .unrolled hf (hu.step hstepped) fun _ => hwaits

/-- What was met at an edge is met when that edge turns out to be the last step. -/
theorem Met.close {edge : Instant} {ledger later : Ledger} (h : ledger.Keeps later) {f : Formula}
    {s : Nat} {guard : List Lit} (hm : Met edge ledger f s guard) :
    Met ⟨edge.index, true⟩ later f s guard := by
  have hprecedes : edge.Precedes ⟨edge.index, true⟩ := by
    refine ⟨Nat.le_refl _, fun hlast => ?_⟩
    rw [← hlast]
  refine hm.transfer h hprecedes ?_ ?_
  · rintro arg weak t rfl ha hn -
    exact .nextPending ha hn nofun
  · intro op lhs rhs carrier hf hu _
    exact .unrolled hf hu nofun

/-- The rules of the boundaries that become true when no further step comes. -/
def closingRules (ledger : Ledger) : List Rule :=
  (ledger.edge.closedExternals.filter fun e => e.truth = .true).map fun e => .fact e.lit.atom

theorem mem_closingRules {ledger : Ledger} {rule : Rule} :
    rule ∈ ledger.closingRules ↔
      ∃ b ∈ ledger.edge.boundaries, b.weak = true ∧ rule = .fact b.lit.atom := by
  constructor
  · intro hr
    obtain ⟨e, he, rfl⟩ := List.mem_map.1 hr
    obtain ⟨he, htrue⟩ := List.mem_filter.1 he
    obtain ⟨b, hb, rfl⟩ := List.mem_map.1 he
    refine ⟨b, hb, ?_, rfl⟩
    cases hweak : b.weak with
    | true => rfl
    | false =>
      rw [hweak] at htrue
      cases htrue
  · rintro ⟨b, hb, hweak, rfl⟩
    refine List.mem_map.2 ⟨⟨b.lit, .true⟩, List.mem_filter.2 ⟨List.mem_map.2 ⟨b, hb, ?_⟩, ?_⟩, rfl⟩
    · rw [hweak]
      rfl
    · exact decide_eq_true rfl

/-- The ledger after its edge has been declared the last step. -/
def closed (ledger : Ledger) : Ledger :=
  { ledger.post ledger.closingRules with edge := {} }

theorem keeps_closed (ledger : Ledger) : ledger.Keeps ledger.closed :=
  { (Grows.post ledger ledger.closingRules).toKeeps with }

end Ledger

namespace Encoder

open Ledger (Moves HeadMove HeadMoves ReachMove ReachMoves Child Warranted Met Orderly Expects)

variable {given : List Rule} {brief : Brief} {edge : Instant} {first : Nat}

/-! ## Tying boundaries -/

/-- What stays when boundaries are tied: only literals are asked for. -/
structure Ties (given : List Rule) (edge : Instant) (before after : Encoder) : Prop where
  deferred : after.edge.deferred = before.edge.deferred
  instances : after.edge.instances = before.edge.instances
  required : (after.ledger given).required = (before.ledger given).required
  boundaries : ∀ b ∈ after.edge.boundaries, b ∈ before.edge.boundaries ∨
    b.target = edge.index + 1 ∧ b.arg.malformedPath? = none

theorem tieBoundaries_does {window : Window} (hw : window.edge = edge)
    (hstage : window.stage.licensesFuture = true) {due : List Boundary}
    (hdue : ∀ b ∈ due, b.arg.malformedPath? = none) {now : Encoder} (h : now.Tidy) :
    Does (tieBoundaries window edge.index due) now fun released after =>
      after.Tidy ∧ released = due.map Boundary.lit ∧
        ReachMoves brief edge first (due, now.ledger given) ([], after.ledger given) ∧
        Ties given edge now after := by
  induction due generalizing now with
  | nil => exact Does.pure ⟨h, rfl, .refl, rfl, rfl, rfl, fun b hb => .inl hb⟩
  | cons b rest ih =>
    have hb : window.Admits b.arg := ⟨hdue b List.mem_cons_self, .inl hstage⟩
    refine (encode_does given edge window b.arg edge.index now hw hb (Nat.le_refl _) h).bind ?_
    intro y answered ha
    refine (emit_does given ha.tidy _).bind fun _ tied ht => ?_
    refine (ih (fun b' hb' => hdue b' (List.mem_cons_of_mem _ hb')) ht.tidy).bind ?_
    rintro released after ⟨htidy, rfl, hmoves, hties⟩
    obtain ⟨hd, hi, -, hr⟩ := ha.moves.frame
    have hledger := ht.ledger_eq
    refine Does.pure ⟨htidy, rfl, ?_, ?_⟩
    · have htie : ReachMove brief edge first (b :: rest, answered.ledger given)
          (rest, tied.ledger given) := by
        rw [hledger]
        exact .tie ha.lit_eq
      exact ((ha.moves.headMoves.reachMoves _).tail htie).trans hmoves
    · have hedge : tied.edge = answered.edge := congrArg Ledger.edge hledger
      have hreq : (tied.ledger given).required = (answered.ledger given).required := by
        rw [hledger]
        rfl
      refine ⟨?_, ?_, hties.required.trans (hreq.trans hr), fun b' hb' => ?_⟩
      · rw [hties.deferred, hedge]
        exact hd
      · rw [hties.instances, hedge]
        exact hi
      · rcases hties.boundaries b' hb' with hold | hnew
        · rw [hedge] at hold
          exact ha.moves.boundaries b' hold
        · exact .inr hnew

/-- The boundaries that waited for a step are taken off the edge and tied. -/
theorem resolveBoundaries_does (given : List Rule) (brief : Brief) (first : Nat)
    {window : Window} (hw : window.edge = edge)
    (hstage : window.stage.licensesFuture = true) {now : Encoder} (h : now.Tidy)
    (hdue : ∀ b ∈ now.edge.boundaries, b.target = edge.index ∧ b.arg.malformedPath? = none) :
    Does (resolveBoundaries window edge.index) now fun released after =>
      after.Tidy ∧ released = now.edge.boundaries.map Boundary.lit ∧
        ReachMoves brief edge first (now.edge.boundaries, (now.ledger given).cleared)
          ([], after.ledger given) ∧
        Ties given edge { now with edge := { now.edge with boundaries := [] } } after := by
  have hall : now.edge.boundaries.filter (fun b => b.target = edge.index) =
      now.edge.boundaries := List.filter_eq_self.2 fun b hb => by simp [(hdue b hb).1]
  have hnone : now.edge.boundaries.filter (fun b => b.target ≠ edge.index) = [] :=
    List.filter_eq_nil_iff.2 fun b hb => by simp [(hdue b hb).1]
  have htaken : now.edge.takeDue edge.index =
      (now.edge.boundaries, { now.edge with boundaries := [] }) := by
    rw [Edge.takeDue, hall, hnone]
  refine Does.bind (R := fun due after => due = now.edge.boundaries ∧
    after = { now with edge := { now.edge with boundaries := [] } }) (Does.modifyGet ?_) ?_
  · rw [htaken]
    exact ⟨rfl, rfl⟩
  · rintro _ _ ⟨rfl, rfl⟩
    exact tieBoundaries_does hw hstage (fun b hb => (hdue b hb).2)
      ⟨h.store, h.entry, h.binding, h.ground, h.required⟩

/-! ## Extensions under way -/

/-- A step is being reached from a ledger, and of the instances that were waiting
there the first `n` have been unrolled to it. -/
structure Extending (given : List Rule) (brief : Brief) (edge : Instant) (first : Nat)
    (base : Ledger) (n : Nat) (now : Encoder) : Prop where
  tidy : now.Tidy
  moves : ReachMoves brief edge first (base.edge.boundaries, base.cleared) ([], now.ledger given)
  orderly : Orderly brief edge (now.ledger given)
  met : ∀ g t guard, (now.ledger given).required g t guard →
    base.required g t guard ∨ Met edge (now.ledger given) g t guard
  waiting : ∀ i, n ≤ i → i < base.edge.instances.length →
    now.edge.instances[i]? = base.edge.instances[i]?
  advanced : ∀ i inst, i < n → base.edge.instances[i]? = some inst → ∃ carrier,
    (now.ledger given).Stepped inst.formula inst.origin inst.guard edge.index inst.carrier
      carrier ∧
    now.edge.instances[i]? = some { inst with carrier := some carrier, last := edge.index }
  rested : ∀ i inst, base.edge.instances.length ≤ i → now.edge.instances[i]? = some inst →
    inst.last = edge.index

namespace Extending

variable {base : Ledger} {n : Nat} {now : Encoder}

theorem keeps (h : Extending given brief edge first base n now) :
    base.Keeps (now.ledger given) := base.keeps_cleared.trans h.moves.keeps

/-- The extension goes on over moves that leave nothing new unmet. -/
theorem onward (h : Extending given brief edge first base n now) {after : Encoder}
    (htidy : after.Tidy)
    (hm : HeadMoves brief edge first (now.ledger given) (after.ledger given))
    (hmet : ∀ g t guard, (after.ledger given).required g t guard →
      (now.ledger given).required g t guard ∨ Met edge (after.ledger given) g t guard) :
    Extending given brief edge first base n after := by
  obtain ⟨more, hmore, hlast⟩ := hm.instances
  have hmore : after.edge.instances = now.edge.instances ++ more := hmore
  -- What was there at a position is still there.
  have hsame : ∀ (i : Nat) inst, now.edge.instances[i]? = some inst →
      after.edge.instances[i]? = some inst := by
    intro i inst hi
    have hlt := (List.getElem?_eq_some_iff.1 hi).1
    rw [hmore, List.getElem?_append_left hlt]
    exact hi
  refine ⟨htidy, h.moves.trans (hm.reachMoves _), hm.orderly h.orderly, fun g t guard hr => ?_,
    fun i hi hlt => ?_, fun i inst hi hinst => ?_, fun i inst hi hinst => ?_⟩
  · rcases hmet g t guard hr with hr | hnew
    · exact (h.met g t guard hr).imp_right fun hold => hold.grows hm.grows
    · exact .inr hnew
  · obtain ⟨inst, hinst⟩ : ∃ inst, base.edge.instances[i]? = some inst :=
      ⟨_, List.getElem?_eq_getElem hlt⟩
    rw [hinst]
    exact hsame i inst ((h.waiting i hi hlt).trans hinst)
  · obtain ⟨carrier, hstepped, hat⟩ := h.advanced i inst hi hinst
    exact ⟨carrier, hstepped.mono hm.grows.toKeeps, hsame i _ hat⟩
  · rcases Nat.lt_or_ge i now.edge.instances.length with hlt | hge
    · rw [hmore, List.getElem?_append_left hlt] at hinst
      exact h.rested i inst hi hinst
    · rw [hmore, List.getElem?_append_right hge] at hinst
      exact hlast inst (List.mem_of_getElem? hinst)

/-- Several formulas are required at the step. -/
theorem requireAll {α : Type} (h : Extending given brief edge first base n now)
    (hfirst : first ≤ edge.index) {xs : List α}
    {window : α → Window} {formula : α → Formula} {guards : α → List Lit}
    (hx : ∀ x ∈ xs, (window x).edge = edge ∧ (window x).Admits (formula x) ∧
      Warranted brief edge (now.ledger given) (formula x) edge.index (guards x)) :
    Does (xs.forM fun x => Encoder.require (window x) (formula x) edge.index (guards x)) now
      fun _ after => Extending given brief edge first base n after ∧
        (∀ x ∈ xs, (after.ledger given).Owes (formula x) edge.index (guards x)) ∧
        (now.ledger given).Grows (after.ledger given) := by
  refine (requireAll_does given brief hfirst (Nat.le_refl _) h.tidy hx).mono ?_
  rintro _ after ⟨htidy, hmoves, howes, hmet⟩
  exact ⟨h.onward htidy hmoves hmet, howes, hmoves.grows⟩

/-- The next instance is unrolled to the step. -/
theorem advanceInstance (h : Extending given brief edge first base n now)
    (hexpects : Expects brief edge.index base) (hn : n < base.edge.instances.length)
    (hfirst : first ≤ edge.index) {window : Window}
    (hw : window.edge = edge) (hstage : window.stage.licensesFuture = true) :
    Does (Encoder.advanceInstance window edge.index n) now fun _ after =>
      Extending given brief edge first base (n + 1) after ∧
        (now.ledger given).Keeps (after.ledger given) := by
  obtain ⟨inst, hinst⟩ : ∃ inst, base.edge.instances[n]? = some inst :=
    ⟨_, List.getElem?_eq_getElem hn⟩
  have hat : now.edge.instances[n]? = some inst := (h.waiting n (Nat.le_refl _) hn).trans hinst
  obtain ⟨hlt, hrests⟩ := hexpects.instances inst (List.mem_of_getElem? hinst)
  have hrests := hrests.mono h.keeps
  have hwork : Working given brief edge first inst.formula inst.origin inst.guard now now :=
    ⟨hrests.wellFormed, hrests.origin_le, h.tidy, .refl _, .refl, hrests.required,
      h.orderly.warranted _ _ _ hrests.required, fun g t guard hr => .inl hr⟩
  refine Does.get_bind ?_
  rw [hat]
  dsimp only
  rw [if_pos hlt]
  refine (advance_does hwork require_does hw ⟨hrests.wellFormed, .inl hstage⟩
    ⟨rfl, rfl, rfl, hrests.unrolls⟩ hrests.origin_le hfirst (Nat.le_refl _) hrests.earlier).bind ?_
  rintro _ middle ⟨hm, hgrows, carrier, rfl, hstepped⟩
  have hmiddle : Extending given brief edge first base n middle := by
    refine h.onward hm.tidy hm.moves fun g t guard hr => ?_
    rcases hm.met g t guard hr with hold | hmet | ⟨rfl, rfl, rfl⟩
    · exact .inl hold
    · exact .inr hmet
    · exact .inl hwork.taken
  have hstill : middle.edge.instances[n]? = some inst :=
    (hmiddle.waiting n (Nat.le_refl _) hn).trans hinst
  have hlength := (List.getElem?_eq_some_iff.1 hstill).1
  have hkeeps (result : Instance) : (middle.ledger given).Keeps
      (ledger given { middle with edge := middle.edge.setInstance n result }) :=
    { Ledger.Keeps.refl (middle.ledger given) with }
  have hkeeps := hkeeps { inst with carrier := some carrier, last := edge.index }
  refine Does.modify ⟨⟨⟨hm.tidy.store, hm.tidy.entry, hm.tidy.binding, hm.tidy.ground,
    hm.tidy.required⟩, hmiddle.moves.tail (.settle _ _), ?_, fun g t guard hr => ?_,
    fun i hi hlt' => ?_, fun i other hi hother => ?_, fun i other hi hother => ?_⟩,
    hgrows.toKeeps.trans hkeeps⟩
  · refine hmiddle.orderly.keep hkeeps rfl (fun b hb => .inl hb) (fun d hd => .inl hd)
      fun other hmem => ?_
    rcases List.mem_or_eq_of_mem_set hmem with hold | rfl
    · exact .inl hold
    · obtain ⟨-, -, -, -, hc⟩ := hstepped
      exact .inr ⟨hrests.wellFormed, hm.taken, hrests.unrolls, Nat.le_succ_of_le hrests.origin_le,
        .step hrests.origin_le hc⟩
  · -- The instance that is replaced had not been unrolled to the edge.
    refine (hmiddle.met g t guard hr).imp_right fun hmet =>
      hmet.mono hkeeps (fun d hd => hd) fun other hmem hlast => ?_
    obtain ⟨j, hj⟩ := List.mem_iff_getElem?.1 hmem
    have hne : n ≠ j := by
      rintro rfl
      have hj : middle.edge.instances[n]? = some other := hj
      rw [hstill] at hj
      cases hj
      omega
    refine List.mem_of_getElem? (i := j) ?_
    show (middle.edge.instances.set n _)[j]? = some other
    rw [List.getElem?_set_ne hne]
    exact hj
  · show (middle.edge.instances.set n _)[i]? = _
    rw [List.getElem?_set_ne (by omega)]
    exact hmiddle.waiting i (by omega) hlt'
  · show ∃ c, _ ∧ (middle.edge.instances.set n _)[i]? = _
    rcases Nat.lt_or_eq_of_le (Nat.le_of_lt_succ hi) with hlt' | rfl
    · obtain ⟨c, hsteppedi, hati⟩ := hmiddle.advanced i other hlt' hother
      refine ⟨c, hsteppedi.mono hkeeps, ?_⟩
      rw [List.getElem?_set_ne (by omega)]
      exact hati
    · rw [hinst] at hother
      cases hother
      refine ⟨carrier, hstepped.mono hkeeps, ?_⟩
      rw [List.getElem?_set_self hlength]
  · have hother : (middle.edge.instances.set n _)[i]? = some other := hother
    rw [List.getElem?_set_ne (by omega)] at hother
    exact hmiddle.rested i other hi hother

/-- Behind the instances that were waiting nothing is left to do. -/
theorem skipInstance (h : Extending given brief edge first base n now)
    (hn : base.edge.instances.length ≤ n) (window : Window) :
    Does (Encoder.advanceInstance window edge.index n) now fun _ after =>
      Extending given brief edge first base (n + 1) after ∧
        (now.ledger given).Keeps (after.ledger given) := by
  have hnext : Extending given brief edge first base (n + 1) now :=
    { h with
      waiting := fun i hi hlt => by omega
      advanced := fun i inst _ hinst =>
        h.advanced i inst (by have := (List.getElem?_eq_some_iff.1 hinst).1; omega) hinst }
  refine Does.get_bind ?_
  cases hat : now.edge.instances[n]? with
  | none => exact Does.pure ⟨hnext, .refl _⟩
  | some inst =>
    dsimp only
    rw [if_neg (by rw [h.rested n inst hn hat]; exact Nat.lt_irrefl _)]
    exact Does.pure ⟨hnext, .refl _⟩

theorem advanceInstances (h : Extending given brief edge first base 0 now)
    (hexpects : Expects brief edge.index base)
    (hcount : base.edge.instances.length ≤ now.edge.instances.length)
    (hfirst : first ≤ edge.index) {window : Window}
    (hw : window.edge = edge) (hstage : window.stage.licensesFuture = true) :
    Does (Encoder.advanceInstances window edge.index) now fun _ after =>
      Extending given brief edge first base base.edge.instances.length after ∧
        (now.ledger given).Keeps (after.ledger given) := by
  refine Does.get_bind ?_
  -- The instances that are left are those from some position on.
  refine (Does.forM (I := fun rest middle => ∃ n, n ≤ now.edge.instances.length ∧
    rest = List.range' n (now.edge.instances.length - n) ∧
    Extending given brief edge first base n middle ∧
    (now.ledger given).Keeps (middle.ledger given)) ?_
    ⟨0, Nat.zero_le _, List.range_eq_range', h, .refl _⟩).mono ?_
  · rintro i rest middle ⟨n, hn, hrest, hm, hkeeps⟩
    obtain ⟨m, hm'⟩ : ∃ m, now.edge.instances.length - n = m + 1 := by
      cases hleft : now.edge.instances.length - n with
      | zero =>
        rw [hleft] at hrest
        cases hrest
      | succ m => exact ⟨m, rfl⟩
    rw [hm', List.range'_succ] at hrest
    obtain ⟨rfl, rfl⟩ := List.cons.inj hrest
    have hdoes : Does (Encoder.advanceInstance window edge.index i) middle fun _ after =>
        Extending given brief edge first base (i + 1) after ∧
          (middle.ledger given).Keeps (after.ledger given) := by
      rcases Nat.lt_or_ge i base.edge.instances.length with hlt | hge
      · exact hm.advanceInstance hexpects hlt hfirst hw hstage
      · exact hm.skipInstance hge window
    refine hdoes.mono fun _ after ha => ⟨i + 1, by omega, ?_, ha.1, hkeeps.trans ha.2⟩
    congr 1
    omega
  · rintro _ after ⟨n, hn, hrest, ha, hkeeps⟩
    have hend : n = now.edge.instances.length := by
      have hlength := congrArg List.length hrest
      rw [List.length_range', List.length_nil] at hlength
      omega
    refine ⟨{ ha with
      waiting := fun i hi hlt => by omega
      advanced := fun i inst hi hinst => ha.advanced i inst (by omega) hinst }, hkeeps⟩

/-- The requirements that were waiting for the step are warranted there. -/
theorem warranted_deferred (h : Extending given brief edge first base n now)
    (hexpects : Expects brief edge.index base) (hopen : edge.last = false) {d : Deferred}
    (hd : d ∈ base.edge.deferred) :
    Warranted brief edge (now.ledger given) d.formula edge.index d.guard := by
  obtain ⟨-, -, weak, s, hr, ha⟩ := hexpects.deferred d hd
  obtain ⟨whole, hset, hwarrant⟩ := h.orderly.warranted _ _ _ (h.keeps.required _ _ _ hr)
  refine hwarrant.child ?_
  rw [hset]
  obtain ⟨i, last⟩ := edge
  cases hopen
  exact .next ha

end Extending

/-! ## Reaching a step -/

theorem takeDeferred_does {now : Encoder} {k : Nat} (hdue : ∀ d ∈ now.edge.deferred, d.step = k)
    {window : Window} {post : PUnit → Encoder → Prop}
    (h : Does (now.edge.deferred.forM fun requirement =>
      require window requirement.formula k requirement.guard)
      { now with edge := { now.edge with deferred := [] } } post) :
    Does (runDeferred window k) now post := by
  have hall : now.edge.deferred.filter (fun d => d.step = k) = now.edge.deferred :=
    List.filter_eq_self.2 fun d hd => by simp [hdue d hd]
  have hnone : now.edge.deferred.filter (fun d => d.step ≠ k) = [] :=
    List.filter_eq_nil_iff.2 fun d hd => by simp [hdue d hd]
  have htaken : now.edge.takeDeferred k =
      (now.edge.deferred, { now.edge with deferred := [] }) := by
    rw [Edge.takeDeferred, hall, hnone]
  refine Does.bind (R := fun due after => due = now.edge.deferred ∧
    after = { now with edge := { now.edge with deferred := [] } }) (Does.modifyGet ?_) ?_
  · rw [htaken]
    exact ⟨rfl, rfl⟩
  · rintro _ _ ⟨rfl, rfl⟩
    exact h

/-- After its boundaries have been tied the step is being reached. -/
theorem Ties.extending {now tied : Encoder} {k : Nat}
    (hexpects : Expects brief k (now.ledger given)) (htidy : tied.Tidy)
    (hmoves : ReachMoves brief ⟨k, false⟩ first (now.edge.boundaries, (now.ledger given).cleared)
      ([], tied.ledger given))
    (hties : Ties given ⟨k, false⟩ { now with edge := { now.edge with boundaries := [] } } tied) :
    Extending given brief ⟨k, false⟩ first (now.ledger given) 0
      { tied with edge := { tied.edge with deferred := [] } } := by
  have hkeeps := (now.ledger given).keeps_cleared.trans hmoves.keeps
  have hreq : (tied.ledger given).required = (now.ledger given).required := hties.required
  refine ⟨⟨htidy.store, htidy.entry, htidy.binding, htidy.ground, htidy.required⟩,
    hmoves.tail (.settle [] tied.edge.instances), ?_, fun g t guard hr => .inl (hreq ▸ hr),
    fun i _ _ => ?_, fun i _ hi => absurd hi (Nat.not_lt_zero i), fun i inst hi hinst => ?_⟩
  · refine ⟨fun f s guard hr => hexpects.wellFormed f s guard (hreq ▸ hr),
      fun f s guard hr => hexpects.reached f s guard (hreq ▸ hr), fun f s guard hr => ?_,
      fun b hb => ?_, nofun, fun inst hinst hlast => ?_⟩
    · obtain ⟨whole, hset, hw⟩ := hexpects.warranted f s guard (hreq ▸ hr)
      have hsettled : (tied.ledger given).Keeps
          (ledger given { tied with edge := { tied.edge with deferred := [] } }) :=
        { Ledger.Keeps.refl (tied.ledger given) with }
      exact ⟨whole, hset, hw.mono (hkeeps.trans hsettled) (.refl _) rfl fun _ hd => hd⟩
    · exact (hties.boundaries b hb).resolve_left List.not_mem_nil
    · have hold : inst ∈ now.edge.instances := hties.instances ▸ hinst
      have hlt := (hexpects.instances inst hold).1
      exact absurd hlast (Nat.ne_of_lt hlt)
  · show tied.edge.instances[i]? = _
    rw [hties.instances]
    rfl
  · have hinst : tied.edge.instances[i]? = some inst := hinst
    rw [hties.instances] at hinst
    have hlt := (List.getElem?_eq_some_iff.1 hinst).1
    exact absurd hi (Nat.not_le_of_lt hlt)

/-- A formula that has been accepted for a stage is acceptable there. -/
theorem admits_of_validate {stage : Stage} {f : Formula} (h : validate stage f = .ok ())
    (horizon : Nat) (closed : Bool) : (Window.mk horizon closed stage).Admits f := by
  unfold validate at h
  split at h
  · cases h
  · next hwell =>
    refine ⟨hwell, ?_⟩
    cases hstage : stage.licensesFuture with
    | true => exact .inl rfl
    | false =>
      refine .inr ?_
      cases hf : f.referencesFuture with
      | false => rfl
      | true =>
        rw [hstage, hf] at h
        cases h

/-- A theory that has been accepted has only acceptable formulas. -/
theorem admits_of_validateAll {formulas : List (Stage × Formula)}
    (h : Theory.validateAll formulas = .ok ()) {stage : Stage} {f : Formula}
    (hf : (stage, f) ∈ formulas) (horizon : Nat) (closed : Bool) :
    (Window.mk horizon closed stage).Admits f := by
  induction formulas with
  | nil => cases hf
  | cons entry rest ih =>
    unfold Theory.validateAll at h
    split at h
    · next hentry =>
      rcases List.mem_cons.1 hf with rfl | hf
      · exact admits_of_validate hentry horizon closed
      · exact ih h hf
    · cases h

/-- The formulas of the final stage are required under the guard that the step is
the last one. -/
theorem Extending.requireFinals {base : Ledger} {n k : Nat} {now : Encoder}
    (h : Extending given brief ⟨k, false⟩ first base n now)
    (hvalid : Theory.validateAll brief.theory.formulas = .ok ())
    (hfirst : first ≤ k) :
    Does (Unrolling.requireFinals brief.theory ⟨k, false, .always⟩ k) now fun _ after =>
      Extending given brief ⟨k, false⟩ first base n after ∧
      (∀ f ∈ brief.theory.finals, ∃ g, (after.ledger given).lit .final k = some g ∧
        (after.ledger given).Owes f k [g]) ∧
      (now.ledger given).Grows (after.ledger given) := by
  refine (encode_does given ⟨k, false⟩ ⟨k, false, .always⟩ .final k now rfl ⟨rfl, .inl rfl⟩
    (Nat.le_refl _) h.tidy).bind fun g middle hm => ?_
  have hmiddle : Extending given brief ⟨k, false⟩ first base n middle :=
    h.onward hm.tidy hm.moves.headMoves fun f t guard hr => .inl (hm.moves.frame.2.2.2 ▸ hr)
  refine (hmiddle.requireAll hfirst fun f hf => ?_).mono ?_
  · obtain ⟨entry, hentry, rfl⟩ := List.mem_map.1 hf
    obtain ⟨hmem, hstage⟩ := List.mem_filter.1 hentry
    obtain ⟨stage, f⟩ := entry
    obtain rfl : stage = .final := of_decide_eq_true hstage
    exact ⟨rfl, admits_of_validateAll hvalid hmem k false, .guarded hf (Nat.le_refl _) hm.lit_eq⟩
  · rintro _ after ⟨ha, howes, hgrows⟩
    exact ⟨ha, fun f hf => ⟨g, hgrows.lit _ _ _ hm.lit_eq, howes f hf⟩, hm.moves.grows.trans hgrows⟩

/-- **Reaching a step** ties all boundaries, unrolls all instances, and takes on what
was postponed to the step and what the stages require there. -/
theorem reachStep_does {k : Nat} {now : Encoder} (h : now.Tidy)
    (hvalid : Theory.validateAll brief.theory.formulas = .ok ())
    (hexpects : Expects brief k (now.ledger given)) 
    (hfirst : first ≤ k) :
    Does (Unrolling.reachStep brief.theory k) now fun released after =>
      released = now.edge.boundaries.map Boundary.lit ∧
      Extending given brief ⟨k, false⟩ first (now.ledger given)
        now.edge.instances.length after ∧
      (∀ d ∈ now.edge.deferred, (after.ledger given).Owes d.formula k d.guard) ∧
      (∀ entry ∈ brief.theory.current ⟨k, false⟩, (after.ledger given).Owes entry.2 k []) ∧
      ∀ f ∈ brief.theory.finals, ∃ g, (after.ledger given).lit .final k = some g ∧
        (after.ledger given).Owes f k [g] := by
  have hw : (Window.mk k false .always).edge = ⟨k, false⟩ := rfl
  refine (resolveBoundaries_does given brief first hw rfl h hexpects.boundaries).bind ?_
  rintro released tied ⟨htidy, rfl, hmoves, hties⟩
  have hdeferred : tied.edge.deferred = now.edge.deferred := hties.deferred
  have hextending := hties.extending hexpects htidy hmoves
  -- What was postponed to the step.
  refine Does.bind (takeDeferred_does (fun d hd => (hexpects.deferred d (hdeferred ▸ hd)).1)
    (hextending.requireAll hfirst fun d hd => ?_)) ?_
  · have hd : d ∈ now.edge.deferred := hdeferred ▸ hd
    exact ⟨hw, ⟨(hexpects.deferred d hd).2.1, .inl rfl⟩,
      hextending.warranted_deferred hexpects rfl hd⟩
  rintro _ met ⟨hmet, howes, hgrows₁⟩
  have hcount : now.edge.instances.length ≤ met.edge.instances.length := by
    obtain ⟨more, hmore⟩ := hgrows₁.instances
    have hmore : met.edge.instances = tied.edge.instances ++ more := hmore
    have hsame : tied.edge.instances = now.edge.instances := hties.instances
    rw [hmore, hsame, List.length_append]
    exact Nat.le_add_right _ _
  -- The instances, then the formulas of the stages.
  refine (hmet.advanceInstances hexpects hcount hfirst hw rfl).bind ?_
  rintro _ advanced ⟨hadvanced, hkeeps₂⟩
  refine Does.bind (hadvanced.requireAll hfirst fun entry hentry => ?_) ?_
  · obtain ⟨stage, f⟩ := entry
    exact ⟨rfl, admits_of_validateAll hvalid (List.mem_filter.1 hentry).1 k false,
      .staged hentry (Nat.le_refl _)⟩
  rintro _ staged ⟨hstaged, hcurrent, hgrows₃⟩
  have hall : ∀ (after : Encoder), (staged.ledger given).Keeps (after.ledger given) →
      (∀ d ∈ now.edge.deferred, (after.ledger given).Owes d.formula k d.guard) ∧
      ∀ entry ∈ brief.theory.current ⟨k, false⟩, (after.ledger given).Owes entry.2 k [] := by
    intro after hkeeps
    refine ⟨fun d hd => ?_, fun entry hentry => (hcurrent entry hentry).mono hkeeps⟩
    exact (howes d (hdeferred.symm ▸ hd)).mono ((hkeeps₂.trans hgrows₃.toKeeps).trans hkeeps)
  split
  · next hempty =>
    obtain ⟨hd, hc⟩ := hall staged (.refl _)
    refine Does.pure ⟨rfl, hstaged, hd, hc, fun f hf => ?_⟩
    rw [List.isEmpty_iff.1 hempty] at hf
    cases hf
  · refine (hstaged.requireFinals hvalid hfirst).bind ?_
    rintro _ after ⟨ha, hfinals, hgrows₄⟩
    obtain ⟨hd, hc⟩ := hall after hgrows₄.toKeeps
    exact Does.pure ⟨rfl, ha, hd, hc, hfinals⟩

/-! ## Closing the horizon -/

theorem close_does (given : List Rule) {now : Encoder} (h : now.Tidy) :
    Does close now fun fixed after =>
      fixed = now.edge.closedExternals ∧ Follows given now after (now.ledger given).closed := by
  refine Does.get_bind ((emitAll_does given h _).bind fun _ emitted he => ?_)
  refine Does.modify_bind (Does.pure ⟨rfl, ⟨he.tidy.store, he.tidy.entry, he.tidy.binding,
    he.tidy.ground, he.tidy.required⟩, he.grown, ?_⟩)
  show ({ emitted.ledger given with edge := {} } : Ledger) = _
  rw [he.ledger_eq]
  rfl

/-- **Closing the horizon** takes on the formulas of the final stage and fixes all
boundaries. -/
theorem closeStep_does {k : Nat} {now : Encoder} (h : now.Tidy)
    (hvalid : Theory.validateAll brief.theory.formulas = .ok ()) :
    Does (Unrolling.closeStep brief.theory k) now fun fixed after =>
      after.Tidy ∧ ∃ middle : Encoder, fixed = middle.edge.closedExternals ∧
        HeadMoves brief ⟨k, true⟩ 0 (now.ledger given) (middle.ledger given) ∧
        after.ledger given = (middle.ledger given).closed ∧
        (∀ f ∈ brief.theory.finals, (after.ledger given).Owes f k []) ∧
        ∀ g t guard, (after.ledger given).required g t guard →
          (now.ledger given).required g t guard ∨ Met ⟨k, true⟩ (after.ledger given) g t guard := by
  have hreached : k ≤ (Instant.mk k true).index := Nat.le_refl k
  refine (requireAll_does given brief (Nat.zero_le k) hreached h fun f hf => ?_).bind ?_
  · obtain ⟨entry, hentry, rfl⟩ := List.mem_map.1 hf
    obtain ⟨hmem, hstage⟩ := List.mem_filter.1 hentry
    obtain ⟨stage, f⟩ := entry
    obtain rfl : stage = .final := of_decide_eq_true hstage
    exact ⟨rfl, admits_of_validateAll hvalid hmem k true, .last hf rfl⟩
  · rintro _ middle ⟨htidy, hmoves, howes, hmet⟩
    refine (close_does given htidy).mono ?_
    rintro fixed after ⟨hfixed, ha⟩
    have hkeeps := (middle.ledger given).keeps_closed
    rw [← ha.ledger_eq] at hkeeps
    refine ⟨ha.tidy, middle, hfixed, hmoves, ha.ledger_eq, fun f hf => (howes f hf).mono hkeeps,
      fun g t guard hr => ?_⟩
    rw [ha.ledger_eq] at hr
    exact (hmet g t guard hr).imp_right fun hold => hold.close hkeeps

end Encoder
end TemporalHorizon

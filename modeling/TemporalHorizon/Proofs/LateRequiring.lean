import TemporalHorizon.Proofs.ExactSessions
import TemporalHorizon.Proofs.Transfer
import TemporalHorizon.Proofs.Waiting

/-!
# Requiring formulas early and late

A formula can be part of a theory, and is then taken up as the steps are reached; or it
can be required at the first step after the horizon has been closed.  This module compares
the stable models of the rules that a caller gets in these two ways.

The session that requires late shares every literal that looks ahead, since all steps are
there.  The session of the theory lets such literals wait, and an atom that has waited is
tied by a rule of its own.  Where it stands for a negated atom, that rule has a default
negation in its body: the tie is the support of the waiting atom, which the shared literal
does not need.

* `Ledger.Native.passes`: as long as nothing is bound, only defined formulas have atoms that
  are chosen.
* `Ledger.Resolved.passes`: on a closed horizon, no next has to wait.
* `Session.late_projections`: the projections of the late session are projections of the
  early one, and for steady formulas they are the same.
* `Session.late_projections_ne`: without that condition the early session can have more.
-/

namespace TemporalHorizon

section Exact

attribute [local instance] Arithmetic.exact

/-- Only formulas that get an atom of their own at a step have a definition there. -/
theorem Sheet.Definition.isDefinedAt {lit : Sheet} {f : Formula} {s : Nat} {x : Lit}
    {rules : List Rule} (h : Definition lit f s x rules) : f.isDefinedAt s = true := by
  cases h with
  | binary _ _ => rfl
  | @fixpoint _ op _ _ _ _ _ _ _ hf _ hadjacent _ =>
    -- A past fixpoint has no adjacent step at step 0.
    have hstep : (op.isFuture || s != 0) = true := by
      cases s with
      | succ s => exact Bool.or_true _
      | zero =>
        cases op <;> first | rfl | cases hadjacent
    cases hf <;> exact hstep

namespace Ledger

/-! ## Native ledgers -/

/-- The rules of a requirement choose nothing. -/
theorem Duty.kind_eq {edge : Instant} {ledger : Ledger} {f : Formula} {s : Nat} {guard : List Lit}
    {rule : Rule} (h : Duty edge ledger f s guard rule) : rule.kind = .disjunction := by
  cases h <;> rfl

namespace Native

variable {brief : Brief} {edge : Instant} {first : Nat} {ledger later : Ledger}

theorem keep (h : ledger.Native) (hbinding : ∀ f s, later.binding f s = none)
    (hentry : ledger.entry.Below later.entry) (hrules : later.rules = ledger.rules) :
    later.Native := by
  refine ⟨hbinding, fun rule hr hkind a ha => ?_⟩
  rw [hrules] at hr
  obtain ⟨f, s, hdefined, hl⟩ := h.chosen rule hr hkind a ha
  exact ⟨f, s, hdefined, hentry f s _ hl⟩

theorem post (h : ledger.Native) {rules : List Rule}
    (hrules : ∀ raw ∈ rules, raw.kind = .choice → ∀ a ∈ raw.head, ∃ f s,
      f.isDefinedAt s = true ∧ ledger.entry f s = some ⟨a, false⟩) :
    (ledger.post rules).Native := by
  refine ⟨h.binding, fun rule hr => ?_⟩
  rcases List.mem_append.1 hr with hr | hr
  · exact h.chosen rule hr
  · obtain ⟨raw, hraw, hsimple⟩ := List.mem_filterMap.1 hr
    obtain ⟨hkind, hhead, -⟩ := Encoder.simplify?_eq_some hsimple
    rw [hkind, hhead]
    exact hrules raw hraw

theorem move (h : ledger.Native) (hm : Move edge ledger later) : later.Native := by
  cases hm with
  | @enter f s _ _ _ =>
    have hentered : Native
        { ledger with
          ground := ledger.ground.put f s (some ⟨ledger.next, false⟩)
          next := ledger.next + 1 } := h.keep h.binding (.refl _) rfl
    refine hentered.post fun raw hraw hkind => ?_
    obtain ⟨other, -, rfl⟩ := List.mem_map.1 hraw
    cases hkind
  | @share f s y _ _ _ hnone _ =>
    refine (h.keep (put_none h.binding f s) (Grows.write hnone _).entry rfl).post fun raw hraw => ?_
    rw [tieRules, h.binding] at hraw
    cases hraw
  | @define f s rules _ _ hnone hd =>
    refine (h.keep (put_none h.binding f s) (Grows.claim hnone).entry rfl).post ?_
    intro raw hraw hkind a ha
    rcases List.mem_cons.1 hraw with rfl | hraw
    · cases List.mem_singleton.1 ha
      refine ⟨f, s, hd.isDefinedAt, ?_⟩
      show ledger.entry.put f s (some (ledger.candidate f s)) f s = _
      rw [Sheet.put_self, candidate, h.binding, Option.getD_none]
    · rw [hd.head_eq_nil hraw] at ha
      cases ha
  | @await arg weak _ _ hnone =>
    exact h.keep (put_none h.binding _ _) (Grows.claim hnone).entry rfl

theorem headMove (h : ledger.Native) (hm : HeadMove brief edge first ledger later) :
    later.Native := by
  cases hm with
  | body hm => exact h.move hm
  | demand _ _ _ _ | defer _ _ _ | rest _ _ _ _ _ _ => exact h.keep h.binding (.refl _) rfl
  | duty _ _ hd =>
    refine h.post fun raw hraw hkind => ?_
    cases List.mem_singleton.1 hraw
    rw [hd.kind_eq] at hkind
    cases hkind
  | @carry f _ _ _ o _ t _ _ _ _ _ _ _ _ =>
    have hcarried : Native
        { ledger with
          next := ledger.next + 1
          carriers := ledger.carriers ++ [⟨f, o, t, ⟨ledger.next, false⟩⟩] } :=
      h.keep h.binding (.refl _) rfl
    refine hcarried.post fun raw hraw hkind => ?_
    rcases List.mem_append.1 hraw with hraw | hraw
    · obtain ⟨earlier, -, rfl⟩ := List.mem_map.1 hraw
      cases hkind
    · cases List.mem_singleton.1 hraw
      cases hkind

theorem headMoves (h : ledger.Native) (hm : HeadMoves brief edge first ledger later) :
    later.Native := by
  induction hm with
  | refl => exact h
  | tail _ hmove ih => exact ih.headMove hmove

theorem reachMoves {x y : List Boundary × Ledger} (h : x.2.Native)
    (hm : ReachMoves brief edge first x y) : y.2.Native := by
  induction hm with
  | refl => exact h
  | tail _ hmove ih =>
    cases hmove with
    | head hm => exact ih.headMove hm
    | tie _ =>
      refine ih.post fun raw hraw hkind => ?_
      cases List.mem_singleton.1 hraw
      cases hkind
    | settle _ _ => exact ih.keep ih.binding (.refl _) rfl

/-- **A request that binds nothing leaves a ledger native.** -/
theorem passes {theory : Theory} {log log' : Log} {edge edge' : Option Instant} {request : Request}
    (h : ledger.Native) (hp : Passes theory log edge ledger request log' edge' later)
    (hplain : request.binds = false) : later.Native := by
  cases hp with
  | refused => exact h
  | reached _ hreaches =>
    have hcleared : ledger.cleared.Native := h.keep h.binding (.refl _) rfl
    exact hcleared.reachMoves hreaches.extending.moves
  | @closed _ middle _ hcloses =>
    have hmiddle := h.headMoves hcloses.moves
    have hposted : (middle.post middle.closingRules).Native := by
      refine hmiddle.post fun raw hraw hkind => ?_
      obtain ⟨b, -, -, rfl⟩ := mem_closingRules.1 hraw
      cases hkind
    exact hposted.keep hposted.binding (.refl _) rfl
  | @answered last _ _ _ _ _ _ hm _ =>
    have hm : HeadMoves ⟨theory, log.demands⟩ last 0 ledger later := Moves.headMoves hm
    exact h.headMoves hm
  | demanded _ _ hm _ _ => exact h.headMoves hm
  | bound _ _ => cases hplain
  | supplied => exact h.keep h.binding (.refl _) rfl

end Native

/-! ## Resolved ledgers -/

namespace Resolved

variable {brief : Brief} {edge : Instant} {first : Nat} {ledger later : Ledger}

theorem keep (h : ledger.Resolved edge) (hkeeps : ledger.Keeps later)
    (hentry : later.entry = ledger.entry) : later.Resolved edge := by
  intro arg weak s y hy
  rw [hentry] at hy
  exact (h arg weak s y hy).mono hkeeps.lit (Nat.le_refl _) fun _ => rfl

theorem move (h : ledger.Resolved edge) (hnative : ledger.Native) (hlast : edge.last = true)
    (hm : Move edge ledger later) : later.Resolved edge := by
  have hbelow := hm.grows.toKeeps.lit
  -- A next without an entry is the only one that can get another literal.
  have hold : ∀ {f : Formula} {s : Nat} {l : Lit}, later.entry = ledger.entry.put f s (some l) →
      (∀ arg weak, f = .next arg weak → Sheet.Source later.lit edge f s l) →
      later.Resolved edge := by
    intro f s l hentry hnew arg weak t y hy
    rw [hentry] at hy
    by_cases heq : Formula.next arg weak = f ∧ t = s
    · obtain ⟨rfl, rfl⟩ := heq
      rw [Sheet.put_self] at hy
      cases hy
      exact hnew arg weak rfl
    · rw [Sheet.put_of_ne heq] at hy
      exact (h arg weak t y hy).mono hbelow (Nat.le_refl _) fun _ => rfl
  cases hm with
  | enter _ _ hnone => exact h.keep (Grows.enter hnone).toKeeps rfl
  | @share f s y _ _ _ _ hy =>
    refine hold rfl fun arg weak _ => ?_
    rw [representative, hnative.binding, Option.getD_none]
    exact hy.mono hbelow (Nat.le_refl _) fun _ => rfl
  | define _ _ _ hd =>
    refine hold rfl fun arg weak hf => ?_
    subst hf
    cases hd.isDefinedAt
  | await _ hopen _ =>
    rw [hlast] at hopen
    cases hopen

theorem headMoves (h : ledger.Resolved edge) (hnative : ledger.Native) (hlast : edge.last = true)
    (hm : HeadMoves brief edge first ledger later) : later.Resolved edge := by
  induction hm with
  | refl => exact h
  | tail hmoves hmove ih =>
    have hkeeps := hmove.grows.toKeeps
    cases hmove with
    | body hm => exact ih.move (hnative.headMoves hmoves) hlast hm
    | demand _ _ _ _ | duty _ _ _ | defer _ _ _ | carry _ _ _ _ _ _ | rest _ _ _ _ _ _ =>
      exact ih.keep hkeeps rfl

/-- **On a closed horizon no literal has to wait.** -/
theorem passes {theory : Theory} {log log' : Log} {k : Nat} {edge' : Option Instant}
    {request : Request} (h : ledger.Resolved ⟨k, true⟩) (hnative : ledger.Native)
    (hp : Passes theory log (some ⟨k, true⟩) ledger request log' edge' later)
    (hplain : request.binds = false) : later.Resolved ⟨k, true⟩ := by
  cases hp with
  | refused => exact h
  | reached hopen _ => cases hopen _ rfl
  | closed hedge _ => cases hedge
  | answered hedge _ hm _ =>
    cases hedge
    have hm : HeadMoves ⟨theory, log.demands⟩ ⟨k, true⟩ 0 ledger later := Moves.headMoves hm
    exact h.headMoves hnative rfl hm
  | demanded hedge _ hm _ _ =>
    cases hedge
    exact h.headMoves hnative rfl hm
  | bound _ _ => cases hplain
  | supplied => exact h.keep ledger.keeps_supplied rfl

end Resolved
end Ledger

/-- Formulas without malformed paths are accepted for the initial stage. -/
theorem Theory.validateAll_initial {fs : List Formula} (hfs : ∀ f ∈ fs, f.malformedPath? = none) :
    validateAll (fs.map fun f => (Stage.initial, f)) = .ok () := by
  induction fs with
  | nil => rfl
  | cons f rest ih =>
    have hf : validate .initial f = .ok () := by
      rw [validate, hfs f List.mem_cons_self]
      rfl
    rw [List.map_cons, validateAll, hf]
    exact ih fun g hg => hfs g (List.mem_cons_of_mem _ hg)

/-- The theory that has formulas in its initial stage asks for them at step 0. -/
theorem Brief.Asks.initial (fs : List Formula) :
    Brief.Asks ⟨⟨fs.map fun f => (.initial, f)⟩, []⟩ fs := by
  refine ⟨fun stage f hmem => ?_, nofun, fun f hf => .inl (List.mem_map.2 ⟨f, hf, rfl⟩)⟩
  obtain ⟨g, hg, heq⟩ := List.mem_map.1 hmem
  cases heq
  exact ⟨rfl, hg⟩

/-- So do demands for them. -/
theorem Brief.Asks.ofDemands {fs : List Formula} {demands : List (Formula × Nat)}
    (h : ∀ f s, (f, s) ∈ demands ↔ s = 0 ∧ f ∈ fs) : Asks ⟨{}, demands⟩ fs :=
  ⟨nofun, fun f s => (h f s).1, fun f hf => .inr ((h f 0).2 ⟨rfl, hf⟩)⟩

namespace Session

/-! ## Sessions without bindings -/

/-- The session of a theory that has been extended to a step and closed there. -/
def unrolledTo [Arithmetic] (theory : Theory) (n : Nat) : Session :=
  after theory (List.replicate (n + 1) .extend ++ [.close n])

/-- What is true of a session between two requests, if nothing has been bound. -/
structure Unaided (theory : Theory) (session : Session) : Prop where
  proper : Proper theory session
  native : session.ledger.Native

namespace Unaided

variable {theory : Theory} {session : Session}

theorem perform (h : Unaided theory session) {request : Request} (hplain : request.binds = false) :
    Unaided theory (session.perform request) := by
  refine ⟨h.proper.perform ?_, h.native.passes (h.proper.sane.takes request).passes hplain⟩
  cases request with
  | bind f s host => cases hplain
  | _ => trivial

theorem performAll (h : Unaided theory session) {requests : List Request}
    (hplain : ∀ request ∈ requests, request.binds = false) :
    Unaided theory (requests.foldl Session.perform session) := by
  induction requests generalizing session with
  | nil => exact h
  | cons request rest ih =>
    have hnext := h.perform (hplain request List.mem_cons_self)
    exact ih hnext fun later hr => hplain later (List.mem_cons_of_mem _ hr)

theorem start (hvalid : Theory.validateAll theory.formulas = .ok ()) :
    Unaided theory (after theory []) :=
  ⟨(reachable_after hvalid (List.forall_mem_nil _)).proper,
    fun _ _ => Option.bind_fun_none _, nofun⟩

/-- An open edge moves on by one step. -/
theorem extend (h : Unaided theory session) (hopen : session.unrolling.isClosed = false) :
    (session.perform .extend).unrolling.edge = some ⟨session.unrolling.nextStep, false⟩ ∧
      (session.perform .extend).toLog = session.toLog := by
  obtain ⟨after, history, hextend, -⟩ := h.proper.sane.extend_ok hopen
  simp only [Session.perform, hextend, and_self]

/-- An open edge can be closed. -/
theorem close (h : Unaided theory session) {k : Nat}
    (hedge : session.unrolling.edge = some ⟨k, false⟩) :
    (session.perform (.close k)).unrolling.edge = some ⟨k, true⟩ ∧
      (session.perform (.close k)).toLog = session.toLog := by
  obtain ⟨middle, after, history, hclose, -⟩ := h.proper.sane.close_ok hedge
  simp only [Session.perform, hclose, and_self]

/-- A formula without malformed paths can be required at step 0 when a step has been
reached. -/
theorem require (h : Unaided theory session) {edge : Instant} {f : Formula}
    (hedge : session.unrolling.edge = some edge) (hf : f.malformedPath? = none) :
    (session.perform (.require f 0)).demands = (f, 0) :: session.demands := by
  have hvalid : validate .always f = .ok () := by
    rw [validate, hf]
    rfl
  obtain ⟨after, hrequire, -⟩ := h.proper.sane.require_ok hvalid hedge (Nat.zero_le _)
  simp only [Session.perform, hrequire]

end Unaided

section Unrolling

variable {theory : Theory}

theorem unaided_extends (hvalid : Theory.validateAll theory.formulas = .ok ()) (k : Nat) :
    Unaided theory (after theory (List.replicate k .extend)) := by
  refine (Unaided.start hvalid).performAll fun request hr => ?_
  rw [List.eq_of_mem_replicate hr]
  rfl

/-- The last of some extensions has reached the edge. -/
theorem edge_extends (hvalid : Theory.validateAll theory.formulas = .ok ()) (k : Nat) :
    (after theory (List.replicate (k + 1) .extend)).unrolling.edge = some ⟨k, false⟩ ∧
      (after theory (List.replicate (k + 1) .extend)).toLog = {} := by
  induction k with
  | zero => exact (Unaided.start hvalid).extend rfl
  | succ k ih =>
    obtain ⟨hedge, hlog⟩ := ih
    have hopen : (after theory (List.replicate (k + 1) .extend)).unrolling.isClosed = false := by
      rw [Unrolling.isClosed, hedge]
    obtain ⟨hnext, hkept⟩ := (unaided_extends hvalid (k + 1)).extend hopen
    rw [Unrolling.nextStep_eq, hedge] at hnext
    rw [List.replicate_succ', after_concat]
    exact ⟨hnext, hkept.trans hlog⟩

theorem isClosed_extends (hvalid : Theory.validateAll theory.formulas = .ok ()) (k : Nat) :
    (after theory (List.replicate k .extend)).unrolling.isClosed = false := by
  cases k with
  | zero => rfl
  | succ k => rw [Unrolling.isClosed, (edge_extends hvalid k).1]

theorem unaided_unrolledTo (hvalid : Theory.validateAll theory.formulas = .ok ()) (n : Nat) :
    Unaided theory (unrolledTo theory n) := by
  rw [unrolledTo, after_concat]
  exact (unaided_extends hvalid (n + 1)).perform rfl

theorem edge_unrolledTo (hvalid : Theory.validateAll theory.formulas = .ok ()) (n : Nat) :
    (unrolledTo theory n).unrolling.edge = some ⟨n, true⟩ ∧ (unrolledTo theory n).toLog = {} := by
  obtain ⟨hedge, hlog⟩ := edge_extends hvalid n
  obtain ⟨hclosed, hkept⟩ := (unaided_extends hvalid (n + 1)).close hedge
  rw [unrolledTo, after_concat]
  exact ⟨hclosed, hkept.trans hlog⟩

end Unrolling

/-! ## The empty theory -/

/-- Extending the empty theory leaves the encoder as it was. -/
theorem encoder_extends (k : Nat) :
    (after {} (List.replicate k .extend)).unrolling.encoder = Unrolling.startEncoder {} := by
  induction k with
  | zero => rfl
  | succ k ih =>
    have hopen := @isClosed_extends {} rfl k
    have htheory := (@unaided_extends {} rfl k).proper.theory_eq
    rw [List.replicate_succ', after_concat]
    generalize after {} (List.replicate k .extend) = session at ih hopen htheory ⊢
    have hreach : Unrolling.reachStep session.unrolling.theory session.unrolling.nextStep
        session.unrolling.encoder = .ok [] (Unrolling.startEncoder {}) := by
      rw [htheory, ih]
      rfl
    obtain ⟨history, hextend⟩ := Unrolling.extend_ok hopen hreach
    simp only [perform, hextend]
    rfl

/-- So does closing it: there is nothing to settle. -/
theorem encoder_unrolledTo (n : Nat) :
    (unrolledTo {} n).unrolling.encoder = Unrolling.startEncoder {} := by
  have hencoder := encoder_extends (n + 1)
  have hedge := (@edge_extends {} rfl n).1
  have htheory := (@unaided_extends {} rfl (n + 1)).proper.theory_eq
  rw [unrolledTo, after_concat]
  generalize after {} (List.replicate (n + 1) .extend) = session at hencoder hedge htheory ⊢
  have hclose : Unrolling.closeStep session.unrolling.theory n session.unrolling.encoder =
      .ok [] (Unrolling.startEncoder {}) := by
    rw [htheory, hencoder]
    rfl
  obtain ⟨history, hclose⟩ := Unrolling.close_ok hedge hclose rfl
  simp only [perform, hclose]
  rfl

theorem resolved_unrolledTo (n : Nat) (edge : Instant) :
    (unrolledTo {} n).ledger.Resolved edge := by
  intro arg weak s y hy
  rw [ledger, encoder_unrolledTo] at hy
  have hnone : some y = none := hy.symm.trans (Option.bind_fun_none _)
  cases hnone

/-! ## Early and late -/

/-- The session of the theory that has formulas in its initial stage, on a closed horizon. -/
def early [Arithmetic] (fs : List Formula) (n : Nat) : Session :=
  unrolledTo ⟨fs.map fun f => (.initial, f)⟩ n

/-- The session of the empty theory on a closed horizon, where formulas have been required
at step 0 in turn. -/
def late [Arithmetic] (fs : List Formula) (n : Nat) : Session :=
  (fs.map fun f => Request.require f 0).foldl perform (unrolledTo {} n)

/-- The ground atoms, by their names and steps, that are true in a stable model of all rules
so far. -/
def projections [Arithmetic] (session : Session) : Set (Set (Formula × Nat)) :=
  session.ledger.facts '' {atoms | StableModel ⟨session.rules, []⟩ atoms}

section Requiring

variable {theory theory' : Theory} {session other : Session} {n : Nat} {fs : List Formula}

/-- On a closed horizon formulas can be required, and no literal has to wait. -/
theorem Unaided.requireAll (h : Unaided theory session)
    (hedge : session.unrolling.edge = some ⟨n, true⟩)
    (hresolved : session.ledger.Resolved ⟨n, true⟩) (hfs : ∀ f ∈ fs, f.malformedPath? = none) :
    let later := (fs.map fun f => Request.require f 0).foldl Session.perform session
    later.unrolling.edge = some ⟨n, true⟩ ∧ later.ledger.Resolved ⟨n, true⟩ ∧
      ∀ f s, (f, s) ∈ later.demands ↔ s = 0 ∧ f ∈ fs ∨ (f, s) ∈ session.demands := by
  induction fs generalizing session with
  | nil => simpa using ⟨hedge, hresolved⟩
  | cons g rest ih =>
    have hpasses := (h.proper.sane.takes (.require g 0)).passes
    have hdemands := h.require hedge (hfs g List.mem_cons_self)
    have hkept := hpasses.edge_eq hedge
    rw [hedge] at hpasses
    obtain ⟨hedge', hresolved', hmem⟩ := ih (h.perform rfl) hkept
      (hresolved.passes h.native hpasses rfl) fun f hf => hfs f (List.mem_cons_of_mem _ hf)
    refine ⟨hedge', hresolved', fun f s => (hmem f s).trans ?_⟩
    rw [hdemands, List.mem_cons, List.mem_cons, Prod.mk.injEq]
    tauto

/-- The projections of a session are among those of another one for the same formulas, if
no literal had to wait or if all formulas are steady. -/
theorem Unaided.projections_subset (h : Unaided theory session) (h' : Unaided theory' other)
    (hedge : session.unrolling.edge = some ⟨n, true⟩)
    (hedge' : other.unrolling.edge = some ⟨n, true⟩)
    (hasks : Brief.Asks ⟨theory, session.demands⟩ fs)
    (hasks' : Brief.Asks ⟨theory', other.demands⟩ fs)
    (hsteady : session.ledger.Resolved ⟨n, true⟩ ∨ ∀ f ∈ fs, f.isSteady n 0 = true) :
    session.projections ⊆ other.projections := by
  rintro _ ⟨atoms, stable, rfl⟩
  have hstanding := h.proper.standing
  have hstanding' := h'.proper.standing
  rw [hedge] at hstanding
  rw [hedge'] at hstanding'
  have stable : StableModel ⟨session.rules, []⟩ atoms := stable
  rw [← h.proper.ledger_rules] at stable
  obtain ⟨atoms', stable', hfacts⟩ :=
    hstanding.exists_counterpart hstanding' hasks hasks' h.native hsteady stable
  rw [h'.proper.ledger_rules] at stable'
  exact ⟨atoms', stable', hfacts⟩

/-- The two sessions are closed, they ask for the same formulas, and this is what their stable
models have in common. -/
theorem projections_of_late (fs : List Formula) (n : Nat)
    (hfs : ∀ f ∈ fs, f.malformedPath? = none) :
    (early fs n).unrolling.edge = some ⟨n, true⟩ ∧ (late fs n).unrolling.edge = some ⟨n, true⟩ ∧
      (∀ f, (f, 0) ∈ (late fs n).demands ↔ f ∈ fs) ∧
      (late fs n).projections ⊆ (early fs n).projections ∧
      ((∀ f ∈ fs, f.isSteady n 0 = true) → (late fs n).projections = (early fs n).projections) := by
  have hvalid := Theory.validateAll_initial hfs
  have hearly : Unaided ⟨fs.map fun f => (.initial, f)⟩ (early fs n) := unaided_unrolledTo hvalid n
  obtain ⟨hedge, hlog⟩ : (early fs n).unrolling.edge = some ⟨n, true⟩ ∧ (early fs n).toLog = {} :=
    edge_unrolledTo hvalid n
  have hasks : Brief.Asks ⟨⟨fs.map fun f => (.initial, f)⟩, (early fs n).demands⟩ fs := by
    rw [hlog]
    exact .initial fs
  have hempty : Unaided {} (unrolledTo {} n) := unaided_unrolledTo rfl n
  obtain ⟨hclosed, hnothing⟩ := @edge_unrolledTo {} rfl n
  obtain ⟨hedge', hresolved, hdemands⟩ := hempty.requireAll hclosed (resolved_unrolledTo n _) hfs
  have hlate : Unaided {} (late fs n) := hempty.performAll fun request hr => by
    obtain ⟨f, -, rfl⟩ := List.mem_map.1 hr
    rfl
  have hdemands : ∀ f s, (f, s) ∈ (late fs n).demands ↔ s = 0 ∧ f ∈ fs := fun f s => by
    refine (hdemands f s).trans (or_iff_left ?_)
    rw [hnothing]
    exact List.not_mem_nil
  have hasks' := Brief.Asks.ofDemands hdemands
  have hsubset := hlate.projections_subset hearly hedge' hedge hasks' hasks (.inl hresolved)
  refine ⟨hedge, hedge', fun f => ?_, hsubset, fun hsteady => hsubset.antisymm ?_⟩
  · rw [hdemands]
    exact and_iff_right rfl
  · exact hearly.projections_subset hlate hedge hedge' hasks hasks' (.inr hsteady)

end Requiring

end Session
end Exact

namespace Session

theorem early_eq_exact [Arithmetic] {fs : List Formula} {n : Nat} (h : (early fs n).InRange) :
    early fs n = @early .exact fs n := by
  unfold early unrolledTo at h ⊢
  refine after_eq_exact (fun request hr => ?_) h
  rcases List.mem_append.1 hr with hr | hr
  · rw [List.eq_of_mem_replicate hr]
    rfl
  · rw [List.mem_singleton.1 hr]
    rfl

/-- The late session is one run of requests. -/
theorem late_eq_after [Arithmetic] (fs : List Formula) (n : Nat) :
    late fs n = after {} (List.replicate (n + 1) .extend ++ [.close n] ++
      fs.map fun f => .require f 0) :=
  List.foldl_append.symm

theorem late_eq_exact [Arithmetic] {fs : List Formula} {n : Nat} (h : (late fs n).InRange) :
    late fs n = @late .exact fs n := by
  rw [late_eq_after] at h ⊢
  rw [@late_eq_after .exact]
  refine after_eq_exact (fun request hr => ?_) h
  rcases List.mem_append.1 hr with hr | hr
  · rcases List.mem_append.1 hr with hr | hr
    · rw [List.eq_of_mem_replicate hr]
      rfl
    · rw [List.mem_singleton.1 hr]
      rfl
  · obtain ⟨f, -, rfl⟩ := List.mem_map.1 hr
    rfl

/-- **Requiring late and early.**  Formulas without malformed paths are taken up by a theory
while its steps are reached, or required one after the other when the horizon has been
closed.  What is true in a stable model of the late rules is, atom by atom and step by step,
what is true in one of the early rules.  If all formulas are steady, the converse holds too.
Both sessions must be in range at the end. -/
theorem late_projections [Arithmetic] (fs : List Formula) (n : Nat)
    (hfs : ∀ f ∈ fs, f.malformedPath? = none)
    (hearly : (early fs n).InRange) (hlate : (late fs n).InRange) :
    (early fs n).unrolling.edge = some ⟨n, true⟩ ∧ (late fs n).unrolling.edge = some ⟨n, true⟩ ∧
      (∀ f, (f, 0) ∈ (late fs n).demands ↔ f ∈ fs) ∧
      (late fs n).projections ⊆ (early fs n).projections ∧
      ((∀ f ∈ fs, f.isSteady n 0 = true) →
        (late fs n).projections = (early fs n).projections) := by
  rw [early_eq_exact hearly, late_eq_exact hlate]
  exact projections_of_late fs n hfs

/-- Two steady formulas.  The first one refers through a next to the negation of an atom, but
only in the body of a constraint; behind the next of the second one the since has an atom of
its own. -/
theorem late_projections_steady :
    let p := Formula.atom "p" [] true
    let q := Formula.atom "q" [] true
    let fs := [Formula.binary .implies (.not (.next (.not q) false)) (.not p),
      .binary .or p (.next (.modal .since (.not q)) false)]
    (∀ f ∈ fs, f.malformedPath? = none) ∧ (early fs 1).InRange ∧ (late fs 1).InRange ∧
      (∀ f ∈ fs, f.isSteady 1 0 = true) ∧ (late fs 1).rules ≠ (early fs 1).rules ∧
      (late fs 1).projections = (early fs 1).projections := by
  intro p q fs
  have hfs : ∀ f ∈ fs, f.malformedPath? = none := by decide +kernel
  have hearly : (early fs 1).InRange := by decide +kernel
  have hlate : (late fs 1).InRange := by decide +kernel
  have hsteady : ∀ f ∈ fs, f.isSteady 1 0 = true := by decide +kernel
  obtain ⟨-, -, -, -, hequal⟩ := late_projections fs 1 hfs hearly hlate
  exact ⟨hfs, hearly, hlate, hsteady, by decide +kernel, hequal hsteady⟩

/-- **A double negation around a next.**  At step 0 the atom `p` is required unless the next
step says that `p` was false before.  The early session has `p` if it is not the case that
`p` is false, and a stable model may assume so; the late session has `p` only if `p` follows
from itself. -/
theorem late_projections_ne :
    let p := Formula.atom "p" [] true
    let f := Formula.binary .or p (.next (.previous (.not p) false) false)
    f.malformedPath? = none ∧
      (late [f] 1).projections ≠ (early [f] 1).projections := by
  intro p f
  refine ⟨by decide +kernel, fun hequal => ?_⟩
  have hearly : (early [f] 1).rules = [.normal 2 [⟨3, true⟩], .normal 3 [⟨2, true⟩]] := by
    decide +kernel
  have hlate : (late [f] 1).rules = [.normal 2 [⟨2, false⟩]] := by decide +kernel
  have hground : (early [f] 1).ledger.ground p 0 = some ⟨2, false⟩ := by decide +kernel
  -- The set with `p` alone is stable for the early rules.
  have stable : StableModel ⟨(early [f] 1).rules, []⟩ {2} := by
    rw [hearly]
    refine ⟨fun rule hr => ?_, fun part hpart hreduct _ => hpart.antisymm ?_⟩
    · rcases List.mem_cons.1 hr with rfl | hr
      · exact (Rule.satisfiedBy_normal 2 _).2 fun _ => rfl
      · cases List.mem_singleton.1 hr
        refine (Rule.satisfiedBy_normal 3 _).2 fun hbody => ?_
        exact absurd rfl (hbody ⟨2, true⟩ List.mem_cons_self)
    · rintro a rfl
      obtain ⟨b, hb, hmem⟩ := hreduct (.normal 2 [⟨3, true⟩]) List.mem_cons_self fun l hl => by
        cases List.mem_singleton.1 hl
        exact nofun
      cases List.mem_singleton.1 hb
      exact hmem
  have hmem : (early [f] 1).ledger.facts {2} ∈ (late [f] 1).projections := by
    rw [hequal]
    exact ⟨{2}, stable, rfl⟩
  obtain ⟨atoms, stable', hfacts⟩ := hmem
  have stable' : StableModel ⟨(late [f] 1).rules, []⟩ atoms := stable'
  rw [hlate] at stable'
  -- Nothing follows from the late rules.
  have hempty : ∅ = atoms := by
    refine stable'.minimal ∅ (Set.empty_subset _) (fun rule hr hbody => ?_) nofun
    cases List.mem_singleton.1 hr
    exact absurd (hbody ⟨2, false⟩ List.mem_cons_self) (Set.notMem_empty 2)
  have hp : (p, 0) ∈ (late [f] 1).ledger.facts atoms := by
    rw [hfacts]
    exact ⟨_, hground, rfl⟩
  obtain ⟨l, -, hl⟩ := hp
  rw [← hempty] at hl
  exact hl

end Session
end TemporalHorizon

import TemporalHorizon.Proofs.ExactSessions

/-!
# What waits at the edge

Externals, postponed requirements and instances are looked up by one exact step, so
what is filed under any other step would never be found again.  Here it is shown that
nothing is: whatever has been requested, all of it waits for the step after the edge.
The next step therefore settles every external, and an external that has been settled
is never opened again.

* `Ledger.Spent`: an atom that cannot become an external.  Only fresh atoms and host
  literals at hand or bound can, so one that has been settled is spent, and
  `Ledger.Spent.passes` says that it stays so.
* `Session.Later`: what a caller can bring about from a session on.
* `Session.Reachable.released_eq_externals`: the three statements together.
-/

namespace TemporalHorizon

section Exact

attribute [local instance] Arithmetic.exact

namespace Ledger

/-! ## Atoms that cannot be opened again -/

/-- An atom that has been handed out and is neither an open external nor a host
literal, bound or still at hand. -/
structure Spent (hosts : List Lit) (ledger : Ledger) (a : Nat) : Prop where
  lt : a < ledger.next
  unheld : ∀ host ∈ hosts, host.atom ≠ a
  unbound : ∀ f s host, ledger.binding f s = some host → host.atom ≠ a
  unopened : ∀ b ∈ ledger.edge.boundaries, b.lit.atom ≠ a

namespace Spent

variable {hosts : List Lit} {ledger later : Ledger} {a : Nat}

/-- The next literal of a formula is not a spent atom. -/
theorem candidate_ne (h : Spent hosts ledger a) (f : Formula) (s : Nat) :
    (ledger.candidate f s).atom ≠ a := by
  unfold candidate
  cases hb : ledger.binding f s with
  | none => exact Nat.ne_of_gt h.lt
  | some host => exact h.unbound f s host hb

/-- Consuming a binding makes no other literal a host literal. -/
theorem unbound_put (h : Spent hosts ledger a) (f : Formula) (s : Nat) {g : Formula} {t : Nat}
    {host : Lit} (hb : ledger.binding.put f s none g t = some host) : host.atom ≠ a := by
  by_cases heq : g = f ∧ t = s
  · rw [heq.1, heq.2, Sheet.put_self] at hb
    cases hb
  · rw [Sheet.put_of_ne heq] at hb
    exact h.unbound g t host hb

theorem post (h : Spent hosts ledger a) (rules : List Rule) : Spent hosts (ledger.post rules) a :=
  ⟨h.lt, h.unheld, h.unbound, h.unopened⟩

theorem enter (h : Spent hosts ledger a) (f : Formula) (s : Nat) :
    Spent hosts (ledger.enter f s) a :=
  ⟨Nat.lt_succ_of_lt h.lt, h.unheld, h.unbound, h.unopened⟩

theorem share (h : Spent hosts ledger a) (f : Formula) (s : Nat) (y : Lit) :
    Spent hosts (ledger.share f s y) a :=
  ⟨h.lt, h.unheld, fun _ _ _ => h.unbound_put f s, h.unopened⟩

theorem claim (h : Spent hosts ledger a) (f : Formula) (s : Nat) :
    Spent hosts (ledger.claim f s) a := by
  refine ⟨?_, h.unheld, fun _ _ _ => h.unbound_put f s, h.unopened⟩
  show a < if (ledger.binding f s).isSome then ledger.next else ledger.next + 1
  split
  · exact h.lt
  · exact Nat.lt_succ_of_lt h.lt

theorem move {edge : Instant} (h : Spent hosts ledger a) (hm : Move edge ledger later) :
    Spent hosts later a := by
  cases hm with
  | enter _ _ _ => exact h.enter _ _
  | share _ _ _ _ _ => exact h.share _ _ _
  | define _ _ _ _ => exact (h.claim _ _).post _
  | await _ _ _ =>
    have hclaim := h.claim
    refine ⟨(hclaim _ _).lt, h.unheld, (hclaim _ _).unbound, fun b hb => ?_⟩
    rcases List.mem_append.1 hb with hb | hb
    · exact h.unopened b hb
    · cases List.mem_singleton.1 hb
      exact h.candidate_ne _ _

theorem headMove {brief : Brief} {edge : Instant} {first : Nat} (h : Spent hosts ledger a)
    (hm : HeadMove brief edge first ledger later) : Spent hosts later a := by
  cases hm with
  | body hm => exact h.move hm
  | demand _ _ _ _ => exact ⟨h.lt, h.unheld, h.unbound, h.unopened⟩
  | duty _ _ _ => exact h.post _
  | defer _ _ _ => exact ⟨h.lt, h.unheld, h.unbound, h.unopened⟩
  | carry _ _ _ _ _ _ => exact ⟨Nat.lt_succ_of_lt h.lt, h.unheld, h.unbound, h.unopened⟩
  | rest _ _ _ _ _ _ => exact ⟨h.lt, h.unheld, h.unbound, h.unopened⟩

theorem headMoves {brief : Brief} {edge : Instant} {first : Nat} (h : Spent hosts ledger a)
    (hm : HeadMoves brief edge first ledger later) : Spent hosts later a := by
  induction hm with
  | refl => exact h
  | tail _ hmove ih => exact ih.headMove hmove

theorem reachMoves {brief : Brief} {edge : Instant} {first : Nat} {x y : List Boundary × Ledger}
    (h : Spent hosts x.2 a) (hm : ReachMoves brief edge first x y) : Spent hosts y.2 a := by
  induction hm with
  | refl => exact h
  | tail _ hmove ih =>
    cases hmove with
    | head hm => exact ih.headMove hm
    | tie _ => exact ih.post _
    | settle _ _ => exact ⟨ih.lt, ih.unheld, ih.unbound, ih.unopened⟩

/-- Binding a host literal of another atom. -/
theorem bind (h : Spent hosts ledger a) {f : Formula} {s : Nat} {host : Lit}
    (hne : host.atom ≠ a) : Spent hosts (ledger.bind f s host) a := by
  refine ⟨h.lt, h.unheld, fun g t other hb => ?_, h.unopened⟩
  have hb : ledger.binding.put f s (some host) g t = some other := hb
  by_cases heq : g = f ∧ t = s
  · rw [heq.1, heq.2, Sheet.put_self] at hb
    cases hb
    exact hne
  · rw [Sheet.put_of_ne heq] at hb
    exact h.unbound g t other hb

theorem binds (h : Spent hosts ledger a) {f : Formula} {s : Nat} {host : Lit}
    (hne : host.atom ≠ a) (hb : ledger.Binds f s host later) : Spent hosts later a := by
  cases hb with
  | composite _ => exact h.bind hne
  | found _ _ => exact (h.bind hne).share _ _ _
  | entered _ _ => exact ((h.bind hne).enter _ _).share _ _ _

/-- **A spent atom stays spent** over every request that may be sent. -/
theorem passes {theory : Theory} {log log' : Log} {edge edge' : Option Instant} {request : Request}
    (h : Spent log.hosts ledger a)
    (hp : Passes theory log edge ledger request log' edge' later)
    (hhost : ∀ f s host, request = .bind f s host → host ∈ log.hosts) :
    Spent log'.hosts later a := by
  cases hp with
  | refused => exact h
  | reached _ hreaches =>
    have hcleared : Spent log.hosts ledger.cleared a := ⟨h.lt, h.unheld, h.unbound, nofun⟩
    exact hcleared.reachMoves hreaches.extending.moves
  | closed _ hcloses =>
    have hmiddle := h.headMoves hcloses.moves
    exact ⟨hmiddle.lt, hmiddle.unheld, hmiddle.unbound, nofun⟩
  | @answered last _ _ _ _ _ _ hm _ =>
    have hm : HeadMoves ⟨theory, log.demands⟩ last 0 ledger later := Moves.headMoves hm
    exact h.headMoves hm
  | demanded _ _ hm _ _ => exact h.headMoves hm
  | bound _ hb =>
    obtain ⟨hlt, hheld, hbound, hopened⟩ := h.binds (h.unheld _ (hhost _ _ _ rfl)) hb
    exact ⟨hlt, fun other hother => hheld other (List.mem_filter.1 hother).1, hbound, hopened⟩
  | supplied =>
    refine ⟨Nat.lt_succ_of_lt h.lt, fun host hmem => ?_, h.unbound, h.unopened⟩
    rcases List.mem_cons.1 hmem with rfl | hmem
    · exact Nat.ne_of_gt h.lt
    · exact h.unheld host hmem

end Spent

/-- The atoms of the open externals are spent once the next step has taken them off
the edge. -/
theorem Standing.spent_cleared {theory : Theory} {log : Log} {edge : Option Instant}
    {ledger : Ledger} (h : Standing theory log edge ledger) {b : Boundary}
    (hb : b ∈ ledger.edge.boundaries) : Spent log.hosts ledger.cleared b.lit.atom := by
  obtain ⟨role, hsound, hidle⟩ := h.accounted
  obtain ⟨-, s, -, hrole⟩ := hsound.boundaries b (List.mem_append_left _ hb)
  refine ⟨(hsound.in_use (by rw [hrole]; nofun)).2, fun host hmem heq => ?_,
    fun f t host hbound heq => ?_, nofun⟩
  · have hhost := (hidle host hmem).2.2.2
    rw [heq, hrole] at hhost
    cases hhost
  · have hhost := (hsound.binding f t host hbound).2
    rw [heq, hrole] at hhost
    cases hhost

/-- A closed edge stays as it is. -/
theorem Passes.edge_eq {theory : Theory} {log log' : Log} {edge edge' : Option Instant}
    {ledger later : Ledger} {request : Request} {k : Nat}
    (hp : Passes theory log edge ledger request log' edge' later)
    (hclosed : edge = some ⟨k, true⟩) : edge' = some ⟨k, true⟩ := by
  cases hp with
  | refused => exact hclosed
  | reached hopen _ => cases hopen _ hclosed
  | closed hedge _ =>
    rw [hclosed] at hedge
    cases hedge
  | answered _ _ _ _ => exact hclosed
  | demanded _ _ _ _ _ => exact hclosed
  | bound _ _ => exact hclosed
  | supplied => exact hclosed

end Ledger

/-! ## Sessions -/

namespace Session

/-- What a caller can bring about from a session on. -/
def Later [Arithmetic] : Session → Session → Prop :=
  Relation.ReflTransGen fun session later =>
    ∃ request, session.Permits request ∧ later = session.perform request

variable {theory : Theory} {session next : Session}

theorem Proper.later (h : Proper theory session) (hl : session.Later next) :
    Proper theory next := by
  induction hl with
  | refl => exact h
  | tail _ hstep ih =>
    obtain ⟨request, hpermits, rfl⟩ := hstep
    exact ih.perform hpermits

/-- What one request keeps is kept for good. -/
theorem Proper.later_induction {motive : Session → Prop} (h : Proper theory session)
    (hl : session.Later next) (hstart : motive session)
    (hstep : ∀ session request, Proper theory session → session.Permits request →
      motive session → motive (session.perform request)) : motive next := by
  induction hl with
  | refl => exact hstart
  | tail hpath hlast ih =>
    obtain ⟨request, hpermits, rfl⟩ := hlast
    exact hstep _ request (h.later hpath) hpermits ih

/-- At a closed edge nothing is open, now and later. -/
theorem Proper.boundaries_of_closed (h : Proper theory session)
    (hclosed : session.unrolling.isClosed = true) (hl : session.Later next) :
    next.unrolling.encoder.edge.boundaries = [] := by
  obtain ⟨k, hedge⟩ : ∃ k, session.unrolling.edge = some ⟨k, true⟩ := by
    unfold Unrolling.isClosed at hclosed
    split at hclosed
    · next edge hedge => exact ⟨edge.index, by rw [hedge, ← hclosed]⟩
    · cases hclosed
  have hnext : next.unrolling.edge = some ⟨k, true⟩ :=
    h.later_induction (motive := fun session => session.unrolling.edge = some ⟨k, true⟩) hl hedge
      fun session request hproper _ hedge => (hproper.sane.takes request).passes.edge_eq hedge
  exact (h.later hl).standing.settled _ hnext rfl

/-- A spent atom is never an open external. -/
theorem Proper.externals_of_spent (h : Proper theory session) {a : Nat}
    (hspent : Ledger.Spent session.hosts session.ledger a) (hl : session.Later next) :
    ∀ external ∈ next.unrolling.encoder.edge.externals, external.lit.atom ≠ a := by
  have hnext : Ledger.Spent next.hosts next.ledger a := by
    refine h.later_induction (motive := fun session => Ledger.Spent session.hosts session.ledger a)
      hl hspent fun session request hproper hpermits ih => ?_
    refine ih.passes (hproper.sane.takes request).passes ?_
    rintro f s host rfl
    exact hpermits.1
  intro external hmem
  obtain ⟨b, hb, rfl⟩ := List.mem_map.1 hmem
  exact hnext.unopened b hb

/-- A batch releases the externals that were open before it, in their order.  It closes
the edge, or what it has released is spent. -/
theorem Proper.released_of_batch (h : Proper theory session) {request : Request} {batch : Batch}
    (hbatch : request.batch? session.unrolling = some batch) :
    batch.released = session.unrolling.encoder.edge.boundaries.map Boundary.lit ∧
      ((session.perform request).unrolling.isClosed = true ∨
        ∀ lit ∈ batch.released, Ledger.Spent (session.perform request).hosts
          (session.perform request).ledger lit.atom) := by
  cases request with
  | extend =>
    cases hclosed : session.unrolling.isClosed with
    | true =>
      obtain ⟨cause, hrefused⟩ := Unrolling.extend_refused hclosed
      simp only [Request.batch?, hrefused] at hbatch
      cases hbatch
    | false =>
      obtain ⟨after, history, hok, hreaches⟩ := h.sane.extend_ok hclosed
      simp only [Request.batch?, hok] at hbatch
      cases hbatch
      refine ⟨rfl, .inr fun lit hlit => ?_⟩
      obtain ⟨b, hb, rfl⟩ := List.mem_map.1 hlit
      have hspent := (h.standing.spent_cleared hb).reachMoves hreaches.extending.moves
      rw [← Encoder.ledger_taken] at hspent
      simp only [Session.perform, hok]
      exact hspent
  | close k =>
    by_cases hedge : session.unrolling.edge = some ⟨k, false⟩
    · obtain ⟨middle, after, history, hok, -, -, hcloses⟩ := h.sane.close_ok hedge
      simp only [Request.batch?, hok] at hbatch
      cases hbatch
      refine ⟨?_, .inl (by simp only [Session.perform, hok]; rfl)⟩
      have hsame := hcloses.moves.boundaries_of_last rfl
      show middle.edge.closedExternals.map External.lit = _
      rw [Edge.closedExternals, hsame, List.map_map]
      rfl
    · simp only [Request.batch?, Unrolling.close_refused hedge] at hbatch
      cases hbatch
  | encode f s => cases hbatch
  | require f s => cases hbatch
  | bind f s host => cases hbatch
  | newLiteral => cases hbatch

theorem Proper.released_eq (h : Proper theory session) :
    (∀ k, session.unrolling.edge = some ⟨k, false⟩ →
      (∀ b ∈ session.unrolling.encoder.edge.boundaries, b.target = k + 1) ∧
      (∀ d ∈ session.unrolling.encoder.edge.deferred, d.step = k + 1) ∧
      ∀ inst ∈ session.unrolling.encoder.edge.instances, inst.last = k) ∧
    (∀ request batch, request.batch? session.unrolling = some batch →
      batch.released = session.unrolling.encoder.edge.externals.map External.lit ∧
      ∀ next, (session.perform request).Later next →
        ∀ lit ∈ batch.released, ∀ external ∈ next.unrolling.encoder.edge.externals,
          external.lit.atom ≠ lit.atom) ∧
    (session.unrolling.isClosed = true → ∀ next, session.Later next →
      next.unrolling.encoder.edge.externals = [] ∧
      next.unrolling.encoder.edge.closingAssumptions = []) := by
  refine ⟨fun k hedge => ?_, fun request batch hbatch => ?_, fun hclosed next hl => ?_⟩
  · have hstanding := h.standing
    rw [hedge] at hstanding
    exact ⟨fun b hb => (hstanding.orderly.boundaries b hb).1,
      fun d hd => (hstanding.orderly.deferred d hd).step_eq, hstanding.rested⟩
  · obtain ⟨hreleased, hafter⟩ := h.released_of_batch hbatch
    have hpermits : session.Permits request := by
      cases request with
      | bind f s host => cases hbatch
      | _ => trivial
    have hperform := h.perform hpermits
    refine ⟨?_, fun next hl lit hlit => ?_⟩
    · rw [hreleased, Edge.externals, List.map_map]
      rfl
    · rcases hafter with hclosed | hspent
      · rw [Edge.externals, hperform.boundaries_of_closed hclosed hl]
        nofun
      · exact hperform.externals_of_spent (hspent lit hlit) hl
  · have hnone := h.boundaries_of_closed hclosed hl
    rw [Edge.externals, Edge.closingAssumptions, hnone]
    exact ⟨rfl, rfl⟩

end Session
end Exact

/-! ## Sessions in range -/

namespace Session

section InRange

variable [Arithmetic] {theory : Theory} {session next : Session}

/-- What can follow within the range can follow without words. -/
theorem Later.exact (hl : session.Later next) (h : next.InRange) :
    @Later .exact session next := by
  induction hl with
  | refl => exact .refl
  | tail _ hlast ih =>
    obtain ⟨request, hpermits, rfl⟩ := hlast
    exact (ih (h.of_perform hpermits.inRange)).tail
      ⟨request, hpermits.exact, perform_eq_exact (.inl h) hpermits.inRange⟩

/-- **Nothing is stranded at the edge.**  At an open edge every external, every
postponed requirement and every instance waits for the next step.  The next batch
therefore releases exactly the open externals, in their order, and what it has released
is never an open external again.  Once the edge is closed, nothing is ever open.
All sessions of which this is said must be in range. -/
theorem Reachable.released_eq_externals (h : Reachable theory session) (hrange : session.InRange) :
    (∀ k, session.unrolling.edge = some ⟨k, false⟩ →
      (∀ b ∈ session.unrolling.encoder.edge.boundaries, b.target = k + 1) ∧
      (∀ d ∈ session.unrolling.encoder.edge.deferred, d.step = k + 1) ∧
      ∀ inst ∈ session.unrolling.encoder.edge.instances, inst.last = k) ∧
    (∀ request batch, request.batch? session.unrolling = some batch →
      (session.perform request).InRange →
      batch.released = session.unrolling.encoder.edge.externals.map External.lit ∧
      ∀ next, (session.perform request).Later next → next.InRange →
        ∀ lit ∈ batch.released, ∀ external ∈ next.unrolling.encoder.edge.externals,
          external.lit.atom ≠ lit.atom) ∧
    (session.unrolling.isClosed = true → ∀ next, session.Later next → next.InRange →
      next.unrolling.encoder.edge.externals = [] ∧
      next.unrolling.encoder.edge.closingAssumptions = []) := by
  obtain ⟨hedge, hbatches, hclosed⟩ := (h.exact hrange).proper.released_eq
  refine ⟨hedge, fun request batch hbatch hperform => ?_, fun hlast next hl hnext =>
    hclosed hlast next (hl.exact hnext)⟩
  have hrequest : request.InRange := by
    cases request with
    | bind f s host => cases hbatch
    | _ => trivial
  rw [batch?_eq_exact hperform] at hbatch
  obtain ⟨hreleased, hlater⟩ := hbatches request batch hbatch
  rw [← perform_eq_exact (.inl hperform) hrequest] at hlater
  exact ⟨hreleased, fun next hl hnext => hlater next (hl.exact hnext)⟩

end InRange

/-- An edge at which something of each kind waits, and its extension. -/
theorem released_eq_externals_extend :
    let p := Formula.atom "p" [] true
    let session := after {} [.extend, .encode (.next p false) 0, .require (.next p false) 0,
      .require (.eventually p) 0]
    Reachable {} session ∧ session.InRange ∧ session.unrolling.edge = some ⟨0, false⟩ ∧
      session.unrolling.encoder.edge.deferred.map Deferred.step = [1] ∧
      session.unrolling.encoder.edge.instances.map Instance.last = [0] ∧
      session.unrolling.encoder.edge.externals.map External.lit = [⟨2, false⟩, ⟨3, false⟩] ∧
      (session.perform .extend).InRange ∧
      ∃ batch, Request.batch? session.unrolling .extend = some batch ∧
        batch.released = [⟨2, false⟩, ⟨3, false⟩] ∧
        ∀ next, (session.perform .extend).Later next → next.InRange →
          ∀ external ∈ next.unrolling.encoder.edge.externals, external.lit.atom ≠ 2 := by
  intro p session
  have hreach : Reachable {} session := reachable_after rfl (by decide)
  have hrange : session.InRange := by decide +kernel
  have hperform : (session.perform .extend).InRange := by decide +kernel
  have hedge : session.unrolling.edge = some ⟨0, false⟩ := by decide +kernel
  have hdeferred : session.unrolling.encoder.edge.deferred.map Deferred.step = [1] := by
    decide +kernel
  have hinstances : session.unrolling.encoder.edge.instances.map Instance.last = [0] := by
    decide +kernel
  have hexternals : session.unrolling.encoder.edge.externals.map External.lit =
      [⟨2, false⟩, ⟨3, false⟩] := by decide +kernel
  obtain ⟨-, hbatches, -⟩ := hreach.released_eq_externals hrange
  have hsome : (Request.batch? session.unrolling .extend).isSome = true := by decide +kernel
  obtain ⟨batch, hbatch⟩ := Option.isSome_iff_exists.1 hsome
  obtain ⟨hreleased, hlater⟩ := hbatches .extend batch hbatch hperform
  rw [hexternals] at hreleased
  refine ⟨hreach, hrange, hedge, hdeferred, hinstances, hexternals, hperform, batch, hbatch,
    hreleased, ?_⟩
  intro next hl hnext
  exact hlater next hl hnext ⟨2, false⟩ (by rw [hreleased]; exact List.mem_cons_self)

end Session
end TemporalHorizon

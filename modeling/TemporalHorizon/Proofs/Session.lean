import TemporalHorizon.Proofs.Operations

/-!
# Sessions

A session is an unrolling together with what its caller has seen of it: all rules
that were returned, the host literals that were handed out, the answers, and the
demands.  The caller sends requests one after the other; a request that is refused
leaves no trace.  A host literal may be bound once, and only one that was handed
out.

`Session.Reachable.proper` says what is true after any such sequence of requests.
It is the base of all statements about whole sessions, and the only place where the
operations are looked at.
-/

namespace TemporalHorizon

attribute [local instance] Arithmetic.exact

/-- What a caller has seen of an unrolling, beside the rules. -/
structure Log where
  /-- Host literals that were handed out and have not been bound. -/
  hosts : List Lit := []
  /-- Host literals that were bound. -/
  bound : List Lit := []
  /-- Formulas at steps, with the literals that were returned for them. -/
  answers : List (Formula × Nat × Lit) := []
  /-- Formulas that were required at steps. -/
  demands : List (Formula × Nat) := []

/-- An unrolling with its caller. -/
structure Session extends Log where
  unrolling : Unrolling
  /-- All rules that were returned, in order. -/
  rules : List Rule := []

/-- What a caller may ask for. -/
inductive Request where
  | extend
  | close (step : Nat)
  | encode (f : Formula) (step : Nat)
  | require (f : Formula) (step : Nat)
  | bind (f : Formula) (step : Nat) (host : Lit)
  | newLiteral

/-- Whether a request binds a host literal. -/
def Request.binds : Request → Bool
  | .bind _ _ _ => true
  | _ => false

/-- The batch of a request that moves the horizon, if it is granted. -/
def Request.batch? [Arithmetic] (u : Unrolling) : Request → Option Batch
  | .extend =>
    match Unrolling.extend u with
    | .ok batch _ => some batch
    | .error _ _ => none
  | .close step =>
    match Unrolling.close step u with
    | .ok batch _ => some batch
    | .error _ _ => none
  | _ => none

namespace Session

/-- The session after a request.  The state of the unrolling is kept also when the
request is refused. -/
def perform [Arithmetic] (session : Session) : Request → Session
  | .extend =>
    match Unrolling.extend session.unrolling with
    | .ok batch unrolling =>
      { session with unrolling := unrolling, rules := session.rules ++ batch.rules }
    | .error _ unrolling => { session with unrolling := unrolling }
  | .close step =>
    match Unrolling.close step session.unrolling with
    | .ok batch unrolling =>
      { session with unrolling := unrolling, rules := session.rules ++ batch.rules }
    | .error _ unrolling => { session with unrolling := unrolling }
  | .encode f step =>
    match Unrolling.encode f step session.unrolling with
    | .ok (lit, rules) unrolling =>
      { session with
        unrolling := unrolling
        rules := session.rules ++ rules
        answers := (f, step, lit) :: session.answers }
    | .error _ unrolling => { session with unrolling := unrolling }
  | .require f step =>
    match Unrolling.require f step session.unrolling with
    | .ok rules unrolling =>
      { session with
        unrolling := unrolling
        rules := session.rules ++ rules
        demands := (f, step) :: session.demands }
    | .error _ unrolling => { session with unrolling := unrolling }
  | .bind f step host =>
    match Unrolling.bind f step host session.unrolling with
    | .ok rules unrolling =>
      { session with
        unrolling := unrolling
        rules := session.rules ++ rules
        hosts := session.hosts.filter fun other => other ≠ host
        bound := host :: session.bound }
    | .error _ unrolling => { session with unrolling := unrolling }
  | .newLiteral =>
    match Unrolling.newLiteral session.unrolling with
    | .ok lit unrolling =>
      { session with unrolling := unrolling, hosts := lit :: session.hosts }
    | .error _ unrolling => { session with unrolling := unrolling }

/-- A host literal that is bound must have been handed out, and not been bound
before.  The step, which need not have been reached, must be exact. -/
def Permits [Arithmetic] (session : Session) : Request → Prop
  | .bind _ step host => host ∈ session.hosts ∧ Arithmetic.Fits step
  | _ => True

/-- The sessions of a theory that a caller can bring about. -/
inductive Reachable [Arithmetic] (theory : Theory) : Session → Prop
  | start {recordHistory unrolling} : Unrolling.start theory recordHistory = .ok unrolling →
    Reachable theory { unrolling := unrolling }
  | perform {session request} : Reachable theory session → session.Permits request →
    Reachable theory (session.perform request)

/-- The session of a theory after some requests. -/
def after [Arithmetic] (theory : Theory) (requests : List Request) : Session :=
  requests.foldl perform
    { unrolling := { theory := theory, encoder := Unrolling.startEncoder theory } }

theorem after_nil [Arithmetic] (theory : Theory) : after theory [] =
    { unrolling := { theory := theory, encoder := Unrolling.startEncoder theory } } := rfl

theorem after_concat [Arithmetic] (theory : Theory) (requests : List Request)
    (request : Request) :
    after theory (requests ++ [request]) = (after theory requests).perform request :=
  List.foldl_append

/-- Requests that bind nothing can be sent one after the other. -/
theorem reachable_after [Arithmetic] {theory : Theory}
    (hvalid : Theory.validateAll theory.formulas = .ok ())
    {requests : List Request} (hplain : ∀ request ∈ requests, request.binds = false) :
    Reachable theory (after theory requests) := by
  have hrun : ∀ (requests : List Request) (session : Session), Reachable theory session →
      (∀ request ∈ requests, request.binds = false) →
      Reachable theory (requests.foldl perform session) := by
    intro requests
    induction requests with
    | nil => exact fun _ h _ => h
    | cons request rest ih =>
      intro session h hall
      have hpermits : session.Permits request := by
        cases request with
        | bind f s host => cases hall _ List.mem_cons_self
        | _ => trivial
      exact ih _ (h.perform hpermits) fun r hr => hall r (List.mem_cons_of_mem _ hr)
  exact hrun requests _ (.start (Unrolling.start_eq_ok_iff.2 ⟨hvalid, rfl⟩)) hplain

/-- The last reached step; before the first one it is treated as step 0. -/
def edge (session : Session) : Instant := session.unrolling.edge.getD ⟨0, false⟩

/-- What the encoder says, with all rules so far. -/
def ledger [Arithmetic] (session : Session) : Ledger :=
  session.unrolling.encoder.ledger session.rules

end Session

namespace Ledger

/-! ## What a ledger owes to a session -/

/-- Everything that the theory and the caller have required is on the list, and the
answers are in the ledger. -/
structure Covers (theory : Theory) (log : Log) (edge : Option Instant) (ledger : Ledger) :
    Prop where
  staged : ∀ last, edge = some last → ∀ k ≤ last.index, ∀ entry ∈ theory.current ⟨k, false⟩,
    ledger.Owes entry.2 k []
  guarded : ∀ last, edge = some last → ∀ k ≤ last.index, ∀ f ∈ theory.finals,
    ∃ g, ledger.lit .final k = some g ∧ ledger.Owes f k [g]
  finals : ∀ last, edge = some last → last.last = true → ∀ f ∈ theory.finals,
    ledger.Owes f last.index []
  demanded : ∀ f s, (f, s) ∈ log.demands →
    (∃ last, edge = some last ∧ s ≤ last.index) ∧ ledger.Owes f s []
  answered : ∀ f s l, (f, s, l) ∈ log.answers →
    (∃ last, edge = some last ∧ s ≤ last.index) ∧ ledger.lit f s = some l

theorem Covers.mono {theory : Theory} {log : Log} {edge : Option Instant} {ledger later : Ledger}
    (h : Covers theory log edge ledger) (hk : ledger.Keeps later) :
    Covers theory log edge later where
  staged := fun last hlast k hle entry hentry => (h.staged last hlast k hle entry hentry).mono hk
  guarded := fun last hlast k hle f hf => by
    obtain ⟨g, hg, howes⟩ := h.guarded last hlast k hle f hf
    exact ⟨g, hk.lit _ _ _ hg, howes.mono hk⟩
  finals := fun last hlast hclosed f hf => (h.finals last hlast hclosed f hf).mono hk
  demanded := fun f s hd => ⟨(h.demanded f s hd).1, (h.demanded f s hd).2.mono hk⟩
  answered := fun f s l ha => ⟨(h.answered f s l ha).1, hk.lit _ _ _ (h.answered f s l ha).2⟩

/-- The host literals at hand have no role, and all atoms are accounted for. -/
def Accounted (log : Log) (edge : Instant) (ledger : Ledger) : Prop :=
  ∃ role, Sound role [] edge ledger ∧ ∀ host ∈ log.hosts,
    host.negated = false ∧ 1 < host.atom ∧ host.atom < ledger.next ∧ role host.atom = .idle

/-- No host literal is bound, and ground atoms belong to reached steps. -/
structure Plain (edge : Instant) (ledger : Ledger) : Prop where
  binding : ∀ f s, ledger.binding f s = none
  ground : ∀ f s l, ledger.ground f s = some l → s ≤ edge.index

/-- What is true of a ledger between two requests. -/
structure Standing (theory : Theory) (log : Log) (edge : Option Instant) (ledger : Ledger) :
    Prop where
  orderly : Orderly ⟨theory, log.demands⟩ (edge.getD ⟨0, false⟩) ledger
  rested : ∀ inst ∈ ledger.edge.instances, inst.last = (edge.getD ⟨0, false⟩).index
  met : ∀ f s guard, ledger.required f s guard → Met (edge.getD ⟨0, false⟩) ledger f s guard
  untouched : edge = none → ledger.edge = {} ∧ ∀ f s guard, ¬ ledger.required f s guard
  settled : ∀ last, edge = some last → last.last = true → ledger.edge.boundaries = []
  covers : Covers theory log edge ledger
  accounted : Accounted log (edge.getD ⟨0, false⟩) ledger
  /-- As long as nothing has been bound, ground atoms belong to reached steps. -/
  unbound : log.bound = [] → Plain (edge.getD ⟨0, false⟩) ledger ∧
    (edge = none → ∀ f s, ledger.ground f s = none)

/-- The step that comes after an edge, or the first one. -/
def stepAfter : Option Instant → Nat
  | some last => last.index + 1
  | none => 0

/-- A ledger that is ready for the next request, whatever has been bound: what waits
at the edge is in order, and the instances have been unrolled to it. -/
structure Poised (theory : Theory) (demands : List (Formula × Nat)) (edge : Option Instant)
    (ledger : Ledger) : Prop where
  orderly : Orderly ⟨theory, demands⟩ (edge.getD ⟨0, false⟩) ledger
  rested : ∀ inst ∈ ledger.edge.instances, inst.last = (edge.getD ⟨0, false⟩).index
  untouched : edge = none → ledger.edge = {} ∧ ∀ f s guard, ¬ ledger.required f s guard

theorem Standing.poised {theory : Theory} {log : Log} {edge : Option Instant} {ledger : Ledger}
    (h : Standing theory log edge ledger) : Poised theory log.demands edge ledger :=
  ⟨h.orderly, h.rested, h.untouched⟩

namespace Poised

variable {theory : Theory} {demands demands' : List (Formula × Nat)} {ledger later : Ledger}

/-- Requests at a reached step. -/
theorem heads {edge : Instant} (h : Poised theory demands (some edge) ledger)
    (hm : HeadMoves ⟨theory, demands'⟩ edge 0 ledger later)
    (hdemands : ∀ d ∈ demands, d ∈ demands') : Poised theory demands' (some edge) later := by
  have horderly : Orderly ⟨theory, demands'⟩ edge ledger :=
    { h.orderly with
      warranted := fun f s guard hr => by
        obtain ⟨whole, hset, hw⟩ := h.orderly.warranted f s guard hr
        refine ⟨whole, hset, ?_⟩
        exact Warranted.mono (.refl ledger) (.refl edge) (by rfl) hdemands hw }
  refine ⟨hm.orderly horderly, fun inst hinst => ?_, nofun⟩
  obtain ⟨more, hmore, hrest⟩ := hm.instances
  rw [hmore] at hinst
  rcases List.mem_append.1 hinst with hinst | hinst
  · exact h.rested inst hinst
  · exact hrest inst hinst

/-- A change that takes nothing on and leaves the edge alone. -/
theorem keep {edge : Option Instant} (h : Poised theory demands edge ledger)
    (hkeeps : ledger.Keeps later) (hedge : later.edge = ledger.edge)
    (hreq : later.required = ledger.required) : Poised theory demands edge later := by
  refine ⟨?_, fun inst hi => h.rested inst (hedge ▸ hi), fun he => ?_⟩
  · exact h.orderly.keep hkeeps hreq (fun b hb => .inl (hedge ▸ hb)) (fun d hd => .inl (hedge ▸ hd))
      fun inst hi => .inl (hedge ▸ hi)
  · rw [hedge, hreq]
    exact h.untouched he

/-- A ledger whose edge is open is ready for the next step. -/
theorem expects {edge : Option Instant} (h : Poised theory demands edge ledger)
    (hopen : ∀ last, edge = some last → last.last = false) :
    Expects ⟨theory, demands⟩ (stepAfter edge) ledger := by
  cases edge with
  | some edge => exact h.orderly.expects (hopen edge rfl) h.rested
  | none =>
    obtain ⟨hedge, hnone⟩ := h.untouched rfl
    refine ⟨fun f s guard hr => absurd hr (hnone f s guard),
      fun f s guard hr => absurd hr (hnone f s guard),
      fun f s guard hr => absurd hr (hnone f s guard), fun b hb => ?_, fun d hd => ?_,
      fun inst hi => ?_⟩
    · rw [hedge] at hb
      cases hb
    · rw [hedge] at hd
      cases hd
    · rw [hedge] at hi
      cases hi

/-- The next step is reached. -/
theorem reach {edge : Option Instant} {given : List Rule} {after : Encoder} {first : Nat}
    (hext : Encoder.Extending given ⟨theory, demands⟩ ⟨stepAfter edge, false⟩ first ledger
      ledger.edge.instances.length after) :
    Poised theory demands (some ⟨stepAfter edge, false⟩) (after.ledger given) := by
  refine ⟨hext.orderly, fun inst hinst => ?_, nofun⟩
  -- An instance is unrolled to the new step: it was waiting, or it has been started there.
  obtain ⟨i, hi⟩ := List.mem_iff_getElem?.1 hinst
  rcases Nat.lt_or_ge i ledger.edge.instances.length with hlt | hge
  · obtain ⟨carrier, -, hat⟩ := hext.advanced i _ hlt (List.getElem?_eq_getElem hlt)
    have hi : after.edge.instances[i]? = some inst := hi
    rw [hi] at hat
    cases hat
    rfl
  · exact hext.rested i inst hge hi

/-- The moves of the last step before the edge is cleared away. -/
theorem final {k : Nat} (h : Poised theory demands (some ⟨k, false⟩) ledger) {middle : Ledger}
    (hm : HeadMoves ⟨theory, demands⟩ ⟨k, true⟩ 0 ledger middle) :
    Orderly ⟨theory, demands⟩ ⟨k, true⟩ middle := by
  have hprecedes : (Instant.mk k false).Precedes ⟨k, true⟩ := ⟨Nat.le_refl _, nofun⟩
  refine hm.orderly ⟨h.orderly.wellFormed, h.orderly.reached, fun f s guard hr => ?_,
    h.orderly.boundaries, fun d hd => ?_, h.orderly.instances⟩
  · obtain ⟨whole, hset, hw⟩ := h.orderly.warranted f s guard hr
    exact ⟨whole, hset, hw.mono (.refl _) hprecedes rfl fun _ hd => hd⟩
  · obtain ⟨hstep, hwell, horigin⟩ := h.orderly.deferred d hd
    exact ⟨hstep, hwell, horigin⟩

/-- The edge is declared to be the last step. -/
theorem close {k : Nat} (h : Poised theory demands (some ⟨k, false⟩) ledger) {middle : Ledger}
    (hm : HeadMoves ⟨theory, demands⟩ ⟨k, true⟩ 0 ledger middle) :
    Poised theory demands (some ⟨k, true⟩) middle.closed :=
  ⟨(h.final hm).keep middle.keeps_closed rfl nofun nofun nofun, nofun, nofun⟩

end Poised

/-! ## Runs without bindings -/

section Plain

variable {brief : Brief} {edge : Instant} {first : Nat} {ledger later : Ledger}

theorem put_none {sheet : Sheet} (h : ∀ f s, sheet f s = none) (f : Formula) (s : Nat) :
    ∀ g t, sheet.put f s none g t = none := by
  intro g t
  by_cases heq : g = f ∧ t = s
  · rw [heq.1, heq.2, Sheet.put_self]
  · rw [Sheet.put_of_ne heq]
    exact h g t

theorem Move.plain (hm : Move edge ledger later) (h : Plain edge ledger) : Plain edge later := by
  cases hm with
  | @enter f s _ hs _ =>
    refine ⟨h.binding, fun g t l hl => ?_⟩
    have hl : ledger.ground.put f s (some ⟨ledger.next, false⟩) g t = some l := hl
    by_cases heq : g = f ∧ t = s
    · rw [heq.2]
      exact hs
    · rw [Sheet.put_of_ne heq] at hl
      exact h.ground g t l hl
  | share _ _ _ _ _ => exact ⟨put_none h.binding _ _, h.ground⟩
  | define _ _ _ _ => exact ⟨put_none h.binding _ _, h.ground⟩
  | await _ _ _ => exact ⟨put_none h.binding _ _, h.ground⟩

theorem HeadMove.plain (hm : HeadMove brief edge first ledger later) (h : Plain edge ledger) :
    Plain edge later := by
  cases hm with
  | body hm => exact hm.plain h
  | demand _ _ _ _ => exact ⟨h.binding, h.ground⟩
  | duty _ _ _ => exact ⟨h.binding, h.ground⟩
  | defer _ _ _ => exact ⟨h.binding, h.ground⟩
  | carry _ _ _ _ _ _ => exact ⟨h.binding, h.ground⟩
  | rest _ _ _ _ _ _ => exact ⟨h.binding, h.ground⟩

theorem HeadMoves.plain (hm : HeadMoves brief edge first ledger later) (h : Plain edge ledger) :
    Plain edge later := by
  induction hm with
  | refl => exact h
  | tail _ hmove ih => exact hmove.plain ih

theorem ReachMoves.plain {a b : List Boundary × Ledger} (hm : ReachMoves brief edge first a b)
    (h : Plain edge a.2) : Plain edge b.2 := by
  induction hm with
  | refl => exact h
  | tail _ hmove ih =>
    cases hmove with
    | head hm => exact hm.plain ih
    | tie _ => exact ⟨ih.binding, ih.ground⟩
    | settle _ _ => exact ⟨ih.binding, ih.ground⟩

/-- At the last step no boundary is opened. -/
theorem HeadMoves.boundaries_of_last (hm : HeadMoves brief edge first ledger later)
    (hlast : edge.last = true) : later.edge.boundaries = ledger.edge.boundaries := by
  induction hm with
  | refl => rfl
  | tail _ hmove ih =>
    refine Eq.trans ?_ ih
    cases hmove with
    | body hm =>
      cases hm with
      | enter _ _ _ => rfl
      | share _ _ _ _ _ => rfl
      | define _ _ _ _ => rfl
      | await _ hopen _ =>
        rw [hlast] at hopen
        cases hopen
    | demand _ _ _ _ => rfl
    | duty _ _ _ => rfl
    | defer _ _ _ => rfl
    | carry _ _ _ _ _ _ => rfl
    | rest _ _ _ _ _ _ => rfl

end Plain

/-! ## Bindings -/

namespace Binds

variable {ledger later : Ledger} {f : Formula} {s : Nat} {host : Lit}

/-- A binding leaves requirements and the edge alone. -/
theorem frame (h : ledger.Binds f s host later) (hnone : ledger.entry f s = none) :
    ledger.Keeps later ∧ later.edge = ledger.edge ∧ later.required = ledger.required := by
  have hbind : ledger.Keeps (ledger.bind f s host) := { Keeps.refl ledger with }
  have hnone' : (ledger.bind f s host).entry f s = none := hnone
  cases h with
  | composite _ => exact ⟨hbind, rfl, rfl⟩
  | found _ _ =>
    exact ⟨hbind.trans ((Grows.write hnone' _).trans (.post _ _)).toKeeps, rfl, rfl⟩
  | entered _ hground =>
    have hground' : (ledger.bind f s host).ground f s = none := hground
    have hnone'' : ((ledger.bind f s host).enter f s).entry f s = none := hnone
    exact ⟨hbind.trans ((Grows.enter hground').trans
      ((Grows.write hnone'' _).trans (.post _ _))).toKeeps, rfl, rfl⟩

/-- Binding a host literal that has no role keeps a ledger sound, and no other host
literal at hand gets a role. -/
theorem sound (h : ledger.Binds f s host later) (hnone : ledger.entry f s = none)
    {role : Nat → Role} {edge : Instant} (hsound : Sound role [] edge ledger)
    (hpos : host.negated = false) (hidle : role host.atom = .idle) (hgt : 1 < host.atom)
    (hlt : host.atom < ledger.next) :
    ∃ role', Sound role' [] edge later ∧
      ∀ a, a < ledger.next → a ≠ host.atom → role a = .idle → role' a = .idle := by
  have hbound : Sound _ [] edge (ledger.bind f s host) := hsound.bind hpos hidle hgt hlt
  have hother : ∀ a, a ≠ host.atom → role a = .idle →
      Function.update role host.atom (.bound f s) a = .idle := fun a hne ha => by
    rw [Function.update_of_ne hne, ha]
  cases h with
  | composite _ => exact ⟨_, hbound, fun a _ => hother a⟩
  | @found a hatom ha =>
    have hlit : (ledger.bind f s host).lit f s = some a := (if_pos hatom).trans ha
    obtain ⟨role', honward, hshared⟩ := hbound.share (.inl hatom) hnone (.atom hatom hlit)
    exact ⟨role', hshared, fun b hb hne hrole => honward.idle b hb (hother b hne hrole)⟩
  | entered hatom hground =>
    have hentered := hbound.enter hatom hground
    have hlit : ((ledger.bind f s host).enter f s).lit f s = some ⟨ledger.next, false⟩ :=
      (if_pos hatom).trans (Sheet.put_self _ _ _ _)
    obtain ⟨role', honward, hshared⟩ := hentered.share (.inl hatom) hnone (.atom hatom hlit)
    refine ⟨role', hshared, fun b hb hne hrole => ?_⟩
    refine honward.idle b (Nat.lt_succ_of_lt hb) ?_
    have hb' : b ≠ (ledger.bind f s host).next := Nat.ne_of_lt hb
    rw [Function.update_of_ne hb']
    exact hother b hne hrole

end Binds

/-! ## What requests do to a standing ledger -/

/-- What has happened when a step has been reached. -/
structure Reaches (theory : Theory) (demands : List (Formula × Nat)) (k : Nat) (ledger : Ledger)
    (given : List Rule) (after : Encoder) : Prop where
  extending : Encoder.Extending given ⟨theory, demands⟩ ⟨k, false⟩ 0 ledger
    ledger.edge.instances.length after
  deferred : ∀ d ∈ ledger.edge.deferred, (after.ledger given).Owes d.formula k d.guard
  staged : ∀ entry ∈ theory.current ⟨k, false⟩, (after.ledger given).Owes entry.2 k []
  finals : ∀ f ∈ theory.finals, ∃ g, (after.ledger given).lit .final k = some g ∧
    (after.ledger given).Owes f k [g]

/-- What has happened when the edge has been declared to be the last step, up to the
rules that settle the open boundaries. -/
structure Closes (theory : Theory) (demands : List (Formula × Nat)) (k : Nat)
    (ledger middle : Ledger) : Prop where
  moves : HeadMoves ⟨theory, demands⟩ ⟨k, true⟩ 0 ledger middle
  finals : ∀ f ∈ theory.finals, middle.closed.Owes f k []
  met : ∀ f s guard, middle.closed.required f s guard →
    ledger.required f s guard ∨ Met ⟨k, true⟩ middle.closed f s guard

/-- What a request does to the log, the edge and the ledger. -/
inductive Passes (theory : Theory) (log : Log) (edge : Option Instant) (ledger : Ledger) :
    Request → Log → Option Instant → Ledger → Prop
  | refused {request} : Passes theory log edge ledger request log edge ledger
  | reached {given after} : (∀ last, edge = some last → last.last = false) →
    Reaches theory log.demands (stepAfter edge) ledger given after →
    Passes theory log edge ledger .extend log (some ⟨stepAfter edge, false⟩) (after.ledger given)
  | closed {k middle} : edge = some ⟨k, false⟩ → Closes theory log.demands k ledger middle →
    Passes theory log edge ledger (.close k) log (some ⟨k, true⟩) middle.closed
  | answered {last f s l later} : edge = some last → s ≤ last.index → Moves last ledger later →
    later.lit f s = some l →
    Passes theory log edge ledger (.encode f s)
      { log with answers := (f, s, l) :: log.answers } edge later
  | demanded {last f s later} : edge = some last → s ≤ last.index →
    HeadMoves ⟨theory, (f, s) :: log.demands⟩ last 0 ledger later → later.Owes f s [] →
    (∀ g t guard, later.required g t guard →
      ledger.required g t guard ∨ Met last later g t guard) →
    Passes theory log edge ledger (.require f s)
      { log with demands := (f, s) :: log.demands } edge later
  | bound {f s host later} : ledger.entry f s = none → ledger.Binds f s host later →
    Passes theory log edge ledger (.bind f s host)
      { log with
        hosts := log.hosts.filter fun other => other ≠ host
        bound := host :: log.bound } edge later
  | supplied : Passes theory log edge ledger .newLiteral
      { log with hosts := ⟨ledger.next, false⟩ :: log.hosts } edge
      { ledger with next := ledger.next + 1 }

theorem keeps_supplied (ledger : Ledger) :
    ledger.Keeps { ledger with next := ledger.next + 1 } :=
  { Keeps.refl ledger with next := Nat.le_succ _ }

/-- Any request leaves a ledger that is ready for the next one. -/
theorem Poised.passes {theory : Theory} {log log' : Log} {edge edge' : Option Instant}
    {ledger later : Ledger} {request : Request} (h : Poised theory log.demands edge ledger)
    (hp : Passes theory log edge ledger request log' edge' later) :
    Poised theory log'.demands edge' later := by
  cases hp with
  | refused => exact h
  | reached _ hreaches => exact .reach hreaches.extending
  | closed hedge hcloses =>
    cases hedge
    exact h.close hcloses.moves
  | answered hedge _ hm _ =>
    cases hedge
    exact h.heads (Moves.headMoves hm) fun d hd => hd
  | demanded hedge _ hm _ _ =>
    cases hedge
    exact h.heads hm fun d hd => List.mem_cons_of_mem _ hd
  | bound hnone hb =>
    obtain ⟨hkeeps, hedge, hreq⟩ := hb.frame hnone
    exact h.keep hkeeps hedge hreq
  | supplied => exact h.keep ledger.keeps_supplied rfl rfl

namespace Standing

variable {theory : Theory} {log log' : Log} {ledger later : Ledger}

/-- Requests at a reached step that leave nothing new unmet. -/
theorem heads {edge : Instant} (h : Standing theory log (some edge) ledger)
    (hm : HeadMoves ⟨theory, log'.demands⟩ edge 0 ledger later)
    (hdemands : ∀ d ∈ log.demands, d ∈ log'.demands) (hhosts : log'.hosts = log.hosts)
    (hbound : log'.bound = log.bound)
    (hmet : ∀ f s guard, later.required f s guard →
      ledger.required f s guard ∨ Met edge later f s guard)
    (hcovers : Covers theory log' (some edge) later) :
    Standing theory log' (some edge) later := by
  obtain ⟨horderly, hrested, -⟩ := h.poised.heads hm hdemands
  refine ⟨horderly, hrested, fun f s guard hr => ?_, nofun,
    fun last hlast hclosed => ?_, hcovers, ?_, fun hempty => ⟨?_, nofun⟩⟩
  · rcases hmet f s guard hr with hold | hnew
    · exact (h.met f s guard hold).grows hm.grows
    · exact hnew
  · cases hlast
    rw [hm.boundaries_of_last hclosed]
    exact h.settled edge rfl hclosed
  · obtain ⟨role, hsound, hidle⟩ := h.accounted
    obtain ⟨role', honward, hsound'⟩ := hm.sound hsound
    refine ⟨role', hsound', fun host hhost => ?_⟩
    obtain ⟨hpos, hgt, hlt, hrole⟩ := hidle host (hhosts ▸ hhost)
    exact ⟨hpos, hgt, Nat.lt_of_lt_of_le hlt hm.grows.next, honward.idle _ hlt hrole⟩
  · exact hm.plain (h.unbound (hbound ▸ hempty)).1

/-- An answer is given. -/
theorem answer {edge : Instant} (h : Standing theory log (some edge) ledger) {f : Formula}
    {s : Nat} {l : Lit} (hm : Moves edge ledger later) (hs : s ≤ edge.index)
    (hl : later.lit f s = some l) :
    Standing theory { log with answers := (f, s, l) :: log.answers } (some edge) later := by
  have hcovers := h.covers.mono hm.grows.toKeeps
  refine h.heads (Moves.headMoves hm) (fun d hd => hd) rfl rfl
    (fun g t guard hr => .inl (hm.frame.2.2.2 ▸ hr)) { hcovers with answered := ?_ }
  intro g t l' hmem
  rcases List.mem_cons.1 hmem with heq | hmem
  · cases heq
    exact ⟨⟨edge, rfl, hs⟩, hl⟩
  · exact hcovers.answered g t l' hmem

/-- A demand is taken on. -/
theorem demand {edge : Instant} (h : Standing theory log (some edge) ledger) {f : Formula}
    {s : Nat} (hm : HeadMoves ⟨theory, (f, s) :: log.demands⟩ edge 0 ledger later)
    (hs : s ≤ edge.index) (howes : later.Owes f s [])
    (hmet : ∀ g t guard, later.required g t guard →
      ledger.required g t guard ∨ Met edge later g t guard) :
    Standing theory { log with demands := (f, s) :: log.demands } (some edge) later := by
  have hcovers := h.covers.mono hm.grows.toKeeps
  refine h.heads hm (fun d hd => List.mem_cons_of_mem _ hd) rfl rfl hmet
    { hcovers with demanded := ?_ }
  intro g t hmem
  rcases List.mem_cons.1 hmem with heq | hmem
  · cases heq
    exact ⟨⟨edge, rfl, hs⟩, howes⟩
  · exact hcovers.demanded g t hmem

/-- A host literal is handed out. -/
theorem fresh {edge : Option Instant} (h : Standing theory log edge ledger) :
    Standing theory { log with hosts := ⟨ledger.next, false⟩ :: log.hosts } edge
      { ledger with next := ledger.next + 1 } := by
  have hkeeps := ledger.keeps_supplied
  obtain ⟨horderly, hrested, huntouched⟩ := h.poised.keep hkeeps rfl rfl
  refine ⟨horderly, hrested, fun f s guard hr => ?_, huntouched, h.settled,
    { h.covers.mono hkeeps with }, ?_, fun hempty => ?_⟩
  · exact (h.met f s guard hr).mono hkeeps (fun d hd => hd) fun inst hi _ => hi
  · obtain ⟨role, hsound, hidle⟩ := h.accounted
    refine ⟨role, hsound.fresh, fun host hhost => ?_⟩
    rcases List.mem_cons.1 hhost with rfl | hhost
    · exact ⟨rfl, hsound.next_ge, Nat.lt_succ_self _, hsound.fresh_idle⟩
    · obtain ⟨hpos, hgt, hlt, hrole⟩ := hidle host hhost
      exact ⟨hpos, hgt, Nat.lt_succ_of_lt hlt, hrole⟩
  · obtain ⟨hplain, hground⟩ := h.unbound hempty
    exact ⟨⟨hplain.binding, hplain.ground⟩, hground⟩

theorem precedes {edge : Option Instant} (hopen : ∀ last, edge = some last → last.last = false) :
    (edge.getD ⟨0, false⟩).Precedes ⟨stepAfter edge, false⟩ := by
  cases edge with
  | some edge =>
    refine ⟨Nat.le_succ _, fun hlast => ?_⟩
    have hfalse : edge.last = false := hopen edge rfl
    have hlast : edge.last = true := hlast
    rw [hfalse] at hlast
    cases hlast
  | none => exact ⟨Nat.le_refl _, nofun⟩

/-- The next step is reached. -/
theorem reach {edge : Option Instant} (h : Standing theory log edge ledger)
    (hopen : ∀ last, edge = some last → last.last = false) {given : List Rule} {after : Encoder}
    (hreaches : Reaches theory log.demands (stepAfter edge) ledger given after) :
    Standing theory log (some ⟨stepAfter edge, false⟩) (after.ledger given) := by
  obtain ⟨hext, hdeferred, hstaged, hfinals⟩ := hreaches
  have hkeeps := hext.keeps
  have hprecedes := precedes hopen
  obtain ⟨horderly, hrested, -⟩ := Poised.reach hext
  have hreached : ∀ s, (∃ last, edge = some last ∧ s ≤ last.index) →
      ∃ last, some (Instant.mk (stepAfter edge) false) = some last ∧ s ≤ last.index := by
    rintro s ⟨last, rfl, hs⟩
    exact ⟨_, rfl, Nat.le_succ_of_le hs⟩
  have hearlier : ∀ k, k ≤ stepAfter edge → k = stepAfter edge ∨
      ∃ last, edge = some last ∧ k ≤ last.index := by
    intro k hk
    cases edge with
    | some last =>
      rcases Nat.lt_or_eq_of_le hk with hlt | heq
      · exact .inr ⟨last, rfl, Nat.le_of_lt_succ hlt⟩
      · exact .inl heq
    | none => exact .inl (Nat.le_zero.1 hk)
  refine ⟨horderly, hrested, fun f s guard hr => ?_, nofun, fun last hlast hclosed => ?_,
    ⟨fun last hlast k hk entry hentry => ?_, fun last hlast k hk f hf => ?_,
      fun last hlast hclosed => ?_, fun f s hd => ?_, fun f s l ha => ?_⟩, ?_,
    fun hempty => ⟨?_, nofun⟩⟩
  · rcases hext.met f s guard hr with hold | hnew
    · cases edge with
      | none => exact absurd hold ((h.untouched rfl).2 f s guard)
      | some edge =>
        refine (h.met f s guard hold).reach (hopen edge rfl) hkeeps hdeferred (fun inst hinst => ?_)
          (h.orderly.reached f s guard hold)
        obtain ⟨i, hi⟩ := List.mem_iff_getElem?.1 hinst
        have hlt := (List.getElem?_eq_some_iff.1 hi).1
        obtain ⟨carrier, hstepped, hat⟩ := hext.advanced i inst hlt hi
        exact ⟨carrier, hstepped, _, List.mem_of_getElem? hat, rfl, rfl, rfl, rfl, rfl⟩
    · exact hnew
  · cases hlast
    cases hclosed
  · cases hlast
    rcases hearlier k hk with rfl | ⟨last, hlast, hk⟩
    · exact hstaged entry hentry
    · exact (h.covers.staged last hlast k hk entry hentry).mono hkeeps
  · cases hlast
    rcases hearlier k hk with rfl | ⟨last, hlast, hk⟩
    · exact hfinals f hf
    · exact (h.covers.mono hkeeps).guarded last hlast k hk f hf
  · cases hlast
    cases hclosed
  · have hold := (h.covers.mono hkeeps).demanded f s hd
    exact ⟨hreached s hold.1, hold.2⟩
  · have hold := (h.covers.mono hkeeps).answered f s l ha
    exact ⟨hreached s hold.1, hold.2⟩
  · obtain ⟨role, hsound, hidle⟩ := h.accounted
    have hcleared := hsound.cleared hprecedes fun b hb =>
      ((h.poised.expects hopen).boundaries b hb).1
    obtain ⟨role', honward, hsound'⟩ := ReachMoves.sound hext.moves hcleared
    refine ⟨role', hsound', fun host hhost => ?_⟩
    obtain ⟨hpos, hgt, hlt, hrole⟩ := hidle host hhost
    exact ⟨hpos, hgt, Nat.lt_of_lt_of_le hlt hkeeps.next, honward.idle _ hlt hrole⟩
  · obtain ⟨hplain, -⟩ := h.unbound hempty
    refine ReachMoves.plain hext.moves ⟨hplain.binding, fun f s l hl => ?_⟩
    exact Nat.le_trans (hplain.ground f s l hl) hprecedes.index_le

/-- The edge is declared to be the last step. -/
theorem close {k : Nat} (h : Standing theory log (some ⟨k, false⟩) ledger) {middle : Ledger}
    (hcloses : Closes theory log.demands k ledger middle) :
    Standing theory log (some ⟨k, true⟩) middle.closed := by
  obtain ⟨hm, hfinals, hmet⟩ := hcloses
  have hprecedes : (Instant.mk k false).Precedes ⟨k, true⟩ := ⟨Nat.le_refl _, nofun⟩
  have hkeeps := hm.grows.toKeeps.trans middle.keeps_closed
  obtain ⟨horderly, hrested, -⟩ := h.poised.close hm
  have hcovers := h.covers.mono hkeeps
  have hreached : ∀ s, (∃ last, some (Instant.mk k false) = some last ∧ s ≤ last.index) →
      ∃ last, some (Instant.mk k true) = some last ∧ s ≤ last.index := by
    rintro s ⟨last, hlast, hs⟩
    cases hlast
    exact ⟨_, rfl, hs⟩
  refine ⟨horderly, hrested, fun f s guard hr => ?_, nofun, fun _ _ _ => rfl,
    ⟨fun last hlast => ?_, fun last hlast => ?_, fun last hlast _ => ?_, fun f s hd => ?_,
      fun f s l ha => ?_⟩, ?_, fun hempty => ⟨?_, nofun⟩⟩
  · rcases hmet f s guard hr with hold | hnew
    · exact (h.met f s guard hold).close hkeeps
    · exact hnew
  · cases hlast
    exact hcovers.staged ⟨k, false⟩ rfl
  · cases hlast
    exact hcovers.guarded ⟨k, false⟩ rfl
  · cases hlast
    exact hfinals
  · exact ⟨hreached s (hcovers.demanded f s hd).1, (hcovers.demanded f s hd).2⟩
  · exact ⟨hreached s (hcovers.answered f s l ha).1, (hcovers.answered f s l ha).2⟩
  · obtain ⟨role, hsound, hidle⟩ := h.accounted
    obtain ⟨role', honward, hsound'⟩ := hm.sound (hsound.precedes hprecedes nofun)
    refine ⟨role', hsound'.closed rfl fun b hb => ((h.poised.final hm).boundaries b hb).1,
      fun host hhost => ?_⟩
    obtain ⟨hpos, hgt, hlt, hrole⟩ := hidle host hhost
    exact ⟨hpos, hgt, Nat.lt_of_lt_of_le hlt hkeeps.next, honward.idle _ hlt hrole⟩
  · obtain ⟨hplain, -⟩ := h.unbound hempty
    have hplain' : Plain ⟨k, true⟩ ledger := ⟨hplain.binding, hplain.ground⟩
    have hmiddle := hm.plain hplain'
    exact ⟨hmiddle.binding, hmiddle.ground⟩

/-- A host literal is bound. -/
theorem bind {edge : Option Instant} (h : Standing theory log edge ledger) {f : Formula} {s : Nat}
    {host : Lit} (hhost : host ∈ log.hosts) (hnone : ledger.entry f s = none)
    (hb : ledger.Binds f s host later) :
    Standing theory
      { log with
        hosts := log.hosts.filter fun other => other ≠ host
        bound := host :: log.bound } edge later := by
  obtain ⟨hkeeps, hedge, hreq⟩ := hb.frame hnone
  obtain ⟨role, hsound, hidle⟩ := h.accounted
  obtain ⟨hpos, hgt, hlt, hrole⟩ := hidle host hhost
  obtain ⟨horderly, hrested, huntouched⟩ := h.poised.keep hkeeps hedge hreq
  refine ⟨horderly, hrested, fun g t guard hr => ?_, huntouched,
    fun last hl hc => hedge ▸ h.settled last hl hc, { h.covers.mono hkeeps with }, ?_, nofun⟩
  · exact (h.met g t guard (hreq ▸ hr)).mono hkeeps (fun d hd => hedge.symm ▸ hd)
      fun inst hi _ => hedge.symm ▸ hi
  · obtain ⟨role', hsound', hkept⟩ := hb.sound hnone hsound hpos hrole hgt hlt
    refine ⟨role', hsound', fun other hother => ?_⟩
    obtain ⟨hmem, hne⟩ := List.mem_filter.1 hother
    obtain ⟨hpos', hgt', hlt', hrole'⟩ := hidle other hmem
    refine ⟨hpos', hgt', Nat.lt_of_lt_of_le hlt' hkeeps.next, hkept _ hlt' ?_ hrole'⟩
    intro heq
    have hsame : other = host := by
      cases other
      cases host
      simp_all
    exact of_decide_eq_true hne hsame

/-- Any request that may be sent leaves a standing ledger. -/
theorem passes {edge edge' : Option Instant} {request : Request}
    (h : Standing theory log edge ledger)
    (hp : Passes theory log edge ledger request log' edge' later)
    (hhost : ∀ f s host, request = .bind f s host → host ∈ log.hosts) :
    Standing theory log' edge' later := by
  cases hp with
  | refused => exact h
  | reached hopen hreaches => exact h.reach hopen hreaches
  | closed hedge hcloses =>
    cases hedge
    exact h.close hcloses
  | answered hedge hs hm hl =>
    cases hedge
    exact h.answer hm hs hl
  | demanded hedge hs hm howes hmet =>
    cases hedge
    exact h.demand hm hs howes hmet
  | bound hnone hb => exact h.bind (hhost _ _ _ rfl) hnone hb
  | supplied => exact h.fresh

/-- Nothing has been asked for yet. -/
theorem start (theory : Theory) {ledger : Ledger} (hentry : ∀ f s, ledger.entry f s = none)
    (hbinding : ∀ f s, ledger.binding f s = none) (hground : ∀ f s, ledger.ground f s = none)
    (hnext : ledger.next = 2) (hrules : ledger.rules = []) (hedge : ledger.edge = {})
    (hcarriers : ledger.carriers = []) (hreq : ∀ f s guard, ¬ ledger.required f s guard) :
    Standing theory {} none ledger := by
  have hboundaries : ledger.edge.boundaries = [] := by rw [hedge]
  refine ⟨⟨fun f s guard hr => absurd hr (hreq f s guard),
      fun f s guard hr => absurd hr (hreq f s guard),
      fun f s guard hr => absurd hr (hreq f s guard), ?_, ?_, ?_⟩, ?_,
    fun f s guard hr => absurd hr (hreq f s guard), fun _ => ⟨hedge, hreq⟩, nofun,
    ⟨nofun, nofun, nofun, nofun, nofun⟩, ⟨fun _ => .idle, ?_, nofun⟩, fun _ => ⟨⟨hbinding, ?_⟩, ?_⟩⟩
  · rw [hedge]
    nofun
  · rw [hedge]
    nofun
  · rw [hedge]
    nofun
  · rw [hedge]
    nofun
  · refine ⟨Nat.le_of_eq hnext.symm, fun _ _ => rfl, fun f s l hl => ?_, fun f s l hl => ?_,
      fun f s l hl => ?_, fun f s l hl => ?_, fun f s l hl => ?_, ?_, ?_, nofun, fun _ => .idle,
      fun name args s a b ha => ?_, fun f s guard hr => absurd hr (hreq f s guard), ?_⟩
    · rw [hentry] at hl
      cases hl
    · rw [hentry] at hl
      cases hl
    · rw [hentry] at hl
      cases hl
    · rw [hground] at hl
      cases hl
    · rw [hbinding] at hl
      cases hl
    · rw [hcarriers]
      nofun
    · rw [hboundaries]
      nofun
    · rw [hground] at ha
      cases ha
    · rw [hrules]
      nofun
  · intro f s l hl
    rw [hground] at hl
    cases hl
  · exact fun _ => hground

end Standing
end Ledger

/-! ## Sessions between two requests -/

/-- Taking rules away does not show in the ledger. -/
theorem Encoder.ledger_taken (given : List Rule) (encoder : Encoder) :
    Encoder.ledger (given ++ encoder.rules) { encoder with rules := [] } =
      encoder.ledger given := by
  simp only [ledger, List.append_nil]

theorem Encoder.Tidy.taken {encoder : Encoder} (h : encoder.Tidy) :
    Encoder.Tidy { encoder with rules := [] } :=
  ⟨h.store, h.entry, h.binding, h.ground, h.required⟩

theorem Unrolling.last_of_isClosed {u : Unrolling} (h : u.isClosed = false) :
    ∀ last, u.edge = some last → last.last = false := by
  intro last hlast
  unfold Unrolling.isClosed at h
  rw [hlast] at h
  exact h

theorem Unrolling.nextStep_eq (u : Unrolling) : u.nextStep = Ledger.stepAfter u.edge := by
  unfold Unrolling.nextStep Unrolling.horizon?
  cases u.edge <;> rfl

/-- Numbering the formulas of a theory leaves everything else empty. -/
theorem Unrolling.startEncoder_tidy (theory : Theory) :
    (startEncoder theory).Tidy := by
  have hclosed : ∀ (formulas : List Formula) (store : Store), store.Closed →
      (formulas.foldl (fun store f => (store.intern f).2) store).Closed := by
    intro formulas
    induction formulas with
    | nil => exact fun _ h => h
    | cons f rest ih => exact fun store h => ih _ ((store.intern_spec f).closed h)
  exact ⟨hclosed _ _ Store.closed_empty, nofun, nofun, nofun, nofun⟩

namespace Session

/-- What is true of a session between two requests. -/
structure Proper (theory : Theory) (session : Session) : Prop where
  accepted : Theory.validateAll theory.formulas = .ok ()
  theory_eq : session.unrolling.theory = theory
  tidy : session.unrolling.encoder.Tidy
  taken : session.unrolling.encoder.rules = []
  standing : Ledger.Standing theory session.toLog session.unrolling.edge session.ledger

namespace Proper

variable {theory : Theory} {session : Session}

theorem start {recordHistory : Bool} {unrolling : Unrolling}
    (h : Unrolling.start theory recordHistory = .ok unrolling) :
    Proper theory { unrolling := unrolling } := by
  obtain ⟨hvalid, rfl⟩ := Unrolling.start_eq_ok_iff.1 h
  refine ⟨hvalid, rfl, Unrolling.startEncoder_tidy theory, rfl, .start theory
    (fun _ _ => Option.bind_fun_none _) (fun _ _ => Option.bind_fun_none _)
    (fun _ _ => Option.bind_fun_none _) rfl rfl rfl rfl ?_⟩
  rintro f s guard ⟨id, -, hmem⟩
  cases hmem

theorem ledger_rules (h : Proper theory session) : session.ledger.rules = session.rules := by
  show session.rules ++ session.unrolling.encoder.rules = session.rules
  rw [h.taken, List.append_nil]

end Proper

/-! ## Requests, whatever has been bound -/

/-- What is true of a session between two requests, also if host literals have been
bound that were not handed out. -/
structure Sane (theory : Theory) (session : Session) : Prop where
  accepted : Theory.validateAll theory.formulas = .ok ()
  theory_eq : session.unrolling.theory = theory
  tidy : session.unrolling.encoder.Tidy
  taken : session.unrolling.encoder.rules = []
  poised : Ledger.Poised theory session.demands session.unrolling.edge session.ledger

theorem Proper.sane {theory : Theory} {session : Session} (h : Proper theory session) :
    Sane theory session :=
  ⟨h.accepted, h.theory_eq, h.tidy, h.taken, h.standing.poised⟩

/-- A request is carried out, or refused, as the ledger shows it. -/
structure Takes (theory : Theory) (session : Session) (request : Request) : Prop where
  theory_eq : (session.perform request).unrolling.theory = theory
  tidy : (session.perform request).unrolling.encoder.Tidy
  taken : (session.perform request).unrolling.encoder.rules = []
  passes : Ledger.Passes theory session.toLog session.unrolling.edge session.ledger request
    (session.perform request).toLog (session.perform request).unrolling.edge
    (session.perform request).ledger

namespace Sane

variable {theory : Theory} {session : Session}

/-- The encoder can reach the step after an open edge. -/
theorem reachStep_ok (h : Sane theory session) (hopen : session.unrolling.isClosed = false) :
    ∃ after, Unrolling.reachStep theory session.unrolling.nextStep session.unrolling.encoder =
        .ok (session.unrolling.encoder.edge.boundaries.map Boundary.lit) after ∧
      Ledger.Reaches theory session.demands session.unrolling.nextStep session.ledger
        session.rules after := by
  have hexpects := h.poised.expects (Unrolling.last_of_isClosed hopen)
  rw [← session.unrolling.nextStep_eq] at hexpects
  obtain ⟨released, after, hok, rfl, hext, hdeferred, hstaged, hfinals⟩ :=
    Encoder.Does.exists_ok (.reachStep theory _)
      (@Encoder.reachStep_does session.rules ⟨theory, session.demands⟩ 0 _ _ h.tidy h.accepted
        hexpects (Nat.zero_le _))
  exact ⟨after, hok, hext, hdeferred, hstaged, hfinals⟩

/-- An open edge can be extended. -/
theorem extend_ok (h : Sane theory session) (hopen : session.unrolling.isClosed = false) :
    ∃ after history, Unrolling.extend session.unrolling =
        .ok ⟨session.unrolling.nextStep, after.rules, after.edge.externals,
          session.unrolling.encoder.edge.boundaries.map Boundary.lit⟩
        { session.unrolling with
          encoder := { after with rules := [] }
          edge := some ⟨session.unrolling.nextStep, false⟩
          history := history } ∧
      Ledger.Reaches theory session.demands session.unrolling.nextStep session.ledger
        session.rules after := by
  obtain ⟨after, hok, hreaches⟩ := h.reachStep_ok hopen
  rw [← h.theory_eq] at hok
  obtain ⟨history, hextend⟩ := Unrolling.extend_ok hopen hok
  exact ⟨after, history, hextend, hreaches⟩

/-- The encoder can declare the open edge to be the last step. -/
theorem closeStep_ok (h : Sane theory session) (k : Nat) :
    ∃ (middle : Ledger) (after : Encoder), Unrolling.closeStep theory k session.unrolling.encoder =
        .ok middle.edge.closedExternals after ∧
      after.Tidy ∧ after.ledger session.rules = middle.closed ∧
      Ledger.Closes theory session.demands k session.ledger middle := by
  obtain ⟨fixed, after, hok, htidy, middle, rfl, hmoves, hledger, hfinals, hmet⟩ :=
    Encoder.Does.exists_ok (.closeStep theory k)
      (@Encoder.closeStep_does session.rules ⟨theory, session.demands⟩ k _ h.tidy h.accepted)
  rw [hledger] at hfinals hmet
  exact ⟨middle.ledger session.rules, after, hok, htidy, hledger, hmoves, hfinals, hmet⟩

/-- The open edge can be closed. -/
theorem close_ok (h : Sane theory session) {k : Nat}
    (hedge : session.unrolling.edge = some ⟨k, false⟩) :
    ∃ (middle : Ledger) (after : Encoder) (history : List Batch), Unrolling.close k session.unrolling =
        .ok ⟨k, after.rules, [], middle.edge.closedExternals.map External.lit⟩
        { session.unrolling with
          encoder := { after with rules := [] }, edge := some ⟨k, true⟩, history := history } ∧
      after.Tidy ∧ after.ledger session.rules = middle.closed ∧
      Ledger.Closes theory session.demands k session.ledger middle := by
  obtain ⟨middle, after, hok, htidy, hledger, hcloses⟩ := h.closeStep_ok k
  have hsettled : after.edge = {} := congrArg Ledger.edge hledger
  rw [← h.theory_eq] at hok
  obtain ⟨history, hclose⟩ := Unrolling.close_ok hedge hok hsettled
  exact ⟨middle, after, history, hclose, htidy, hledger, hcloses⟩

/-- An acceptable formula can be encoded at a reached step. -/
theorem encode_ok (h : Sane theory session) {f : Formula} {s : Nat} {edge : Instant}
    (hvalid : validate .always f = .ok ()) (hedge : session.unrolling.edge = some edge)
    (hs : s ≤ edge.index) :
    ∃ lit after, Unrolling.encode f s session.unrolling = .ok (lit, after.rules)
        { session.unrolling with encoder := { after with rules := [] } } ∧
      Encoder.Answers session.rules edge f s session.unrolling.encoder lit after := by
  obtain ⟨lit, after, hok, ha⟩ := Encoder.Does.exists_ok (.encode (Window.inRange _) _ _)
    (Encoder.encode_does session.rules edge _ f s session.unrolling.encoder rfl
      (Encoder.admits_of_validate hvalid edge.index edge.last) hs h.tidy)
  exact ⟨lit, after, (Unrolling.checked_granted hvalid hedge hs _).trans
    (Unrolling.withEncoder_takeRules hok Prod.mk), ha⟩

/-- The encoder can require an acceptable formula at a reached step. -/
theorem require_encoder_ok (h : Sane theory session) {f : Formula} {s : Nat} {edge : Instant}
    (hvalid : validate .always f = .ok ()) (hs : s ≤ edge.index) :
    ∃ after, Encoder.require ⟨edge.index, edge.last, .always⟩ f s [] session.unrolling.encoder =
        .ok () after ∧
      Encoder.Meets session.rules ⟨theory, (f, s) :: session.demands⟩ edge 0 f s []
        session.unrolling.encoder after := by
  obtain ⟨_, after, hok, ha⟩ := Encoder.Does.exists_ok (.require (Window.inRange _) _ _ _)
    (@Encoder.require_does session.rules ⟨theory, (f, s) :: session.demands⟩ edge 0
      _ f s [] session.unrolling.encoder rfl
      (Encoder.admits_of_validate hvalid edge.index edge.last) (Nat.zero_le _) hs
      (.demanded List.mem_cons_self hs) h.tidy)
  exact ⟨after, hok, ha⟩

/-- An acceptable formula can be required at a reached step. -/
theorem require_ok (h : Sane theory session) {f : Formula} {s : Nat} {edge : Instant}
    (hvalid : validate .always f = .ok ()) (hedge : session.unrolling.edge = some edge)
    (hs : s ≤ edge.index) :
    ∃ after, Unrolling.require f s session.unrolling = .ok after.rules
        { session.unrolling with encoder := { after with rules := [] } } ∧
      Encoder.Meets session.rules ⟨theory, (f, s) :: session.demands⟩ edge 0 f s []
        session.unrolling.encoder after := by
  obtain ⟨after, hok, ha⟩ := h.require_encoder_ok hvalid hs
  exact ⟨after, (Unrolling.checked_granted hvalid hedge hs _).trans
    (Unrolling.withEncoder_takeRules hok fun _ rules => rules), ha⟩

/-- A formula that is not represented at a step can be bound. -/
theorem bind_ok (h : Sane theory session) {f : Formula} {s : Nat} {host : Lit}
    (hvalid : validate .always f = .ok ()) (hpos : host.negated = false)
    (hfree : ¬ session.unrolling.encoder.Represents f s) :
    session.ledger.entry f s = none ∧
      ∃ after : Encoder, Unrolling.bind f s host session.unrolling = .ok after.rules
          { session.unrolling with encoder := { after with rules := [] } } ∧
        after.Tidy ∧ session.ledger.Binds f s host (after.ledger session.rules) := by
  obtain ⟨hnone, after, ledger, hok, hfollows, hbinds⟩ :=
    @Encoder.bind_granted session.rules _ h.tidy _ _ _ hpos hfree
  rw [← hfollows.ledger_eq] at hbinds
  exact ⟨hnone, after, (Unrolling.bind_checked hvalid).trans
    (Unrolling.withEncoder_takeRules hok fun _ rules => rules), hfollows.tidy, hbinds⟩

/-- A request that was refused has changed nothing. -/
theorem refused (h : Sane theory session) {request : Request}
    (hsame : session.perform request = session) : Takes theory session request := by
  refine ⟨?_, ?_, ?_, ?_⟩
  · rw [hsame]
    exact h.theory_eq
  · rw [hsame]
    exact h.tidy
  · rw [hsame]
    exact h.taken
  · rw [hsame]
    exact .refused

/-- The rules of a request that was granted have been taken away. -/
theorem granted (h : Sane theory session) {request : Request} {after : Encoder} {log : Log}
    {edge : Option Instant} {history : List Batch}
    (hperform : session.perform request =
      { log with
        unrolling :=
          { session.unrolling with
            encoder := { after with rules := [] }, edge := edge, history := history }
        rules := session.rules ++ after.rules })
    (htidy : after.Tidy)
    (hp : Ledger.Passes theory session.toLog session.unrolling.edge session.ledger request log edge
      (after.ledger session.rules)) : Takes theory session request := by
  rw [← Encoder.ledger_taken] at hp
  refine ⟨?_, ?_, ?_, ?_⟩
  · rw [hperform]
    exact h.theory_eq
  · rw [hperform]
    exact htidy.taken
  · rw [hperform]
  · rw [hperform]
    exact hp

theorem extend (h : Sane theory session) : Takes theory session .extend := by
  cases hclosed : session.unrolling.isClosed with
  | true =>
    obtain ⟨cause, hrefused⟩ := Unrolling.extend_refused hclosed
    refine h.refused ?_
    simp only [Session.perform, hrefused]
  | false =>
    obtain ⟨after, history, hextend, hreaches⟩ := h.extend_ok hclosed
    have hstep := session.unrolling.nextStep_eq
    rw [hstep] at hextend hreaches
    refine h.granted (by simp only [Session.perform, hextend]; rfl) hreaches.extending.tidy
      (.reached (Unrolling.last_of_isClosed hclosed) hreaches)

theorem close (h : Sane theory session) (k : Nat) : Takes theory session (.close k) := by
  by_cases hedge : session.unrolling.edge = some ⟨k, false⟩
  · obtain ⟨middle, after, history, hclose, htidy, hledger, hcloses⟩ := h.close_ok hedge
    refine h.granted (by simp only [Session.perform, hclose]; rfl) htidy ?_
    rw [hledger]
    exact .closed hedge hcloses
  · refine h.refused ?_
    simp only [Session.perform, Unrolling.close_refused hedge]

theorem encode (h : Sane theory session) (f : Formula) (s : Nat) :
    Takes theory session (.encode f s) := by
  by_cases hgrants : session.unrolling.Grants f s
  · obtain ⟨hvalid, edge, hedge, hs⟩ := hgrants
    obtain ⟨lit, after, hencode, ha⟩ := h.encode_ok hvalid hedge hs
    exact h.granted (by simp only [Session.perform, hencode]; rfl) ha.tidy
      (.answered hedge hs ha.moves ha.lit_eq)
  · obtain ⟨cause, hrefused⟩ := Unrolling.checked_refused hgrants fun window => do
      let lit ← Unrolling.withEncoder (Encoder.encode window f s)
      return (lit, ← Unrolling.withEncoder Encoder.takeRules)
    have hrefused : Unrolling.encode f s session.unrolling = _ := hrefused
    refine h.refused ?_
    simp only [Session.perform, hrefused]

theorem require (h : Sane theory session) (f : Formula) (s : Nat) :
    Takes theory session (.require f s) := by
  by_cases hgrants : session.unrolling.Grants f s
  · obtain ⟨hvalid, edge, hedge, hs⟩ := hgrants
    obtain ⟨after, hrequire, ha⟩ := h.require_ok hvalid hedge hs
    exact h.granted (by simp only [Session.perform, hrequire]; rfl) ha.tidy
      (.demanded hedge hs ha.moves ha.owes ha.met)
  · obtain ⟨cause, hrefused⟩ := Unrolling.checked_refused hgrants fun window => do
      Unrolling.withEncoder (Encoder.require window f s [])
      Unrolling.withEncoder Encoder.takeRules
    have hrefused : Unrolling.require f s session.unrolling = _ := hrefused
    refine h.refused ?_
    simp only [Session.perform, hrefused]

theorem bind (h : Sane theory session) (f : Formula) (s : Nat) (host : Lit) :
    Takes theory session (.bind f s host) := by
  cases hvalid : validate .always f with
  | error cause =>
    refine h.refused ?_
    simp only [Session.perform, Unrolling.bind_malformed hvalid]
  | ok =>
    by_cases hmisused : host.negated = true ∨ session.unrolling.encoder.Represents f s
    · -- The formula has been numbered, but nothing else has happened.
      obtain ⟨cause, hbind⟩ := Unrolling.bind_misused h.tidy hvalid hmisused
      obtain ⟨htidy, -, hledger⟩ := Encoder.numbered_follows session.rules h.tidy f
      have hperform : session.perform (.bind f s host) =
          { session with
            unrolling :=
              { session.unrolling with encoder := session.unrolling.encoder.numbered f } } := by
        simp only [Session.perform, hbind]
      refine ⟨?_, ?_, ?_, ?_⟩
      · rw [hperform]
        exact h.theory_eq
      · rw [hperform]
        exact htidy
      · rw [hperform]
        exact h.taken
      · have hsame : (session.perform (.bind f s host)).ledger = session.ledger := by
          rw [hperform]
          exact hledger
        rw [hsame, hperform]
        exact .refused
    · obtain ⟨hpos, hfree⟩ := not_or.1 hmisused
      obtain ⟨hnone, after, hbind, htidy, hbinds⟩ :=
        h.bind_ok hvalid (Bool.eq_false_iff.2 hpos) hfree
      exact h.granted (by simp only [Session.perform, hbind]; rfl) htidy (.bound hnone hbinds)

theorem newLiteral (h : Sane theory session) : Takes theory session .newLiteral := by
  have hfollows : Encoder.Follows _ _ _ _ := (Encoder.fresh_does session.rules h.tidy).2
  exact ⟨h.theory_eq, hfollows.tidy, h.taken, .supplied⟩

/-- **What a request does**, whichever it is. -/
theorem takes (h : Sane theory session) : (request : Request) → Takes theory session request
  | .extend => h.extend
  | .close k => h.close k
  | .encode f s => h.encode f s
  | .require f s => h.require f s
  | .bind f s host => h.bind f s host
  | .newLiteral => h.newLiteral

theorem perform (h : Sane theory session) (request : Request) :
    Sane theory (session.perform request) := by
  obtain ⟨htheory, htidy, htaken, hpasses⟩ := h.takes request
  exact ⟨h.accepted, htheory, htidy, htaken, h.poised.passes hpasses⟩

end Sane

theorem Proper.perform {theory : Theory} {session : Session} (h : Proper theory session)
    {request : Request} (hpermits : session.Permits request) :
    Proper theory (session.perform request) := by
  obtain ⟨htheory, htidy, htaken, hpasses⟩ := h.sane.takes request
  refine ⟨h.accepted, htheory, htidy, htaken, h.standing.passes hpasses ?_⟩
  rintro f s host rfl
  exact hpermits.1

/-- **What a caller can rely on after any sequence of requests.** -/
theorem Reachable.proper {theory : Theory} {session : Session} (h : Reachable theory session) :
    Proper theory session := by
  induction h with
  | start h => exact .start h
  | perform _ hpermits ih => exact ih.perform hpermits

end Session
end TemporalHorizon

import Mathlib.Data.List.Induction
import TemporalHorizon.Proofs.Exactness
import TemporalHorizon.Proofs.Session

/-!
# Sessions in range

What has been said of the encoder holds of an unrolling and of a session: as long as all
numbers fit into words, the words do not show.  The step after the edge is counted in
addition to the atoms and formulas.

* `Unrolling.InRange`, `Session.InRange`: all numbers that have been handed out are exact,
  and so is the step after the edge.
* `Unrolling.Agrees`: two requests to an unrolling that are the same if one of them leaves
  it in range.
* `Session.perform_eq_exact`, `Session.Reachable.exact`: a session in range is one that can
  be brought about without words, so everything that is true of those is true of it.
-/

namespace TemporalHorizon

section Discard

variable {ε σ α : Type} {x : EStateM ε σ α} {u u' : σ}

theorem discard_ok {a : α} (h : x u = .ok a u') : (discard x : EStateM ε σ Unit) u = .ok () u' := by
  show EStateM.map (fun _ => ()) x u = _
  unfold EStateM.map
  rw [h]

theorem discard_error {failure : ε} (h : x u = .error failure u') :
    (discard x : EStateM ε σ Unit) u = .error failure u' := by
  show EStateM.map (fun _ => ()) x u = _
  unfold EStateM.map
  rw [h]

theorem stateAfter_discard (x : EStateM ε σ α) (u : σ) :
    stateAfter (discard x : EStateM ε σ Unit) u = stateAfter x u := by
  cases h : x u with
  | ok a later => rw [stateAfter_ok (discard_ok h), stateAfter_ok h]
  | error failure later => rw [stateAfter_error (discard_error h), stateAfter_error h]

end Discard

namespace Unrolling

/-- No fewer atoms, formulas and steps are numbered. -/
structure Grows (u later : Unrolling) : Prop where
  encoder : u.encoder.Grows later.encoder
  step : u.nextStep ≤ later.nextStep

theorem Grows.refl (u : Unrolling) : u.Grows u := ⟨.refl _, Nat.le_refl _⟩

theorem Grows.trans {a b c : Unrolling} (h : a.Grows b) (h' : b.Grows c) : a.Grows c :=
  ⟨h.encoder.trans h'.encoder, Nat.le_trans h.step h'.step⟩

variable [Arithmetic] {α β : Type} {u : Unrolling}

/-- All atoms and formulas that have been numbered are exact, and so is the step after the
edge. -/
structure InRange (u : Unrolling) : Prop where
  encoder : u.encoder.InRange
  step : Arithmetic.Fits u.nextStep

instance : DecidablePred InRange := fun _ =>
  decidable_of_iff' _ ⟨fun h => And.intro h.encoder h.step, fun h => ⟨h.1, h.2⟩⟩

theorem InRange.of_grows {later : Unrolling} (h : later.InRange) (hg : u.Grows later) :
    u.InRange :=
  ⟨h.encoder.of_grows hg.encoder,
    Arithmetic.fitsNumbers_of_le h.step (Nat.succ_le_succ hg.step)⟩

/-! ## Requests that agree in range -/

/-- Two computations that do the same to an unrolling if one of them leaves it in range. -/
structure Agrees (u : Unrolling) (x x' : Unroll α) : Prop where
  grows : u.Grows (stateAfter x u)
  grows_exact : u.Grows (stateAfter x' u)
  agree : (stateAfter x u).InRange ∨ (stateAfter x' u).InRange → x u = x' u

namespace Agrees

open Encoder (Turn)

theorem of_eq {x x' y y' : Unroll α} (h : Agrees u y y') (hx : x u = y u) (hx' : x' u = y' u) :
    Agrees u x x' := by
  have hstate : stateAfter x u = stateAfter y u := stateAfter_congr hx
  have hstate' : stateAfter x' u = stateAfter y' u := stateAfter_congr hx'
  refine ⟨hstate ▸ h.grows, hstate' ▸ h.grows_exact, fun hrange => ?_⟩
  rw [hstate, hstate'] at hrange
  rw [hx, hx']
  exact h.agree hrange

/-- The outcome is the same also if it is not looked at. -/
theorem of_discard {x x' : Unroll α} (h : Agrees u x x')
    (hrange : (stateAfter (Functor.discard x : Unroll Unit) u).InRange ∨
      (stateAfter (Functor.discard x' : Unroll Unit) u).InRange) : x u = x' u := by
  rw [stateAfter_discard, stateAfter_discard] at hrange
  exact h.agree hrange

theorem discard {x x' : Unroll α} (h : Agrees u x x') :
    Agrees u (Functor.discard x : Unroll Unit) (Functor.discard x' : Unroll Unit) := by
  refine ⟨?_, ?_, fun hrange => ?_⟩
  · rw [stateAfter_discard]
    exact h.grows
  · rw [stateAfter_discard]
    exact h.grows_exact
  · show EStateM.map (fun _ => ()) x u = EStateM.map (fun _ => ()) x' u
    unfold EStateM.map
    rw [h.of_discard hrange]

/-- A computation that is refused whatever the arithmetic. -/
theorem refused {x x' : Unroll α} {failure : Failure} (hx : x u = .error failure u)
    (hx' : x' u = .error failure u) : Agrees u x x' := by
  refine ⟨?_, ?_, fun _ => hx.trans hx'.symm⟩
  · rw [stateAfter_error hx]
    exact .refl u
  · rw [stateAfter_error hx']
    exact .refl u

theorem pure (a : α) : Agrees u (pure a) (pure a) :=
  ⟨.refl u, .refl u, fun _ => rfl⟩

omit [Arithmetic] in
theorem grows_bind {x : Unroll α} {next : α → Unroll β} (hx : u.Grows (stateAfter x u))
    (hnext : ∀ a (later : Unrolling), later.Grows (stateAfter (next a) later)) :
    u.Grows (stateAfter (x >>= next) u) ∧
      (stateAfter x u).Grows (stateAfter (x >>= next) u) := by
  cases hrun : x u with
  | ok a after =>
    rw [stateAfter_ok hrun] at hx ⊢
    rw [stateAfter_bind_ok hrun]
    exact ⟨hx.trans (hnext a after), hnext a after⟩
  | error failure after =>
    rw [stateAfter_error hrun] at hx ⊢
    rw [stateAfter_error (bind_error hrun)]
    exact ⟨hx, .refl _⟩

/-- Requests one after the other. -/
theorem bind {x x' : Unroll α} {next next' : α → Unroll β} (hx : Agrees u x x')
    (hnext : ∀ a later, Agrees later (next a) (next' a)) :
    Agrees u (x >>= next) (x' >>= next') := by
  obtain ⟨hgrows, hfirst⟩ := grows_bind hx.grows fun a later => (hnext a later).grows
  obtain ⟨hgrows', hfirst'⟩ :=
    grows_bind hx.grows_exact fun a later => (hnext a later).grows_exact
  refine ⟨hgrows, hgrows', fun hrange => ?_⟩
  have hrun : x u = x' u := hx.agree (hrange.imp (·.of_grows hfirst) (·.of_grows hfirst'))
  cases hstart : x u with
  | ok a after =>
    have hstart' : x' u = .ok a after := hrun ▸ hstart
    rw [stateAfter_bind_ok hstart, stateAfter_bind_ok hstart'] at hrange
    rw [bind_ok hstart, bind_ok hstart']
    exact (hnext a after).agree hrange
  | error failure after => rw [bind_error hstart, bind_error (hrun ▸ hstart)]

theorem grows_withEncoder_bind {x : Encode α} {next : α → Unroll β} (hx : Along Turn x)
    (hnext : ∀ a (later : Unrolling), later.edge = u.edge →
      later.Grows (stateAfter (next a) later)) :
    u.Grows (stateAfter (withEncoder x >>= next) u) ∧
      (stateAfter x u.encoder).Grows (stateAfter (withEncoder x >>= next) u).encoder := by
  have hgrown := Encoder.grows_of_turns (hx u.encoder)
  cases hrun : x u.encoder with
  | ok a after =>
    rw [stateAfter_ok hrun] at hgrown ⊢
    have hstep : u.Grows { u with encoder := after } := ⟨hgrown, Nat.le_refl _⟩
    have hrest := hnext a { u with encoder := after } rfl
    rw [stateAfter_bind_ok (withEncoder_ok hrun)]
    exact ⟨hstep.trans hrest, hrest.encoder⟩
  | error failure after =>
    rw [stateAfter_error hrun] at hgrown ⊢
    rw [stateAfter_error (bind_error (withEncoder_error hrun))]
    exact ⟨⟨hgrown, Nat.le_refl _⟩, .refl _⟩

/-- A request asks the encoder once, and what it does afterwards does not depend on the
arithmetic. -/
theorem withEncoder_bind {x x' : Encode α} {next : α → Unroll β} (hx : Along Turn x)
    (hx' : Along (@Turn .exact) x')
    (h : Arithmetic.Fits u.nextStep → TemporalHorizon.Agrees 0 x x')
    (hnext : ∀ a (later : Unrolling), later.edge = u.edge →
      later.Grows (stateAfter (next a) later)) :
    Agrees u (withEncoder x >>= next) (withEncoder x' >>= next) := by
  obtain ⟨hgrows, hfirst⟩ := grows_withEncoder_bind hx hnext
  obtain ⟨hgrows', hfirst'⟩ := @grows_withEncoder_bind .exact _ _ u _ _ hx' hnext
  refine ⟨hgrows, hgrows', fun hrange => ?_⟩
  have hstep : Arithmetic.Fits u.nextStep :=
    hrange.elim (fun h => (h.of_grows hgrows).step) fun h => (h.of_grows hgrows').step
  have hrun : x u.encoder = x' u.encoder := (h hstep).agree u.encoder (Nat.zero_le _)
    (hrange.imp (fun h => h.encoder.of_grows hfirst) fun h => h.encoder.of_grows hfirst')
  cases hx : x u.encoder with
  | ok a after =>
    rw [bind_ok (withEncoder_ok hx), bind_ok (withEncoder_ok (hrun ▸ hx))]
  | error failure after =>
    rw [bind_error (withEncoder_error hx), bind_error (withEncoder_error (hrun ▸ hx))]

/-- The checks before a request do not depend on the arithmetic. -/
theorem checked {f : Formula} {s : Nat} {next next' : Window → Unroll α}
    (h : ∀ edge, u.edge = some edge →
      Agrees u (next ⟨edge.index, edge.last, .always⟩) (next' ⟨edge.index, edge.last, .always⟩)) :
    Agrees u (checked f s next) (checked f s next') := by
  by_cases hgrants : u.Grants f s
  · obtain ⟨hvalid, edge, hedge, hs⟩ := hgrants
    exact (h edge hedge).of_eq (checked_granted hvalid hedge hs next)
      (checked_granted hvalid hedge hs next')
  · obtain ⟨cause, hrefused⟩ := exists_refusal hgrants
    exact .refused (hrefused next) (hrefused next')

end Agrees

/-! ## The requests -/

theorem turns_reachStep (theory : Theory) (step : Nat) :
    Along Encoder.Turn (reachStep theory step) := by
  refine .bind (.resolveBoundaries _ _) fun _ => .bind (.runDeferred _ _) fun _ =>
    .bind (.turn _ (Along.advanceInstances rfl step).changes) fun _ =>
    .bind (.forM fun _ _ => .turn _ (Along.require _ _ _ _ rfl).changes) fun _ => ?_
  dsimp only
  split
  · exact .pure _
  · refine .bind (.bind (.turn _ (.encode rfl _ _)) fun _ => ?_) fun _ => .pure _
    exact .forM fun _ _ => .turn _ (Along.require _ _ _ _ rfl).changes

theorem turns_closeStep (theory : Theory) (step : Nat) :
    Along Encoder.Turn (closeStep theory step) :=
  .bind (.forM fun _ _ => .turn _ (Along.require _ _ _ _ rfl).changes) fun _ => .close

theorem agrees_reachStep (theory : Theory) {step : Nat} (h : Arithmetic.Fits step) :
    TemporalHorizon.Agrees 0 (reachStep theory step) (@reachStep .exact theory step) := by
  have hw : Window.InRange ⟨step, false, .always⟩ := h
  refine .bind (.resolveBoundaries hw _) fun _ => .bind (.runDeferred hw _) fun _ =>
    .bind (.advanceInstances hw _) fun _ =>
    .bind (.forM fun _ _ => Agrees.require.ask (hw.withStage _) _ _ _) fun _ => ?_
  dsimp only
  split
  · exact .pure _
  · refine .bind (.bind (.encode hw _ _) fun _ => ?_) fun _ => .pure _
    exact .forM fun _ _ => Agrees.require.ask (hw.withStage _) _ _ _

theorem agrees_closeStep (theory : Theory) {step : Nat} (h : Arithmetic.Fits step) :
    TemporalHorizon.Agrees 0 (closeStep theory step) (@closeStep .exact theory step) := by
  have hw : Window.InRange ⟨step, true, .final⟩ := h
  exact .bind (.forM fun _ _ => Agrees.require.ask hw _ _ _) fun _ => .same .close

/-- What an extension does when the encoder has reached the step. -/
def finishStep (step : Nat) (released : List Lit) : Unroll Batch := do
  modify fun unrolling => { unrolling with edge := some ⟨step, false⟩ }
  let rules ← withEncoder Encoder.takeRules
  let batch : Batch := ⟨step, rules, (← get).encoder.edge.externals, released⟩
  record batch
  return batch

omit [Arithmetic] in
theorem grows_finishStep {later : Unrolling} (hedge : later.edge = u.edge) (released : List Lit) :
    later.Grows (stateAfter (finishStep u.nextStep released) later) := by
  have hsame : later.nextStep = u.nextStep := by rw [nextStep, horizon?, hedge, nextStep, horizon?]
  obtain ⟨theory, recordHistory, encoder, edge, history⟩ := later
  cases recordHistory <;>
  · exact ⟨⟨Nat.le_refl _, Nat.le_refl _⟩, hsame ▸ Nat.le_succ _⟩

theorem extend_eq_finishStep (hopen : u.isClosed = false) :
    extend u = (withEncoder (reachStep u.theory u.nextStep) >>= finishStep u.nextStep) u := by
  obtain ⟨theory, recordHistory, encoder, edge, history⟩ := u
  rcases edge with _ | ⟨i, _ | _⟩
  · rfl
  · rfl
  · cases hopen

theorem agrees_extend (u : Unrolling) : Agrees u extend (@extend .exact) := by
  cases hclosed : u.isClosed with
  | true =>
    obtain ⟨theory, recordHistory, encoder, edge, history⟩ := u
    rcases edge with _ | ⟨i, _ | _⟩
    · cases hclosed
    · cases hclosed
    · exact .refused rfl rfl
  | false =>
    exact Agrees.of_eq (.withEncoder_bind (turns_reachStep _ _) (@turns_reachStep .exact _ _)
      (agrees_reachStep u.theory) fun released _ hedge => grows_finishStep hedge released)
      (extend_eq_finishStep hclosed) (@extend_eq_finishStep .exact u hclosed)

/-- What a request to close the horizon does when the encoder has closed it. -/
def finishClose (step : Nat) (fixed : List External) : Unroll Batch := do
  modify fun unrolling => { unrolling with edge := some ⟨step, true⟩ }
  ensure (checkSettled (← get).encoder.edge step)
  let rules ← withEncoder Encoder.takeRules
  let batch : Batch := ⟨step, rules, [], fixed.map External.lit⟩
  record batch
  return batch

omit [Arithmetic] in
theorem grows_finishClose {later : Unrolling} {k : Nat} (hedge : later.edge = some ⟨k, false⟩)
    (fixed : List External) : later.Grows (stateAfter (finishClose k fixed) later) := by
  obtain ⟨theory, recordHistory, encoder, edge, history⟩ := later
  cases hedge
  have hchecked : ∀ check : Except Violation Unit,
      Grows ⟨theory, recordHistory, encoder, some ⟨k, false⟩, history⟩
      (stateAfter (do
        ensure check
        let rules ← withEncoder Encoder.takeRules
        let batch : Batch := ⟨k, rules, [], fixed.map External.lit⟩
        record batch
        return batch) ⟨theory, recordHistory, encoder, some ⟨k, true⟩, history⟩) := by
    intro check
    cases check with
    | error cause => exact ⟨.refl _, Nat.le_refl _⟩
    | ok _ =>
      cases recordHistory <;>
      · exact ⟨⟨Nat.le_refl _, Nat.le_refl _⟩, Nat.le_refl _⟩
  exact hchecked _

theorem close_eq_finishClose {k : Nat} (hedge : u.edge = some ⟨k, false⟩) :
    close k u = (withEncoder (closeStep u.theory k) >>= finishClose k) u := by
  obtain ⟨theory, recordHistory, encoder, edge, history⟩ := u
  cases hedge
  have hcheck : ensure (checkEdge (some ⟨k, false⟩) k)
      ⟨theory, recordHistory, encoder, some ⟨k, false⟩, history⟩ =
        .ok () ⟨theory, recordHistory, encoder, some ⟨k, false⟩, history⟩ := by
    unfold checkEdge
    rw [if_pos rfl]
    rfl
  exact bind_ok hcheck

theorem agrees_close (u : Unrolling) (k : Nat) : Agrees u (close k) (@close .exact k) := by
  by_cases hedge : u.edge = some ⟨k, false⟩
  · have hstep : u.nextStep = k + 1 := by rw [nextStep, horizon?, hedge]; rfl
    refine Agrees.of_eq (.withEncoder_bind (turns_closeStep _ _) (@turns_closeStep .exact _ _)
      (fun h => agrees_closeStep u.theory ?_) fun fixed _ hlater =>
        grows_finishClose (hlater.trans hedge) fixed)
      (close_eq_finishClose hedge) (@close_eq_finishClose .exact u k hedge)
    rw [hstep] at h
    exact Arithmetic.fitsNumbers_of_le h (Nat.le_succ _)
  · exact .refused (close_refused hedge) (@close_refused .exact u k hedge)

/-- The window of an unrolling in range is in range. -/
theorem inRange_window {edge : Instant} (hedge : u.edge = some edge)
    (h : Arithmetic.Fits u.nextStep) : Window.InRange ⟨edge.index, edge.last, .always⟩ := by
  rw [nextStep, horizon?, hedge] at h
  exact Arithmetic.fitsNumbers_of_le h (Nat.le_succ _)

omit [Arithmetic] in
/-- The rules that the encoder holds are taken away. -/
theorem grows_takeRules (g : List Rule → β) (later : Unrolling) :
    later.Grows (stateAfter (do return g (← withEncoder Encoder.takeRules) : Unroll β) later) :=
  ⟨⟨Nat.le_refl _, Nat.le_refl _⟩, Nat.le_refl _⟩

theorem agrees_encode (u : Unrolling) (f : Formula) (s : Nat) :
    Agrees u (encode f s) (@encode .exact f s) :=
  .checked fun _ hedge => .withEncoder_bind (.turn _ (.encode rfl f s))
    (@Along.turn .exact _ _ _ (@Along.encode .exact _ _ rfl f s))
    (fun h => .encode (inRange_window hedge h) f s)
    fun lit later _ => grows_takeRules (lit, ·) later

theorem agrees_require (u : Unrolling) (f : Formula) (s : Nat) :
    Agrees u (require f s) (@require .exact f s) :=
  .checked fun _ hedge => .withEncoder_bind (.turn _ (Along.require _ f s [] rfl).changes)
    (@Along.turn .exact _ _ _ (@Along.changes .exact _ _ _ (@Along.require .exact _ _ f s [] rfl)))
    (fun h => Agrees.require.ask (inRange_window hedge h) f s []) fun _ later _ =>
      grows_takeRules id later

theorem agrees_bind (u : Unrolling) (f : Formula) {s : Nat} (hs : Arithmetic.Fits s) (host : Lit) :
    Agrees u (bind f s host) (@bind .exact f s host) := by
  cases hvalid : validate .always f with
  | error cause => exact .refused (bind_malformed hvalid) (@bind_malformed _ _ _ _ .exact _ hvalid)
  | ok =>
    exact Agrees.of_eq (.withEncoder_bind (.bindHost f s host) (@Along.bindHost .exact f s host)
      (fun _ => .bindHost f hs host) fun _ later _ => grows_takeRules id later)
      (bind_checked hvalid) (@bind_checked _ _ _ _ .exact hvalid)

theorem agrees_newLiteral (u : Unrolling) : Agrees u newLiteral (@newLiteral .exact) := by
  refine Agrees.of_eq (.withEncoder_bind (.turn 0 .fresh)
      (@Along.turn .exact _ 0 _ (@Along.fresh .exact _)) (fun _ => .fresh) fun lit later _ => ?_)
    (congrFun (bind_pure _).symm u)
    (congrFun (bind_pure _).symm u)
  exact .refl later

end Unrolling

/-! ## Requests as computations -/

/-- A request as a computation of an unrolling, without what it returns. -/
def Request.run [Arithmetic] : Request → Unroll Unit
  | .extend => discard Unrolling.extend
  | .close step => discard (Unrolling.close step)
  | .encode f step => discard (Unrolling.encode f step)
  | .require f step => discard (Unrolling.require f step)
  | .bind f step host => discard (Unrolling.bind f step host)
  | .newLiteral => discard Unrolling.newLiteral

namespace Session

/-- A session keeps the unrolling that a request leaves, whatever the outcome. -/
theorem perform_unrolling [Arithmetic] (session : Session) (request : Request) :
    (session.perform request).unrolling = stateAfter request.run session.unrolling := by
  cases request with
  | newLiteral => rfl
  | _ =>
    rw [Request.run, stateAfter_discard]
    unfold perform stateAfter
    dsimp only
    split
    · next hok => rw [hok]
    · next herror => rw [herror]

end Session

/-- The step of a binding, which need not have been reached, is exact. -/
def Request.InRange [Arithmetic] : Request → Prop
  | .bind _ step _ => Arithmetic.Fits step
  | _ => True

instance [Arithmetic] : DecidablePred Request.InRange
  | .bind _ step _ => inferInstanceAs (Decidable (Arithmetic.Fits step))
  | .extend | .close _ | .encode _ _ | .require _ _ | .newLiteral =>
    inferInstanceAs (Decidable True)

theorem Request.agrees [Arithmetic] (u : Unrolling) {request : Request} (h : request.InRange) :
    Unrolling.Agrees u request.run (@Request.run .exact request) := by
  cases request with
  | extend => exact (Unrolling.agrees_extend u).discard
  | close k => exact (Unrolling.agrees_close u k).discard
  | encode f s => exact (Unrolling.agrees_encode u f s).discard
  | require f s => exact (Unrolling.agrees_require u f s).discard
  | bind f s host => exact (Unrolling.agrees_bind u f h host).discard
  | newLiteral => exact (Unrolling.agrees_newLiteral u).discard

namespace Session

variable [Arithmetic] {theory : Theory} {session : Session} {request : Request}

/-- All numbers that have been handed out in a session are exact, and so is the step after
the edge. -/
def InRange (session : Session) : Prop := session.unrolling.InRange

instance : DecidablePred InRange := fun session =>
  inferInstanceAs (Decidable session.unrolling.InRange)

theorem Permits.inRange (h : session.Permits request) : request.InRange := by
  cases request with
  | bind f s host => exact h.2
  | _ => trivial

theorem Permits.exact (h : session.Permits request) : @Permits .exact session request := by
  cases request with
  | bind f s host => exact ⟨h.1, rfl⟩
  | _ => trivial

theorem InRange.run (h : (session.perform request).InRange) :
    (stateAfter request.run session.unrolling).InRange := by
  rw [← perform_unrolling]
  exact h

/-- A session before a request is in range if the one after it is. -/
theorem InRange.of_perform (h : (session.perform request).InRange) (hrequest : request.InRange) :
    session.InRange :=
  h.run.of_grows (request.agrees session.unrolling hrequest).grows

/-- **In range, words do not show.** -/
theorem perform_eq_exact
    (hrange : (session.perform request).InRange ∨ (@perform .exact session request).InRange)
    (hrequest : request.InRange) :
    session.perform request = @perform .exact session request := by
  unfold InRange at hrange
  rw [perform_unrolling, @perform_unrolling .exact] at hrange
  cases request with
  | extend => simp only [perform, (Unrolling.agrees_extend _).of_discard hrange]
  | close k => simp only [perform, (Unrolling.agrees_close _ k).of_discard hrange]
  | encode f s => simp only [perform, (Unrolling.agrees_encode _ f s).of_discard hrange]
  | require f s => simp only [perform, (Unrolling.agrees_require _ f s).of_discard hrange]
  | bind f s host =>
    simp only [perform, (Unrolling.agrees_bind _ f hrequest host).of_discard hrange]
  | newLiteral => simp only [perform, (Unrolling.agrees_newLiteral _).of_discard hrange]

theorem extend_eq_exact (h : (session.perform .extend).InRange) :
    Unrolling.extend session.unrolling = @Unrolling.extend .exact session.unrolling :=
  (Unrolling.agrees_extend _).of_discard (.inl h.run)

theorem close_eq_exact {k : Nat} (h : (session.perform (.close k)).InRange) :
    Unrolling.close k session.unrolling = @Unrolling.close .exact k session.unrolling :=
  (Unrolling.agrees_close _ k).of_discard (.inl h.run)

theorem encode_eq_exact {f : Formula} {s : Nat} (h : (session.perform (.encode f s)).InRange) :
    Unrolling.encode f s session.unrolling = @Unrolling.encode .exact f s session.unrolling :=
  (Unrolling.agrees_encode _ f s).of_discard (.inl h.run)

theorem batch?_eq_exact (h : (session.perform request).InRange) :
    request.batch? session.unrolling = @Request.batch? .exact session.unrolling request := by
  cases request with
  | extend => simp only [Request.batch?, extend_eq_exact h]
  | close k => simp only [Request.batch?, close_eq_exact h]
  | encode f s => rfl
  | require f s => rfl
  | bind f s host => rfl
  | newLiteral => rfl

/-- Requests that bind nothing lead to the same session. -/
theorem after_eq_exact {requests : List Request}
    (hplain : ∀ request ∈ requests, request.binds = false)
    (hrange : (after theory requests).InRange) :
    after theory requests = @after .exact theory requests := by
  induction requests using List.reverseRecOn with
  | nil => rw [after_nil, @after_nil .exact]
  | append_singleton rest request ih =>
    have hrequest : request.InRange := by
      cases request with
      | bind f s host => cases hplain _ (List.mem_append_right _ (List.mem_singleton_self _))
      | _ => trivial
    rw [after_concat] at hrange
    rw [after_concat, @after_concat .exact, perform_eq_exact (.inl hrange) hrequest,
      ih (fun other hother => hplain other (List.mem_append_left _ hother))
        (hrange.of_perform hrequest)]

/-- A session in range can be brought about without words. -/
theorem Reachable.exact (h : Reachable theory session) (hrange : session.InRange) :
    @Reachable .exact theory session := by
  induction h with
  | start hstart => exact @Reachable.start .exact _ _ _ hstart
  | perform _ hpermits ih =>
    rw [perform_eq_exact (.inl hrange) hpermits.inRange]
    exact @Reachable.perform .exact _ _ _ (ih (hrange.of_perform hpermits.inRange)) hpermits.exact

end Session
end TemporalHorizon

import TemporalHorizon.Proofs.ExactSessions

/-!
# Refusals

A request to an unrolling fails only if its caller has broken the contract on its
input, and then it leaves no trace but the numbers of some formulas.  The encoder
can fail in the middle of its work; the checks made before it is asked, together
with what every request leaves at the edge, exclude that.

* `Formula.malformedPath?_eq_find?`: the path that is reported is the first one of
  the formula that is not in normal form.
* `Request.Misuses`: what breaks the contract.
* `Session.Sane.failsOn`: a request fails exactly then.
* `Unrolling.run_fails_iff_misuses`: this holds after any requests, granted or
  refused, and whatever host literals they have bound.
-/

namespace TemporalHorizon

section Exact

attribute [local instance] Arithmetic.exact

/-! ## The paths of a formula -/

mutual

/-- The paths of a formula, from left to right and an outer one before those in its
tests. -/
def Formula.paths : Formula → List Path
  | .atom _ _ _ | .bool _ | .initial | .final => []
  | .not arg | .previous arg _ | .next arg _ | .initially arg | .modal _ arg => arg.paths
  | .binary _ lhs rhs | .temporal _ lhs rhs => lhs.paths ++ rhs.paths
  | .dynamic _ path arg => path :: (path.testedPaths ++ arg.paths)

/-- The paths inside the tests of a path. -/
def Path.testedPaths : Path → List Path
  | .skip => []
  | .test arg => arg.paths
  | .seq first second => first.testedPaths ++ second.testedPaths
  | .choice lhs rhs => lhs.testedPaths ++ rhs.testedPaths
  | .star body => body.testedPaths

end

theorem find?_append_orElse {α : Type} (p : α → Bool) (xs ys : List α) :
    (xs ++ ys).find? p = (xs.find? p <|> ys.find? p) := by
  rw [List.find?_append]
  cases xs.find? p <;> rfl

mutual

/-- The check of a formula reports the first of its paths that is not in normal
form. -/
theorem Formula.malformedPath?_eq_find? : (f : Formula) →
    f.malformedPath? = f.paths.find? fun path => !path.isNormal
  | .atom _ _ _ | .bool _ | .initial | .final => rfl
  | .not arg | .previous arg _ | .next arg _ | .initially arg | .modal _ arg =>
    arg.malformedPath?_eq_find?
  | .binary _ lhs rhs | .temporal _ lhs rhs => by
    simp only [Formula.malformedPath?, Formula.paths, find?_append_orElse,
      lhs.malformedPath?_eq_find?, rhs.malformedPath?_eq_find?]
  | .dynamic _ path arg => by
    simp only [Formula.malformedPath?, Formula.paths, List.find?_cons, find?_append_orElse,
      path.malformedTest?_eq_find?, arg.malformedPath?_eq_find?]
    cases path.isNormal <;> rfl

theorem Path.malformedTest?_eq_find? : (path : Path) →
    path.malformedTest? = path.testedPaths.find? fun path => !path.isNormal
  | .skip => rfl
  | .test arg => arg.malformedPath?_eq_find?
  | .seq first second => by
    simp only [Path.malformedTest?, Path.testedPaths, find?_append_orElse,
      first.malformedTest?_eq_find?, second.malformedTest?_eq_find?]
  | .choice lhs rhs => by
    simp only [Path.malformedTest?, Path.testedPaths, find?_append_orElse,
      lhs.malformedTest?_eq_find?, rhs.malformedTest?_eq_find?]
  | .star body => body.malformedTest?_eq_find?

end

/-- Some path of the formula is not in normal form. -/
def Formula.Malformed (f : Formula) : Prop := ∃ path ∈ f.paths, path.isNormal = false

theorem validate_always_eq_ok_iff {f : Formula} : validate .always f = .ok () ↔ ¬ f.Malformed := by
  have hnone : f.malformedPath? = none ↔ ¬ f.Malformed := by
    rw [f.malformedPath?_eq_find?, List.find?_eq_none]
    simp [Formula.Malformed]
  unfold validate
  rw [← hnone]
  cases f.malformedPath? <;> simp [Stage.licensesFuture]

/-! ## Failing -/

namespace Unrolling

/-- The unrolling after some requests, granted or refused. -/
def serve [Arithmetic] (u : Unrolling) (requests : List Request) : Unrolling :=
  requests.foldl (fun u request => stateAfter request.run u) u

/-- Everything is as it was, but further formulas may have been numbered. -/
structure Retains (u later : Unrolling) : Prop where
  grown : u.encoder.store.Extends later.encoder.store
  same : later = { u with encoder := { u.encoder with store := later.encoder.store } }

/-- A computation fails if a condition holds, without changing anything but the
numbering of formulas, and otherwise it succeeds. -/
structure FailsOn {α : Type} (x : Unroll α) (u : Unrolling) (misuse : Prop) : Prop where
  fails : misuse → ∃ cause later, x u = .error (.violation cause) later ∧ u.Retains later
  works : ¬ misuse → ∃ a later, x u = .ok a later

namespace FailsOn

variable {α : Type} {x : Unroll α} {u : Unrolling} {misuse : Prop}

theorem discard (h : FailsOn x u misuse) :
    FailsOn (Functor.discard x : Unroll Unit) u misuse where
  fails := fun hmisuse => by
    obtain ⟨cause, later, herror, hretains⟩ := h.fails hmisuse
    exact ⟨cause, later, discard_error herror, hretains⟩
  works := fun hmisuse => by
    obtain ⟨a, later, hok⟩ := h.works hmisuse
    exact ⟨(), later, discard_ok hok⟩

theorem error_iff (h : FailsOn x u misuse) :
    (∃ failure later, x u = .error failure later) ↔ misuse := by
  constructor
  · rintro ⟨failure, later, herror⟩
    by_contra hmisuse
    obtain ⟨a, later', hok⟩ := h.works hmisuse
    rw [hok] at herror
    cases herror
  · intro hmisuse
    obtain ⟨cause, later, herror, -⟩ := h.fails hmisuse
    exact ⟨_, later, herror⟩

theorem retains (h : FailsOn x u misuse) {failure : Failure} {later : Unrolling}
    (herror : x u = .error failure later) : u.Retains later := by
  obtain ⟨cause, later', herror', hretains⟩ := h.fails (h.error_iff.1 ⟨failure, later, herror⟩)
  rw [herror] at herror'
  cases herror'
  exact hretains

end FailsOn

theorem Retains.refl (u : Unrolling) : u.Retains u := ⟨.refl _, rfl⟩

theorem Refuses.fails {α : Type} {x : Unroll α} {u : Unrolling} (h : Refuses x u) :
    ∃ cause later, x u = .error (.violation cause) later ∧ u.Retains later := by
  obtain ⟨cause, herror⟩ := h
  exact ⟨cause, u, herror, .refl u⟩

/-! ## The contract -/

/-- The edge is open at a step if it is not closed and the step is the last one. -/
theorem edge_eq_open_iff {u : Unrolling} {s : Nat} :
    u.edge = some ⟨s, false⟩ ↔ ¬ (u.isClosed = true ∨ u.horizon? ≠ some s) := by
  unfold isClosed horizon?
  rcases u.edge with _ | ⟨k, _ | _⟩ <;> simp

theorem grants_iff {u : Unrolling} {f : Formula} {s : Nat} :
    u.Grants f s ↔ ¬ (f.Malformed ∨ ¬ ∃ k, u.horizon? = some k ∧ s ≤ k) := by
  unfold Grants horizon?
  rw [validate_always_eq_ok_iff]
  cases u.edge <;> simp

end Unrolling

/-- A request that its caller must not send. -/
def Request.Misuses [Arithmetic] (u : Unrolling) : Request → Prop
  | .extend => u.isClosed = true
  | .close s => u.isClosed = true ∨ u.horizon? ≠ some s
  | .encode f s | .require f s => f.Malformed ∨ ¬ ∃ k, u.horizon? = some k ∧ s ≤ k
  | .bind f s host => f.Malformed ∨ host.negated = true ∨ u.encoder.Represents f s
  | .newLiteral => False

namespace Session

variable {theory : Theory} {session : Session}

namespace Sane

theorem failsOn_extend (h : Sane theory session) :
    Unrolling.FailsOn Unrolling.extend session.unrolling (session.unrolling.isClosed = true) where
  fails := fun hclosed => (Unrolling.extend_refused hclosed).fails
  works := fun hopen => by
    obtain ⟨after, history, hok, -⟩ := h.extend_ok (Bool.eq_false_iff.2 hopen)
    exact ⟨_, _, hok⟩

theorem failsOn_close (h : Sane theory session) (s : Nat) :
    Unrolling.FailsOn (Unrolling.close s) session.unrolling
      (session.unrolling.isClosed = true ∨ session.unrolling.horizon? ≠ some s) where
  fails := fun hmisuse => by
    have hedge : session.unrolling.edge ≠ some ⟨s, false⟩ := fun hedge =>
      Unrolling.edge_eq_open_iff.1 hedge hmisuse
    exact Unrolling.Refuses.fails ⟨_, Unrolling.close_refused hedge⟩
  works := fun hmisuse => by
    obtain ⟨_, _, _, hok, -⟩ := h.close_ok (Unrolling.edge_eq_open_iff.2 hmisuse)
    exact ⟨_, _, hok⟩

theorem failsOn_encode (h : Sane theory session) (f : Formula) (s : Nat) :
    Unrolling.FailsOn (Unrolling.encode f s) session.unrolling
      (f.Malformed ∨ ¬ ∃ k, session.unrolling.horizon? = some k ∧ s ≤ k) where
  fails := fun hmisuse =>
    (Unrolling.checked_refused (fun hgrants => Unrolling.grants_iff.1 hgrants hmisuse) _).fails
  works := fun hmisuse => by
    obtain ⟨hvalid, edge, hedge, hs⟩ := Unrolling.grants_iff.2 hmisuse
    obtain ⟨_, _, hok, -⟩ := h.encode_ok hvalid hedge hs
    exact ⟨_, _, hok⟩

theorem failsOn_require (h : Sane theory session) (f : Formula) (s : Nat) :
    Unrolling.FailsOn (Unrolling.require f s) session.unrolling
      (f.Malformed ∨ ¬ ∃ k, session.unrolling.horizon? = some k ∧ s ≤ k) where
  fails := fun hmisuse =>
    (Unrolling.checked_refused (fun hgrants => Unrolling.grants_iff.1 hgrants hmisuse) _).fails
  works := fun hmisuse => by
    obtain ⟨hvalid, edge, hedge, hs⟩ := Unrolling.grants_iff.2 hmisuse
    obtain ⟨_, hok, -⟩ := h.require_ok hvalid hedge hs
    exact ⟨_, _, hok⟩

theorem failsOn_bind (h : Sane theory session) (f : Formula) (s : Nat) (host : Lit) :
    Unrolling.FailsOn (Unrolling.bind f s host) session.unrolling
      (f.Malformed ∨ host.negated = true ∨ session.unrolling.encoder.Represents f s) where
  fails := fun hmisuse => by
    cases hvalid : validate .always f with
    | error cause => exact Unrolling.Refuses.fails ⟨cause, Unrolling.bind_malformed hvalid⟩
    | ok =>
      obtain ⟨cause, herror⟩ := Unrolling.bind_misused h.tidy hvalid
        (hmisuse.resolve_left (validate_always_eq_ok_iff.1 hvalid))
      exact ⟨cause, _, herror, (session.unrolling.encoder.store.intern_spec f).grown, rfl⟩
  works := fun hmisuse => by
    obtain ⟨hvalid, hpos, hfree⟩ := by simpa only [not_or] using hmisuse
    obtain ⟨-, _, hok, -⟩ := h.bind_ok (validate_always_eq_ok_iff.2 hvalid)
      (Bool.eq_false_iff.2 hpos) hfree
    exact ⟨_, _, hok⟩

/-- Closing never finds an external that is still open. -/
theorem close_ne_openExternals (h : Sane theory session) (s count last : Nat)
    (later : Unrolling) : Unrolling.close s session.unrolling ≠
      .error (.violation (.openExternals count last)) later := by
  intro herror
  by_cases hedge : session.unrolling.edge = some ⟨s, false⟩
  · obtain ⟨_, _, _, hok, -⟩ := h.close_ok hedge
    rw [hok] at herror
    cases herror
  · rw [Unrolling.close_refused hedge] at herror
    unfold Unrolling.closeRefusal at herror
    split at herror <;> cases herror

/-- **A request fails exactly if it is misused.** -/
theorem failsOn (h : Sane theory session) : (request : Request) →
    Unrolling.FailsOn request.run session.unrolling (request.Misuses session.unrolling)
  | .extend => h.failsOn_extend.discard
  | .close s => (h.failsOn_close s).discard
  | .encode f s => (h.failsOn_encode f s).discard
  | .require f s => (h.failsOn_require f s).discard
  | .bind f s host => (h.failsOn_bind f s host).discard
  | .newLiteral => ⟨False.elim, fun _ => ⟨_, _, rfl⟩⟩

end Sane

/-- Some session stands behind an unrolling after any requests. -/
theorem exists_sane {recordHistory : Bool} {start : Unrolling}
    (h : Unrolling.start theory recordHistory = .ok start) (requests : List Request) :
    ∃ session, Sane theory session ∧ session.unrolling = start.serve requests := by
  have hrun : ∀ (requests : List Request) (session : Session), Sane theory session →
      ∃ later, Sane theory later ∧ later.unrolling = session.unrolling.serve requests := by
    intro requests
    induction requests with
    | nil => exact fun session h => ⟨session, h, rfl⟩
    | cons request rest ih =>
      intro session h
      obtain ⟨later, hlater, heq⟩ := ih _ (h.perform request)
      rw [perform_unrolling] at heq
      exact ⟨later, hlater, heq⟩
  exact hrun requests _ (Proper.start h).sane

end Session

namespace Unrolling

theorem run_fails_iff {theory : Theory} {recordHistory : Bool} {first : Unrolling}
    (hstart : start theory recordHistory = .ok first) (requests : List Request)
    (request : Request) :
    ((∃ failure later, request.run (first.serve requests) = .error failure later) ↔
      request.Misuses (first.serve requests)) ∧
    (∀ failure later, request.run (first.serve requests) = .error failure later →
      (first.serve requests).Retains later) ∧
    (∀ s count last later, close s (first.serve requests) ≠
      .error (.violation (.openExternals count last)) later) ∧
    (first.serve (requests ++ [request])).encoder.rules = [] := by
  obtain ⟨session, hsane, heq⟩ := Session.exists_sane hstart requests
  obtain ⟨next, hnext, heq'⟩ := Session.exists_sane hstart (requests ++ [request])
  rw [← heq, ← heq']
  exact ⟨(hsane.failsOn request).error_iff, fun _ _ => (hsane.failsOn request).retains,
    hsane.close_ne_openExternals, hnext.taken⟩

end Unrolling
end Exact

/-! ## Requests in range -/

namespace Unrolling

section InRange

variable [Arithmetic] {theory : Theory} {recordHistory : Bool} {first u : Unrolling}
  {requests : List Request} {request : Request}

theorem serve_append (u : Unrolling) (requests : List Request) (request : Request) :
    u.serve (requests ++ [request]) = stateAfter request.run (u.serve requests) :=
  List.foldl_append

theorem serve_nil (u : Unrolling) : u.serve [] = u := rfl

theorem serve_cons (u : Unrolling) (request : Request) (requests : List Request) :
    u.serve (request :: requests) = (stateAfter request.run u).serve requests := rfl

theorem grows_serve (hrequests : ∀ request ∈ requests, request.InRange) :
    u.Grows (u.serve requests) := by
  induction requests generalizing u with
  | nil => exact .refl u
  | cons request rest ih =>
    have hfirst := (request.agrees u (hrequests request List.mem_cons_self)).grows
    rw [serve_cons]
    exact hfirst.trans (ih fun other hother => hrequests other (List.mem_cons_of_mem _ hother))

theorem serve_eq_exact (hrequests : ∀ request ∈ requests, request.InRange)
    (hrange : (u.serve requests).InRange) : u.serve requests = @serve .exact u requests := by
  induction requests generalizing u with
  | nil => rw [serve_nil, @serve_nil .exact]
  | cons request rest ih =>
    have hrest : ∀ other ∈ rest, other.InRange := fun other hother =>
      hrequests other (List.mem_cons_of_mem _ hother)
    have hagrees := request.agrees u (hrequests request List.mem_cons_self)
    rw [serve_cons] at hrange
    have hrun := hagrees.agree (.inl (hrange.of_grows (grows_serve hrest)))
    rw [serve_cons, @serve_cons .exact, ih hrest hrange, stateAfter_congr hrun]

/-- Whether a formula is represented at an exact step. -/
theorem represents_iff_exact {e : Encoder} (he : e.InRange) (f : Formula) {s : Nat}
    (hs : Arithmetic.Fits s) : e.Represents f s ↔ @Encoder.Represents .exact e f s := by
  refine exists_congr fun id => and_congr_right fun hid => ?_
  have hpack : (Key.mk id s).pack = @Key.pack .exact ⟨id, s⟩ :=
    he.pack_eq (Store.idOf?_lt hid) hs
  unfold Cache.entry? Cache.binding?
  rw [hpack]

theorem misuses_iff_exact (hu : u.InRange) (hrequest : request.InRange) :
    request.Misuses u ↔ @Request.Misuses .exact u request := by
  cases request with
  | bind f s host =>
    exact or_congr_right (or_congr_right (represents_iff_exact hu.encoder f hrequest))
  | _ => exact Iff.rfl

/-- **Errors are exactly the misuses of an unrolling, and they change nothing.**  After
any requests, granted or refused, a request fails if and only if it breaks the
contract on its input.  A failed request keeps everything but the numbering of
formulas; closing never finds an external left open; and no request leaves rules
behind.  The unrolling must be in range after the request in question. -/
theorem run_fails_iff_misuses (hstart : start theory recordHistory = .ok first)
    (hrequests : ∀ other ∈ requests ++ [request], other.InRange)
    (hrange : (first.serve (requests ++ [request])).InRange) :
    ((∃ failure later, request.run (first.serve requests) = .error failure later) ↔
      request.Misuses (first.serve requests)) ∧
    (∀ failure later, request.run (first.serve requests) = .error failure later →
      (first.serve requests).Retains later) ∧
    (∀ s, (stateAfter (close s) (first.serve requests)).InRange →
      ∀ count last later, close s (first.serve requests) ≠
        .error (.violation (.openExternals count last)) later) ∧
    (first.serve (requests ++ [request])).encoder.rules = [] := by
  have hrequest : request.InRange := hrequests request (List.mem_append_right _ (.head _))
  have hbefore : ∀ other ∈ requests, other.InRange := fun other hother =>
    hrequests other (List.mem_append_left _ hother)
  have hlater := hrange
  rw [serve_append] at hlater
  have hagrees := request.agrees (first.serve requests) hrequest
  have hnow := hlater.of_grows hagrees.grows
  rw [serve_eq_exact hrequests hrange, hagrees.agree (.inl hlater), misuses_iff_exact hnow hrequest,
    serve_eq_exact hbefore hnow]
  obtain ⟨hfails, hretains, hclose, hrules⟩ := run_fails_iff hstart requests request
  refine ⟨hfails, hretains, fun s hs => ?_, hrules⟩
  rw [(agrees_close _ s).agree (.inl hs)]
  exact hclose s

end InRange

/-- A second binding of a formula that has taken its first host literal. -/
theorem run_fails_iff_misuses_bind :
    let f := Formula.next (.atom "p" [] true) false
    let first : Unrolling := { theory := {} }
    let requests : List Request := [.extend, .bind f 0 ⟨7, false⟩, .encode f 0]
    let request : Request := .bind f 0 ⟨8, false⟩
    let u := first.serve requests
    start {} true = .ok first ∧ (∀ other ∈ requests ++ [request], other.InRange) ∧
      (first.serve (requests ++ [request])).InRange ∧
      u.encoder.edge.externals = [⟨⟨7, false⟩, .free⟩] ∧ request.Misuses u ∧
      ∃ failure later, request.run u = .error failure later ∧ u.Retains later := by
  intro f first requests request u
  have hstart : start {} true = .ok first := rfl
  have hrequests : ∀ other ∈ requests ++ [request], other.InRange := by decide
  have hrange : (first.serve (requests ++ [request])).InRange := by decide +kernel
  have hexternals : u.encoder.edge.externals = [⟨⟨7, false⟩, .free⟩] := by decide +kernel
  have hmisuse : request.Misuses u :=
    .inr (.inr ⟨⟨1⟩, by decide +kernel, .inl (by decide +kernel)⟩)
  obtain ⟨hfails, hretains, -⟩ := run_fails_iff_misuses hstart hrequests hrange
  obtain ⟨failure, later, herror⟩ := hfails.2 hmisuse
  exact ⟨hstart, hrequests, hrange, hexternals, hmisuse, failure, later, herror,
    hretains failure later herror⟩

end Unrolling
end TemporalHorizon

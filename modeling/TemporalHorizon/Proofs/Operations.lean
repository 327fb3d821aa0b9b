import TemporalHorizon.Proofs.Roles

/-!
# What the operations of an unrolling return

An operation of an unrolling checks its input, asks the encoder, and takes the
rules away that the encoder has emitted.  This module says so once for each of
them: an operation is refused and changes nothing, or its outcome is read off the
outcome of the encoder.  Only binding is refused by the encoder itself, which then
has numbered a formula and done nothing else.
-/

namespace TemporalHorizon

attribute [local instance] Arithmetic.exact

section Runs

variable {ε σ α β : Type} {x : EStateM ε σ α} {next : α → EStateM ε σ β} {u u' : σ}

theorem bind_ok {a : α} (h : x u = .ok a u') : (x >>= next) u = next a u' := by
  show EStateM.bind x next u = _
  unfold EStateM.bind
  rw [h]

theorem bind_error {failure : ε} (h : x u = .error failure u') :
    (x >>= next) u = .error failure u' := by
  show EStateM.bind x next u = _
  unfold EStateM.bind
  rw [h]

/-- Both parts of a computation that succeeds have succeeded. -/
theorem exists_of_bind_ok {b : β} (h : (x >>= next) u = .ok b u') :
    ∃ a middle, x u = .ok a middle ∧ next a middle = .ok b u' := by
  cases hx : x u with
  | ok a middle => exact ⟨a, middle, rfl, (bind_ok hx).symm.trans h⟩
  | error failure middle =>
    rw [bind_error hx] at h
    cases h

/-- The state that a computation leaves behind, also if it fails. -/
def stateAfter (x : EStateM ε σ α) (u : σ) : σ :=
  match x u with
  | .ok _ later => later
  | .error _ later => later

theorem stateAfter_ok {a : α} (h : x u = .ok a u') : stateAfter x u = u' := by
  unfold stateAfter
  rw [h]

theorem stateAfter_error {failure : ε} (h : x u = .error failure u') : stateAfter x u = u' := by
  unfold stateAfter
  rw [h]

theorem stateAfter_congr {y : EStateM ε σ α} (h : x u = y u') :
    stateAfter x u = stateAfter y u' := by
  unfold stateAfter
  rw [h]

theorem stateAfter_bind_ok {a : α} (h : x u = .ok a u') :
    stateAfter (x >>= next) u = stateAfter (next a) u' :=
  stateAfter_congr (bind_ok h)

end Runs

namespace Unrolling

variable {α β : Type}

theorem withEncoder_ok {action : Encode α} {u : Unrolling} {a : α} {after : Encoder}
    (h : action u.encoder = .ok a after) :
    withEncoder action u = .ok a { u with encoder := after } := by
  unfold withEncoder
  rw [h]

theorem withEncoder_error {action : Encode α} {u : Unrolling} {failure : Failure} {after : Encoder}
    (h : action u.encoder = .error failure after) :
    withEncoder action u = .error failure { u with encoder := after } := by
  unfold withEncoder
  rw [h]

/-- A request is refused and changes nothing. -/
def Refuses (x : Unroll α) (u : Unrolling) : Prop := ∃ cause, x u = .error (.violation cause) u

/-! ## Extending and closing -/

/-- The step that an extension reaches. -/
def nextStep (u : Unrolling) : Nat :=
  match u.horizon? with
  | some horizon => horizon + 1
  | none => 0

/-- An extension returns the rules that the encoder holds after it. -/
theorem extend_ok {u : Unrolling} {released : List Lit} {after : Encoder}
    (hopen : u.isClosed = false)
    (h : reachStep u.theory u.nextStep u.encoder = .ok released after) :
    ∃ history, extend u = .ok ⟨u.nextStep, after.rules, after.edge.externals, released⟩
      { u with encoder := { after with rules := [] }, edge := some ⟨u.nextStep, false⟩,
               history := history } := by
  obtain ⟨theory, recordHistory, encoder, edge, history⟩ := u
  have hreach := withEncoder_ok h
  rcases edge with _ | ⟨i, _ | _⟩
  · refine ⟨if recordHistory then
      history ++ [⟨0, after.rules, after.edge.externals, released⟩] else history, ?_⟩
    refine (bind_ok hreach).trans ?_
    cases recordHistory <;> rfl
  · refine ⟨if recordHistory then
      history ++ [⟨i + 1, after.rules, after.edge.externals, released⟩] else history, ?_⟩
    refine (bind_ok hreach).trans ?_
    cases recordHistory <;> rfl
  · cases hopen

theorem extend_refused [Arithmetic] {u : Unrolling} (hclosed : u.isClosed = true) :
    Refuses extend u := by
  obtain ⟨theory, recordHistory, encoder, edge, history⟩ := u
  rcases edge with _ | ⟨i, _ | _⟩
  · cases hclosed
  · cases hclosed
  · exact ⟨_, rfl⟩

/-- Closing the edge returns the rules that the encoder holds after it. -/
theorem close_ok {u : Unrolling} {k : Nat} {fixed : List External} {after : Encoder}
    (hedge : u.edge = some ⟨k, false⟩) (h : closeStep u.theory k u.encoder = .ok fixed after)
    (hsettled : after.edge = {}) :
    ∃ history, close k u = .ok ⟨k, after.rules, [], fixed.map External.lit⟩
      { u with encoder := { after with rules := [] }, edge := some ⟨k, true⟩,
               history := history } := by
  obtain ⟨theory, recordHistory, encoder, edge, history⟩ := u
  obtain ⟨store, cache, supply, ground, edge', carriers, required, rules⟩ := after
  cases hedge
  cases hsettled
  have hcheck : ensure (checkEdge (some ⟨k, false⟩) k)
      ⟨theory, recordHistory, encoder, some ⟨k, false⟩, history⟩ =
        .ok () ⟨theory, recordHistory, encoder, some ⟨k, false⟩, history⟩ := by
    unfold checkEdge
    rw [if_pos rfl]
    rfl
  have hclose := withEncoder_ok h
  refine ⟨if recordHistory then
    history ++ [⟨k, rules, [], fixed.map External.lit⟩] else history, ?_⟩
  refine (bind_ok hcheck).trans ((bind_ok hclose).trans ?_)
  cases recordHistory <;> rfl

/-- Why another step than the open edge is not closed. -/
def closeRefusal (u : Unrolling) (k : Nat) : Violation :=
  match u.edge with
  | some ⟨last, true⟩ => .horizonClosed last
  | edge => .notAtEdge k (edge.map Instant.index)

theorem close_refused [Arithmetic] {u : Unrolling} {k : Nat} (hedge : u.edge ≠ some ⟨k, false⟩) :
    close k u = .error (.violation (u.closeRefusal k)) u := by
  obtain ⟨theory, recordHistory, encoder, edge, history⟩ := u
  have hcheck : ∀ u : Unrolling, ensure (checkEdge edge k) u =
      .error (.violation (.notAtEdge k (edge.map Instant.index))) u := by
    intro u
    unfold checkEdge
    rw [if_neg hedge]
    rfl
  refine (bind_ok rfl).trans ?_
  rcases edge with _ | ⟨i, _ | _⟩
  · exact bind_error (hcheck _)
  · exact bind_error (hcheck _)
  · rfl

/-! ## Encoding and requiring -/

/-- The checks that a request for a formula at a step has to pass. -/
def checked (f : Formula) (s : Nat) (next : Window → Unroll α) : Unroll α := do
  ensure (validate .always f)
  let window ← window
  ensure (window.check s)
  next window

/-- The formula is acceptable and the step has been reached. -/
def Grants (u : Unrolling) (f : Formula) (s : Nat) : Prop :=
  validate .always f = .ok () ∧ ∃ edge, u.edge = some edge ∧ s ≤ edge.index

/-- A request that is not granted is refused before the encoder is asked, for one reason
whatever would have been asked. -/
theorem exists_refusal {u : Unrolling} {f : Formula} {s : Nat} (h : ¬ u.Grants f s) :
    ∃ cause, ∀ next : Window → Unroll α, checked f s next u = .error (.violation cause) u := by
  obtain ⟨theory, recordHistory, encoder, edge, history⟩ := u
  unfold checked
  cases hvalid : validate .always f with
  | error cause => exact ⟨cause, fun next => bind_error rfl⟩
  | ok =>
    cases edge with
    | none => exact ⟨.outOfWindow 0 none, fun next => (bind_ok rfl).trans (bind_error rfl)⟩
    | some edge =>
      have hs : edge.index < s := Nat.lt_of_not_le fun hs => h ⟨hvalid, edge, rfl, hs⟩
      have hcheck : (Window.mk edge.index edge.last .always).check s =
          .error (.outOfWindow s (some edge.index)) := if_pos hs
      refine ⟨.outOfWindow s (some edge.index), fun next => ?_⟩
      refine (bind_ok rfl).trans ((bind_ok rfl).trans ?_)
      rw [hcheck]
      exact bind_error rfl

theorem checked_refused {u : Unrolling} {f : Formula} {s : Nat} (h : ¬ u.Grants f s)
    (next : Window → Unroll α) : Refuses (checked f s next) u := by
  obtain ⟨cause, hrefused⟩ := exists_refusal h
  exact ⟨cause, hrefused next⟩

/-- A request that is granted goes to the encoder. -/
theorem checked_granted {u : Unrolling} {f : Formula} {s : Nat} {edge : Instant}
    (hvalid : validate .always f = .ok ()) (hedge : u.edge = some edge) (hs : s ≤ edge.index)
    (next : Window → Unroll α) :
    checked f s next u = next ⟨edge.index, edge.last, .always⟩ u := by
  obtain ⟨theory, recordHistory, encoder, edge', history⟩ := u
  cases hedge
  have hcheck : (Window.mk edge.index edge.last .always).check s = .ok () :=
    if_neg (Nat.not_lt.2 hs)
  unfold checked
  rw [hvalid]
  refine (bind_ok rfl).trans ((bind_ok rfl).trans ?_)
  rw [hcheck]
  rfl

/-- Asking the encoder and taking its rules away. -/
theorem withEncoder_takeRules {action : Encode α} {u : Unrolling} {a : α} {after : Encoder}
    (h : action u.encoder = .ok a after) (g : α → List Rule → β) :
    (do
      let a ← withEncoder action
      return g a (← withEncoder Encoder.takeRules) : Unroll β) u =
      .ok (g a after.rules) { u with encoder := { after with rules := [] } } :=
  (bind_ok (withEncoder_ok h)).trans rfl

end Unrolling

/-! ## No operation unfolds too deep -/

theorem Shallow.reachStep (theory : Theory) (k : Nat) : Shallow (Unrolling.reachStep theory k) := by
  have hrequire : ∀ stage f guard, Shallow (Encoder.require ⟨k, false, stage⟩ f k guard) :=
    fun _ f => .require (Window.inRange _) f k
  refine .bind (.resolveBoundaries (Window.inRange _) _) fun released =>
    .bind (.runDeferred (Window.inRange _) _) fun _ =>
    .bind (.advanceInstances (Window.inRange _) _) fun _ =>
    .bind (.forM fun _ _ => hrequire _ _ _) fun _ => ?_
  split
  · exact .pure _
  · exact .bind (.bind (.encode (Window.inRange _) _ _) fun _ => .forM fun _ _ => hrequire _ _ _)
      fun _ => .pure _

theorem Shallow.closeStep (theory : Theory) (k : Nat) : Shallow (Unrolling.closeStep theory k) :=
  .bind (.forM fun _ _ => .require (Window.inRange _) _ _ _) fun _ => .bind .get fun _ =>
    .bind (.emitAll _) fun _ => .bind (.modify _) fun _ => .pure _

namespace Ledger

/-- The ledger with a binding. -/
def bind (ledger : Ledger) (f : Formula) (s : Nat) (host : Lit) : Ledger :=
  { ledger with binding := ledger.binding.put f s (some host) }

/-- What binding a host literal does to a ledger.  An atom is entered if it is not
yet in use, and tied to its host at once. -/
inductive Binds (ledger : Ledger) (f : Formula) (s : Nat) (host : Lit) : Ledger → Prop
  | composite : f.isAtom = false → Binds ledger f s host (ledger.bind f s host)
  | found {a} : f.isAtom = true → ledger.ground f s = some a →
    Binds ledger f s host ((ledger.bind f s host).share f s a)
  | entered : f.isAtom = true → ledger.ground f s = none →
    Binds ledger f s host
      (((ledger.bind f s host).enter f s).share f s ⟨ledger.next, false⟩)

end Ledger

namespace Encoder

/-! ## Binding -/

variable {given : List Rule}

/-- Writing a binding into the cache. -/
theorem follows_bind (given : List Rule) {encoder : Encoder} (h : encoder.Tidy) {key : Key}
    {f : Formula} {s : Nat} (hn : encoder.Names key f s) (host : Lit) :
    Follows given encoder
      { encoder with cache :=
        { encoder.cache with bindings := encoder.cache.bindings.insert key.pack host } }
      ((encoder.ledger given).bind f s host) := by
  obtain ⟨rfl, hid⟩ := hn
  have hbinding : ∀ other, Cache.binding?
      { encoder.cache with bindings := encoder.cache.bindings.insert key.pack host } other =
        if key = other then some host else encoder.cache.binding? other := by
    intro other
    rw [Cache.binding?, Table.get?_insert]
    simp only [Key.pack_eq_iff, Cache.binding?]
  refine ⟨⟨h.store, h.entry, fun k l hk => ?_, h.ground, h.required⟩, .refl _, ?_⟩
  · rw [hbinding] at hk
    split at hk
    · next heq => exact heq ▸ Store.idOf?_lt hid
    · exact h.binding k l hk
  · show Ledger.mk _ _ _ _ _ _ _ _ = _
    rw [Sheet.ofTable_put hid hbinding]
    rfl

/-- After the checks a binding succeeds. -/
theorem bindRest_does {encoder : Encoder} (h : encoder.Tidy) {key : Key} {f : Formula} {s : Nat}
    (hn : encoder.Names key f s) (host : Lit)
    (hentry : (encoder.ledger given).entry f s = none) :
    Does (if f.isAtom then (do
        let lit ← groundAtom f s
        let _ ← share key lit) else pure ())
      { encoder with cache :=
        { encoder.cache with bindings := encoder.cache.bindings.insert key.pack host } }
      fun _ after => ∃ ledger, Follows given encoder after ledger ∧
        (encoder.ledger given).Binds f s host ledger := by
  have hb := follows_bind given h hn host
  cases hatom : f.isAtom with
  | false =>
    rw [if_neg (by simp)]
    exact Does.pure ⟨_, hb, .composite hatom⟩
  | true =>
    rw [if_pos rfl]
    refine (groundAtom_does given hb.tidy f s).bind ?_
    rintro lit middle (⟨hlit, hm⟩ | ⟨hnone, rfl, hm⟩)
    · rw [hb.ledger_eq] at hlit hm
      have hnone' : (middle.ledger given).entry f s = none := by
        rw [hm.ledger_eq]
        exact hentry
      refine (share_does given hm.tidy ((hn.mono hb.grown).mono hm.grown) hnone' lit).bind ?_
      rintro _ after ⟨-, ha⟩
      rw [hm.ledger_eq] at ha
      exact Does.pure ⟨_, (hb.trans hm).trans ha, .found hatom hlit⟩
    · rw [hb.ledger_eq] at hnone hm
      have hnone' : (middle.ledger given).entry f s = none := by
        rw [hm.ledger_eq]
        exact hentry
      refine (share_does given hm.tidy ((hn.mono hb.grown).mono hm.grown) hnone' _).bind ?_
      rintro _ after ⟨-, ha⟩
      rw [hm.ledger_eq, hb.ledger_eq] at ha
      exact Does.pure ⟨_, (hb.trans hm).trans ha, .entered hatom hnone⟩

/-- A formula has a literal or a host literal at a step. -/
def Represents [Arithmetic] (encoder : Encoder) (f : Formula) (s : Nat) : Prop :=
  ∃ id, encoder.store.idOf? f = some id ∧
    ((encoder.cache.entry? ⟨id, s⟩).isSome = true ∨ (encoder.cache.binding? ⟨id, s⟩).isSome = true)

theorem get_ok (encoder : Encoder) : (get : Encode Encoder) encoder = .ok encoder encoder := rfl

/-- The encoder that has numbered a formula and done nothing else. -/
def numbered (encoder : Encoder) (f : Formula) : Encoder :=
  { encoder with store := (encoder.store.intern f).2 }

theorem keyOf_ok (encoder : Encoder) (f : Formula) (s : Nat) :
    keyOf f s encoder = .ok ⟨(encoder.store.intern f).1, s⟩ (encoder.numbered f) := rfl

theorem numbered_follows (given : List Rule) {encoder : Encoder} (h : encoder.Tidy) (f : Formula) :
    Follows given encoder (encoder.numbered f) (encoder.ledger given) :=
  (register_does given h f).2

/-- Under the number that a binding gives to the formula there is a literal only if
there was one before. -/
theorem represents_iff {encoder : Encoder} (h : encoder.Tidy) (f : Formula) (s : Nat) :
    encoder.Represents f s ↔
      ((encoder.cache.entry? ⟨(encoder.store.intern f).1, s⟩).isSome ||
        (encoder.cache.binding? ⟨(encoder.store.intern f).1, s⟩).isSome) = true := by
  have hspec := encoder.store.intern_spec f
  rw [Bool.or_eq_true]
  constructor
  · rintro ⟨id, hid, hsome⟩
    have hsame := Store.idOf?_mono hspec.grown f hid
    rw [hspec.number] at hsame
    cases hsame
    exact hsome
  · intro hsome
    have hlt : (encoder.store.intern f).1.index < encoder.store.size := by
      rcases hsome with hsome | hsome
      · obtain ⟨lit, hlit⟩ := Option.isSome_iff_exists.1 hsome
        exact h.entry _ _ hlit
      · obtain ⟨lit, hlit⟩ := Option.isSome_iff_exists.1 hsome
        exact h.binding _ _ hlit
    exact ⟨_, Store.idOf?_of_lt h.store hspec.grown f hspec.number hlt, hsome⟩

/-- A binding is refused for a negated host literal, and for a formula that has a
literal or a host literal at the step.  It only numbers the formula then. -/
theorem bind_refused {encoder : Encoder} (h : encoder.Tidy) {f : Formula} {s : Nat} {host : Lit}
    (hmisused : host.negated = true ∨ encoder.Represents f s) :
    ∃ cause, bind f s host encoder = .error (.violation cause) (encoder.numbered f) := by
  have hkey : keyOf f s encoder = .ok ⟨(encoder.store.intern f).1, s⟩ (encoder.numbered f) := rfl
  unfold bind
  rw [bind_ok hkey]
  by_cases hneg : host.negated = true
  · have hcheck : checkHost host (encoder.numbered f) =
        .error (.violation (.negativeHost host)) (encoder.numbered f) := by
      unfold checkHost
      rw [if_pos hneg]
      rfl
    exact ⟨_, bind_error hcheck⟩
  · have hcheck : checkHost host (encoder.numbered f) = .ok () (encoder.numbered f) := by
      unfold checkHost
      rw [if_neg hneg]
      rfl
    have htaken := (represents_iff h f s).1 (hmisused.resolve_left hneg)
    have hbind : (encoder.numbered f).cache.bind? ⟨(encoder.store.intern f).1, s⟩ host = none :=
      if_pos htaken
    refine ⟨.lateBinding f s, ?_⟩
    rw [bind_ok hcheck, bind_ok (get_ok _), hbind]
    rfl

/-- Any other binding succeeds. -/
theorem bind_granted {encoder : Encoder} (h : encoder.Tidy) {f : Formula} {s : Nat} {host : Lit}
    (hpos : host.negated = false) (hfree : ¬ encoder.Represents f s) :
    (encoder.ledger given).entry f s = none ∧
      ∃ after ledger, bind f s host encoder = .ok () after ∧
        Follows given encoder after ledger ∧ (encoder.ledger given).Binds f s host ledger := by
  have hkey : keyOf f s encoder = .ok ⟨(encoder.store.intern f).1, s⟩ (encoder.numbered f) := rfl
  have hn : (encoder.numbered f).Names ⟨(encoder.store.intern f).1, s⟩ f s :=
    ⟨rfl, (encoder.store.intern_spec f).number⟩
  have hnow := numbered_follows given h f
  rw [represents_iff h] at hfree
  have hbind : (encoder.numbered f).cache.bind? ⟨(encoder.store.intern f).1, s⟩ host =
      some { (encoder.numbered f).cache with
        bindings := (encoder.numbered f).cache.bindings.insert
          (Key.pack ⟨(encoder.store.intern f).1, s⟩) host } := if_neg hfree
  have hentry : ((encoder.numbered f).ledger given).entry f s = none := by
    simp only [Bool.not_eq_true, Bool.or_eq_false_iff, Option.isSome_eq_false_iff,
      Option.isNone_iff_eq_none] at hfree
    exact (Sheet.ofTable_eq hn.number).trans hfree.1
  have hcheck : checkHost host (encoder.numbered f) = .ok () (encoder.numbered f) := by
    unfold checkHost
    rw [if_neg (by rw [hpos]; exact Bool.false_ne_true)]
    rfl
  have hshallow : Shallow (if f.isAtom then (do
      let lit ← groundAtom f s
      let _ ← share ⟨(encoder.store.intern f).1, s⟩ lit) else pure ()) := by
    split
    · exact .bind (.groundAtom f s) fun _ => .bind (.share _ _) fun _ => .pure _
    · exact .pure _
  obtain ⟨_, after, hok, ledger, hafter, hbinds⟩ :=
    Does.exists_ok hshallow (bindRest_does hnow.tidy hn host hentry)
  have hrun : bind f s host encoder = .ok () after := by
    unfold bind
    rw [bind_ok hkey, bind_ok hcheck, bind_ok (get_ok _), hbind]
    exact hok
  rw [hnow.ledger_eq] at hentry hbinds
  exact ⟨hentry, after, ledger, hrun, hnow.trans hafter, hbinds⟩

end Encoder

namespace Unrolling

variable {u : Unrolling} {f : Formula} {s : Nat} {host : Lit}

theorem bind_malformed [Arithmetic] {cause : Violation} (h : validate .always f = .error cause) :
    bind f s host u = .error (.violation cause) u := by
  unfold bind
  rw [h]
  rfl

theorem bind_checked [Arithmetic] (h : validate .always f = .ok ()) :
    bind f s host u = (do
      withEncoder (Encoder.bind f s host)
      withEncoder Encoder.takeRules : Unroll (List Rule)) u := by
  unfold bind
  rw [h]
  rfl

/-- A binding that the encoder refuses has numbered the formula. -/
theorem bind_misused (htidy : u.encoder.Tidy) (hvalid : validate .always f = .ok ())
    (hmisused : host.negated = true ∨ u.encoder.Represents f s) :
    ∃ cause, bind f s host u =
      .error (.violation cause) { u with encoder := u.encoder.numbered f } := by
  obtain ⟨cause, herror⟩ := Encoder.bind_refused htidy hmisused
  exact ⟨cause, (bind_checked hvalid).trans (bind_error (withEncoder_error herror))⟩

end Unrolling
end TemporalHorizon

import TemporalHorizon.Proofs.Permanence

/-!
# What an encoder can do

An operation of the encoder is a long computation that may stop anywhere.  Seen from
outside it is a sequence of a few kinds of acts, each of which is completed once it has
begun: no failure comes between an atom being handed out and its being filed under what
it was handed out for.  Invariants of the encoder that hold after failed operations too
are therefore checked act by act.

* `Formula.isDefinedAt`: the formulas that get an atom of their own at a step.
* `Encoder.Act`: the acts.  Beside the encoder they keep the list of boundaries that have
  been taken off the edge and whose rule is still to come.
* `Acting`: a computation is a sequence of acts, whether it succeeds or fails, if nothing
  is bound.  The lemmas of this namespace follow the definitions of the encoder one by one.
-/

namespace TemporalHorizon

attribute [local instance] Arithmetic.exact

/-- Whether a formula gets an atom of its own at a step, with constraints that define it:
a connective does, and a fixpoint where there is an adjacent step.  All other composite
formulas share a literal, or get an external. -/
def Formula.isDefinedAt (f : Formula) (step : Nat) : Bool :=
  match f with
  | .binary _ _ _ => true
  | .temporal op _ _ | .modal op _ => op.isFuture || step != 0
  | _ => false

/-- The body of the rule does not mention the reserved atom. -/
def Rule.Reduced (rule : Rule) : Prop := ∀ l ∈ rule.body, l.atom ≠ 1

/-- An emitted rule has the head it was given and a reduced body. -/
theorem Encoder.reduced_of_simplify? {raw rule : Rule} (h : simplify? raw = some rule) :
    rule.head = raw.head ∧ rule.Reduced := by
  unfold simplify? at h
  split at h
  · cases h
  · next hfalse =>
    cases h
    refine ⟨rfl, ?_⟩
    rintro ⟨a, negated⟩ hl rfl
    obtain ⟨hmem, htruth⟩ := List.mem_filter.1 hl
    cases negated with
    | false => exact hfalse hmem
    | true => exact of_decide_eq_true htruth rfl

namespace Encoder

/-! ## Acts -/

/-- One act of an encoder.  The boundaries beside it are those that have been taken off
the edge and may still be tied. -/
inductive Act : List Boundary × Encoder → List Boundary × Encoder → Prop
  /-- Formulas and paths are numbered. -/
  | number {due e store} : e.store.Extends store → Act (due, e) (due, { e with store := store })
  /-- A lookup is counted. -/
  | count {due e} (hits misses : Nat) :
    Act (due, e) (due, { e with cache := { e.cache with hits := hits, misses := misses } })
  /-- Requirements are listed, and what waits for later steps is rearranged; the open
  boundaries stay. -/
  | arrange {due e} (edge : Edge) (required : List (Key × List Lit)) :
    edge.boundaries = e.edge.boundaries →
    Act (due, e) (due, { e with edge := edge, required := required })
  /-- A ground atom is entered. -/
  | enter {due e key} : e.ground.get? key = none →
    Act (due, e) (due, { e with
      supply := e.supply.fresh.2
      ground :=
        { literals := e.ground.literals.insert key e.supply.fresh.1
          owners := e.ground.owners.insert e.supply.next key } })
  /-- An atom is defined. -/
  | choose {due e key f} : e.Names key f key.step → f.isDefinedAt key.step = true →
    e.cache.entry? key = none →
    Act (due, e) (due, { e with
      cache := e.cache.write key e.supply.fresh.1
      supply := e.supply.fresh.2
      rules := e.rules ++ [.choice e.supply.next] })
  /-- A literal is shared. -/
  | share {due e key f} (lit : Lit) : e.Names key f key.step → f.isDefinedAt key.step = false →
    e.cache.entry? key = none →
    Act (due, e) (due, { e with cache := e.cache.write key lit })
  /-- An external is opened. -/
  | await {due e key arg weak} : e.Names key (.next arg weak) key.step →
    e.cache.entry? key = none →
    Act (due, e) (due, { e with
      cache := e.cache.write key e.supply.fresh.1
      supply := e.supply.fresh.2
      edge := e.edge.openBoundary ⟨e.supply.fresh.1, arg, key.step + 1, weak⟩ })
  /-- An instance leaves a carrier with its rules. -/
  | carry {due e} (f : Formula) (origin step : Nat) (rules : List Rule) : rules.length ≤ 2 →
    (∀ rule ∈ rules, rule.head = [e.supply.next] ∧ rule.Reduced) →
    Act (due, e) (due, { e with
      supply := e.supply.fresh.2
      rules := e.rules ++ rules
      carriers := e.carriers ++ [⟨f, origin, step, e.supply.fresh.1⟩] })
  /-- Ground atoms are derived, or nothing is and a body is excluded. -/
  | derive {due e} (rule : Rule) :
    (∀ a ∈ rule.head, ∃ key l, e.ground.get? key = some l ∧ l.atom = a) → rule.Reduced →
    Act (due, e) (due, { e with rules := e.rules ++ [rule] })
  /-- A boundary that was taken off the edge is tied, by one rule or by none. -/
  | tie {b due e} (rules : List Rule) : rules.length ≤ 1 →
    (∀ rule ∈ rules, rule.head = [b.lit.atom] ∧ rule.Reduced) →
    Act (b :: due, e) (due, { e with rules := e.rules ++ rules })
  /-- Boundaries that were taken off the edge are given up. -/
  | drop {due e} : Act (due, e) ([], e)

/-- Acts one after the other. -/
abbrev Acts : List Boundary × Encoder → List Boundary × Encoder → Prop := Relation.ReflTransGen Act

/-- No host literal is waiting to be used. -/
def Unbound (e : Encoder) : Prop := ∀ key, e.cache.binding? key = none

theorem Unbound.write {e : Encoder} (h : e.Unbound) (key : Key) (lit : Lit) (other : Key) :
    (e.cache.write key lit).binding? other = none := by
  rw [binding?_write]
  split
  · rfl
  · exact h other

theorem Act.unbound {a b : List Boundary × Encoder} (h : Act a b) (hu : a.2.Unbound) :
    b.2.Unbound := by
  cases h with
  | choose _ _ _ | share _ _ _ _ | await _ _ => exact hu.write _ _
  | _ => exact hu

theorem Act.store {a b : List Boundary × Encoder} (h : Act a b) :
    a.2.store.Extends b.2.store := by
  cases h with
  | number h => exact h
  | _ => exact .refl _

namespace Acts

variable {a b : List Boundary × Encoder}

theorem unbound (h : Acts a b) (hu : a.2.Unbound) : b.2.Unbound := by
  induction h with
  | refl => exact hu
  | tail _ hact ih => exact hact.unbound ih

theorem store (h : Acts a b) : a.2.store.Extends b.2.store := by
  induction h with
  | refl => exact .refl _
  | tail _ hact ih => exact ih.trans hact.store

end Acts
end Encoder

/-! ## Computations that act -/

section Acting

variable {α β : Type}

open Encoder (Act Acts Unbound)

/-- Started in an encoder without bindings, the computation is a sequence of acts, whether
it succeeds or fails. -/
def ActingAt (x : Encode α) (e : Encoder) : Prop :=
  e.Unbound → ∀ due, Acts (due, e) (due, stateAfter x e)

/-- The computation is a sequence of acts wherever it is started. -/
def Acting (x : Encode α) : Prop := ∀ e, ActingAt x e

/-- What is returned does not matter for the state. -/
theorem stateAfter_bind_pure (x : Encode α) (g : α → β) (e : Encoder) :
    stateAfter (x >>= fun a => pure (g a)) e = stateAfter x e := by
  cases h : x e with
  | ok a after => rw [stateAfter_bind_ok h, stateAfter_ok h]; rfl
  | error failure after => rw [stateAfter_error (bind_error h), stateAfter_error h]

namespace ActingAt

variable {e : Encoder}

theorem idle {x : Encode α} (h : stateAfter x e = e) : ActingAt x e := by
  intro _ due
  rw [h]

/-- A computation that comes to one act. -/
theorem act {x : Encode α} {after : Encoder} (h : stateAfter x e = after)
    (hact : ∀ due, Act (due, e) (due, after)) : ActingAt x e := by
  intro _ due
  rw [h]
  exact .single (hact due)

/-- A computation that begins with one act. -/
theorem act_then {x : Encode α} {rest : Encode β} {after : Encoder}
    (h : stateAfter x e = stateAfter rest after) (hact : ∀ due, Act (due, e) (due, after))
    (hrest : ActingAt rest after) : ActingAt x e := by
  intro hu due
  rw [h]
  exact .head (hact due) (hrest ((hact due).unbound hu) due)

/-- What follows may use the outcome of what came first. -/
theorem bind {x : Encode α} {next : α → Encode β} (hx : ActingAt x e)
    (hn : ∀ a after, x e = .ok a after → e.store.Extends after.store → ActingAt (next a) after) :
    ActingAt (x >>= next) e := by
  intro hu due
  have hfirst := hx hu due
  cases h : x e with
  | ok a after =>
    rw [stateAfter_ok h] at hfirst
    rw [stateAfter_bind_ok h]
    exact hfirst.trans (hn a after h hfirst.store (hfirst.unbound hu) due)
  | error failure after =>
    rw [stateAfter_error h] at hfirst
    rw [stateAfter_error (bind_error h)]
    exact hfirst

end ActingAt

namespace Acting

theorem pure (a : α) : Acting (pure a : Encode α) := fun _ => .idle rfl

theorem bind {x : Encode α} {next : α → Encode β} (hx : Acting x) (hn : ∀ a, Acting (next a)) :
    Acting (x >>= next) := fun e => (hx e).bind fun a after _ _ => hn a after

theorem map {x : Encode α} (g : α → β) (hx : Acting x) : Acting (g <$> x) :=
  bind hx fun _ => pure _

theorem get_bind {next : Encoder → Encode α} (h : ∀ e, ActingAt (next e) e) :
    Acting (get >>= next) := h

theorem get : Acting (get : Encode Encoder) := fun _ => .idle rfl

theorem refuse (cause : Violation) : Acting (Encoder.refuse cause : Encode α) := fun _ => .idle rfl

theorem collapse (cause : Fault) : Acting (Encoder.collapse cause : Encode α) := fun _ => .idle rfl

theorem modify {g : Encoder → Encoder} (h : ∀ due e, Act (due, e) (due, g e)) :
    Acting (modify g : Encode PUnit) := fun e => .act rfl fun due => h due e

theorem forM {xs : List α} {action : α → Encode PUnit} (h : ∀ x ∈ xs, Acting (action x)) :
    Acting (xs.forM action) := by
  induction xs with
  | nil => exact pure _
  | cons x xs ih =>
    exact bind (h x List.mem_cons_self) fun _ => ih fun y hy => h y (List.mem_cons_of_mem x hy)

/-! ## Checks, numbers and rules -/

theorem checkStep (window : Window) (step : Nat) : Acting (Encoder.checkStep window step) := by
  unfold Encoder.checkStep
  split
  · exact pure _
  · exact refuse _

theorem checkAhead (window : Window) (f : Formula) : Acting (Encoder.checkAhead window f) := by
  unfold Encoder.checkAhead
  split
  · exact pure _
  · exact refuse _

theorem checkPath (f : Formula) (path : Path) : Acting (Encoder.checkPath f path) := by
  unfold Encoder.checkPath
  split
  · exact pure _
  · exact refuse _

theorem register (f : Formula) : Acting (Encoder.register f) := fun e =>
  .act rfl fun _ => .number (e.store.intern_spec f).grown

theorem keyOf (f : Formula) (step : Nat) : Acting (Encoder.keyOf f step) :=
  bind (register f) fun _ => pure _

end Acting

namespace ActingAt

variable {e : Encoder}

/-- A rule whose head consists of ground atoms. -/
theorem emit {rule : Rule}
    (h : ∀ a ∈ rule.head, ∃ key l, e.ground.get? key = some l ∧ l.atom = a) :
    ActingAt (Encoder.emit rule) e := by
  have hstate := stateAfter_ok (Encoder.emit_ok rule e)
  cases hsimple : Encoder.simplify? rule with
  | none =>
    refine idle (hstate.trans ?_)
    rw [hsimple]
    simp
  | some simple =>
    obtain ⟨hhead, hreduced⟩ := Encoder.reduced_of_simplify? hsimple
    rw [hsimple] at hstate
    exact act hstate fun _ => .derive simple (hhead ▸ h) hreduced

end ActingAt

namespace Acting

/-- A rule that derives nothing. -/
theorem emit {rule : Rule} (h : rule.head = []) : Acting (Encoder.emit rule) := fun _ =>
  .emit fun a ha => by rw [h] at ha; cases ha

theorem emitAll {rules : List Rule} (h : ∀ rule ∈ rules, rule.head = []) :
    Acting (Encoder.emitAll rules) := forM fun rule hr => emit (h rule hr)

/-! ## Ground atoms -/

theorem excludeOpposite (f : Formula) (step : Nat) (lit : Lit) :
    Acting (Encoder.excludeOpposite f step lit) := by
  refine bind get fun e => ?_
  split
  · exact emit rfl
  · exact pure _

/-- An atom is handed out and entered at one go. -/
theorem stateAfter_enter {e : Encoder} {key : Key} (hfree : e.ground.get? key = none)
    (next : Lit → Unit → Encode α) :
    stateAfter (Encoder.fresh >>= fun lit => Encoder.enterGround key lit >>= next lit) e =
      stateAfter (next e.supply.fresh.1 ()) { e with
        supply := e.supply.fresh.2
        ground :=
          { literals := e.ground.literals.insert key e.supply.fresh.1
            owners := e.ground.owners.insert e.supply.next key } } := by
  have hfresh : Encoder.fresh e = .ok e.supply.fresh.1 { e with supply := e.supply.fresh.2 } := rfl
  have hinsert : e.ground.insert key e.supply.fresh.1 = .ok
      { literals := e.ground.literals.insert key e.supply.fresh.1
        owners := e.ground.owners.insert e.supply.next key } := by
    unfold GroundTable.insert
    rw [hfree]
    rfl
  rw [stateAfter_bind_ok hfresh]
  refine stateAfter_bind_ok ?_
  unfold Encoder.enterGround
  rw [bind_ok (Encoder.get_ok _)]
  dsimp only
  rw [hinsert]
  rfl

theorem groundAtom (f : Formula) (step : Nat) : Acting (Encoder.groundAtom f step) := by
  refine bind (keyOf f step) fun key => get_bind fun e => ?_
  cases hfound : e.ground.get? key with
  | some lit => exact pure _ _
  | none =>
    exact .act_then (stateAfter_enter hfound _) (fun _ => .enter hfound)
      (bind (excludeOpposite _ _ _) (fun _ => pure _) _)

/-! ## Representatives -/

theorem lookup (key : Key) : Acting (Encoder.lookup key) := by
  intro e
  have hstate : stateAfter (Encoder.lookup key) e =
      { e with cache := (e.cache.lookup key).2 } := rfl
  unfold Cache.lookup at hstate
  cases hentry : e.cache.entry? key with
  | some lit =>
    rw [hentry] at hstate
    exact .act hstate fun _ => .count _ _
  | none =>
    rw [hentry] at hstate
    exact .act hstate fun _ => .count _ _

end Acting

section Representatives

variable {e : Encoder} {key : Key} {f : Formula}

open Encoder

/-- The encoder after a lookup that has found nothing. -/
def Encoder.missed (e : Encoder) : Encoder :=
  { e with cache := { e.cache with misses := e.cache.misses + 1 } }

/-- The literal of a key that has none is the next atom. -/
theorem Encoder.getOrCreate_new (hu : e.Unbound) (hnone : e.cache.entry? key = none) :
    getOrCreate key e = .ok (e.supply.fresh.1, true) { e.missed with
      cache := e.missed.cache.write key e.supply.fresh.1
      supply := e.supply.fresh.2 } := by
  have hrun : getOrCreate key e = .ok (e.cache.getOrCreate key e.supply).1
    { e with
      cache := (e.cache.getOrCreate key e.supply).2.1
      supply := (e.cache.getOrCreate key e.supply).2.2 } := rfl
  have hbinding : Cache.binding? { e.cache with misses := e.cache.misses + 1 } key = none := hu key
  rw [hrun]
  unfold Cache.getOrCreate Cache.lookup
  rw [hnone]
  dsimp only
  rw [hbinding]
  rfl

theorem Encoder.getOrCreate_old {lit : Lit} (hsome : e.cache.entry? key = some lit) :
    getOrCreate key e = .ok (lit, false)
      { e with cache := { e.cache with hits := e.cache.hits + 1 } } := by
  have hrun : getOrCreate key e = .ok (e.cache.getOrCreate key e.supply).1
    { e with
      cache := (e.cache.getOrCreate key e.supply).2.1
      supply := (e.cache.getOrCreate key e.supply).2.2 } := rfl
  rw [hrun]
  unfold Cache.getOrCreate Cache.lookup
  rw [hsome]

namespace ActingAt

theorem define (hn : e.Names key f key.step) (hdefined : f.isDefinedAt key.step = true) :
    ActingAt (Encoder.define key) e := by
  intro hu due
  cases hentry : e.cache.entry? key with
  | some lit =>
    refine act ?_ (fun _ => .count (e.cache.hits + 1) e.cache.misses) hu due
    exact stateAfter_bind_ok (getOrCreate_old hentry)
  | none =>
    have hact : Act (due, e.missed) (due, { e.missed with
        cache := e.missed.cache.write key e.supply.fresh.1
        supply := e.supply.fresh.2
        rules := e.rules ++ [.choice e.supply.next] }) :=
      .choose ⟨hn.step_eq, hn.number⟩ hdefined hentry
    unfold Encoder.define
    rw [stateAfter_bind_ok (getOrCreate_new hu hentry)]
    exact .head (.count e.cache.hits (e.cache.misses + 1)) (.single hact)

theorem share (hn : e.Names key f key.step) (hdefined : f.isDefinedAt key.step = false)
    (lit : Lit) : ActingAt (Encoder.share key lit) e := by
  intro hu due
  cases hentry : e.cache.entry? key with
  | some old =>
    have hrun : stateAfter (Encoder.share key lit) e = e := by
      unfold Encoder.share
      rw [stateAfter_bind_ok (Encoder.get_ok e), Cache.share, hentry]
      rfl
    exact idle hrun hu due
  | none =>
    have hrun : stateAfter (Encoder.share key lit) e =
        { e with cache := e.cache.write key lit } := by
      unfold Encoder.share
      rw [stateAfter_bind_ok (Encoder.get_ok e), Cache.share, hentry, hu key]
      rfl
    exact act hrun (fun _ => .share lit hn hdefined hentry) hu due

/-- An external is opened at one go. -/
theorem await {arg : Formula} {weak : Bool} (hn : e.Names key (.next arg weak) key.step)
    (hnone : e.cache.entry? key = none) :
    ActingAt (Encoder.getOrCreate key >>= fun answer =>
      Encoder.openBoundary ⟨answer.1, arg, key.step + 1, weak⟩ >>= fun _ => Pure.pure answer.1) e := by
  intro hu due
  have hact : Act (due, e.missed) (due, { e.missed with
      cache := e.missed.cache.write key e.supply.fresh.1
      supply := e.supply.fresh.2
      edge := e.edge.openBoundary ⟨e.supply.fresh.1, arg, key.step + 1, weak⟩ }) :=
    .await ⟨hn.step_eq, hn.number⟩ hnone
  rw [stateAfter_bind_ok (getOrCreate_new hu hnone)]
  exact .head (.count e.cache.hits (e.cache.misses + 1)) (.single hact)

end ActingAt
end Representatives

/-! ## Answers -/

section Answers

variable {rec : Encoder.Encoding} {window : Window} {e : Encoder} {key : Key} {f : Formula}

theorem Acting.encodeAdjacent (h : ∀ window f step, Acting (rec window f step)) (f : Formula)
    (op : Fixpoint) (step : Nat) : Acting (Encoder.encodeAdjacent rec window f op step) := by
  unfold Encoder.encodeAdjacent
  split
  · exact map _ (h _ _ _)
  · split
    · exact map _ (h _ _ _)
    · exact pure _

/-- There is an adjacent step ahead, and behind a reached step other than the first. -/
theorem Encoder.isSome_of_encodeAdjacent {op : Fixpoint} {step : Nat} {adjacent : Option Lit}
    {after : Encoder} (hs : step ≤ window.horizon)
    (hok : encodeAdjacent rec window f op step e = .ok adjacent after) :
    adjacent.isSome = (op.isFuture || step != 0) := by
  have hsome : ∀ {x : Encode Lit}, (some <$> x) e = .ok adjacent after → adjacent.isSome := by
    intro x hx
    obtain ⟨l, middle, -, hl⟩ := exists_of_bind_ok hx
    cases hl
    rfl
  unfold encodeAdjacent at hok
  cases hfuture : op.isFuture with
  | true =>
    rw [hfuture] at hok
    exact hsome hok
  | false =>
    rw [hfuture] at hok
    cases step with
    | zero =>
      rw [window.shift_zero_back] at hok
      cases hok
      rfl
    | succ before =>
      rw [Window.shift_succ_back (Nat.le_of_succ_le hs)] at hok
      exact hsome hok

theorem Encoder.head_of_mem_connectiveRules {op : Connective} {x a b : Lit} {rule : Rule}
    (h : rule ∈ connectiveRules op x a b) : rule.head = [] := by
  cases op <;> simp only [connectiveRules, Rule.disjunctionOf, List.mem_cons, List.not_mem_nil,
    or_false] at h <;> rcases h with h | h | h <;> grind [Rule.constraint, Rule.disjunctive]

theorem Encoder.head_of_mem_fixpointRules {op : Fixpoint} {x left right adjacent : Lit}
    {rule : Rule} (h : rule ∈ fixpointRules op x left right adjacent) : rule.head = [] := by
  unfold fixpointRules at h
  split at h <;> grind [Rule.constraint, Rule.disjunctive]

theorem Encoder.eq_of_checkAhead {u : Unit} {after : Encoder}
    (hok : checkAhead window f e = .ok u after) : after = e := by
  unfold checkAhead at hok
  split at hok <;> cases hok
  rfl

theorem Window.eq_of_shift_one_pending {step target : Nat}
    (h : window.shift step 1 = .pending target) : target = step + 1 := by
  rw [window.shift_one, Window.next] at h
  grind

namespace ActingAt

theorem encodeFixpoint (h : ∀ window f step, Acting (rec window f step)) {op : Fixpoint}
    (hs : key.step ≤ window.horizon) (hn : e.Names key f key.step)
    (hf : f.isDefinedAt key.step = (op.isFuture || key.step != 0))
    (lhs : Option Formula) (rhs : Formula) :
    ActingAt (Encoder.encodeFixpoint rec window f key op lhs rhs) e := by
  refine (h _ _ _ e).bind fun right e₁ _ hext₁ =>
    (Acting.encodeAdjacent h f op key.step e₁).bind fun adjacent e₂ hadjacent hext₂ => ?_
  have hsome := hf.trans (Encoder.isSome_of_encodeAdjacent hs hadjacent).symm
  have hn₂ := (hn.mono hext₁).mono hext₂
  cases adjacent with
  | none => exact share hn₂ hsome right
  | some adjacent =>
    have hleft : Acting (Encoder.encodeLeft rec window op lhs key.step) := by
      cases lhs with
      | none => exact .pure _
      | some lhs => exact h _ _ _
    refine (hleft e₂).bind fun left e₃ _ hext₃ =>
      (define (hn₂.mono hext₃) hsome).bind fun x e₄ _ _ => ?_
    exact Acting.bind (.emitAll fun rule hr => Encoder.head_of_mem_fixpointRules hr)
      (fun _ => .pure _) e₄

theorem encodeNew (h : ∀ window f step, Acting (rec window f step))
    (hs : key.step ≤ window.horizon) (hn : e.Names key f key.step)
    (hnone : e.cache.entry? key = none) :
    ActingAt (Encoder.encodeNew rec window f key) e := by
  -- Of the formulas that share a literal, most share the answer to one other request.
  have hshare : ∀ {window' g step} (value : Lit → Lit), f.isDefinedAt key.step = false →
      ActingAt (rec window' g step >>= fun lit => Encoder.share key (value lit)) e :=
    fun value hf => (h _ _ _ e).bind fun lit _ _ hext => share (hn.mono hext) hf (value lit)
  unfold Encoder.encodeNew
  dsimp only
  split
  · exact Acting.groundAtom _ _ e
  · exact share hn rfl _
  · exact share hn rfl _
  · split
    · exact share hn rfl _
    · split
      · exact share hn rfl _
      · exact hshare (- ·) rfl
  · exact hshare (- ·) rfl
  · refine (h _ _ _ e).bind fun a e₁ _ hext₁ => (h _ _ _ e₁).bind fun b e₂ _ hext₂ =>
      (define ((hn.mono hext₁).mono hext₂) rfl).bind fun x e₃ _ _ => ?_
    exact Acting.bind (.emitAll fun rule hr => Encoder.head_of_mem_connectiveRules hr)
      (fun _ => .pure _) e₃
  · split
    · exact hshare id rfl
    · exact share hn rfl _
  · next arg weak =>
    refine (Acting.checkAhead _ _ e).bind fun _ after hok _ => ?_
    obtain rfl : after = e := Encoder.eq_of_checkAhead hok
    cases hnext : window.shift key.step 1 with
    | reached target => exact hshare id rfl
    | pending target =>
      obtain rfl : target = key.step + 1 := Window.eq_of_shift_one_pending hnext
      exact await hn hnone
    | afterEnd | beforeStart => exact share hn rfl _
  · exact hshare id rfl
  · exact encodeFixpoint h hs hn rfl _ _
  · exact encodeFixpoint h hs hn rfl _ _
  · refine (Acting.checkPath _ _ e).bind fun _ e₁ _ hext₁ => (h _ _ _ e₁).bind fun lit e₂ _ hext₂ => ?_
    exact share ((hn.mono hext₁).mono hext₂) rfl lit

end ActingAt

theorem Encoder.entry_of_lookup_none {after : Encoder} (hok : lookup key e = .ok none after) :
    after.store = e.store ∧ after.cache.entry? key = none := by
  have hnone := entry_of_lookup hok
  have hrun : lookup key e = .ok (e.cache.lookup key).1
    { e with cache := (e.cache.lookup key).2 } := rfl
  rw [hrun] at hok
  obtain ⟨-, rfl⟩ := EStateM.Result.ok.inj hok
  refine ⟨rfl, ?_⟩
  unfold Cache.lookup
  rw [hnone]
  exact hnone

namespace Acting

theorem encodeStep (h : ∀ window f step, Acting (rec window f step)) (f : Formula) (step : Nat) :
    Acting (Encoder.encodeStep rec window f step) := by
  rcases Nat.lt_or_ge window.horizon step with hs | hs
  · unfold Encoder.encodeStep
    rw [Encoder.checkStep_of_lt hs]
    exact refuse (.outOfWindow step (some window.horizon))
  unfold Encoder.encodeStep
  rw [Encoder.checkStep_of_le hs, pure_bind]
  split
  · exact groundAtom _ _
  · intro e
    refine (keyOf f step e).bind fun key e₁ hkey _ => ?_
    rw [Encoder.keyOf_ok] at hkey
    cases hkey
    refine (lookup _ _).bind fun found e₂ hlookup _ => ?_
    cases found with
    | some lit => exact pure _ _
    | none =>
      obtain ⟨hstore, hnone⟩ := Encoder.entry_of_lookup_none hlookup
      refine .encodeNew h hs ⟨rfl, ?_⟩ hnone
      rw [hstore]
      exact (Encoder.numbered_names e f step).number

theorem encodeWithin (depth : Nat) : ∀ window f step,
    Acting (Encoder.encodeWithin depth window f step) := by
  induction depth with
  | zero => exact fun window f step => collapse _
  | succ depth ih => exact fun window f step => encodeStep ih f step

theorem encode (window : Window) (f : Formula) (step : Nat) :
    Acting (Encoder.encode window f step) :=
  bind (register f) fun _ => encodeWithin _ _ _ _

end Acting
end Answers

/-! ## Requirements -/

section Requirements

variable {rec : Encoder.Requiring} {window : Window} {e after : Encoder}

namespace Encoder

/-- The atom is one of the ground atoms. -/
def Grounded (e : Encoder) (a : Nat) : Prop := ∃ key l, e.ground.get? key = some l ∧ l.atom = a

theorem Grounded.mono {a : Nat} (h : e.Grounded a) (hle : e.Endures after) : after.Grounded a := by
  obtain ⟨key, l, hl, ha⟩ := h
  exact ⟨key, l, hle.ground key l hl, ha⟩

theorem grounded_of_groundAtom {f : Formula} {step : Nat} {lit : Lit} (hatom : f.isAtom = true)
    (hok : groundAtom f step e = .ok lit after) : after.Grounded lit.atom := by
  have hlit := Records.groundAtom hatom e lit after hok
  rw [Ledger.lit, if_pos hatom] at hlit
  obtain ⟨id, -, hl⟩ := Option.bind_eq_some_iff.1 hlit
  exact ⟨⟨id, step⟩, lit, hl, rfl⟩

/-- The head of a disjunction consists of ground atoms. -/
theorem grounded_of_sortDisjuncts {step : Nat} {fs : List Formula} {head head' : List Nat}
    {body body' : List Lit}
    (hok : sortDisjuncts window step fs head body e = .ok (some (head', body')) after)
    (hhead : ∀ a ∈ head, e.Grounded a) : ∀ a ∈ head', after.Grounded a := by
  fun_induction sortDisjuncts window step fs head body generalizing e with
  | case1 head body =>
    cases hok
    exact hhead
  | case2 head body name args positive rest ih =>
    obtain ⟨lit, middle, hlit, hok⟩ := exists_of_bind_ok hok
    refine ih lit hok fun a ha => ?_
    rcases List.mem_append.1 ha with ha | ha
    · exact (hhead a ha).mono ((Lasting.groundAtom _ _).of_ok hlit)
    · cases List.mem_singleton.1 ha
      exact grounded_of_groundAtom rfl hlit
  | case3 => cases hok
  | case4 head body rest ih => exact ih hok hhead
  | case5 head body f rest _ _ _ ih =>
    obtain ⟨lit, middle, hlit, hok⟩ := exists_of_bind_ok hok
    exact ih lit hok fun a ha => (hhead a ha).mono ((Lasting.encode _ _ _).of_ok hlit)

end Encoder

namespace Acting

theorem sortDisjuncts (step : Nat) (fs : List Formula) (head : List Nat) (body : List Lit) :
    Acting (Encoder.sortDisjuncts window step fs head body) := by
  fun_induction Encoder.sortDisjuncts window step fs head body with
  | case1 => exact pure _
  | case2 head body name args positive rest ih => exact bind (groundAtom _ _) ih
  | case3 => exact pure _
  | case4 head body rest ih => exact ih
  | case5 head body f rest _ _ _ ih => exact bind (encode _ _ _) ih

theorem requireDisjunction (f : Formula) (step : Nat) (guard : List Lit) :
    Acting (Encoder.requireDisjunction window f step guard) := by
  intro e
  refine (sortDisjuncts _ _ _ _ e).bind fun sorted after hok _ => ?_
  split
  · exact .emit (Encoder.grounded_of_sortDisjuncts hok nofun)
  · exact pure _ _

theorem instanceWitness (h : ∀ window f step guard, Acting (rec window f step guard))
    (inst : Instance) (guard : List Lit) (step : Nat) :
    Acting (Encoder.instanceWitness rec window inst guard step) := by
  unfold Encoder.instanceWitness
  split
  · refine bind ?_ fun _ => bind (encode _ _ _) fun _ => bind (h _ _ _ _) fun _ => encode _ _ _
    unfold Encoder.requireOperands
    split
    · exact h _ _ _ _
    · exact pure _
  · refine bind (h _ _ _ _) fun _ => ?_
    split
    · exact encode _ _ _
    · exact pure _

end Acting

theorem Encoder.carryOn_ok (earlier : Option Lit) (carrier : Lit) (e : Encoder) :
    carryOn earlier carrier e = .ok () { e with
      rules := e.rules ++
        (earlier.bind fun earlier => simplify? (.normal carrier.atom [earlier])).toList } := by
  cases earlier with
  | none => simp [carryOn]; rfl
  | some earlier => exact emit_ok _ e

/-- A carrier is handed out, gets its rules and is listed at one go. -/
theorem ActingAt.carry (f : Formula) (origin step : Nat) (earlier : Option Lit) (witness : Lit)
    (result : Lit → Instance) :
    ActingAt (Encoder.fresh >>= fun carrier => Encoder.carryOn earlier carrier >>= fun _ =>
      Encoder.emit (.normal carrier.atom [witness]) >>= fun _ =>
        (modify fun e => { e with carriers := e.carriers ++ [⟨f, origin, step, carrier⟩] }) >>=
          fun _ => Pure.pure (result carrier)) e := by
  have hfresh : Encoder.fresh e = .ok e.supply.fresh.1 { e with supply := e.supply.fresh.2 } := rfl
  have hlength : ∀ rules : Option Rule, rules.toList.length ≤ 1 := fun rules => by
    cases rules <;> simp
  -- The rules are those for the carrier of the step before and for the literal that settles.
  refine act ?_ fun _ => .carry f origin step
    ((earlier.bind fun earlier => Encoder.simplify? (.normal e.supply.next [earlier])).toList ++
      (Encoder.simplify? (.normal e.supply.next [witness])).toList) ?_ fun rule hr => ?_
  · rw [stateAfter_bind_ok hfresh, stateAfter_bind_ok (Encoder.carryOn_ok _ _ _),
      stateAfter_bind_ok (Encoder.emit_ok _ _), ← List.append_assoc]
    rfl
  · rw [List.length_append]
    exact Nat.add_le_add (hlength _) (hlength _)
  · rcases List.mem_append.1 hr with hr | hr
    · obtain ⟨earlier, -, hsimple⟩ := Option.bind_eq_some_iff.1 (Option.mem_toList.1 hr)
      exact Encoder.reduced_of_simplify? hsimple
    · exact Encoder.reduced_of_simplify? (Option.mem_toList.1 hr)

namespace Acting

theorem advance (h : ∀ window f step guard, Acting (rec window f step guard)) (inst : Instance)
    (step : Nat) : Acting (Encoder.advance rec window inst step) :=
  bind (instanceWitness h _ _ _) fun witness _ =>
    .carry inst.formula inst.origin step inst.carrier witness fun carrier =>
      { inst with carrier := some carrier, last := step }

theorem advanceThrough (h : ∀ window f step guard, Acting (rec window f step guard))
    (count step : Nat) (inst : Instance) :
    Acting (Encoder.advanceThrough rec window count step inst) := by
  induction count generalizing step inst with
  | zero => exact pure _
  | succ count ih => exact bind (advance h _ _) fun _ => ih _ _

theorem startInstance (h : ∀ window f step guard, Acting (rec window f step guard))
    (inst : Instance) : Acting (Encoder.startInstance rec window inst) :=
  bind (advanceThrough h _ _ _) fun _ => modify fun _ _ => .arrange _ _ rfl

theorem defer (requirement : Deferred) : Acting (Encoder.defer requirement) :=
  modify fun _ _ => .arrange _ _ rfl

theorem requireNext (h : ∀ window f step guard, Acting (rec window f step guard))
    (f arg : Formula) (weak : Bool) (step : Nat) (guard : List Lit) :
    Acting (Encoder.requireNext rec window f arg weak step guard) := by
  refine bind (checkAhead _ _) fun _ => ?_
  split
  · exact h _ _ _ _
  · split
    · exact defer _
    · exact bind (bind (encode _ _ _) fun _ => emit rfl) fun _ => defer _
  · split
    · exact pure _
    · exact emit rfl
  · split
    · exact pure _
    · exact emit rfl

theorem requireNew (h : ∀ window f step guard, Acting (rec window f step guard)) (f : Formula)
    (step : Nat) (guard : List Lit) :
    Acting (Encoder.requireNew rec window f step guard) := by
  unfold Encoder.requireNew
  split
  · intro e
    refine (groundAtom _ _ e).bind fun lit after hok _ => .emit fun a ha => ?_
    cases List.mem_singleton.1 ha
    exact Encoder.grounded_of_groundAtom rfl hok
  · exact pure _
  · exact emit rfl
  · exact bind (h _ _ _ _) fun _ => h _ _ _ _
  · exact requireDisjunction _ _ _
  · exact bind (encode _ _ _) fun _ => h _ _ _ _
  · exact bind (encode _ _ _) fun _ => h _ _ _ _
  · exact bind (encode _ _ _) fun _ => emit rfl
  · exact requireNext h _ _ _ _ _
  · exact bind (h _ _ _ _) fun _ => h _ _ _ _
  · exact startInstance h _
  · exact startInstance h _
  · exact startInstance h _
  all_goals exact bind (encode _ _ _) fun _ => emit rfl

theorem requireStep (h : ∀ window f step guard, Acting (rec window f step guard)) (f : Formula)
    (step : Nat) (guard : List Lit) :
    Acting (Encoder.requireStep rec window f step guard) := by
  refine bind (checkStep _ _) fun _ => ?_
  split
  · exact pure _
  · refine bind (keyOf _ _) fun key => bind get fun e => ?_
    split
    · exact pure _
    · exact bind (modify fun _ _ => .arrange _ _ rfl) fun _ => requireNew h _ _ _

theorem requireWithin (depth : Nat) : ∀ window f step guard,
    Acting (Encoder.requireWithin depth window f step guard) := by
  induction depth with
  | zero => exact fun window f step guard => collapse _
  | succ depth ih => exact fun window f step guard => requireStep ih f step guard

theorem require (window : Window) (f : Formula) (step : Nat) (guard : List Lit) :
    Acting (Encoder.require window f step guard) :=
  bind (register f) fun _ => requireWithin _ _ _ _ _

/-! ## The edge -/

theorem runDeferred (window : Window) (step : Nat) : Acting (Encoder.runDeferred window step) := by
  refine bind (fun e => ?_) fun due => forM fun _ _ => require _ _ _ _
  exact .act rfl fun _ => .arrange (e.edge.takeDeferred step).2 e.required rfl

theorem advanceInstance (window : Window) (step number : Nat) :
    Acting (Encoder.advanceInstance window step number) := by
  refine bind get fun e => ?_
  split
  · exact pure _
  · split
    · exact bind (advance require _ _) fun _ => modify fun _ _ => .arrange _ _ rfl
    · exact pure _

theorem advanceInstances (window : Window) (step : Nat) :
    Acting (Encoder.advanceInstances window step) :=
  bind get fun _ => forM fun _ _ => advanceInstance _ _ _

end Acting
end Requirements

/-! ## Boundaries that fall due -/

namespace Encoder

/-- Boundaries that fall due are tied one after the other; those that come after a failure
are given up. -/
theorem acts_tieBoundaries (window : Window) (step : Nat) (due : List Boundary) {e : Encoder}
    (hu : e.Unbound) : Acts (due, e) ([], stateAfter (tieBoundaries window step due) e) := by
  induction due generalizing e with
  | nil => exact .refl
  | cons b due ih =>
    have hencode := Acting.encode window b.arg step e hu (b :: due)
    unfold tieBoundaries
    cases hlit : encode window b.arg step e with
    | error failure middle =>
      rw [stateAfter_error hlit] at hencode
      rw [stateAfter_error (bind_error hlit)]
      exact hencode.tail .drop
    | ok lit middle =>
      rw [stateAfter_ok hlit] at hencode
      rw [stateAfter_bind_ok hlit, stateAfter_bind_ok (emit_ok _ _)]
      have htie : Act (b :: due, middle) (due, { middle with
          rules := middle.rules ++ (simplify? (.normal b.lit.atom [lit])).toList }) := by
        refine .tie _ ?_ fun rule hr => reduced_of_simplify? (Option.mem_toList.1 hr)
        cases simplify? (.normal b.lit.atom [lit]) <;> simp
      have hfirst : Acts (b :: due, e) (due, _) := hencode.tail htie
      rw [stateAfter_bind_pure]
      exact hfirst.trans (ih (hfirst.unbound hu))

theorem stateAfter_resolveBoundaries (window : Window) (step : Nat) (e : Encoder) :
    stateAfter (resolveBoundaries window step) e =
      stateAfter (tieBoundaries window step (e.edge.takeDue step).1)
        { e with edge := (e.edge.takeDue step).2 } :=
  stateAfter_bind_ok rfl

theorem emitAll_ok (rules : List Rule) (e : Encoder) :
    emitAll rules e = .ok () { e with rules := e.rules ++ rules.filterMap simplify? } := by
  induction rules generalizing e with
  | nil => rw [List.filterMap_nil, List.append_nil]; rfl
  | cons rule rules ih =>
    have hrun : emitAll (rule :: rules) e = (emit rule >>= fun _ => emitAll rules) e := rfl
    rw [hrun, bind_ok (emit_ok rule e), ih, List.append_assoc]
    cases h : simplify? rule with
    | none => rw [List.filterMap_cons_none h, Option.toList_none, List.nil_append]
    | some simple => rw [List.filterMap_cons_some h, Option.toList_some, List.singleton_append]

/-- Closing derives the weak boundaries and clears the edge. -/
theorem stateAfter_close (e : Encoder) :
    stateAfter close e = { e with
      rules := e.rules ++ (e.edge.boundaries.filter Boundary.weak).map fun b => .fact b.lit.atom
      edge := {} } := by
  have hfacts : ∀ boundaries : List Boundary,
      (((boundaries.map fun b : Boundary => External.mk b.lit (if b.weak then .true else .false)).filter
        fun x => x.truth = .true).map fun x => Rule.fact x.lit.atom).filterMap simplify? =
          (boundaries.filter Boundary.weak).map fun b => .fact b.lit.atom := by
    intro boundaries
    induction boundaries with
    | nil => rfl
    | cons b rest ih =>
      cases hweak : b.weak with
      | true => simpa [hweak, simplify?, Rule.fact, Rule.normal, Rule.disjunctive] using ih
      | false => simpa [hweak] using ih
  unfold close
  rw [stateAfter_bind_ok (get_ok e), stateAfter_bind_ok (emitAll_ok _ e)]
  show Encoder.mk _ _ _ _ _ _ _ _ = Encoder.mk _ _ _ _ _ _ _ _
  rw [Edge.closedExternals, hfacts]

/-- All boundaries fall due when the horizon is closed. -/
theorem acts_close (e : Encoder) :
    Acts (e.edge.boundaries, { e with edge := {} }) ([], stateAfter close e) := by
  have hfix : ∀ (due : List Boundary) (e : Encoder), Acts (due, e) ([], { e with
      rules := e.rules ++ (due.filter Boundary.weak).map fun b => .fact b.lit.atom }) := by
    intro due
    induction due with
    | nil =>
      intro e
      rw [List.filter_nil, List.map_nil, List.append_nil]
    | cons b due ih =>
      intro e
      cases hweak : b.weak with
      | true =>
        have htie : Act (b :: due, e) (due, { e with rules := e.rules ++ [.fact b.lit.atom] }) :=
          .tie _ (Nat.le_refl 1) fun rule hr => by
            cases List.mem_singleton.1 hr
            exact ⟨rfl, nofun⟩
        have hrest := ih { e with rules := e.rules ++ [.fact b.lit.atom] }
        rw [List.append_assoc] at hrest
        rw [List.filter_cons_of_pos hweak]
        exact hrest.head htie
      | false =>
        have htie : Act (b :: due, e) (due, { e with rules := e.rules ++ [] }) :=
          .tie [] (Nat.zero_le 1) nofun
        rw [List.append_nil] at htie
        rw [List.filter_cons_of_neg (by rw [hweak]; exact Bool.false_ne_true)]
        exact (ih e).head htie
  rw [stateAfter_close]
  exact hfix e.edge.boundaries { e with edge := {} }

end Encoder
end Acting
end TemporalHorizon

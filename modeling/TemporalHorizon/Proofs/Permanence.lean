import TemporalHorizon.Proofs.Changes

/-!
# One literal for ever

A formula has one literal at a step.  It may come from the table of ground atoms, from
a fresh atom, from the literal of another formula, from an external or from a host
literal; in each case it is written down once, and no later operation of the encoder
rewrites it, whether it succeeds or fails and whatever window it is given.

* `Encoder.Endures`: what an operation may not take back.  Formulas keep their
  numbers, representatives and ground atoms their literals.
* `Lasting`: a computation after which all that endures.  Each single change of the encoder
  keeps it, and so does every computation.
* `Encoder.Records.encode`: a literal that is returned has been written down.
* `Encoder.encode_found`: a literal that has been written down is returned, and nothing
  else happens.
* `Encoder.encode_performAll`: so a literal that has been returned once is returned always.
-/

namespace TemporalHorizon

/-! ## Numbers and ground atoms -/

namespace Encoder

variable {encoder after : Encoder} {f : Formula} {l : Lit}

theorem numbered_names (encoder : Encoder) (f : Formula) (s : Nat) :
    (encoder.numbered f).Names ⟨(encoder.store.intern f).1, s⟩ f s :=
  ⟨rfl, (encoder.store.intern_spec f).number⟩

theorem numbered_eq {id : FormulaId} (hid : encoder.store.idOf? f = some id) :
    encoder.numbered f = encoder := by
  rw [numbered, Store.intern_of_idOf? f hid]

theorem keyOf_found {id : FormulaId} (hid : encoder.store.idOf? f = some id) (s : Nat) :
    keyOf f s encoder = .ok ⟨id, s⟩ encoder := by
  rw [keyOf_ok, numbered_eq hid, Store.intern_of_idOf? f hid]

theorem ground_of_enterGround {key : Key} {lit : Lit} {a : Unit}
    (hok : enterGround key lit encoder = .ok a after) : after.ground.get? key = some lit := by
  unfold enterGround at hok
  rw [bind_ok (get_ok encoder)] at hok
  cases hinsert : encoder.ground.insert key lit with
  | error cause =>
    rw [hinsert] at hok
    cases hok
  | ok ground =>
    rw [hinsert] at hok
    cases hok
    unfold GroundTable.insert at hinsert
    split at hinsert
    · cases hinsert
    · split at hinsert
      · cases hinsert
      · cases hinsert
        exact Table.get?_insert_self _ _ _

end Encoder

section Endurance

variable [Arithmetic]

/-! ## What an operation may not take back -/

namespace Encoder

/-- Formulas have kept their numbers, representatives and ground atoms their
literals. -/
structure Endures (before after : Encoder) : Prop where
  store : before.store.Extends after.store
  entry : ∀ key lit, before.cache.entry? key = some lit → after.cache.entry? key = some lit
  ground : ∀ key lit, before.ground.get? key = some lit → after.ground.get? key = some lit

namespace Endures

theorem refl (encoder : Encoder) : encoder.Endures encoder :=
  ⟨.refl _, fun _ _ h => h, fun _ _ h => h⟩

theorem trans {a b c : Encoder} (h : a.Endures b) (h' : b.Endures c) : a.Endures c :=
  ⟨h.store.trans h'.store, fun key lit hl => h'.entry key lit (h.entry key lit hl),
    fun key lit hl => h'.ground key lit (h.ground key lit hl)⟩

/-- A change of everything else. -/
theorem frame {before after : Encoder} (hs : after.store = before.store)
    (hc : after.cache.entries = before.cache.entries) (hg : after.ground = before.ground) :
    before.Endures after := by
  refine ⟨hs ▸ .refl _, fun key lit hl => ?_, fun key lit hl => hg ▸ hl⟩
  unfold Cache.entry? at hl ⊢
  rw [hc]
  exact hl

/-- A literal that has been written down stays. -/
theorem lit {before after : Encoder} (h : before.Endures after) {f : Formula} {s : Nat} {l : Lit}
    (hl : (before.ledger []).lit f s = some l) : (after.ledger []).lit f s = some l := by
  have hsheet : ∀ {table table' : Key → Option Lit},
      (∀ key lit, table key = some lit → table' key = some lit) →
      Sheet.ofTable before.store table f s = some l →
      Sheet.ofTable after.store table' f s = some l := by
    intro table table' htable hl
    obtain ⟨id, hid, hl⟩ := Option.bind_eq_some_iff.1 hl
    exact Option.bind_eq_some_iff.2 ⟨id, Store.idOf?_mono h.store f hid, htable _ _ hl⟩
  unfold Ledger.lit at hl ⊢
  cases hatom : f.isAtom with
  | true =>
    rw [hatom] at hl
    exact hsheet h.ground hl
  | false =>
    rw [hatom] at hl
    exact hsheet h.entry hl

/-- Writing the first entry of a key. -/
theorem write {before : Encoder} {key : Key} (hnone : before.cache.entry? key = none) (lit : Lit) :
    before.Endures { before with cache := before.cache.write key lit } := by
  exact ⟨.refl _, fun _ _ hl => Cache.entry?_write_of_some hnone hl lit, fun _ _ h => h⟩

/-- Entering a ground atom that is new. -/
theorem enter {before : Encoder} {key : Key} (hfree : before.ground.get? key = none) (lit : Lit)
    (owners : Table Nat Key) :
    before.Endures { before with ground :=
      { literals := before.ground.literals.insert key lit, owners := owners } } := by
  refine ⟨.refl _, fun _ _ h => h, fun other l hl => ?_⟩
  have hne : key ≠ other := by
    rintro rfl
    rw [hfree] at hl
    cases hl
  show (before.ground.literals.insert key lit).get? other = some l
  rw [Table.get?_insert, if_neg hne]
  exact hl

end Endures

/-- A change takes nothing back. -/
theorem Change.endures {horizon : Nat} {e after : Encoder} (h : Change horizon e after) :
    e.Endures after := by
  cases h with
  | number f => exact ⟨(e.store.intern_spec f).grown, fun _ _ h => h, fun _ _ h => h⟩
  | write lit hnone => exact .write hnone lit
  | enter lit hfree => exact .enter hfree lit _
  | _ => exact .frame rfl rfl rfl

/-- Nor does anything else that an operation does. -/
theorem Turn.endures {e after : Encoder} (h : Turn e after) : e.Endures after := by
  cases h with
  | change h => exact h.endures
  | numberPath path => exact ⟨(e.store.internPath_spec path).grown, fun _ _ h => h, fun _ _ h => h⟩
  | @bind _ cache key host h =>
    have hentries : cache.entries = e.cache.entries := by
      unfold Cache.bind? at h
      split at h
      · cases h
      · cases h
        rfl
    exact .frame rfl hentries rfl
  | _ => exact .frame rfl rfl rfl

theorem endures_of_turns {e after : Encoder} (h : Relation.ReflTransGen Turn e after) :
    e.Endures after := by
  induction h with
  | refl => exact .refl e
  | tail _ hturn ih => exact ih.trans hturn.endures

end Encoder

/-- A computation after which everything that was written down is still there, also if
it fails. -/
def Lasting {α : Type} (x : Encode α) : Prop :=
  ∀ encoder : Encoder, encoder.Endures (stateAfter x encoder)

namespace Lasting

variable {α : Type}

open Encoder (Turn Change)

theorem of_ok {x : Encode α} (h : Lasting x) {encoder after : Encoder} {a : α}
    (hok : x encoder = .ok a after) : encoder.Endures after := stateAfter_ok hok ▸ h encoder

/-- What each turn keeps is kept by a computation. -/
theorem of_turns {x : Encode α} (h : Along Turn x) : Lasting x :=
  fun encoder => Encoder.endures_of_turns (h encoder)

theorem of_changes (horizon : Nat) {x : Encode α} (h : Along (Change horizon) x) : Lasting x :=
  of_turns (h.turn horizon)

theorem emit (rule : Rule) : Lasting (Encoder.emit rule) := of_changes 0 (.emit rule)

theorem emitAll (rules : List Rule) : Lasting (Encoder.emitAll rules) :=
  of_changes 0 (.emitAll rules)

theorem groundAtom (f : Formula) (step : Nat) : Lasting (Encoder.groundAtom f step) :=
  of_changes 0 (.groundAtom f step)

theorem encode (window : Window) (f : Formula) (step : Nat) :
    Lasting (Encoder.encode window f step) := of_changes _ (.encode rfl f step)

end Lasting

/-! ## Literals that are returned -/

namespace Encoder

variable {α : Type}

/-- A computation returns no other literal than the one that represents a key when it
is started. -/
def Recalls (key : Key) (l : Lit) (x : Encode Lit) : Prop :=
  ∀ encoder lit after, encoder.cache.entry? key = some l → x encoder = .ok lit after →
    after.cache.entry? key = some lit

theorem Recalls.pure (key : Key) (l : Lit) : Recalls key l (pure l) := by
  intro encoder lit after hl hok
  cases hok
  exact hl

theorem Recalls.bind {key : Key} {l : Lit} {x : Encode α} {next : α → Encode Lit}
    (hx : Lasting x) (hn : ∀ a, Recalls key l (next a)) : Recalls key l (x >>= next) := by
  intro encoder lit after hl hok
  obtain ⟨a, middle, hrun, hok⟩ := exists_of_bind_ok hok
  exact hn a middle lit after ((hx.of_ok hrun).entry key l hl) hok

/-- A literal that is returned represents a key from then on. -/
def Writes (key : Key) (x : Encode Lit) : Prop :=
  ∀ encoder lit after, x encoder = .ok lit after → after.cache.entry? key = some lit

namespace Writes

variable {key : Key}

theorem bind {x : Encode α} {next : α → Encode Lit} (h : ∀ a, Writes key (next a)) :
    Writes key (x >>= next) := by
  intro encoder lit after hok
  obtain ⟨a, middle, -, hok⟩ := exists_of_bind_ok hok
  exact h a middle lit after hok

/-- After the first entry of a key has been written. -/
theorem getOrCreate_bind {next : Lit × Bool → Encode Lit}
    (h : ∀ answer, Recalls key answer.1 (next answer)) :
    Writes key (getOrCreate key >>= next) := by
  intro encoder lit after hok
  have hrun : getOrCreate key encoder = .ok (encoder.cache.getOrCreate key encoder.supply).1
    { encoder with
      cache := (encoder.cache.getOrCreate key encoder.supply).2.1
      supply := (encoder.cache.getOrCreate key encoder.supply).2.2 } := rfl
  rw [bind_ok hrun] at hok
  refine h _ _ lit after ?_ hok
  show Cache.entry? (encoder.cache.getOrCreate key encoder.supply).2.1 key = _
  unfold Cache.getOrCreate Cache.lookup
  cases hentry : encoder.cache.entry? key with
  | some old => exact hentry
  | none =>
    dsimp only
    split
    · exact Cache.entry?_write_self _ key _
    · exact Cache.entry?_write_self _ key _

theorem define_bind {next : Lit → Encode Lit} (h : ∀ lit, Recalls key lit (next lit)) :
    Writes key (define key >>= next) := by
  unfold define
  simp only [bind_assoc, pure_bind]
  exact getOrCreate_bind fun answer => .bind (.of_changes 0 (.checkNew _ _)) fun _ =>
    .bind (.emit _) fun _ => h _

theorem share (lit : Lit) : Writes key (share key lit) := by
  intro encoder l after hok
  have hwritten : ∀ rep, Cache.entry? (encoder.cache.write key rep) key = some rep :=
    encoder.cache.entry?_write_self key
  unfold Encoder.share at hok
  rw [bind_ok (get_ok encoder)] at hok
  unfold Cache.share at hok
  cases hentry : encoder.cache.entry? key with
  | some old =>
    rw [hentry] at hok
    cases hok
  | none =>
    rw [hentry, if_neg (by simp)] at hok
    cases hbinding : encoder.cache.binding? key with
    | some host =>
      rw [hbinding] at hok
      have htie : Lasting (tieHost host lit) := .of_changes 0 (.tieHost host lit)
      exact Recalls.bind htie (fun _ => .pure key host) _ l after (hwritten host) hok
    | none =>
      rw [hbinding] at hok
      exact Recalls.pure key lit _ l after (hwritten lit) hok

theorem encodeFixpoint (rec : Encoding) (window : Window) (f : Formula) (op : Fixpoint)
    (lhs : Option Formula) (rhs : Formula) :
    Writes key (encodeFixpoint rec window f key op lhs rhs) := by
  refine bind fun right => bind fun adjacent => ?_
  split
  · exact share _
  · exact bind fun left => define_bind fun x => .bind (.emitAll _) fun _ => .pure key x

/-- A composite formula that is new is represented by the literal that is returned. -/
theorem encodeNew {f : Formula} (hatom : f.isAtom = false) (rec : Encoding) (window : Window) :
    Writes key (encodeNew rec window f key) := by
  unfold Encoder.encodeNew
  dsimp only
  split
  · cases hatom
  · exact share _
  · exact share _
  · split
    · exact share _
    · split
      · exact share _
      · exact bind fun _ => share _
  · exact bind fun _ => share _
  · exact bind fun _ => bind fun _ => define_bind fun x => .bind (.emitAll _) fun _ => .pure key x
  · split
    · exact bind fun _ => share _
    · exact share _
  · refine bind fun _ => ?_
    split
    · exact bind fun _ => share _
    · exact getOrCreate_bind fun answer =>
        .bind (.of_turns (.modify fun _ => .rearrange _)) fun _ => .pure key _
    · exact share _
    · exact share _
  · exact bind fun _ => share _
  · exact encodeFixpoint _ _ _ _ _ _
  · exact encodeFixpoint _ _ _ _ _ _
  · exact bind fun _ => bind fun _ => share _

end Writes

variable {encoder after : Encoder} {f : Formula} {s : Nat} {l : Lit}

theorem lit_of_ground {key : Key} (hatom : f.isAtom = true) (hn : encoder.Names key f s)
    (hl : encoder.ground.get? key = some l) : (encoder.ledger []).lit f s = some l := by
  obtain ⟨rfl, hid⟩ := hn
  rw [Ledger.lit, if_pos hatom]
  exact (Sheet.ofTable_eq hid).trans hl

theorem lit_of_entry {key : Key} (hatom : f.isAtom = false) (hn : encoder.Names key f s)
    (hl : encoder.cache.entry? key = some l) : (encoder.ledger []).lit f s = some l := by
  obtain ⟨rfl, hid⟩ := hn
  rw [Ledger.lit, hatom]
  exact (Sheet.ofTable_eq hid).trans hl

/-- A lookup finds the entry of the key. -/
theorem entry_of_lookup {key : Key} {found : Option Lit}
    (hok : lookup key encoder = .ok found after) : encoder.cache.entry? key = found := by
  have hrun : lookup key encoder = .ok (encoder.cache.lookup key).1
    { encoder with cache := (encoder.cache.lookup key).2 } := rfl
  rw [hrun] at hok
  cases hok
  unfold Cache.lookup
  cases encoder.cache.entry? key <;> rfl

/-- A literal that is returned is the one of a formula at a step from then on. -/
def Records (f : Formula) (s : Nat) (x : Encode Lit) : Prop :=
  ∀ encoder lit after, x encoder = .ok lit after → (after.ledger []).lit f s = some lit

namespace Records

theorem bind {x : Encode α} {next : α → Encode Lit} (h : ∀ a, Records f s (next a)) :
    Records f s (x >>= next) := by
  intro encoder lit after hok
  obtain ⟨a, middle, -, hok⟩ := exists_of_bind_ok hok
  exact h a middle lit after hok

theorem groundAtom (hatom : f.isAtom = true) : Records f s (groundAtom f s) := by
  intro encoder lit after hok
  have hn := numbered_names encoder f s
  unfold Encoder.groundAtom at hok
  rw [bind_ok (keyOf_ok encoder f s), bind_ok (get_ok _)] at hok
  cases hfound : (encoder.numbered f).ground.get? ⟨(encoder.store.intern f).1, s⟩ with
  | some old =>
    rw [hfound] at hok
    cases hok
    exact lit_of_ground hatom hn hfound
  | none =>
    rw [hfound] at hok
    obtain ⟨lit, supplied, hsupply, hok⟩ := exists_of_bind_ok hok
    obtain ⟨_, entered, henter, hok⟩ := exists_of_bind_ok hok
    obtain ⟨_, posted, hpost, hok⟩ := exists_of_bind_ok hok
    cases hok
    have hfresh := hn.mono ((Lasting.of_changes 0 .fresh).of_ok hsupply).store
    have hentered : supplied.Endures entered := stateAfter_ok henter ▸ endures_of_turns
      (Relation.ReflTransGen.mono (fun _ _ => Turn.change) _ _
        (@Along.entering _ 0 _ _ _ hfresh.number lit))
    have hkeeps := (Lasting.of_changes 0 (.excludeOpposite _ _ _)).of_ok hpost
    exact lit_of_ground hatom (hfresh.mono (hentered.trans hkeeps).store)
      (hkeeps.ground _ _ (ground_of_enterGround henter))

theorem encodeStep {rec : Encoding} {window : Window}
    (hrec : Along.Encoding window.horizon rec) : Records f s (encodeStep rec window f s) := by
  refine bind fun _ => ?_
  cases hatom : f.isAtom with
  | true =>
    rw [if_pos rfl]
    exact groundAtom hatom
  | false =>
    rw [if_neg (by simp)]
    intro encoder lit after hok
    have hn := numbered_names encoder f s
    rw [bind_ok (keyOf_ok encoder f s)] at hok
    obtain ⟨found, looked, hlookup, hok⟩ := exists_of_bind_ok hok
    have hlooked := (Lasting.of_changes 0 (.lookup _)).of_ok hlookup
    cases found with
    | some old =>
      cases hok
      exact lit_of_entry hatom (hn.mono hlooked.store)
        (hlooked.entry _ _ (entry_of_lookup hlookup))
    | none =>
      have hrest := (Lasting.of_changes _ (.encodeNew hrec rfl f _)).of_ok hok
      exact lit_of_entry hatom ((hn.mono hlooked.store).mono hrest.store)
        (Writes.encodeNew hatom rec window looked lit after hok)

theorem encodeWithin (depth : Nat) (window : Window) :
    Records f s (encodeWithin depth window f s) := by
  cases depth with
  | zero =>
    intro encoder lit after hok
    cases hok
  | succ depth => exact encodeStep (Along.encodeWithin depth)

theorem encode (window : Window) : Records f s (encode window f s) :=
  bind fun _ => encodeWithin _ window

end Records

/-! ## Literals that are found -/

theorem lookup_found {key : Key} (hl : encoder.cache.entry? key = some l) :
    lookup key encoder = .ok (some l)
      { encoder with cache := { encoder.cache with hits := encoder.cache.hits + 1 } } := by
  have hlookup : encoder.cache.lookup key =
      (some l, { encoder.cache with hits := encoder.cache.hits + 1 }) := by
    unfold Cache.lookup
    rw [hl]
  have hrun : lookup key encoder = .ok (encoder.cache.lookup key).1
    { encoder with cache := (encoder.cache.lookup key).2 } := rfl
  rw [hrun, hlookup]

theorem groundAtom_found {id : FormulaId} (hid : encoder.store.idOf? f = some id)
    (hl : encoder.ground.get? ⟨id, s⟩ = some l) : groundAtom f s encoder = .ok l encoder := by
  unfold groundAtom
  rw [bind_ok (keyOf_found hid s), bind_ok (get_ok _), hl]
  rfl

/-- A literal that has been written down is returned.  Only the count of lookups that
have found something can change. -/
theorem encode_found {window : Window} (hs : s ≤ window.horizon)
    (hl : (encoder.ledger []).lit f s = some l) :
    ∃ hits, encode window f s encoder =
      .ok l { encoder with cache := { encoder.cache with hits := hits } } := by
  have hregister : ∀ {id}, encoder.store.idOf? f = some id →
      register f encoder = .ok id encoder := by
    intro id hid
    have hrun : register f encoder = .ok (encoder.store.intern f).1 (encoder.numbered f) := rfl
    rw [hrun, numbered_eq hid, Store.intern_of_idOf? f hid]
  have hcheck : checkStep window s encoder = .ok () encoder := by
    rw [checkStep_of_le hs]
    rfl
  obtain ⟨depth, hdepth⟩ := Nat.exists_eq_succ_of_ne_zero
    (Nat.ne_of_gt (f.unfoldDepth_pos window.horizon))
  unfold encode
  rw [hdepth]
  unfold encodeWithin encodeStep
  unfold Ledger.lit at hl
  cases hatom : f.isAtom with
  | true =>
    rw [hatom] at hl
    obtain ⟨id, hid, hl⟩ := Option.bind_eq_some_iff.1 hl
    refine ⟨encoder.cache.hits, ?_⟩
    rw [bind_ok (hregister hid), bind_ok hcheck, if_pos rfl]
    exact groundAtom_found hid hl
  | false =>
    rw [hatom] at hl
    obtain ⟨id, hid, hl⟩ := Option.bind_eq_some_iff.1 hl
    refine ⟨encoder.cache.hits + 1, ?_⟩
    rw [bind_ok (hregister hid), bind_ok hcheck, if_neg (by simp), bind_ok (keyOf_found hid s),
      bind_ok (lookup_found hl)]
    rfl

/-! ## All operations -/

/-- What can be asked of an encoder from outside. -/
inductive Operation where
  /-- Number a formula. -/
  | number (f : Formula)
  /-- Number a path. -/
  | numberPath (path : Path)
  | fresh
  | takeRules
  | bind (f : Formula) (step : Nat) (host : Lit)
  | encode (window : Window) (f : Formula) (step : Nat)
  | require (window : Window) (f : Formula) (step : Nat) (guard : List Lit)
  | resolveBoundaries (window : Window) (step : Nat)
  | runDeferred (window : Window) (step : Nat)
  | advanceInstances (window : Window) (step : Nat)
  | close

/-- An operation as a computation, without what it returns. -/
def Operation.run : Operation → Encode Unit
  | .number f => discard (register f)
  | .numberPath path => modify fun encoder =>
    { encoder with store := (encoder.store.internPath path).2 }
  | .fresh => discard Encoder.fresh
  | .takeRules => discard Encoder.takeRules
  | .bind f step host => Encoder.bind f step host
  | .encode window f step => discard (Encoder.encode window f step)
  | .require window f step guard => Encoder.require window f step guard
  | .resolveBoundaries window step => discard (Encoder.resolveBoundaries window step)
  | .runDeferred window step => Encoder.runDeferred window step
  | .advanceInstances window step => Encoder.advanceInstances window step
  | .close => discard Encoder.close

namespace Operation

/-- Whether an operation binds a host literal. -/
def binds : Operation → Bool
  | .bind _ _ _ => true
  | _ => false

/-- All steps that an operation is given are exact. -/
def InRange : Operation → Prop
  | .encode window _ _ | .require window _ _ _ | .resolveBoundaries window _
  | .runDeferred window _ | .advanceInstances window _ => window.InRange
  | .bind _ step _ => Arithmetic.Fits step
  | _ => True

instance : DecidablePred InRange
  | .encode window _ _ | .require window _ _ _ | .resolveBoundaries window _
  | .runDeferred window _ | .advanceInstances window _ =>
    inferInstanceAs (Decidable (Arithmetic.Fits window.horizon))
  | .bind _ step _ => inferInstanceAs (Decidable (Arithmetic.Fits step))
  | .number _ | .numberPath _ | .fresh | .takeRules | .close => inferInstanceAs (Decidable True)

/-- The window that an operation is given. -/
def window? : Operation → Option Window
  | .encode window _ _ | .require window _ _ _ | .resolveBoundaries window _
  | .runDeferred window _ | .advanceInstances window _ => some window
  | _ => none

/-- What an operation does that neither binds anything nor hands the rules over. -/
theorem deeds {kind : Instant → Prop} {operation : Operation} (hbinds : operation.binds = false)
    (htakes : operation ≠ .takeRules)
    (hkind : ∀ window, operation.window? = some window → kind window.edge) :
    Along (Deed kind) operation.run := by
  cases operation with
  | number f =>
    have hregister : Along (Deed kind) (register f) :=
      .modifyGet fun _ => .change 0 (.number f) rfl rfl
    exact hregister.map _
  | numberPath path => exact .modify fun _ => .numberPath path
  | fresh =>
    have hfresh : Along (Deed kind) Encoder.fresh := .modifyGet fun _ => .change 0 .supply rfl rfl
    exact hfresh.map _
  | takeRules => cases htakes rfl
  | bind f step host => cases hbinds
  | encode window f step =>
    have hencode : Along (Deed kind) (Encoder.encode window f step) := fun _ =>
      .single (.answer f step (hkind window rfl))
    exact hencode.map _
  | require window f step guard =>
    exact (Along.require window f step guard rfl).deeds (hkind window rfl)
  | resolveBoundaries window step =>
    have hresolve : Along (Deed kind) (Encoder.resolveBoundaries window step) :=
      .bind (.modifyGet fun _ => .rearrange _) fun _ =>
        (Along.tieBoundaries rfl step _).deeds (hkind window rfl)
    exact hresolve.map _
  | runDeferred window step =>
    exact .bind (.modifyGet fun _ => .rearrange _) fun _ =>
      (Along.meetAll rfl step _).deeds (hkind window rfl)
  | advanceInstances window step =>
    exact (Along.advanceInstances rfl step).deeds (hkind window rfl)
  | close =>
    have hemit : ∀ rules, Along (Deed kind) (emitAll rules) := fun rules =>
      .forM fun rule _ => .posting (fun _ rule => .change 0 (.post rule) rfl rfl) rule
    have hclose : Along (Deed kind) Encoder.close := .bind .get fun _ => .bind (hemit _) fun _ =>
      .bind (.modify fun _ => .rearrange _) fun _ => .pure _
    exact hclose.map _

end Operation

theorem Operation.turns : (operation : Operation) → Along Turn operation.run
  | .number f => .map _ (.turn 0 (.register f))
  | .numberPath path => .modify fun _ => .numberPath path
  | .fresh => .map _ (.turn 0 .fresh)
  | .takeRules => .map _ .takeRules
  | .bind f step host => .bindHost f step host
  | .encode _ f step => .map _ (.turn _ (.encode rfl f step))
  | .require window f step guard => .turn _ (Along.require window f step guard rfl).changes
  | .resolveBoundaries window step => .map _ (.resolveBoundaries window step)
  | .runDeferred window step => .runDeferred window step
  | .advanceInstances _ step => .turn _ (Along.advanceInstances rfl step).changes
  | .close => .map _ .close

/-- The encoder after operations, one after the other, some of which may have failed. -/
def performAll (encoder : Encoder) (operations : List Operation) : Encoder :=
  operations.foldl (fun encoder operation => stateAfter operation.run encoder) encoder

/-- Operations one after the other come to turns. -/
theorem turns_performAll (operations : List Operation) : ∀ encoder : Encoder,
    Relation.ReflTransGen Turn encoder (encoder.performAll operations) := by
  induction operations with
  | nil => exact fun _ => .refl
  | cons operation rest ih => exact fun encoder => (operation.turns encoder).trans (ih _)

/-- Nothing that has been written down is ever taken back. -/
theorem endures_performAll (operations : List Operation) (encoder : Encoder) :
    encoder.Endures (encoder.performAll operations) :=
  endures_of_turns (encoder.turns_performAll operations)

/-- **One literal for a formula at a step, for ever.**  Once a literal has been returned
for a formula at a step, every later request for it in a window that shows the step
returns the same literal, whatever has been done in between, and changes nothing but the
count of lookups that have found something: no rule is emitted, no atom handed out and no
external opened. -/
theorem encode_performAll {window : Window} (hok : encode window f s encoder = .ok l after)
    (operations : List Operation) {later : Window} (hs : s ≤ later.horizon) :
    ∃ hits, encode later f s (after.performAll operations) =
      .ok l { after.performAll operations with
        cache := { (after.performAll operations).cache with hits := hits } } :=
  encode_found hs ((after.endures_performAll operations).lit (Records.encode window _ _ _ hok))

end Encoder
end Endurance

namespace Encoder

/-- The external of a reference to the next step, after that step has been reached, the
edge closed, and a binding and a request of another stage refused. -/
theorem encode_performAll_next :
    let p := Formula.atom "p" [] true
    let f := Formula.next p false
    ∃ after, encode ⟨0, false, .always⟩ f 0 empty = .ok ⟨2, false⟩ after ∧
      0 ≤ (Window.mk 1 true .final).horizon ∧
      let later := after.performAll [.resolveBoundaries ⟨1, false, .always⟩ 1, .takeRules,
        .bind f 0 ⟨9, false⟩, .encode ⟨1, false, .final⟩ (.next p true) 0, .close]
      ∃ hits, encode ⟨1, true, .final⟩ f 0 later =
        .ok ⟨2, false⟩ { later with cache := { later.cache with hits := hits } } := by
  intro p f
  have hanswer : (match encode ⟨0, false, .always⟩ f 0 empty with
      | .ok lit _ => some lit
      | .error _ _ => none) = some ⟨2, false⟩ := by decide +kernel
  cases hok : encode ⟨0, false, .always⟩ f 0 empty with
  | error failure after =>
    rw [hok] at hanswer
    cases hanswer
  | ok lit after =>
    rw [hok] at hanswer
    cases hanswer
    exact ⟨after, rfl, Nat.zero_le _, encode_performAll hok _ (Nat.zero_le _)⟩

end Encoder
end TemporalHorizon

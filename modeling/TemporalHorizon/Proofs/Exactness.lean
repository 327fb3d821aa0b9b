import TemporalHorizon.Proofs.Permanence

/-!
# The range of the words

The encoder keeps atoms, formulas and steps in words, and what does not fit wraps around.  As
long as everything fits, it does what it would do with unbounded numbers.  Every number
that is handed out is counted in the state, and no count ever falls.  So it is enough that
the state in which a computation ends is in range, and a range hypothesis on the last state
of a run covers all states before it.

* `Encoder.InRange`: all numbers that have been handed out are exact.
* `Encoder.Grows`: no count falls.  Every turn of an operation is such a growth.
* `Agrees`: two computations that are the same wherever one of them ends in range.  The
  lemmas of this namespace follow the definitions of the encoder one by one, with a
  computation of any arithmetic on the left and its exact counterpart on the right.
* `Encoder.performAll_eq_exact`: the same for operations one after the other.
-/

namespace TemporalHorizon

/-! ## Encoders in range -/

namespace Encoder

/-- No fewer atoms and formulas are numbered. -/
structure Grows (e after : Encoder) : Prop where
  atoms : e.supply.next ≤ after.supply.next
  formulas : e.store.size ≤ after.store.size

theorem Grows.refl (e : Encoder) : e.Grows e := ⟨Nat.le_refl _, Nat.le_refl _⟩

theorem Grows.trans {a b c : Encoder} (h : a.Grows b) (h' : b.Grows c) : a.Grows c :=
  ⟨Nat.le_trans h.atoms h'.atoms, Nat.le_trans h.formulas h'.formulas⟩

theorem Grows.bind {α β : Type} {x : Encode α} {next : α → Encode β}
    (hx : ∀ e : Encoder, e.Grows (stateAfter x e))
    (hn : ∀ a (e : Encoder), e.Grows (stateAfter (next a) e)) (e : Encoder) :
    e.Grows (stateAfter (x >>= next) e) := by
  have hgrown := hx e
  cases hrun : x e with
  | ok a middle =>
    rw [stateAfter_ok hrun] at hgrown
    rw [stateAfter_bind_ok hrun]
    exact hgrown.trans (hn a middle)
  | error failure middle =>
    rw [stateAfter_error hrun] at hgrown
    rw [stateAfter_error (bind_error hrun)]
    exact hgrown

variable [Arithmetic] {e after : Encoder}

/-- All atoms and formulas that have been numbered are exact. -/
structure InRange (e : Encoder) : Prop where
  atoms : Arithmetic.fitsAtoms e.supply.next = true
  formulas : Arithmetic.fitsNumbers e.store.size = true

instance : DecidablePred InRange := fun _ =>
  decidable_of_iff' _ ⟨fun h => And.intro h.atoms h.formulas, fun h => ⟨h.1, h.2⟩⟩

theorem InRange.of_grows (h : after.InRange) (hg : e.Grows after) : e.InRange :=
  ⟨Arithmetic.fitsAtoms_of_le h.atoms hg.atoms,
    Arithmetic.fitsNumbers_of_le h.formulas hg.formulas⟩

theorem Change.grows {horizon : Nat} (h : Change horizon e after) : e.Grows after := by
  cases h with
  | number f => exact ⟨Nat.le_refl _, (e.store.intern_spec f).grown.size_le⟩
  | supply => exact ⟨Nat.le_succ _, Nat.le_refl _⟩
  | _ => exact ⟨Nat.le_refl _, Nat.le_refl _⟩

theorem Turn.grows (h : Turn e after) : e.Grows after := by
  cases h with
  | change h => exact h.grows
  | numberPath path => exact ⟨Nat.le_refl _, (e.store.internPath_spec path).grown.size_le⟩
  | _ => exact ⟨Nat.le_refl _, Nat.le_refl _⟩

theorem grows_of_turns (h : Relation.ReflTransGen Turn e after) : e.Grows after := by
  induction h with
  | refl => exact .refl e
  | tail _ hturn ih => exact ih.trans hturn.grows

/-- The key of a numbered formula at an exact step is packed exactly. -/
theorem InRange.pack_eq (h : e.InRange) {key : Key} (hf : key.formula.index < e.store.size)
    (hs : Arithmetic.Fits key.step) : key.pack = @Key.pack .exact key :=
  Key.InRange.pack_eq ⟨Arithmetic.fitsNumbers_of_le h.formulas hf, hs⟩

theorem InRange.entry?_eq (h : e.InRange) {key : Key} (hf : key.formula.index < e.store.size)
    (hs : Arithmetic.Fits key.step) :
    e.cache.entry? key = @Cache.entry? .exact e.cache key := by
  unfold Cache.entry?
  rw [h.pack_eq hf hs]

/-- What is done with the cache in which a host literal has been bound to a key, if it could
be. -/
def takeHost (f : Formula) (key : Key) : Option Cache → Encode Unit
  | none => refuse (.lateBinding f key.step)
  | some cache => do
    modify fun encoder => { encoder with cache := cache }
    if f.isAtom then
      let lit ← groundAtom f key.step
      let _ ← share key lit
    else pure ()

theorem bind_eq_takeHost (f : Formula) (s : Nat) (host : Lit) :
    bind f s host = (do
      let key ← keyOf f s
      checkHost host
      takeHost f key ((← get).cache.bind? key host)) := rfl

end Encoder

/-! ## Computations that agree in range -/

/-- Two computations that are the same wherever one of them ends in range, if `n` formulas
have been numbered before. -/
structure Agrees [Arithmetic] {α : Type} (n : Nat) (x x' : Encode α) : Prop where
  grows : ∀ e : Encoder, e.Grows (stateAfter x e)
  grows_exact : ∀ e : Encoder, e.Grows (stateAfter x' e)
  agree : ∀ e : Encoder, n ≤ e.store.size →
    (stateAfter x e).InRange ∨ (stateAfter x' e).InRange → x e = x' e

variable [Arithmetic]

namespace Agrees

variable {α β : Type} {n m : Nat} {x x' : Encode α}

open Encoder (Turn Change)

theorem mono (h : Agrees n x x') (hle : n ≤ m) : Agrees m x x' :=
  ⟨h.grows, h.grows_exact, fun e he => h.agree e (Nat.le_trans hle he)⟩

theorem of_changes (hx : Along (Change 0) x) (hx' : Along (@Change .exact 0) x')
    (h : ∀ e : Encoder, n ≤ e.store.size →
      (stateAfter x e).InRange ∨ (stateAfter x' e).InRange → x e = x' e) : Agrees n x x' :=
  ⟨fun e => Encoder.grows_of_turns (hx.turn 0 e),
    fun e => @Encoder.grows_of_turns .exact _ _ (@Along.turn .exact _ 0 _ hx' e), h⟩

/-- It is enough that the computations are the same from a state in range. -/
theorem of_start (hx : Along (Change 0) x) (hx' : Along (@Change .exact 0) x')
    (h : ∀ e : Encoder, n ≤ e.store.size → e.InRange → x e = x' e) : Agrees n x x' := by
  refine of_changes hx hx' fun e he hrange => h e he ?_
  have hgrown : e.Grows (stateAfter x e) := Encoder.grows_of_turns (hx.turn 0 e)
  have hgrown' : e.Grows (stateAfter x' e) :=
    @Encoder.grows_of_turns .exact _ _ (@Along.turn .exact _ 0 _ hx' e)
  exact hrange.elim (·.of_grows hgrown) (·.of_grows hgrown')

/-- A computation that does not depend on the arithmetic. -/
theorem of_grows (h : ∀ e : Encoder, e.Grows (stateAfter x e)) : Agrees n x x :=
  ⟨h, h, fun _ _ _ => rfl⟩

theorem same (h : Along Turn x) : Agrees n x x := of_grows fun e => Encoder.grows_of_turns (h e)

theorem same_change (h : Along (Change 0) x) : Agrees n x x := same (h.turn 0)

theorem pure (a : α) : Agrees n (pure a) (pure a) := same (.pure a)

/-- What follows can only grow, so what comes first ends in range as well. -/
theorem inRange_of_bind {next : α → Encode β}
    (hn : ∀ a (e : Encoder), e.Grows (stateAfter (next a) e)) {e : Encoder}
    (h : (stateAfter (x >>= next) e).InRange) : (stateAfter x e).InRange := by
  cases hrun : x e with
  | ok a middle =>
    rw [stateAfter_ok hrun]
    rw [stateAfter_bind_ok hrun] at h
    exact h.of_grows (hn a middle)
  | error failure middle =>
    rw [stateAfter_error (bind_error hrun)] at h
    rwa [stateAfter_error hrun]

theorem bind {next next' : α → Encode β} (hx : Agrees n x x')
    (hn : ∀ a, Agrees n (next a) (next' a)) : Agrees n (x >>= next) (x' >>= next') := by
  refine ⟨Encoder.Grows.bind hx.grows fun a => (hn a).grows,
    Encoder.Grows.bind hx.grows_exact fun a => (hn a).grows_exact, fun e he hrange => ?_⟩
  have hfirst : x e = x' e := hx.agree e he (hrange.imp (inRange_of_bind fun a => (hn a).grows)
    (inRange_of_bind fun a => (hn a).grows_exact))
  cases hrun : x e with
  | ok a middle =>
    have hrun' : x' e = .ok a middle := hfirst ▸ hrun
    have hgrown : e.Grows middle := stateAfter_ok hrun ▸ hx.grows e
    rw [stateAfter_bind_ok hrun, stateAfter_bind_ok hrun'] at hrange
    rw [bind_ok hrun, bind_ok hrun']
    exact (hn a).agree middle (Nat.le_trans he hgrown.formulas) hrange
  | error failure middle =>
    rw [bind_error hrun, bind_error (hfirst ▸ hrun)]

theorem map (g : α → β) (h : Agrees n x x') : Agrees n (g <$> x) (g <$> x') :=
  h.bind fun _ => .pure _

theorem forM {xs : List α} {action action' : α → Encode PUnit}
    (h : ∀ x ∈ xs, Agrees n (action x) (action' x)) :
    Agrees n (xs.forM action) (xs.forM action') := by
  induction xs with
  | nil => exact pure _
  | cons x xs ih =>
    exact bind (h x List.mem_cons_self) fun _ => ih fun y hy => h y (List.mem_cons_of_mem x hy)

/-- What is read off a state in range may depend on the arithmetic. -/
theorem get_bind {γ : Type} {read read' : Encoder → γ} {next next' : γ → Encode β}
    (hread : ∀ e : Encoder, n ≤ e.store.size → e.InRange → read e = read' e)
    (hn : ∀ c, Agrees n (next c) (next' c)) :
    Agrees n (get >>= fun e => next (read e)) (get >>= fun e => next' (read' e)) := by
  refine ⟨fun e => (hn (read e)).grows e, fun e => (hn (read' e)).grows_exact e,
    fun e he hrange => ?_⟩
  have hstart : e.InRange := hrange.elim (·.of_grows ((hn (read e)).grows e))
    (·.of_grows ((hn (read' e)).grows_exact e))
  have hsame := hread e he hstart
  show next (read e) e = next' (read' e) e
  rw [← hsame]
  refine (hn (read e)).agree e he (hrange.imp id fun h => ?_)
  rw [hsame]
  exact h

/-- The key of a formula has a number that has been handed out. -/
theorem keyOf_bind {f : Formula} {s : Nat} {next next' : Key → Encode β}
    (hn : ∀ id : FormulaId, Agrees (id.index + 1) (next ⟨id, s⟩) (next' ⟨id, s⟩)) :
    Agrees n (Encoder.keyOf f s >>= next) (Encoder.keyOf f s >>= next') := by
  have hgrows : ∀ e : Encoder, e.Grows (stateAfter (Encoder.keyOf f s) e) := fun e =>
    Encoder.grows_of_turns ((Along.keyOf f s).turn 0 e)
  refine ⟨fun e => ?_, fun e => ?_, fun e _ hrange => ?_⟩
  · exact (hgrows e).trans ((hn (e.store.intern f).1).grows (e.numbered f))
  · exact (hgrows e).trans ((hn (e.store.intern f).1).grows_exact (e.numbered f))
  · exact (hn (e.store.intern f).1).agree (e.numbered f)
      (Store.idOf?_lt (e.store.intern_spec f).number) hrange

/-- A step that the window does not show is refused. -/
theorem checkStep_bind {window : Window} {s : Nat} {next next' : Unit → Encode β}
    (h : s ≤ window.horizon → Agrees n (next ()) (next' ())) :
    Agrees n (Encoder.checkStep window s >>= next) (Encoder.checkStep window s >>= next') := by
  rcases Nat.lt_or_ge window.horizon s with hlt | hle
  · rw [Encoder.checkStep_of_lt hlt]
    exact ⟨fun e => .refl e, fun e => .refl e, fun _ _ _ => rfl⟩
  · rw [Encoder.checkStep_of_le hle]
    exact h hle

/-! ## Atoms and representatives -/

theorem emit (rule : Rule) : Agrees n (Encoder.emit rule) (Encoder.emit rule) :=
  same_change (.emit rule)

theorem emitAll (rules : List Rule) : Agrees n (Encoder.emitAll rules) (Encoder.emitAll rules) :=
  same_change (.emitAll rules)

/-- The literal of an atom is exact if the next atom is. -/
theorem fresh_eq {supply : Supply} (h : Arithmetic.fitsAtoms supply.fresh.2.next = true) :
    supply.fresh = @Supply.fresh .exact supply :=
  congrArg (·, _) (Arithmetic.literal_eq h (Nat.lt_succ_self _))

theorem fresh : Agrees n Encoder.fresh (@Encoder.fresh .exact) := by
  refine of_changes .fresh (@Along.fresh .exact _) fun e _ hrange => ?_
  have hfresh : e.supply.fresh = @Supply.fresh .exact e.supply :=
    fresh_eq (hrange.elim (·.atoms) (·.atoms))
  show EStateM.Result.ok e.supply.fresh.1 { e with supply := e.supply.fresh.2 } = _
  rw [hfresh]
  rfl

section Keys

variable {key : Key}

theorem lookup (key : Key) (hs : Arithmetic.Fits key.step) :
    Agrees (key.formula.index + 1) (Encoder.lookup key) (@Encoder.lookup .exact key) := by
  refine of_start (.lookup key) (@Along.lookup .exact _ key) fun e he hrange => ?_
  have hlookup : e.cache.lookup key = @Cache.lookup .exact e.cache key := by
    simp only [Cache.lookup, hrange.entry?_eq he hs]
  show EStateM.Result.ok (e.cache.lookup key).1 { e with cache := (e.cache.lookup key).2 } = _
  rw [hlookup]
  rfl

theorem getOrCreate (hs : Arithmetic.Fits key.step) :
    Agrees (key.formula.index + 1) (Encoder.getOrCreate key)
      (@Encoder.getOrCreate .exact key) := by
  have hgrows : Along (Change 0) (Encoder.getOrCreate key) := .getOrCreate key
  have hgrows' : Along (@Change .exact 0) (@Encoder.getOrCreate .exact key) :=
    @Along.getOrCreate .exact _ key
  refine of_changes hgrows hgrows' fun e he hrange => ?_
  have hstart : e.InRange := hrange.elim
    (·.of_grows (Encoder.grows_of_turns (hgrows.turn 0 e)))
    (·.of_grows (@Encoder.grows_of_turns .exact _ _ (@Along.turn .exact _ 0 _ hgrows' e)))
  have hatoms : Arithmetic.fitsAtoms (e.cache.getOrCreate key e.supply).2.2.next = true ∨
      Arithmetic.fitsAtoms (@Cache.getOrCreate .exact e.cache key e.supply).2.2.next = true :=
    hrange.imp (·.atoms) (·.atoms)
  have hanswer : e.cache.getOrCreate key e.supply =
      @Cache.getOrCreate .exact e.cache key e.supply := by
    unfold Cache.getOrCreate Cache.lookup Cache.entry? Cache.binding? Cache.write at hatoms ⊢
    rw [hstart.pack_eq he hs] at hatoms ⊢
    cases hentry : e.cache.entries.get? (@Key.pack .exact key) with
    | some lit => rfl
    | none =>
      cases hbinding : e.cache.bindings.get? (@Key.pack .exact key) with
      | some host => simp only [hbinding]
      | none =>
        simp only [hentry, hbinding] at hatoms ⊢
        rw [fresh_eq (hatoms.elim id id)]
  show EStateM.Result.ok (e.cache.getOrCreate key e.supply).1
    { e with
      cache := (e.cache.getOrCreate key e.supply).2.1
      supply := (e.cache.getOrCreate key e.supply).2.2 } = _
  rw [hanswer]
  rfl

theorem share (hs : Arithmetic.Fits key.step) (lit : Lit) :
    Agrees (key.formula.index + 1) (Encoder.share key lit) (@Encoder.share .exact key lit) := by
  refine of_start (.share key lit) (@Along.share .exact _ key lit) fun e he hrange => ?_
  have hshare : e.cache.share key lit = @Cache.share .exact e.cache key lit := by
    unfold Cache.share Cache.entry? Cache.binding? Cache.write
    rw [hrange.pack_eq he hs]
  unfold Encoder.share
  rw [bind_ok (Encoder.get_ok e), bind_ok (Encoder.get_ok e), hshare]

theorem define (hs : Arithmetic.Fits key.step) :
    Agrees (key.formula.index + 1) (Encoder.define key) (@Encoder.define .exact key) :=
  bind (getOrCreate hs) fun _ => bind (same_change (.checkNew _ _)) fun _ =>
    bind (emit _) fun _ => pure _

end Keys

theorem enterGround (key : Key) (lit : Lit) :
    Agrees n (Encoder.enterGround key lit) (Encoder.enterGround key lit) := by
  refine of_grows fun e => ?_
  unfold Encoder.enterGround stateAfter
  rw [bind_ok (Encoder.get_ok e)]
  cases e.ground.insert key lit <;> exact ⟨Nat.le_refl _, Nat.le_refl _⟩

theorem groundAtom (f : Formula) (s : Nat) :
    Agrees n (Encoder.groundAtom f s) (@Encoder.groundAtom .exact f s) := by
  refine bind (same_change (.keyOf f s)) fun key => bind (same .get) fun e => ?_
  split
  · exact pure _
  · exact bind fresh fun lit => bind (enterGround _ _) fun _ =>
      bind (same_change (.excludeOpposite _ _ _)) fun _ => pure _

/-! ## Answers -/

section Answers

variable {rec rec' : Encoder.Encoding} {window : Window}

/-- Requests agree in windows in range. -/
def Encoding (rec rec' : Encoder.Encoding) : Prop :=
  ∀ window f s, window.InRange → Agrees 0 (rec window f s) (rec' window f s)

theorem Encoding.ask (h : Encoding rec rec') (hw : window.InRange) (f : Formula) (s : Nat) :
    Agrees n (rec window f s) (rec' window f s) :=
  (h window f s hw).mono (Nat.zero_le n)

theorem encodeAdjacent (h : Encoding rec rec') (hw : window.InRange) (f : Formula) (op : Fixpoint)
    {s : Nat} (hs : s ≤ window.horizon) :
    Agrees n (Encoder.encodeAdjacent rec window f op s)
      (@Encoder.encodeAdjacent .exact rec' window f op s) := by
  unfold Encoder.encodeAdjacent
  rw [Window.shift_eq hw hs, @Window.shift_eq .exact _ (Window.inRange window) _ hs]
  split
  · exact map _ (h.ask hw _ _)
  · split
    · exact map _ (h.ask hw _ _)
    · exact pure _

theorem encodeFixpoint (h : Encoding rec rec') (hw : window.InRange) (f : Formula) {key : Key}
    (hs : key.step ≤ window.horizon) (op : Fixpoint) (lhs : Option Formula) (rhs : Formula) :
    Agrees (key.formula.index + 1) (Encoder.encodeFixpoint rec window f key op lhs rhs)
      (@Encoder.encodeFixpoint .exact rec' window f key op lhs rhs) := by
  have hfits := hw.fits hs
  refine bind (h.ask hw _ _) fun right => bind (encodeAdjacent h hw f op hs) fun adjacent => ?_
  split
  · exact share hfits _
  · refine bind ?_ fun left => bind (define hfits) fun x => bind (emitAll _) fun _ => pure _
    cases lhs with
    | none => exact pure _
    | some lhs => exact h.ask hw _ _

theorem encodeNew (h : Encoding rec rec') (hw : window.InRange) (f : Formula) (key : Key)
    (hs : key.step ≤ window.horizon) :
    Agrees (key.formula.index + 1) (Encoder.encodeNew rec window f key)
      (@Encoder.encodeNew .exact rec' window f key) := by
  have hfits := hw.fits hs
  unfold Encoder.encodeNew
  dsimp only
  rw [Window.shift_eq hw hs, Window.shift_eq hw hs,
    @Window.shift_eq .exact _ (Window.inRange window) _ hs,
    @Window.shift_eq .exact _ (Window.inRange window) _ hs]
  split
  · exact groundAtom _ _
  · exact share hfits _
  · exact share hfits _
  · split
    · exact share hfits _
    · split
      · exact share hfits _
      · exact bind (h.ask (hw.withStage .always) _ _) fun _ => share hfits _
  · exact bind (h.ask hw _ _) fun _ => share hfits _
  · exact bind (h.ask hw _ _) fun _ => bind (h.ask hw _ _) fun _ => bind (define hfits) fun _ =>
      bind (emitAll _) fun _ => pure _
  · split
    · exact bind (h.ask hw _ _) fun _ => share hfits _
    · exact share hfits _
  · refine bind (same_change (.checkAhead _ _)) fun _ => ?_
    split
    · exact bind (h.ask hw _ _) fun _ => share hfits _
    · exact bind (getOrCreate hfits) fun _ => bind (same (.modify fun _ => .rearrange _)) fun _ =>
        pure _
    · exact share hfits _
    · exact share hfits _
  · exact bind (h.ask hw _ _) fun _ => share hfits _
  · exact encodeFixpoint h hw _ hs _ _ _
  · exact encodeFixpoint h hw _ hs _ _ _
  · exact bind (same_change (.checkPath _ _)) fun _ => bind (h.ask hw _ _) fun _ => share hfits _

theorem encodeStep (h : Encoding rec rec') (hw : window.InRange) (f : Formula) (s : Nat) :
    Agrees n (Encoder.encodeStep rec window f s) (@Encoder.encodeStep .exact rec' window f s) := by
  refine checkStep_bind fun hs => ?_
  split
  · exact groundAtom _ _
  · refine keyOf_bind fun id => bind (lookup ⟨id, s⟩ (hw.fits hs)) fun lit => ?_
    split
    · exact pure _
    · exact encodeNew h hw f ⟨id, s⟩ hs

theorem encodeWithin (depth : Nat) :
    Encoding (Encoder.encodeWithin depth) (@Encoder.encodeWithin .exact depth) := by
  induction depth with
  | zero => exact fun window f s _ => same_change (.collapse _)
  | succ depth ih => exact fun window f s hw => encodeStep ih hw f s

theorem encode (hw : window.InRange) (f : Formula) (s : Nat) :
    Agrees n (Encoder.encode window f s) (@Encoder.encode .exact window f s) :=
  bind (same_change (.register f)) fun _ => (encodeWithin _).ask hw f s

theorem encodeHasNext (hw : window.InRange) (s : Nat) :
    Agrees n (Encoder.encodeHasNext window s) (@Encoder.encodeHasNext .exact window s) :=
  encode (hw.withStage .always) _ s

end Answers

/-! ## Requirements -/

section Requirements

variable {rec rec' : Encoder.Requiring} {window : Window}

/-- Requirements agree in windows in range. -/
def Requiring (rec rec' : Encoder.Requiring) : Prop :=
  ∀ window f s guard, window.InRange → Agrees 0 (rec window f s guard) (rec' window f s guard)

theorem Requiring.ask (h : Requiring rec rec') (hw : window.InRange) (f : Formula) (s : Nat)
    (guard : List Lit) : Agrees n (rec window f s guard) (rec' window f s guard) :=
  (h window f s guard hw).mono (Nat.zero_le n)

theorem sortDisjuncts (hw : window.InRange) (s : Nat) (fs : List Formula) (head : List Nat)
    (body : List Lit) :
    Agrees n (Encoder.sortDisjuncts window s fs head body)
      (@Encoder.sortDisjuncts .exact window s fs head body) := by
  induction fs generalizing head body with
  | nil => exact pure _
  | cons f rest ih =>
    cases f with
    | atom name args positive => exact bind (groundAtom _ _) fun _ => ih _ _
    | bool value =>
      cases value with
      | true => exact pure _
      | false => exact ih _ _
    | _ => exact bind (encode hw _ _) fun _ => ih _ _

theorem requireDisjunction (hw : window.InRange) (f : Formula) (s : Nat) (guard : List Lit) :
    Agrees n (Encoder.requireDisjunction window f s guard)
      (@Encoder.requireDisjunction .exact window f s guard) := by
  refine bind (sortDisjuncts hw _ _ _ _) fun sorted => ?_
  split
  · exact emit _
  · exact pure _

theorem instanceWitness (h : Requiring rec rec') (hw : window.InRange) (inst : Instance)
    (guard : List Lit) (s : Nat) :
    Agrees n (Encoder.instanceWitness rec window inst guard s)
      (@Encoder.instanceWitness .exact rec' window inst guard s) := by
  unfold Encoder.instanceWitness
  split
  · refine bind ?_ fun _ => bind (encodeHasNext hw _) fun _ => bind (h.ask hw _ _ _) fun _ =>
      encode hw _ _
    unfold Encoder.requireOperands
    split
    · exact h.ask hw _ _ _
    · exact pure _
  · refine bind (h.ask hw _ _ _) fun _ => ?_
    split
    · exact encode hw _ _
    · exact pure _

theorem advance (h : Requiring rec rec') (hw : window.InRange) (inst : Instance) (s : Nat) :
    Agrees n (Encoder.advance rec window inst s) (@Encoder.advance .exact rec' window inst s) := by
  refine bind (instanceWitness h hw _ _ _) fun witness => bind fresh fun carrier => bind ?_ fun _ =>
    bind (emit _) fun _ => bind (same_change (.modify fun _ => .carry _)) fun _ => pure _
  unfold Encoder.carryOn
  split
  · exact emit _
  · exact pure _

theorem advanceThrough (h : Requiring rec rec') (hw : window.InRange) (count s : Nat)
    (inst : Instance) :
    Agrees n (Encoder.advanceThrough rec window count s inst)
      (@Encoder.advanceThrough .exact rec' window count s inst) := by
  induction count generalizing s inst with
  | zero => exact pure _
  | succ count ih => exact bind (advance h hw _ _) fun _ => ih _ _

theorem startInstance (h : Requiring rec rec') (hw : window.InRange) (inst : Instance) :
    Agrees n (Encoder.startInstance rec window inst)
      (@Encoder.startInstance .exact rec' window inst) :=
  bind (advanceThrough h hw _ _ _) fun _ => same_change (.modify fun _ => .unroll _)

theorem requireNext (h : Requiring rec rec') (hw : window.InRange) (f arg : Formula) (weak : Bool)
    {s : Nat} (hs : s ≤ window.horizon) (guard : List Lit) :
    Agrees n (Encoder.requireNext rec window f arg weak s guard)
      (@Encoder.requireNext .exact rec' window f arg weak s guard) := by
  unfold Encoder.requireNext
  rw [Window.shift_eq hw hs, @Window.shift_eq .exact _ (Window.inRange window) _ hs]
  refine bind (same_change (.checkAhead _ _)) fun _ => ?_
  split
  · exact h.ask hw _ _ _
  · have hdefer : ∀ d, Agrees n (Encoder.defer d) (Encoder.defer d) := fun d =>
      same (.modify fun _ => .rearrange _)
    split
    · exact hdefer _
    · exact bind (bind (encodeHasNext hw _) fun _ => emit _) fun _ => hdefer _
  · split
    · exact pure _
    · exact emit _
  · split
    · exact pure _
    · exact emit _

theorem requireNew (h : Requiring rec rec') (hw : window.InRange) (f : Formula) {s : Nat}
    (hs : s ≤ window.horizon) (guard : List Lit) :
    Agrees n (Encoder.requireNew rec window f s guard)
      (@Encoder.requireNew .exact rec' window f s guard) := by
  unfold Encoder.requireNew
  split
  · exact bind (groundAtom _ _) fun _ => emit _
  · exact pure _
  · exact emit _
  · exact bind (h.ask hw _ _ _) fun _ => h.ask hw _ _ _
  · exact requireDisjunction hw _ _ _
  · exact bind (encode hw _ _) fun _ => h.ask hw _ _ _
  · exact bind (encode hw _ _) fun _ => h.ask hw _ _ _
  · exact bind (encode hw _ _) fun _ => emit _
  · exact requireNext h hw _ _ _ hs _
  · exact bind (h.ask hw _ _ _) fun _ => h.ask hw _ _ _
  · exact startInstance h hw _
  · exact startInstance h hw _
  · exact startInstance h hw _
  all_goals exact bind (encode hw _ _) fun _ => emit _

theorem requireStep (h : Requiring rec rec') (hw : window.InRange) (f : Formula) (s : Nat)
    (guard : List Lit) :
    Agrees n (Encoder.requireStep rec window f s guard)
      (@Encoder.requireStep .exact rec' window f s guard) := by
  refine checkStep_bind fun hs => ?_
  split
  · exact pure _
  · refine bind (same_change (.keyOf f s)) fun key => bind (same .get) fun e => ?_
    split
    · exact pure _
    · exact bind (same_change (.modify fun _ => .demand _ _)) fun _ => requireNew h hw f hs _

theorem requireWithin (depth : Nat) :
    Requiring (Encoder.requireWithin depth) (@Encoder.requireWithin .exact depth) := by
  induction depth with
  | zero => exact fun window f s guard _ => same_change (.collapse _)
  | succ depth ih => exact fun window f s guard hw => requireStep ih hw f s guard

theorem require : Requiring Encoder.require (@Encoder.require .exact) := fun _ f s guard hw =>
  bind (same_change (.register f)) fun _ => (requireWithin _).ask hw f s guard

end Requirements

/-! ## The edge -/

section Edge

variable {window : Window}

theorem tieBoundaries (hw : window.InRange) (s : Nat) (due : List Boundary) :
    Agrees n (Encoder.tieBoundaries window s due) (@Encoder.tieBoundaries .exact window s due) := by
  induction due with
  | nil => exact pure _
  | cons boundary due ih =>
    exact bind (encode hw _ _) fun _ => bind (emit _) fun _ => bind ih fun _ => pure _

theorem resolveBoundaries (hw : window.InRange) (s : Nat) :
    Agrees n (Encoder.resolveBoundaries window s) (@Encoder.resolveBoundaries .exact window s) :=
  bind (same (.modifyGet fun _ => .rearrange _)) fun _ => tieBoundaries hw s _

theorem runDeferred (hw : window.InRange) (s : Nat) :
    Agrees n (Encoder.runDeferred window s) (@Encoder.runDeferred .exact window s) :=
  bind (same (.modifyGet fun _ => .rearrange _)) fun _ => forM fun _ _ => require.ask hw _ _ _

theorem advanceInstance (hw : window.InRange) (s number : Nat) :
    Agrees n (Encoder.advanceInstance window s number)
      (@Encoder.advanceInstance .exact window s number) := by
  refine bind (same .get) fun e => ?_
  split
  · exact pure _
  · split
    · exact bind (advance require hw _ _) fun _ => same_change (.modify fun _ => .unroll _)
    · exact pure _

theorem advanceInstances (hw : window.InRange) (s : Nat) :
    Agrees n (Encoder.advanceInstances window s) (@Encoder.advanceInstances .exact window s) :=
  bind (same .get) fun _ => forM fun _ _ => advanceInstance hw _ _

end Edge

/-! ## From outside -/

theorem takeHost (f : Formula) (key : Key) (hs : Arithmetic.Fits key.step)
    (cache : Option Cache) :
    Agrees (key.formula.index + 1) (Encoder.takeHost f key cache)
      (@Encoder.takeHost .exact f key cache) := by
  cases cache with
  | none => exact same_change (.refuse _)
  | some cache =>
    have hmodify : ∀ e : Encoder, e.Grows { e with cache := cache } := fun _ =>
      ⟨Nat.le_refl _, Nat.le_refl _⟩
    refine bind ⟨hmodify, hmodify, fun _ _ _ => rfl⟩ fun _ => ?_
    split
    · exact bind (groundAtom f _) fun lit => bind (share hs lit) fun _ => pure _
    · exact pure _

theorem bindHost (f : Formula) {s : Nat} (hs : Arithmetic.Fits s) (host : Lit) :
    Agrees n (Encoder.bind f s host) (@Encoder.bind .exact f s host) := by
  have hcheck : Along (Change 0) (Encoder.checkHost host) := by
    unfold Encoder.checkHost
    split
    · exact .refuse _
    · exact .pure _
  rw [Encoder.bind_eq_takeHost, @Encoder.bind_eq_takeHost .exact]
  refine keyOf_bind fun id => bind (same_change hcheck) fun _ => get_bind (fun e he hrange => ?_)
    (takeHost f ⟨id, s⟩ hs)
  have hpack : (Key.mk id s).pack = @Key.pack .exact ⟨id, s⟩ := hrange.pack_eq he hs
  unfold Cache.bind? Cache.entry? Cache.binding?
  rw [hpack]

end Agrees

namespace Encoder

omit [Arithmetic] in
/-- Without words all operations have exact steps. -/
theorem Operation.inRange_exact (operation : Operation) : @InRange .exact operation := by
  cases operation with
  | number _ | numberPath _ | fresh | takeRules | close => exact trivial
  | bind _ _ _ | encode _ _ _ | require _ _ _ _ | resolveBoundaries _ _ | runDeferred _ _
  | advanceInstances _ _ => exact rfl

/-- An operation with exact steps does what it does without words. -/
theorem Operation.agrees {operation : Operation} (h : operation.InRange) :
    Agrees 0 operation.run (@Operation.run .exact operation) := by
  cases operation with
  | number f => exact .map _ (.same_change (.register f))
  | numberPath path => exact .same (.modify fun _ => .numberPath path)
  | fresh => exact .map _ .fresh
  | takeRules => exact .map _ (.same .takeRules)
  | bind f s host => exact .bindHost f h host
  | encode window f s => exact .map _ (.encode h f s)
  | require window f s guard => exact Agrees.require.ask h f s guard
  | resolveBoundaries window s => exact .map _ (.resolveBoundaries h s)
  | runDeferred window s => exact .runDeferred h s
  | advanceInstances window s => exact .advanceInstances h s
  | close => exact .map _ (.same .close)

theorem performAll_nil (e : Encoder) : e.performAll [] = e := rfl

theorem performAll_cons (e : Encoder) (operation : Operation) (operations : List Operation) :
    e.performAll (operation :: operations) =
      (stateAfter operation.run e).performAll operations := rfl

theorem grows_performAll (e : Encoder) (operations : List Operation) :
    e.Grows (e.performAll operations) :=
  grows_of_turns (e.turns_performAll operations)

/-- **In range, words do not show.**  Operations with exact steps, some of which may fail, lead
to the same state as without words if that state is in range. -/
theorem performAll_eq_exact {e : Encoder} {operations : List Operation}
    (hoperations : ∀ operation ∈ operations, operation.InRange)
    (hrange : (e.performAll operations).InRange) :
    e.performAll operations = @performAll .exact e operations := by
  induction operations generalizing e with
  | nil => rw [performAll_nil, @performAll_nil .exact]
  | cons operation rest ih =>
    rw [performAll_cons] at hrange
    have hrest := ih (fun other hother => hoperations other (List.mem_cons_of_mem _ hother)) hrange
    have hfirst : (stateAfter operation.run e).InRange :=
      hrange.of_grows (grows_performAll _ rest)
    have hrun := (Operation.agrees (hoperations operation List.mem_cons_self)).agree e
      (Nat.zero_le _) (.inl hfirst)
    rw [performAll_cons, @performAll_cons .exact, hrest, stateAfter_congr hrun]

/-- The same with one more computation, of which it is known that it ends in range. -/
theorem run_eq_exact {α : Type} {e : Encoder} {operations : List Operation}
    (hoperations : ∀ operation ∈ operations, operation.InRange) {x x' : Encode α}
    (h : Agrees 0 x x') (hrange : (stateAfter x (e.performAll operations)).InRange) :
    e.performAll operations = @performAll .exact e operations ∧
      x (e.performAll operations) = x' (e.performAll operations) :=
  ⟨performAll_eq_exact hoperations (hrange.of_grows (h.grows _)),
    h.agree _ (Nat.zero_le _) (.inl hrange)⟩

end Encoder
end TemporalHorizon

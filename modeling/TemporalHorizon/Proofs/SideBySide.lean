import TemporalHorizon.Proofs.Repetition

/-!
# Two encoders side by side

Two encoders that have been asked for different things can say the same: give the same
literals to the same formulas at the same steps, hold the same rules in the same order and
hand out the same atom next.  Their numbers for formulas and their lists of requirements may
differ.  If both are then asked for the same thing, they answer the same and say the same
again.  This module shows it for two encoders of which the first has some requirements on
its list that the second has not, and some postponed ones at the end.

* `Ledger.plus`: the ledger of the first encoder, in terms of that of the second.
* `Encoder.Abreast`: the relation between the two.  It also says that the second has no
  instances and no carriers, and that its requirements are on formulas of one kind only.
* `Encoder.InStep`: two computations that keep two encoders abreast and return the same,
  if both succeed.  The lemmas of this namespace follow the definitions of the encoder.
* `Encoder.InStep.encode`: requests for literals keep in step.
* `Encoder.InStep.require`: so do requirements, if the formulas of the kind are closed under
  being passed on and start no instances (`Encoder.Passing`), the requirements that only the
  first encoder has are not of the kind, and it has postponed nothing more.
-/

namespace TemporalHorizon

attribute [local instance] Arithmetic.exact

namespace Ledger

/-- The ledger with more requirements on its list, and more postponed ones. -/
def plus (ledger : Ledger) (own : Formula → Nat → List Lit → Prop) (tail : List Deferred) :
    Ledger :=
  { ledger with
    edge := { ledger.edge with deferred := ledger.edge.deferred ++ tail }
    required := fun f s guard => ledger.required f s guard ∨ own f s guard }

/-- Nothing is unrolled by instances, and all requirements are on formulas of one kind. -/
structure Confined (kind : Formula → Prop) (ledger : Ledger) : Prop where
  carriers : ledger.carriers = []
  instances : ledger.edge.instances = []
  deferred : ∀ d ∈ ledger.edge.deferred, kind d.formula
  required : ∀ f s guard, ledger.required f s guard → kind f

end Ledger

namespace Encoder

variable {α β : Type}

theorem Does.of_ok {x : Encode α} {e after : Encoder} {post : α → Encoder → Prop} {v : α}
    (h : Does x e post) (hok : x e = .ok v after) : post v after := by
  unfold Does at h
  rw [hok] at h
  exact h

/-! ## Checks -/

/-- A computation only checks: if it succeeds, it has changed nothing. -/
def Checks (x : Encode Unit) : Prop := ∀ e v after, x e = .ok v after → after = e

theorem Checks.pure : Checks (pure ()) := by
  intro e v after hok
  cases hok
  rfl

theorem Checks.refuse (cause : Violation) : Checks (refuse cause) := by
  intro e v after hok
  cases hok

theorem Checks.step (window : Window) (step : Nat) : Checks (checkStep window step) := by
  unfold checkStep
  split
  · exact pure
  · exact refuse _

theorem Checks.ahead (window : Window) (f : Formula) : Checks (checkAhead window f) := by
  unfold checkAhead
  split
  · exact pure
  · exact refuse _

theorem Checks.path (f : Formula) (path : Path) : Checks (checkPath f path) := by
  unfold checkPath
  split
  · exact pure
  · exact refuse _

/-! ## Two computations that succeed -/

/-- If both computations succeed, the two outcomes are related. -/
def Paired (x : Encode α) (a : Encoder) (y : Encode β) (b : Encoder)
    (post : α → Encoder → β → Encoder → Prop) : Prop :=
  ∀ v a' w b', x a = .ok v a' → y b = .ok w b' → post v a' w b'

namespace Paired

variable {a b : Encoder} {x : Encode α} {y : Encode β} {γ δ : Type}

theorem of_does {P : α → Encoder → Prop} {Q : β → Encoder → Prop}
    {post : α → Encoder → β → Encoder → Prop} (hx : Does x a P) (hy : Does y b Q)
    (h : ∀ v a' w b', P v a' → Q w b' → post v a' w b') : Paired x a y b post :=
  fun v a' w b' hok hok' => h v a' w b' (hx.of_ok hok) (hy.of_ok hok')

theorem bind {next : α → Encode γ} {next' : β → Encode δ}
    {middle : α → Encoder → β → Encoder → Prop} {post : γ → Encoder → δ → Encoder → Prop}
    (h : Paired x a y b middle)
    (hn : ∀ v a' w b', middle v a' w b' → Paired (next v) a' (next' w) b' post) :
    Paired (x >>= next) a (y >>= next') b post := by
  intro v a' w b' hok hok'
  obtain ⟨v', a₁, hx, hok⟩ := exists_of_bind_ok hok
  obtain ⟨w', b₁, hy, hok'⟩ := exists_of_bind_ok hok'
  exact hn v' a₁ w' b₁ (h v' a₁ w' b₁ hx hy) v a' w b' hok hok'

end Paired

/-! ## Encoders that say the same -/

/-- Two encoders say the same, except that the first has requirements of its own on its list
and a tail of postponed ones. -/
structure Abreast (kind : Formula → Prop) (own : Formula → Nat → List Lit → Prop)
    (tail : List Deferred) (a b : Encoder) : Prop where
  tidy : a.Tidy
  tidy_right : b.Tidy
  ledger_eq : a.ledger [] = (b.ledger []).plus own tail
  confined : (b.ledger []).Confined kind

variable {kind : Formula → Prop} {own : Formula → Nat → List Lit → Prop} {tail : List Deferred}

/-- Two encoders have gone on abreast; formulas have kept their numbers. -/
structure Onward (kind : Formula → Prop) (own : Formula → Nat → List Lit → Prop)
    (tail : List Deferred) (a b a' b' : Encoder) : Prop where
  abreast : Abreast kind own tail a' b'
  grown : a.store.Extends a'.store
  grown_right : b.store.Extends b'.store

/-- Two computations keep two encoders abreast and return the same, if both succeed. -/
def InStep (kind : Formula → Prop) (own : Formula → Nat → List Lit → Prop)
    (tail : List Deferred) (x : Encode α) (a : Encoder) (y : Encode α) (b : Encoder) : Prop :=
  Paired x a y b fun v a' w b' => v = w ∧ Onward kind own tail a b a' b'

theorem Onward.trans {a b a₁ b₁ a₂ b₂ : Encoder} (h : Onward kind own tail a b a₁ b₁)
    (h' : Onward kind own tail a₁ b₁ a₂ b₂) : Onward kind own tail a b a₂ b₂ :=
  ⟨h'.abreast, h.grown.trans h'.grown, h.grown_right.trans h'.grown_right⟩

namespace Abreast

variable {a b : Encoder} (h : Abreast kind own tail a b)

include h

theorem onward : Onward kind own tail a b a b := ⟨h, .refl _, .refl _⟩

/-- Both ledgers are updated in the same way. -/
theorem update (change : Ledger → Ledger) {a' b' : Encoder}
    (ha : Follows [] a a' (change (a.ledger []))) (hb : Follows [] b b' (change (b.ledger [])))
    (hplus : ∀ ledger, change (ledger.plus own tail) = (change ledger).plus own tail)
    (hconfined : ∀ ledger, ledger.Confined kind → (change ledger).Confined kind) :
    Onward kind own tail a b a' b' := by
  refine ⟨⟨ha.tidy, hb.tidy, ?_, ?_⟩, ha.grown, hb.grown⟩
  · rw [ha.ledger_eq, hb.ledger_eq, h.ledger_eq, hplus]
  · rw [hb.ledger_eq]
    exact hconfined _ h.confined

/-- Neither ledger has changed. -/
theorem keep {a' b' : Encoder} (ha : Follows [] a a' (a.ledger []))
    (hb : Follows [] b b' (b.ledger [])) : Onward kind own tail a b a' b' :=
  h.update id ha hb (fun _ => rfl) fun _ h => h

theorem entry_eq : (a.ledger []).entry = (b.ledger []).entry := by
  rw [h.ledger_eq]
  rfl

theorem ground_eq : (a.ledger []).ground = (b.ledger []).ground := by
  rw [h.ledger_eq]
  rfl

end Abreast

/-- What keeps in step later on keeps in step with what came before. -/
theorem Onward.paired {a b a₁ b₁ : Encoder} {x y : Encode α} (h : Onward kind own tail a b a₁ b₁)
    (hx : InStep kind own tail x a₁ y b₁) :
    Paired x a₁ y b₁ fun v a' w b' => v = w ∧ Onward kind own tail a b a' b' := by
  intro v a' w b' hok hok'
  obtain ⟨hsame, h'⟩ := hx v a' w b' hok hok'
  exact ⟨hsame, h.trans h'⟩

namespace InStep

variable {a b : Encoder}

theorem pure (h : Abreast kind own tail a b) (v : α) :
    InStep kind own tail (pure v) a (pure v) b := by
  intro v' a' w b' hok hok'
  cases hok
  cases hok'
  exact ⟨rfl, h.onward⟩

theorem bind {x y : Encode α} {next next' : α → Encode β}
    (hx : InStep kind own tail x a y b)
    (hn : ∀ v a' b', Onward kind own tail a b a' b' →
      InStep kind own tail (next v) a' (next' v) b') :
    InStep kind own tail (x >>= next) a (y >>= next') b := by
  refine Paired.bind hx ?_
  rintro v a₁ _ b₁ ⟨rfl, h₁⟩
  exact h₁.paired (hn v a₁ b₁ h₁)

theorem map {x y : Encode α} (g : α → β) (hx : InStep kind own tail x a y b) :
    InStep kind own tail (g <$> x) a (g <$> y) b :=
  bind hx fun v _ _ h => pure h.abreast (g v)

theorem forM {xs : List α} {action action' : α → Encode PUnit} (h : Abreast kind own tail a b)
    (hstep : ∀ x ∈ xs, ∀ a b, Abreast kind own tail a b →
      InStep kind own tail (action x) a (action' x) b) :
    InStep kind own tail (xs.forM action) a (xs.forM action') b := by
  induction xs generalizing a b with
  | nil => exact pure h _
  | cons x xs ih =>
    exact bind (hstep x List.mem_cons_self a b h) fun _ _ _ h' =>
      ih h'.abreast fun y hy => hstep y (List.mem_cons_of_mem x hy)

/-- What follows a check on both sides. -/
theorem check_bind {x y : Encode Unit} {next next' : Unit → Encode α} (hx : Checks x)
    (hy : Checks y) (hn : InStep kind own tail (next ()) a (next' ()) b) :
    InStep kind own tail (x >>= next) a (y >>= next') b := by
  intro v a' w b' hok hok'
  obtain ⟨_, a₁, hpassed, hok⟩ := exists_of_bind_ok hok
  obtain ⟨_, b₁, hpassed', hok'⟩ := exists_of_bind_ok hok'
  rw [hx _ _ _ hpassed] at hok
  rw [hy _ _ _ hpassed'] at hok'
  exact hn v a' w b' hok hok'

end InStep

/-- Numbering a formula keeps two encoders abreast; the numbers may differ. -/
theorem Paired.register {a b : Encoder} (h : Abreast kind own tail a b) (f : Formula) :
    Paired (register f) a (register f) b fun _ a' _ b' => Onward kind own tail a b a' b' :=
  .of_does (register_does [] h.tidy f) (register_does [] h.tidy_right f)
    fun _ _ _ _ ha hb => h.keep ha.2 hb.2

theorem Paired.keyOf {a b : Encoder} (h : Abreast kind own tail a b) (f : Formula) (s : Nat) :
    Paired (keyOf f s) a (keyOf f s) b fun key a' key' b' =>
      a'.Names key f s ∧ b'.Names key' f s ∧ Onward kind own tail a b a' b' :=
  .of_does (keyOf_does [] h.tidy f s) (keyOf_does [] h.tidy_right f s)
    fun _ _ _ _ ha hb => ⟨ha.1, hb.1, h.keep ha.2 hb.2⟩

namespace InStep

variable {a b : Encoder}

theorem emit (h : Abreast kind own tail a b) (rule : Rule) :
    InStep kind own tail (emit rule) a (emit rule) b :=
  .of_does (emit_does [] h.tidy rule) (emit_does [] h.tidy_right rule) fun _ _ _ _ ha hb =>
    ⟨rfl, h.update (fun ledger => ledger.post [rule]) ha hb (fun _ => rfl) fun _ hc =>
      ⟨hc.carriers, hc.instances, hc.deferred, hc.required⟩⟩

theorem emitAll (h : Abreast kind own tail a b) (rules : List Rule) :
    InStep kind own tail (emitAll rules) a (emitAll rules) b :=
  forM h fun rule _ _ _ h => emit h rule

end InStep

/-! ## Literals -/

section Absent

variable {e after : Encoder} {key : Key} {f : Formula} {s : Nat} {lit l : Lit}

theorem ledger_entry (given : List Rule) (hn : e.Names key f s) :
    (e.ledger given).entry f s = e.cache.entry? key := by
  obtain ⟨rfl, hid⟩ := hn
  exact Sheet.ofTable_eq hid

/-- An atom is defined only where there is no literal yet. -/
theorem absent_of_define (given : List Rule) (hn : e.Names key f s)
    (hok : define key e = .ok l after) : (e.ledger given).entry f s = none := by
  rw [ledger_entry given hn]
  cases hentry : e.cache.entry? key with
  | none => rfl
  | some old =>
    have hfound : getOrCreate key e = .ok (old, false)
        { e with cache := { e.cache with hits := e.cache.hits + 1 } } := by
      show EStateM.Result.ok (e.cache.getOrCreate key e.supply).1 { e with
        cache := (e.cache.getOrCreate key e.supply).2.1
        supply := (e.cache.getOrCreate key e.supply).2.2 } = _
      unfold Cache.getOrCreate Cache.lookup
      rw [hentry]
    unfold define at hok
    rw [bind_ok hfound] at hok
    cases hok

/-- A literal is shared only where there is none yet. -/
theorem absent_of_share (given : List Rule) (hn : e.Names key f s)
    (hok : share key lit e = .ok l after) : (e.ledger given).entry f s = none := by
  rw [ledger_entry given hn]
  cases hentry : e.cache.entry? key with
  | none => rfl
  | some old =>
    unfold share at hok
    rw [bind_ok (get_ok e), Cache.share, hentry] at hok
    cases hok

end Absent

namespace InStep

variable {a b : Encoder} {key key' : Key} {f : Formula} {s : Nat}

theorem lookup (h : Abreast kind own tail a b) (hn : a.Names key f s) (hn' : b.Names key' f s) :
    Paired (lookup key) a (lookup key') b fun lit a' lit' b' =>
      lit = lit' ∧ lit' = (b'.ledger []).entry f s ∧ Onward kind own tail a b a' b' := by
  refine .of_does (lookup_does [] h.tidy hn) (lookup_does [] h.tidy_right hn') ?_
  rintro _ a' _ b' ⟨rfl, ha⟩ ⟨rfl, hb⟩
  rw [h.entry_eq, hb.ledger_eq]
  exact ⟨rfl, rfl, h.keep ha hb⟩

theorem getOrCreate (h : Abreast kind own tail a b) (hn : a.Names key f s)
    (hn' : b.Names key' f s) (hnone : (b.ledger []).entry f s = none) :
    InStep kind own tail (getOrCreate key) a (getOrCreate key') b := by
  have hnone' : (a.ledger []).entry f s = none := h.entry_eq ▸ hnone
  refine .of_does (getOrCreate_does [] h.tidy hn hnone')
    (getOrCreate_does [] h.tidy_right hn' hnone) ?_
  rintro _ a' _ b' ⟨rfl, ha⟩ ⟨rfl, hb⟩
  refine ⟨?_, h.update (fun ledger => ledger.claim f s) ha hb (fun _ => rfl)
    fun _ hc => ⟨hc.carriers, hc.instances, hc.deferred, hc.required⟩⟩
  rw [h.ledger_eq]
  rfl

theorem define (h : Abreast kind own tail a b) (hn : a.Names key f s) (hn' : b.Names key' f s) :
    InStep kind own tail (define key) a (define key') b := by
  intro v a' w b' hok hok'
  obtain ⟨rfl, ha⟩ := (define_does [] h.tidy hn (absent_of_define [] hn hok)).of_ok hok
  obtain ⟨rfl, hb⟩ := (define_does [] h.tidy_right hn' (absent_of_define [] hn' hok')).of_ok hok'
  refine ⟨?_, h.update (fun ledger => (ledger.claim f s).post
    [.choice (ledger.candidate f s).atom]) ha hb (fun _ => rfl)
    fun _ hc => ⟨hc.carriers, hc.instances, hc.deferred, hc.required⟩⟩
  rw [h.ledger_eq]
  rfl

theorem share (h : Abreast kind own tail a b) (hn : a.Names key f s) (hn' : b.Names key' f s)
    (lit : Lit) : InStep kind own tail (share key lit) a (share key' lit) b := by
  intro v a' w b' hok hok'
  obtain ⟨rfl, ha⟩ := (share_does [] h.tidy hn (absent_of_share [] hn hok) lit).of_ok hok
  obtain ⟨rfl, hb⟩ :=
    (share_does [] h.tidy_right hn' (absent_of_share [] hn' hok') lit).of_ok hok'
  refine ⟨?_, h.update (fun ledger => ledger.share f s lit) ha hb (fun _ => rfl)
    fun _ hc => ⟨hc.carriers, hc.instances, hc.deferred, hc.required⟩⟩
  rw [h.ledger_eq]
  rfl

theorem groundAtom (h : Abreast kind own tail a b) (f : Formula) (s : Nat) :
    InStep kind own tail (groundAtom f s) a (groundAtom f s) b := by
  refine .of_does (groundAtom_does [] h.tidy f s) (groundAtom_does [] h.tidy_right f s) ?_
  intro v a' w b' ha hb
  rw [h.ground_eq] at ha
  rcases ha with ⟨hfound, ha⟩ | ⟨hnew, rfl, ha⟩ <;> rcases hb with ⟨hfound', hb⟩ | ⟨hnew', rfl, hb⟩
  · rw [hfound] at hfound'
    exact ⟨Option.some.inj hfound', h.keep ha hb⟩
  · rw [hfound] at hnew'
    cases hnew'
  · rw [hnew] at hfound'
    cases hfound'
  · refine ⟨?_, h.update (fun ledger => ledger.enter f s) ha hb (fun _ => rfl)
      fun _ hc => ⟨hc.carriers, hc.instances, hc.deferred, hc.required⟩⟩
    rw [h.ledger_eq]
    rfl

theorem openBoundary (h : Abreast kind own tail a b) (boundary : Boundary) :
    InStep kind own tail (openBoundary boundary) a (openBoundary boundary) b :=
  .of_does (openBoundary_does [] h.tidy boundary) (openBoundary_does [] h.tidy_right boundary)
    fun _ _ _ _ ha hb => ⟨rfl, h.update
      (fun ledger => { ledger with edge := ledger.edge.openBoundary boundary }) ha hb
      (fun _ => rfl) fun _ hc => ⟨hc.carriers, hc.instances, hc.deferred, hc.required⟩⟩

/-! ## Answers -/

end InStep

/-- Two ways to answer requests keep in step, in windows that differ at most in their
stages. -/
def InStepAll (kind : Formula → Prop) (own : Formula → Nat → List Lit → Prop)
    (tail : List Deferred) (rec rec' : Encoding) : Prop :=
  ∀ window stage f s a b, Abreast kind own tail a b →
    InStep kind own tail (rec window f s) a (rec' (window.withStage stage) f s) b

namespace InStep

variable {a b : Encoder} {key key' : Key} {f : Formula} {s : Nat} {rec rec' : Encoding}
  {window : Window} {stage : Stage}

theorem encodeAdjacent (hrec : InStepAll kind own tail rec rec') (h : Abreast kind own tail a b)
    (f : Formula) (op : Fixpoint) (s : Nat) :
    InStep kind own tail (encodeAdjacent rec window f op s) a
      (encodeAdjacent rec' (window.withStage stage) f op s) b := by
  unfold Encoder.encodeAdjacent
  split
  · exact map _ (hrec _ _ _ _ _ _ h)
  · rw [Window.shift_withStage]
    cases window.shift s (-1) with
    | reached before => exact map _ (hrec _ _ _ _ _ _ h)
    | beforeStart | pending _ | afterEnd => exact pure h _

theorem encodeLeft (hrec : InStepAll kind own tail rec rec') (h : Abreast kind own tail a b)
    (op : Fixpoint) (lhs : Option Formula) (s : Nat) :
    InStep kind own tail (encodeLeft rec window op lhs s) a
      (encodeLeft rec' (window.withStage stage) op lhs s) b := by
  cases lhs with
  | none => exact pure h _
  | some lhs => exact hrec _ _ _ _ _ _ h

/-- An atom of its own, with the rules that define it. -/
theorem defineBy (h : Abreast kind own tail a b) (hn : a.Names key f s) (hn' : b.Names key' f s)
    (rules : Lit → List Rule) :
    InStep kind own tail
      (do
        let x ← Encoder.define key
        Encoder.emitAll (rules x)
        return x) a
      (do
        let x ← Encoder.define key'
        Encoder.emitAll (rules x)
        return x) b :=
  bind (define h hn hn') fun x _ _ h₁ => bind (emitAll h₁.abreast (rules x)) fun _ _ _ h₂ =>
    pure h₂.abreast x

theorem encodeFixpoint (hrec : InStepAll kind own tail rec rec') (h : Abreast kind own tail a b)
    {id id' : FormulaId} (hn : a.Names ⟨id, s⟩ f s) (hn' : b.Names ⟨id', s⟩ f s) (op : Fixpoint)
    (lhs : Option Formula) (rhs : Formula) :
    InStep kind own tail (encodeFixpoint rec window f ⟨id, s⟩ op lhs rhs) a
      (encodeFixpoint rec' (window.withStage stage) f ⟨id', s⟩ op lhs rhs) b := by
  refine bind (hrec _ _ _ _ _ _ h) fun right a₁ b₁ h₁ => ?_
  refine bind (encodeAdjacent hrec h₁.abreast f op s) fun adjacent a₂ b₂ h₂ => ?_
  have h₂' := h₁.trans h₂
  cases adjacent with
  | none => exact share h₂.abreast (hn.mono h₂'.grown) (hn'.mono h₂'.grown_right) right
  | some adjacent =>
    refine bind (encodeLeft hrec h₂.abreast op lhs s) fun left a₃ b₃ h₃ => ?_
    have h₃' := h₂'.trans h₃
    exact defineBy h₃.abreast (hn.mono h₃'.grown) (hn'.mono h₃'.grown_right)
      fun x => fixpointRules op x left right adjacent

/-- Another formula is asked for, and its literal is shared. -/
theorem ask_share (hrec : InStepAll kind own tail rec rec') (h : Abreast kind own tail a b)
    (hn : a.Names key f s) (hn' : b.Names key' f s) (window : Window) (stage : Stage)
    (g : Formula) (t : Nat) (change : Lit → Lit) :
    InStep kind own tail (rec window g t >>= fun lit => Encoder.share key (change lit)) a
      (rec' (window.withStage stage) g t >>= fun lit => Encoder.share key' (change lit)) b :=
  bind (hrec _ _ _ _ _ _ h) fun lit _ _ h₁ =>
    share h₁.abreast (hn.mono h₁.grown) (hn'.mono h₁.grown_right) (change lit)

/-- A formula without a literal is answered by both. -/
theorem encodeNew (hrec : InStepAll kind own tail rec rec') (h : Abreast kind own tail a b)
    {id id' : FormulaId} (hn : a.Names ⟨id, s⟩ f s) (hn' : b.Names ⟨id', s⟩ f s)
    (hnone : (b.ledger []).entry f s = none) :
    InStep kind own tail (encodeNew rec window f ⟨id, s⟩) a
      (encodeNew rec' (window.withStage stage) f ⟨id', s⟩) b := by
  cases f with
  | atom name args positive => exact groundAtom h _ s
  | bool value => exact share h hn hn' _
  | initial => exact share h hn hn' _
  | final =>
    have hlast : (window.withStage stage).isLast s = window.isLast s := rfl
    unfold Encoder.encodeNew
    dsimp only
    rw [hlast, Window.withStage_horizon]
    split
    · exact share h hn hn' _
    · split
      · exact share h hn hn' _
      · exact ask_share hrec h hn hn' (window.withStage .always) .always Formula.hasNext s (- ·)
  | not arg => exact ask_share hrec h hn hn' window stage arg s (- ·)
  | binary op lhs rhs =>
    refine bind (hrec _ _ _ _ _ _ h) fun left a₁ b₁ h₁ => ?_
    refine bind (hrec _ _ _ _ _ _ h₁.abreast) fun right a₂ b₂ h₂ => ?_
    have h₂' := h₁.trans h₂
    exact defineBy h₂.abreast (hn.mono h₂'.grown) (hn'.mono h₂'.grown_right)
      fun x => connectiveRules op x left right
  | previous arg weak =>
    unfold Encoder.encodeNew
    dsimp only
    rw [Window.shift_withStage]
    cases window.shift s (-1) with
    | reached before => exact ask_share hrec h hn hn' window stage arg before fun lit => lit
    | beforeStart | pending _ | afterEnd => exact share h hn hn' _
  | next arg weak =>
    unfold Encoder.encodeNew
    dsimp only
    rw [Window.shift_withStage]
    refine check_bind (.ahead _ _) (.ahead _ _) ?_
    cases window.shift s 1 with
    | reached after => exact ask_share hrec h hn hn' window stage arg after fun lit => lit
    | pending target =>
      refine bind (getOrCreate h hn hn' hnone) fun answer a₁ b₁ h₁ => ?_
      exact bind (openBoundary h₁.abreast _) fun _ _ _ h₂ => pure h₂.abreast answer.1
    | afterEnd => exact share h hn hn' _
    | beforeStart => exact share h hn hn' _
  | initially arg => exact ask_share hrec h hn hn' window stage arg 0 fun lit => lit
  | temporal op lhs rhs => exact encodeFixpoint hrec h hn hn' op (some lhs) rhs
  | modal op arg => exact encodeFixpoint hrec h hn hn' op none arg
  | dynamic modality path arg =>
    exact check_bind (.path _ _) (.path _ _)
      (ask_share hrec h hn hn' window stage _ s fun lit => lit)

theorem encodeStep (hrec : InStepAll kind own tail rec rec') :
    InStepAll kind own tail (encodeStep rec) (encodeStep rec') := by
  intro window stage f s a b h
  refine check_bind (.step _ _) (.step _ _) ?_
  split
  · exact groundAtom h f s
  · refine Paired.bind (.keyOf h f s) ?_
    rintro ⟨id, _⟩ a₁ ⟨id', _⟩ b₁ ⟨⟨rfl, hid⟩, ⟨rfl, hid'⟩, h₁⟩
    refine Paired.bind (lookup h₁.abreast ⟨rfl, hid⟩ ⟨rfl, hid'⟩) ?_
    rintro found a₂ _ b₂ ⟨rfl, hfound, h₂⟩
    refine (h₁.trans h₂).paired ?_
    cases found with
    | some lit => exact pure h₂.abreast lit
    | none =>
      exact encodeNew hrec h₂.abreast ((Names.mk rfl hid).mono h₂.grown)
        ((Names.mk rfl hid').mono h₂.grown_right) hfound.symm

theorem encodeWithin (depth : Nat) :
    InStepAll kind own tail (encodeWithin depth) (encodeWithin depth) := by
  induction depth with
  | zero =>
    intro window stage f s a b _ v a' w b' hok
    cases hok
  | succ depth ih => exact encodeStep ih

/-- Requests for literals keep in step. -/
theorem encode : InStepAll kind own tail encode encode := by
  intro window stage f s a b h
  refine Paired.bind (.register h f) fun _ a₁ _ b₁ h₁ => h₁.paired ?_
  exact encodeWithin _ window stage f s a₁ b₁ h₁.abreast

theorem encodeHasNext (h : Abreast kind own tail a b) (s : Nat) :
    InStep kind own tail (encodeHasNext window s) a
      (encodeHasNext (window.withStage stage) s) b :=
  encode (window.withStage .always) .always Formula.hasNext s a b h

end InStep

/-! ## Requirements -/

/-- A kind of formulas that is closed under being passed on by a requirement, and none of
which starts an instance. -/
structure Passing (kind : Formula → Prop) : Prop where
  and : ∀ {lhs rhs}, kind (.binary .and lhs rhs) → kind lhs ∧ kind rhs
  implies : ∀ {lhs rhs}, kind (.binary .implies lhs rhs) → kind rhs
  implied : ∀ {lhs rhs}, kind (.binary .implied lhs rhs) → kind lhs
  next : ∀ {arg weak}, kind (.next arg weak) → kind arg
  always : ∀ {arg}, kind (.modal .release arg) →
    kind arg ∧ kind (.next (.modal .release arg) true)
  eventually : ∀ {arg}, ¬ kind (.modal .untl arg)
  untl : ∀ {lhs rhs}, ¬ kind (.temporal .untl lhs rhs)
  release : ∀ {lhs rhs}, ¬ kind (.temporal .release lhs rhs)

/-- Two ways to meet requirements keep in step for formulas of a kind, in windows that differ
at most in their stages. -/
def InStepRequiring (kind : Formula → Prop) (own : Formula → Nat → List Lit → Prop)
    (rec rec' : Requiring) : Prop :=
  ∀ window stage f s guard a b, kind f → Abreast kind own [] a b →
    InStep kind own [] (rec window f s guard) a (rec' (window.withStage stage) f s guard) b

namespace InStep

variable {a b : Encoder} {f : Formula} {s : Nat} {guard : List Lit} {rec rec' : Requiring}
  {window : Window} {stage : Stage}

theorem sortDisjuncts (h : Abreast kind own tail a b) (fs : List Formula) (head : List Nat)
    (body : List Lit) :
    InStep kind own tail (sortDisjuncts window s fs head body) a
      (sortDisjuncts (window.withStage stage) s fs head body) b := by
  induction fs generalizing a b head body with
  | nil => exact pure h _
  | cons g rest ih =>
    cases hatom : g.isAtom with
    | true =>
      cases g with
      | atom name args positive =>
        exact bind (groundAtom h _ _) fun lit _ _ h₁ => ih h₁.abreast _ _
      | _ => cases hatom
    | false =>
      by_cases hbool : ∃ value, g = .bool value
      · obtain ⟨value, rfl⟩ := hbool
        cases value with
        | true => exact pure h _
        | false => exact ih h head body
      · have hbool : ∀ value, g ≠ .bool value := fun value hv => hbool ⟨value, hv⟩
        rw [sortDisjuncts_other hatom hbool, sortDisjuncts_other hatom hbool]
        exact bind (encode window stage g s a b h) fun lit _ _ h₁ => ih h₁.abreast _ _

theorem requireDisjunction (h : Abreast kind own tail a b) (f : Formula) (s : Nat)
    (guard : List Lit) :
    InStep kind own tail (requireDisjunction window f s guard) a
      (requireDisjunction (window.withStage stage) f s guard) b := by
  refine bind (sortDisjuncts h _ _ _) fun sorted _ _ h₁ => ?_
  cases sorted with
  | none => exact pure h₁.abreast _
  | some sorted => exact emit h₁.abreast _

theorem defer (h : Abreast kind own [] a b) {requirement : Deferred}
    (hkind : kind requirement.formula) :
    InStep kind own [] (defer requirement) a (defer requirement) b := by
  refine .of_does (defer_does [] h.tidy requirement) (defer_does [] h.tidy_right requirement)
    fun _ _ _ _ ha hb => ⟨rfl, h.update
      (fun ledger => { ledger with edge := ledger.edge.defer requirement }) ha hb
      (fun ledger => ?_) fun _ hc => ⟨hc.carriers, hc.instances, fun d hd => ?_, hc.required⟩⟩
  · simp only [Ledger.plus, Edge.defer, List.append_nil]
  · rcases List.mem_append.1 hd with hd | hd
    · exact hc.deferred d hd
    · rw [List.mem_singleton.1 hd]
      exact hkind

/-- A requirement that neither has on its list is put there by both. -/
theorem demand (h : Abreast kind own tail a b) {key key' : Key} (hn : a.Names key f s)
    (hn' : b.Names key' f s) (hkind : kind f) (guard : List Lit) :
    InStep kind own tail
      (modify fun e => { e with required := e.required ++ [(key, guard)] }) a
      (modify fun e => { e with required := e.required ++ [(key', guard)] }) b := by
  refine .of_does (demand_does [] h.tidy hn guard) (demand_does [] h.tidy_right hn' guard)
    fun _ _ _ _ ha hb => ⟨rfl, h.update (fun ledger => ledger.demand f s guard) ha hb
      (fun ledger => ?_) fun _ hc =>
        ⟨hc.carriers, hc.instances, hc.deferred, fun g t guard' hr => ?_⟩⟩
  · unfold Ledger.demand Ledger.plus
    congr 1
    funext g t guard'
    exact propext or_right_comm
  · rcases hr with hr | ⟨rfl, -, -⟩
    · exact hc.required g t guard' hr
    · exact hkind

theorem requireNext (hpass : Passing kind) (hrec : InStepRequiring kind own rec rec')
    (h : Abreast kind own [] a b) {arg : Formula} {weak : Bool} (hkind : kind (.next arg weak))
    (f : Formula) (s : Nat) (guard : List Lit) :
    InStep kind own [] (requireNext rec window f arg weak s guard) a
      (requireNext rec' (window.withStage stage) f arg weak s guard) b := by
  have hshift : (window.withStage stage).shift s 1 = window.shift s 1 := rfl
  have harg := hpass.next hkind
  unfold Encoder.requireNext
  rw [hshift]
  refine check_bind (.ahead _ _) (.ahead _ _) ?_
  cases window.shift s 1 with
  | reached after => exact hrec _ _ _ _ _ _ _ harg h
  | pending target =>
    cases weak with
    | true => exact bind (pure h ()) fun _ _ _ h₁ => defer h₁.abreast harg
    | false =>
      refine bind (bind (encodeHasNext h s) fun _ _ _ h₁ => emit h₁.abreast _) fun _ _ _ h₂ => ?_
      exact defer h₂.abreast harg
  | afterEnd =>
    cases weak with
    | true => exact pure h ()
    | false => exact emit h _
  | beforeStart =>
    cases weak with
    | true => exact pure h ()
    | false => exact emit h _

/-- A formula that has no form of its own as a head is encoded and its negation excluded. -/
theorem exclude (h : Abreast kind own tail a b) (f : Formula) (s : Nat) (body : Lit → List Lit) :
    InStep kind own tail
      (Encoder.encode window f s >>= fun lit => Encoder.emit (.constraint (body lit))) a
      (Encoder.encode (window.withStage stage) f s >>= fun lit =>
        Encoder.emit (.constraint (body lit))) b :=
  bind (encode window stage f s a b h) fun _ _ _ h₁ => emit h₁.abreast _

theorem requireNew (hpass : Passing kind) (hrec : InStepRequiring kind own rec rec')
    (h : Abreast kind own [] a b) (hkind : kind f) (s : Nat) (guard : List Lit) :
    InStep kind own [] (requireNew rec window f s guard) a
      (requireNew rec' (window.withStage stage) f s guard) b := by
  cases f with
  | atom name args positive =>
    exact bind (groundAtom h _ s) fun lit _ _ h₁ => emit h₁.abreast _
  | bool value =>
    cases value with
    | true => exact pure h ()
    | false => exact emit h _
  | initial => exact exclude h .initial s fun lit => guard ++ [-lit]
  | final => exact exclude h .final s fun lit => guard ++ [-lit]
  | not arg => exact exclude h arg s fun lit => guard ++ [lit]
  | binary op lhs rhs =>
    cases op with
    | and =>
      obtain ⟨hl, hr⟩ := hpass.and hkind
      exact bind (hrec _ _ _ _ _ _ _ hl h) fun _ _ _ h₁ => hrec _ _ _ _ _ _ _ hr h₁.abreast
    | or => exact requireDisjunction h _ s guard
    | implies =>
      exact bind (encode window stage lhs s a b h) fun lit _ _ h₁ =>
        hrec _ _ _ _ _ _ _ (hpass.implies hkind) h₁.abreast
    | implied =>
      exact bind (encode window stage rhs s a b h) fun lit _ _ h₁ =>
        hrec _ _ _ _ _ _ _ (hpass.implied hkind) h₁.abreast
    | equiv => exact exclude h (.binary .equiv lhs rhs) s fun lit => guard ++ [-lit]
  | previous arg weak => exact exclude h (.previous arg weak) s fun lit => guard ++ [-lit]
  | next arg weak =>
    unfold Encoder.requireNew
    exact requireNext hpass hrec h hkind (.next arg weak) s guard
  | initially arg => exact exclude h (.initially arg) s fun lit => guard ++ [-lit]
  | temporal op lhs rhs =>
    cases op with
    | untl => exact absurd hkind hpass.untl
    | release => exact absurd hkind hpass.release
    | since => exact exclude h (.temporal .since lhs rhs) s fun lit => guard ++ [-lit]
    | trigger => exact exclude h (.temporal .trigger lhs rhs) s fun lit => guard ++ [-lit]
  | modal op arg =>
    cases op with
    | untl => exact absurd hkind hpass.eventually
    | release =>
      obtain ⟨harg, hagain⟩ := hpass.always hkind
      exact bind (hrec _ _ _ _ _ _ _ harg h) fun _ _ _ h₁ => hrec _ _ _ _ _ _ _ hagain h₁.abreast
    | since => exact exclude h (.modal .since arg) s fun lit => guard ++ [-lit]
    | trigger => exact exclude h (.modal .trigger arg) s fun lit => guard ++ [-lit]
  | dynamic modality path arg =>
    exact exclude h (.dynamic modality path arg) s fun lit => guard ++ [-lit]

theorem requireStep (hpass : Passing kind) (hown : ∀ f s guard, kind f → ¬ own f s guard)
    (hrec : InStepRequiring kind own rec rec') :
    InStepRequiring kind own (requireStep rec) (requireStep rec') := by
  intro window stage f s guard a b hkind h
  refine check_bind (.step _ _) (.step _ _) ?_
  by_cases hfalse : Lit.falsity ∈ guard
  · rw [if_pos hfalse, if_pos hfalse]
    exact pure h ()
  · rw [if_neg hfalse, if_neg hfalse]
    refine Paired.bind (.keyOf h f s) ?_
    rintro key a₁ key' b₁ ⟨hn, hn', h₁⟩
    refine h₁.paired ?_
    have hlisted : (key, guardSet guard) ∈ a₁.required ↔ (key', guardSet guard) ∈ b₁.required := by
      rw [← required_iff [] hn, ← required_iff [] hn', h₁.abreast.ledger_eq]
      exact or_iff_left (hown f s _ hkind)
    show InStep kind own []
      (if (key, guardSet guard) ∈ a₁.required then Pure.pure () else do
        modify fun e => { e with required := e.required ++ [(key, guardSet guard)] }
        Encoder.requireNew rec window f s (guardSet guard)) a₁
      (if (key', guardSet guard) ∈ b₁.required then Pure.pure () else do
        modify fun e => { e with required := e.required ++ [(key', guardSet guard)] }
        Encoder.requireNew rec' (window.withStage stage) f s (guardSet guard)) b₁
    by_cases hmem : (key', guardSet guard) ∈ b₁.required
    · rw [if_pos (hlisted.2 hmem), if_pos hmem]
      exact pure h₁.abreast ()
    · rw [if_neg (mt hlisted.1 hmem), if_neg hmem]
      exact bind (demand h₁.abreast hn hn' hkind _) fun _ _ _ h₂ =>
        requireNew hpass hrec h₂.abreast hkind s _

/-- The depths of the two may differ. -/
theorem requireWithin (hpass : Passing kind) (hown : ∀ f s guard, kind f → ¬ own f s guard)
    (depth depth' : Nat) :
    InStepRequiring kind own (requireWithin depth) (requireWithin depth') := by
  induction depth generalizing depth' with
  | zero =>
    intro window stage f s guard a b _ _ v a' w b' hok
    cases hok
  | succ depth ih =>
    cases depth' with
    | zero =>
      intro window stage f s guard a b _ _ v a' w b' _ hok
      cases hok
    | succ depth' => exact requireStep hpass hown (ih depth')

/-- Requirements on formulas of the kind keep in step. -/
theorem require (hpass : Passing kind) (hown : ∀ f s guard, kind f → ¬ own f s guard) :
    InStepRequiring kind own require require := by
  intro window stage f s guard a b hkind h
  refine Paired.bind (.register h f) fun _ a₁ _ b₁ h₁ => h₁.paired ?_
  exact requireWithin hpass hown _ _ window stage f s guard a₁ b₁ hkind h₁.abreast

end InStep

/-! ## The edge -/

/-- Another edge shows in the ledger. -/
theorem follows_edge (given : List Rule) {e : Encoder} (h : e.Tidy) (edge : Edge) :
    Follows given e { e with edge := edge } { e.ledger given with edge := edge } :=
  ⟨⟨h.store, h.entry, h.binding, h.ground, h.required⟩, .refl _, rfl⟩

theorem resolveBoundaries_eq (window : Window) (step : Nat) (e : Encoder) :
    resolveBoundaries window step e = tieBoundaries window step (e.edge.takeDue step).1
      { e with edge := (e.edge.takeDue step).2 } := rfl

theorem runDeferred_eq (window : Window) (step : Nat) (e : Encoder) :
    runDeferred window step e =
      ((e.edge.takeDeferred step).1.forM fun d => require window d.formula step d.guard)
        { e with edge := (e.edge.takeDeferred step).2 } := rfl

namespace Abreast

variable {a b : Encoder} (h : Abreast kind own tail a b)

include h

theorem edge_eq : a.edge = { b.edge with deferred := b.edge.deferred ++ tail } :=
  congrArg Ledger.edge h.ledger_eq

theorem boundaries_eq : a.edge.boundaries = b.edge.boundaries := by
  rw [h.edge_eq]

theorem instances_eq : a.edge.instances = [] ∧ b.edge.instances = [] :=
  ⟨(congrArg Edge.instances h.edge_eq).trans h.confined.instances, h.confined.instances⟩

theorem carriers_eq : a.carriers = [] ∧ b.carriers = [] :=
  ⟨(congrArg Ledger.carriers h.ledger_eq).trans h.confined.carriers, h.confined.carriers⟩

theorem rules_eq : a.rules = b.rules := congrArg Ledger.rules h.ledger_eq

/-- The first encoder takes on a requirement of its own. -/
theorem takesOn {rec : Requiring} {window : Window} {g : Formula} {s : Nat} {guard : List Lit}
    (hs : s ≤ window.horizon) (hfalse : Lit.falsity ∉ guard) (hkind : ¬ kind g)
    (hnew : ¬ own g s (guardSet guard)) :
    ∃ a₁, requireStep rec window g s guard a = requireNew rec window g s (guardSet guard) a₁ ∧
      Abreast kind (fun f t guard' => own f t guard' ∨ f = g ∧ t = s ∧ guard' = guardSet guard)
        tail a₁ b := by
  have hn := numbered_names a g s
  have hnumbered := numbered_follows [] h.tidy g
  have hunlisted : (⟨(a.store.intern g).1, s⟩, guardSet guard) ∉ (a.numbered g).required := by
    rw [← required_iff [] hn, hnumbered.ledger_eq, h.ledger_eq]
    rintro (hlisted | hlisted)
    · exact hkind (h.confined.required _ _ _ hlisted)
    · exact hnew hlisted
  have hdemand : Follows [] (a.numbered g) _ _ := demand_does [] hnumbered.tidy hn (guardSet guard)
  refine ⟨_, requireStep_works hs hfalse (keyOf_ok a g s) hunlisted, hdemand.tidy, h.tidy_right, ?_,
    h.confined⟩
  rw [hdemand.ledger_eq, hnumbered.ledger_eq, h.ledger_eq]
  unfold Ledger.demand Ledger.plus
  congr 1
  funext f t guard'
  exact propext or_assoc

/-- What has fallen due is taken off both edges. -/
theorem takeDue (step : Nat) : Onward kind own tail a b
    { a with edge := (a.edge.takeDue step).2 } { b with edge := (b.edge.takeDue step).2 } :=
  h.update (fun ledger => { ledger with edge := (ledger.edge.takeDue step).2 })
    (follows_edge [] h.tidy _) (follows_edge [] h.tidy_right _) (fun _ => rfl)
    fun _ hc => ⟨hc.carriers, hc.instances, hc.deferred, hc.required⟩

/-- Requirements that were postponed to a step are taken off both edges, the tail with
them. -/
theorem takeDeferred {step : Nat} (htail : ∀ d ∈ tail, d.step = step) :
    Abreast kind own [] { a with edge := (a.edge.takeDeferred step).2 }
        { b with edge := (b.edge.takeDeferred step).2 } ∧
      (a.edge.takeDeferred step).1 = (b.edge.takeDeferred step).1 ++ tail ∧
      ∀ d ∈ (b.edge.takeDeferred step).1, kind d.formula := by
  have hall : tail.filter (fun d => d.step = step) = tail :=
    List.filter_eq_self.2 fun d hd => decide_eq_true (htail d hd)
  have hnone : tail.filter (fun d => d.step ≠ step) = [] :=
    List.filter_eq_nil_iff.2 fun d hd => by simp [htail d hd]
  have hleft := follows_edge [] h.tidy (a.edge.takeDeferred step).2
  have hright := follows_edge [] h.tidy_right (b.edge.takeDeferred step).2
  refine ⟨⟨hleft.tidy, hright.tidy, ?_, ?_⟩, ?_, fun d hd => ?_⟩
  · rw [hleft.ledger_eq, hright.ledger_eq, h.ledger_eq, h.edge_eq]
    unfold Edge.takeDeferred
    dsimp only
    rw [List.filter_append, hnone]
    rfl
  · rw [hright.ledger_eq]
    exact ⟨h.confined.carriers, h.confined.instances,
      fun d hd => h.confined.deferred d (List.mem_filter.1 hd).1, h.confined.required⟩
  · unfold Edge.takeDeferred
    dsimp only
    rw [h.edge_eq, List.filter_append, hall]
  · exact h.confined.deferred d (List.mem_filter.1 hd).1

end Abreast

/-- The first encoder postpones a requirement of its own. -/
theorem Abreast.defers {a b : Encoder} (h : Abreast kind own [] a b) (requirement : Deferred) :
    Abreast kind own [requirement] { a with edge := a.edge.defer requirement } b := by
  have hleft := follows_edge [] h.tidy (a.edge.defer requirement)
  refine ⟨hleft.tidy, h.tidy_right, ?_, h.confined⟩
  rw [hleft.ledger_eq, h.ledger_eq, h.edge_eq]
  simp only [Ledger.plus, Edge.defer, List.append_nil]
  rfl

theorem Abreast.own_congr {a b : Encoder} (h : Abreast kind own tail a b)
    {own' : Formula → Nat → List Lit → Prop}
    (hsame : ∀ f s guard, own f s guard ↔ own' f s guard) : Abreast kind own' tail a b := by
  have heq : own = own' := by
    funext f s guard
    exact propext (hsame f s guard)
  exact heq ▸ h

namespace InStep

variable {a b : Encoder} {window : Window} {stage : Stage}

theorem tieBoundaries (h : Abreast kind own tail a b) (step : Nat) (due : List Boundary) :
    InStep kind own tail (tieBoundaries window step due) a
      (tieBoundaries (window.withStage stage) step due) b := by
  induction due generalizing a b with
  | nil => exact pure h _
  | cons boundary rest ih =>
    refine bind (encode window stage boundary.arg step a b h) fun lit _ _ h₁ => ?_
    refine bind (emit h₁.abreast _) fun _ _ _ h₂ => ?_
    exact bind (ih h₂.abreast) fun released _ _ h₃ => pure h₃.abreast _

theorem resolveBoundaries (h : Abreast kind own tail a b) (step : Nat) :
    InStep kind own tail (resolveBoundaries window step) a
      (resolveBoundaries (window.withStage stage) step) b := by
  have hdue : (a.edge.takeDue step).1 = (b.edge.takeDue step).1 := by
    unfold Edge.takeDue
    rw [h.boundaries_eq]
  have htaken := h.takeDue step
  intro v a' w b' hok hok'
  rw [resolveBoundaries_eq, hdue] at hok
  rw [resolveBoundaries_eq] at hok'
  exact htaken.paired (tieBoundaries htaken.abreast step _) v a' w b' hok hok'

end InStep
end Encoder
end TemporalHorizon

import TemporalHorizon.Proofs.Permanence
import TemporalHorizon.Proofs.Recursion

/-!
# Answers for any formula

What is known about requests for acceptable formulas is that they succeed.  Any other
formula may be asked for as well: its paths may not be in normal form, or it may look
ahead from a stage that does not allow it.  Such a request is refused, perhaps in the
middle of the work, and what has been done by then stays.

`Encoder.Leads` says of a computation what is true after it, both if it succeeds and if it
fails.  With it the following is shown for all formulas, windows and steps.

* `Failure.isAssertion`: the failures that mean that one of the encoder's own tables was
  about to be written twice.
* `Encoder.Spares`: what a request for a literal leaves alone.  The entries that it adds
  belong to formulas with chains of requests no longer than those of the formula it was
  made for.
* `Encoder.Sparing.encode`: a request for a literal ends without such a failure, and leaves
  alone what it should.  A formula that is being answered has longer chains than all
  formulas that are given an entry meanwhile, so its own entry is not among theirs.
-/

namespace TemporalHorizon

attribute [local instance] Arithmetic.exact

/-- Whether a failure means that a table of the encoder was about to be written twice, or
that a ground atom was about to get a negated literal. -/
def Failure.isAssertion : Failure → Bool
  | .fault .negativeGround | .fault (.groundTwice _) | .fault (.entryTwice _)
  | .fault (.definedTwice _) => true
  | _ => false

/-- Whether the path at the head of a formula, if there is one, can be unfolded. -/
def Formula.hasNormalPath : Formula → Bool
  | .dynamic _ path _ => path.isNormal
  | _ => true

namespace Encoder

variable {α β : Type} {e : Encoder}

/-! ## Computations that may fail -/

/-- A computation succeeds with a result and a state of one kind, or fails in a state of
another. -/
def Leads (x : Encode α) (e : Encoder) (good : α → Encoder → Prop)
    (bad : Failure → Encoder → Prop) : Prop :=
  match x e with
  | .ok a after => good a after
  | .error failure after => bad failure after

namespace Leads

variable {good : α → Encoder → Prop} {bad : Failure → Encoder → Prop}

theorem of_ok {x : Encode α} (h : Leads x e good bad) {a : α} {after : Encoder}
    (hok : x e = .ok a after) : good a after := by
  unfold Leads at h
  rw [hok] at h
  exact h

theorem of_error {x : Encode α} (h : Leads x e good bad) {failure : Failure} {after : Encoder}
    (herror : x e = .error failure after) : bad failure after := by
  unfold Leads at h
  rw [herror] at h
  exact h

/-- What is shown for both outcomes. -/
theorem intro {x : Encode α} (hok : ∀ a after, x e = .ok a after → good a after)
    (herror : ∀ failure after, x e = .error failure after → bad failure after) :
    Leads x e good bad := by
  unfold Leads
  cases h : x e with
  | ok a after => exact hok a after h
  | error failure after => exact herror failure after h

theorem pure {a : α} (h : good a e) : Leads (pure a : Encode α) e good bad := h

theorem get_bind {next : Encoder → Encode α} (h : Leads (next e) e good bad) :
    Leads (get >>= next) e good bad := h

theorem modifyGet_bind {g : Encoder → β × Encoder} {next : β → Encode α}
    (h : Leads (next (g e).1) (g e).2 good bad) : Leads (modifyGet g >>= next) e good bad := h

theorem modify {g : Encoder → Encoder} {good : PUnit → Encoder → Prop} (h : good ⟨⟩ (g e)) :
    Leads (modify g : Encode PUnit) e good bad := h

theorem bind {x : Encode α} {next : α → Encode β} {good : β → Encoder → Prop}
    {mid : α → Encoder → Prop} (hx : Leads x e mid bad)
    (hn : ∀ a after, x e = .ok a after → mid a after → Leads (next a) after good bad) :
    Leads (x >>= next) e good bad := by
  refine Leads.intro (fun b after hok => ?_) fun failure after herror => ?_
  · obtain ⟨a, middle, hfirst, hok⟩ := exists_of_bind_ok hok
    exact (hn a middle hfirst (hx.of_ok hfirst)).of_ok hok
  · cases hfirst : x e with
    | ok a middle =>
      rw [bind_ok hfirst] at herror
      exact (hn a middle hfirst (hx.of_ok hfirst)).of_error herror
    | error failure' middle =>
      rw [bind_error hfirst] at herror
      cases herror
      exact hx.of_error hfirst

theorem mono {x : Encode α} {good' : α → Encoder → Prop} {bad' : Failure → Encoder → Prop}
    (h : Leads x e good bad) (hgood : ∀ a after, good a after → good' a after)
    (hbad : ∀ failure after, bad failure after → bad' failure after) : Leads x e good' bad' :=
  Leads.intro (fun a after hok => hgood a after (h.of_ok hok))
    fun failure after herror => hbad failure after (h.of_error herror)

/-- Only what is said of success is weakened. -/
theorem imp {x : Encode α} {good' : α → Encoder → Prop} (h : Leads x e good bad)
    (hgood : ∀ a after, good a after → good' a after) : Leads x e good' bad :=
  h.mono hgood fun _ _ hbad => hbad

/-- A computation that cannot fail for lack of depth does not fail if that is the only
way. -/
theorem of_does {x : Encode α} (hs : Shallow x) (h : Does x e good) : Leads x e good bad := by
  obtain ⟨a, after, hok, hgood⟩ := h.exists_ok hs
  unfold Leads
  rw [hok]
  exact hgood

end Leads

/-! ## What requests for literals leave alone -/

/-- An encoder has gone on without touching requirements, instances and carriers.  New
entries belong to formulas with chains of at most `n` requests, and none of them begins
with a path that is not in normal form. -/
structure Spares (given : List Rule) (horizon n : Nat) (before after : Encoder) : Prop where
  tidy : after.Tidy
  grown : before.store.Extends after.store
  grows : (before.ledger given).Grows (after.ledger given)
  instances : after.edge.instances = before.edge.instances
  carriers : after.carriers = before.carriers
  required : (after.ledger given).required = (before.ledger given).required
  entries : ∀ f s, (after.ledger given).entry f s = (before.ledger given).entry f s ∨
    Bounded horizon n f s ∧ f.hasNormalPath = true

namespace Spares

variable {given : List Rule} {horizon n m : Nat} {before after : Encoder}

theorem refl (h : e.Tidy) : Spares given horizon n e e :=
  ⟨h, .refl _, .refl _, rfl, rfl, rfl, fun _ _ => .inl rfl⟩

theorem trans {a b c : Encoder} (h : Spares given horizon n a b) (h' : Spares given horizon n b c) :
    Spares given horizon n a c := by
  refine ⟨h'.tidy, h.grown.trans h'.grown, h.grows.trans h'.grows,
    h'.instances.trans h.instances, h'.carriers.trans h.carriers, h'.required.trans h.required,
    fun f s => ?_⟩
  rcases h'.entries f s with heq | hnew
  · rw [heq]
    exact h.entries f s
  · exact .inr hnew

theorem mono (h : Spares given horizon m before after) (hle : m ≤ n) :
    Spares given horizon n before after :=
  { h with entries := fun f s => (h.entries f s).imp_right fun hb => ⟨hb.1.mono hle, hb.2⟩ }

/-- The ledger has stayed as it was. -/
theorem of_same (h : Follows given before after (before.ledger given)) :
    Spares given horizon n before after := by
  refine ⟨h.tidy, h.grown, ?_, congrArg (·.edge.instances) h.ledger_eq,
    congrArg Ledger.carriers h.ledger_eq, congrArg Ledger.required h.ledger_eq, fun f s => ?_⟩
  · rw [h.ledger_eq]
    exact .refl _
  · rw [h.ledger_eq]
    exact .inl rfl

/-- An entry has been written. -/
theorem of_entry {ledger : Ledger} {f : Formula} {s : Nat} {lit : Lit}
    (h : Follows given before after ledger) (hgrows : (before.ledger given).Grows ledger)
    (hinstances : ledger.edge.instances = before.edge.instances)
    (hcarriers : ledger.carriers = before.carriers)
    (hrequired : ledger.required = (before.ledger given).required)
    (hentry : ledger.entry = (before.ledger given).entry.put f s (some lit))
    (hb : Bounded horizon n f s) (hpath : f.hasNormalPath = true) :
    Spares given horizon n before after := by
  have heq := h.ledger_eq
  refine ⟨h.tidy, h.grown, heq ▸ hgrows, (congrArg (·.edge.instances) heq).trans hinstances,
    (congrArg Ledger.carriers heq).trans hcarriers,
    (congrArg Ledger.required heq).trans hrequired, fun g t => ?_⟩
  rw [heq, hentry]
  by_cases hg : g = f ∧ t = s
  · rw [hg.1, hg.2]
    exact .inr ⟨hb, hpath⟩
  · exact .inl (Sheet.put_of_ne hg)

end Spares

/-- An encoder that is tidy and has no entry for a formula that begins with a path which is
not in normal form. -/
structure Fit (e : Encoder) : Prop extends Tidy e where
  paths : ∀ f s, f.hasNormalPath = false → (e.ledger []).entry f s = none

/-- A change of everything that is not filed under numbers. -/
theorem Fit.frame {after : Encoder} (h : e.Fit) (hstore : after.store = e.store)
    (hcache : after.cache = e.cache) (hground : after.ground = e.ground)
    (hrequired : after.required = e.required) : after.Fit := by
  obtain ⟨store, cache, supply, ground, edge, carriers, required, rules⟩ := after
  subst hstore hcache hground hrequired
  exact ⟨⟨h.store, h.entry, h.binding, h.ground, h.required⟩, h.paths⟩

/-- Entries have stayed as they were. -/
theorem Fit.of_follows {given : List Rule} {after : Encoder} {ledger : Ledger} (h : e.Fit)
    (hf : Follows given e after ledger) (hentry : ledger.entry = (e.ledger given).entry) :
    after.Fit := by
  refine ⟨hf.tidy, fun f s hpath => ?_⟩
  have hsame : (after.ledger given).entry = (e.ledger given).entry := hf.ledger_eq ▸ hentry
  exact (congrFun (congrFun hsame f) s).trans (h.paths f s hpath)

theorem Spares.fit {given : List Rule} {horizon n : Nat} {after : Encoder} (h : e.Fit)
    (ha : Spares given horizon n e after) : after.Fit := by
  refine ⟨ha.tidy, fun f s hpath => ?_⟩
  rcases ha.entries f s with heq | ⟨-, hnormal⟩
  · exact heq.trans (h.paths f s hpath)
  · rw [hpath] at hnormal
    cases hnormal

/-- A computation leaves alone what requests for literals leave alone, whether it succeeds
or fails, and does not fail by an assertion. -/
def Sparing (given : List Rule) (horizon n : Nat) (x : Encode α) (e : Encoder) : Prop :=
  Leads x e (fun _ after => Spares given horizon n e after)
    fun failure after => failure.isAssertion = false ∧ Spares given horizon n e after

namespace Sparing

variable {given : List Rule} {horizon n m : Nat}

theorem pure (h : e.Tidy) (a : α) : Sparing given horizon n (pure a : Encode α) e := .refl h

theorem refuse (h : e.Tidy) (cause : Violation) :
    Sparing given horizon n (Encoder.refuse cause : Encode α) e := ⟨rfl, .refl h⟩

theorem bind {x : Encode α} {next : α → Encode β} (hx : Sparing given horizon n x e)
    (hn : ∀ a after, x e = .ok a after → Spares given horizon n e after →
      Sparing given horizon n (next a) after) :
    Sparing given horizon n (x >>= next) e :=
  Leads.bind hx fun a after hok ha => (hn a after hok ha).mono (fun _ _ hb => ha.trans hb)
    fun _ _ hb => ⟨hb.1, ha.trans hb.2⟩

theorem mono {x : Encode α} (h : Sparing given horizon m x e) (hle : m ≤ n) :
    Sparing given horizon n x e :=
  Leads.mono h (fun _ _ ha => ha.mono hle) fun _ _ ha => ⟨ha.1, ha.2.mono hle⟩

/-- A computation that does nothing that shows in the ledger. -/
theorem of_same {x : Encode α} {post : α → Encoder → Prop} (hs : Shallow x) (h : Does x e post)
    (hsame : ∀ a after, post a after → Follows given e after (e.ledger given)) :
    Sparing given horizon n x e :=
  (Leads.of_does hs h).imp fun a after ha => .of_same (hsame a after ha)

theorem register (h : e.Tidy) (f : Formula) : Sparing given horizon n (register f) e :=
  of_same (.register f) (register_does given h f) fun _ _ ha => ha.2

theorem groundAtom (h : e.Tidy) (f : Formula) (s : Nat) :
    Sparing given horizon n (groundAtom f s) e := by
  refine (Leads.of_does (.groundAtom f s) (groundAtom_does given h f s)).imp ?_
  rintro lit after (⟨-, ha⟩ | ⟨hnone, -, ha⟩)
  · exact .of_same ha
  · have heq := ha.ledger_eq
    exact ⟨ha.tidy, ha.grown, heq ▸ .enter hnone, congrArg (·.edge.instances) heq,
      congrArg Ledger.carriers heq, (congrArg Ledger.required heq).trans rfl,
      fun g t => .inl (by rw [heq]; rfl)⟩

end Sparing

/-! ## One answer from others -/

/-- A formula without an entry is being answered at a step.  All that it asks for has
chains of at most `m` requests, and it has a longer one itself. -/
structure Pending (given : List Rule) (horizon m : Nat) (f : Formula) (key : Key)
    (start now : Encoder) : Prop where
  names : now.Names key f key.step
  absent : (start.ledger given).entry f key.step = none
  requests : ∀ request ∈ f.requests horizon key.step, Bounded horizon m request.1 request.2
  deep : ¬ Bounded horizon m f key.step
  spares : Spares given horizon m start now

/-- A way to answer requests that spares what it should for all formulas. -/
def SparingAll (given : List Rule) (horizon : Nat) (rec : Encoding) : Prop :=
  ∀ window g t n e, window.horizon = horizon → e.Tidy → (t ≤ horizon → Bounded horizon n g t) →
    Sparing given horizon n (rec window g t) e

namespace Pending

variable {given : List Rule} {horizon m n : Nat} {f : Formula} {key : Key} {start now : Encoder}
  {rec : Encoding} {window : Window}

/-- The formula has no entry yet, for it has longer chains than all that has been given
one. -/
theorem entry_none (h : Pending given horizon m f key start now) :
    (now.ledger given).entry f key.step = none := by
  rcases h.spares.entries f key.step with heq | hb
  · rw [heq, h.absent]
  · exact absurd hb.1 h.deep

theorem lt (h : Pending given horizon m f key start now) (hb : Bounded horizon n f key.step) :
    m < n := Nat.lt_of_not_le fun hle => h.deep (hb.mono hle)

/-- One of the requests is made. -/
theorem ask (h : Pending given horizon m f key start now) (hrec : SparingAll given horizon rec)
    (hb : Bounded horizon n f key.step) (hw : window.horizon = horizon) {g : Formula} {t : Nat}
    (hq : (g, t) ∈ f.requests horizon key.step) {next : Lit → Encode α}
    (hnext : ∀ lit later, Pending given horizon m f key start later →
      Sparing given horizon n (next lit) later) :
    Sparing given horizon n (rec window g t >>= next) now := by
  have hask := hrec window g t m now hw h.spares.tidy fun _ => h.requests _ hq
  refine (hask.mono (Nat.le_of_lt (h.lt hb))).bind fun lit later hok _ => hnext lit later ?_
  have hlater : Spares given horizon m now later := Leads.of_ok hask hok
  exact { h with names := h.names.mono hlater.grown, spares := h.spares.trans hlater }

theorem share (h : Pending given horizon m f key start now) (hb : Bounded horizon n f key.step)
    (hpath : f.hasNormalPath = true) (lit : Lit) :
    Sparing given horizon n (share key lit) now := by
  refine (Leads.of_does (.share key lit)
    (share_does given h.spares.tidy h.names h.entry_none lit)).imp ?_
  rintro _ after ⟨-, ha⟩
  exact .of_entry ha ((Ledger.Grows.write h.entry_none _).trans (.post _ _)) rfl rfl rfl rfl hb
    hpath

theorem define (h : Pending given horizon m f key start now) (hb : Bounded horizon n f key.step)
    (hpath : f.hasNormalPath = true) (rules : Lit → List Rule) :
    Sparing given horizon n (do
      let x ← define key
      emitAll (rules x)
      return x) now := by
  have hdoes : Does (do
      let x ← Encoder.define key
      emitAll (rules x)
      return x) now fun _ after => ∃ more, Follows given now after
        (((now.ledger given).claim f key.step).post more) := by
    refine (define_does given h.spares.tidy h.names h.entry_none).bind ?_
    rintro x middle ⟨-, hm⟩
    refine (emitAll_does given hm.tidy _).bind fun _ after ha => ?_
    rw [hm.ledger_eq, Ledger.post_append] at ha
    exact Does.pure ⟨_, hm.trans ha⟩
  refine (Leads.of_does (.bind (.define key) fun _ => .bind (.emitAll _) fun _ => .pure _)
    hdoes).imp ?_
  rintro _ after ⟨more, ha⟩
  exact .of_entry ha ((Ledger.Grows.claim h.entry_none).trans (.post _ _)) rfl rfl rfl rfl hb hpath

/-- A reference to a step that is still to come. -/
theorem await (h : Pending given horizon m f key start now) (hb : Bounded horizon n f key.step)
    (hpath : f.hasNormalPath = true) (boundary : Lit → Boundary) :
    Sparing given horizon n (do
      let (lit, _) ← getOrCreate key
      openBoundary (boundary lit)
      return lit) now := by
  have hdoes : Does (do
      let (lit, _) ← getOrCreate key
      openBoundary (boundary lit)
      return lit) now fun _ after => ∃ boundary, Follows given now after
        { (now.ledger given).claim f key.step with
          edge := (now.ledger given).edge.openBoundary boundary } := by
    refine (getOrCreate_does given h.spares.tidy h.names h.entry_none).bind ?_
    rintro _ middle ⟨rfl, hm⟩
    refine (openBoundary_does given hm.tidy _).bind fun _ after ha => ?_
    rw [hm.ledger_eq] at ha
    exact Does.pure ⟨_, hm.trans ha⟩
  have hshallow : Shallow (do
      let (lit, _) ← getOrCreate key
      openBoundary (boundary lit)
      return lit) := .bind (.getOrCreate key) fun _ => .bind (.modify _) fun _ => .pure _
  refine (Leads.of_does hshallow hdoes).imp ?_
  rintro _ after ⟨boundary, ha⟩
  exact .of_entry ha { Ledger.Grows.claim h.entry_none with boundaries := ⟨_, rfl⟩ }
    rfl rfl rfl rfl hb hpath

theorem encodeFixpoint (h : Pending given horizon m f key start now)
    (hrec : SparingAll given horizon rec) (hb : Bounded horizon n f key.step)
    (hw : window.horizon = horizon) {op : Fixpoint} {lhs : Option Formula} {rhs : Formula}
    (hf : f.IsFixpoint op lhs rhs) :
    Sparing given horizon n (encodeFixpoint rec window f key op lhs rhs) now := by
  have hpath : f.hasNormalPath = true := by cases hf <;> rfl
  obtain ⟨hqr, hqf, hqp, hql⟩ := requests_of_isFixpoint (s := key.step) hf horizon
  refine h.ask hrec hb hw hqr fun right now₁ h₁ => ?_
  -- The fixpoint at the adjacent step, if there is one.
  suffices hadjacent : ∀ adjacent now₂, Pending given horizon m f key start now₂ →
      Sparing given horizon n (match adjacent with
        | none => Encoder.share key right
        | some adjacent => do
          let left ← encodeLeft rec window op lhs key.step
          let x ← Encoder.define key
          emitAll (fixpointRules op x left right adjacent)
          return x) now₂ by
    unfold encodeAdjacent
    cases hop : op.isFuture with
    | true =>
      rw [if_pos rfl, bind_map_left]
      exact h₁.ask hrec hb hw (hqf hop) fun lit now₂ h₂ => hadjacent (some lit) now₂ h₂
    | false =>
      rw [if_neg (by simp)]
      cases hback : window.shift key.step (-1) with
      | reached before =>
        have hs := (Window.eq_of_shift_back hback).1
        have hq := hqp hop (by omega)
        rw [hs, Nat.add_sub_cancel, ← hs] at hq
        dsimp only
        rw [bind_map_left]
        exact h₁.ask hrec hb hw hq fun lit now₂ h₂ => hadjacent (some lit) now₂ h₂
      | beforeStart | pending _ | afterEnd => exact hadjacent none now₁ h₁
  intro adjacent now₂ h₂
  cases adjacent with
  | none => exact h₂.share hb hpath right
  | some adjacent =>
    cases lhs with
    | none => exact h₂.define hb hpath _
    | some lhs =>
      exact h₂.ask hrec hb hw (hql lhs rfl) fun left now₃ h₃ => h₃.define hb hpath _

/-- A composite formula without an entry is answered, or the answer is refused. -/
theorem encodeNew (h : Pending given horizon m f key start now)
    (hrec : SparingAll given horizon rec) (hb : Bounded horizon n f key.step)
    (hw : window.horizon = horizon) (hatom : f.isAtom = false) :
    Sparing given horizon n (encodeNew rec window f key) now := by
  have htidy := h.spares.tidy
  cases f with
  | atom name args positive => cases hatom
  | bool value => exact h.share hb rfl _
  | initial => exact h.share hb rfl _
  | final =>
    unfold Encoder.encodeNew
    dsimp only
    split
    · exact h.share hb rfl _
    · split
      · exact h.share hb rfl _
      · have hq : (Formula.hasNext, key.step) ∈ Formula.final.requests horizon key.step := by
          simp [Formula.requests]
        have hw' : (window.withStage .always).horizon = horizon := hw
        exact h.ask hrec hb hw' hq fun next now₁ h₁ => h₁.share hb rfl _
  | not arg =>
    have hq : (arg, key.step) ∈ (Formula.not arg).requests horizon key.step := by
      simp [Formula.requests]
    exact h.ask hrec hb hw hq fun lit now₁ h₁ => h₁.share hb rfl _
  | binary op lhs rhs =>
    have hql : (lhs, key.step) ∈ (Formula.binary op lhs rhs).requests horizon key.step := by
      simp [Formula.requests]
    have hqr : (rhs, key.step) ∈ (Formula.binary op lhs rhs).requests horizon key.step := by
      simp [Formula.requests]
    exact h.ask hrec hb hw hql fun a now₁ h₁ =>
      h₁.ask hrec hb hw hqr fun b now₂ h₂ => h₂.define hb rfl _
  | previous arg weak =>
    unfold Encoder.encodeNew
    dsimp only
    cases hback : window.shift key.step (-1) with
    | reached before =>
      have hq : (arg, before) ∈ (Formula.previous arg weak).requests horizon key.step := by
        simp [Formula.requests, (Window.eq_of_shift_back hback).1]
      exact h.ask hrec hb hw hq fun lit now₁ h₁ => h₁.share hb rfl _
    | beforeStart | pending _ | afterEnd => exact h.share hb rfl _
  | next arg weak =>
    unfold Encoder.encodeNew checkAhead
    cases window.stage.licensesFuture with
    | false => exact .refuse htidy _
    | true =>
      dsimp only
      rw [if_pos rfl, pure_bind, window.shift_one, Window.next]
      by_cases hs : key.step + 1 ≤ window.horizon
      · have hq : (arg, key.step + 1) ∈ (Formula.next arg weak).requests horizon key.step := by
          simp [Formula.requests, ← hw, Nat.lt_of_succ_le hs]
        rw [if_pos hs]
        exact h.ask hrec hb hw hq fun lit now₁ h₁ => h₁.share hb rfl _
      · rw [if_neg hs]
        cases window.closed with
        | true => exact h.share hb rfl _
        | false => exact h.await hb rfl fun lit => ⟨lit, arg, key.step + 1, weak⟩
  | initially arg =>
    have hq : (arg, 0) ∈ (Formula.initially arg).requests horizon key.step := by
      simp [Formula.requests]
    exact h.ask hrec hb hw hq fun lit now₁ h₁ => h₁.share hb rfl _
  | temporal op lhs rhs => exact h.encodeFixpoint hrec hb hw (.temporal op lhs rhs)
  | modal op arg => exact h.encodeFixpoint hrec hb hw (.modal op arg)
  | dynamic modality path arg =>
    unfold Encoder.encodeNew checkPath
    dsimp only
    cases hpath : path.isNormal with
    | false => exact .refuse htidy _
    | true =>
      have hq : (Formula.unfoldPath modality path arg, key.step) ∈
          (Formula.dynamic modality path arg).requests horizon key.step := by
        simp [Formula.requests, hpath]
      rw [if_pos rfl, pure_bind]
      exact h.ask hrec hb hw hq fun lit now₁ h₁ => h₁.share hb hpath _

end Pending

/-! ## All answers -/

namespace Sparing

variable {given : List Rule} {horizon n : Nat}

theorem encodeStep {rec : Encoding} (hrec : SparingAll given horizon rec) :
    SparingAll given horizon (encodeStep rec) := by
  intro window f s n e hw h hb
  unfold Encoder.encodeStep
  rcases Nat.lt_or_ge window.horizon s with hs | hs
  · rw [checkStep_of_lt hs]
    exact .refuse h _
  · rw [checkStep_of_le hs]
    have hb := hb (hw ▸ hs)
    refine Sparing.bind (.pure h ()) fun _ _ hok _ => ?_
    cases hok
    cases hatom : f.isAtom with
    | true =>
      rw [if_pos rfl]
      exact .groundAtom h f s
    | false =>
      rw [if_neg (by simp)]
      have hkey := keyOf_does given h f s
      refine (of_same (.keyOf f s) hkey fun _ _ ha => ha.2).bind fun key now hok _ => ?_
      obtain ⟨hn, hnow⟩ : now.Names key f s ∧ Follows given e now (e.ledger given) := by
        unfold Does at hkey
        rw [hok] at hkey
        exact hkey
      have hlookup := lookup_does given hnow.tidy hn
      refine (of_same (.lookup key) hlookup fun _ _ ha => ha.2).bind fun lit looked hok _ => ?_
      obtain ⟨hlit, hlooked⟩ : lit = (now.ledger given).entry f s ∧
          Follows given now looked (now.ledger given) := by
        unfold Does at hlookup
        rw [hok] at hlookup
        exact hlookup
      cases lit with
      | some lit => exact .pure hlooked.tidy lit
      | none =>
        obtain ⟨m, hrequests, hdeep⟩ := exists_rank hb
        obtain rfl := hn.step_eq
        have hpending : Pending given horizon m f key looked looked :=
          { names := hn.mono hlooked.grown
            absent := by rw [hlooked.ledger_eq]; exact hlit.symm
            requests := hrequests
            deep := hdeep
            spares := .refl hlooked.tidy }
        exact hpending.encodeNew hrec hb hw hatom

theorem encodeWithin (given : List Rule) (horizon depth : Nat) :
    SparingAll given horizon (encodeWithin depth) := by
  induction depth with
  | zero => exact fun window f s n e _ h _ => ⟨rfl, .refl h⟩
  | succ depth ih => exact encodeStep ih

/-- **No request for a literal writes an entry twice**, whatever the formula, the window and
the step.  It leaves requirements, instances and carriers alone, also if it is
refused. -/
theorem encode (given : List Rule) (h : e.Tidy) (window : Window) (f : Formula) (s : Nat) :
    Sparing given window.horizon (f.unfoldDepth window.horizon) (encode window f s) e :=
  (register h f).bind fun _ _ _ ha => encodeWithin given window.horizon _ window f s _ _ rfl ha.tidy
    (f.bounded_unfoldDepth window.horizon s)

end Sparing
end Encoder
end TemporalHorizon

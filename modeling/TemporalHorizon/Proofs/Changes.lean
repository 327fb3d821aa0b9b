import Mathlib.Logic.Relation
import TemporalHorizon.Proofs.Operations

/-!
# The changes that an operation makes

An operation of the encoder may fail anywhere, and what it has done by then stays.  What
holds after it, whatever its outcome, is therefore a matter of the single changes that it
makes, and these are few.  They are listed here once, with what is known of the state in
which each is made; an operation is a sequence of them.

* `Encoder.Change`: one change in a window with a given horizon.  Nothing is taken away: a
  table or a list only gets something new, and what is left to later steps is left to steps
  after the horizon.
* `Along`: a computation that comes to a sequence of steps of one kind, also if it fails.
  The lemmas of this namespace follow the definitions of the encoder one by one.  For a
  request the steps are changes, up to `Along.encode`.
* `Encoder.Task`: one step of a requirement.  It is a change that leaves all literals alone,
  a ground atom that is asked for, or a request; `Along.require` takes a requirement apart
  into tasks, whatever its requests do, and `Along.changes` into changes.
* `Encoder.Turn`: a change, or one of the few things that an operation from outside does
  besides.  It rearranges the edge, binds a host literal or hands the rules over.
* `Encoder.Deed`: the same with ground atoms and requests left whole, for operations that
  neither bind anything nor hand the rules over.
-/

namespace TemporalHorizon

/-- A step that is still to come lies after the horizon. -/
theorem Window.lt_of_locate {window : Window} {place : Int} {target : Nat}
    (h : window.locate place = .pending target) : window.horizon < target := by
  unfold locate at h
  split at h
  · cases h
  · split at h
    · cases h
    · next hlt =>
      split at h
      · cases h
      · exact Position.pending.inj h ▸ Nat.lt_of_not_le hlt

theorem Window.lt_of_shift [Arithmetic] {window : Window} {step target : Nat} {offset : Int}
    (h : window.shift step offset = .pending target) : window.horizon < target :=
  lt_of_locate h

namespace Encoder

/-! ## One change -/

/-- One change of an encoder, made in a window with the given horizon. -/
inductive Change [Arithmetic] (horizon : Nat) : Encoder → Encoder → Prop
  /-- A formula is numbered. -/
  | number {e} (f : Formula) : Change horizon e (e.numbered f)
  /-- A lookup is counted. -/
  | count {e} (hits misses : Nat) :
    Change horizon e { e with cache := { e.cache with hits := hits, misses := misses } }
  /-- An atom is handed out. -/
  | supply {e} : Change horizon e { e with supply := e.supply.fresh.2 }
  /-- A rule is emitted. -/
  | post {e} (rule : Rule) : Change horizon e { e with rules := e.rules ++ [rule] }
  /-- A formula gets its literal. -/
  | write {e key} (lit : Lit) : e.cache.entry? key = none →
    Change horizon e { e with cache := e.cache.write key lit }
  /-- A ground atom, which is numbered, gets its literal. -/
  | enter {e f key} (lit : Lit) : e.ground.get? key = none → lit.negated = false →
    e.store.idOf? f = some key.formula → Change horizon e { e with ground :=
      { literals := e.ground.literals.insert key lit
        owners := e.ground.owners.insert lit.atom key } }
  /-- A boundary is opened. -/
  | await {e} (boundary : Boundary) : horizon < boundary.target →
    Change horizon e { e with edge := e.edge.openBoundary boundary }
  /-- A requirement is postponed. -/
  | postpone {e} (requirement : Deferred) : horizon < requirement.step →
    Change horizon e { e with edge := e.edge.defer requirement }
  /-- A requirement is taken on. -/
  | demand {e} (key : Key) (guard : List Lit) :
    Change horizon e { e with required := e.required ++ [(key, guard)] }
  /-- A carrier is left. -/
  | carry {e} (carrier : Carrier) :
    Change horizon e { e with carriers := e.carriers ++ [carrier] }
  /-- Instances are added or unrolled. -/
  | unroll {e} (instances : List Instance) :
    Change horizon e { e with edge := { e.edge with instances := instances } }

/-- Changes one after the other. -/
abbrev Changes [Arithmetic] (horizon : Nat) : Encoder → Encoder → Prop :=
  Relation.ReflTransGen (Change horizon)

/-- Emitting never fails; a rule that is simplified away is not posted. -/
theorem emit_ok (rule : Rule) (e : Encoder) :
    emit rule e = .ok () { e with rules := e.rules ++ (simplify? rule).toList } := by
  unfold emit
  cases simplify? rule with
  | none =>
    rw [Option.toList_none, List.append_nil]
    rfl
  | some rule => rfl

end Encoder

/-! ## Computations that come to steps -/

/-- A computation that comes to a sequence of steps of one kind, also if it fails. -/
def Along (step : Encoder → Encoder → Prop) {α : Type} (x : Encode α) : Prop :=
  ∀ e : Encoder, Relation.ReflTransGen step e (stateAfter x e)

namespace Along

variable {α β : Type}

open Encoder (Change)

section Steps

variable {step : Encoder → Encoder → Prop}

theorem of_error {x : Encode α} (h : Along step x) {e after : Encoder} {failure : Failure}
    (herror : x e = .error failure after) : Relation.ReflTransGen step e after :=
  stateAfter_error herror ▸ h e

theorem mono {later : Encoder → Encoder → Prop} {x : Encode α} (h : Along step x)
    (hstep : ∀ e after, step e after → later e after) : Along later x :=
  fun e => Relation.ReflTransGen.mono hstep _ _ (h e)

/-- Each step comes to steps of another kind. -/
theorem refine {finer : Encoder → Encoder → Prop} {x : Encode α} (h : Along step x)
    (hstep : ∀ e after, step e after → Relation.ReflTransGen finer e after) : Along finer x :=
  fun e => Relation.reflTransGen_closed hstep _ _ (h e)

theorem pure (a : α) : Along step (pure a : Encode α) := fun _ => .refl

/-- What follows steps that have been made may use their outcome. -/
theorem bind_at {x : Encode α} {next : α → Encode β} {e : Encoder}
    (hx : Relation.ReflTransGen step e (stateAfter x e))
    (hn : ∀ a after, x e = .ok a after →
      Relation.ReflTransGen step after (stateAfter (next a) after)) :
    Relation.ReflTransGen step e (stateAfter (x >>= next) e) := by
  cases h : x e with
  | ok a middle =>
    rw [stateAfter_ok h] at hx
    rw [stateAfter_bind_ok h]
    exact hx.trans (hn a middle h)
  | error failure middle =>
    rw [stateAfter_error h] at hx
    rw [stateAfter_error (bind_error h)]
    exact hx

theorem bind {x : Encode α} {next : α → Encode β} (hx : Along step x)
    (hn : ∀ a, Along step (next a)) : Along step (x >>= next) := fun e =>
  bind_at (hx e) fun a after _ => hn a after

theorem map {x : Encode α} (g : α → β) (hx : Along step x) : Along step (g <$> x) :=
  bind hx fun _ => pure _

/-- What is done with a state that has been looked at. -/
theorem get_bind {next : Encoder → Encode α}
    (h : ∀ e : Encoder, Relation.ReflTransGen step e (stateAfter (next e) e)) :
    Along step (get >>= next) := h

theorem get : Along step (get : Encode Encoder) := fun _ => .refl

theorem modifyGet {g : Encoder → α × Encoder} (h : ∀ e, step e (g e).2) :
    Along step (modifyGet g : Encode α) := fun e => .single (h e)

theorem modify {g : Encoder → Encoder} (h : ∀ e, step e (g e)) :
    Along step (modify g : Encode PUnit) := fun e => .single (h e)

theorem refuse (cause : Violation) : Along step (Encoder.refuse cause : Encode α) :=
  fun _ => .refl

theorem collapse (cause : Fault) : Along step (Encoder.collapse cause : Encode α) :=
  fun _ => .refl

theorem forM {xs : List α} {action : α → Encode PUnit} (h : ∀ x ∈ xs, Along step (action x)) :
    Along step (xs.forM action) := by
  induction xs with
  | nil => exact pure _
  | cons x xs ih =>
    exact bind (h x List.mem_cons_self) fun _ => ih fun y hy => h y (List.mem_cons_of_mem x hy)

/-! ## Checks, numbers and rules -/

theorem checkStep (window : Window) (s : Nat) : Along step (Encoder.checkStep window s) := by
  unfold Encoder.checkStep
  split
  · exact pure _
  · exact refuse _

theorem checkAhead (window : Window) (f : Formula) :
    Along step (Encoder.checkAhead window f) := by
  unfold Encoder.checkAhead
  split
  · exact pure _
  · exact refuse _

theorem checkPath (f : Formula) (path : Path) : Along step (Encoder.checkPath f path) := by
  unfold Encoder.checkPath
  split
  · exact pure _
  · exact refuse _

theorem checkNew (key : Key) (isNew : Bool) : Along step (Encoder.checkNew key isNew) := by
  unfold Encoder.checkNew
  split
  · exact pure _
  · exact collapse _

/-- A rule that is simplified away is not posted, and no step is made. -/
theorem posting (h : ∀ (e : Encoder) rule, step e { e with rules := e.rules ++ [rule] })
    (rule : Rule) : Along step (Encoder.emit rule) := by
  intro e
  rw [stateAfter_ok (Encoder.emit_ok rule e)]
  cases Encoder.simplify? rule with
  | none =>
    rw [Option.toList_none, List.append_nil]
  | some simple => exact .single (h e simple)

theorem tying (hpost : ∀ (e : Encoder) rule, step e { e with rules := e.rules ++ [rule] })
    (host lit : Lit) : Along step (Encoder.tieHost host lit) :=
  bind (posting hpost _) fun _ => forM fun rule _ => posting hpost rule

variable [Arithmetic]

/-- A literal is shared where there is none, and a host literal that waits is tied to it. -/
theorem sharing
    (hwrite : ∀ (e : Encoder) key lit, e.cache.entry? key = none →
      step e { e with cache := e.cache.write key lit })
    (hpost : ∀ (e : Encoder) rule, step e { e with rules := e.rules ++ [rule] })
    (key : Key) (lit : Lit) : Along step (Encoder.share key lit) := by
  refine get_bind fun e => ?_
  unfold Cache.share
  cases hentry : e.cache.entry? key with
  | some old => exact collapse _ e
  | none =>
    rw [if_neg (by simp)]
    cases e.cache.binding? key with
    | some host =>
      exact bind_at (.single (hwrite e key host hentry)) fun _ after _ =>
        bind (tying hpost host lit) (fun _ => pure _) after
    | none => exact bind_at (.single (hwrite e key lit hentry)) fun _ after _ => pure _ after

/-- A host literal is bound to a formula.  Nothing else is done unless the formula is an
atom. -/
theorem binding (hnumber : ∀ (e : Encoder) f, step e (e.numbered f))
    (hbind : ∀ (e : Encoder) key host cache, e.cache.bind? key host = some cache →
      step e { e with cache := cache })
    {f : Formula} {s : Nat} (hground : f.isAtom = true → Along step (Encoder.groundAtom f s))
    (hshare : ∀ key lit, Along step (Encoder.share key lit)) (host : Lit) :
    Along step (Encoder.bind f s host) := by
  have hkey : Along step (Encoder.keyOf f s) :=
    bind (modifyGet fun e => hnumber e f) fun _ => pure _
  refine bind hkey fun key => bind ?_ fun _ => get_bind fun e => ?_
  · unfold Encoder.checkHost
    split
    · exact refuse _
    · exact pure _
  · split
    · exact refuse _ e
    · next cache h =>
      refine bind_at (.single (hbind e key host cache h)) fun _ after _ => ?_
      split
      · next hatom =>
        exact bind (hground hatom) (fun lit => bind (hshare key lit) fun _ => pure _) after
      · exact pure _ after

end Steps

variable [Arithmetic] {horizon : Nat}

theorem register (f : Formula) : Along (Change horizon) (Encoder.register f) :=
  modifyGet fun _ => .number f

theorem keyOf (f : Formula) (step : Nat) : Along (Change horizon) (Encoder.keyOf f step) :=
  bind (register f) fun _ => pure _

theorem fresh : Along (Change horizon) Encoder.fresh := modifyGet fun _ => .supply

theorem emit (rule : Rule) : Along (Change horizon) (Encoder.emit rule) :=
  posting (fun _ rule => .post rule) rule

theorem emitAll (rules : List Rule) : Along (Change horizon) (Encoder.emitAll rules) :=
  forM fun rule _ => emit rule

/-! ## Literals -/

theorem lookup (key : Key) : Along (Change horizon) (Encoder.lookup key) := by
  refine modifyGet fun e => ?_
  dsimp only [Cache.lookup]
  split
  · exact .count _ _
  · exact .count _ _

theorem getOrCreate (key : Key) : Along (Change horizon) (Encoder.getOrCreate key) := by
  intro e
  show Relation.ReflTransGen _ e { e with
    cache := (e.cache.getOrCreate key e.supply).2.1
    supply := (e.cache.getOrCreate key e.supply).2.2 }
  have hcount : Change horizon e
      { e with cache := { e.cache with misses := e.cache.misses + 1 } } := .count _ _
  unfold Cache.getOrCreate Cache.lookup
  cases hentry : e.cache.entry? key with
  | some lit => exact .single (.count _ _)
  | none =>
    dsimp only
    split
    · exact (Relation.ReflTransGen.single hcount).tail (.write _ hentry)
    · exact ((Relation.ReflTransGen.single hcount).tail .supply).tail (.write _ hentry)

theorem define (key : Key) : Along (Change horizon) (Encoder.define key) :=
  bind (getOrCreate key) fun _ => bind (checkNew _ _) fun _ => bind (emit _) fun _ => pure _

theorem tieHost (host lit : Lit) : Along (Change horizon) (Encoder.tieHost host lit) :=
  tying (fun _ rule => .post rule) host lit

theorem share (key : Key) (lit : Lit) : Along (Change horizon) (Encoder.share key lit) :=
  sharing (fun _ _ lit => .write lit) (fun _ rule => .post rule) key lit

/-- A literal is entered for a formula that is numbered. -/
theorem entering {e : Encoder} {f : Formula} {key : Key}
    (hnumber : e.store.idOf? f = some key.formula) (lit : Lit) :
    Relation.ReflTransGen (Change horizon) e (stateAfter (Encoder.enterGround key lit) e) := by
  unfold Encoder.enterGround
  refine bind_at (get e) fun e' middle hget => ?_
  cases (Encoder.get_ok e).symm.trans hget
  unfold GroundTable.insert
  cases hneg : lit.negated with
  | true => exact .refl
  | false =>
    cases hfree : e.ground.get? key with
    | some old => exact .refl
    | none => exact .single (.enter lit hfree hneg hnumber)

theorem excludeOpposite (f : Formula) (step : Nat) (lit : Lit) :
    Along (Change horizon) (Encoder.excludeOpposite f step lit) := by
  refine bind get fun e => ?_
  split
  · exact emit _
  · exact pure _

theorem groundAtom (f : Formula) (step : Nat) :
    Along (Change horizon) (Encoder.groundAtom f step) := by
  intro e
  refine bind_at (keyOf f step e) fun key after hkey => ?_
  cases (Encoder.keyOf_ok e f step).symm.trans hkey
  refine bind_at (get _) fun e' middle hget => ?_
  cases (Encoder.get_ok _).symm.trans hget
  split
  · exact .refl
  · -- The formula has been numbered, and handing out an atom does not touch its number.
    refine bind_at (fresh _) fun lit supplied hfresh => ?_
    have hnumber : supplied.store.idOf? f = some (e.store.intern f).1 := by
      cases hfresh
      exact (e.store.intern_spec f).number
    refine bind_at (entering hnumber lit) fun _ after _ => ?_
    exact bind (excludeOpposite _ _ _) (fun _ => pure _) after

/-! ## Answers -/

section Answers

variable {rec : Encoder.Encoding} {window : Window}

/-- Requests come to changes, in every window with the horizon. -/
def Encoding (horizon : Nat) (rec : Encoder.Encoding) : Prop :=
  ∀ window f step, window.horizon = horizon → Along (Change horizon) (rec window f step)

theorem encodeFixpoint (h : Encoding horizon rec) (hw : window.horizon = horizon) (f : Formula)
    (key : Key) (op : Fixpoint) (lhs : Option Formula) (rhs : Formula) :
    Along (Change horizon) (Encoder.encodeFixpoint rec window f key op lhs rhs) := by
  refine bind (h _ _ _ hw) fun right => bind ?_ fun adjacent => ?_
  · unfold Encoder.encodeAdjacent
    split
    · exact map _ (h _ _ _ hw)
    · split
      · exact map _ (h _ _ _ hw)
      · exact pure _
  · split
    · exact share _ _
    · refine bind ?_ fun left => bind (define _) fun x => bind (emitAll _) fun _ => pure _
      cases lhs with
      | none => exact pure _
      | some lhs => exact h _ _ _ hw

theorem encodeNew (h : Encoding horizon rec) (hw : window.horizon = horizon) (f : Formula)
    (key : Key) : Along (Change horizon) (Encoder.encodeNew rec window f key) := by
  unfold Encoder.encodeNew
  dsimp only
  split
  · exact groundAtom _ _
  · exact share _ _
  · exact share _ _
  · split
    · exact share _ _
    · split
      · exact share _ _
      · exact bind (h _ _ _ hw) fun _ => share _ _
  · exact bind (h _ _ _ hw) fun _ => share _ _
  · exact bind (h _ _ _ hw) fun _ => bind (h _ _ _ hw) fun _ => bind (define _) fun _ =>
      bind (emitAll _) fun _ => pure _
  · split
    · exact bind (h _ _ _ hw) fun _ => share _ _
    · exact share _ _
  · refine bind (checkAhead _ _) fun _ => ?_
    split
    · exact bind (h _ _ _ hw) fun _ => share _ _
    · next target htarget =>
      have hafter := Window.lt_of_shift htarget
      exact bind (getOrCreate _) fun _ => bind (modify fun _ => .await _ (hw ▸ hafter)) fun _ =>
        pure _
    · exact share _ _
    · exact share _ _
  · exact bind (h _ _ _ hw) fun _ => share _ _
  · exact encodeFixpoint h hw _ _ _ _ _
  · exact encodeFixpoint h hw _ _ _ _ _
  · exact bind (checkPath _ _) fun _ => bind (h _ _ _ hw) fun _ => share _ _

theorem encodeStep (h : Encoding horizon rec) (hw : window.horizon = horizon) (f : Formula)
    (step : Nat) : Along (Change horizon) (Encoder.encodeStep rec window f step) := by
  refine bind (checkStep _ _) fun _ => ?_
  split
  · exact groundAtom _ _
  · refine bind (keyOf _ _) fun key => bind (lookup _) fun lit => ?_
    split
    · exact pure _
    · exact encodeNew h hw _ _

theorem encodeWithin (depth : Nat) : Encoding horizon (Encoder.encodeWithin depth) := by
  induction depth with
  | zero => exact fun window f step _ => collapse _
  | succ depth ih => exact fun window f step hw => encodeStep ih hw f step

theorem encode (hw : window.horizon = horizon) (f : Formula) (step : Nat) :
    Along (Change horizon) (Encoder.encode window f step) :=
  bind (register f) fun _ => encodeWithin _ _ _ _ hw

end Answers
end Along

/-! ## Requirements -/

namespace Encoder

variable [Arithmetic]

/-- One task of a requirement, in windows with the given edge. -/
inductive Task (edge : Instant) : Encoder → Encoder → Prop
  /-- A change that leaves representatives and ground atoms alone. -/
  | change {e after} : Change edge.index e after → after.cache = e.cache →
    after.ground = e.ground → Task edge e after
  /-- A ground atom is asked for. -/
  | ground {e f} (step : Nat) : f.isAtom = true → Task edge e (stateAfter (groundAtom f step) e)
  /-- A formula is asked for. -/
  | answer {e} {window : Window} (f : Formula) (step : Nat) : window.edge = edge →
    Task edge e (stateAfter (encode window f step) e)

theorem Task.changes {edge : Instant} {e after : Encoder} (h : Task edge e after) :
    Changes edge.index e after := by
  cases h with
  | change hchange _ _ => exact .single hchange
  | ground step _ => exact Along.groundAtom _ step e
  | answer f step hw => exact Along.encode (congrArg Instant.index hw) f step e

end Encoder

namespace Along

variable [Arithmetic] {α : Type} {edge : Instant}

open Encoder (Change Task)

/-- A computation that comes to tasks comes to changes. -/
theorem changes {x : Encode α} (h : Along (Task edge) x) : Along (Change edge.index) x :=
  h.refine fun _ _ => Task.changes

theorem emitTask (rule : Rule) : Along (Task edge) (Encoder.emit rule) :=
  posting (fun _ rule => .change (.post rule) rfl rfl) rule

theorem groundTask {f : Formula} (hatom : f.isAtom = true) (step : Nat) :
    Along (Task edge) (Encoder.groundAtom f step) := fun _ => .single (.ground step hatom)

theorem answerTask {window : Window} (hw : window.edge = edge) (f : Formula) (step : Nat) :
    Along (Task edge) (Encoder.encode window f step) := fun _ => .single (.answer f step hw)

theorem hasNextTask {window : Window} (hw : window.edge = edge) (step : Nat) :
    Along (Task edge) (Encoder.encodeHasNext window step) :=
  answerTask ((window.edge_withStage .always).trans hw) _ _

section Requirements

variable {rec : Encoder.Requiring} {window : Window}

/-- Requirements come to tasks, in every window with the edge. -/
def Requiring (edge : Instant) (rec : Encoder.Requiring) : Prop :=
  ∀ window f step guard, window.edge = edge → Along (Task edge) (rec window f step guard)

theorem sortDisjuncts (hw : window.edge = edge) (step : Nat) (fs : List Formula)
    (head : List Nat) (body : List Lit) :
    Along (Task edge) (Encoder.sortDisjuncts window step fs head body) := by
  fun_induction Encoder.sortDisjuncts window step fs head body with
  | case1 => exact pure _
  | case2 head body name args positive rest ih => exact bind (groundTask rfl _) ih
  | case3 => exact pure _
  | case4 head body rest ih => exact ih
  | case5 head body f rest _ _ _ ih => exact bind (answerTask hw _ _) ih

theorem requireDisjunction (hw : window.edge = edge) (f : Formula) (step : Nat)
    (guard : List Lit) :
    Along (Task edge) (Encoder.requireDisjunction window f step guard) := by
  refine bind (sortDisjuncts hw _ _ _ _) fun sorted => ?_
  split
  · exact emitTask _
  · exact pure _

theorem instanceWitness (h : Requiring edge rec) (hw : window.edge = edge)
    (inst : Instance) (guard : List Lit) (step : Nat) :
    Along (Task edge) (Encoder.instanceWitness rec window inst guard step) := by
  unfold Encoder.instanceWitness
  split
  · refine bind ?_ fun _ => bind (hasNextTask hw _) fun _ => bind (h _ _ _ _ hw) fun _ =>
      answerTask hw _ _
    unfold Encoder.requireOperands
    split
    · exact h _ _ _ _ hw
    · exact pure _
  · refine bind (h _ _ _ _ hw) fun _ => ?_
    split
    · exact answerTask hw _ _
    · exact pure _

theorem advance (h : Requiring edge rec) (hw : window.edge = edge) (inst : Instance)
    (step : Nat) : Along (Task edge) (Encoder.advance rec window inst step) := by
  refine bind (instanceWitness h hw _ _ _) fun witness =>
    bind (modifyGet fun _ => .change .supply rfl rfl) fun carrier => bind ?_ fun _ =>
      bind (emitTask _) fun _ => bind (modify fun _ => .change (.carry _) rfl rfl) fun _ => pure _
  unfold Encoder.carryOn
  split
  · exact emitTask _
  · exact pure _

theorem advanceThrough (h : Requiring edge rec) (hw : window.edge = edge)
    (count step : Nat) (inst : Instance) :
    Along (Task edge) (Encoder.advanceThrough rec window count step inst) := by
  induction count generalizing step inst with
  | zero => exact pure _
  | succ count ih => exact bind (advance h hw _ _) fun _ => ih _ _

theorem startInstance (h : Requiring edge rec) (hw : window.edge = edge)
    (inst : Instance) : Along (Task edge) (Encoder.startInstance rec window inst) :=
  bind (advanceThrough h hw _ _ _) fun _ => modify fun _ => .change (.unroll _) rfl rfl

theorem requireNext (h : Requiring edge rec) (hw : window.edge = edge) (f arg : Formula)
    (weak : Bool) (step : Nat) (guard : List Lit) :
    Along (Task edge) (Encoder.requireNext rec window f arg weak step guard) := by
  refine bind (checkAhead _ _) fun _ => ?_
  split
  · exact h _ _ _ _ hw
  · next target htarget =>
    have hafter : edge.index < target := hw ▸ Window.lt_of_locate htarget
    have hdefer : Along (Task edge) (Encoder.defer ⟨target, arg, guard⟩) :=
      modify fun _ => .change (.postpone _ hafter) rfl rfl
    split
    · exact hdefer
    · exact bind (bind (hasNextTask hw _) fun _ => emitTask _) fun _ => hdefer
  · split
    · exact pure _
    · exact emitTask _
  · split
    · exact pure _
    · exact emitTask _

theorem requireNew (h : Requiring edge rec) (hw : window.edge = edge) (f : Formula)
    (step : Nat) (guard : List Lit) :
    Along (Task edge) (Encoder.requireNew rec window f step guard) := by
  unfold Encoder.requireNew
  split
  · exact bind (groundTask rfl _) fun _ => emitTask _
  · exact pure _
  · exact emitTask _
  · exact bind (h _ _ _ _ hw) fun _ => h _ _ _ _ hw
  · exact requireDisjunction hw _ _ _
  · exact bind (answerTask hw _ _) fun _ => h _ _ _ _ hw
  · exact bind (answerTask hw _ _) fun _ => h _ _ _ _ hw
  · exact bind (answerTask hw _ _) fun _ => emitTask _
  · exact requireNext h hw _ _ _ _ _
  · exact bind (h _ _ _ _ hw) fun _ => h _ _ _ _ hw
  · exact startInstance h hw _
  · exact startInstance h hw _
  · exact startInstance h hw _
  all_goals exact bind (answerTask hw _ _) fun _ => emitTask _

theorem numberTask (f : Formula) : Along (Task edge) (Encoder.register f) :=
  modifyGet fun _ => .change (.number f) rfl rfl

theorem requireStep (h : Requiring edge rec) (hw : window.edge = edge) (f : Formula)
    (step : Nat) (guard : List Lit) :
    Along (Task edge) (Encoder.requireStep rec window f step guard) := by
  refine bind (checkStep _ _) fun _ => ?_
  split
  · exact pure _
  · refine bind (bind (numberTask f) fun _ => pure _) fun key => bind get fun e => ?_
    split
    · exact pure _
    · exact bind (modify fun _ => .change (.demand _ _) rfl rfl) fun _ => requireNew h hw _ _ _

theorem requireWithin (depth : Nat) : Requiring edge (Encoder.requireWithin depth) := by
  induction depth with
  | zero => exact fun window f step guard _ => collapse _
  | succ depth ih => exact fun window f step guard hw => requireStep ih hw f step guard

theorem require : Requiring edge Encoder.require := fun _ f _ _ hw =>
  bind (numberTask f) fun _ => requireWithin _ _ _ _ _ hw

end Requirements

/-! ## The edge -/

section Edge

variable {window : Window}

theorem tieBoundaries (hw : window.edge = edge) (step : Nat) (due : List Boundary) :
    Along (Task edge) (Encoder.tieBoundaries window step due) := by
  induction due with
  | nil => exact pure _
  | cons boundary due ih =>
    exact bind (answerTask hw _ _) fun _ => bind (emitTask _) fun _ => bind ih fun _ => pure _

theorem meetAll (hw : window.edge = edge) (step : Nat) (due : List Deferred) :
    Along (Task edge) (due.forM fun d => Encoder.require window d.formula step d.guard) :=
  forM fun _ _ => require _ _ _ _ hw

theorem advanceInstance (hw : window.edge = edge) (step number : Nat) :
    Along (Task edge) (Encoder.advanceInstance window step number) := by
  refine bind get fun e => ?_
  split
  · exact pure _
  · split
    · exact bind (advance require hw _ _) fun _ => modify fun _ => .change (.unroll _) rfl rfl
    · exact pure _

theorem advanceInstances (hw : window.edge = edge) (step : Nat) :
    Along (Task edge) (Encoder.advanceInstances window step) :=
  bind get fun _ => forM fun _ _ => advanceInstance hw _ _

end Edge
end Along

/-! ## From outside -/

namespace Encoder

variable [Arithmetic]

/-- One thing that an operation can do: a change in some window, or what only an operation
from outside does. -/
inductive Turn : Encoder → Encoder → Prop
  | change {horizon e after} : Change horizon e after → Turn e after
  /-- A path is numbered. -/
  | numberPath {e} (path : Path) : Turn e { e with store := (e.store.internPath path).2 }
  /-- A host literal is bound. -/
  | bind {e cache} (key : Key) (host : Lit) : e.cache.bind? key host = some cache →
    Turn e { e with cache := cache }
  /-- What has fallen due, or everything, is taken off the edge. -/
  | rearrange {e} (edge : Edge) : Turn e { e with edge := edge }
  /-- The rules are handed over. -/
  | handOver {e} : Turn e { e with rules := [] }

/-- One thing that an operation can do that neither binds anything nor hands the rules over,
if its windows have edges of one kind. -/
inductive Deed (kind : Instant → Prop) : Encoder → Encoder → Prop
  /-- A change that leaves representatives and ground atoms alone. -/
  | change (horizon : Nat) {e after} : Change horizon e after → after.cache = e.cache →
    after.ground = e.ground → Deed kind e after
  /-- A ground atom is asked for. -/
  | ground {e f} (step : Nat) : f.isAtom = true → Deed kind e (stateAfter (groundAtom f step) e)
  /-- A formula is asked for. -/
  | answer {e} {window : Window} (f : Formula) (step : Nat) : kind window.edge →
    Deed kind e (stateAfter (encode window f step) e)
  /-- A path is numbered. -/
  | numberPath {e} (path : Path) : Deed kind e { e with store := (e.store.internPath path).2 }
  /-- What has fallen due, or everything, is taken off the edge. -/
  | rearrange {e} (edge : Edge) : Deed kind e { e with edge := edge }

theorem Task.deed {kind : Instant → Prop} {edge : Instant} (hkind : kind edge) {e after : Encoder}
    (h : Task edge e after) : Deed kind e after := by
  cases h with
  | change hchange hcache hground => exact .change _ hchange hcache hground
  | ground step hatom => exact .ground step hatom
  | answer f step hw => exact .answer f step (hw ▸ hkind)

end Encoder

namespace Along

variable [Arithmetic]

open Encoder (Turn Change Task Deed)

/-- A computation that comes to tasks comes to deeds. -/
theorem deeds {α : Type} {kind : Instant → Prop} {edge : Instant} (hkind : kind edge)
    {x : Encode α} (h : Along (Task edge) x) : Along (Deed kind) x :=
  h.mono fun _ _ => Task.deed hkind

/-- A computation that comes to changes comes to turns. -/
theorem turn {α : Type} (horizon : Nat) {x : Encode α} (h : Along (Change horizon) x) :
    Along Turn x := h.mono fun _ _ => .change

theorem takeRules : Along Turn Encoder.takeRules := modifyGet fun _ => .handOver

theorem bindHost (f : Formula) (step : Nat) (host : Lit) :
    Along Turn (Encoder.bind f step host) :=
  binding (fun _ f => .change (@Change.number _ 0 _ f)) (fun _ key host _ => .bind key host)
    (fun _ => turn 0 (groundAtom f step)) (fun key lit => turn 0 (share key lit)) host

theorem resolveBoundaries (window : Window) (step : Nat) :
    Along Turn (Encoder.resolveBoundaries window step) :=
  bind (modifyGet fun _ => .rearrange _) fun _ => turn _ (tieBoundaries rfl _ _).changes

theorem runDeferred (window : Window) (step : Nat) :
    Along Turn (Encoder.runDeferred window step) :=
  bind (modifyGet fun _ => .rearrange _) fun _ => turn _ (meetAll rfl _ _).changes

theorem close : Along Turn Encoder.close :=
  bind get fun _ => bind (turn 0 (emitAll _)) fun _ =>
    bind (modify fun _ => .rearrange _) fun _ => pure _

end Along
end TemporalHorizon

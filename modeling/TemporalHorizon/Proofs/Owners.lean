import TemporalHorizon.Proofs.Exclusion
import TemporalHorizon.Proofs.Readability

/-!
# Owners of program atoms, and their names

A program atom that stands for an atom of the theory at a step is owned by it: the table of
ground atoms leads from the one to the other and back.  The name of a program atom is the
text of its owner, and names can be read back.

* `Encoder.Owned`: the way back is right.  Every turn of an operation keeps this, also where
  the numbers of atoms have wrapped around (`Owned.turn`).
* `Request.Asks`: the operations of the encoder that a request may need.  A request comes to
  such operations, whether or not it is granted (`Request.works`), so the owners are right
  whatever has been requested (`Unrolling.owned_serve`).
* `Unrolling.text_injective_and_names`: formulas and paths are determined by their texts, and
  program atoms by their names.
-/

namespace TemporalHorizon

/-! ## Owners -/

namespace Encoder

/-- The owner of a program atom is numbered, and has the atom as its literal. -/
structure Owned (e : Encoder) : Prop where
  legible : e.store.Legible
  ground : ∀ a key, e.ground.owner? a = some key → e.ground.get? key = some ⟨a, false⟩
  named : ∀ a key, e.ground.owner? a = some key → ∃ f, e.store.idOf? f = some key.formula

namespace Owned

variable {e after : Encoder}

/-- Where the ground atoms are left alone and the store only grows, the owners stay. -/
theorem frame (h : Owned e) (hground : after.ground = e.ground)
    (hstore : e.store.Extends after.store) (hlegible : after.store.Legible) : Owned after := by
  refine ⟨hlegible, hground ▸ h.ground, fun a key howner => ?_⟩
  rw [hground] at howner
  obtain ⟨f, hid⟩ := h.named a key howner
  exact ⟨f, Store.idOf?_mono hstore f hid⟩

/-- A ground atom that is entered was not there.  Should its program atom have had an owner,
that owner has it no longer. -/
theorem enter (h : Owned e) {f : Formula} {key : Key} {lit : Lit} (hfree : e.ground.get? key = none)
    (hpos : lit.negated = false) (hnumber : e.store.idOf? f = some key.formula) :
    Owned { e with ground :=
      { literals := e.ground.literals.insert key lit
        owners := e.ground.owners.insert lit.atom key } } := by
  have howners : ∀ a other, (e.ground.owners.insert lit.atom key).get? a = some other →
      lit.atom = a ∧ key = other ∨ e.ground.owner? a = some other := by
    intro a other howner
    rw [Table.get?_insert] at howner
    split at howner
    · next heq => exact .inl ⟨heq, Option.some_inj.1 howner⟩
    · exact .inr howner
  refine ⟨h.legible, fun a other howner => ?_, fun a other howner => ?_⟩
  · show (e.ground.literals.insert key lit).get? other = _
    rw [Table.get?_insert]
    rcases howners a other howner with ⟨rfl, rfl⟩ | hold
    · rw [if_pos rfl, ← hpos]
    · have hlit := h.ground a other hold
      rw [if_neg (by rintro rfl; rw [hfree] at hlit; cases hlit)]
      exact hlit
  · rcases howners a other howner with ⟨rfl, rfl⟩ | hold
    · exact ⟨f, hnumber⟩
    · exact h.named a other hold

variable [Arithmetic]

theorem turn (h : Owned e) (hturn : Turn e after) : Owned after := by
  cases hturn with
  | change hchange =>
    cases hchange with
    | number f => exact h.frame rfl (e.store.intern_spec f).grown (h.legible.intern f)
    | enter lit hfree hpos hnumber => exact h.enter hfree hpos hnumber
    | _ => exact h.frame rfl (.refl _) h.legible
  | numberPath path =>
    exact h.frame rfl (e.store.internPath_spec path).grown (h.legible.internPath path)
  | _ => exact h.frame rfl (.refl _) h.legible

theorem turns (h : Owned e) (hturns : Relation.ReflTransGen Turn e after) : Owned after := by
  induction hturns with
  | refl => exact h
  | tail _ hlast ih => exact ih.turn hlast

omit [Arithmetic] in
/-- Two program atoms with one owner are the same. -/
theorem eq_of_owner (h : Owned e) {a b : Nat} {key : Key}
    (ha : e.ground.owner? a = some key) (hb : e.ground.owner? b = some key) : a = b := by
  have heq := (h.ground a key ha).symm.trans (h.ground b key hb)
  exact congrArg Lit.atom (Option.some_inj.1 heq)

end Owned

end Encoder

section Requests

variable [Arithmetic]

/-! ## Operations of one kind -/

namespace Encoder

/-- An operation of one kind is performed, whether or not it succeeds. -/
inductive Performs (kind : Operation → Prop) (e : Encoder) : Encoder → Prop
  | perform {operation} : kind operation → Performs kind e (stateAfter operation.run e)

end Encoder

namespace Along

open Encoder (Performs Operation)

variable {α : Type} {kind : Operation → Prop}

theorem performs {operation : Operation} (h : kind operation) :
    Along (Performs kind) operation.run := fun _ => .single (.perform h)

omit [Arithmetic] in
theorem of_discard {step : Encoder → Encoder → Prop} {x : Encode α}
    (h : Along step (discard x : Encode Unit)) : Along step x := fun e =>
  stateAfter_discard x e ▸ h e

end Along

/-! ## What a request asks of the encoder -/

open Encoder (Operation Performs)

/-- The operations of the encoder that a request may need, in windows with the given
horizon. -/
inductive Request.Asks (theory : Theory) (horizon : Nat) : Request → Operation → Prop
  | boundaries {window} : window.horizon = horizon →
    Asks theory horizon .extend (.resolveBoundaries window horizon)
  | deferred {window} : window.horizon = horizon →
    Asks theory horizon .extend (.runDeferred window horizon)
  | instances {window} : window.horizon = horizon →
    Asks theory horizon .extend (.advanceInstances window horizon)
  | staged {window stage f} : window.horizon = horizon →
    (stage, f) ∈ theory.current ⟨horizon, false⟩ →
    Asks theory horizon .extend (.require window f horizon [])
  | ending {window} : window.horizon = horizon →
    Asks theory horizon .extend (.encode window .final horizon)
  | guarded {window f guard} : window.horizon = horizon → f ∈ theory.finals →
    Asks theory horizon .extend (.require window f horizon guard)
  | last {window f} : window.horizon = horizon → f ∈ theory.finals →
    Asks theory horizon (.close horizon) (.require window f horizon [])
  | close : Asks theory horizon (.close horizon) .close
  | encode {window f step} : window.horizon = horizon →
    Asks theory horizon (.encode f step) (.encode window f step)
  | require {window f step} : window.horizon = horizon →
    Asks theory horizon (.require f step) (.require window f step [])
  | bind {f step host} : Asks theory horizon (.bind f step host) (.bind f step host)
  | fresh : Asks theory horizon .newLiteral .fresh
  | takeRules {request} : Asks theory horizon request .takeRules

/-- The horizon of the windows that a request is served in. -/
def Request.horizon (u : Unrolling) : Request → Nat
  | .extend => u.nextStep
  | _ => (u.edge.getD ⟨0, false⟩).index

namespace Unrolling

/-- From an unrolling, a computation comes to operations of one kind. -/
def Works (kind : Operation → Prop) {α : Type} (x : Unroll α) (u : Unrolling) : Prop :=
  Relation.ReflTransGen (Performs kind) u.encoder (stateAfter x u).encoder

namespace Works

variable {kind : Operation → Prop} {α β : Type} {u : Unrolling}

theorem pure (a : α) : Works kind (pure a : Unroll α) u := .refl

theorem refuse (cause : Violation) : Works kind (refuse cause : Unroll α) u := .refl

theorem bind {x : Unroll α} {next : α → Unroll β} (hx : Works kind x u)
    (hn : ∀ a u, Works kind (next a) u) : Works kind (x >>= next) u := by
  unfold Works at hx ⊢
  cases h : x u with
  | ok a middle =>
    rw [stateAfter_ok h] at hx
    rw [stateAfter_bind_ok h]
    exact hx.trans (hn a middle)
  | error failure middle =>
    rw [stateAfter_error h] at hx
    rw [stateAfter_error (bind_error h)]
    exact hx

theorem discard {x : Unroll α} (hx : Works kind x u) :
    Works kind (Functor.discard x : Unroll Unit) u := by
  unfold Works
  rw [stateAfter_discard]
  exact hx

/-- What is done with the state that has been looked at. -/
theorem get_bind {next : Unrolling → Unroll α} (h : Works kind (next u) u) :
    Works kind (get >>= next) u := h

theorem ensure_bind {check : Except Violation Unit} {next : Unit → Unroll α}
    (h : check = .ok () → Works kind (next ()) u) : Works kind (ensure check >>= next) u := by
  cases check with
  | ok value => exact h rfl
  | error cause => exact .refl

theorem window_bind {next : Window → Unroll α}
    (h : ∀ edge, u.edge = some edge → Works kind (next ⟨edge.index, edge.last, .always⟩) u) :
    Works kind (window >>= next) u := by
  have hget : (get : Unroll Unrolling) u = .ok u u := rfl
  cases hedge : u.edge with
  | some edge =>
    have hwindow : window u = .ok ⟨edge.index, edge.last, .always⟩ u := by
      rw [window, bind_ok hget, hedge]
      rfl
    unfold Works
    rw [stateAfter_bind_ok hwindow]
    exact h edge hedge
  | none =>
    have hwindow : window u = .error (.violation (.outOfWindow 0 none)) u := by
      rw [window, bind_ok hget, hedge]
      rfl
    unfold Works
    rw [stateAfter_error (bind_error hwindow)]

theorem modify {g : Unrolling → Unrolling} (h : ∀ u, (g u).encoder = u.encoder) :
    Works kind (modify g : Unroll PUnit) u := by
  show Relation.ReflTransGen (Performs kind) u.encoder (g u).encoder
  rw [h u]

theorem withEncoder {action : Encode α} (h : Along (Performs kind) action) :
    Works kind (withEncoder action) u := by
  have hrun := h u.encoder
  unfold Works
  cases haction : action u.encoder with
  | ok a after =>
    rw [stateAfter_ok haction] at hrun
    rw [stateAfter_ok (withEncoder_ok haction)]
    exact hrun
  | error failure after =>
    rw [stateAfter_error haction] at hrun
    rw [stateAfter_error (withEncoder_error haction)]
    exact hrun

theorem record (batch : Batch) : Works kind (record batch) u :=
  modify fun u => by split <;> rfl

theorem takeRules (h : kind .takeRules) :
    Works kind (Unrolling.withEncoder Encoder.takeRules) u :=
  withEncoder (.of_discard (.performs h))

end Works

/-! ## Requests -/

open Request (Asks)

theorem performs_reachStep (theory : Theory) (step : Nat) :
    Along (Performs (Asks theory step .extend)) (reachStep theory step) := by
  have hwindow : ∀ stage, (Window.mk step false stage).horizon = step := fun _ => rfl
  refine .bind (.of_discard (.performs (Asks.boundaries (hwindow .always)))) fun released =>
    .bind (.performs (Asks.deferred (hwindow .always))) fun _ =>
    .bind (.performs (Asks.instances (hwindow .always))) fun _ =>
      .bind (.forM fun _ hentry => .performs (Asks.staged (hwindow _) hentry)) fun _ => ?_
  dsimp only
  split
  · exact .pure _
  · refine .bind (.bind (.of_discard (.performs (Asks.ending (hwindow .always)))) fun _ => ?_)
      fun _ => .pure _
    exact .forM fun _ hf => .performs (Asks.guarded (hwindow .final) hf)

theorem performs_closeStep (theory : Theory) (step : Nat) :
    Along (Performs (Asks theory step (.close step))) (closeStep theory step) := by
  have hwindow : (Window.mk step true .final).horizon = step := rfl
  exact .bind (.forM fun _ hf => .performs (Asks.last hwindow hf)) fun _ =>
    .of_discard (.performs Asks.close)

theorem works_extend (u : Unrolling) : Works (Asks u.theory u.nextStep .extend) extend u := by
  refine .get_bind ?_
  split
  · exact .refuse _
  · exact .bind (.withEncoder (performs_reachStep _ _)) fun _ _ =>
      .bind (.modify fun _ => rfl) fun _ _ => .bind (.takeRules .takeRules) fun _ _ =>
        .get_bind (.bind (.record _) fun _ _ => .pure _)

theorem works_close (u : Unrolling) (step : Nat) :
    Works (Asks u.theory (u.edge.getD ⟨0, false⟩).index (.close step)) (close step) u := by
  refine .get_bind ?_
  split
  · exact .refuse _
  · refine .ensure_bind fun hcheck => ?_
    have hedge : u.edge = some ⟨step, false⟩ := by
      unfold checkEdge at hcheck
      split at hcheck
      · assumption
      · cases hcheck
    rw [hedge, Option.getD_some]
    exact .bind (.withEncoder (performs_closeStep _ _)) fun _ _ =>
      .bind (.modify fun _ => rfl) fun _ _ => .get_bind (.ensure_bind fun _ =>
        .bind (.takeRules .takeRules) fun _ _ => .bind (.record _) fun _ _ => .pure _)

end Unrolling

/-- **A request comes to operations of the encoder**, whether or not it is granted. -/
theorem Request.works (request : Request) (u : Unrolling) :
    Unrolling.Works (request.Asks u.theory (request.horizon u)) request.run u := by
  cases request with
  | extend => exact (Unrolling.works_extend u).discard
  | close step => exact (Unrolling.works_close u step).discard
  | encode f step =>
    refine .discard (.ensure_bind fun _ => .window_bind fun edge hedge => .ensure_bind fun _ =>
      .bind (.withEncoder ?_) fun _ _ => .bind (.takeRules .takeRules) fun _ _ => .pure _)
    exact .of_discard (.performs (Asks.encode (by simp [horizon, hedge])))
  | require f step =>
    refine .discard (.ensure_bind fun _ => .window_bind fun edge hedge => .ensure_bind fun _ =>
      .bind (.withEncoder ?_) fun _ _ => .takeRules .takeRules)
    exact .performs (Asks.require (by simp [horizon, hedge]))
  | bind f step host =>
    exact .discard (.ensure_bind fun _ =>
      .bind (.withEncoder (.performs Asks.bind)) fun _ _ => .takeRules .takeRules)
  | newLiteral => exact .discard (.withEncoder (.of_discard (.performs Asks.fresh)))

/-! ## Every owner is right -/

theorem Encoder.Owned.performs {kind : Operation → Prop} {e after : Encoder} (h : e.Owned)
    (hsteps : Relation.ReflTransGen (Performs kind) e after) : after.Owned := by
  refine h.turns (Relation.reflTransGen_closed ?_ _ _ hsteps)
  rintro e _ ⟨-⟩
  exact Operation.turns _ e

namespace Unrolling

variable {theory : Theory} {recordHistory : Bool} {first : Unrolling}

omit [Arithmetic] in
theorem owned_start (h : start theory recordHistory = .ok first) : first.encoder.Owned := by
  obtain ⟨-, rfl⟩ := start_eq_ok_iff.1 h
  have hlegible : ∀ (formulas : List Formula) {store : Store}, store.Legible →
      (formulas.foldl (fun store f => (store.intern f).2) store).Legible := by
    intro formulas
    induction formulas with
    | nil => exact id
    | cons f rest ih => exact fun h => ih (h.intern f)
  exact ⟨hlegible _ Store.legible_empty, nofun, nofun⟩

theorem owned_serve {u : Unrolling} (h : u.encoder.Owned) (requests : List Request) :
    (u.serve requests).encoder.Owned := by
  induction requests generalizing u with
  | nil => exact h
  | cons request rest ih => exact ih (h.performs (request.works u))

end Unrolling

end Requests

/-! ## Names -/

namespace Encoder

/-- An owned atom has the name of its owner. -/
theorem Owned.describe?_eq {e : Encoder} (h : Owned e) {a : Nat} {key : Key}
    (howner : e.ground.owner? a = some key) :
    ∃ f, e.store.formula? key.formula = some f ∧ e.store.idOf? f = some key.formula ∧
      Unrolling.describe? e a = some (f.text ++ "@" ++ toString key.step) := by
  obtain ⟨f, hid⟩ := h.named a key howner
  have hread := h.legible.read hid
  refine ⟨f, hread, hid, ?_⟩
  simp [Unrolling.describe?, howner, hread]

/-- The owner of the program atom is a formula with plain names. -/
def PlainlyOwned (e : Encoder) (a : Nat) : Prop :=
  ∃ key f, e.ground.owner? a = some key ∧ e.store.formula? key.formula = some f ∧
    f.isPlain = true

theorem Owned.eq_of_describe?_eq {e : Encoder} (h : Owned e) {a b : Nat}
    (ha : e.PlainlyOwned a) (hb : e.PlainlyOwned b)
    (heq : Unrolling.describe? e a = Unrolling.describe? e b) : a = b := by
  obtain ⟨key, f, howner, hread, hplain⟩ := ha
  obtain ⟨other, g, howner', hread', hplain'⟩ := hb
  obtain ⟨_, hf, hid, hname⟩ := h.describe?_eq howner
  obtain ⟨_, hg, hid', hname'⟩ := h.describe?_eq howner'
  cases hread.symm.trans hf
  cases hread'.symm.trans hg
  rw [hname, hname', Option.some_inj] at heq
  obtain ⟨rfl, hstep⟩ := Formula.name_injective hplain hplain' heq
  have hkey : key = other := by
    cases key
    cases other
    cases hstep
    cases hid.symm.trans hid'
    rfl
  exact h.eq_of_owner howner (hkey ▸ howner')

end Encoder

/-- **Texts are unambiguous.**  Formulas whose names are words are the same if they have the
same text, and so are paths.  Hence, whatever has been requested of an unrolling, every
program atom that stands for an atom at a step has a name, and different such atoms have
different names. -/
theorem Unrolling.text_injective_and_names [Arithmetic] :
    (∀ f g : Formula, f.isPlain = true → g.isPlain = true → f.text = g.text → f = g) ∧
    (∀ p q : Path, p.isPlain = true → q.isPlain = true → p.text = q.text → p = q) ∧
    ∀ (theory : Theory) (recordHistory : Bool) (first : Unrolling),
      start theory recordHistory = .ok first → ∀ requests : List Request,
        let e := (first.serve requests).encoder
        (∀ a, (e.ground.owner? a).isSome → (describe? e a).isSome) ∧
        ∀ a b, e.PlainlyOwned a → e.PlainlyOwned b → a ≠ b → describe? e a ≠ describe? e b := by
  refine ⟨fun _ _ => Formula.text_injective, fun _ _ => Path.text_injective,
    fun theory recordHistory first hstart requests => ?_⟩
  have howned := owned_serve (owned_start hstart) requests
  refine ⟨fun a ha => ?_, fun a b ha hb hne heq => hne (howned.eq_of_describe?_eq ha hb heq)⟩
  obtain ⟨key, hkey⟩ := Option.isSome_iff_exists.1 ha
  obtain ⟨f, -, -, hname⟩ := howned.describe?_eq hkey
  rw [hname]
  rfl

/-- Two atoms of opposite sign, with a number, a word and a quoted text as arguments. -/
theorem Unrolling.text_injective_and_names_signed :
    let args : List Term := [.number (-1), .name "x", .quoted "a\"b"]
    let first : Unrolling := { theory := {} }
    let requests : List Request := [.extend, .require (.atom "p" args true) 0,
      .require (.atom "p" args false) 0]
    let e := (first.serve requests).encoder
    e.PlainlyOwned 2 ∧ e.PlainlyOwned 3 ∧
      describe? e 3 = some "-p(-1,x,\"a\\\"b\")@0" ∧ describe? e 2 ≠ describe? e 3 := by
  intro args first requests e
  have hfirst : e.PlainlyOwned 2 :=
    ⟨⟨⟨0⟩, 0⟩, .atom "p" args true, by decide +kernel, by decide +kernel, by decide +kernel⟩
  have hsecond : e.PlainlyOwned 3 :=
    ⟨⟨⟨1⟩, 0⟩, .atom "p" args false, by decide +kernel, by decide +kernel, by decide +kernel⟩
  have hname : describe? e 3 = some "-p(-1,x,\"a\\\"b\")@0" := by decide +kernel
  obtain ⟨-, -, hnames⟩ := text_injective_and_names
  exact ⟨hfirst, hsecond, hname,
    (hnames {} true first rfl requests).2 2 3 hfirst hsecond (by decide)⟩

end TemporalHorizon

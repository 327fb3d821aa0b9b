import TemporalHorizon.Proofs.Answers
import TemporalHorizon.Theory

/-!
# What a requirement leaves in the ledger

A requirement is a formula at a step under a guard.  It is met by rules of its own
(`Duty`), by requirements that it passes on (`Child`), or by both, and an until or
a release leaves a carrier at every step as well.  `HeadMove` lists what all this
can do to a ledger; requests for literals are among it.

Two descriptions of the same fact run through this module, one from above and one
from below.  Every requirement on the list is `Warranted`: it comes from the
theory or from a caller, directly or through requirements that pass it on.  And
every requirement on the list is `Met`: its own rules are posted and what it
passes on is on the list too.  The second is only true when the work on a
requirement is done, so it is not kept by single moves; it is what
`require_does`, the main statement, says of all requirements that are new.
-/

namespace TemporalHorizon

attribute [local instance] Arithmetic.exact

/-! ## Formulas in requirements -/

/-- A formula that is unrolled step by step when it is required: an eventually, an
until or a release, with its operands. -/
inductive Formula.Unrolls : Formula → Fixpoint → Option Formula → Formula → Prop
  | eventually (arg) : Unrolls (.modal .untl arg) .untl none arg
  | untl (lhs rhs) : Unrolls (.temporal .untl lhs rhs) .untl (some lhs) rhs
  | release (lhs rhs) : Unrolls (.temporal .release lhs rhs) .release (some lhs) rhs

/-- A formula that is required by excluding the negation of its literal. -/
def Formula.isExcluded : Formula → Bool
  | .initial | .final | .binary .equiv _ _ | .previous _ _ | .initially _
  | .temporal .since _ _ | .temporal .trigger _ _ | .modal .since _ | .modal .trigger _
  | .dynamic _ _ _ => true
  | _ => false

/-- Where the step after a given one lies. -/
def Instant.after (edge : Instant) (s : Nat) : Position :=
  (Window.mk edge.index edge.last .always).shift s 1

theorem Window.shift_one_eq {window : Window} {edge : Instant} (h : window.edge = edge) (s : Nat) :
    window.shift s 1 = edge.after s := by
  subst h
  rfl

theorem Instant.after_le {edge : Instant} {s t : Nat} (h : edge.after s = .reached t) :
    t ≤ edge.index :=
  (Window.eq_of_shift_one h).2

theorem Instant.eq_of_after {edge : Instant} {s t : Nat} (h : edge.after s = .reached t) :
    t = s + 1 :=
  (Window.eq_of_shift_one h).1

theorem Instant.le_of_after {edge : Instant} {s t : Nat} (h : edge.after s = .reached t) :
    s ≤ t := by
  rw [Instant.eq_of_after h]
  exact Nat.le_succ s

/-- Only an open edge has a step that is still to come. -/
theorem Instant.last_of_pending {edge : Instant} {s t : Nat} (h : edge.after s = .pending t) :
    edge.last = false := by
  cases hlast : edge.last with
  | false => rfl
  | true =>
    unfold Instant.after Window.shift Window.locate at h
    rw [hlast] at h
    split at h
    · cases h
    · split at h <;> cases h

/-- The edge has moved on; one that is the last step has not. -/
structure Instant.Precedes (edge later : Instant) : Prop where
  index_le : edge.index ≤ later.index
  eq_of_last : edge.last = true → later = edge

theorem Instant.Precedes.refl (edge : Instant) : edge.Precedes edge :=
  ⟨Nat.le_refl _, fun _ => rfl⟩

/-- A step that is reached or lies before the start does so at later edges too. -/
theorem Instant.Precedes.after_reached {edge later : Instant} (h : edge.Precedes later) {s t : Nat}
    (ha : edge.after s = .reached t) : later.after s = .reached t := by
  have hle := h.index_le
  unfold Instant.after Window.shift Window.locate at ha ⊢
  dsimp only at ha ⊢
  split at ha
  · cases ha
  · split at ha
    · next hneg hreached =>
      rw [if_neg hneg, if_pos (by omega)]
      exact ha
    · split at ha <;> cases ha

theorem Instant.Precedes.after_none {edge later : Instant} (h : edge.Precedes later) {s : Nat}
    (ha : edge.after s = .afterEnd ∨ edge.after s = .beforeStart) :
    later.after s = .afterEnd ∨ later.after s = .beforeStart := by
  cases hlast : edge.last with
  | true => rwa [h.eq_of_last hlast]
  | false =>
    unfold Instant.after Window.shift Window.locate at ha ⊢
    dsimp only at ha ⊢
    rw [hlast] at ha
    split
    · exact .inr rfl
    · next hneg =>
      rw [if_neg hneg] at ha
      split at ha <;> rcases ha with ha | ha <;> cases ha

/-- The formulas of a theory, and those that a caller has required. -/
structure Brief where
  theory : Theory
  demands : List (Formula × Nat)

/-- The guard of an instance at a step: nothing is required once the carrier of the
step before holds. -/
def stepGuard (guard : List Lit) (earlier : Option Lit) : List Lit :=
  guard ++ (earlier.map (- ·)).toList

/-- Disjuncts sorted into a head of atoms and a body of negated literals. -/
inductive Sheet.Sorted (lit : Sheet) (s : Nat) : List Formula → List Nat → List Lit → Prop
  | nil : Sorted lit s [] [] []
  | atom {f rest a head body} : f.isAtom = true → lit f s = some a →
    Sorted lit s rest head body → Sorted lit s (f :: rest) (a.atom :: head) body
  | falsity {rest head body} : Sorted lit s rest head body →
    Sorted lit s (.bool false :: rest) head body
  | other {f rest x head body} : f.isAtom = false → (∀ value, f ≠ .bool value) →
    lit f s = some x → Sorted lit s rest head body → Sorted lit s (f :: rest) head (-x :: body)

theorem Sheet.Sorted.mono {lit lit' : Sheet} {s : Nat} {fs : List Formula} {head : List Nat}
    {body : List Lit} (h : lit.Sorted s fs head body) (hlit : lit.Below lit') :
    lit'.Sorted s fs head body := by
  induction h with
  | nil => exact .nil
  | atom hf ha _ ih => exact .atom hf (hlit _ _ _ ha) ih
  | falsity _ ih => exact .falsity ih
  | other hf hbool hx _ ih => exact .other hf hbool (hlit _ _ _ hx) ih

/-- The constant true is among the disjuncts, and those before it have been
sorted. -/
inductive Sheet.CutShort (lit : Sheet) (s : Nat) (fs : List Formula) : Prop
  | intro {front rest head body} : fs = front ++ .bool true :: rest →
    lit.Sorted s front head body → CutShort lit s fs

theorem Sheet.CutShort.mono {lit lit' : Sheet} {s : Nat} {fs : List Formula}
    (h : lit.CutShort s fs) (hlit : lit.Below lit') : lit'.CutShort s fs := by
  obtain ⟨hfs, hs⟩ := h
  exact ⟨hfs, hs.mono hlit⟩

theorem Sheet.CutShort.truth_mem {lit : Sheet} {s : Nat} {fs : List Formula}
    (h : lit.CutShort s fs) : .bool true ∈ fs := by
  obtain ⟨rfl, -⟩ := h
  exact List.mem_append_right _ List.mem_cons_self

namespace Ledger

/-- A rule has been posted, in its simplified form. -/
def Posted (ledger : Ledger) (rule : Rule) : Prop :=
  ∀ simple, Encoder.simplify? rule = some simple → simple ∈ ledger.rules

/-- A requirement has been taken on, or its guard is false. -/
def Owes (ledger : Ledger) (f : Formula) (s : Nat) (guard : List Lit) : Prop :=
  Lit.falsity ∈ guard ∨ ledger.required f s (Encoder.guardSet guard)

/-- The carrier that an instance has left at the step before a given one. -/
inductive Earlier (ledger : Ledger) (f : Formula) (origin : Nat) : Nat → Option Lit → Prop
  | start : Earlier ledger f origin origin none
  | step {t c} : origin ≤ t → ⟨f, origin, t, c⟩ ∈ ledger.carriers →
    Earlier ledger f origin (t + 1) (some c)

/-- The requirements that a requirement passes on. -/
inductive Child (edge : Instant) (ledger : Ledger) :
    Formula → Nat → List Lit → Formula → Nat → List Lit → Prop
  | andLeft {lhs rhs s guard} :
    Child edge ledger (.binary .and lhs rhs) s guard lhs s guard
  | andRight {lhs rhs s guard} :
    Child edge ledger (.binary .and lhs rhs) s guard rhs s guard
  | implies {lhs rhs s guard x} : ledger.lit lhs s = some x →
    Child edge ledger (.binary .implies lhs rhs) s guard rhs s (guard ++ [x])
  | implied {lhs rhs s guard x} : ledger.lit rhs s = some x →
    Child edge ledger (.binary .implied lhs rhs) s guard lhs s (guard ++ [x])
  | next {arg weak s guard t} : edge.after s = .reached t →
    Child edge ledger (.next arg weak) s guard arg t guard
  | alwaysNow {arg s guard} :
    Child edge ledger (.modal .release arg) s guard arg s guard
  | alwaysNext {arg s guard} :
    Child edge ledger (.modal .release arg) s guard (.next (.modal .release arg) true) s guard
  | operands {f lhs rhs o guard t earlier} : f.Unrolls .untl (some lhs) rhs → o ≤ t →
    t ≤ edge.index → ledger.Earlier f o t earlier →
    Child edge ledger f o guard (.or lhs rhs) t (stepGuard guard earlier)
  | settle {f lhs rhs o guard t earlier n} : f.Unrolls .untl lhs rhs → o ≤ t →
    t ≤ edge.index → ledger.Earlier f o t earlier → ledger.lit Formula.hasNext t = some n →
    Child edge ledger f o guard rhs t (stepGuard guard earlier ++ [-n])
  | hold {f lhs rhs o guard t earlier} : f.Unrolls .release lhs rhs → o ≤ t →
    t ≤ edge.index → ledger.Earlier f o t earlier →
    Child edge ledger f o guard rhs t (stepGuard guard earlier)

/-- The requirements that come from the theory or a caller, directly or passed on.
A formula of the final stage is required at every step under the guard that it is
the last one, and at the last step without it. -/
inductive Warranted (brief : Brief) (edge : Instant) (ledger : Ledger) :
    Formula → Nat → List Lit → Prop
  | staged {stage f k} : (stage, f) ∈ brief.theory.current ⟨k, false⟩ → k ≤ edge.index →
    Warranted brief edge ledger f k []
  | guarded {f k g} : f ∈ brief.theory.finals → k ≤ edge.index →
    ledger.lit .final k = some g → Warranted brief edge ledger f k [g]
  | last {f} : f ∈ brief.theory.finals → edge.last = true →
    Warranted brief edge ledger f edge.index []
  | demanded {f s} : (f, s) ∈ brief.demands → s ≤ edge.index → Warranted brief edge ledger f s []
  | child {f s guard g t guard'} : Warranted brief edge ledger f s guard →
    Child edge ledger f s (Encoder.guardSet guard) g t guard' →
    Warranted brief edge ledger g t guard'

/-- The rules of a requirement itself, before they are simplified. -/
inductive Duty (edge : Instant) (ledger : Ledger) : Formula → Nat → List Lit → Rule → Prop
  | atom {f s guard a} : f.isAtom = true → ledger.ground f s = some a →
    Duty edge ledger f s guard (.normal a.atom guard)
  | falsity {s guard} : Duty edge ledger (.bool false) s guard (.constraint guard)
  | or {lhs rhs s guard head body} :
    ledger.lit.Sorted s (Formula.binary .or lhs rhs).disjuncts head body →
    Duty edge ledger (.binary .or lhs rhs) s guard (.disjunctive head (guard ++ body))
  | not {arg s guard x} : ledger.lit arg s = some x →
    Duty edge ledger (.not arg) s guard (.constraint (guard ++ [x]))
  | stepAfter {arg s guard n} : ledger.lit Formula.hasNext s = some n →
    Duty edge ledger (.next arg false) s guard (.constraint (guard ++ [-n]))
  | noStep {arg s guard} : edge.after s = .afterEnd ∨ edge.after s = .beforeStart →
    Duty edge ledger (.next arg false) s guard (.constraint guard)
  | excluded {f s guard x} : f.isExcluded = true → ledger.lit f s = some x →
    Duty edge ledger f s guard (.constraint (guard ++ [-x]))

/-- The ledger with a requirement on its list. -/
def demand (ledger : Ledger) (f : Formula) (s : Nat) (guard : List Lit) : Ledger :=
  { ledger with
    required := fun g t guard' =>
      ledger.required g t guard' ∨ g = f ∧ t = s ∧ guard' = guard }

/-- The rules of a carrier: carried on, or settled by a witness. -/
def carrierRules (carrier : Lit) (earlier : Option Lit) (witness : Lit) : List Rule :=
  earlier.toList.map (fun earlier => .normal carrier.atom [earlier]) ++
    [.normal carrier.atom [witness]]

/-- The ledger with a new carrier. -/
def carry (ledger : Ledger) (f : Formula) (origin t : Nat) (earlier : Option Lit)
    (witness : Lit) : Ledger :=
  { ledger with
    next := ledger.next + 1
    carriers := ledger.carriers ++ [Carrier.mk f origin t ⟨ledger.next, false⟩] }.post
      (carrierRules ⟨ledger.next, false⟩ earlier witness)

/-- The formula that settles an unrolled formula when it holds. -/
def witnessOf (op : Fixpoint) (lhs : Option Formula) (rhs : Formula) : Formula :=
  match op with
  | .untl => rhs
  | _ => lhs.getD (.bool false)

/-- What a requirement can do to a ledger at a time.  New requirements and the rules
of requirements are for the steps from `first` on. -/
inductive HeadMove (brief : Brief) (edge : Instant) (first : Nat) (ledger : Ledger) :
    Ledger → Prop
  | body {later} : Move edge ledger later → HeadMove brief edge first ledger later
  | demand {f s guard} : f.malformedPath? = none → first ≤ s → s ≤ edge.index →
    Warranted brief edge ledger f s guard →
    HeadMove brief edge first ledger (ledger.demand f s (Encoder.guardSet guard))
  | duty {f s guard rule} : first ≤ s → ledger.required f s guard →
    Duty edge ledger f s guard rule → HeadMove brief edge first ledger (ledger.post [rule])
  | defer {arg weak s guard t} : (Formula.next arg weak).malformedPath? = none →
    ledger.required (.next arg weak) s guard → edge.after s = .pending t →
    HeadMove brief edge first ledger
      { ledger with edge := ledger.edge.defer ⟨t, arg, guard⟩ }
  | carry {f op lhs rhs o guard t earlier w} : ledger.required f o guard →
    f.Unrolls op lhs rhs → o ≤ t → t ≤ edge.index → ledger.Earlier f o t earlier →
    ledger.lit (witnessOf op lhs rhs) t = some w →
    HeadMove brief edge first ledger (ledger.carry f o t earlier w)
  | rest {inst} : inst.formula.malformedPath? = none →
    ledger.required inst.formula inst.origin inst.guard →
    inst.formula.Unrolls inst.op inst.lhs inst.rhs → inst.last = edge.index →
    inst.origin ≤ edge.index → ledger.Earlier inst.formula inst.origin (edge.index + 1) inst.carrier →
    HeadMove brief edge first ledger
      { ledger with edge := ledger.edge.addInstance inst }

/-- Moves of requirements one after the other. -/
abbrev HeadMoves (brief : Brief) (edge : Instant) (first : Nat) : Ledger → Ledger → Prop :=
  Relation.ReflTransGen (HeadMove brief edge first)

/-! ## Requirements that are met -/

/-- What an unrolled formula requires at a step under the guard of that step. -/
inductive Prepared (ledger : Ledger) (t : Nat) (guard : List Lit) :
    Fixpoint → Option Formula → Formula → Prop
  | eventually {rhs n} : ledger.lit Formula.hasNext t = some n →
    ledger.Owes rhs t (guard ++ [-n]) → Prepared ledger t guard .untl none rhs
  | untl {lhs rhs n} : ledger.Owes (.or lhs rhs) t guard →
    ledger.lit Formula.hasNext t = some n → ledger.Owes rhs t (guard ++ [-n]) →
    Prepared ledger t guard .untl (some lhs) rhs
  | release {lhs rhs} : ledger.Owes rhs t guard → Prepared ledger t guard .release (some lhs) rhs

/-- What an unrolled formula leaves at a step: the requirements there, a carrier,
and the rules of the carrier. -/
inductive Stepped (ledger : Ledger) (f : Formula) (origin : Nat) (guard : List Lit) (t : Nat)
    (earlier : Option Lit) (carrier : Lit) : Prop
  | intro {op lhs rhs w} : f.Unrolls op lhs rhs →
    ledger.Prepared t (stepGuard guard earlier) op lhs rhs →
    ledger.lit (witnessOf op lhs rhs) t = some w →
    (∀ rule ∈ carrierRules carrier earlier w, ledger.Posted rule) →
    ⟨f, origin, t, carrier⟩ ∈ ledger.carriers → Stepped ledger f origin guard t earlier carrier

/-- A formula has been unrolled at all steps from its origin up to the one before a
given step, where it has left the given carrier. -/
inductive Unrolled (ledger : Ledger) (f : Formula) (origin : Nat) (guard : List Lit) :
    Nat → Option Lit → Prop
  | start : Unrolled ledger f origin guard origin none
  | step {t earlier carrier} : Unrolled ledger f origin guard t earlier →
    ledger.Stepped f origin guard t earlier carrier →
    Unrolled ledger f origin guard (t + 1) (some carrier)

/-- An unrolled formula waits at the edge for the next step. -/
def Waits (ledger : Ledger) (f : Formula) (origin : Nat) (guard : List Lit) (last : Nat)
    (carrier : Option Lit) : Prop :=
  ∃ inst ∈ ledger.edge.instances, inst.formula = f ∧ inst.origin = origin ∧ inst.guard = guard ∧
    inst.last = last ∧ inst.carrier = carrier

/-- A requirement is met: its rules are posted and what it passes on is on the
list.  What it passes on to a step that is still to come waits at the edge. -/
inductive Met (edge : Instant) (ledger : Ledger) : Formula → Nat → List Lit → Prop
  | atom {f s guard a} : f.isAtom = true → ledger.ground f s = some a →
    ledger.Posted (.normal a.atom guard) → Met edge ledger f s guard
  | truth {s guard} : Met edge ledger (.bool true) s guard
  | falsity {s guard} : ledger.Posted (.constraint guard) → Met edge ledger (.bool false) s guard
  | and {lhs rhs s guard} : ledger.Owes lhs s guard → ledger.Owes rhs s guard →
    Met edge ledger (.binary .and lhs rhs) s guard
  | orTrue {lhs rhs s guard} : ledger.lit.CutShort s (Formula.binary .or lhs rhs).disjuncts →
    Met edge ledger (.binary .or lhs rhs) s guard
  | or {lhs rhs s guard head body} :
    ledger.lit.Sorted s (Formula.binary .or lhs rhs).disjuncts head body →
    ledger.Posted (.disjunctive head (guard ++ body)) → Met edge ledger (.binary .or lhs rhs) s guard
  | implies {lhs rhs s guard x} : ledger.lit lhs s = some x → ledger.Owes rhs s (guard ++ [x]) →
    Met edge ledger (.binary .implies lhs rhs) s guard
  | implied {lhs rhs s guard x} : ledger.lit rhs s = some x → ledger.Owes lhs s (guard ++ [x]) →
    Met edge ledger (.binary .implied lhs rhs) s guard
  | not {arg s guard x} : ledger.lit arg s = some x → ledger.Posted (.constraint (guard ++ [x])) →
    Met edge ledger (.not arg) s guard
  | nextReached {arg weak s guard t} : edge.after s = .reached t → ledger.Owes arg t guard →
    Met edge ledger (.next arg weak) s guard
  | nextPending {arg weak s guard t} : (Instant.mk edge.index false).after s = .pending t →
    (weak = false → ∃ n, ledger.lit Formula.hasNext s = some n ∧
      ledger.Posted (.constraint (guard ++ [-n]))) →
    (edge.last = false → ⟨t, arg, guard⟩ ∈ ledger.edge.deferred) →
    Met edge ledger (.next arg weak) s guard
  | nextNone {arg weak s guard} : edge.after s = .afterEnd ∨ edge.after s = .beforeStart →
    (weak = false → ledger.Posted (.constraint guard)) → Met edge ledger (.next arg weak) s guard
  | always {arg s guard} : ledger.Owes arg s guard →
    ledger.Owes (.next (.modal .release arg) true) s guard →
    Met edge ledger (.modal .release arg) s guard
  | unrolled {f op lhs rhs s guard carrier} : f.Unrolls op lhs rhs →
    ledger.Unrolled f s guard (edge.index + 1) carrier →
    (edge.last = false → ledger.Waits f s guard edge.index carrier) → Met edge ledger f s guard
  | excluded {f s guard x} : f.isExcluded = true → ledger.lit f s = some x →
    ledger.Posted (.constraint (guard ++ [-x])) → Met edge ledger f s guard

/-! ### What is known of a met requirement

One lemma for each shape of the formula.  An atom, an unrolled formula and an excluded one
are recognised by a property and not by their shape, so every other shape has to rule out
these three ways to be met. -/

namespace Met

variable {edge : Instant} {ledger : Ledger} {f arg lhs rhs : Formula} {s : Nat} {guard : List Lit}

theorem atom_of (hm : Met edge ledger f s guard) (hf : f.isAtom = true) :
    ∃ a, ledger.ground f s = some a ∧ ledger.Posted (.normal a.atom guard) := by
  cases hm with
  | atom _ ha hposted => exact ⟨_, ha, hposted⟩
  | unrolled hunrolls _ _ => cases hunrolls <;> cases hf
  | excluded hexcluded _ _ =>
    cases f with
    | atom name args positive => cases hexcluded
    | _ => cases hf
  | _ => cases hf

theorem unrolled_of (hm : Met edge ledger f s guard) {op : Fixpoint} {left : Option Formula}
    (hf : f.Unrolls op left rhs) :
    ∃ carrier, ledger.Unrolled f s guard (edge.index + 1) carrier := by
  cases hm with
  | unrolled _ hu _ => exact ⟨_, hu⟩
  | atom hatom _ _ => cases hf <;> cases hatom
  | excluded hexcluded _ _ => cases hf <;> cases hexcluded
  | _ => cases hf

theorem excluded_of (hm : Met edge ledger f s guard) (hf : f.isExcluded = true) :
    ∃ x, ledger.lit f s = some x ∧ ledger.Posted (.constraint (guard ++ [-x])) := by
  cases hm with
  | excluded _ hx hposted => exact ⟨_, hx, hposted⟩
  | atom hatom _ _ =>
    cases f with
    | atom name args positive => cases hf
    | _ => cases hatom
  | unrolled hunrolls _ _ => cases hunrolls <;> cases hf
  | _ => cases hf

theorem falsity_of (hm : Met edge ledger (.bool false) s guard) :
    ledger.Posted (.constraint guard) := by
  cases hm with
  | falsity hposted => exact hposted
  | atom hf _ _ | unrolled hf _ _ | excluded hf _ _ => cases hf

theorem not_of (hm : Met edge ledger (.not arg) s guard) :
    ∃ x, ledger.lit arg s = some x ∧ ledger.Posted (.constraint (guard ++ [x])) := by
  cases hm with
  | not hx hposted => exact ⟨_, hx, hposted⟩
  | atom hf _ _ | unrolled hf _ _ | excluded hf _ _ => cases hf

theorem and_of (hm : Met edge ledger (.binary .and lhs rhs) s guard) :
    ledger.Owes lhs s guard ∧ ledger.Owes rhs s guard := by
  cases hm with
  | and hl hr => exact ⟨hl, hr⟩
  | atom hf _ _ | unrolled hf _ _ | excluded hf _ _ => cases hf

theorem or_of (hm : Met edge ledger (.binary .or lhs rhs) s guard) :
    ledger.lit.CutShort s (Formula.binary .or lhs rhs).disjuncts ∨
      ∃ head body, ledger.lit.Sorted s (Formula.binary .or lhs rhs).disjuncts head body ∧
        ledger.Posted (.disjunctive head (guard ++ body)) := by
  cases hm with
  | orTrue hcut => exact .inl hcut
  | or hsorted hposted => exact .inr ⟨_, _, hsorted, hposted⟩
  | atom hf _ _ | unrolled hf _ _ | excluded hf _ _ => cases hf

theorem implies_of (hm : Met edge ledger (.binary .implies lhs rhs) s guard) :
    ∃ x, ledger.lit lhs s = some x ∧ ledger.Owes rhs s (guard ++ [x]) := by
  cases hm with
  | implies hx howes => exact ⟨_, hx, howes⟩
  | atom hf _ _ | unrolled hf _ _ | excluded hf _ _ => cases hf

theorem implied_of (hm : Met edge ledger (.binary .implied lhs rhs) s guard) :
    ∃ x, ledger.lit rhs s = some x ∧ ledger.Owes lhs s (guard ++ [x]) := by
  cases hm with
  | implied hx howes => exact ⟨_, hx, howes⟩
  | atom hf _ _ | unrolled hf _ _ | excluded hf _ _ => cases hf

theorem next_of {weak : Bool} (hm : Met edge ledger (.next arg weak) s guard) :
    (∃ t, edge.after s = .reached t ∧ ledger.Owes arg t guard) ∨
    (∃ t, (Instant.mk edge.index false).after s = .pending t ∧
      (weak = false → ∃ n, ledger.lit Formula.hasNext s = some n ∧
        ledger.Posted (.constraint (guard ++ [-n])))) ∨
    ((edge.after s = .afterEnd ∨ edge.after s = .beforeStart) ∧
      (weak = false → ledger.Posted (.constraint guard))) := by
  cases hm with
  | nextReached ha howes => exact .inl ⟨_, ha, howes⟩
  | nextPending ha hstrong _ => exact .inr (.inl ⟨_, ha, hstrong⟩)
  | nextNone ha hstrong => exact .inr (.inr ⟨ha, hstrong⟩)
  | atom hf _ _ | unrolled hf _ _ | excluded hf _ _ => cases hf

theorem always_of (hm : Met edge ledger (.modal .release arg) s guard) :
    ledger.Owes arg s guard ∧ ledger.Owes (.next (.modal .release arg) true) s guard := by
  cases hm with
  | always hnow hnext => exact ⟨hnow, hnext⟩
  | atom hf _ _ | unrolled hf _ _ | excluded hf _ _ => cases hf

end Met

section Growing

variable {ledger later : Ledger}

theorem Posted.mono (h : ledger.Keeps later) {rule : Rule} (hp : ledger.Posted rule) :
    later.Posted rule := fun simple hs => h.mem_rules (hp simple hs)

theorem posted_post (ledger : Ledger) {rules : List Rule} {rule : Rule} (hr : rule ∈ rules) :
    (ledger.post rules).Posted rule := fun _ hs =>
  List.mem_append_right _ (List.mem_filterMap.2 ⟨rule, hr, hs⟩)

theorem Owes.mono (h : ledger.Keeps later) {f : Formula} {s : Nat} {guard : List Lit}
    (ho : ledger.Owes f s guard) : later.Owes f s guard :=
  ho.imp_right (h.required _ _ _)

theorem Earlier.mono (h : ledger.Keeps later) {f : Formula} {origin t : Nat}
    {earlier : Option Lit} (he : ledger.Earlier f origin t earlier) :
    later.Earlier f origin t earlier := by
  cases he with
  | start => exact .start
  | step hle hc => exact .step hle (h.mem_carriers hc)

theorem Prepared.mono (h : ledger.Keeps later) {t : Nat} {guard : List Lit} {op : Fixpoint}
    {lhs : Option Formula} {rhs : Formula} (hp : ledger.Prepared t guard op lhs rhs) :
    later.Prepared t guard op lhs rhs := by
  cases hp with
  | eventually hn hrhs => exact .eventually (h.lit _ _ _ hn) (hrhs.mono h)
  | untl hor hn hrhs => exact .untl (hor.mono h) (h.lit _ _ _ hn) (hrhs.mono h)
  | release hrhs => exact .release (hrhs.mono h)

theorem Stepped.mono (h : ledger.Keeps later) {f : Formula} {origin t : Nat} {guard : List Lit}
    {earlier : Option Lit} {carrier : Lit}
    (hs : ledger.Stepped f origin guard t earlier carrier) :
    later.Stepped f origin guard t earlier carrier := by
  obtain ⟨hf, hp, hw, hrules, hc⟩ := hs
  exact ⟨hf, hp.mono h, h.lit _ _ _ hw, fun rule hr => (hrules rule hr).mono h, h.mem_carriers hc⟩

theorem Unrolled.mono (h : ledger.Keeps later) {f : Formula} {origin t : Nat} {guard : List Lit}
    {earlier : Option Lit} (hu : ledger.Unrolled f origin guard t earlier) :
    later.Unrolled f origin guard t earlier := by
  induction hu with
  | start => exact .start
  | step _ hs ih => exact .step ih (hs.mono h)

theorem Unrolled.origin_le {f : Formula} {origin t : Nat} {guard : List Lit}
    {earlier : Option Lit} (hu : ledger.Unrolled f origin guard t earlier) : origin ≤ t := by
  induction hu with
  | start => exact Nat.le_refl _
  | step _ _ ih => exact Nat.le_succ_of_le ih

theorem Unrolled.earlier {f : Formula} {origin t : Nat} {guard : List Lit}
    {earlier : Option Lit} (hu : ledger.Unrolled f origin guard t earlier) :
    ledger.Earlier f origin t earlier := by
  cases hu with
  | start => exact .start
  | step hu hs =>
    obtain ⟨-, -, -, -, hc⟩ := hs
    exact .step hu.origin_le hc

theorem Child.mono (h : ledger.Keeps later) {edge edge' : Instant} (he : edge.Precedes edge')
    {f g : Formula} {s t : Nat} {guard guard' : List Lit}
    (hc : Child edge ledger f s guard g t guard') : Child edge' later f s guard g t guard' := by
  cases hc with
  | andLeft => exact .andLeft
  | andRight => exact .andRight
  | implies hx => exact .implies (h.lit _ _ _ hx)
  | implied hx => exact .implied (h.lit _ _ _ hx)
  | next ha => exact .next (he.after_reached ha)
  | alwaysNow => exact .alwaysNow
  | alwaysNext => exact .alwaysNext
  | operands hf ho ht hearlier =>
    exact .operands hf ho (Nat.le_trans ht he.index_le) (hearlier.mono h)
  | settle hf ho ht hearlier hn =>
    exact .settle hf ho (Nat.le_trans ht he.index_le) (hearlier.mono h) (h.lit _ _ _ hn)
  | hold hf ho ht hearlier => exact .hold hf ho (Nat.le_trans ht he.index_le) (hearlier.mono h)

theorem Warranted.mono (h : ledger.Keeps later) {brief brief' : Brief} {edge edge' : Instant}
    (he : edge.Precedes edge') (htheory : brief'.theory = brief.theory)
    (hdemands : ∀ d ∈ brief.demands, d ∈ brief'.demands) {f : Formula} {s : Nat}
    {guard : List Lit} (hw : Warranted brief edge ledger f s guard) :
    Warranted brief' edge' later f s guard := by
  induction hw with
  | staged hmem hk => exact .staged (htheory ▸ hmem) (Nat.le_trans hk he.index_le)
  | guarded hmem hk hg =>
    exact .guarded (htheory ▸ hmem) (Nat.le_trans hk he.index_le) (h.lit _ _ _ hg)
  | last hmem hlast =>
    have heq := he.eq_of_last hlast
    subst heq
    exact .last (htheory ▸ hmem) hlast
  | demanded hmem hs => exact .demanded (hdemands _ hmem) (Nat.le_trans hs he.index_le)
  | child _ hc ih => exact .child ih (hc.mono h he)

theorem Duty.mono (h : ledger.Keeps later) {edge edge' : Instant} (he : edge.Precedes edge')
    {f : Formula} {s : Nat} {guard : List Lit} {rule : Rule}
    (hd : Duty edge ledger f s guard rule) : Duty edge' later f s guard rule := by
  cases hd with
  | atom hf ha => exact .atom hf (h.ground _ _ _ ha)
  | falsity => exact .falsity
  | or hs => exact .or (hs.mono h.lit)
  | not hx => exact .not (h.lit _ _ _ hx)
  | stepAfter hn => exact .stepAfter (h.lit _ _ _ hn)
  | noStep ha => exact .noStep (he.after_none ha)
  | excluded hf hx => exact .excluded hf (h.lit _ _ _ hx)

/-- What is met at an edge is met at a later one, if that is so for what was waiting
at the edge: the argument of a next and an unrolled formula. -/
theorem Met.transfer (h : ledger.Keeps later) {edge edge' : Instant} (he : edge.Precedes edge')
    {f : Formula} {s : Nat} {guard : List Lit}
    (hpending : ∀ arg weak t, f = .next arg weak →
      (Instant.mk edge.index false).after s = .pending t →
      (weak = false → ∃ n, later.lit Formula.hasNext s = some n ∧
        later.Posted (.constraint (guard ++ [-n]))) →
      (edge.last = false → ⟨t, arg, guard⟩ ∈ ledger.edge.deferred) → Met edge' later f s guard)
    (hunrolled : ∀ op lhs rhs carrier, f.Unrolls op lhs rhs →
      later.Unrolled f s guard (edge.index + 1) carrier →
      (edge.last = false → ledger.Waits f s guard edge.index carrier) → Met edge' later f s guard)
    (hm : Met edge ledger f s guard) : Met edge' later f s guard := by
  cases hm with
  | atom hf ha hp => exact .atom hf (h.ground _ _ _ ha) (hp.mono h)
  | truth => exact .truth
  | falsity hp => exact .falsity (hp.mono h)
  | and hl hr => exact .and (hl.mono h) (hr.mono h)
  | orTrue ht => exact .orTrue (ht.mono h.lit)
  | or hs hp => exact .or (hs.mono h.lit) (hp.mono h)
  | implies hx ho => exact .implies (h.lit _ _ _ hx) (ho.mono h)
  | implied hx ho => exact .implied (h.lit _ _ _ hx) (ho.mono h)
  | not hx hp => exact .not (h.lit _ _ _ hx) (hp.mono h)
  | nextReached ha ho => exact .nextReached (he.after_reached ha) (ho.mono h)
  | nextPending ha hn hdue =>
    refine hpending _ _ _ rfl ha (fun hweak => ?_) hdue
    obtain ⟨n, hlit, hp⟩ := hn hweak
    exact ⟨n, h.lit _ _ _ hlit, hp.mono h⟩
  | nextNone ha hp => exact .nextNone (he.after_none ha) fun hweak => (hp hweak).mono h
  | always hn ho => exact .always (hn.mono h) (ho.mono h)
  | unrolled hf hu hw => exact hunrolled _ _ _ _ hf (hu.mono h) hw
  | excluded hf hx hp => exact .excluded hf (h.lit _ _ _ hx) (hp.mono h)

/-- What is met stays met as long as what waits at the edge goes on waiting. -/
theorem Met.mono (h : ledger.Keeps later) {edge : Instant}
    (hd : ∀ d ∈ ledger.edge.deferred, d ∈ later.edge.deferred)
    (hi : ∀ inst ∈ ledger.edge.instances, inst.last = edge.index → inst ∈ later.edge.instances)
    {f : Formula} {s : Nat} {guard : List Lit} (hm : Met edge ledger f s guard) :
    Met edge later f s guard := by
  refine hm.transfer h (.refl _) ?_ ?_
  · rintro arg weak t rfl ha hn hdue
    exact .nextPending ha hn fun hlast => hd _ (hdue hlast)
  · intro op lhs rhs carrier hf hu hw
    refine .unrolled hf hu fun hlast => ?_
    obtain ⟨inst, hinst, hfacts⟩ := hw hlast
    exact ⟨inst, hi inst hinst hfacts.2.2.2.1, hfacts⟩

theorem Met.grows (h : ledger.Grows later) {edge : Instant} {f : Formula} {s : Nat}
    {guard : List Lit} (hm : Met edge ledger f s guard) : Met edge later f s guard := by
  obtain ⟨more, hmore⟩ := h.deferred
  obtain ⟨more', hmore'⟩ := h.instances
  refine hm.mono h.toKeeps (fun d hd => ?_) fun inst hinst _ => ?_
  · rw [hmore]
    exact List.mem_append_left _ hd
  · rw [hmore']
    exact List.mem_append_left _ hinst

end Growing

theorem HeadMove.grows {brief : Brief} {edge : Instant} {first : Nat} {ledger later : Ledger}
    (h : HeadMove brief edge first ledger later) : ledger.Grows later := by
  cases h with
  | body hm => exact hm.grows
  | demand _ _ _ _ => exact { Grows.refl ledger with required := fun _ _ _ hr => .inl hr }
  | duty _ _ _ => exact .post _ _
  | defer _ _ _ => exact { Grows.refl ledger with deferred := ⟨_, rfl⟩ }
  | carry _ _ _ _ _ _ =>
    exact { Grows.refl ledger with
      next := Nat.le_succ _
      rules := ⟨_, rfl⟩
      carriers := ⟨_, rfl⟩ }
  | rest _ _ _ _ _ _ => exact { Grows.refl ledger with instances := ⟨_, rfl⟩ }

theorem HeadMoves.grows {brief : Brief} {edge : Instant} {first : Nat} {ledger later : Ledger}
    (h : HeadMoves brief edge first ledger later) : ledger.Grows later := by
  induction h with
  | refl => exact .refl _
  | tail _ hmove ih => exact ih.trans hmove.grows

theorem Moves.headMoves {brief : Brief} {edge : Instant} {first : Nat} {ledger later : Ledger}
    (h : Moves edge ledger later) : HeadMoves brief edge first ledger later := by
  induction h with
  | refl => exact .refl
  | tail _ hmove ih => exact ih.tail (.body hmove)

end Ledger
end TemporalHorizon

import TemporalHorizon.Proofs.Acts
import TemporalHorizon.Proofs.HeadMode

/-!
# References to atoms

A negation and a reference to another step have no atom of their own: they share the
literal of what they refer to, possibly with the opposite sign.  Only a reference to a
step that is still to come gets an atom, which is tied to its argument later.  So a
formula may be nothing but a reference to an atom, and the sign with which it refers to
it, `Formula.reference?`, is all that the reduct can see of it.

* A literal whose sign does not agree with the reference is *frozen*: in a part of a set
  of atoms that satisfies the reduct it has the value that it has in the whole set
  (`Reading.keptIn_of_holds`).  All literals of formulas that are no references are frozen.
* A literal whose sign agrees with the reference is a positive occurrence of an atom.  A
  waiting atom on the way keeps it so, unless there is a negation behind it:
  `Formula.delaysNegation` says that a formula refers to the negation of an atom through a
  next.

The literal of a formula may depend on when it was asked for, but both kinds of literal
behave alike: `Reading.keptIn_of_referents` takes one step along a reference, whether the
literal is shared or waits.
-/

namespace TemporalHorizon

attribute [local instance] Arithmetic.exact

/-! ## The sign of a reference -/

/-- Whether a path consists of moves only. -/
def Path.isMoves : Path → Bool
  | .skip => true
  | .seq first second => first.isMoves && second.isMoves
  | .test _ | .choice _ _ | .star _ => false

/-- The number of moves of a path that consists of moves only. -/
def Path.moves : Path → Nat
  | .skip => 1
  | .seq first second => first.moves + second.moves
  | .test _ | .choice _ _ | .star _ => 0

namespace Formula

/-- The sign with which a formula at a step refers to an atom, if it is a reference to one on
a horizon that is closed.  A since or a trigger has the literal of its right operand at step
0; nothing is referred to before step 0 or behind the end. -/
def reference? (horizon : Nat) : Formula → Nat → Option Bool
  | .atom _ _ _, _ => some true
  | .not arg, s => (arg.reference? horizon s).map (!·)
  | .previous _ _, 0 => none
  | .previous arg _, s + 1 => arg.reference? horizon s
  | .next arg _, s => if s < horizon then arg.reference? horizon (s + 1) else none
  | .initially arg, _ => arg.reference? horizon 0
  | .temporal op _ rhs, 0 => if op.isFuture then none else rhs.reference? horizon 0
  | .modal op arg, 0 => if op.isFuture then none else arg.reference? horizon 0
  | .dynamic _ path arg, s =>
    if path.isMoves && s + path.moves ≤ horizon then arg.reference? horizon (s + path.moves)
    else none
  | .bool _, _ | .initial, _ | .final, _ | .binary _ _ _, _ | .temporal _ _ _, _ + 1
  | .modal _ _, _ + 1 => none

/-- Whether a formula at a step refers through a next to the negation of an atom. -/
def delaysNegation (horizon : Nat) : Formula → Nat → Bool
  | .not arg, s => arg.delaysNegation horizon s
  | .previous arg _, s + 1 => arg.delaysNegation horizon s
  | .next arg _, s => decide (s < horizon) &&
    (arg.reference? horizon (s + 1) == some false || arg.delaysNegation horizon (s + 1))
  | .initially arg, _ => arg.delaysNegation horizon 0
  | .temporal op _ rhs, 0 => !op.isFuture && rhs.delaysNegation horizon 0
  | .modal op arg, 0 => !op.isFuture && arg.delaysNegation horizon 0
  | .dynamic _ path arg, s => path.isMoves && decide (s + path.moves ≤ horizon) &&
    (arg.reference? horizon (s + path.moves) == some false ||
      arg.delaysNegation horizon (s + path.moves))
  | .atom _ _ _, _ | .bool _, _ | .initial, _ | .final, _ | .binary _ _ _, _ | .previous _ _, 0
  | .temporal _ _ _, _ + 1 | .modal _ _, _ + 1 => false

/-- Whether the literal of a formula at a step, with a sign, says the same to the reduct
whenever the formula is encoded: it is frozen, or no negation stands behind a next. -/
def isFirm (horizon : Nat) (sign : Bool) (f : Formula) (s : Nat) : Bool :=
  f.reference? horizon s != some sign || !f.delaysNegation horizon s

@[simp] theorem reference?_hasNext (horizon s : Nat) : hasNext.reference? horizon s = none := by
  simp [hasNext, reference?]

theorem reference?_unfoldPath (modality : Modality) (path : Path) (arg : Formula)
    (horizon s : Nat) : (unfoldPath modality path arg).reference? horizon s =
      (dynamic modality path arg).reference? horizon s := by
  cases path with
  | seq first second =>
    -- Where the whole path leads up to the last step, so does its first part.
    by_cases hle : s + (first.moves + second.moves) ≤ horizon
    · have hfirst : s + first.moves ≤ horizon := by omega
      cases h : first.isMoves <;> cases h' : second.isMoves <;>
        simp [unfoldPath, reference?, Path.isMoves, Path.moves, Nat.add_assoc, hle, hfirst, h, h']
    · simp [unfoldPath, reference?, Path.isMoves, Path.moves, Nat.add_assoc, hle]
  | skip =>
    simp only [unfoldPath, reference?, Path.isMoves, Path.moves, Bool.true_and]
    exact if_congr decide_eq_true_iff.symm rfl rfl
  | _ => simp [unfoldPath, reference?, Path.isMoves]

theorem delaysNegation_unfoldPath (modality : Modality) (path : Path) (arg : Formula)
    (horizon s : Nat) : (unfoldPath modality path arg).delaysNegation horizon s =
      (dynamic modality path arg).delaysNegation horizon s := by
  cases path with
  | seq first second =>
    by_cases hle : s + (first.moves + second.moves) ≤ horizon
    · have hfirst : s + first.moves ≤ horizon := by omega
      cases h : first.isMoves <;> cases h' : second.isMoves <;>
        simp [unfoldPath, delaysNegation, reference?, Path.isMoves, Path.moves, Nat.add_assoc, hle,
          hfirst, h, h']
    · simp [unfoldPath, delaysNegation, reference?, Path.isMoves, Path.moves, Nat.add_assoc, hle]
  | skip =>
    simp only [unfoldPath, delaysNegation, Path.isMoves, Path.moves, Bool.true_and]
    rfl
  | _ => simp [unfoldPath, delaysNegation, Path.isMoves]

/-- What a formula at a step refers to, with the sign of the reference. -/
inductive RefersTo (horizon : Nat) : Formula → Nat → Formula → Nat → Bool → Prop
  | final {s} : RefersTo horizon .final s hasNext s false
  | not {arg s} : RefersTo horizon (.not arg) s arg s false
  | previous {arg weak s} : RefersTo horizon (.previous arg weak) (s + 1) arg s true
  | next {arg weak s} : s < horizon → RefersTo horizon (.next arg weak) s arg (s + 1) true
  | initially {arg s} : RefersTo horizon (.initially arg) s arg 0 true
  | fixpoint {f op lhs rhs} : f.IsFixpoint op lhs rhs → op.isFuture = false →
    RefersTo horizon f 0 rhs 0 true
  | dynamic {modality path arg s} :
    RefersTo horizon (.dynamic modality path arg) s (unfoldPath modality path arg) s true

namespace RefersTo

variable {horizon : Nat} {f g : Formula} {s t : Nat} {turn : Bool}

/-- A formula refers to an atom as what it refers to does, up to the sign. -/
theorem reference?_eq (h : RefersTo horizon f s g t turn) :
    f.reference? horizon s = (g.reference? horizon t).map (· == turn) := by
  have hsame : ∀ x : Option Bool, x.map (· == true) = x := fun x => by cases x <;> simp
  cases h with
  | final => simp [reference?]
  | not => simp [reference?]
  | previous | initially => exact (hsame _).symm
  | next hlt => rw [hsame, reference?, if_pos hlt]
  | fixpoint hf hop => cases hf <;> simp [reference?, hop]
  | dynamic => rw [hsame, reference?_unfoldPath]

theorem delaysNegation (h : RefersTo horizon f s g t turn)
    (hg : g.delaysNegation horizon t = true) : f.delaysNegation horizon s = true := by
  cases h with
  | final => simp [Formula.delaysNegation, hasNext, reference?] at hg
  | not | previous | initially => exact hg
  | next hlt => simp [Formula.delaysNegation, hg, hlt]
  | fixpoint hf hop => cases hf <;> simp [Formula.delaysNegation, hop, hg]
  | dynamic => rwa [← delaysNegation_unfoldPath]

theorem mem_requests (h : RefersTo horizon f s g t turn) (hf : f.malformedPath? = none) :
    (g, t) ∈ f.requests horizon s := by
  cases h with
  | final | not | previous | initially => exact List.mem_singleton.2 rfl
  | next hlt =>
    rw [requests, if_pos hlt]
    exact List.mem_singleton.2 rfl
  | fixpoint hfix _ => exact (Encoder.requests_of_isFixpoint hfix _).1
  | dynamic => exact unfoldPath_mem_requests hf

theorem isDefinedAt (h : RefersTo horizon f s g t turn) : f.isDefinedAt s = false := by
  cases h with
  | fixpoint hf hop => cases hf <;> simp [Formula.isDefinedAt, hop]
  | _ => rfl

end RefersTo

end Formula

/-! ## Literals with a sign -/

/-- A literal, or its negation. -/
def Lit.signed (sign : Bool) (l : Lit) : Lit := if sign then l else -l

section Signed

variable {atoms part : Set Nat}

@[simp] theorem Lit.signed_true (l : Lit) : l.signed true = l := rfl

@[simp] theorem Lit.signed_false (l : Lit) : l.signed false = -l := rfl

theorem Lit.signed_signed (l : Lit) (turn sign : Bool) :
    (l.signed turn).signed sign = l.signed (sign == turn) := by
  cases turn <;> cases sign <;> simp

theorem Lit.trueIn_signed (l : Lit) (sign : Bool) :
    (l.signed sign).TrueIn atoms ↔ (l.TrueIn atoms ↔ sign = true) := by
  cases sign <;> simp

/-- The literals of the constants are frozen. -/
theorem Lit.keptIn_constant (hone : 1 ∉ atoms) {value sign : Bool}
    (h : ((Lit.constant value).signed sign).TrueIn atoms) :
    ((Lit.constant value).signed sign).KeptIn atoms part := by
  refine h.keptIn fun hmem => absurd hmem ?_
  cases value <;> cases sign <;> exact hone

/-- A negated literal is frozen. -/
theorem Lit.keptIn_signed_false {l : Lit} (hpos : l.negated = false)
    (h : (l.signed false).TrueIn atoms) : (l.signed false).KeptIn atoms part := by
  obtain ⟨a, negated⟩ := l
  cases hpos
  exact h

end Signed

/-! ## Shared literals -/

namespace Sheet.Source

variable {lit : Sheet} {edge : Instant} {f g : Formula} {s t : Nat} {y : Lit} {turn : Bool}

/-- A shared literal is constant, or that of a reference. -/
theorem constant_or_refersTo (h : Source lit edge f s y) (hatom : f.isAtom = false) :
    (∃ value, y = Lit.constant value) ∨
      ∃ g t turn l, f.RefersTo edge.index s g t turn ∧ lit g t = some l ∧ y = l.signed turn := by
  cases h with
  | atom hf _ =>
    rw [hatom] at hf
    cases hf
  | @bool value _ => exact .inl ⟨value, rfl⟩
  | initial => exact .inl ⟨s == 0, rfl⟩
  | last _ => exact .inl ⟨true, rfl⟩
  | notLast _ => exact .inl ⟨false, rfl⟩
  | atEdge hl => exact .inr ⟨_, _, _, _, .final, hl, rfl⟩
  | not hl => exact .inr ⟨_, _, _, _, .not, hl, rfl⟩
  | @previousStart _ weak => exact .inl ⟨weak, rfl⟩
  | previous hl => exact .inr ⟨_, _, _, _, .previous, hl, rfl⟩
  | next hlt hl => exact .inr ⟨_, _, _, _, .next hlt, hl, rfl⟩
  | @nextEnd _ weak _ => exact .inl ⟨weak, rfl⟩
  | initially hl => exact .inr ⟨_, _, _, _, .initially, hl, rfl⟩
  | fixpointStart hf hop hl => exact .inr ⟨_, _, _, _, .fixpoint hf hop, hl, rfl⟩
  | dynamic hl => exact .inr ⟨_, _, _, _, .dynamic, hl, rfl⟩

/-- The shared literal of a reference to an atom. -/
theorem exists_lit (h : Source lit edge f s y) (hr : f.RefersTo edge.index s g t turn)
    (href : f.reference? edge.index s ≠ none) : ∃ l, lit g t = some l ∧ y = l.signed turn := by
  cases hr with
  | final => exact absurd rfl href
  | not =>
    cases h with
    | atom hf _ => cases hf
    | not hl => exact ⟨_, hl, rfl⟩
    | fixpointStart hf _ _ => cases hf
  | previous =>
    cases h with
    | atom hf _ => cases hf
    | previous hl => exact ⟨_, hl, rfl⟩
  | next hlt =>
    cases h with
    | atom hf _ => cases hf
    | next _ hl => exact ⟨_, hl, rfl⟩
    | nextEnd _ => exact absurd hlt (Nat.lt_irrefl _)
    | fixpointStart hf _ _ => cases hf
  | initially =>
    cases h with
    | atom hf _ => cases hf
    | initially hl => exact ⟨_, hl, rfl⟩
    | fixpointStart hf _ _ => cases hf
  | fixpoint hfix hop =>
    cases hfix <;> cases h with
    | atom hf _ => cases hf
    | fixpointStart hf _ hl =>
      cases hf
      exact ⟨_, hl, rfl⟩
  | dynamic =>
    cases h with
    | atom hf _ => cases hf
    | dynamic hl => exact ⟨_, hl, rfl⟩
    | fixpointStart hf _ _ => cases hf

/-- A formula that shares a literal has no atom of its own. -/
theorem isDefinedAt (h : Source lit edge f s y) : f.isDefinedAt s = false := by
  cases h with
  | atom hf _ =>
    cases f with
    | atom name args positive => rfl
    | _ => cases hf
  | fixpointStart hf hop _ => cases hf <;> simp [Formula.isDefinedAt, hop]
  | _ => rfl

end Sheet.Source

/-! ## One step along a reference -/

namespace Ledger

variable {role : Nat → Role} {edge : Instant} {ledger : Ledger} {trace : Trace}
  {atoms part : Set Nat}

/-- On a closed horizon every atom has the value that its role asks for in a trace. -/
structure Valued (role : Nat → Role) (edge : Instant) (ledger : Ledger) (trace : Trace)
    (atoms : Set Nat) : Prop where
  sound : Sound role [] edge ledger
  settled : ledger.edge.boundaries = []
  last : trace.last = edge.index
  values : ∀ a, a ∈ atoms ↔ (role a).Holds trace

theorem Valued.faithful (h : Valued role edge ledger trace atoms) :
    ledger.Faithful trace atoms := h.sound.faithful h.last h.values

/-- A part of such a set that satisfies the reduct of the ledger. -/
structure Reading (role : Nat → Role) (edge : Instant) (ledger : Ledger) (trace : Trace)
    (atoms part : Set Nat) : Prop extends Valued role edge ledger trace atoms where
  subset : part ⊆ atoms
  rules : ∀ rule ∈ ledger.rules, rule.ReductSatisfiedBy atoms part

namespace Reading

variable {f : Formula} {s : Nat} {l : Lit} {sign : Bool}

/-- An atom that is chosen freely is frozen. -/
theorem mem_of_choice (h : Reading role edge ledger trace atoms part) {a : Nat}
    (ha : role a = .chosen f s) (hmem : a ∈ atoms) : a ∈ part := by
  obtain ⟨-, hposted, -⟩ := h.sound.chosen_of_role ha
  exact hposted.reductSatisfiedBy h.faithful.one h.subset h.rules nofun a
    (List.mem_singleton.2 rfl) hmem

/-- An atom that waited is kept if its argument is. -/
theorem mem_of_awaited (h : Reading role edge ledger trace atoms part) {arg : Formula} {weak : Bool}
    {a : Nat} (ha : role a = .awaited arg weak s) (hmem : a ∈ atoms)
    (harg : s < edge.index → ∀ y, ledger.lit arg (s + 1) = some y → y.TrueIn atoms →
      y.KeptIn atoms part) : a ∈ part := by
  have hholds := (h.values a).1 hmem
  rw [ha] at hholds
  cases (h.sound.awaited_of_role ha).2 with
  | waiting hb =>
    rw [h.settled] at hb
    cases hb
  | @tied y hlt hy hposted =>
    have htrue : y.TrueIn atoms := by
      rw [h.faithful.lit arg (s + 1) y hy, ← Formula.holds_next_of_lt (by rw [h.last]; exact hlt)]
      exact hholds
    exact hposted.mem_part h.faithful.one h.subset h.rules (harg hlt y hy htrue)
  | ended _ hs hfact =>
    have hend : trace.last ≤ s := Nat.le_of_eq (h.last.trans hs.symm)
    have hweak := (Formula.holds_next_of_le hend arg weak).1 hholds
    obtain ⟨b, hb, hmem⟩ :=
      (hfact hweak).reductSatisfiedBy h.faithful.one h.subset h.rules nofun
    cases List.mem_singleton.1 hb
    exact hmem

/-- **One step along a reference.**  A true literal of a composite formula is kept if all
true literals that the formula refers to are. -/
theorem keptIn_of_referents (h : Reading role edge ledger trace atoms part)
    (hbacked : Backed role edge ledger f s l) (hatom : f.isAtom = false)
    (htrue : (l.signed sign).TrueIn atoms)
    (hreferents : ∀ g t turn, f.RefersTo edge.index s g t turn → ∀ y, ledger.lit g t = some y →
      (y.signed (sign == turn)).TrueIn atoms → (y.signed (sign == turn)).KeptIn atoms part) :
    (l.signed sign).KeptIn atoms part := by
  cases hbacked with
  | shared hy =>
    rcases hy.constant_or_refersTo hatom with ⟨value, rfl⟩ | ⟨g, t, turn, y, hr, hg, rfl⟩
    · exact Lit.keptIn_constant h.faithful.one htrue
    · rw [Lit.signed_signed] at htrue ⊢
      exact hreferents g t turn hr y hg htrue
  | chosen ha =>
    refine htrue.keptIn fun hmem => ?_
    cases sign <;> exact h.mem_of_choice ha hmem
  | awaited ha =>
    cases sign with
    | false => exact Lit.keptIn_signed_false rfl htrue
    | true => exact h.mem_of_awaited ha htrue fun hlt => hreferents _ _ _ (.next hlt)

/-- **A literal whose sign does not agree with the reference is frozen.** -/
theorem keptIn_of_trueIn (h : Reading role edge ledger trace atoms part)
    (hl : ledger.lit f s = some l) (href : f.reference? edge.index s ≠ some sign)
    (htrue : (l.signed sign).TrueIn atoms) : (l.signed sign).KeptIn atoms part := by
  revert sign
  refine h.sound.induction_lits (P := fun f s l => ∀ {sign : Bool}, f.reference? edge.index s ≠ some sign →
    (l.signed sign).TrueIn atoms → (l.signed sign).KeptIn atoms part) ?_ ?_ hl
  · intro f s l hatom hl sign href htrue
    cases f with
    | atom name args positive =>
      cases sign with
      | true => exact absurd rfl href
      | false => exact Lit.keptIn_signed_false (h.sound.ground _ s l hl).2.1 htrue
    | _ => cases hatom
  · intro f s l hatom hf hs ih hbacked sign href htrue
    refine h.keptIn_of_referents hbacked hatom htrue fun g t turn hr y hy htrue' => ?_
    refine ih g t (hr.mem_requests hf) y hy (fun hg => href ?_) htrue'
    rw [hr.reference?_eq, hg]
    cases sign <;> cases turn <;> rfl

end Reading
end Ledger
end TemporalHorizon

import TemporalHorizon.StableModel.Program

/-!
# Searching for stable models

A set of candidates is coded as a number with one bit for each candidate, in
increasing order of the atoms.  The search goes through all codes and keeps those
that are models of the rules and minimal models of the reduct.

The reduct of the rules by a set drops every rule whose negated body meets the
set, forgets the negated bodies of the others, and turns a choice into a
disjunction of those of its atoms that are in the set.  If no head of the reduct
has two atoms, its only minimal model is the least one, which is computed by
rounds; otherwise all proper subsets are tried.
-/

namespace TemporalHorizon

/-- A rule over bits of candidates. -/
structure CodedRule where
  choice : Bool
  head : Nat
  positive : Nat
  negative : Nat
  deriving DecidableEq

namespace CodedRule

/-- Whether a code has all bits of a part. -/
def covers (code part : Nat) : Bool := part &&& code == part

/-- Whether two codes have a bit in common. -/
def meets (code other : Nat) : Bool := code &&& other != 0

/-- Whether the body holds in a set. -/
def bodyHolds (rule : CodedRule) (code : Nat) : Bool :=
  covers code rule.positive && !meets rule.negative code

/-- Whether a set satisfies a rule.  A choice is always satisfied. -/
def satisfied (rule : CodedRule) (code : Nat) : Bool :=
  rule.choice || !rule.bodyHolds code || meets rule.head code

/-- What is left of a rule in the reduct by a set: its head and its positive
body.  A choice of no atom of the set and a constraint leave nothing. -/
def reduced? (code : Nat) (rule : CodedRule) : Option (Nat × Nat) :=
  if meets rule.negative code then none
  else
    let head := if rule.choice then rule.head &&& code else rule.head
    if head = 0 then none else some (head, rule.positive)

end CodedRule

namespace Program

open CodedRule

/-- The bit of an atom among the candidates. -/
def bit? (candidates : List Nat) (atom : Nat) : Option Nat :=
  (candidates.idxOf? atom).map fun i => 1 <<< i

/-- The bits of the positive and the negated body literals.  An atom that is no
candidate is never true: a positive literal of it makes the body false, a negated
one says nothing. -/
def codeBody? (candidates : List Nat) : List Lit → Option (Nat × Nat)
  | [] => some (0, 0)
  | lit :: rest =>
    match codeBody? candidates rest, bit? candidates lit.atom, lit.negated with
    | some (positive, negative), some bit, false => some (bit ||| positive, negative)
    | some (positive, negative), some bit, true => some (positive, bit ||| negative)
    | some body, none, true => some body
    | some _, none, false => none
    | none, _, _ => none

/-- The bits of a list of atoms. -/
def codeHead (candidates head : List Nat) : Nat :=
  head.foldr (fun atom code => (bit? candidates atom).getD 0 ||| code) 0

/-- A rule over bits; nothing if its body can never hold. -/
def codeRule? (candidates : List Nat) (rule : Rule) : Option CodedRule :=
  match codeBody? candidates rule.body with
  | some (positive, negative) =>
    some ⟨rule.kind == .choice, codeHead candidates rule.head, positive, negative⟩
  | none => none

/-- All rules over bits; a free atom is an unconditional choice. -/
def coded (program : Program) (candidates : List Nat) : List CodedRule :=
  program.rules.filterMap (codeRule? candidates) ++
    program.free.filterMap fun atom => (bit? candidates atom).map fun bit => ⟨true, bit, 0, 0⟩

/-! ## Minimal models of a reduct -/

/-- One round of derivation: add the heads of all rules whose bodies hold. -/
def derive (reduct : List (Nat × Nat)) (code : Nat) : Nat :=
  reduct.foldl (fun acc rule => if covers code rule.2 then acc ||| rule.1 else acc) code

/-- Derive until nothing is added, in at most the given number of rounds. -/
def deriveAll (reduct : List (Nat × Nat)) : Nat → Nat → Nat
  | 0, code => code
  | rounds + 1, code =>
    let next := derive reduct code
    if next = code then code else deriveAll reduct rounds next

/-- The least model of a reduct without disjunctions.  Every round but the last
adds the head of a rule, so there are no more rounds than rules. -/
def leastModel (reduct : List (Nat × Nat)) : Nat := deriveAll reduct reduct.length 0

/-- Whether a set is a model of a reduct. -/
def satisfiesReduct (reduct : List (Nat × Nat)) (code : Nat) : Bool :=
  reduct.all fun rule => !covers code rule.2 || meets rule.1 code

/-- Whether no set below `part` in the walk down the subsets of `code` is a model
of the reduct.  The walk takes the subsets in decreasing order of their codes. -/
def noModelBelow (reduct : List (Nat × Nat)) (code : Nat) : Nat → Nat → Bool
  | 0, _ => true
  | _ + 1, 0 => true
  | budget + 1, part + 1 =>
    let smaller := part &&& code
    if satisfiesReduct reduct smaller then false else noModelBelow reduct code budget smaller

/-- Whether a code has exactly one bit. -/
def isSingle (code : Nat) : Bool := code != 0 && (code &&& (code - 1)) == 0

/-- Whether a model of the rules is a minimal model of their reduct by it. -/
def isMinimal (rules : List CodedRule) (code : Nat) : Bool :=
  let reduct := rules.filterMap (reduced? code)
  if reduct.all fun rule => isSingle rule.1 then leastModel reduct == code
  else noModelBelow reduct code code code

/-! ## The search -/

/-- Whether a code is a stable model of the rules. -/
def isStable (rules : List CodedRule) (code : Nat) : Bool :=
  rules.all (fun rule => rule.satisfied code) && isMinimal rules code

/-- The numbers below a bound that pass a test, in increasing order, in front of
those found before. -/
def searchBelow (test : Nat → Bool) : Nat → List Nat → List Nat
  | 0, found => found
  | bound + 1, found => searchBelow test bound (if test bound then bound :: found else found)

/-- The atoms of a code. -/
def decode (candidates : List Nat) (code : Nat) : List Nat :=
  (candidates.zipIdx.filter fun entry => code.testBit entry.2).map Prod.fst

/-- The largest number of candidates that is searched. -/
def maxCandidates : Nat := 24

/-- The stable models in which all assumptions hold, in increasing order of their
codes.  More than `maxCandidates` candidates are a fault. -/
def modelsAssuming (program : Program) (assumptions : List Lit) : Except Fault (List Model) :=
  let candidates := program.candidates
  if maxCandidates < candidates.length then .error (.tooManyCandidates candidates.length)
  else
    let rules := program.coded candidates
    let codes := searchBelow (isStable rules) (1 <<< candidates.length) []
    .ok ((codes.map fun code => ⟨decode candidates code⟩).filter fun model =>
      assumptions.all model.holds)

/-- All stable models. -/
def models (program : Program) : Except Fault (List Model) := program.modelsAssuming []

end Program
end TemporalHorizon

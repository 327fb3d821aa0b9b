import TemporalHorizon.Proofs.Refusals
import Mathlib.Logic.Relation

/-!
# The check of paths finds every path

The check that a formula has to pass goes down two types at once, and at a path it
goes on with the formulas that the path tests.  Here it is compared with the plain
notion of a part: a formula and a path each have children, from left to right, and a
phrase occurs in another if a chain of children leads to it.

* `Phrase.mem_listing_iff`: the listing in pre-order holds exactly what occurs.
* `Phrase.check?_eq`: the check asks the phrase itself and then its children in
  their order.
* `Path.tests_eq_testList`: the tests found by a walk over a stack of paths are those
  of the recursive listing from left to right.
* `Formula.malformedPath?_exact`: a formula passes exactly if all paths that occur in
  it are in normal form, and otherwise the first that is not is reported.
-/

namespace TemporalHorizon

/-! ## Phrases -/

/-- A formula or a path, as a part of the same tree. -/
inductive Phrase where
  | formula (f : Formula)
  | path (path : Path)
  deriving DecidableEq

namespace Phrase

/-- The phrases right below a phrase, from left to right. -/
def children : Phrase → List Phrase
  | formula (.atom _ _ _) | formula (.bool _) | formula .initial | formula .final => []
  | formula (.not arg) | formula (.previous arg _) | formula (.next arg _)
  | formula (.initially arg) | formula (.modal _ arg) => [formula arg]
  | formula (.binary _ lhs rhs) | formula (.temporal _ lhs rhs) => [formula lhs, formula rhs]
  | formula (.dynamic _ p arg) => [path p, formula arg]
  | path .skip => []
  | path (.test arg) => [formula arg]
  | path (.seq first second) => [path first, path second]
  | path (.choice lhs rhs) => [path lhs, path rhs]
  | path (.star body) => [path body]

/-- A phrase occurs in another if it is reached from child to child. -/
def Occurs (part whole : Phrase) : Prop :=
  Relation.ReflTransGen (fun upper lower => lower ∈ upper.children) whole part

theorem sizeOf_lt_of_mem_children (upper : Phrase) :
    ∀ lower ∈ upper.children, sizeOf lower < sizeOf upper := by
  fun_cases children upper <;> simp +arith

/-- What holds of a phrase as soon as it holds of its children holds of all phrases. -/
theorem induction_children {motive : Phrase → Prop}
    (step : ∀ x : Phrase, (∀ child ∈ x.children, motive child) → motive x) (x : Phrase) :
    motive x :=
  step x fun child _ => induction_children step child
termination_by sizeOf x
decreasing_by exact x.sizeOf_lt_of_mem_children child (by assumption)

/-- The phrase and all below it, in pre-order. -/
def listing (x : Phrase) : List Phrase :=
  x :: x.children.attach.flatMap fun child => listing child.1
termination_by sizeOf x
decreasing_by exact x.sizeOf_lt_of_mem_children child.1 child.2

theorem listing_eq (x : Phrase) : x.listing = x :: x.children.flatMap listing := by
  rw [listing, List.flatMap_subtype (g := listing) (by intros; rfl), List.unattach_attach]

/-- The listing holds exactly the phrases that occur. -/
theorem mem_listing_iff (x part : Phrase) : part ∈ x.listing ↔ part.Occurs x := by
  induction x using induction_children with
  | step x ih =>
    rw [listing_eq, List.mem_cons, List.mem_flatMap]
    constructor
    · rintro (rfl | ⟨child, hchild, hpart⟩)
      · exact .refl
      · exact .head hchild ((ih child hchild).1 hpart)
    · intro hoccurs
      obtain rfl | ⟨child, hchild, hpart⟩ := hoccurs.cases_head
      · exact .inl rfl
      · exact .inr ⟨child, hchild, (ih child hchild).2 hpart⟩

/-! ## The check, phrase by phrase -/

/-- The path that the phrase is, if it is one. -/
def path? : Phrase → Option Path
  | formula _ => none
  | path p => some p

/-- The paths that occur in the phrase, in pre-order. -/
def paths (x : Phrase) : List Path := x.listing.filterMap path?

/-- The path that the check reports for the phrase. -/
def check? : Phrase → Option Path
  | formula f => f.malformedPath?
  | path p => if p.isNormal then p.malformedTest? else some p

theorem paths_eq (x : Phrase) : x.paths = x.path?.toList ++ x.children.flatMap paths := by
  unfold paths
  rw [listing_eq, List.filterMap_cons, List.filterMap_flatMap]
  cases x <;> rfl

theorem mem_paths_iff (x : Phrase) (p : Path) : p ∈ x.paths ↔ (path p).Occurs x := by
  rw [paths, List.mem_filterMap, ← mem_listing_iff]
  constructor
  · rintro ⟨part, hpart, heq⟩
    cases part with
    | formula f => cases heq
    | path p' =>
      cases heq
      exact hpart
  · intro h
    exact ⟨path p, h, rfl⟩

theorem findSome?_pair (first second : Phrase) :
    [first, second].findSome? check? = first.check?.or second.check? := by
  simp only [List.findSome?_cons, List.findSome?_nil]
  cases first.check? <;> cases second.check? <;> rfl

/-- A phrase is checked by asking whether it is itself a path out of normal form and
then checking its children in their order. -/
theorem check?_eq (x : Phrase) :
    x.check? = (x.path?.toList.find? fun p => !p.isNormal).or (x.children.findSome? check?) := by
  rcases x with f | p
  · cases f with
    | dynamic _ path _ =>
      cases hnormal : path.isNormal <;>
        simp [check?, path?, children, Formula.malformedPath?, findSome?_pair, hnormal]
    | _ => simp [check?, path?, children, Formula.malformedPath?, findSome?_pair]
  · cases hnormal : p.isNormal
    · simp [check?, path?, hnormal]
    · -- The parts of a path in normal form are in normal form, so only tests are left to check.
      cases p <;>
        simp_all [check?, path?, children, Path.malformedTest?, Path.isNormal, findSome?_pair]

/-- The check of a phrase reports the first path in it that is not in normal form. -/
theorem check?_eq_find? (x : Phrase) : x.check? = x.paths.find? fun p => !p.isNormal := by
  induction x using induction_children with
  | step x ih =>
    have hchildren : x.children.findSome? check? =
        x.children.findSome? fun child => child.paths.find? fun p => !p.isNormal := by
      simpa [List.findSome?_map, Function.comp_def] using
        congrArg (List.findSome? id) (List.map_congr_left ih)
    rw [check?_eq, hchildren, paths_eq, List.find?_append, List.find?_flatMap]

end Phrase

/-! ## The tests of a path -/

namespace Path

/-- The formulas that a path tests, listed from left to right. -/
def testList : Path → List Formula
  | .skip => []
  | .test arg => [arg]
  | .seq first second => first.testList ++ second.testList
  | .choice lhs rhs => lhs.testList ++ rhs.testList
  | .star body => body.testList

theorem size_pos (path : Path) : 0 < path.size := by
  cases path <;> simp [size]

/-- The size of all paths on a stack. -/
def stackSize : List Path → Nat
  | [] => 0
  | top :: rest => top.size + stackSize rest

/-- A walk whose budget covers the paths on its stack lists their tests, those of the
top first. -/
theorem walkTests_eq (n : Nat) (stack : List Path) (hbudget : stackSize stack ≤ n) :
    walkTests n stack = stack.flatMap testList := by
  fun_induction walkTests n stack with
  | case1 stack =>
    cases stack with
    | nil => rfl
    | cons top rest =>
      have htop := top.size_pos
      simp only [stackSize] at hbudget
      omega
  | case2 n => rfl
  | case3 n rest ih =>
    simp only [stackSize, size] at hbudget
    rw [ih (by omega)]
    rfl
  | case4 n arg rest ih =>
    simp only [stackSize, size] at hbudget
    rw [ih (by omega)]
    rfl
  | case5 n first second rest ih | case6 n first second rest ih =>
    simp only [stackSize, size] at hbudget ih
    rw [ih (by omega)]
    simp [testList]
  | case7 n body rest ih =>
    simp only [stackSize, size] at hbudget ih
    rw [ih (by omega)]
    simp [testList]

theorem tests_eq_testList (path : Path) : path.tests = path.testList := by
  rw [tests, walkTests_eq _ _ (by simp [stackSize])]
  simp

/-- Looking for a faulty path in the tests is looking in one test after the other. -/
theorem malformedTest?_eq_findSome? (path : Path) :
    path.malformedTest? = path.testList.findSome? Formula.malformedPath? := by
  fun_induction testList path with
  | case1 => rfl
  | case2 arg => simp [malformedTest?]
  | case3 first second ihFirst ihSecond | case4 first second ihFirst ihSecond =>
    simp [malformedTest?, List.findSome?_append, ihFirst, ihSecond]
  | case5 body ih => exact ih

end Path

/-- **The check of paths is exact.**  A formula passes exactly if every path that
occurs in it, as an operand, within another path or in a test, is in normal form;
otherwise the check reports the first path in pre-order that is not.  Below a path it
looks into the tests of the path one after the other, and the walk over a stack that
collects them finds them from left to right. -/
theorem Formula.malformedPath?_exact (f : Formula) :
    (f.malformedPath? = none ↔
      ∀ path : Path, (Phrase.path path).Occurs (.formula f) → path.isNormal = true) ∧
    f.malformedPath? = ((Phrase.formula f).paths.find? fun path => !path.isNormal) ∧
    ∀ path : Path, path.tests = path.testList ∧
      path.malformedTest? = path.tests.findSome? Formula.malformedPath? := by
  have hfirst : f.malformedPath? = ((Phrase.formula f).paths.find? fun path => !path.isNormal) :=
    (Phrase.formula f).check?_eq_find?
  refine ⟨?_, hfirst, fun path => ⟨path.tests_eq_testList, ?_⟩⟩
  · rw [hfirst, List.find?_eq_none]
    simp [Phrase.mem_paths_iff]
  · rw [path.tests_eq_testList, path.malformedTest?_eq_findSome?]

end TemporalHorizon

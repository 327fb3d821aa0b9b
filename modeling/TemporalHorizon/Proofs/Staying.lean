import TemporalHorizon.Trace
import TemporalHorizon.Proofs.PathChecks

/-!
# Paths that move, and stars that end

A path is nullable if it can be run without moving, and a star is in normal form only if its
body is not nullable.  This module says what that is good for.  A path that is not nullable
moves forward whatever its tests say, so a star in normal form asks about itself at later
steps only, and on a finite trace the equation by which it is unfolded leaves it one value
at each step.

Neither fact depends on what the tests are: `Path.RunsUnder` runs a path under any reading
of its tests, and a trace is one such reading (`Path.runs_eq_runsUnder`).

* `Path.lt_of_runsUnder`, `Path.runsUnder_self`: a path that is not nullable moves, and a
  nullable one can stay where its tests hold.
* `Modality.round_unique`: if all moves go forward, one round of a repetition determines the
  steps at which it holds.  The induction runs from the last step down.
* `Unfolding.holds_dynamic`: a reading of all formulas that satisfies the equations by which
  dynamic formulas are unfolded, down to the single moves, gives a modality over a path in
  normal form its meaning.  The induction is on the path, and a star inside it needs the
  induction from the last step.
* `Path.staying_and_star_unique`: all of it together, for any path.
-/

namespace TemporalHorizon

/-! ## Running a path under a reading of its tests -/

namespace Path

/-- Whether a path can be run from one step to another among the steps up to a last one,
where `holds` says at which steps a test holds. -/
def RunsUnder (last : Nat) (holds : Formula → Nat → Prop) : Path → Nat → Nat → Prop
  | .skip => fun i j => j = i + 1 ∧ i < last
  | .test arg => fun i j => j = i ∧ holds arg i
  | .seq first second => fun i j =>
    ∃ k, first.RunsUnder last holds i k ∧ second.RunsUnder last holds k j
  | .choice lhs rhs => fun i j => lhs.RunsUnder last holds i j ∨ rhs.RunsUnder last holds i j
  | .star body => Relation.ReflTransGen (body.RunsUnder last holds)

/-- In a trace the tests of a path are read as formulas. -/
theorem runs_eq_runsUnder (trace : Trace) (path : Path) :
    path.Runs trace = path.RunsUnder trace.last fun f => f.Holds trace := by
  cases path with
  | skip => rfl
  | test arg => rfl
  | seq first second =>
    simp only [Runs, RunsUnder, runs_eq_runsUnder trace first, runs_eq_runsUnder trace second]
  | choice lhs rhs =>
    simp only [Runs, RunsUnder, runs_eq_runsUnder trace lhs, runs_eq_runsUnder trace rhs]
  | star body => simp only [Runs, RunsUnder, runs_eq_runsUnder trace body]

variable {last : Nat} {holds : Formula → Nat → Prop}

/-- No path leads back. -/
theorem le_of_runsUnder : {path : Path} → {i j : Nat} → path.RunsUnder last holds i j → i ≤ j
  | .skip, i, j, ⟨hj, _⟩ => by omega
  | .test _, i, j, ⟨hj, _⟩ => by omega
  | .seq _ _, _, _, ⟨_, hfirst, hsecond⟩ =>
    Nat.le_trans (le_of_runsUnder hfirst) (le_of_runsUnder hsecond)
  | .choice _ _, _, _, .inl h => le_of_runsUnder h
  | .choice _ _, _, _, .inr h => le_of_runsUnder h
  | .star _, i, j, h => by
    rw [RunsUnder] at h
    induction h with
    | refl => exact Nat.le_refl i
    | tail _ hround ih => exact Nat.le_trans ih (le_of_runsUnder hround)

/-- No path leads out of the trace. -/
theorem le_last_of_runsUnder : {path : Path} → {i j : Nat} → path.RunsUnder last holds i j →
    i ≤ last → j ≤ last
  | .skip, i, j, ⟨hj, hlt⟩, _ => by omega
  | .test _, i, j, ⟨hj, _⟩, hi => by omega
  | .seq _ _, _, _, ⟨_, hfirst, hsecond⟩, hi =>
    le_last_of_runsUnder hsecond (le_last_of_runsUnder hfirst hi)
  | .choice _ _, _, _, .inl h, hi => le_last_of_runsUnder h hi
  | .choice _ _, _, _, .inr h, hi => le_last_of_runsUnder h hi
  | .star _, i, j, h, hi => by
    rw [RunsUnder] at h
    induction h with
    | refl => exact hi
    | tail _ hround ih => exact le_last_of_runsUnder hround ih

/-- A path that is not nullable moves forward. -/
theorem lt_of_runsUnder : {path : Path} → path.isNullable = false → {i j : Nat} →
    path.RunsUnder last holds i j → i < j
  | .skip, _, i, j, ⟨hj, _⟩ => by omega
  | .test _, hmoves, _, _, _ => by cases hmoves
  | .seq first second, hmoves, _, _, ⟨k, hfirst, hsecond⟩ => by
    rcases Bool.and_eq_false_iff.1 hmoves with h | h
    · exact Nat.lt_of_lt_of_le (lt_of_runsUnder h hfirst) (le_of_runsUnder hsecond)
    · exact Nat.lt_of_le_of_lt (le_of_runsUnder hfirst) (lt_of_runsUnder h hsecond)
  | .choice lhs rhs, hmoves, _, _, .inl h =>
    lt_of_runsUnder (Bool.or_eq_false_iff.1 hmoves).1 h
  | .choice lhs rhs, hmoves, _, _, .inr h =>
    lt_of_runsUnder (Bool.or_eq_false_iff.1 hmoves).2 h
  | .star _, hmoves, _, _, _ => by cases hmoves

/-- A nullable path can stay at a step where all its tests hold. -/
theorem runsUnder_self {i : Nat} : {path : Path} → path.isNullable = true →
    (∀ f ∈ path.testList, holds f i) → path.RunsUnder last holds i i
  | .skip, hnullable, _ => by cases hnullable
  | .test arg, _, htests => ⟨rfl, htests arg (List.mem_singleton_self arg)⟩
  | .seq first second, hnullable, htests => by
    obtain ⟨hfirst, hsecond⟩ := Bool.and_eq_true_iff.1 hnullable
    refine ⟨i, runsUnder_self hfirst fun f hf => ?_, runsUnder_self hsecond fun f hf => ?_⟩
    · exact htests f (List.mem_append_left _ hf)
    · exact htests f (List.mem_append_right _ hf)
  | .choice lhs rhs, hnullable, htests => by
    rcases Bool.or_eq_true_iff.1 hnullable with h | h
    · exact .inl (runsUnder_self h fun f hf => htests f (List.mem_append_left _ hf))
    · exact .inr (runsUnder_self h fun f hf => htests f (List.mem_append_right _ hf))
  | .star _, _, _ => .refl

end Path

/-! ## Rounds of a repetition -/

namespace Modality

/-- The truth of a modality at a step, over the steps to which some moves lead. -/
def Over (moves : Nat → Nat → Prop) (goal : Nat → Prop) (step : Nat) : Modality → Prop
  | .diamond => ∃ i, moves step i ∧ goal i
  | .box => ∀ i, moves step i → goal i

/-- The truth of one round of a repetition at a step: the goal here, joined with what is
known of the repetition after one more pass. -/
def Round (modality : Modality) (moves : Nat → Nat → Prop) (goal again : Nat → Prop)
    (step : Nat) : Prop :=
  modality.junction.Holds (goal step) (modality.Over moves again step)

variable {modality : Modality} {moves : Nat → Nat → Prop} {goal again again' : Nat → Prop}
  {step last : Nat}

/-- A modality depends on the steps to which the moves lead. -/
theorem over_congr (h : ∀ i, moves step i → (again i ↔ again' i)) :
    modality.Over moves again step ↔ modality.Over moves again' step := by
  cases modality with
  | diamond => exact exists_congr fun i => and_congr_right (h i)
  | box => exact forall_congr' fun i => imp_congr_right (h i)

theorem round_congr (h : ∀ i, moves step i → (again i ↔ again' i)) :
    modality.Round moves goal again step ↔ modality.Round moves goal again' step := by
  have hover : modality.Over moves again step ↔ modality.Over moves again' step := over_congr h
  rw [Round, Round, hover]

/-- Moves one after the other. -/
theorem over_comp {later : Nat → Nat → Prop} :
    modality.Over (fun i j => ∃ k, moves i k ∧ later k j) goal step ↔
      modality.Over moves (fun k => modality.Over later goal k) step := by
  cases modality with
  | diamond =>
    constructor
    · rintro ⟨j, ⟨k, hk, hj⟩, hgoal⟩
      exact ⟨k, hk, j, hj, hgoal⟩
    · rintro ⟨k, hk, j, hj, hgoal⟩
      exact ⟨j, ⟨k, hk, hj⟩, hgoal⟩
  | box =>
    constructor
    · exact fun h k hk j hj => h j ⟨k, hk, hj⟩
    · rintro h j ⟨k, hk, hj⟩
      exact h k hk j hj

/-- A choice between moves. -/
theorem over_choice {other : Nat → Nat → Prop} :
    modality.Over (fun i j => moves i j ∨ other i j) goal step ↔
      modality.junction.Holds (modality.Over moves goal step) (modality.Over other goal step) := by
  cases modality with
  | diamond =>
    constructor
    · rintro ⟨j, hj | hj, hgoal⟩
      · exact .inl ⟨j, hj, hgoal⟩
      · exact .inr ⟨j, hj, hgoal⟩
    · rintro (⟨j, hj, hgoal⟩ | ⟨j, hj, hgoal⟩)
      · exact ⟨j, .inl hj, hgoal⟩
      · exact ⟨j, .inr hj, hgoal⟩
  | box =>
    constructor
    · exact fun h => ⟨fun j hj => h j (.inl hj), fun j hj => h j (.inr hj)⟩
    · rintro ⟨hl, hr⟩ j (hj | hj)
      · exact hl j hj
      · exact hr j hj

/-- A repetition is either over or goes through one more round. -/
theorem over_reflTransGen :
    modality.Over (Relation.ReflTransGen moves) goal step ↔
      modality.Round moves goal (fun i => modality.Over (Relation.ReflTransGen moves) goal i)
        step := by
  cases modality with
  | diamond =>
    constructor
    · rintro ⟨j, hj, hgoal⟩
      obtain rfl | ⟨k, hk, hkj⟩ := hj.cases_head
      · exact .inl hgoal
      · exact .inr ⟨k, hk, j, hkj, hgoal⟩
    · rintro (hgoal | ⟨k, hk, j, hj, hgoal⟩)
      · exact ⟨step, .refl, hgoal⟩
      · exact ⟨j, .head hk hj, hgoal⟩
  | box =>
    constructor
    · exact fun h => ⟨h step .refl, fun k hk j hj => h j (.head hk hj)⟩
    · rintro ⟨hgoal, h⟩ j hj
      obtain rfl | ⟨k, hk, hkj⟩ := hj.cases_head
      · exact hgoal
      · exact h k hk j hkj

/-- If all moves go forward, one round of a repetition determines the repetition, from the
last step down. -/
theorem round_unique (hmoves : ∀ i j, i ≤ last → moves i j → i < j ∧ j ≤ last)
    (h : ∀ i ≤ last, again i ↔ modality.Round moves goal again i)
    (h' : ∀ i ≤ last, again' i ↔ modality.Round moves goal again' i) (i : Nat) (hi : i ≤ last) :
    again i ↔ again' i := by
  rw [h i hi, h' i hi]
  exact round_congr fun j hj => round_unique hmoves h h' j (hmoves i j hi hj).2
termination_by last - i
decreasing_by
  have hforward := hmoves i j hi hj
  omega

/-- So the steps at which a repetition holds are the one solution of its round. -/
theorem round_iff_reflTransGen (hmoves : ∀ i j, i ≤ last → moves i j → i < j ∧ j ≤ last) :
    (∀ i ≤ last, again i ↔ modality.Round moves goal again i) ↔
      ∀ i ≤ last, again i ↔ modality.Over (Relation.ReflTransGen moves) goal i := by
  constructor
  · exact fun h => round_unique hmoves h fun i _ => over_reflTransGen
  · intro h i hi
    rw [h i hi, over_reflTransGen]
    exact round_congr fun j hj => (h j (hmoves i j hi hj).2).symm

end Modality

/-- The rounds of a star in normal form go forward and stay in the trace. -/
theorem Path.star_moves {body : Path} (h : (Path.star body).isNormal = true) {last : Nat}
    {holds : Formula → Nat → Prop} (i j : Nat) (hi : i ≤ last)
    (hround : body.RunsUnder last holds i j) : i < j ∧ j ≤ last := by
  have hmoves : body.isNullable = false := by
    simpa using (Bool.and_eq_true_iff.1 h).1
  exact ⟨lt_of_runsUnder hmoves hround, le_last_of_runsUnder hround hi⟩

/-! ## Readings that satisfy the unfolding -/

/-- A reading of all formulas at the steps up to a last one satisfies the equations by which
dynamic formulas are unfolded: each is equivalent to one unfolding over the head of its path,
and connectives and moves are read as they should be.  Of tests and arguments nothing is
said. -/
structure Unfolding (last : Nat) (holds : Formula → Nat → Prop) : Prop where
  binary : ∀ op lhs rhs, ∀ i ≤ last,
    (holds (.binary op lhs rhs) i ↔ op.Holds (holds lhs i) (holds rhs i))
  next : ∀ arg weak, ∀ i ≤ last,
    (holds (.next arg weak) i ↔ if i < last then holds arg (i + 1) else weak = true)
  dynamic : ∀ modality path arg, path.isNormal = true → ∀ i ≤ last,
    (holds (.dynamic modality path arg) i ↔ holds (Formula.unfoldPath modality path arg) i)

/-- A dynamic formula speaks of the steps to which its path can be run. -/
theorem Formula.holds_dynamic (trace : Trace) (modality : Modality) (path : Path)
    (arg : Formula) (step : Nat) :
    (Formula.dynamic modality path arg).Holds trace step ↔
      modality.Over (path.Runs trace) (arg.Holds trace) step := by
  cases modality <;> exact Iff.rfl

/-- Truth in a trace is a reading that satisfies the unfolding. -/
theorem Trace.unfolding (trace : Trace) : Unfolding trace.last fun f => f.Holds trace where
  binary _ _ _ _ _ := Iff.rfl
  next _ _ _ _ := Iff.rfl
  dynamic modality path arg _ i _ := by
    cases modality with
    | diamond => exact (Formula.holds_unfoldPath_diamond trace path arg i).symm
    | box => exact (Formula.holds_unfoldPath_box trace path arg i).symm

namespace Unfolding

variable {last : Nat} {holds : Formula → Nat → Prop} {modality : Modality}

/-- Reading a modality over a path in normal form by its unfoldings is reading it over the
runs of the path. -/
theorem holds_dynamic (h : Unfolding last holds) : {path : Path} → path.isNormal = true →
    (arg : Formula) → (i : Nat) → i ≤ last →
      (holds (.dynamic modality path arg) i ↔
        modality.Over (path.RunsUnder last holds) (holds arg) i)
  | .skip, hnormal, arg, i, hi => by
    rw [h.dynamic modality _ arg hnormal i hi, Formula.unfoldPath, h.next _ _ i hi]
    cases modality <;> by_cases hlt : i < last <;>
      simp [Modality.Over, Modality.afterEnd, Path.RunsUnder, hlt]
  | .test test, hnormal, arg, i, hi => by
    rw [h.dynamic modality _ arg hnormal i hi, Formula.unfoldPath, h.binary _ _ _ i hi]
    cases modality <;>
      simp [Modality.Over, Modality.guard, Connective.Holds, Path.RunsUnder, and_assoc]
  | .seq first second, hnormal, arg, i, hi => by
    obtain ⟨hfirst, hsecond⟩ := Bool.and_eq_true_iff.1 hnormal
    rw [h.dynamic modality _ arg hnormal i hi, Formula.unfoldPath, h.holds_dynamic hfirst _ i hi]
    refine Iff.trans (Modality.over_congr fun k hk => ?_) Modality.over_comp.symm
    exact h.holds_dynamic hsecond arg k (Path.le_last_of_runsUnder hk hi)
  | .choice lhs rhs, hnormal, arg, i, hi => by
    obtain ⟨hlhs, hrhs⟩ := Bool.and_eq_true_iff.1 hnormal
    rw [h.dynamic modality _ arg hnormal i hi, Formula.unfoldPath, h.binary _ _ _ i hi,
      h.holds_dynamic hlhs arg i hi, h.holds_dynamic hrhs arg i hi]
    exact Modality.over_choice.symm
  | .star body, hnormal, arg, i, hi => by
    have hbody : body.isNormal = true := (Bool.and_eq_true_iff.1 hnormal).2
    -- The reading of the star solves its round, and the round has one solution.
    refine (Modality.round_iff_reflTransGen (Path.star_moves hnormal)).1 (fun k hk => ?_) i hi
    rw [h.dynamic modality _ arg hnormal k hk, Formula.unfoldPath, h.binary _ _ _ k hk,
      h.holds_dynamic hbody _ k hk]
    exact Iff.rfl

end Unfolding

/-! ## Any path -/

/-- **Nullable paths are those that can stay, and a star in normal form has one meaning.**
Whatever the tests of a path say at the steps of a trace: if the path is not nullable, all
its runs go forward, and if it is nullable, it can stay at every step where its tests hold.
Hence the steps at which a modality over a star in normal form holds are the one solution of
the equation that an unfolding states: at a step of the solution there is the goal, or the
body leads to a step of the solution; for a box there is the goal, and the body leads to
steps of the solution only.  In a trace this equation is what `Formula.unfoldPath` makes of
the star.  Even if all modalities, those over the parts of the path included, are known by
their unfoldings only, they have the meaning of their paths. -/
theorem Path.staying_and_star_unique (last : Nat) (holds : Formula → Nat → Prop) (path : Path) :
    (path.isNullable = false → ∀ i j, path.RunsUnder last holds i j → i < j) ∧
    (path.isNullable = true → ∀ i, (∀ f ∈ path.tests, holds f i) →
      path.RunsUnder last holds i i) ∧
    ((Path.star path).isNormal = true → ∀ (modality : Modality) (goal found : Nat → Prop),
      (∀ i ≤ last, found i ↔ modality.Round (path.RunsUnder last holds) goal found i) ↔
        ∀ i ≤ last, found i ↔ modality.Over ((Path.star path).RunsUnder last holds) goal i) ∧
    (path.isNormal = true → Unfolding last holds → ∀ modality arg, ∀ i ≤ last,
      (holds (.dynamic modality path arg) i ↔
        modality.Over (path.RunsUnder last holds) (holds arg) i)) ∧
    ∀ (trace : Trace) (modality : Modality) (arg : Formula),
      Unfolding trace.last (fun f => f.Holds trace) ∧
      path.Runs trace = path.RunsUnder trace.last (fun f => f.Holds trace) ∧
      (∀ i, (Formula.unfoldPath modality (.star path) arg).Holds trace i ↔
        modality.Round (path.Runs trace) (arg.Holds trace)
          ((Formula.dynamic modality (.star path) arg).Holds trace) i) ∧
      ((Path.star path).isNormal = true → ∀ found : Nat → Prop,
        (∀ i ≤ trace.last, found i ↔
          modality.Round (path.Runs trace) (arg.Holds trace) found i) ↔
        ∀ i ≤ trace.last, found i ↔
          (Formula.dynamic modality (.star path) arg).Holds trace i) := by
  refine ⟨fun h i j => lt_of_runsUnder h, fun h i htests => ?_, fun h modality goal found => ?_,
    fun h hholds modality arg => hholds.holds_dynamic h arg, fun trace modality arg => ?_⟩
  · rw [path.tests_eq_testList] at htests
    exact runsUnder_self h htests
  · exact Modality.round_iff_reflTransGen (star_moves h)
  · refine ⟨trace.unfolding, path.runs_eq_runsUnder trace, fun i => ?_, fun h found => ?_⟩
    · cases modality <;> exact Iff.rfl
    · simp only [Formula.holds_dynamic, runs_eq_runsUnder]
      exact Modality.round_iff_reflTransGen (star_moves h)

/-- Steps at which `a` holds are passed until `b` does.  With `a` at step 0 and `b` at step 1
the unfolding is solved by the steps up to 1, so these are the steps of the diamond. -/
theorem Path.staying_and_star_unique_guarded :
    let a := Formula.atom "a" [] true
    let b := Formula.atom "b" [] true
    let trace : Trace := ⟨2, fun name _ _ i => (name = "a" ∧ i = 0) ∨ (name = "b" ∧ i = 1)⟩
    (guarded a).isNullable = false ∧ (Path.star (guarded a)).isNormal = true ∧
      ∀ i ≤ 2, i ≤ 1 ↔ (Formula.diamond (.star (guarded a)) b).Holds trace i := by
  intro a b trace
  have hmoves : (guarded a).isNullable = false := by decide
  have hnormal : (Path.star (guarded a)).isNormal = true := by decide
  obtain ⟨-, -, -, -, htrace⟩ := staying_and_star_unique 0 (fun _ _ => True) (guarded a)
  obtain ⟨-, -, -, hunique⟩ := htrace trace .diamond b
  refine ⟨hmoves, hnormal, (hunique hnormal fun i => i ≤ 1).1 fun i hi => ?_⟩
  simp only [Modality.Round, Modality.junction, Connective.Holds, Modality.Over, guarded, Runs,
    Formula.Holds, trace, a, b]
  constructor
  · intro hle
    obtain rfl | rfl : i = 0 ∨ i = 1 := by omega
    · exact .inr ⟨1, ⟨0, ⟨rfl, .inl ⟨trivial, rfl⟩⟩, rfl, by decide⟩, by decide⟩
    · exact .inl (.inr ⟨trivial, rfl⟩)
  · rintro ((⟨-, rfl⟩ | ⟨-, rfl⟩) | ⟨j, ⟨k, ⟨rfl, ⟨-, rfl⟩ | ⟨h, -⟩⟩, -⟩, -⟩)
    · decide
    · decide
    · decide
    · exact absurd h (by decide)

end TemporalHorizon

import Mathlib.Tactic.Tauto
import TemporalHorizon.Proofs.Permanence

/-!
# Requirements that are repeated

A requirement is put on a list before it is worked on, and a requirement that is on the
list is not worked on again.  Two guards with the same literals count as the same, whatever
their order and repetitions, and whether or not they mention the constant true.

* `Encoder.guardSet_congr`: such guards are one set.  It is the increasing list of the
  literals, and an increasing list is determined by its members.
* `Encoder.TakenOn`: a requirement is on the list, or its guard is false.  It is so after it
  has been made, whatever the outcome (`takenOn_require`), and remains so
  (`TakenOn.of_turns`).
* `Encoder.TakenOn.require_eq`: a requirement that has been taken on is answered at once.
* `Encoder.require_performAll`: requirements are idempotent up to the set of guards.
-/

namespace TemporalHorizon

namespace Encoder

variable {e after : Encoder} {f : Formula} {s : Nat} {guard other : List Lit}

/-! ## Guards as sets -/

theorem pairwise_guardSet (guard : List Lit) :
    (guardSet guard).Pairwise fun a b => a.toInt < b.toInt := by
  refine Ordered.pairwise_ofList ?_ ?_ ?_ _
  · exact fun _ _ _ => Int.lt_trans
  · exact fun _ _ => Ordered.byInt_eq_lt.1
  · exact fun _ _ => Ordered.byInt_eq_gt.1

theorem mem_guardSet_iff {l : Lit} (hpos : ∀ l ∈ guard, 0 < l.atom) :
    l ∈ guardSet guard ↔ l ∈ guard ∧ l ≠ Lit.truth := by
  constructor
  · intro hl
    obtain ⟨hmem, htruth⟩ := List.mem_filter.1 (Ordered.mem_of_mem_ofList hl)
    exact ⟨hmem, of_decide_eq_true htruth⟩
  · rintro ⟨hmem, htruth⟩
    exact mem_guardSet hpos hmem htruth

/-- Two guards have the same literals, up to their order, repetitions and the constant
true. -/
def SameGuard (guard other : List Lit) : Prop :=
  ∀ l, l ≠ Lit.truth → (l ∈ guard ↔ l ∈ other)

theorem SameGuard.falsity_mem_iff (h : SameGuard guard other) :
    Lit.falsity ∈ guard ↔ Lit.falsity ∈ other := h _ (by decide)

theorem SameGuard.pos (h : SameGuard guard other) (hpos : ∀ l ∈ guard, 0 < l.atom) :
    ∀ l ∈ other, 0 < l.atom := by
  intro l hl
  by_cases htruth : l = Lit.truth
  · rw [htruth]
    decide
  · exact hpos l ((h l htruth).2 hl)

/-- Guards with the same literals are one set. -/
theorem guardSet_congr (hpos : ∀ l ∈ guard, 0 < l.atom) (h : SameGuard guard other) :
    guardSet guard = guardSet other := by
  refine Ordered.eq_of_pairwise ?_ ?_ (pairwise_guardSet guard) (pairwise_guardSet other)
    fun l => ?_
  · exact fun _ => Int.lt_irrefl _
  · exact fun _ _ _ => Int.lt_trans
  rw [mem_guardSet_iff hpos, mem_guardSet_iff (h.pos hpos)]
  constructor
  · rintro ⟨hl, htruth⟩
    exact ⟨(h l htruth).1 hl, htruth⟩
  · rintro ⟨hl, htruth⟩
    exact ⟨(h l htruth).2 hl, htruth⟩

/-! ## Requirements that have been taken on -/

/-- A requirement is on the list, or nothing is demanded by it because its guard is
false. -/
def TakenOn (e : Encoder) (f : Formula) (s : Nat) (guard : List Lit) : Prop :=
  ∃ id, e.store.idOf? f = some id ∧
    (Lit.falsity ∈ guard ∨ (⟨id, s⟩, guardSet guard) ∈ e.required)

theorem TakenOn.congr (h : e.TakenOn f s guard) (hpos : ∀ l ∈ guard, 0 < l.atom)
    (hsame : SameGuard guard other) : e.TakenOn f s other := by
  obtain ⟨id, hid, h⟩ := h
  rw [hsame.falsity_mem_iff, guardSet_congr hpos hsame] at h
  exact ⟨id, hid, h⟩

theorem checkStep_ok {window : Window} (hs : s ≤ window.horizon) (e : Encoder) :
    checkStep window s e = .ok () e := by
  rw [checkStep_of_le hs]
  rfl

theorem register_ok (e : Encoder) (f : Formula) :
    register f e = .ok (e.store.intern f).1 (e.numbered f) := rfl

section Requirements

variable [Arithmetic]

/-- A requirement looks at its guard as a set, and at whether it is false. -/
theorem require_congr (hpos : ∀ l ∈ guard, 0 < l.atom) (h : SameGuard guard other)
    (window : Window) (f : Formula) (s : Nat) :
    require window f s guard = require window f s other := by
  have hstep : ∀ rec, requireStep rec window f s guard = requireStep rec window f s other := by
    intro rec
    unfold requireStep
    rw [guardSet_congr hpos h]
    simp only [h.falsity_mem_iff]
  unfold require
  cases f.unfoldDepth window.horizon with
  | zero => rfl
  | succ depth =>
    unfold requireWithin
    rw [hstep]

/-- Nothing is ever taken off the list. -/
theorem Turn.required_subset (h : Turn e after) : e.required ⊆ after.required := by
  cases h with
  | change h =>
    cases h with
    | demand key guard => exact List.subset_append_left _ _
    | _ => exact List.Subset.refl _
  | _ => exact List.Subset.refl _

theorem TakenOn.of_turns (h : e.TakenOn f s guard) (hturns : Relation.ReflTransGen Turn e after) :
    after.TakenOn f s guard := by
  induction hturns with
  | refl => exact h
  | tail _ hturn ih =>
    obtain ⟨id, hid, htaken⟩ := ih
    exact ⟨id, Store.idOf?_mono hturn.endures.store f hid,
      htaken.imp_right fun hmem => hturn.required_subset hmem⟩

section Rounds

variable {rec : Requiring} {window : Window} {id : FormulaId}

/-- A requirement that has been taken on is passed over. -/
theorem requireStep_passes (hid : e.store.idOf? f = some id) (hs : s ≤ window.horizon)
    (h : Lit.falsity ∈ guard ∨ (⟨id, s⟩, guardSet guard) ∈ e.required) :
    requireStep rec window f s guard e = .ok () e := by
  unfold requireStep
  rw [bind_ok (checkStep_ok hs e)]
  by_cases hfalse : Lit.falsity ∈ guard
  · rw [if_pos hfalse]
    rfl
  · rw [if_neg hfalse]
    rw [bind_ok (keyOf_found hid s), bind_ok (get_ok e), if_pos (h.resolve_left hfalse)]
    rfl

/-- Any other requirement is put on the list and worked on. -/
theorem requireStep_works {key : Key} {now : Encoder} (hs : s ≤ window.horizon)
    (hfalse : Lit.falsity ∉ guard) (hkey : keyOf f s e = .ok key now)
    (hnew : (key, guardSet guard) ∉ now.required) :
    requireStep rec window f s guard e = requireNew rec window f s (guardSet guard)
      { now with required := now.required ++ [(key, guardSet guard)] } := by
  unfold requireStep
  rw [bind_ok (checkStep_ok hs e), if_neg hfalse, bind_ok hkey, bind_ok (get_ok now), if_neg hnew]
  rfl

/-- One round of a requirement takes it on, whatever becomes of it. -/
theorem takenOn_requireStep (hrec : Along.Requiring window.edge rec)
    (hid : e.store.idOf? f = some id) (hs : s ≤ window.horizon) :
    (stateAfter (requireStep rec window f s guard) e).TakenOn f s guard := by
  by_cases h : Lit.falsity ∈ guard ∨ (⟨id, s⟩, guardSet guard) ∈ e.required
  · rw [stateAfter_ok (requireStep_passes hid hs h)]
    exact ⟨id, hid, h⟩
  · obtain ⟨hfalse, hnew⟩ := not_or.1 h
    have hlisted : TakenOn { e with required := e.required ++ [(⟨id, s⟩, guardSet guard)] }
        f s guard := ⟨id, hid, .inr (List.mem_append_right _ (List.mem_singleton.2 rfl))⟩
    rw [stateAfter_congr (requireStep_works hs hfalse (keyOf_found hid s) hnew)]
    exact hlisted.of_turns (Along.turn _ (Along.requireNew hrec rfl f s _).changes _)

end Rounds

/-- The rounds of a requirement begin when its formula has been numbered. -/
theorem require_eq_requireStep (window : Window) (f : Formula) (s : Nat) (guard : List Lit)
    (e : Encoder) : ∃ depth, require window f s guard e =
      requireStep (requireWithin depth) window f s guard (e.numbered f) := by
  obtain ⟨depth, hdepth⟩ := Nat.exists_eq_succ_of_ne_zero
    (Nat.ne_of_gt (f.unfoldDepth_pos window.horizon))
  refine ⟨depth, ?_⟩
  unfold require
  rw [bind_ok (register_ok e f), hdepth]
  rfl

/-- A requirement at a step that the window shows is taken on, also if it fails. -/
theorem takenOn_require {window : Window} (hs : s ≤ window.horizon) :
    (stateAfter (require window f s guard) e).TakenOn f s guard := by
  obtain ⟨depth, hrounds⟩ := require_eq_requireStep window f s guard e
  rw [stateAfter_congr hrounds]
  exact takenOn_requireStep (Along.requireWithin depth) (numbered_names e f s).number hs

/-- A requirement that has been taken on is answered at once, and nothing happens. -/
theorem TakenOn.require_eq (h : e.TakenOn f s guard) {window : Window} (hs : s ≤ window.horizon) :
    require window f s guard e = .ok () e := by
  obtain ⟨id, hid, h⟩ := h
  obtain ⟨depth, hrounds⟩ := require_eq_requireStep window f s guard e
  rw [hrounds, numbered_eq hid]
  exact requireStep_passes hid hs h

/-- A step that the window does not show is refused, and only the formula is numbered. -/
theorem require_hidden {window : Window} (hs : window.horizon < s) (e : Encoder) :
    require window f s guard e =
      .error (.violation (.outOfWindow s (some window.horizon))) (e.numbered f) := by
  have hcheck : checkStep window s (e.numbered f) =
      .error (.violation (.outOfWindow s (some window.horizon))) (e.numbered f) := by
    rw [checkStep_of_lt hs]
    rfl
  obtain ⟨depth, hrounds⟩ := require_eq_requireStep window f s guard e
  rw [hrounds]
  exact bind_error hcheck

/-! ## Repetition -/

/-- **Requirements are idempotent up to the set of guards.**  Once a requirement has been
met, whatever is done afterwards, the same requirement with a guard of the same literals in
a window that shows the step succeeds and changes nothing at all.  And from one state, two
such guards lead to the same outcome. -/
theorem require_performAll (hpos : ∀ l ∈ guard, 0 < l.atom) (hsame : SameGuard guard other) :
    (∀ window e after, require window f s guard e = .ok () after →
      ∀ operations (later : Window), s ≤ later.horizon →
        require later f s other (after.performAll operations) =
          .ok () (after.performAll operations)) ∧
    ∀ window, require window f s guard = require window f s other := by
  refine ⟨fun window e after hok operations later hlater => ?_, fun window => ?_⟩
  · have hs : s ≤ window.horizon := by
      refine Nat.le_of_not_lt fun hs => ?_
      rw [require_hidden hs] at hok
      cases hok
    have htaken : after.TakenOn f s guard := by
      rw [← stateAfter_ok hok]
      exact takenOn_require hs
    have htaken' := (htaken.congr hpos hsame).of_turns (after.turns_performAll operations)
    exact htaken'.require_eq hlater
  · exact require_congr hpos hsame window f s

end Requirements

/-- An until under a guard that is repeated in another order, after the until has been
unrolled, a requirement of the last stage has been refused and the edge closed. -/
theorem require_performAll_untl :
    let p := Formula.atom "p" [] true
    let q := Formula.atom "q" [] true
    let start := empty.performAll [.fresh, .fresh]
    let guard : List Lit := [⟨3, false⟩, Lit.truth, ⟨2, true⟩, ⟨3, false⟩]
    let other : List Lit := [⟨2, true⟩, ⟨3, false⟩]
    (∀ l ∈ guard, 0 < l.atom) ∧ SameGuard guard other ∧ ∃ after,
      require ⟨0, false, .always⟩ (.untl p q) 0 guard start = .ok () after ∧
      0 ≤ (Window.mk 1 true .final).horizon ∧
      let later := after.performAll [.takeRules, .resolveBoundaries ⟨1, false, .always⟩ 1,
        .advanceInstances ⟨1, false, .always⟩ 1, .require ⟨1, false, .final⟩ (.next p false) 1 [],
        .close]
      require ⟨1, true, .final⟩ (.untl p q) 0 other later = .ok () later ∧
      require ⟨1, true, .final⟩ (.untl p q) 1 guard later =
        require ⟨1, true, .final⟩ (.untl p q) 1 other later := by
  intro p q start guard other
  have hpos : ∀ l ∈ guard, 0 < l.atom := by decide
  have hsame : SameGuard guard other := by
    intro l hl
    simp only [guard, other, List.mem_cons, List.not_mem_nil, or_false, hl, false_or]
    tauto
  have hmet : EStateM.run' (require ⟨0, false, .always⟩ (.untl p q) 0 guard) start = some () := by
    decide +kernel
  cases hok : require ⟨0, false, .always⟩ (.untl p q) 0 guard start with
  | error failure after =>
    delta EStateM.run' EStateM.run at hmet
    rw [hok] at hmet
    cases hmet
  | ok _ after =>
    refine ⟨hpos, hsame, after, rfl, Nat.zero_le _, ?_, ?_⟩
    · exact (require_performAll hpos hsame).1 _ _ _ hok _ _ (Nat.zero_le _)
    · exact congrFun ((require_performAll hpos hsame).2 _) _

end Encoder
end TemporalHorizon

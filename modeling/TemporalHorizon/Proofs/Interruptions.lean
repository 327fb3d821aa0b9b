import TemporalHorizon.Proofs.Repetition

/-!
# What an interruption leaves behind

An operation that fails is broken off, and what it has done by then stays.  Two kinds of
obligation do not survive this.

A requirement is put on the list before it is worked on.  If the work is broken off, the
requirement is on the list all the same: it counts as met, and no later request for it does
the rest of the work (`Encoder.require_performAll_of_error`).

When a step is reached, everything that has fallen due is taken off the edge before the
first piece of it is dealt with.  If one piece cannot be dealt with, all of them are gone,
also those that come after it; everything else that was waiting still is
(`Encoder.lost_of_error`).
-/

namespace TemporalHorizon

namespace Encoder

variable {e after : Encoder} {f : Formula} {s : Nat} {guard : List Lit} {failure : Failure}

/-! ## A requirement that has failed -/

/-- **A requirement that has failed counts as met.**  If the window shows the step, the
requirement is on the list although the work on it was broken off: from then on it succeeds
and does nothing, in every window that shows the step and whatever is done in between.  Only
a requirement at a step that the window does not show fails again. -/
theorem require_performAll_of_error [Arithmetic] {window : Window}
    (herror : require window f s guard e = .error failure after) (operations : List Operation) :
    (s ≤ window.horizon → ∀ later : Window, s ≤ later.horizon →
      require later f s guard (after.performAll operations) =
        .ok () (after.performAll operations)) ∧
    (window.horizon < s →
      require window f s guard (after.performAll operations) =
        .error failure (after.performAll operations)) := by
  constructor
  · intro hs later hlater
    have htaken : after.TakenOn f s guard := by
      rw [← stateAfter_error herror]
      exact takenOn_require hs
    exact (htaken.of_turns (after.turns_performAll operations)).require_eq hlater
  · intro hs
    rw [require_hidden hs] at herror
    cases herror
    have hnumber := Store.idOf?_mono (endures_performAll operations (e.numbered f)).store f
      (numbered_names e f s).number
    rw [require_hidden hs, numbered_eq hnumber]

/-- Some run of a path that moves only by testing: the requirement is refused, and a second
request for it is granted without a rule. -/
theorem require_performAll_of_error_star :
    let window : Window := ⟨0, false, .always⟩
    let f := Formula.diamond (.star (.test (.atom "a" [] true))) (.atom "b" [] true)
    ∃ after, require window f 0 [] empty =
        .error (.violation (.malformedPath f (.star (.test (.atom "a" [] true))))) after ∧
      0 ≤ window.horizon ∧ require window f 0 [] after = .ok () after ∧ after.rules = [] := by
  intro window f
  have hrefused : (match require window f 0 [] empty with
      | .ok _ _ => none
      | .error failure after => some (failure, after.rules)) =
        some (.violation (.malformedPath f (.star (.test (.atom "a" [] true)))), []) := by
    decide +kernel
  cases herror : require window f 0 [] empty with
  | ok _ after =>
    rw [herror] at hrefused
    cases hrefused
  | error failure after =>
    rw [herror] at hrefused
    obtain ⟨rfl, hrules⟩ := Prod.mk.inj (Option.some.inj hrefused)
    exact ⟨after, rfl, Nat.zero_le _,
      (require_performAll_of_error herror []).1 (Nat.zero_le _) window (Nat.zero_le _), hrules⟩

/-! ## What changes add to the edge -/

/-- The edge has only got boundaries and postponed requirements for steps after the
horizon. -/
structure Accrues (horizon : Nat) (e after : Encoder) : Prop where
  boundaries : ∃ opened, after.edge.boundaries = e.edge.boundaries ++ opened ∧
    ∀ b ∈ opened, horizon < b.target
  deferred : ∃ postponed, after.edge.deferred = e.edge.deferred ++ postponed ∧
    ∀ d ∈ postponed, horizon < d.step

namespace Accrues

variable {horizon : Nat}

/-- The boundaries and the postponed requirements are what they were. -/
theorem frame (hb : after.edge.boundaries = e.edge.boundaries)
    (hd : after.edge.deferred = e.edge.deferred) : Accrues horizon e after :=
  ⟨⟨[], by rw [hb, List.append_nil], nofun⟩, ⟨[], by rw [hd, List.append_nil], nofun⟩⟩

theorem trans {a b c : Encoder} (h : Accrues horizon a b) (h' : Accrues horizon b c) :
    Accrues horizon a c := by
  obtain ⟨⟨opened, hopened, hob⟩, postponed, hpostponed, hpb⟩ := h
  obtain ⟨⟨opened', hopened', hob'⟩, postponed', hpostponed', hpb'⟩ := h'
  refine ⟨⟨opened ++ opened', ?_, fun b hb => ?_⟩, postponed ++ postponed', ?_, fun d hd => ?_⟩
  · rw [hopened', hopened, List.append_assoc]
  · exact (List.mem_append.1 hb).elim (hob b) (hob' b)
  · rw [hpostponed', hpostponed, List.append_assoc]
  · exact (List.mem_append.1 hd).elim (hpb d) (hpb' d)

end Accrues

theorem Change.accrues [Arithmetic] {horizon : Nat} (h : Change horizon e after) :
    Accrues horizon e after := by
  cases h with
  | await b hb =>
    refine ⟨⟨[b], rfl, fun b' hb' => ?_⟩, [], (List.append_nil _).symm, nofun⟩
    rw [List.mem_singleton.1 hb']
    exact hb
  | postpone d hd =>
    refine ⟨⟨[], (List.append_nil _).symm, nofun⟩, [d], rfl, fun d' hd' => ?_⟩
    rw [List.mem_singleton.1 hd']
    exact hd
  | _ => exact .frame rfl rfl

theorem accrues_of_changes [Arithmetic] {horizon : Nat} (h : Changes horizon e after) :
    Accrues horizon e after := by
  induction h with
  | refl => exact .frame rfl rfl
  | tail _ hchange ih => exact ih.trans hchange.accrues

/-! ## A step that cannot be dealt with -/

/-- A step that the window does not show is refused, and only the formula is numbered. -/
theorem encode_hidden [Arithmetic] {window : Window} (hs : window.horizon < s) (e : Encoder) :
    encode window f s e =
      .error (.violation (.outOfWindow s (some window.horizon))) (e.numbered f) := by
  have hcheck : checkStep window s (e.numbered f) =
      .error (.violation (.outOfWindow s (some window.horizon))) (e.numbered f) := by
    rw [checkStep_of_lt hs]
    rfl
  obtain ⟨depth, hdepth⟩ := Nat.exists_eq_succ_of_ne_zero
    (Nat.ne_of_gt (f.unfoldDepth_pos window.horizon))
  unfold encode
  rw [bind_ok (register_ok e f), hdepth]
  exact bind_error hcheck

/-- A tie that fails opens no boundary to the step itself: if the window does not show the
step it fails at once, and otherwise what it opens lies after the horizon. -/
theorem opened_of_tie_error [Arithmetic] {window : Window} {step : Nat} {due : List Boundary}
    (herror : tieBoundaries window step due e = .error failure after) :
    due ≠ [] ∧ ∃ opened, after.edge.boundaries = e.edge.boundaries ++ opened ∧
      ∀ b ∈ opened, b.target ≠ step := by
  cases due with
  | nil => cases herror
  | cons b rest =>
    refine ⟨nofun, ?_⟩
    by_cases hs : step ≤ window.horizon
    · obtain ⟨opened, hopened, hlater⟩ := (accrues_of_changes
        ((Along.tieBoundaries rfl step (b :: rest)).changes.of_error herror)).boundaries
      refine ⟨opened, hopened, fun b hb => ?_⟩
      exact Nat.ne_of_gt (Nat.lt_of_le_of_lt hs (hlater b hb))
    · have hfirst : tieBoundaries window step (b :: rest) e =
          .error _ (e.numbered b.arg) := bind_error (encode_hidden (Nat.lt_of_not_le hs) e)
      rw [hfirst] at herror
      cases herror
      exact ⟨[], (List.append_nil _).symm, nofun⟩

/-- Nor does a requirement that fails postpone anything to the step itself. -/
theorem postponed_of_meet_error [Arithmetic] {window : Window} {step : Nat} {due : List Deferred}
    (herror : (due.forM fun d => require window d.formula step d.guard) e = .error failure after) :
    due ≠ [] ∧ ∃ postponed, after.edge.deferred = e.edge.deferred ++ postponed ∧
      ∀ d ∈ postponed, d.step ≠ step := by
  cases due with
  | nil => cases herror
  | cons d rest =>
    refine ⟨nofun, ?_⟩
    by_cases hs : step ≤ window.horizon
    · obtain ⟨postponed, hpostponed, hlater⟩ := (accrues_of_changes
        ((Along.meetAll rfl step (d :: rest)).changes.of_error herror)).deferred
      refine ⟨postponed, hpostponed, fun d hd => ?_⟩
      exact Nat.ne_of_gt (Nat.lt_of_le_of_lt hs (hlater d hd))
    · have hfirst : ((d :: rest).forM fun d => require window d.formula step d.guard) e =
          .error _ (e.numbered d.formula) := bind_error (require_hidden (Nat.lt_of_not_le hs) e)
      rw [hfirst] at herror
      cases herror
      exact ⟨[], (List.append_nil _).symm, nofun⟩

/-- Of what waits for some steps, exactly what waits for one step is lost, if that has been
taken out and nothing for the step has been added. -/
theorem lost_iff {α : Type} {step : α → Nat} {s : Nat} {waiting later added : List α}
    (hdue : waiting.filter (step · = s) ≠ [])
    (hlater : later = waiting.filter (step · ≠ s) ++ added) (hadded : ∀ x ∈ added, step x ≠ s) :
    (∃ x ∈ waiting, step x = s) ∧ ∀ x ∈ waiting, x ∈ later ↔ step x ≠ s := by
  constructor
  · obtain ⟨x, hx⟩ := List.exists_mem_of_ne_nil _ hdue
    obtain ⟨hmem, hstep⟩ := List.mem_filter.1 hx
    exact ⟨x, hmem, of_decide_eq_true hstep⟩
  · intro x hx
    rw [hlater, List.mem_append]
    constructor
    · rintro (hkept | hnew)
      · exact of_decide_eq_true (List.mem_filter.1 hkept).2
      · exact hadded x hnew
    · exact fun hne => .inl (List.mem_filter.2 ⟨hx, decide_eq_true hne⟩)

/-- **A failure at the edge loses what had fallen due, and nothing else.**  If the boundaries
to a step cannot be tied, there were such boundaries and all of them are gone; if the
requirements postponed to a step cannot be met, there were such requirements and all of them
are gone.  What waited for other steps is still waiting. -/
theorem lost_of_error [Arithmetic] (window : Window) (step : Nat) (e after : Encoder)
    (failure : Failure) :
    (resolveBoundaries window step e = .error failure after →
      (∃ b ∈ e.edge.boundaries, b.target = step) ∧
        ∀ b ∈ e.edge.boundaries, b ∈ after.edge.boundaries ↔ b.target ≠ step) ∧
    (runDeferred window step e = .error failure after →
      (∃ d ∈ e.edge.deferred, d.step = step) ∧
        ∀ d ∈ e.edge.deferred, d ∈ after.edge.deferred ↔ d.step ≠ step) := by
  constructor
  · intro herror
    obtain ⟨hdue, opened, hopened, htarget⟩ := opened_of_tie_error herror
    exact lost_iff hdue hopened htarget
  · intro herror
    obtain ⟨hdue, postponed, hpostponed, hstep⟩ := postponed_of_meet_error herror
    exact lost_iff hdue hpostponed hstep

/-- Two references to the next step, one of them to a formula that is refused there, and the
same two as requirements: the other one is lost as well. -/
theorem lost_of_error_next :
    let c := Formula.atom "c" [] true
    let refused := Formula.diamond (.star (.test (.atom "a" [] true))) (.atom "b" [] true)
    let now : Window := ⟨0, false, .always⟩
    let later : Window := ⟨1, false, .always⟩
    let e := empty.performAll [.encode now (.next refused true) 0, .encode now (.next c true) 0,
      .require now (.next refused true) 0 [], .require now (.next c true) 0 []]
    (∃ failure after, resolveBoundaries later 1 e = .error failure after ∧
      ⟨⟨3, false⟩, c, 1, true⟩ ∈ e.edge.boundaries ∧
      ⟨⟨3, false⟩, c, 1, true⟩ ∉ after.edge.boundaries) ∧
    ∃ failure after, runDeferred later 1 e = .error failure after ∧
      ⟨1, c, []⟩ ∈ e.edge.deferred ∧ ⟨1, c, []⟩ ∉ after.edge.deferred := by
  intro c refused now later e
  have hboundary : ⟨⟨3, false⟩, c, 1, true⟩ ∈ e.edge.boundaries := by decide +kernel
  have hdeferred : ⟨1, c, []⟩ ∈ e.edge.deferred := by decide +kernel
  have hfails : (match resolveBoundaries later 1 e, runDeferred later 1 e with
      | .error _ _, .error _ _ => true
      | _, _ => false) = true := by decide +kernel
  cases htie : resolveBoundaries later 1 e with
  | ok released after =>
    rw [htie] at hfails
    cases hfails
  | error failure after =>
    cases hmeet : runDeferred later 1 e with
    | ok _ after' =>
      rw [htie, hmeet] at hfails
      cases hfails
    | error failure' after' =>
      refine ⟨⟨failure, after, rfl, hboundary, fun hkept => ?_⟩,
        failure', after', rfl, hdeferred, fun hkept => ?_⟩
      · exact (((lost_of_error later 1 e after failure).1 htie).2 _ hboundary).1 hkept rfl
      · exact (((lost_of_error later 1 e after' failure').2 hmeet).2 _ hdeferred).1 hkept rfl

end Encoder
end TemporalHorizon

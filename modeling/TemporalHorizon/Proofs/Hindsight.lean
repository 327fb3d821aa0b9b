import TemporalHorizon.Proofs.Assertions
import TemporalHorizon.Proofs.Exactness
import TemporalHorizon.Proofs.Filings

/-!
# Formulas that do not look ahead

Whether a formula looks ahead is read off its syntax.  The encoder follows the operators
instead, back along the trace, and for the last step it asks for a reference to the next one
on behalf of another stage.  The two agree: a formula that does not look ahead never leads
past its step.

* `Encoder.Behind`: nothing has been postponed, no instance started, and what is filed is
  filed for steps up to a given one.  One boundary may have been opened, for the existence of
  a step after an open edge.
* `Encoder.behind_of_filings`: a request for a formula that does not look ahead stays behind.
* `Encoder.Stays`: a computation that succeeds and stays behind; the lemmas of this namespace
  follow the requirement of a formula that does not look ahead.
* `Encoder.encode_require_behind`: the statement for all encoders that operations lead to.
-/

namespace TemporalHorizon

section Exact

attribute [local instance] Arithmetic.exact

namespace Formula

/-- A formula that does not look ahead has no dynamic part, so no path in it is malformed. -/
theorem malformedPath?_of_not_ahead {f : Formula} (h : f.referencesFuture = false) :
    f.malformedPath? = none := by
  induction f using referencesFuture.induct with
  | case1 | case2 | case3 | case4 => rfl
  | case5 arg ih | case6 arg weak ih | case7 arg ih => exact ih h
  | case8 op lhs rhs ihl ihr =>
    simp only [referencesFuture, Bool.or_eq_false_iff] at h
    exact orElse_eq_none_iff.2 ⟨ihl h.1, ihr h.2⟩
  | case9 | case10 => cases h
  | case11 op lhs rhs ihl ihr =>
    simp only [referencesFuture, Bool.or_eq_false_iff] at h
    exact orElse_eq_none_iff.2 ⟨ihl h.1.2, ihr h.2⟩
  | case12 op arg ih =>
    simp only [referencesFuture, Bool.or_eq_false_iff] at h
    exact ih h.2

/-- What is asked for on behalf of a formula that does not look ahead does not look ahead
either, and is asked for at the same step or an earlier one. -/
theorem request_not_ahead {f g : Formula} {horizon s t : Nat} (hf : f ≠ .final)
    (h : f.referencesFuture = false) (hq : (g, t) ∈ f.requests horizon s) :
    g.referencesFuture = false ∧ t ≤ s := by
  cases f with
  | atom | bool | initial => simp [requests] at hq
  | final => exact absurd rfl hf
  | next | dynamic => cases h
  | not arg | initially arg | previous arg weak =>
    simp only [requests, List.mem_singleton, Prod.mk.injEq] at hq
    obtain ⟨rfl, rfl⟩ := hq
    exact ⟨h, by omega⟩
  | binary op lhs rhs =>
    simp only [referencesFuture, Bool.or_eq_false_iff] at h
    simp only [requests, List.mem_cons, List.not_mem_nil, or_false, Prod.mk.injEq] at hq
    rcases hq with ⟨rfl, rfl⟩ | ⟨rfl, rfl⟩
    · exact ⟨h.1, Nat.le_refl _⟩
    · exact ⟨h.2, Nat.le_refl _⟩
  | temporal op lhs rhs =>
    have hall := h
    simp only [referencesFuture, Bool.or_eq_false_iff] at h
    simp only [requests, h.1.1, Bool.false_eq_true, if_false, List.mem_append, List.mem_cons,
      List.not_mem_nil, or_false, Prod.mk.injEq] at hq
    rcases hq with hq | ⟨rfl, rfl⟩ | ⟨rfl, rfl⟩
    · split at hq
      · cases hq
      · simp only [List.mem_singleton, Prod.mk.injEq] at hq
        obtain ⟨rfl, rfl⟩ := hq
        exact ⟨hall, by omega⟩
    · exact ⟨h.1.2, Nat.le_refl _⟩
    · exact ⟨h.2, Nat.le_refl _⟩
  | modal op arg =>
    have hall := h
    simp only [referencesFuture, Bool.or_eq_false_iff] at h
    simp only [requests, h.1, Bool.false_eq_true, if_false, List.mem_append, List.mem_cons,
      List.not_mem_nil, or_false, Prod.mk.injEq] at hq
    rcases hq with hq | ⟨rfl, rfl⟩
    · split at hq
      · cases hq
      · simp only [List.mem_singleton, Prod.mk.injEq] at hq
        obtain ⟨rfl, rfl⟩ := hq
        exact ⟨hall, by omega⟩
    · exact ⟨h.2, Nat.le_refl _⟩

end Formula

namespace Encoder

/-! ## What stays behind a step -/

/-- A boundary has been opened for the existence of a step after the edge. -/
structure OpensHasNext (edge : Instant) (s : Nat) (before after : Encoder) : Prop where
  isOpen : edge.last = false
  atEdge : s = edge.index
  absent : (before.ledger []).lit .hasNext s = none
  opened : ∃ lit, (after.ledger []).lit .hasNext s = some lit ∧
    after.edge.boundaries = before.edge.boundaries ++ [⟨lit, .bool true, s + 1, false⟩]

/-- Nothing has been done past a step, the existence of a step after an open edge apart.  The
numbers in the cache are read as those of keys without words, so that each of them stands for
one key; for the keys of an encoder in range these are the numbers that it uses
(`InRange.entry?_eq`). -/
structure Behind (edge : Instant) (s : Nat) (before after : Encoder) : Prop
    extends Endures before after where
  deferred : after.edge.deferred = before.edge.deferred
  instances : after.edge.instances = before.edge.instances
  carriers : after.carriers = before.carriers
  entry_new : ∀ key lit, after.cache.entry? key = some lit →
    before.cache.entry? key = some lit ∨ key.step ≤ s
  ground_new : ∀ key lit, after.ground.get? key = some lit →
    before.ground.get? key = some lit ∨ key.step ≤ s
  boundaries : after.edge.boundaries = before.edge.boundaries ∨ OpensHasNext edge s before after

namespace Behind

variable {edge : Instant} {s : Nat} {a b c : Encoder}

/-- A change of what is neither filed nor at the edge. -/
theorem same (hstore : a.store.Extends b.store) (hentries : b.cache.entries = a.cache.entries)
    (hground : b.ground = a.ground) (hedge : b.edge = a.edge)
    (hcarriers : b.carriers = a.carriers) : Behind edge s a b := by
  have hentry : ∀ key, b.cache.entry? key = a.cache.entry? key := fun key => by
    rw [Cache.entry?, Cache.entry?, hentries]
  exact ⟨⟨hstore, fun key lit h => (hentry key).trans h, fun key lit h => hground ▸ h⟩,
    congrArg Edge.deferred hedge, congrArg Edge.instances hedge, hcarriers,
    fun key lit h => .inl ((hentry key).symm.trans h), fun key lit h => .inl (hground ▸ h),
    .inl (congrArg Edge.boundaries hedge)⟩

theorem refl (a : Encoder) : Behind edge s a a := same (.refl _) rfl rfl rfl rfl

theorem trans (h : Behind edge s a b) (h' : Behind edge s b c) : Behind edge s a c where
  toEndures := h.toEndures.trans h'.toEndures
  deferred := h'.deferred.trans h.deferred
  instances := h'.instances.trans h.instances
  carriers := h'.carriers.trans h.carriers
  entry_new := fun key lit hl => (h'.entry_new key lit hl).elim (h.entry_new key lit) .inr
  ground_new := fun key lit hl => (h'.ground_new key lit hl).elim (h.ground_new key lit) .inr
  boundaries := by
    rcases h.boundaries with heq | hopens
    · rcases h'.boundaries with heq' | hopens'
      · exact .inl (heq'.trans heq)
      · obtain ⟨lit, hlit, hopened⟩ := hopens'.opened
        refine .inr ⟨hopens'.isOpen, hopens'.atEdge, ?_, lit, hlit, hopened.trans (by rw [heq])⟩
        cases hold : (a.ledger []).lit .hasNext s with
        | none => rfl
        | some old =>
          have hkept := h.toEndures.lit hold
          rw [hopens'.absent] at hkept
          cases hkept
    · obtain ⟨lit, hlit, hopened⟩ := hopens.opened
      rcases h'.boundaries with heq' | hopens'
      · exact .inr ⟨hopens.isOpen, hopens.atEdge, hopens.absent, lit, h'.toEndures.lit hlit,
          heq'.trans hopened⟩
      · -- The boundary is opened once, because its literal is found from then on.
        have habsent := hopens'.absent
        rw [hlit] at habsent
        cases habsent

end Behind

/-! ## Requests -/

/-- What is asked for on behalf of formulas that do not look ahead from a step. -/
def Reaches (edge : Instant) (s : Nat) (f : Formula) (t : Nat) : Prop :=
  f.referencesFuture = false ∧ t ≤ s ∨
    f = .hasNext ∧ t = s ∧ s = edge.index ∧ edge.last = false

theorem inclusive_reaches {edge : Instant} {s : Nat} (hs : s ≤ edge.index) :
    Inclusive edge (Reaches edge s) where
  request := by
    rintro f t hf (⟨hnot, ht⟩ | ⟨rfl, rfl, rfl, -⟩) ⟨g, t'⟩ hq
    · obtain ⟨hg, ht'⟩ := Formula.request_not_ahead hf hnot hq
      exact .inl ⟨hg, Nat.le_trans ht' ht⟩
    · simp [Formula.hasNext, Formula.requests] at hq
  final := by
    rintro (⟨-, hle⟩ | ⟨hf, -⟩) hopen
    · exact .inr ⟨rfl, Nat.le_antisymm hle hs, Nat.le_antisymm hs hle, hopen⟩
    · cases hf

theorem Reaches.le {edge : Instant} {s t : Nat} {f : Formula} (h : Reaches edge s f t) :
    t ≤ s := by
  obtain ⟨-, hle⟩ | ⟨-, rfl, -⟩ := h
  · exact hle
  · exact Nat.le_refl _

/-- A new entry of a key at a step up to the given one, with the rest in order. -/
theorem Filing.behind_of_write {edge : Instant} {s : Nat} {e after : Encoder}
    (h : Filing edge (Reaches edge s) e after) {key : Key} {lit : Lit} (hkey : key.step ≤ s)
    (hcache : after.cache = e.cache.write key lit) (hground : after.ground = e.ground)
    (hdeferred : after.edge.deferred = e.edge.deferred)
    (hinstances : after.edge.instances = e.edge.instances) (hcarriers : after.carriers = e.carriers)
    (hboundaries : after.edge.boundaries = e.edge.boundaries ∨ OpensHasNext edge s e after) :
    Behind edge s e after := by
  refine ⟨h.endures, hdeferred, hinstances, hcarriers, fun other l hl => ?_,
    fun other l hl => .inl (hground ▸ hl), hboundaries⟩
  rw [hcache, entry?_write] at hl
  split at hl
  · next heq => exact .inr (heq ▸ hkey)
  · exact .inl hl

/-- A filing for what is asked for from a step stays behind it. -/
theorem Filing.behind {edge : Instant} {s : Nat} {e after : Encoder}
    (h : Filing edge (Reaches edge s) e after) : Behind edge s e after := by
  have hfiling := h
  cases h with
  | number f => exact .same (e.store.intern_spec f).grown rfl rfl rfl rfl
  | count | post => exact .same (.refl _) rfl rfl rfl rfl
  | @enter key f _ _ hscope _ =>
    refine ⟨hfiling.endures, rfl, rfl, rfl, fun other l hl => .inl hl, fun other l hl => ?_,
      .inl rfl⟩
    rw [get?_entered] at hl
    split at hl
    · next heq => exact .inr (heq ▸ hscope.le)
    · exact .inl hl
  | share _ _ hscope _ _ =>
    exact hfiling.behind_of_write hscope.le rfl rfl rfl rfl rfl (.inl rfl)
  | define _ _ _ hscope _ _ _ =>
    exact hfiling.behind_of_write hscope.le rfl rfl rfl rfl rfl (.inl rfl)
  | @await key arg weak lit supply hn hscope hnone hopen hedge _ =>
    obtain ⟨hnot, -⟩ | ⟨hf, hstep, hs, -⟩ := id hscope
    · cases hnot
    · obtain ⟨rfl, rfl⟩ := Formula.next.inj hf
      refine hfiling.behind_of_write hscope.le rfl rfl rfl rfl rfl
        (.inr ⟨hopen, hs, ?_, lit, ?_, ?_⟩)
      · rw [← hstep]
        exact (Sheet.ofTable_eq hn.number).trans hnone
      · rw [← hstep]
        refine (Sheet.ofTable_eq hn.number).trans ?_
        rw [entry?_write, if_pos rfl]
      · rw [← hstep]
        rfl

theorem behind_of_filings {edge : Instant} {s : Nat} {e after : Encoder}
    (h : Relation.ReflTransGen (Filing edge (Reaches edge s)) e after) : Behind edge s e after := by
  induction h with
  | refl => exact .refl e
  | tail _ hlast ih => exact ih.trans hlast.behind

/-! ## Computations that succeed -/

/-- Started in a tidy encoder, the computation succeeds and leaves a tidy one, and nothing has
been done past the step. -/
def Stays {α : Type} (edge : Instant) (s : Nat) (x : Encode α) : Prop :=
  ∀ e : Encoder, e.Tidy → Does x e fun _ after => after.Tidy ∧ Behind edge s e after

namespace Stays

variable {α β : Type} {edge : Instant} {s : Nat}

theorem pure (a : α) : Stays edge s (pure a : Encode α) := fun e h => .pure ⟨h, .refl e⟩

theorem bind {x : Encode α} {next : α → Encode β} (hx : Stays edge s x)
    (hn : ∀ a, Stays edge s (next a)) : Stays edge s (x >>= next) := fun e h =>
  (hx e h).bind fun a middle hm => (hn a middle hm.1).mono fun _ _ ha =>
    ⟨ha.1, hm.2.trans ha.2⟩

/-- A computation that succeeds, whose filings are known. -/
theorem of_filings {x : Encode α} (hx : Along (Filing edge (Reaches edge s)) x)
    (htidy : ∀ e : Encoder, e.Tidy → Does x e fun _ after => after.Tidy) : Stays edge s x := by
  intro e h
  have hdoes := htidy e h
  have hbehind := behind_of_filings (hx e)
  unfold Does at hdoes ⊢
  cases hrun : x e with
  | ok a after =>
    rw [hrun] at hdoes
    exact ⟨hdoes, stateAfter_ok hrun ▸ hbehind⟩
  | error failure after =>
    rw [hrun] at hdoes
    exact hdoes

theorem emit (rule : Rule) : Stays edge s (emit rule) :=
  of_filings (files_emit rule) fun _ h => (emit_does [] h rule).mono fun _ _ ha => ha.tidy

theorem register (f : Formula) : Stays edge s (register f) :=
  of_filings (.modifyGet fun _ => .number f) fun _ h =>
    (register_does [] h f).mono fun _ _ ha => ha.2.tidy

theorem groundAtom {f : Formula} (hatom : f.isAtom = true) : Stays edge s (groundAtom f s) := by
  have hnot : f.referencesFuture = false := by
    cases f with
    | atom => rfl
    | _ => cases hatom
  refine of_filings (files_groundAtom hatom (.inl ⟨hnot, Nat.le_refl s⟩)) fun e h =>
    (groundAtom_does [] h f s).mono ?_
  rintro lit after (⟨-, ha⟩ | ⟨-, -, ha⟩)
  · exact ha.tidy
  · exact ha.tidy

theorem encode {window : Window} (hw : window.edge = edge) (hs : s ≤ edge.index) {f : Formula}
    (hf : f.referencesFuture = false) : Stays edge s (encode window f s) :=
  of_filings ((Files.encode (inclusive_reaches hs)).along window f s hw (.inl ⟨hf, Nat.le_refl s⟩))
    fun e h => (encode_does [] edge window f s e hw
      ⟨Formula.malformedPath?_of_not_ahead hf, .inr hf⟩ hs h).mono fun _ _ ha => ha.tidy

/-! ### Requirements -/

section Requirements

variable {window : Window}

theorem sortDisjuncts (hw : window.edge = edge) (hs : s ≤ edge.index) {fs : List Formula}
    (hfs : ∀ f ∈ fs, f.referencesFuture = false) (head : List Nat) (body : List Lit) :
    Stays edge s (sortDisjuncts window s fs head body) := by
  fun_induction Encoder.sortDisjuncts window s fs head body with
  | case1 => exact pure _
  | case2 head body name args positive rest ih =>
    exact bind (groundAtom rfl) fun lit => ih lit (List.forall_mem_cons.1 hfs).2
  | case3 => exact pure _
  | case4 head body rest ih => exact ih (List.forall_mem_cons.1 hfs).2
  | case5 head body f rest _ _ _ ih =>
    obtain ⟨hf, hrest⟩ := List.forall_mem_cons.1 hfs
    exact bind (encode hw hs hf) fun lit => ih lit hrest

theorem requireDisjunction (hw : window.edge = edge) (hs : s ≤ edge.index) {f : Formula}
    (hf : f.referencesFuture = false) (guard : List Lit) :
    Stays edge s (requireDisjunction window f s guard) := by
  have hdisjuncts : ∀ g ∈ f.disjuncts, g.referencesFuture = false := by
    induction f using Formula.disjuncts.induct with
    | case1 lhs rhs ihl ihr =>
      simp only [Formula.referencesFuture, Bool.or_eq_false_iff] at hf
      rw [Formula.disjuncts]
      exact List.forall_mem_append.2 ⟨ihl hf.1, ihr hf.2⟩
    | case2 f hor =>
      rw [Formula.disjuncts.eq_2 f hor]
      exact List.forall_mem_singleton.2 hf
  refine bind (sortDisjuncts hw hs hdisjuncts _ _) fun sorted => ?_
  split
  · exact emit _
  · exact pure _

/-- Requirements of formulas that do not look ahead stay behind their step. -/
def Requiring (edge : Instant) (s : Nat) (rec : Requiring) : Prop :=
  ∀ window f guard, window.edge = edge → f.referencesFuture = false →
    Stays edge s (rec window f s guard)

theorem requireNew {rec : Encoder.Requiring} (h : Requiring edge s rec) (hw : window.edge = edge)
    (hs : s ≤ edge.index) {f : Formula} (hf : f.referencesFuture = false) (guard : List Lit) :
    Stays edge s (requireNew rec window f s guard) := by
  -- What has no rules of its own is encoded, and its negation is excluded.
  have hexclude : ∀ rule : Lit → Rule, Stays edge s (Encoder.encode window f s >>= fun lit =>
      Encoder.emit (rule lit)) := fun rule => bind (encode hw hs hf) fun lit => emit _
  unfold Encoder.requireNew
  cases f with
  | atom name args positive => exact bind (groundAtom rfl) fun lit => emit _
  | bool value =>
    cases value with
    | true => exact pure _
    | false => exact emit _
  | initial => exact hexclude _
  | final => exact hexclude _
  | not arg => exact bind (encode hw hs hf) fun lit => emit _
  | binary op lhs rhs =>
    have hparts := hf
    simp only [Formula.referencesFuture, Bool.or_eq_false_iff] at hparts
    obtain ⟨hl, hr⟩ := hparts
    cases op with
    | and => exact bind (h _ _ _ hw hl) fun _ => h _ _ _ hw hr
    | or => exact requireDisjunction hw hs hf guard
    | implies => exact bind (encode hw hs hl) fun lit => h _ _ _ hw hr
    | implied => exact bind (encode hw hs hr) fun lit => h _ _ _ hw hl
    | equiv => exact hexclude _
  | previous arg weak => exact hexclude _
  | next arg weak => cases hf
  | initially arg => exact hexclude _
  | temporal op lhs rhs =>
    cases op with
    | since => exact hexclude _
    | trigger => exact hexclude _
    | untl => cases hf
    | release => cases hf
  | modal op arg =>
    cases op with
    | since => exact hexclude _
    | trigger => exact hexclude _
    | untl => cases hf
    | release => cases hf
  | dynamic modality path arg => cases hf

theorem requireStep {rec : Encoder.Requiring} (h : Requiring edge s rec) (hs : s ≤ edge.index) :
    Requiring edge s (requireStep rec) := by
  intro window f guard hw hf e htidy
  have hhorizon : window.horizon = edge.index := congrArg Instant.index hw
  unfold Encoder.requireStep
  rw [checkStep_of_le (by omega)]
  refine Does.pure_bind ?_
  split
  · exact pure _ e htidy
  · -- The requirement is listed under the number that the formula has just got.
    have hnumbered := e.store.intern_spec f
    have htidy₁ : (e.numbered f).Tidy :=
      (htidy.follows_store [] hnumbered.grown (hnumbered.closed htidy.store)).tidy
    have hbehind₁ : Behind edge s e (e.numbered f) := .same hnumbered.grown rfl rfl rfl rfl
    refine Does.bind (R := fun key after => after.Names key f s ∧ after.Tidy ∧
      Behind edge s e after) ⟨numbered_names e f s, htidy₁, hbehind₁⟩ ?_
    rintro key e₁ ⟨hn, htidy₁, hbehind₁⟩
    refine Does.get_bind ?_
    split
    · exact Does.pure ⟨htidy₁, hbehind₁⟩
    · have hlisted : Follows [] e₁ _ _ := demand_does [] htidy₁ hn (guardSet guard)
      have hbehind₂ : Behind edge s e₁
          { e₁ with required := e₁.required ++ [(key, guardSet guard)] } :=
        .same (.refl _) rfl rfl rfl rfl
      exact Does.modify_bind ((requireNew h hw hs hf _ _ hlisted.tidy).mono fun _ after ha =>
        ⟨ha.1, (hbehind₁.trans hbehind₂).trans ha.2⟩)

theorem requireWithin (hs : s ≤ edge.index) (depth : Nat) :
    Requiring edge s (requireWithin depth) := by
  induction depth with
  | zero => exact fun window f guard _ _ e _ => ⟨f, s, rfl⟩
  | succ depth ih => exact requireStep ih hs

theorem require (hs : s ≤ edge.index) : Requiring edge s require := fun window f guard hw hf =>
  bind (register f) fun _ => requireWithin hs _ window f guard hw hf

end Requirements
end Stays

/-! ## All encoders -/

/-- Both the request and the requirement, without words. -/
theorem exists_behind (operations : List Operation) {window : Window} {f : Formula}
    {s : Nat} (hf : f.referencesFuture = false) (hs : s ≤ window.horizon) (guard : List Lit) :
    (∃ lit after, encode window f s (empty.performAll operations) = .ok lit after ∧
      Behind window.edge s (empty.performAll operations) after) ∧
    ∃ after, require window f s guard (empty.performAll operations) = .ok () after ∧
      Behind window.edge s (empty.performAll operations) after := by
  have htidy := (fit_performAll operations).toTidy
  constructor
  · obtain ⟨lit, after, hok, -, hbehind⟩ :=
      (Stays.encode rfl hs hf _ htidy).exists_ok (Shallow.encode window.inRange f s)
    exact ⟨lit, after, hok, hbehind⟩
  · obtain ⟨⟨⟩, after, hok, -, hbehind⟩ :=
      (Stays.require hs window f guard rfl hf _ htidy).exists_ok
        (Shallow.require window.inRange f s guard)
    exact ⟨after, hok, hbehind⟩

end Encoder
end Exact

namespace Encoder

/-- **A formula that does not look ahead never leads past its step.**  After any operations,
in a window of any stage that shows the step, a request for the formula and a requirement of
it, with any guard, succeed.  They postpone nothing, start no instance and leave no carrier,
every new entry of the two tables is for a step up to the given one, and no boundary is
opened but the one for the existence of a next step, if the step is the open edge.  What is
done has to end in range. -/
theorem encode_require_behind [Arithmetic] {operations : List Operation}
    (hoperations : ∀ operation ∈ operations, operation.InRange) {window : Window}
    (hwindow : window.InRange) {f : Formula} {s : Nat} (hf : f.referencesFuture = false)
    (hs : s ≤ window.horizon) (guard : List Lit) :
    ((stateAfter (encode window f s) (empty.performAll operations)).InRange →
      ∃ lit after, encode window f s (empty.performAll operations) = .ok lit after ∧
        Behind window.edge s (empty.performAll operations) after) ∧
    ((stateAfter (require window f s guard) (empty.performAll operations)).InRange →
      ∃ after, require window f s guard (empty.performAll operations) = .ok () after ∧
        Behind window.edge s (empty.performAll operations) after) := by
  obtain ⟨hasked, hrequired⟩ := exists_behind operations hf hs guard
  constructor
  · intro hrange
    obtain ⟨hsame, hrun⟩ := run_eq_exact hoperations (Agrees.encode hwindow f s) hrange
    rw [hrun, hsame]
    exact hasked
  · intro hrange
    obtain ⟨hsame, hrun⟩ :=
      run_eq_exact hoperations (Agrees.require.ask hwindow f s guard) hrange
    rw [hrun, hsame]
    exact hrequired

/-- The last step, in a window of the final stage whose edge is open.  The one boundary is
opened by whichever comes first, the request here, and it is found by the other. -/
theorem encode_require_behind_final :
    let p := Formula.atom "p" [] true
    let f := Formula.or (.not .final) (.since p (.previous p false))
    let window : Window := ⟨1, false, .final⟩
    let operations : List Operation := [.require ⟨0, false, .always⟩ (.always p) 0 [],
      .runDeferred ⟨1, false, .always⟩ 1, .encode window f 1]
    (∀ operation ∈ operations, operation.InRange) ∧ f.referencesFuture = false ∧
      1 ≤ window.horizon ∧
      (stateAfter (require window f 1 [⟨7, false⟩]) (empty.performAll operations)).InRange ∧
      (empty.performAll operations).edge.boundaries.map Boundary.target = [2] ∧
      ∃ after, require window f 1 [⟨7, false⟩] (empty.performAll operations) = .ok () after ∧
        Behind window.edge 1 (empty.performAll operations) after := by
  intro p f window operations
  have hoperations : ∀ operation ∈ operations, operation.InRange := by decide +kernel
  have hwindow : window.InRange := by decide
  have hrange : (stateAfter (require window f 1 [⟨7, false⟩])
      (empty.performAll operations)).InRange := by decide +kernel
  exact ⟨hoperations, rfl, Nat.le_refl 1, hrange, by decide +kernel,
    (encode_require_behind hoperations hwindow rfl (Nat.le_refl 1) [⟨7, false⟩]).2 hrange⟩

end Encoder
end TemporalHorizon

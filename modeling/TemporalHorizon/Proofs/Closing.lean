import TemporalHorizon.Proofs.ExactSessions
import TemporalHorizon.Proofs.Truth

/-!
# Assuming the edge to be last agrees with closing it

Closing the horizon requires the formulas of the final stage without a guard and
fixes all atoms that wait at the edge.  The same stable models are found without
closing, by assuming that weak references to the next step are true and strong ones
false.

The formulas of the final stage have been required before, under the guard that the
edge is the last step.  Requiring them again repeats that work literal by literal:
all literals are found, no atom is handed out, and each rule that is posted has a
rule beside it that differs only by the guard.  This is the invariant `Echo`.  Under
the assumptions the guard is true also in the reduct, so the new rules add nothing
(`StableModel.absorb`).
-/

namespace TemporalHorizon

section Exact

attribute [local instance] Arithmetic.exact

/-! ## Literals that are found -/

namespace Encoder

variable {given : List Rule} {encoder : Encoder} {f : Formula} {s : Nat} {l : Lit}

theorem groundAtom_cached (h : encoder.Tidy) (hl : (encoder.ledger given).ground f s = some l) :
    Does (groundAtom f s) encoder fun lit after =>
      lit = l ∧ Follows given encoder after (encoder.ledger given) := by
  refine (groundAtom_does given h f s).mono ?_
  rintro lit after (⟨hlit, ha⟩ | ⟨hnone, -, -⟩)
  · rw [hl] at hlit
    cases hlit
    exact ⟨rfl, ha⟩
  · rw [hl] at hnone
    cases hnone

/-- A literal that is in the ledger is found, and nothing changes. -/
theorem encode_cached (h : encoder.Tidy) (window : Window) (hs : s ≤ window.horizon)
    (hl : (encoder.ledger given).lit f s = some l) :
    Does (encode window f s) encoder fun lit after =>
      lit = l ∧ Follows given encoder after (encoder.ledger given) := by
  obtain ⟨hits, hok⟩ := encode_found hs hl
  unfold Does
  rw [hok]
  exact ⟨rfl, ⟨h.store, h.entry, h.binding, h.ground, h.required⟩, .refl _, rfl⟩

end Encoder

/-! ## Requirements that are repeated -/

namespace Ledger

/-- A rule stands beside one with the same head, whose body has at most the guard in
addition. -/
def Shadowed (base : Ledger) (g : Lit) (rule : Rule) : Prop :=
  ∃ other ∈ base.rules, other.kind = rule.kind ∧ other.head = rule.head ∧
    ∀ l ∈ other.body, l ∈ rule.body ∨ l = g

/-- Since a base nothing has happened but that rules were posted which stand beside
those of the base. -/
structure Echo (base : Ledger) (g : Lit) (ledger : Ledger) : Prop where
  entry : ledger.entry = base.entry
  ground : ledger.ground = base.ground
  next : ledger.next = base.next
  edge : ledger.edge = base.edge
  rules : ∀ rule ∈ ledger.rules, rule ∈ base.rules ∨ base.Shadowed g rule

theorem Echo.refl (base : Ledger) (g : Lit) : Echo base g base :=
  ⟨rfl, rfl, rfl, rfl, fun _ hr => .inl hr⟩

theorem Echo.lit {base ledger : Ledger} {g : Lit} (h : Echo base g ledger) :
    ledger.lit = base.lit := by
  unfold Ledger.lit
  rw [h.entry, h.ground]

/-- A rule may be posted if one with the guard in addition has been posted before. -/
theorem Echo.post {base ledger : Ledger} {g : Lit} (h : Echo base g ledger)
    (hg : g ≠ Lit.falsity) {rule other : Rule} (hposted : base.Posted other)
    (hkind : other.kind = rule.kind) (hhead : other.head = rule.head)
    (hbody : ∀ l ∈ other.body, l ∈ rule.body ∨ l = g) : Echo base g (ledger.post [rule]) := by
  refine { h with rules := fun simple hr => ?_ }
  rcases mem_rules_post hr with hr | ⟨raw, hraw, hsimple⟩
  · exact h.rules simple hr
  · cases List.mem_singleton.1 hraw
    have hfalse : Lit.falsity ∉ rule.body := by
      intro hmem
      rw [Encoder.simplify?, if_pos hmem] at hsimple
      cases hsimple
    have hother : Encoder.simplify? other =
        some { other with body := other.body.filter fun l => l ≠ Lit.truth } := by
      refine if_neg fun hmem => ?_
      rcases hbody _ hmem with hmem | heq
      · exact hfalse hmem
      · exact hg heq.symm
    obtain ⟨hk, hh, hb⟩ := Encoder.simplify?_eq_some hsimple
    refine .inr ⟨_, hposted _ hother, hkind.trans hk.symm, hhead.trans hh.symm, fun l hl => ?_⟩
    obtain ⟨hmem, htruth⟩ := List.mem_filter.1 hl
    refine (hbody l hmem).imp_left fun hin => ?_
    rw [hb]
    exact List.mem_filter.2 ⟨hin, htruth⟩

/-- A requirement repeats one of the base, which may have the guard in addition. -/
def Repeats (base : Ledger) (g : Lit) (f : Formula) (s : Nat) (guard : List Lit) : Prop :=
  ∃ full, base.Owes f s full ∧ ∀ l ∈ full, l ∈ guard ∨ l = g

end Ledger

namespace Encoder

open Ledger (Echo Repeats Met Posted)

/-- A way to deal with requirements that only repeats what has been done before, when
the edge is closed. -/
def Replays (given : List Rule) (k : Nat) (base : Ledger) (g : Lit) (rec : Requiring) : Prop :=
  ∀ f s guard now, f.referencesFuture = false → s ≤ k → (∀ l ∈ guard, 0 < l.atom) →
    base.Repeats g f s guard → now.Tidy → Echo base g (now.ledger given) →
    Does (rec ⟨k, true, .final⟩ f s guard) now fun _ after =>
      after.Tidy ∧ Echo base g (after.ledger given)

section Replaying

variable {given : List Rule} {k : Nat} {base : Ledger} {g : Lit} {now : Encoder} {f : Formula}
  {s : Nat} {guard full : List Lit}

/-- A literal of the base is found. -/
theorem ask_echo (h : now.Tidy) (hecho : Echo base g (now.ledger given)) (hs : s ≤ k) {x : Lit}
    (hx : base.lit f s = some x) :
    Does (encode ⟨k, true, .final⟩ f s) now fun lit after =>
      lit = x ∧ after.Tidy ∧ Echo base g (after.ledger given) := by
  rw [← hecho.lit] at hx
  refine (encode_cached h ⟨k, true, .final⟩ hs hx).mono ?_
  rintro lit after ⟨rfl, ha⟩
  exact ⟨rfl, ha.tidy, ha.ledger_eq ▸ hecho⟩

theorem emit_echo (h : now.Tidy) (hecho : Echo base g (now.ledger given)) (hg : g ≠ Lit.falsity)
    {rule other : Rule} (hposted : base.Posted other) (hkind : other.kind = rule.kind)
    (hhead : other.head = rule.head) (hbody : ∀ l ∈ other.body, l ∈ rule.body ∨ l = g) :
    Does (emit rule) now fun _ after => after.Tidy ∧ Echo base g (after.ledger given) := by
  refine (emit_does given h rule).mono fun _ after ha => ⟨ha.tidy, ?_⟩
  rw [ha.ledger_eq]
  exact hecho.post hg hposted hkind hhead hbody

/-- The disjuncts are sorted as they were before. -/
theorem sortDisjuncts_echo (h : now.Tidy) (hecho : Echo base g (now.ledger given)) (hs : s ≤ k)
    {fs rest : List Formula} {head : List Nat} {body : List Lit}
    (hsorted : base.lit.Sorted s fs head body) (hrest : rest = [] ∨ ∃ more, rest = .bool true :: more)
    (head' : List Nat) (body' : List Lit) :
    Does (sortDisjuncts ⟨k, true, .final⟩ s (fs ++ rest) head' body') now fun result after =>
      (result = if rest = [] then some (head' ++ head, body' ++ body) else none) ∧
        after.Tidy ∧ Echo base g (after.ledger given) := by
  induction hsorted generalizing now head' body' with
  | nil =>
    rcases hrest with rfl | ⟨more, rfl⟩
    · refine Does.pure ⟨?_, h, hecho⟩
      rw [if_pos rfl, List.append_nil, List.append_nil]
    · refine Does.pure ⟨?_, h, hecho⟩
      rw [if_neg (by simp)]
  | @atom f _ a head body hatom ha _ ih =>
    cases f with
    | atom name args positive =>
      have hground : (now.ledger given).ground (.atom name args positive) s = some a := by
        rw [hecho.ground]
        exact ha
      refine (groundAtom_cached h hground).bind ?_
      rintro _ middle ⟨rfl, hm⟩
      refine (ih hm.tidy (hm.ledger_eq ▸ hecho) _ _).mono ?_
      rintro result after ⟨hresult, ha⟩
      refine ⟨?_, ha⟩
      rw [hresult, List.append_assoc, List.singleton_append]
    | _ => cases hatom
  | falsity _ ih => exact ih h hecho head' body'
  | @other f _ x head body hatom hbool hx _ ih =>
    rw [List.cons_append, sortDisjuncts_other hatom hbool]
    refine (ask_echo h hecho hs hx).bind ?_
    rintro _ middle ⟨rfl, hm, hmecho⟩
    refine (ih hm hmecho _ _).mono ?_
    rintro result after ⟨hresult, ha⟩
    refine ⟨?_, ha⟩
    rw [hresult, List.append_assoc, List.singleton_append]

/-- The literals of a guard that is extended. -/
theorem forall_mem_concat {P : Lit → Prop} {guard : List Lit} {x : Lit}
    (h : ∀ l ∈ guard, P l) (hx : P x) : ∀ l ∈ guard ++ [x], P l := by
  intro l hl
  rcases List.mem_append.1 hl with hl | hl
  · exact h l hl
  · cases List.mem_singleton.1 hl
    exact hx

theorem within_concat (h : ∀ l ∈ full, l ∈ guard ∨ l = g) (x : Lit) :
    ∀ l ∈ full ++ [x], l ∈ guard ++ [x] ∨ l = g :=
  forall_mem_concat (fun l hl => (h l hl).imp_left (List.mem_append_left _))
    (.inl (List.mem_append_right _ (List.mem_singleton.2 rfl)))

/-- A formula whose negation was excluded. -/
theorem exclude_echo (h : now.Tidy) (hecho : Echo base g (now.ledger given)) (hg : g ≠ Lit.falsity)
    (hs : s ≤ k) (hfull : ∀ l ∈ full, l ∈ guard ∨ l = g) (hf : f.isExcluded = true)
    (hmet : Met ⟨k, false⟩ base f s full) :
    Does (do
      let lit ← encode ⟨k, true, .final⟩ f s
      emit (.constraint (guard ++ [-lit]))) now fun _ after =>
        after.Tidy ∧ Echo base g (after.ledger given) := by
  obtain ⟨x, hx, hp⟩ := hmet.excluded_of hf
  refine (ask_echo h hecho hs hx).bind ?_
  rintro _ middle ⟨rfl, hm, hmecho⟩
  exact emit_echo hm hmecho hg hp rfl rfl (within_concat hfull _)

/-- The rules of a requirement are posted once more. -/
theorem requireNew_echo (hg : g ≠ Lit.falsity)
    (hscope : ∀ f s x, base.lit f s = some x → 0 < x.atom)
    {rec : Requiring} (hrec : Replays given k base g rec) (hfuture : f.referencesFuture = false)
    (hs : s ≤ k) (hpos : ∀ l ∈ guard, 0 < l.atom) (hfull : ∀ l ∈ full, l ∈ guard ∨ l = g)
    (hmet : Met ⟨k, false⟩ base f s full) (h : now.Tidy) (hecho : Echo base g (now.ledger given)) :
    Does (requireNew rec ⟨k, true, .final⟩ f s guard) now fun _ after =>
      after.Tidy ∧ Echo base g (after.ledger given) := by
  cases f with
  | atom name args positive =>
    obtain ⟨a, ha, hp⟩ := hmet.atom_of rfl
    have hground : (now.ledger given).ground (.atom name args positive) s = some a := by
      rw [hecho.ground]
      exact ha
    refine (groundAtom_cached h hground).bind ?_
    rintro _ middle ⟨rfl, hm⟩
    exact emit_echo hm.tidy (hm.ledger_eq ▸ hecho) hg hp rfl rfl hfull
  | bool value =>
    cases value with
    | true => exact Does.pure ⟨h, hecho⟩
    | false => exact emit_echo h hecho hg hmet.falsity_of rfl rfl hfull
  | not arg =>
    obtain ⟨x, hx, hp⟩ := hmet.not_of
    refine (ask_echo h hecho hs hx).bind ?_
    rintro _ middle ⟨rfl, hm, hmecho⟩
    exact emit_echo hm hmecho hg hp rfl rfl (within_concat hfull _)
  | binary op lhs rhs =>
    simp only [Formula.referencesFuture, Bool.or_eq_false_iff] at hfuture
    cases op with
    | and =>
      obtain ⟨hl, hr⟩ := hmet.and_of
      refine (hrec lhs s guard now hfuture.1 hs hpos ⟨full, hl, hfull⟩ h hecho).bind ?_
      rintro _ middle ⟨hm, hmecho⟩
      exact hrec rhs s guard middle hfuture.2 hs hpos ⟨full, hr, hfull⟩ hm hmecho
    | or =>
      unfold requireNew requireDisjunction
      rcases hmet.or_of with ⟨hfs, hfront⟩ | ⟨head, body, hsorted, hp⟩
      · rw [hfs]
        refine (sortDisjuncts_echo h hecho hs hfront (.inr ⟨_, rfl⟩) [] guard).bind ?_
        rintro result middle ⟨hresult, hm⟩
        rw [if_neg (by simp)] at hresult
        subst hresult
        exact Does.pure hm
      · rw [← List.append_nil (Formula.disjuncts _)]
        refine (sortDisjuncts_echo h hecho hs hsorted (.inl rfl) [] guard).bind ?_
        rintro result middle ⟨hresult, hm, hmecho⟩
        rw [if_pos rfl] at hresult
        subst hresult
        refine emit_echo hm hmecho hg hp rfl rfl fun l hl => ?_
        rcases List.mem_append.1 hl with hl | hl
        · exact (hfull l hl).imp_left (List.mem_append_left _)
        · exact .inl (List.mem_append_right _ hl)
    | implies =>
      obtain ⟨x, hx, ho⟩ := hmet.implies_of
      refine (ask_echo h hecho hs hx).bind ?_
      rintro _ middle ⟨rfl, hm, hmecho⟩
      exact hrec rhs s _ middle hfuture.2 hs (forall_mem_concat hpos (hscope _ _ _ hx))
        ⟨_, ho, within_concat hfull _⟩ hm hmecho
    | implied =>
      obtain ⟨x, hx, ho⟩ := hmet.implied_of
      refine (ask_echo h hecho hs hx).bind ?_
      rintro _ middle ⟨rfl, hm, hmecho⟩
      exact hrec lhs s _ middle hfuture.1 hs (forall_mem_concat hpos (hscope _ _ _ hx))
        ⟨_, ho, within_concat hfull _⟩ hm hmecho
    | equiv => exact exclude_echo h hecho hg hs hfull rfl hmet
  | modal op arg =>
    cases op with
    | since | trigger => exact exclude_echo h hecho hg hs hfull rfl hmet
    | untl | release => cases hfuture
  | temporal op lhs rhs =>
    cases op with
    | since | trigger => exact exclude_echo h hecho hg hs hfull rfl hmet
    | untl | release => cases hfuture
  | initial | final => exact exclude_echo h hecho hg hs hfull rfl hmet
  | previous arg weak => exact exclude_echo h hecho hg hs hfull rfl hmet
  | initially arg => exact exclude_echo h hecho hg hs hfull rfl hmet
  | next arg weak | dynamic modality path arg => cases hfuture

theorem requireStep_echo (hg : g ≠ Lit.falsity)
    (hscope : ∀ f s x, base.lit f s = some x → 0 < x.atom)
    (hmet : ∀ f s guard, base.required f s guard → Met ⟨k, false⟩ base f s guard)
    {rec : Requiring} (hrec : Replays given k base g rec) :
    Replays given k base g (requireStep rec) := by
  intro f s guard now hfuture hs hpos hrepeats h hecho
  unfold requireStep
  rw [checkStep_of_le hs]
  refine Does.pure_bind ?_
  by_cases hfalse : Lit.falsity ∈ guard
  · rw [if_pos hfalse]
    exact Does.pure ⟨h, hecho⟩
  · rw [if_neg hfalse]
    obtain ⟨full, howes, hfull⟩ := hrepeats
    have hreq : base.required f s (guardSet full) := by
      refine howes.resolve_left fun hmem => ?_
      rcases hfull _ hmem with hmem | heq
      · exact hfalse hmem
      · exact hg heq.symm
    have hset : ∀ l ∈ guardSet full, l ∈ guardSet guard ∨ l = g := by
      intro l hl
      have htruth : l ≠ Lit.truth := by
        have := (List.mem_filter.1 (Ordered.mem_of_mem_ofList hl)).2
        simpa using this
      exact (hfull l (mem_of_mem_guardSet hl)).imp_left fun hin => mem_guardSet hpos hin htruth
    refine (keyOf_does given h f s).bind ?_
    rintro key numbered ⟨hn, hnumbered⟩
    have hecho' : Echo base g (numbered.ledger given) := hnumbered.ledger_eq ▸ hecho
    refine Does.get_bind ?_
    split
    · exact Does.pure ⟨hnumbered.tidy, hecho'⟩
    · refine (demand_does given hnumbered.tidy hn _).bind fun _ taken ht => ?_
      refine requireNew_echo hg hscope hrec hfuture hs
        (fun l hl => hpos l (mem_of_mem_guardSet hl)) hset (hmet _ _ _ hreq) ht.tidy ?_
      rw [ht.ledger_eq]
      exact { hecho' with }

/-- **Requirements that were taken on under a guard are repeated without it.** -/
theorem require_echo (hg : g ≠ Lit.falsity)
    (hscope : ∀ f s x, base.lit f s = some x → 0 < x.atom)
    (hmet : ∀ f s guard, base.required f s guard → Met ⟨k, false⟩ base f s guard) :
    Replays given k base g require := by
  have hwithin : ∀ depth, Replays given k base g (requireWithin depth) := by
    intro depth
    induction depth with
    | zero => exact fun f s guard now _ _ _ _ _ _ => ⟨f, s, rfl⟩
    | succ depth ih => exact requireStep_echo hg hscope hmet ih
  intro f s guard now hfuture hs hpos hrepeats h hecho
  refine (register_does given h f).bind ?_
  rintro id numbered ⟨-, hnumbered⟩
  exact hwithin _ f s guard numbered hfuture hs hpos hrepeats hnumbered.tidy
    (hnumbered.ledger_eq ▸ hecho)

/-- Closing the horizon repeats the formulas of the final stage and settles the
edge. -/
theorem closeStep_echo {theory : Theory} (hg : g ≠ Lit.falsity)
    (hvalid : Theory.validateAll theory.formulas = .ok ())
    (hscope : ∀ f s x, base.lit f s = some x → 0 < x.atom)
    (hmet : ∀ f s guard, base.required f s guard → Met ⟨k, false⟩ base f s guard)
    (howes : ∀ f ∈ theory.finals, base.Owes f k [g]) (h : now.Tidy)
    (hecho : Echo base g (now.ledger given)) :
    Does (Unrolling.closeStep theory k) now fun _ after =>
      ∃ middle : Ledger, Echo base g middle ∧ after.ledger given = middle.closed := by
  have hfuture : ∀ f ∈ theory.finals, f.referencesFuture = false := by
    intro f hf
    obtain ⟨entry, hentry, rfl⟩ := List.mem_map.1 hf
    obtain ⟨hmem, hstage⟩ := List.mem_filter.1 hentry
    obtain ⟨stage, f⟩ := entry
    obtain rfl : stage = .final := of_decide_eq_true hstage
    exact (admits_of_validateAll hvalid hmem k true).ahead.resolve_left nofun
  refine (Does.forM (I := fun rest middle => (∀ f ∈ rest, f ∈ theory.finals) ∧ middle.Tidy ∧
    Echo base g (middle.ledger given)) ?_ ⟨fun f hf => hf, h, hecho⟩).bind ?_
  · rintro f rest middle ⟨hrest, hm, hmecho⟩
    have hf := hrest f List.mem_cons_self
    refine (require_echo hg hscope hmet f k [] middle (hfuture f hf) (Nat.le_refl _) nofun
      ⟨[g], howes f hf, fun l hl => .inr (List.mem_singleton.1 hl)⟩ hm hmecho).mono ?_
    rintro _ after ha
    exact ⟨fun f' hf' => hrest f' (List.mem_cons_of_mem _ hf'), ha⟩
  · rintro _ middle ⟨-, hm, hmecho⟩
    refine (close_does given hm).mono ?_
    rintro _ after ⟨-, ha⟩
    exact ⟨_, hmecho, ha.ledger_eq⟩

end Replaying
end Encoder

/-! ## The guard of the final stage -/

/-- If strong references to the next step are false, a literal is true, also in the
reduct. -/
def Ledger.Holding (ledger : Ledger) (g : Lit) : Prop :=
  ∀ atoms part : Set Nat, 1 ∉ atoms → part ⊆ atoms →
    (∀ rule ∈ ledger.rules, rule.SatisfiedBy atoms) →
    (∀ rule ∈ ledger.rules, rule.ReductSatisfiedBy atoms part) →
    (∀ b ∈ ledger.edge.boundaries, b.weak = false → b.lit.atom ∉ atoms) → g.KeptIn atoms part

namespace Ledger.Sound

variable {role : Nat → Role} {k : Nat} {ledger : Ledger}

/-- At an open edge the reference to the next step is an atom that waits. -/
theorem hasNext_waiting (h : Sound role [] ⟨k, false⟩ ledger) {y : Lit}
    (hy : ledger.lit Formula.hasNext k = some y) :
    ∃ b ∈ ledger.edge.boundaries, b.weak = false ∧ b.lit = y := by
  -- The literal is not shared: the next step has not been reached, and it may still come.
  have hsource : ∀ z, ¬ Sheet.Source ledger.lit ⟨k, false⟩ Formula.hasNext k z := by
    intro z hz
    cases hz with
    | atom hf _ => cases hf
    | next hlt _ => exact Nat.lt_irrefl k hlt
    | nextEnd hlast => cases hlast
    | fixpointStart hf _ _ => cases hf
  have hentry : ledger.entry Formula.hasNext k = some y := hy
  cases h.entry _ _ _ hentry with
  | shared hz => exact absurd hz (hsource _)
  | @chosen _ _ a ha =>
    cases (h.chosen_of_role ha).2.2 with
    | source hz _ => exact absurd hz (hsource _)
    | definition hd _ =>
      cases hd with
      | fixpoint hf _ _ _ => cases hf
  | @awaited _ _ _ a ha =>
    cases (h.awaited_of_role ha).2 with
    | waiting hb => exact ⟨_, List.append_nil _ ▸ hb, rfl, rfl⟩
    | tied hlt _ _ => exact absurd hlt (Nat.not_succ_le_self k)
    | ended hlast _ _ => cases hlast

theorem source_final (h : Sound role [] ⟨k, false⟩ ledger) {y : Lit}
    (hy : Sheet.Source ledger.lit ⟨k, false⟩ .final k y) :
    ∃ b ∈ ledger.edge.boundaries, b.weak = false ∧ y = -b.lit := by
  cases hy with
  | atom hf _ => cases hf
  | last hlast => cases hlast
  | notLast hlt => exact absurd hlt (Nat.lt_irrefl k)
  | atEdge hl =>
    obtain ⟨b, hb, hweak, rfl⟩ := h.hasNext_waiting hl
    exact ⟨b, hb, hweak, rfl⟩
  | fixpointStart hf _ _ => cases hf

/-- The guard of the final stage is the negation of a strong reference to the next
step, or a host literal that is tied to one. -/
theorem final_cases (h : Sound role [] ⟨k, false⟩ ledger) {g : Lit}
    (hg : ledger.lit .final k = some g) :
    ∃ b ∈ ledger.edge.boundaries, b.weak = false ∧ (g = -b.lit ∨
      ∃ a, g = ⟨a, false⟩ ∧ 1 < a ∧ ledger.Posted (.choice a) ∧
        ∀ rule ∈ Rule.equal g (-b.lit), ledger.Posted rule) := by
  have hentry : ledger.entry .final k = some g := hg
  cases h.entry _ _ _ hentry with
  | shared hy =>
    obtain ⟨b, hb, hweak, heq⟩ := h.source_final hy
    exact ⟨b, hb, hweak, .inl heq⟩
  | @chosen _ _ a ha =>
    have huse := h.in_use (a := a) (by rw [ha]; exact Role.noConfusion)
    obtain ⟨-, hchoice, hdetermined⟩ := h.chosen_of_role ha
    cases hdetermined with
    | source hy hposted =>
      obtain ⟨b, hb, hweak, rfl⟩ := h.source_final hy
      exact ⟨b, hb, hweak, .inr ⟨a, rfl, huse.1, hchoice, hposted⟩⟩
    | definition hd _ =>
      cases hd with
      | fixpoint hf _ _ _ => cases hf

theorem final_ne_falsity (h : Sound role [] ⟨k, false⟩ ledger) {g : Lit}
    (hg : ledger.lit .final k = some g) : g ≠ Lit.falsity := by
  rintro rfl
  obtain ⟨b, hb, -, heq | ⟨a, heq, hgt, -⟩⟩ := h.final_cases hg
  · have hsign := congrArg Lit.negated heq
    rw [Lit.neg_negated, (h.boundaries b (List.mem_append_left _ hb)).positive] at hsign
    cases hsign
  · cases heq
    exact Nat.lt_irrefl 1 hgt

theorem final_holding (h : Sound role [] ⟨k, false⟩ ledger) {g : Lit}
    (hg : ledger.lit .final k = some g) : ledger.Holding g := by
  intro atoms part hone hpart hrules hreduct hstrong
  obtain ⟨b, hb, hweak, hcases⟩ := h.final_cases hg
  have hpos := (h.boundaries b (List.mem_append_left _ hb)).positive
  have hfalse : b.lit.atom ∉ atoms := hstrong b hb hweak
  rcases hcases with rfl | ⟨a, rfl, -, hchoice, hequal⟩
  · unfold Lit.KeptIn
    rw [Lit.neg_negated, hpos]
    exact hfalse
  · have hmem : a ∈ atoms := by
      refine ((Rule.equal_satisfied_iff _ _).1 fun rule hr =>
        (hequal rule hr).satisfiedBy hone hrules).2 ?_
      rw [Lit.trueIn_neg, Lit.trueIn_of_positive hpos]
      exact hfalse
    exact hchoice.reductSatisfiedBy hone hpart hreduct nofun a (List.mem_singleton.2 rfl) hmem

end Ledger.Sound

/-! ## Rules that add nothing -/

/-- Rules whose reducts follow from those of the others may be added, if they derive
the free atoms that are true. -/
theorem StableModel.absorb {rules more : List Rule} {free : List Nat} {atoms : Set Nat}
    (hmore : ∀ part ⊆ atoms, (∀ rule ∈ rules, rule.SatisfiedBy atoms) →
      (∀ rule ∈ rules, rule.ReductSatisfiedBy atoms part) →
      (∀ a ∈ free, a ∈ atoms → a ∈ part) → ∀ rule ∈ more, rule.ReductSatisfiedBy atoms part)
    (hfree : ∀ a ∈ free, a ∈ atoms → Rule.fact a ∈ rules ++ more) :
    StableModel ⟨rules, free⟩ atoms ↔ StableModel ⟨rules ++ more, []⟩ atoms := by
  constructor
  · rintro ⟨hsat, hmin⟩
    refine ⟨fun rule hr => ?_, fun part hpart hreduct _ => ?_⟩
    · rcases List.mem_append.1 hr with hr | hr
      · exact hsat rule hr
      · refine (rule.reductSatisfiedBy_self atoms).1 (hmore atoms (fun _ ha => ha) hsat ?_
          (fun _ _ ha => ha) rule hr)
        exact fun rule hr => (rule.reductSatisfiedBy_self atoms).2 (hsat rule hr)
    · refine hmin part hpart (fun rule hr => hreduct rule (List.mem_append_left _ hr)) ?_
      intro a ha hmem
      obtain ⟨b, hb, hin⟩ := hreduct _ (hfree a ha hmem) nofun
      cases List.mem_singleton.1 hb
      exact hin
  · rintro ⟨hsat, hmin⟩
    have hsat' : ∀ rule ∈ rules, rule.SatisfiedBy atoms := fun rule hr =>
      hsat rule (List.mem_append_left _ hr)
    refine ⟨hsat', fun part hpart hreduct hkept => hmin part hpart (fun rule hr => ?_) nofun⟩
    rcases List.mem_append.1 hr with hr | hr
    · exact hreduct rule hr
    · exact hmore part hpart hsat' hreduct hkept rule hr

namespace Ledger

variable {role : Nat → Role} {k : Nat} {base : Ledger} {g : Lit}

theorem Shadowed.reductSatisfiedBy {rule : Rule} (h : base.Shadowed g rule) {atoms part : Set Nat}
    (hg : g.KeptIn atoms part)
    (hreduct : ∀ rule ∈ base.rules, rule.ReductSatisfiedBy atoms part) :
    rule.ReductSatisfiedBy atoms part := by
  obtain ⟨other, hother, hkind, hhead, hbody⟩ := h
  intro htrue
  have hsat := hreduct other hother fun l hl => by
    rcases hbody l hl with hl | rfl
    · exact htrue l hl
    · exact hg
  rw [hkind, hhead] at hsat
  exact hsat

/-- What the assumptions say: weak references to the next step are true, and strong
ones false. -/
theorem Sound.closingAssumptions_iff {edge : Instant} (h : Sound role [] edge base)
    (atoms : Set Nat) :
    (∀ l ∈ base.edge.closingAssumptions, l.TrueIn atoms) ↔
      ∀ b ∈ base.edge.boundaries, (b.lit.atom ∈ atoms ↔ b.weak = true) := by
  have hlit : ∀ b ∈ base.edge.boundaries, ((if b.weak then b.lit else -b.lit).TrueIn atoms ↔
      (b.lit.atom ∈ atoms ↔ b.weak = true)) := by
    intro b hb
    have hpos := (h.boundaries b (List.mem_append_left _ hb)).positive
    cases b.weak with
    | true => simp [Lit.trueIn_of_positive hpos]
    | false => simp [Lit.trueIn_of_positive hpos]
  unfold Edge.closingAssumptions
  constructor
  · intro hall b hb
    exact (hlit b hb).1 (hall _ (List.mem_map.2 ⟨b, hb, rfl⟩))
  · intro hall l hl
    obtain ⟨b, hb, rfl⟩ := List.mem_map.1 hl
    exact (hlit b hb).2 (hall b hb)

/-- No rule derives an atom that waits at an open edge. -/
theorem Sound.boundary_notMem_head (h : Sound role [] ⟨k, false⟩ base)
    (htarget : ∀ b ∈ base.edge.boundaries, b.target = k + 1) {b : Boundary}
    (hb : b ∈ base.edge.boundaries) {rule : Rule} (hr : rule ∈ base.rules) :
    b.lit.atom ∉ rule.head := by
  intro hmem
  obtain ⟨s, hs, hrole⟩ := (h.boundaries b (List.mem_append_left _ hb)).role_eq
  have hstep := htarget b hb
  obtain ⟨raw, hsimple, hm⟩ := h.rules rule hr
  rw [(Encoder.simplify?_eq_some hsimple).2.1] at hmem
  cases h.derives hm hmem with
  | tie ha hle _ =>
    rw [hrole] at ha
    cases ha
    have hle : s + 1 ≤ k := hle
    omega
  | ending _ hlast => cases hlast
  | ground ha | chosen ha | carried ha _ _ | settled _ ha _ _ =>
    rw [hrole] at ha
    cases ha

/-- **Closing rules against assumptions.**  Rules that stand beside others up to a
guard that holds, and facts for the weak references to the next step, have the same
stable models as the assumptions. -/
theorem Sound.close_iff (h : Sound role [] ⟨k, false⟩ base)
    (htarget : ∀ b ∈ base.edge.boundaries, b.target = k + 1) (hg : base.Holding g)
    {more others : List Rule}
    (hmore : ∀ rule ∈ more, rule ∈ base.rules ∨ base.Shadowed g rule ∨
      ∃ b ∈ base.edge.boundaries, b.weak = true ∧ rule = .fact b.lit.atom)
    (hfacts : ∀ b ∈ base.edge.boundaries, b.weak = true →
      Rule.fact b.lit.atom ∈ base.rules ++ others ++ more)
    (hothers : ∀ rule ∈ others, ∀ a ∈ rule.head, base.IsGround a) (atoms : Set Nat) :
    (StableModel ⟨base.rules ++ others, base.edge.externals.map fun e => e.lit.atom⟩ atoms ∧
      ∀ l ∈ base.edge.closingAssumptions, l.TrueIn atoms) ↔
    StableModel ⟨base.rules ++ others ++ more, []⟩ atoms := by
  have hfree : ∀ a ∈ base.edge.externals.map (fun e => e.lit.atom),
      ∃ b ∈ base.edge.boundaries, b.lit.atom = a := by
    intro a ha
    obtain ⟨e, he, rfl⟩ := List.mem_map.1 ha
    obtain ⟨b, hb, rfl⟩ := List.mem_map.1 he
    exact ⟨b, hb, rfl⟩
  have hrole : ∀ b ∈ base.edge.boundaries, ∃ s, role b.lit.atom = .awaited b.arg b.weak s := by
    intro b hb
    obtain ⟨s, -, ha⟩ := (h.boundaries b (List.mem_append_left _ hb)).role_eq
    exact ⟨s, ha⟩
  -- Under the assumptions the new rules add nothing.
  have habsorb (hone : 1 ∉ atoms)
      (hassumed : ∀ b ∈ base.edge.boundaries, (b.lit.atom ∈ atoms ↔ b.weak = true)) :
      StableModel ⟨base.rules ++ others, base.edge.externals.map fun e => e.lit.atom⟩ atoms ↔
        StableModel ⟨base.rules ++ others ++ more, []⟩ atoms := by
    refine StableModel.absorb (fun part hpart hsat hreduct hkept rule hr => ?_) fun a ha hmem => ?_
    · have hreduct' : ∀ rule ∈ base.rules, rule.ReductSatisfiedBy atoms part := fun rule hr =>
        hreduct rule (List.mem_append_left _ hr)
      rcases hmore rule hr with hold | hshadow | ⟨b, hb, hweak, rfl⟩
      · exact hreduct' rule hold
      · refine hshadow.reductSatisfiedBy (hg atoms part hone hpart
          (fun rule hr => hsat rule (List.mem_append_left _ hr)) hreduct' fun b hb hstrong => ?_)
          hreduct'
        rw [hassumed b hb, hstrong]
        exact Bool.false_ne_true
      · refine fun _ => ⟨b.lit.atom, List.mem_singleton.2 rfl, hkept _ ?_ ((hassumed b hb).2 hweak)⟩
        exact List.mem_map.2 ⟨_, List.mem_map.2 ⟨b, hb, rfl⟩, rfl⟩
    · obtain ⟨b, hb, rfl⟩ := hfree a ha
      exact hfacts b hb ((hassumed b hb).1 hmem)
  rw [h.closingAssumptions_iff]
  constructor
  · rintro ⟨stable, hassumed⟩
    refine (habsorb (h.one_notMem hothers stable fun a ha => ?_) hassumed).1 stable
    obtain ⟨b, hb, rfl⟩ := hfree a ha
    obtain ⟨s, hs⟩ := hrole b hb
    rw [hs]
    exact Role.noConfusion
  · intro stable
    -- A true atom is derived by a rule from before, ground, or a weak reference.
    have htrue : ∀ a ∈ atoms, (∃ rule ∈ base.rules, a ∈ rule.head) ∨ base.IsGround a ∨
        ∃ b ∈ base.edge.boundaries, b.weak = true ∧ b.lit.atom = a := by
      intro a ha
      obtain ⟨rule, hr, hhead⟩ := (stable.subset_candidates a ha).resolve_left List.not_mem_nil
      rcases List.mem_append.1 hr with hr | hr
      · rcases List.mem_append.1 hr with hr | hr
        · exact .inl ⟨rule, hr, hhead⟩
        · exact .inr (.inl (hothers rule hr a hhead))
      · rcases hmore rule hr with hold | ⟨other, hother, -, hsame, -⟩ | ⟨b, hb, hweak, rfl⟩
        · exact .inl ⟨rule, hold, hhead⟩
        · exact .inl ⟨other, hother, hsame ▸ hhead⟩
        · exact .inr (.inr ⟨b, hb, hweak, (List.mem_singleton.1 hhead).symm⟩)
    have hone : 1 ∉ atoms := by
      intro hmem
      have hidle := h.idle 1 (.inl (Nat.le_refl _))
      rcases htrue 1 hmem with ⟨rule, hr, hhead⟩ | hground | ⟨b, hb, -, heq⟩
      · obtain ⟨raw, hsimple, hm⟩ := h.rules rule hr
        rw [(Encoder.simplify?_eq_some hsimple).2.1] at hhead
        exact (h.derives hm hhead).role_ne_idle hidle
      · obtain ⟨f, s, hrole⟩ := h.isGround_role hground
        rw [hidle] at hrole
        cases hrole
      · obtain ⟨s, hs⟩ := hrole b hb
        rw [heq, hidle] at hs
        cases hs
    have hassumed : ∀ b ∈ base.edge.boundaries, (b.lit.atom ∈ atoms ↔ b.weak = true) := by
      intro b hb
      obtain ⟨s, hs⟩ := hrole b hb
      constructor
      · intro hmem
        rcases htrue _ hmem with ⟨rule, hr, hhead⟩ | hground | ⟨b', hb', hweak, heq⟩
        · exact absurd hhead (h.boundary_notMem_head htarget hb hr)
        · obtain ⟨f, t, hground⟩ := h.isGround_role hground
          rw [hs] at hground
          cases hground
        · obtain ⟨s', hs'⟩ := hrole b' hb'
          rw [heq, hs] at hs'
          rw [(Role.awaited.inj hs').2.1]
          exact hweak
      · intro hweak
        exact (Rule.satisfiedBy_normal _ []).1 (stable.satisfied _ (hfacts b hb hweak)) nofun
    exact ⟨(habsorb hone hassumed).2 stable, hassumed⟩

end Ledger

namespace Session

theorem Proper.close_iff {theory : Theory} {session : Session} (h : Proper theory session)
    {k : Nat} (hedge : session.unrolling.edge = some ⟨k, false⟩) :
    ∃ batch unrolling, Unrolling.close k session.unrolling = .ok batch unrolling ∧
      unrolling.encoder.supply = session.unrolling.encoder.supply ∧
      ∀ (others : List Rule) (atoms : Set Nat),
        (∀ rule ∈ others, ∀ a ∈ rule.head, session.ledger.IsGround a) →
        ((StableModel ⟨session.rules ++ others, session.waiting⟩ atoms ∧
          ∀ l ∈ session.unrolling.encoder.edge.closingAssumptions, l.TrueIn atoms) ↔
        StableModel ⟨session.rules ++ others ++ batch.rules, []⟩ atoms) := by
  have hstanding := h.standing
  rw [hedge] at hstanding
  obtain ⟨role, hsound, -⟩ := hstanding.accounted
  have hscope : ∀ f s x, session.ledger.lit f s = some x → 0 < x.atom := fun _ _ _ hx =>
    (hsound.lit_inScope hx).pos
  -- Without formulas of the final stage there is no guard; the constant true serves as one.
  obtain ⟨g, hg, hholding, howes⟩ : ∃ g, g ≠ Lit.falsity ∧ session.ledger.Holding g ∧
      ∀ f ∈ theory.finals, session.ledger.Owes f k [g] := by
    cases hfinals : theory.finals with
    | nil => exact ⟨Lit.truth, nofun, fun _ _ hone _ _ _ _ => hone, nofun⟩
    | cons f rest =>
      have hguarded := hstanding.covers.guarded _ rfl k (Nat.le_refl _)
      obtain ⟨g, hlit, -⟩ := hguarded f (hfinals ▸ List.mem_cons_self)
      refine ⟨g, hsound.final_ne_falsity hlit, hsound.final_holding hlit, fun f' hf' => ?_⟩
      obtain ⟨g', hlit', howes⟩ := hguarded f' (hfinals.symm ▸ hf')
      rw [hlit] at hlit'
      cases hlit'
      exact howes
  obtain ⟨fixed, after, hok, middle, hecho, hledger⟩ := Encoder.Does.exists_ok
    (.closeStep theory k) (Encoder.closeStep_echo hg h.accepted hscope hstanding.met howes
      h.tidy (.refl session.ledger g))
  rw [← h.theory_eq] at hok
  obtain ⟨history, hclose⟩ := Unrolling.close_ok hedge hok (congrArg Ledger.edge hledger)
  have hnext : after.supply = session.unrolling.encoder.supply := by
    have hsame : after.supply.next = session.unrolling.encoder.supply.next :=
      (congrArg Ledger.next hledger).trans hecho.next
    cases hafter : after.supply
    cases hbefore : session.unrolling.encoder.supply
    rw [hafter, hbefore] at hsame
    cases hsame
    rfl
  have hrules : session.rules ++ after.rules =
      middle.rules ++ middle.closingRules.filterMap Encoder.simplify? :=
    congrArg Ledger.rules hledger
  have hmore : ∀ rule ∈ after.rules, rule ∈ session.ledger.rules ∨
      session.ledger.Shadowed g rule ∨
      ∃ b ∈ session.ledger.edge.boundaries, b.weak = true ∧ rule = .fact b.lit.atom := by
    intro rule hr
    have hmem : rule ∈ middle.rules ++ middle.closingRules.filterMap Encoder.simplify? :=
      hrules ▸ List.mem_append_right _ hr
    rcases List.mem_append.1 hmem with hmem | hmem
    · exact (hecho.rules rule hmem).imp_right .inl
    · obtain ⟨raw, hraw, hsimple⟩ := List.mem_filterMap.1 hmem
      obtain ⟨b, hb, hweak, rfl⟩ := Ledger.mem_closingRules.1 hraw
      rw [hecho.edge] at hb
      cases hsimple
      exact .inr (.inr ⟨b, hb, hweak, rfl⟩)
  have hfacts : ∀ b ∈ session.ledger.edge.boundaries, b.weak = true →
      Rule.fact b.lit.atom ∈ session.rules ++ after.rules := by
    intro b hb hweak
    have hraw : Rule.fact b.lit.atom ∈ middle.closingRules :=
      Ledger.mem_closingRules.2 ⟨b, hecho.edge.symm ▸ hb, hweak, rfl⟩
    exact hrules ▸ List.mem_append_right _ (List.mem_filterMap.2 ⟨_, hraw, rfl⟩)
  refine ⟨_, _, hclose, hnext, fun others atoms hothers => ?_⟩
  have hwaiting : session.waiting =
      session.ledger.edge.externals.map fun e => e.lit.atom := rfl
  rw [hwaiting, ← h.ledger_rules]
  refine hsound.close_iff (fun b hb => (hstanding.orderly.boundaries b hb).1) hholding hmore
    (fun b hb hweak => ?_) hothers atoms
  rw [h.ledger_rules]
  rcases List.mem_append.1 (hfacts b hb hweak) with hmem | hmem
  · exact List.mem_append_left _ (List.mem_append_left _ hmem)
  · exact List.mem_append_right _ hmem

end Session
end Exact

namespace Session

/-- **Assuming the edge to be last agrees with closing it.**  Closing the edge of a
session succeeds and hands out no atom, and the stable models of all rules after it
are those of the rules before it, with the waiting atoms free, in which the closing
assumptions are true.  The session must be in range after it. -/
theorem Reachable.close_iff_closingAssumptions [Arithmetic] {theory : Theory} {session : Session}
    (h : Reachable theory session) {k : Nat} (hrange : (session.perform (.close k)).InRange)
    (hedge : session.unrolling.edge = some ⟨k, false⟩) :
    ∃ batch unrolling, Unrolling.close k session.unrolling = .ok batch unrolling ∧
      unrolling.encoder.supply = session.unrolling.encoder.supply ∧
      ∀ (others : List Rule) (atoms : Set Nat),
        (∀ rule ∈ others, ∀ a ∈ rule.head, session.ledger.IsGround a) →
        ((StableModel ⟨session.rules ++ others, session.waiting⟩ atoms ∧
          ∀ l ∈ session.unrolling.encoder.edge.closingAssumptions, l.TrueIn atoms) ↔
        StableModel ⟨session.rules ++ others ++ batch.rules, []⟩ atoms) := by
  rw [close_eq_exact hrange]
  exact (h.exact (hrange.of_perform trivial)).proper.close_iff hedge

/-- An atom that is required at the last step, and a weak reference to the next step
that waits at the edge. -/
theorem close_iff_closingAssumptions_final :
    let p := Formula.atom "p" [] true
    let theory : Theory := ⟨[(.final, p)]⟩
    let session := after theory [.extend, .encode (.next p true) 0]
    Reachable theory session ∧ (session.perform (.close 0)).InRange ∧
      session.unrolling.edge = some ⟨0, false⟩ ∧
      session.rules = [.normal 3 [⟨2, true⟩]] ∧ session.waiting = [2, 4] ∧
      session.unrolling.encoder.edge.closingAssumptions = [⟨2, true⟩, ⟨4, false⟩] ∧
      StableModel ⟨session.rules ++ [], session.waiting⟩ {3, 4} ∧
      ∃ batch unrolling, Unrolling.close 0 session.unrolling = .ok batch unrolling ∧
        batch.rules = [.fact 3, .fact 4] ∧
        unrolling.encoder.supply = session.unrolling.encoder.supply ∧
        StableModel ⟨session.rules ++ [] ++ batch.rules, []⟩ {3, 4} := by
  intro p theory session
  have hreach : Reachable theory session := reachable_after rfl (by decide)
  have hrange : (session.perform (.close 0)).InRange := by decide +kernel
  have hedge : session.unrolling.edge = some ⟨0, false⟩ := by decide +kernel
  have hrules : session.rules = [.normal 3 [⟨2, true⟩]] := by decide +kernel
  have hwaiting : session.waiting = [2, 4] := by decide +kernel
  have hassumptions : session.unrolling.encoder.edge.closingAssumptions =
      [⟨2, true⟩, ⟨4, false⟩] := by decide +kernel
  obtain ⟨batch, unrolling, hclose, hsupply, hiff⟩ :=
    hreach.close_iff_closingAssumptions hrange hedge
  have hbatch : (Request.batch? session.unrolling (.close 0)).map Batch.rules =
      some [.fact 3, .fact 4] := by decide +kernel
  rw [Request.batch?, hclose] at hbatch
  have htwo : 2 ∉ ({3, 4} : Set Nat) := by
    rintro (h | h) <;> cases h
  have hstable : StableModel ⟨session.rules ++ [], session.waiting⟩ {3, 4} := by
    rw [hrules, hwaiting]
    refine ⟨?_, fun part hpart hreduct hfree => Set.Subset.antisymm hpart ?_⟩
    · intro rule hr
      cases List.mem_singleton.1 hr
      exact (Rule.satisfiedBy_normal 3 _).2 fun _ => .inl rfl
    · rintro a (rfl | rfl)
      · obtain ⟨b, hb, hmem⟩ := hreduct (.normal 3 [⟨2, true⟩]) (List.mem_singleton.2 rfl)
          fun l hl => by
            cases List.mem_singleton.1 hl
            exact htwo
        cases List.mem_singleton.1 hb
        exact hmem
      · exact hfree 4 (by decide) (.inr rfl)
  refine ⟨hreach, hrange, hedge, hrules, hwaiting, hassumptions, hstable, batch, unrolling, hclose,
    Option.some.inj hbatch, hsupply,
    (hiff [] {3, 4} (List.forall_mem_nil _)).1 ⟨hstable, fun l hl => ?_⟩⟩
  rw [hassumptions] at hl
  simp only [List.mem_cons, List.not_mem_nil, or_false] at hl
  rcases hl with rfl | rfl
  · exact htwo
  · exact .inr rfl

end Session
end TemporalHorizon

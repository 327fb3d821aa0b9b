import TemporalHorizon.Proofs.Requirements

/-!
# How a requirement is met

The main statement is `require_does`.  A requirement on an acceptable formula at a
reached step that is warranted succeeds, and it leads from ledger to ledger by head
moves; afterwards it is on the list, and every requirement that has come to the
list on the way is met.

While a requirement is being worked on it is on the list without being met, and so
are the requirements that it has been passed on from.  `Working` is the state of
such a requirement: all that is new on the list is met, except for itself.  The
lemmas of `Working` say how the few things that the work consists of keep this
state: asking for a literal, passing a requirement on, posting a rule.  They are
all that is known about them in the cases for the single formulas.
-/

namespace TemporalHorizon

attribute [local instance] Arithmetic.exact

/-- A formula that looks ahead is acceptable only in a stage that allows it. -/
theorem Window.Admits.licensed {window : Window} {f : Formula} (h : window.Admits f)
    (hf : f.referencesFuture = true) : window.stage.licensesFuture = true :=
  h.ahead.resolve_right (by simp [hf])

namespace Encoder

open Ledger (Moves HeadMove HeadMoves Child Warranted Duty Met)

variable {given : List Rule} {brief : Brief} {edge : Instant} {first : Nat}

/-! ## The list of requirements -/

/-- The ledger shows what is on the list. -/
theorem required_iff (given : List Rule) {encoder : Encoder} {key : Key} {f : Formula} {s : Nat} {guard : List Lit}
    (hn : encoder.Names key f s) :
    (encoder.ledger given).required f s guard ↔ (key, guard) ∈ encoder.required := by
  obtain ⟨rfl, hid⟩ := hn
  constructor
  · rintro ⟨id, hid', hmem⟩
    rw [hid] at hid'
    cases hid'
    exact hmem
  · intro hmem
    exact ⟨key.formula, hid, hmem⟩

theorem demand_does (given : List Rule) {encoder : Encoder} (h : encoder.Tidy) {key : Key} {f : Formula} {s : Nat}
    (hn : encoder.Names key f s) (guard : List Lit) :
    Does (modify fun encoder => { encoder with required := encoder.required ++ [(key, guard)] })
      encoder fun _ after =>
        Follows given encoder after ((encoder.ledger given).demand f s guard) := by
  obtain ⟨rfl, hid⟩ := hn
  refine Does.modify ⟨⟨h.store, h.entry, h.binding, h.ground, fun k g hk => ?_⟩, .refl _, ?_⟩
  · rcases List.mem_append.1 hk with hk | hk
    · exact h.required k g hk
    · obtain ⟨rfl, rfl⟩ := Prod.mk.inj (List.mem_singleton.1 hk)
      exact Store.idOf?_lt hid
  · unfold Ledger.demand ledger
    congr 1
    funext g t guard'
    refine propext ⟨?_, ?_⟩
    · rintro ⟨id, hgid, hmem⟩
      rcases List.mem_append.1 hmem with hmem | hmem
      · exact .inl ⟨id, hgid, hmem⟩
      · obtain ⟨rfl, rfl⟩ := Prod.mk.inj (List.mem_singleton.1 hmem)
        exact .inr ⟨Store.idOf?_injective g f hgid hid, rfl, rfl⟩
    · rintro (⟨id, hgid, hmem⟩ | ⟨rfl, rfl, rfl⟩)
      · exact ⟨id, hgid, List.mem_append_left _ hmem⟩
      · exact ⟨key.formula, hid, List.mem_append_right _ (List.mem_singleton.2 rfl)⟩

/-! ## Requirements under work -/

/-- A requirement was dealt with: it is on the list, and what is new on the list is
met. -/
structure Meets (given : List Rule) (brief : Brief) (edge : Instant) (first : Nat) (f : Formula)
    (s : Nat) (guard : List Lit) (before after : Encoder) : Prop where
  tidy : after.Tidy
  grown : before.store.Extends after.store
  moves : HeadMoves brief edge first (before.ledger given) (after.ledger given)
  owes : (after.ledger given).Owes f s guard
  met : ∀ g t guard', (after.ledger given).required g t guard' →
    (before.ledger given).required g t guard' ∨ Met edge (after.ledger given) g t guard'

/-- A way to deal with requirements that does so for all acceptable formulas at the
steps from `first` on. -/
def MeetsAll (given : List Rule) (brief : Brief) (edge : Instant) (first : Nat)
    (rec : Requiring) : Prop :=
  ∀ window f s guard encoder, window.edge = edge → window.Admits f → first ≤ s →
    s ≤ edge.index → Warranted brief edge (encoder.ledger given) f s guard → encoder.Tidy →
    Does (rec window f s guard) encoder fun _ after =>
      Meets given brief edge first f s guard encoder after

/-- A requirement is on the list and is being worked on. -/
structure Working (given : List Rule) (brief : Brief) (edge : Instant) (first : Nat)
    (f : Formula) (s : Nat) (guard : List Lit) (start now : Encoder) : Prop where
  wellFormed : f.malformedPath? = none
  reached : s ≤ edge.index
  tidy : now.Tidy
  grown : start.store.Extends now.store
  moves : HeadMoves brief edge first (start.ledger given) (now.ledger given)
  taken : (now.ledger given).required f s guard
  warranted : ∃ whole, guardSet whole = guard ∧ Warranted brief edge (now.ledger given) f s whole
  met : ∀ g t guard', (now.ledger given).required g t guard' →
    (start.ledger given).required g t guard' ∨ Met edge (now.ledger given) g t guard' ∨
      g = f ∧ t = s ∧ guard' = guard

variable {f : Formula} {s : Nat} {guard : List Lit} {start now : Encoder}

namespace Working

/-- The work goes on over moves that leave nothing new unmet. -/
theorem onward (h : Working given brief edge first f s guard start now) {after : Encoder}
    (htidy : after.Tidy) (hgrown : now.store.Extends after.store)
    (hmoves : HeadMoves brief edge first (now.ledger given) (after.ledger given))
    (hmet : ∀ g t guard', (after.ledger given).required g t guard' →
      (now.ledger given).required g t guard' ∨ Met edge (after.ledger given) g t guard') :
    Working given brief edge first f s guard start after := by
  have hgrows := hmoves.grows
  refine ⟨h.wellFormed, h.reached, htidy, h.grown.trans hgrown, h.moves.trans hmoves,
    hgrows.required _ _ _ h.taken, ?_, fun g t guard' hr => ?_⟩
  · obtain ⟨whole, hset, hw⟩ := h.warranted
    exact ⟨whole, hset, hw.mono hgrows.toKeeps (.refl _) rfl fun _ hd => hd⟩
  · rcases hmet g t guard' hr with hr | hm
    · rcases h.met g t guard' hr with hold | hm | hself
      · exact .inl hold
      · exact .inr (.inl (hm.grows hgrows))
      · exact .inr (.inr hself)
    · exact .inr (.inl hm)

/-- One move that takes no requirement on. -/
theorem move (h : Working given brief edge first f s guard start now) {after : Encoder}
    {ledger : Ledger} (hm : HeadMove brief edge first (now.ledger given) ledger)
    (ha : Follows given now after ledger)
    (hsame : ledger.required = (now.ledger given).required) :
    Working given brief edge first f s guard start after ∧
      (now.ledger given).Grows (after.ledger given) := by
  rw [← ha.ledger_eq] at hm hsame
  refine ⟨h.onward ha.tidy ha.grown (.single hm) fun g t guard' hr => .inl ?_, hm.grows⟩
  rwa [hsame] at hr

/-- Requests for literals take no requirement on. -/
theorem answered (h : Working given brief edge first f s guard start now) {after : Encoder}
    {g : Formula} {t : Nat} {lit : Lit} (ha : Answers given edge g t now lit after) :
    Working given brief edge first f s guard start after ∧
      (after.ledger given).lit g t = some lit ∧
      (now.ledger given).Grows (after.ledger given) := by
  refine ⟨h.onward ha.tidy ha.grown ha.moves.headMoves fun g t guard' hr => .inl ?_, ha.lit_eq,
    ha.moves.grows⟩
  rwa [ha.moves.frame.2.2.2] at hr

/-- A literal is asked for. -/
theorem ask (h : Working given brief edge first f s guard start now) {window : Window}
    (hw : window.edge = edge) {g : Formula} {t : Nat} (hadmits : window.Admits g)
    (ht : t ≤ edge.index) :
    Does (encode window g t) now fun lit after =>
      Working given brief edge first f s guard start after ∧
        (after.ledger given).lit g t = some lit ∧
        (now.ledger given).Grows (after.ledger given) :=
  (encode_does given edge window g t now hw hadmits ht h.tidy).mono fun _ _ ha => h.answered ha

theorem askGround (h : Working given brief edge first f s guard start now) {g : Formula} {t : Nat}
    (hatom : g.isAtom = true) (ht : t ≤ edge.index) :
    Does (groundAtom g t) now fun lit after =>
      Working given brief edge first f s guard start after ∧
        (after.ledger given).lit g t = some lit ∧
        (now.ledger given).Grows (after.ledger given) :=
  (groundAtom_answers h.tidy hatom ht).mono fun _ _ ha => h.answered ha

theorem askHasNext (h : Working given brief edge first f s guard start now) {window : Window}
    (hw : window.edge = edge) {t : Nat} (ht : t ≤ edge.index) :
    Does (encodeHasNext window t) now fun lit after =>
      Working given brief edge first f s guard start after ∧
        (after.ledger given).lit Formula.hasNext t = some lit ∧
        (now.ledger given).Grows (after.ledger given) := by
  have hw' : (window.withStage .always).edge = edge := hw
  exact h.ask hw' ⟨rfl, .inl rfl⟩ ht

/-- A requirement is passed on. -/
theorem pass (h : Working given brief edge first f s guard start now) {rec : Requiring}
    (hrec : MeetsAll given brief edge first rec) {window : Window} (hw : window.edge = edge)
    {g : Formula} {t : Nat} {guard' : List Lit} (hadmits : window.Admits g) (hfirst : first ≤ t)
    (ht : t ≤ edge.index) (hc : Child edge (now.ledger given) f s guard g t guard') :
    Does (rec window g t guard') now fun _ after =>
      Working given brief edge first f s guard start after ∧
        (after.ledger given).Owes g t guard' ∧
        (now.ledger given).Grows (after.ledger given) := by
  obtain ⟨whole, rfl, hwarrant⟩ := h.warranted
  refine (hrec window g t guard' now hw hadmits hfirst ht (hwarrant.child hc) h.tidy).mono
    fun _ after ha => ?_
  exact ⟨h.onward ha.tidy ha.grown ha.moves ha.met, ha.owes, ha.moves.grows⟩

/-- A rule of the requirement is posted. -/
theorem emit (h : Working given brief edge first f s guard start now) (hfirst : first ≤ s)
    {rule : Rule} (hd : Duty edge (now.ledger given) f s guard rule) :
    Does (emit rule) now fun _ after =>
      Working given brief edge first f s guard start after ∧
        (after.ledger given).Posted rule ∧
        (now.ledger given).Grows (after.ledger given) := by
  refine (emit_does given h.tidy rule).mono fun _ after ha => ?_
  obtain ⟨hwork, hgrows⟩ := h.move (.duty hfirst h.taken hd) ha rfl
  refine ⟨hwork, ?_, hgrows⟩
  rw [ha.ledger_eq]
  exact Ledger.posted_post _ (List.mem_singleton.2 rfl)

/-- The work is done when the requirement is met. -/
theorem finish {whole : List Lit}
    (h : Working given brief edge first f s (guardSet whole) start now)
    (hm : Met edge (now.ledger given) f s (guardSet whole)) :
    Meets given brief edge first f s whole start now := by
  refine ⟨h.tidy, h.grown, h.moves, .inr h.taken, fun g t guard' hr => ?_⟩
  rcases h.met g t guard' hr with hold | hm' | ⟨rfl, rfl, rfl⟩
  · exact .inl hold
  · exact .inr hm'
  · exact .inr hm

end Working

/-! ## Disjunctions -/

/-- The disjuncts of an acceptable formula are acceptable. -/
theorem admits_of_mem_disjuncts {window : Window} {g : Formula} (h : window.Admits f)
    (hg : g ∈ f.disjuncts) : window.Admits g := by
  induction f using Formula.disjuncts.induct with
  | case1 lhs rhs ihl ihr =>
    have hql : (lhs, 0) ∈ (Formula.binary .or lhs rhs).requests 0 0 := by simp [Formula.requests]
    have hqr : (rhs, 0) ∈ (Formula.binary .or lhs rhs).requests 0 0 := by simp [Formula.requests]
    rw [Formula.disjuncts] at hg
    rcases List.mem_append.1 hg with hg | hg
    · exact ihl (h.request nofun hql) hg
    · exact ihr (h.request nofun hqr) hg
  | case2 f hf =>
    rw [Formula.disjuncts.eq_2 f hf, List.mem_singleton] at hg
    exact hg ▸ h

/-- A disjunct that is neither an atom nor a constant is encoded. -/
theorem sortDisjuncts_other {window : Window} {rest : List Formula} {head : List Nat}
    {body : List Lit} (hatom : f.isAtom = false) (hbool : ∀ value, f ≠ .bool value) :
    sortDisjuncts window s (f :: rest) head body = (do
      let lit ← encode window f s
      sortDisjuncts window s rest head (body ++ [-lit])) := by
  cases f with
  | atom name args positive => cases hatom
  | bool value => exact absurd rfl (hbool value)
  | _ => rfl

theorem sortDisjuncts_does (h : Working given brief edge first f s guard start now)
    {window : Window} (hw : window.edge = edge) {fs : List Formula}
    (hadmits : ∀ g ∈ fs, window.Admits g) (head : List Nat) (body : List Lit) :
    Does (sortDisjuncts window s fs head body) now fun result after =>
      Working given brief edge first f s guard start after ∧
        (now.ledger given).Grows (after.ledger given) ∧
        (result = none ∧ (after.ledger given).lit.CutShort s fs ∨ ∃ head' body',
          result = some (head ++ head', body ++ body') ∧
          (after.ledger given).lit.Sorted s fs head' body') := by
  induction fs generalizing now head body with
  | nil =>
    refine Does.pure ⟨h, .refl _, .inr ⟨[], [], ?_, .nil⟩⟩
    rw [List.append_nil, List.append_nil]
  | cons g rest ih =>
    have hrest : ∀ g' ∈ rest, window.Admits g' := fun g' hg' =>
      hadmits g' (List.mem_cons_of_mem _ hg')
    cases hatom : g.isAtom with
    | true =>
      cases g with
      | atom name args positive =>
        refine (h.askGround hatom h.reached).bind ?_
        rintro lit middle ⟨hm, hlit, hgrows⟩
        refine (ih hm hrest _ body).mono ?_
        rintro result after ⟨ha, hgrows', hresult⟩
        refine ⟨ha, hgrows.trans hgrows', ?_⟩
        have hlit := hgrows'.lit _ _ _ hlit
        rcases hresult with ⟨hnone, ⟨rfl, hfront⟩⟩ | ⟨head', body', hsome, hsorted⟩
        · exact .inl ⟨hnone, ⟨rfl, .atom hatom hlit hfront⟩⟩
        · refine .inr ⟨lit.atom :: head', body', ?_, .atom hatom hlit hsorted⟩
          rw [hsome, List.append_assoc, List.singleton_append]
      | _ => cases hatom
    | false =>
      by_cases hbool : ∃ value, g = .bool value
      · obtain ⟨value, rfl⟩ := hbool
        cases value with
        | true => exact Does.pure ⟨h, .refl _, .inl ⟨rfl, ⟨List.nil_append _, .nil⟩⟩⟩
        | false =>
          refine (ih h hrest head body).mono ?_
          rintro result after ⟨ha, hgrows, hresult⟩
          refine ⟨ha, hgrows, ?_⟩
          rcases hresult with ⟨hnone, ⟨rfl, hfront⟩⟩ | ⟨head', body', hsome, hsorted⟩
          · exact .inl ⟨hnone, ⟨rfl, .falsity hfront⟩⟩
          · exact .inr ⟨head', body', hsome, .falsity hsorted⟩
      · have hbool : ∀ value, g ≠ .bool value := fun value hv => hbool ⟨value, hv⟩
        rw [sortDisjuncts_other hatom hbool]
        refine (h.ask hw (hadmits g List.mem_cons_self) h.reached).bind ?_
        rintro lit middle ⟨hm, hlit, hgrows⟩
        refine (ih hm hrest head _).mono ?_
        rintro result after ⟨ha, hgrows', hresult⟩
        refine ⟨ha, hgrows.trans hgrows', ?_⟩
        have hlit := hgrows'.lit _ _ _ hlit
        rcases hresult with ⟨hnone, ⟨rfl, hfront⟩⟩ | ⟨head', body', hsome, hsorted⟩
        · exact .inl ⟨hnone, ⟨rfl, .other hatom hbool hlit hfront⟩⟩
        · refine .inr ⟨head', -lit :: body', ?_, .other hatom hbool hlit hsorted⟩
          rw [hsome, List.append_assoc, List.singleton_append]

theorem requireDisjunction_does {lhs rhs : Formula} {whole : List Lit}
    (h : Working given brief edge first (.binary .or lhs rhs) s (guardSet whole) start now)
    (hfirst : first ≤ s) {window : Window} (hw : window.edge = edge)
    (hadmits : window.Admits (.binary .or lhs rhs)) :
    Does (requireDisjunction window (.binary .or lhs rhs) s (guardSet whole)) now fun _ after =>
      Meets given brief edge first (.binary .or lhs rhs) s whole start after := by
  refine (sortDisjuncts_does h hw (fun g hg => admits_of_mem_disjuncts hadmits hg) [] _).bind ?_
  rintro result middle ⟨hm, -, ⟨rfl, htrue⟩ | ⟨head, body, rfl, hsorted⟩⟩
  · exact Does.pure (hm.finish (.orTrue htrue))
  · refine (hm.emit hfirst (.or hsorted)).mono ?_
    rintro _ after ⟨ha, hposted, hgrows⟩
    exact ha.finish (.or (hsorted.mono hgrows.lit) hposted)

/-! ## Instances of until and release -/

/-- The operands of an unrolled formula are acceptable with it. -/
theorem admits_of_unrolls {window : Window} (h : window.Admits f) {op : Fixpoint}
    {lhs : Option Formula} {rhs : Formula} (hf : f.Unrolls op lhs rhs) :
    window.Admits rhs ∧ ∀ l, lhs = some l → window.Admits l ∧ window.Admits (.or l rhs) := by
  have hstage : window.stage.licensesFuture = true := by
    refine h.licensed ?_
    cases hf <;> rfl
  cases hf with
  | eventually arg => exact ⟨⟨h.wellFormed, .inl hstage⟩, nofun⟩
  | untl lhs rhs | release lhs rhs =>
    obtain ⟨hl, hr⟩ := orElse_eq_none_iff.1 h.wellFormed
    refine ⟨⟨hr, .inl hstage⟩, fun l hlhs => ?_⟩
    cases hlhs
    exact ⟨⟨hl, .inl hstage⟩, ⟨h.wellFormed, .inl hstage⟩⟩

/-- What an instance does at a step before it leaves its carrier there. -/
theorem instanceWitness_does (h : Working given brief edge first f s guard start now)
    {rec : Requiring} (hrec : MeetsAll given brief edge first rec) {window : Window}
    (hw : window.edge = edge) (hadmits : window.Admits f) {inst : Instance}
    (hf : f.Unrolls inst.op inst.lhs inst.rhs) {t : Nat} (hs : s ≤ t) (hfirst : first ≤ t)
    (ht : t ≤ edge.index) {earlier : Option Lit}
    (he : (now.ledger given).Earlier f s t earlier) :
    Does (instanceWitness rec window inst (stepGuard guard earlier) t) now fun w after =>
      Working given brief edge first f s guard start after ∧
        (now.ledger given).Grows (after.ledger given) ∧
        (after.ledger given).lit (Ledger.witnessOf inst.op inst.lhs inst.rhs) t = some w ∧
        (after.ledger given).Prepared t (stepGuard guard earlier) inst.op inst.lhs inst.rhs := by
  obtain ⟨hrhs, hlhs⟩ := admits_of_unrolls hadmits hf
  obtain ⟨formula, op, lhs, rhs, guard', origin, last, carrier⟩ := inst
  dsimp only at hf hrhs hlhs ⊢
  cases hf with
  | eventually =>
    refine Does.pure_bind ((h.askHasNext hw ht).bind ?_)
    rintro n now₁ ⟨h₁, hn, hgrows₁⟩
    have hsettle : Child edge (now₁.ledger given) (.modal .untl rhs) s guard rhs t
        (stepGuard guard earlier ++ [-n]) :=
      .settle (.eventually rhs) hs ht (he.mono hgrows₁.toKeeps) hn
    refine (h₁.pass hrec hw hrhs hfirst ht hsettle).bind ?_
    rintro _ now₂ ⟨h₂, howes, hgrows₂⟩
    refine (h₂.ask hw hrhs ht).mono ?_
    rintro w after ⟨ha, hwit, hgrows₃⟩
    refine ⟨ha, (hgrows₁.trans hgrows₂).trans hgrows₃, hwit, ?_⟩
    exact .eventually ((hgrows₂.trans hgrows₃).lit _ _ _ hn) (howes.mono hgrows₃.toKeeps)
  | untl lhs rhs =>
    obtain ⟨-, hor⟩ := hlhs lhs rfl
    refine (h.pass hrec hw hor hfirst ht (.operands (.untl lhs rhs) hs ht he)).bind ?_
    rintro _ now₁ ⟨h₁, hops, hgrows₁⟩
    refine (h₁.askHasNext hw ht).bind ?_
    rintro n now₂ ⟨h₂, hn, hgrows₂⟩
    have hsettle : Child edge (now₂.ledger given) (.temporal .untl lhs rhs) s guard rhs t
        (stepGuard guard earlier ++ [-n]) :=
      .settle (.untl lhs rhs) hs ht (he.mono (hgrows₁.trans hgrows₂).toKeeps) hn
    refine (h₂.pass hrec hw hrhs hfirst ht hsettle).bind ?_
    rintro _ now₃ ⟨h₃, howes, hgrows₃⟩
    refine (h₃.ask hw hrhs ht).mono ?_
    rintro w after ⟨ha, hwit, hgrows₄⟩
    have hlater := hgrows₃.trans hgrows₄
    refine ⟨ha, (hgrows₁.trans hgrows₂).trans hlater, hwit, ?_⟩
    exact .untl (hops.mono (hgrows₂.trans hlater).toKeeps) (hlater.lit _ _ _ hn)
      (howes.mono hgrows₄.toKeeps)
  | release lhs rhs =>
    obtain ⟨hleft, -⟩ := hlhs lhs rfl
    refine (h.pass hrec hw hrhs hfirst ht (.hold (.release lhs rhs) hs ht he)).bind ?_
    rintro _ now₁ ⟨h₁, howes, hgrows₁⟩
    refine (h₁.ask hw hleft ht).mono ?_
    rintro w after ⟨ha, hwit, hgrows₂⟩
    exact ⟨ha, hgrows₁.trans hgrows₂, hwit, .release (howes.mono hgrows₂.toKeeps)⟩

/-- An instance unrolls a requirement. -/
structure Serves (inst : Instance) (f : Formula) (s : Nat) (guard : List Lit) : Prop where
  formula_eq : inst.formula = f
  origin_eq : inst.origin = s
  guard_eq : inst.guard = guard
  unrolls : f.Unrolls inst.op inst.lhs inst.rhs

theorem carryOn_does (given : List Rule) {encoder : Encoder} (h : encoder.Tidy) (earlier : Option Lit)
    (carrier : Lit) :
    Does (carryOn earlier carrier) encoder fun _ after =>
      Follows given encoder after ((encoder.ledger given).post
        (earlier.toList.map fun earlier => .normal carrier.atom [earlier])) := by
  cases earlier with
  | none => exact Does.pure (by rw [Option.toList_none, List.map_nil, Ledger.post_nil]; exact .refl h)
  | some earlier => exact emit_does given h _

/-- An instance leaves a carrier at a step, with its rules. -/
theorem carry_does (given : List Rule) {encoder : Encoder} (h : encoder.Tidy) (inst : Instance)
    (t : Nat) (w : Lit) :
    Does (do
      let carrier ← fresh
      carryOn inst.carrier carrier
      Encoder.emit (.normal carrier.atom [w])
      modify fun encoder => { encoder with
        carriers := encoder.carriers ++ [⟨inst.formula, inst.origin, t, carrier⟩] }
      return { inst with carrier := some carrier, last := t }) encoder fun result after =>
        result = { inst with carrier := some ⟨(encoder.ledger given).next, false⟩, last := t } ∧
          Follows given encoder after
            ((encoder.ledger given).carry inst.formula inst.origin t inst.carrier w) := by
  refine (fresh_does given h).bind ?_
  rintro _ now₁ ⟨rfl, h₁⟩
  refine (carryOn_does given h₁.tidy _ _).bind fun _ now₂ h₂ => ?_
  refine (emit_does given h₂.tidy _).bind fun _ now₃ h₃ => ?_
  have hledger : now₃.ledger given =
      ({ encoder.ledger given with next := (encoder.ledger given).next + 1 } : Ledger).post
        (Ledger.carrierRules ⟨(encoder.ledger given).next, false⟩ inst.carrier w) := by
    rw [h₃.ledger_eq, h₂.ledger_eq, h₁.ledger_eq, Ledger.post_append]
    rfl
  refine Does.modify_bind (Does.pure ⟨rfl, ?_⟩)
  refine ⟨⟨h₃.tidy.store, h₃.tidy.entry, h₃.tidy.binding, h₃.tidy.ground, h₃.tidy.required⟩,
    (h₁.grown.trans h₂.grown).trans h₃.grown, ?_⟩
  have hcarriers : now₃.carriers = encoder.carriers := congrArg Ledger.carriers hledger
  show ({ now₃.ledger given with carriers := now₃.carriers ++ _ } : Ledger) = _
  rw [hledger, hcarriers]
  rfl

/-- An instance is unrolled at one step. -/
theorem advance_does (h : Working given brief edge first f s guard start now)
    {rec : Requiring} (hrec : MeetsAll given brief edge first rec) {window : Window}
    (hw : window.edge = edge) (hadmits : window.Admits f) {inst : Instance}
    (hserves : Serves inst f s guard) {t : Nat} (hs : s ≤ t) (hfirst : first ≤ t)
    (ht : t ≤ edge.index) (he : (now.ledger given).Earlier f s t inst.carrier) :
    Does (advance rec window inst t) now fun result after =>
      Working given brief edge first f s guard start after ∧
        (now.ledger given).Grows (after.ledger given) ∧ ∃ carrier,
          result = { inst with carrier := some carrier, last := t } ∧
          (after.ledger given).Stepped f s guard t inst.carrier carrier := by
  obtain ⟨rfl, rfl, rfl, hf⟩ := hserves
  refine (instanceWitness_does h hrec hw hadmits hf hs hfirst ht he).bind ?_
  rintro w now₁ ⟨h₁, hgrows₁, hwit, hprepared⟩
  refine (carry_does given h₁.tidy inst t w).mono ?_
  rintro _ after ⟨rfl, hfiled⟩
  have hearlier := he.mono hgrows₁.toKeeps
  obtain ⟨ha, hgrows₂⟩ := h₁.move (.carry h₁.taken hf hs ht hearlier hwit) hfiled rfl
  refine ⟨ha, hgrows₁.trans hgrows₂, _, rfl, ?_⟩
  refine ⟨hf, hprepared.mono hgrows₂.toKeeps, hgrows₂.lit _ _ _ hwit, fun rule hr => ?_, ?_⟩
  · rw [hfiled.ledger_eq]
    exact Ledger.posted_post _ hr
  · rw [hfiled.ledger_eq]
    exact List.mem_append_right _ (List.mem_singleton.2 rfl)

/-- An instance is unrolled at all steps from a given one up to the edge. -/
theorem advanceThrough_does {rec : Requiring} (hrec : MeetsAll given brief edge first rec)
    {window : Window} (hw : window.edge = edge) (hadmits : window.Admits f) (count : Nat)
    {t : Nat} {inst : Instance} {now : Encoder}
    (h : Working given brief edge first f s guard start now) (hserves : Serves inst f s guard)
    (hfirst : first ≤ t) (ht : t + count = edge.index + 1)
    (hlast : count = 0 → inst.last = edge.index)
    (hu : (now.ledger given).Unrolled f s guard t inst.carrier) :
    Does (advanceThrough rec window count t inst) now fun result after =>
      Working given brief edge first f s guard start after ∧ Serves result f s guard ∧
        result.last = edge.index ∧
        (after.ledger given).Unrolled f s guard (edge.index + 1) result.carrier := by
  induction count generalizing t inst now with
  | zero =>
    obtain rfl : t = edge.index + 1 := by omega
    exact Does.pure ⟨h, hserves, hlast rfl, hu⟩
  | succ count ih =>
    refine (advance_does h hrec hw hadmits hserves hu.origin_le hfirst (by omega)
      hu.earlier).bind ?_
    rintro _ middle ⟨hm, hgrows, carrier, rfl, hstepped⟩
    exact ih hm ⟨hserves.formula_eq, hserves.origin_eq, hserves.guard_eq, hserves.unrolls⟩
      (by omega) (by omega) (fun hzero => by subst hzero; dsimp only; omega)
      ((hu.mono hgrows.toKeeps).step hstepped)

theorem startInstance_does {whole : List Lit}
    (h : Working given brief edge first f s (guardSet whole) start now) (hfirst : first ≤ s)
    {rec : Requiring} (hrec : MeetsAll given brief edge first rec) {window : Window}
    (hw : window.edge = edge) (hadmits : window.Admits f) {inst : Instance}
    (hserves : Serves inst f s (guardSet whole)) (hcarrier : inst.carrier = none) :
    Does (startInstance rec window inst) now fun _ after =>
      Meets given brief edge first f s whole start after := by
  have hhorizon : window.horizon = edge.index := congrArg Instant.index hw
  have hreached := h.reached
  unfold startInstance
  rw [hserves.origin_eq, hhorizon]
  refine (advanceThrough_does hrec hw hadmits _ h hserves hfirst (by omega) (by omega)
    (by rw [hcarrier]; exact .start)).bind ?_
  rintro result middle ⟨hm, hresult, hlast, hu⟩
  have hadded : Follows given middle { middle with edge := middle.edge.addInstance result }
      { middle.ledger given with edge := (middle.ledger given).edge.addInstance result } :=
    ⟨⟨hm.tidy.store, hm.tidy.entry, hm.tidy.binding, hm.tidy.ground, hm.tidy.required⟩,
      .refl _, rfl⟩
  obtain ⟨rfl, rfl, hguard, hunrolls⟩ := hresult
  have hmove : HeadMove brief edge first (middle.ledger given)
      { middle.ledger given with edge := (middle.ledger given).edge.addInstance result } :=
    .rest hm.wellFormed (by rw [hguard]; exact hm.taken) hunrolls hlast hm.reached hu.earlier
  obtain ⟨ha, hgrows⟩ := hm.move hmove hadded rfl
  refine Does.modify (ha.finish (.unrolled hunrolls (hu.mono hgrows.toKeeps) fun _ => ?_))
  exact ⟨result, List.mem_append_right _ (List.mem_singleton.2 rfl), rfl, rfl, hguard, hlast, rfl⟩

/-! ## All formulas -/

theorem requireStepAfter_does {arg : Formula}
    (h : Working given brief edge first (.next arg false) s guard start now) (hfirst : first ≤ s)
    {window : Window} (hw : window.edge = edge) :
    Does (requireStepAfter window s guard) now fun _ after =>
      Working given brief edge first (.next arg false) s guard start after ∧
        ∃ n, (after.ledger given).lit Formula.hasNext s = some n ∧
          (after.ledger given).Posted (.constraint (guard ++ [-n])) := by
  refine (h.askHasNext hw h.reached).bind ?_
  rintro n middle ⟨hm, hn, -⟩
  refine (hm.emit hfirst (.stepAfter hn)).mono ?_
  rintro _ after ⟨ha, hposted, hgrows⟩
  exact ⟨ha, n, hgrows.lit _ _ _ hn, hposted⟩

/-- The argument of a next is postponed to a step that is still to come. -/
theorem defer_meets {arg : Formula} {weak : Bool} {whole : List Lit} {t : Nat}
    (h : Working given brief edge first (.next arg weak) s (guardSet whole) start now)
    (ha : edge.after s = .pending t)
    (hstrong : weak = false → ∃ n, (now.ledger given).lit Formula.hasNext s = some n ∧
      (now.ledger given).Posted (.constraint (guardSet whole ++ [-n]))) :
    Does (defer ⟨t, arg, guardSet whole⟩) now fun _ after =>
      Meets given brief edge first (.next arg weak) s whole start after := by
  refine (defer_does given h.tidy _).mono fun _ after hafter => ?_
  obtain ⟨hwork, hgrows⟩ := h.move (.defer h.wellFormed h.taken ha) hafter rfl
  have hopen : (Instant.mk edge.index false).after s = .pending t := by
    rw [← ha, ← Instant.last_of_pending ha]
  refine hwork.finish (.nextPending hopen (fun hweak => ?_) fun _ => ?_)
  · obtain ⟨n, hn, hposted⟩ := hstrong hweak
    exact ⟨n, hgrows.lit _ _ _ hn, hposted.mono hgrows.toKeeps⟩
  · rw [hafter.ledger_eq]
    exact List.mem_append_right _ (List.mem_singleton.2 rfl)

theorem requireNext_does {arg : Formula} {weak : Bool} {whole : List Lit}
    (h : Working given brief edge first (.next arg weak) s (guardSet whole) start now)
    (hfirst : first ≤ s) {rec : Requiring}
    (hrec : MeetsAll given brief edge first rec) {window : Window} (hw : window.edge = edge)
    (hadmits : window.Admits (.next arg weak)) :
    Does (requireNext rec window (.next arg weak) arg weak s (guardSet whole)) now fun _ after =>
      Meets given brief edge first (.next arg weak) s whole start after := by
  have hstage := hadmits.licensed rfl
  unfold requireNext checkAhead
  rw [if_pos hstage, Window.shift_one_eq hw]
  refine Does.pure_bind ?_
  -- A strong next over a step that there is not excludes its guard.
  have hnone : edge.after s = .afterEnd ∨ edge.after s = .beforeStart →
      Does (if weak then pure () else emit (.constraint (guardSet whole))) now fun _ after =>
        Meets given brief edge first (.next arg weak) s whole start after := by
    intro ha
    cases weak with
    | true => exact Does.pure (h.finish (.nextNone ha nofun))
    | false =>
      refine (h.emit hfirst (.noStep ha)).mono ?_
      rintro _ after ⟨hwork, hposted, -⟩
      exact hwork.finish (.nextNone ha fun _ => hposted)
  cases ha : edge.after s with
  | reached t =>
    have harg : window.Admits arg := ⟨hadmits.wellFormed, .inl hstage⟩
    refine (h.pass hrec hw harg (Nat.le_trans hfirst (Instant.le_of_after ha))
      (Instant.after_le ha) (.next ha)).mono ?_
    rintro _ after ⟨hwork, howes, -⟩
    exact hwork.finish (.nextReached ha howes)
  | pending t =>
    cases weak with
    | true => exact Does.pure_bind (defer_meets h ha nofun)
    | false =>
      refine (requireStepAfter_does h hfirst hw).bind ?_
      rintro _ middle ⟨hm, hn⟩
      exact defer_meets hm ha fun _ => hn
  | afterEnd => exact hnone (.inl ha)
  | beforeStart => exact hnone (.inr ha)

/-- A formula without a rule of its own is encoded and its negation excluded. -/
theorem exclude_does {whole : List Lit}
    (h : Working given brief edge first f s (guardSet whole) start now) (hfirst : first ≤ s)
    (hf : f.isExcluded = true) {window : Window} (hw : window.edge = edge)
    (hadmits : window.Admits f) :
    Does (do
      let lit ← encode window f s
      emit (.constraint (guardSet whole ++ [-lit]))) now fun _ after =>
        Meets given brief edge first f s whole start after := by
  refine (h.ask hw hadmits h.reached).bind ?_
  rintro x middle ⟨hm, hx, -⟩
  refine (hm.emit hfirst (.excluded hf hx)).mono ?_
  rintro _ after ⟨ha, hposted, hgrows⟩
  exact ha.finish (.excluded hf (hgrows.lit _ _ _ hx) hposted)

/-- A requirement that has not been taken on before is met. -/
theorem requireNew_does {whole : List Lit}
    (h : Working given brief edge first f s (guardSet whole) start now) (hfirst : first ≤ s) {rec : Requiring}
    (hrec : MeetsAll given brief edge first rec) {window : Window} (hw : window.edge = edge)
    (hadmits : window.Admits f) :
    Does (requireNew rec window f s (guardSet whole)) now fun _ after =>
      Meets given brief edge first f s whole start after := by
  have hreached := h.reached
  cases f with
  | atom name args positive =>
    refine (h.askGround rfl hreached).bind ?_
    rintro a middle ⟨hm, ha, -⟩
    refine (hm.emit hfirst (.atom rfl ha)).mono ?_
    rintro _ after ⟨hwork, hposted, hgrows⟩
    exact hwork.finish (.atom rfl (hgrows.lit _ _ _ ha) hposted)
  | bool value =>
    cases value with
    | true => exact Does.pure (h.finish .truth)
    | false =>
      refine (h.emit hfirst .falsity).mono ?_
      rintro _ after ⟨hwork, hposted, -⟩
      exact hwork.finish (.falsity hposted)
  | not arg =>
    have hq : (arg, s) ∈ (Formula.not arg).requests edge.index s := by simp [Formula.requests]
    refine (h.ask hw (hadmits.request nofun hq) hreached).bind ?_
    rintro x middle ⟨hm, hx, -⟩
    refine (hm.emit hfirst (.not hx)).mono ?_
    rintro _ after ⟨hwork, hposted, hgrows⟩
    exact hwork.finish (.not (hgrows.lit _ _ _ hx) hposted)
  | binary op lhs rhs =>
    have hql : (lhs, s) ∈ (Formula.binary op lhs rhs).requests edge.index s := by
      simp [Formula.requests]
    have hqr : (rhs, s) ∈ (Formula.binary op lhs rhs).requests edge.index s := by
      simp [Formula.requests]
    have hl := hadmits.request nofun hql
    have hr := hadmits.request nofun hqr
    cases op with
    | and =>
      refine (h.pass hrec hw hl hfirst hreached .andLeft).bind ?_
      rintro _ middle ⟨hm, howes, -⟩
      refine (hm.pass hrec hw hr hfirst hreached .andRight).mono ?_
      rintro _ after ⟨hwork, howes', hgrows⟩
      exact hwork.finish (.and (howes.mono hgrows.toKeeps) howes')
    | or => exact requireDisjunction_does h hfirst hw hadmits
    | implies =>
      refine (h.ask hw hl hreached).bind ?_
      rintro x middle ⟨hm, hx, -⟩
      refine (hm.pass hrec hw hr hfirst hreached (.implies hx)).mono ?_
      rintro _ after ⟨hwork, howes, hgrows⟩
      exact hwork.finish (.implies (hgrows.lit _ _ _ hx) howes)
    | implied =>
      refine (h.ask hw hr hreached).bind ?_
      rintro x middle ⟨hm, hx, -⟩
      refine (hm.pass hrec hw hl hfirst hreached (.implied hx)).mono ?_
      rintro _ after ⟨hwork, howes, hgrows⟩
      exact hwork.finish (.implied (hgrows.lit _ _ _ hx) howes)
    | equiv => exact exclude_does h hfirst rfl hw hadmits
  | next arg weak =>
    rw [requireNew]
    exact requireNext_does h hfirst hrec hw hadmits
  | modal op arg =>
    cases op with
    | since | trigger => exact exclude_does h hfirst rfl hw hadmits
    | untl =>
      exact startInstance_does h hfirst hrec hw hadmits ⟨rfl, rfl, rfl, .eventually arg⟩ rfl
    | release =>
      have hstage := hadmits.licensed rfl
      have harg : window.Admits arg := ⟨hadmits.wellFormed, .inl hstage⟩
      have hnext : window.Admits (.next (.modal .release arg) true) :=
        ⟨hadmits.wellFormed, .inl hstage⟩
      refine (h.pass hrec hw harg hfirst hreached .alwaysNow).bind ?_
      rintro _ middle ⟨hm, howes, -⟩
      refine (hm.pass hrec hw hnext hfirst hreached .alwaysNext).mono ?_
      rintro _ after ⟨hwork, howes', hgrows⟩
      exact hwork.finish (.always (howes.mono hgrows.toKeeps) howes')
  | temporal op lhs rhs =>
    cases op with
    | since | trigger => exact exclude_does h hfirst rfl hw hadmits
    | untl =>
      exact startInstance_does h hfirst hrec hw hadmits ⟨rfl, rfl, rfl, .untl lhs rhs⟩ rfl
    | release =>
      exact startInstance_does h hfirst hrec hw hadmits ⟨rfl, rfl, rfl, .release lhs rhs⟩ rfl
  | initial | final => exact exclude_does h hfirst rfl hw hadmits
  | previous arg weak => exact exclude_does h hfirst rfl hw hadmits
  | initially arg => exact exclude_does h hfirst rfl hw hadmits
  | dynamic modality path arg => exact exclude_does h hfirst rfl hw hadmits

/-- A requirement changes nothing that is not new. -/
theorem Meets.same {encoder after : Encoder} {whole : List Lit}
    (ha : Follows given encoder after (encoder.ledger given))
    (howes : (encoder.ledger given).Owes f s whole) :
    Meets given brief edge first f s whole encoder after := by
  refine ⟨ha.tidy, ha.grown, ?_, ?_, fun g t guard' hr => .inl ?_⟩
  · rw [ha.ledger_eq]
  · rwa [ha.ledger_eq]
  · rwa [ha.ledger_eq] at hr

theorem requireStep_does {rec : Requiring}
    (hrec : MeetsAll given brief edge first rec) :
    MeetsAll given brief edge first (requireStep rec) := by
  intro window f s guard encoder hw hadmits hfirst hs hwarrant h
  have hhorizon : window.horizon = edge.index := congrArg Instant.index hw
  unfold requireStep
  rw [checkStep_of_le (by omega)]
  refine Does.pure_bind ?_
  split
  · next hfalse => exact Does.pure (.same (.refl h) (.inl hfalse))
  · refine (keyOf_does given h f s).bind ?_
    rintro key now ⟨hn, hnow⟩
    refine Does.get_bind ?_
    split
    · next hmem =>
      have hreq := (required_iff given hn).2 hmem
      rw [hnow.ledger_eq] at hreq
      exact Does.pure (.same hnow (.inr hreq))
    · refine (demand_does given hnow.tidy hn _).bind fun _ after ha => ?_
      rw [hnow.ledger_eq] at ha
      have hmove : HeadMove brief edge first (encoder.ledger given) (after.ledger given) := by
        rw [ha.ledger_eq]
        exact .demand hadmits.wellFormed hfirst hs hwarrant
      have hwork : Working given brief edge first f s (guardSet guard) encoder after := by
        refine ⟨hadmits.wellFormed, hs, ha.tidy, hnow.grown.trans ha.grown, .single hmove, ?_, ?_,
          fun g t guard' hr => ?_⟩
        · rw [ha.ledger_eq]
          exact .inr ⟨rfl, rfl, rfl⟩
        · exact ⟨guard, rfl, hwarrant.mono hmove.grows.toKeeps (.refl _) rfl fun _ hd => hd⟩
        · rw [ha.ledger_eq] at hr
          exact hr.imp_right .inr
      exact requireNew_does hwork hfirst hrec hw hadmits

/-- Within any depth all warranted requirements are met, unless the depth is too
small. -/
theorem requireWithin_does (depth : Nat) :
    MeetsAll given brief edge first (requireWithin depth) := by
  induction depth with
  | zero => exact fun window f s guard encoder _ _ _ _ _ _ => ⟨f, s, rfl⟩
  | succ depth ih => exact requireStep_does ih

/-- **A warranted requirement on an acceptable formula at a reached step is met.**  It
leads from ledger to ledger by head moves, and all that is new on the list of
requirements is met. -/
theorem require_does :
    MeetsAll given brief edge first require := by
  intro window f s guard encoder hw hadmits hfirst hs hwarrant h
  refine (register_does given h f).bind ?_
  rintro id now ⟨-, hnow⟩
  refine (requireWithin_does _ window f s guard now hw hadmits hfirst hs
    (by rwa [hnow.ledger_eq]) hnow.tidy).mono fun _ after ha => ?_
  obtain ⟨htidy, hgrown, hmoves, howes, hmet⟩ := ha
  rw [hnow.ledger_eq] at hmoves hmet
  exact ⟨htidy, hnow.grown.trans hgrown, hmoves, howes, hmet⟩

/-- Several requirements at one step, one after the other. -/
theorem requireAll_does (given : List Rule) (brief : Brief) {α : Type} (hfirst : first ≤ s)
    (hs : s ≤ edge.index) {xs : List α} {window : α → Window} {formula : α → Formula}
    {guards : α → List Lit} (h : now.Tidy)
    (hx : ∀ x ∈ xs, (window x).edge = edge ∧ (window x).Admits (formula x) ∧
      Warranted brief edge (now.ledger given) (formula x) s (guards x)) :
    Does (xs.forM fun x => require (window x) (formula x) s (guards x)) now fun _ after =>
      after.Tidy ∧ HeadMoves brief edge first (now.ledger given) (after.ledger given) ∧
        (∀ x ∈ xs, (after.ledger given).Owes (formula x) s (guards x)) ∧
        ∀ g t guard', (after.ledger given).required g t guard' →
          (now.ledger given).required g t guard' ∨ Met edge (after.ledger given) g t guard' := by
  induction xs generalizing now with
  | nil => exact Does.pure ⟨h, .refl, nofun, fun g t guard' hr => .inl hr⟩
  | cons x rest ih =>
    obtain ⟨hw, hadmits, hwarrant⟩ := hx x List.mem_cons_self
    refine (require_does _ _ s _ now hw hadmits hfirst hs hwarrant h).bind
      fun _ middle hm => ?_
    have hkeeps := hm.moves.grows.toKeeps
    refine (ih hm.tidy fun y hy => ?_).mono ?_
    · obtain ⟨hw', hadmits', hwarrant'⟩ := hx y (List.mem_cons_of_mem _ hy)
      exact ⟨hw', hadmits', hwarrant'.mono hkeeps (.refl _) rfl fun _ hd => hd⟩
    · rintro _ after ⟨htidy, hmoves, howes, hmet⟩
      refine ⟨htidy, hm.moves.trans hmoves, fun y hy => ?_, fun g t guard' hr => ?_⟩
      · rcases List.mem_cons.1 hy with rfl | hy
        · exact hm.owes.mono hmoves.grows.toKeeps
        · exact howes y hy
      · rcases hmet g t guard' hr with hr | hnew
        · exact (hm.met g t guard' hr).imp_right fun hold => hold.grows hmoves.grows
        · exact .inr hnew

end Encoder
end TemporalHorizon

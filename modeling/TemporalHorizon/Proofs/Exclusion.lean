import TemporalHorizon.Proofs.Filings
import TemporalHorizon.Proofs.Models
import TemporalHorizon.Proofs.Purposes

/-!
# Atoms of opposite sign exclude each other

An atom and the atom of the opposite classical sign are formulas of their own.  When one of
them gets its literal at a step, the encoder looks for the other one, at that moment and
never again.  Nothing is missed, whichever comes first, whoever asks for them and whatever
fails in between.

What a run does is told as a history: the ground atoms that it has entered, in order, each
with the rules that were emitted when it was entered.

* `Encoder.Interning`: a ground atom is entered.
* `Encoder.History`: how an encoder has come about.  A step of the history enters a ground
  atom, leaves all ground atoms alone, or hands the rules over.
* `Encoder.Interned`: the table of ground atoms is what its history says, and an interning
  has emitted what it had to.  Each step keeps this (`History.interned`).
* `Chronicle.exists_history`: whatever occurs has a history.
* `Chronicle.excluded_of_opposite`: the statement for everything that can occur.
-/

namespace TemporalHorizon

section Exact

attribute [local instance] Arithmetic.exact

/-- Whether a rule is a constraint whose body consists of just two literals. -/
def Rule.setsApart (l m : Lit) (rule : Rule) : Bool :=
  rule.isConstraint && decide (rule.body = [l, m] ∨ rule.body = [m, l])

namespace Encoder

/-! ## Histories -/

/-- A ground atom that has been entered, with the rules emitted on the way. -/
structure Interning where
  formula : Formula
  step : Nat
  lit : Lit
  rules : List Rule

/-- Two atoms of opposite sign at the same step. -/
def Interning.Opposes (i j : Interning) : Prop :=
  ∃ name args sign, i.formula = .atom name args sign ∧ j.formula = .atom name args (!sign) ∧
    i.step = j.step

/-- What leaves the ground atoms alone. -/
structure Aside (e after : Encoder) : Prop where
  store : e.store.Extends after.store
  ground : after.ground = e.ground
  supply : e.supply.next ≤ after.supply.next
  rules : ∃ more, after.rules = e.rules ++ more

/-- How an encoder has come about: the rules that were handed over, and the ground atoms
that were entered. -/
inductive History [Arithmetic] : List Rule → List Interning → Encoder → Prop
  | start : History [] [] empty
  | aside {given log e after} : History given log e → Aside e after → History given log after
  /-- An atom without a literal is asked for. -/
  | intern {given log e after f step lit rules} : History given log e → f.isAtom = true →
    (e.ledger []).ground f step = none → groundAtom f step e = .ok lit after →
    after.rules = e.rules ++ rules → History given (log ++ [⟨f, step, lit, rules⟩]) after
  | handOver {given log e} : History given log e →
    History (given ++ e.rules) log { e with rules := [] }

/-- What the internings have emitted is there, in order. -/
theorem History.sublist {given : List Rule} {log : List Interning} {e : Encoder}
    (h : History given log e) : (log.flatMap Interning.rules).Sublist (given ++ e.rules) := by
  induction h with
  | start => exact List.Sublist.refl _
  | aside _ hstep ih =>
    obtain ⟨more, hmore⟩ := hstep.rules
    rw [hmore, ← List.append_assoc]
    exact ih.trans (List.sublist_append_left _ _)
  | intern _ _ _ _ hrules ih =>
    rw [hrules, ← List.append_assoc, List.flatMap_append, List.flatMap_singleton]
    exact ih.append (List.Sublist.refl _)
  | handOver _ ih => rwa [List.append_nil]

/-! ## What a history says -/

/-- The table of ground atoms is what the internings have made it.  Each of them has handed
out an atom of its own, and has emitted a constraint with an earlier one or nothing; with an
earlier one of the opposite sign it has emitted one. -/
structure Interned (log : List Interning) (e : Encoder) : Prop where
  reserved : 1 < e.supply.next
  named : ∀ key l, e.ground.get? key = some l → ∃ f, e.store.idOf? f = some key.formula
  ground : ∀ f s l, (e.ledger []).ground f s = some l ↔
    ∃ i ∈ log, i.formula = f ∧ i.step = s ∧ i.lit = l
  range : ∀ i ∈ log, 1 < i.lit.atom ∧ i.lit.atom < e.supply.next
  increasing : log.Pairwise fun i j => i.lit.atom < j.lit.atom
  emitted : ∀ i ∈ log, i.rules = [] ∨
    ∃ j ∈ log, j.lit.atom < i.lit.atom ∧ i.rules = [.constraint [i.lit, j.lit]]
  excludes : ∀ i ∈ log, ∀ j ∈ log, j.Opposes i → j.lit.atom < i.lit.atom →
    i.rules = [.constraint [i.lit, j.lit]]

/-- A constraint without constants is emitted as it is. -/
theorem simplify?_pair {l m : Lit} (hl : 1 < l.atom) (hm : 1 < m.atom) :
    simplify? (.constraint [l, m]) = some (.constraint [l, m]) := by
  have hne : ∀ {a : Lit} (negated : Bool), 1 < a.atom → a ≠ ⟨1, negated⟩ := by
    rintro a negated ha rfl
    exact Nat.lt_irrefl _ ha
  have hfalse : Lit.falsity ∉ [l, m] := by
    simp [Lit.falsity, (hne false hl).symm, (hne false hm).symm]
  have htrue : [l, m].filter (fun a => a ≠ Lit.truth) = [l, m] := by
    simp [Lit.truth, hne true hl, hne true hm]
  exact (if_neg hfalse).trans (congrArg (fun body => some (Rule.constraint body)) htrue)

namespace Interned

variable {log : List Interning} {e after : Encoder}

theorem start : Interned [] empty where
  reserved := Nat.lt_succ_self 1
  named := nofun
  ground := fun f s l => by
    refine ⟨fun hl => ?_, nofun⟩
    obtain ⟨id, -, hl⟩ := Option.bind_eq_some_iff.1 hl
    cases hl
  range := nofun
  increasing := .nil
  emitted := nofun
  excludes := nofun

theorem ground_aside (h : Interned log e) (hstep : Aside e after) :
    (after.ledger []).ground = (e.ledger []).ground := by
  show Sheet.ofTable after.store after.ground.get? = _
  rw [hstep.ground]
  exact Sheet.ofTable_of_named hstep.store h.named

theorem aside (h : Interned log e) (hstep : Aside e after) : Interned log after where
  reserved := Nat.lt_of_lt_of_le h.reserved hstep.supply
  named := fun key l hl => by
    rw [hstep.ground] at hl
    exact (h.named key l hl).imp fun f => Store.idOf?_mono hstep.store f
  ground := fun f s l => by
    rw [h.ground_aside hstep]
    exact h.ground f s l
  range := fun i hi => (h.range i hi).imp_right (Nat.lt_of_lt_of_le · hstep.supply)
  increasing := h.increasing
  emitted := h.emitted
  excludes := h.excludes

/-- The opposite atom that is found has been entered before, and it is excluded. -/
theorem exclusions_of_found (h : Interned log e) {f : Formula} {s : Nat} {other : Lit}
    (hother : (e.ledger []).opposite? f s = some other) :
    (∃ j ∈ log, j.lit = other) ∧
      e.exclusions f s = [.constraint [e.supply.fresh.1, other]] := by
  have hin : ∃ j ∈ log, j.lit = other := by
    cases f with
    | atom name args positive =>
      obtain ⟨j, hj, -, -, hlit⟩ := (h.ground _ s other).1 hother
      exact ⟨j, hj, hlit⟩
    | _ => cases hother
  obtain ⟨j, hj, rfl⟩ := hin
  refine ⟨⟨j, hj, rfl⟩, ?_⟩
  unfold exclusions
  rw [opposite?_eq [], hother, Option.bind_some, simplify?_pair h.reserved (h.range j hj).1]
  rfl

theorem exclusions_cases (h : Interned log e) (f : Formula) (s : Nat) :
    e.exclusions f s = [] ∨
      ∃ j ∈ log, e.exclusions f s = [.constraint [e.supply.fresh.1, j.lit]] := by
  cases hother : (e.ledger []).opposite? f s with
  | none =>
    left
    unfold exclusions
    rw [opposite?_eq [], hother]
    rfl
  | some other =>
    obtain ⟨⟨j, hj, rfl⟩, hrules⟩ := h.exclusions_of_found hother
    exact .inr ⟨j, hj, hrules⟩

/-- No opposite atom that has been entered is missed. -/
theorem exclusions_of_opposes (h : Interned log e) {i j : Interning} (hj : j ∈ log)
    (hopposes : j.Opposes i) :
    e.exclusions i.formula i.step = [.constraint [e.supply.fresh.1, j.lit]] := by
  obtain ⟨name, args, sign, hfj, hfi, hs⟩ := hopposes
  have hother : (e.ledger []).opposite? i.formula i.step = some j.lit := by
    rw [hfi]
    show (e.ledger []).ground (.atom name args !!sign) i.step = _
    rw [Bool.not_not]
    exact (h.ground _ _ _).2 ⟨j, hj, hfj, hs, rfl⟩
  exact (h.exclusions_of_found hother).2

/-- The atom that is entered is the only one that is new in the table. -/
theorem ground_enter (h : Interned log e) {f : Formula} {key : Key} (hn : e.Names key f key.step)
    (hnone : e.ground.get? key = none) (rules : List Rule) (g : Formula) (s : Nat) (l : Lit) :
    ((e.entered f key).ledger []).ground g s = some l ↔
      ∃ i ∈ log ++ [⟨f, key.step, e.supply.fresh.1, rules⟩],
        i.formula = g ∧ i.step = s ∧ i.lit = l := by
  have hfree : (e.ledger []).ground f key.step = none := (Sheet.ofTable_eq hn.number).trans hnone
  rw [ground_entered hn]
  by_cases hg : g = f ∧ s = key.step
  · obtain ⟨rfl, rfl⟩ := hg
    rw [Sheet.put_self]
    refine ⟨fun hl => ⟨_, List.mem_concat_self, rfl, rfl, Option.some_inj.1 hl⟩, ?_⟩
    rintro ⟨i, hi, hf, hs, rfl⟩
    rcases List.mem_append.1 hi with hi | hi
    · have hold := (h.ground _ _ _).2 ⟨i, hi, hf, hs, rfl⟩
      rw [hfree] at hold
      cases hold
    · rw [List.mem_singleton.1 hi]
  · rw [Sheet.put_of_ne hg, h.ground]
    refine exists_congr fun i => and_congr_left fun hi => ?_
    rw [List.mem_append, List.mem_singleton, or_iff_left]
    rintro rfl
    exact hg ⟨hi.1.symm, hi.2.1.symm⟩

/-- The step lemma.  What holds of the atoms entered before stays, because the new atom has
the largest literal. -/
theorem enter (h : Interned log e) {f : Formula} {key : Key} (hn : e.Names key f key.step)
    (hnone : e.ground.get? key = none) :
    Interned (log ++ [⟨f, key.step, e.supply.fresh.1, e.exclusions f key.step⟩])
      (e.entered f key) := by
  have hlast : ∀ i ∈ log, i.lit.atom < e.supply.fresh.1.atom := fun i hi => (h.range i hi).2
  have hnext : (e.entered f key).supply.next = e.supply.next + 1 := rfl
  refine ⟨?_, fun other l hl => ?_, h.ground_enter hn hnone _, fun i hi => ?_, ?_, fun i hi => ?_,
    fun i hi j hj hopposes hlt => ?_⟩
  · exact Nat.lt_succ_of_lt h.reserved
  · rw [get?_entered] at hl
    split at hl
    · next heq => exact ⟨f, heq ▸ hn.number⟩
    · exact h.named other l hl
  · rw [hnext]
    rcases List.mem_append.1 hi with hi | hi
    · exact (h.range i hi).imp_right Nat.lt_succ_of_lt
    · rw [List.mem_singleton.1 hi]
      exact ⟨h.reserved, Nat.lt_succ_self _⟩
  · refine List.pairwise_append.2 ⟨h.increasing, List.pairwise_singleton _ _, fun i hi j hj => ?_⟩
    rw [List.mem_singleton.1 hj]
    exact hlast i hi
  · rcases List.mem_append.1 hi with hi | hi
    · refine (h.emitted i hi).imp_right fun ⟨j, hj, hrules⟩ => ?_
      exact ⟨j, List.mem_append_left _ hj, hrules⟩
    · rw [List.mem_singleton.1 hi]
      refine (h.exclusions_cases f key.step).imp_right fun ⟨j, hj, hrules⟩ => ?_
      exact ⟨j, List.mem_append_left _ hj, hlast j hj, hrules⟩
  · rcases List.mem_append.1 hi with hi | hi
    · rcases List.mem_append.1 hj with hj | hj
      · exact h.excludes i hi j hj hopposes hlt
      · rw [List.mem_singleton.1 hj] at hlt
        exact absurd (hlast i hi) (Nat.lt_asymm hlt)
    · rw [List.mem_singleton.1 hi] at hopposes hlt ⊢
      rcases List.mem_append.1 hj with hj | hj
      · exact h.exclusions_of_opposes hj hopposes
      · rw [List.mem_singleton.1 hj] at hlt
        exact absurd hlt (Nat.lt_irrefl _)

end Interned

/-- An atom without a literal gets the next one. -/
theorem groundAtom_new {e : Encoder} {f : Formula} {s : Nat}
    (named : ∀ key l, e.ground.get? key = some l → ∃ f, e.store.idOf? f = some key.formula)
    (hnone : (e.ledger []).ground f s = none) :
    (e.numbered f).ground.get? ⟨(e.store.intern f).1, s⟩ = none ∧
      groundAtom f s e =
        .ok e.supply.fresh.1 ((e.numbered f).entered f ⟨(e.store.intern f).1, s⟩) := by
  have hgrown : ((e.numbered f).ledger []).ground = (e.ledger []).ground :=
    Sheet.ofTable_of_named (e.store.intern_spec f).grown named
  have hfree : (e.numbered f).ground.get? ⟨(e.store.intern f).1, s⟩ = none := by
    rw [← hnone, ← hgrown]
    exact (Sheet.ofTable_eq (numbered_names e f s).number).symm
  refine ⟨hfree, ?_⟩
  rw [groundAtom_eq, hfree]

theorem aside_numbered (e : Encoder) (f : Formula) : Aside e (e.numbered f) :=
  ⟨(e.store.intern_spec f).grown, rfl, Nat.le_refl _, [], (List.append_nil _).symm⟩

/-- A history tells what the table of ground atoms is, and what was emitted for it. -/
theorem History.interned {given : List Rule} {log : List Interning} {e : Encoder}
    (h : History given log e) : Interned log e := by
  induction h with
  | start => exact .start
  | aside _ hstep ih => exact ih.aside hstep
  | @intern given log e after f step lit rules _ _ hnone hok hrules ih =>
    obtain ⟨hfree, hrun⟩ := groundAtom_new ih.named hnone
    rw [hrun] at hok
    cases hok
    have hsame : (e.numbered f).exclusions f step = rules := List.append_cancel_left hrules
    rw [← hsame]
    exact (ih.aside (aside_numbered e f)).enter (numbered_names e f step) hfree
  | handOver _ ih => exact { ih with }

/-! ## The later of two opposite atoms -/

/-- Of two atoms that were entered, the later one excludes the earlier one.  When it was
entered, just the constraint that sets them apart was emitted, and among all the rules that
were emitted for atoms there is no other one that does so. -/
structure Excluded (log : List Interning) (earlier later : Interning) : Prop where
  order : [earlier, later].Sublist log
  rules : later.rules = [.constraint [later.lit, earlier.lit]]
  only : (log.flatMap Interning.rules).filter (Rule.setsApart earlier.lit later.lit) = later.rules

namespace Interned

variable {log : List Interning} {e : Encoder} {earlier later : Interning}

/-- The rules of another interning set other literals apart. -/
theorem filter_other (h : Interned log e) (hlt : earlier.lit.atom < later.lit.atom)
    {i : Interning} (hi : i ∈ log) (hne : i.lit.atom ≠ later.lit.atom) :
    i.rules.filter (Rule.setsApart earlier.lit later.lit) = [] := by
  rcases h.emitted i hi with hnil | ⟨j, -, hj, hrules⟩
  · rw [hnil]
    rfl
  · rw [hrules, List.filter_eq_nil_iff]
    intro rule hrule hapart
    rw [List.mem_singleton.1 hrule] at hapart
    have hbody : [i.lit, j.lit] = [earlier.lit, later.lit] ∨
        [i.lit, j.lit] = [later.lit, earlier.lit] :=
      of_decide_eq_true (Bool.and_eq_true_iff.1 hapart).2
    rcases hbody with hbody | hbody
    · simp only [List.cons.injEq, and_true] at hbody
      rw [hbody.1, hbody.2] at hj
      exact Nat.lt_asymm hlt hj
    · exact hne (congrArg Lit.atom (List.cons.inj hbody).1)

/-- Of two opposite atoms the one with the larger literal was entered later. -/
theorem excluded (h : Interned log e) (hearlier : earlier ∈ log) (hlater : later ∈ log)
    (hopposes : earlier.Opposes later) (hlt : earlier.lit.atom < later.lit.atom) :
    Excluded log earlier later := by
  have hrules := h.excludes later hlater earlier hearlier hopposes hlt
  obtain ⟨before, after, rfl⟩ := List.append_of_mem hlater
  obtain ⟨-, hafter, hbefore⟩ := List.pairwise_append.1 h.increasing
  have hafter := (List.pairwise_cons.1 hafter).1
  have hfirst : earlier ∈ before := by
    rcases List.mem_append.1 hearlier with hmem | hmem
    · exact hmem
    · rcases List.mem_cons.1 hmem with rfl | hmem
      · exact absurd hlt (Nat.lt_irrefl _)
      · exact absurd hlt (Nat.lt_asymm (hafter earlier hmem))
  refine ⟨?_, hrules, ?_⟩
  · exact (List.singleton_sublist.2 hfirst).append
      (List.singleton_sublist.2 List.mem_cons_self)
  · have hone : later.rules.filter (Rule.setsApart earlier.lit later.lit) = later.rules := by
      rw [hrules]
      simp [Rule.setsApart, Rule.isConstraint, Rule.constraint, Rule.disjunctive]
    have hnone : ∀ part : List Interning, (∀ i ∈ part, i ∈ before ++ later :: after ∧
        i.lit.atom ≠ later.lit.atom) →
        (part.flatMap Interning.rules).filter (Rule.setsApart earlier.lit later.lit) = [] := by
      intro part hpart
      rw [List.filter_flatMap, List.flatMap_eq_nil_iff]
      exact fun i hi => h.filter_other hlt (hpart i hi).1 (hpart i hi).2
    rw [List.flatMap_append, List.flatMap_cons, List.filter_append, List.filter_append, hone,
      hnone before fun i hi => ⟨List.mem_append_left _ hi,
        Nat.ne_of_lt (hbefore i hi later List.mem_cons_self)⟩,
      hnone after fun i hi => ⟨List.mem_append_right _ (List.mem_cons_of_mem _ hi),
        Nat.ne_of_gt (hafter i hi)⟩, List.nil_append, List.append_nil]

/-- Two atoms of opposite sign with a literal at a step: one excludes the other. -/
theorem excluded_or (h : Interned log e) {name : String} {args : List Term} {s : Nat} {l m : Lit}
    (hl : (e.ledger []).ground (.atom name args true) s = some l)
    (hm : (e.ledger []).ground (.atom name args false) s = some m) :
    ∃ rules rules', Excluded log ⟨.atom name args true, s, l, rules⟩
        ⟨.atom name args false, s, m, rules'⟩ ∨
      Excluded log ⟨.atom name args false, s, m, rules'⟩ ⟨.atom name args true, s, l, rules⟩ := by
  obtain ⟨⟨f, t, lit, rules⟩, hi, rfl, rfl, rfl⟩ := (h.ground _ _ _).1 hl
  obtain ⟨⟨g, t, lit', rules'⟩, hj, rfl, rfl, rfl⟩ := (h.ground _ _ _).1 hm
  refine ⟨rules, rules', ?_⟩
  rcases Nat.lt_trichotomy lit.atom lit'.atom with hlt | heq | hlt
  · exact .inl (h.excluded hi hj ⟨name, args, true, rfl, rfl, rfl⟩ hlt)
  · have hdistinct : (log.map fun i => i.lit.atom).Nodup :=
      List.pairwise_map.2 (h.increasing.imp Nat.ne_of_lt)
    cases List.inj_on_of_nodup_map hdistinct hi hj heq
  · exact .inr (h.excluded hj hi ⟨name, args, false, rfl, rfl, rfl⟩ hlt)

end Interned

/-! ## Steps of a run -/

/-- One step of a run between two takings of the rules. -/
inductive Passage : Encoder → Encoder → Prop
  | aside {e after} : Aside e after → Passage e after
  /-- A ground atom is asked for. -/
  | ground {e f} (step : Nat) : f.isAtom = true → Passage e (stateAfter (groundAtom f step) e)

theorem Aside.frame {e after : Encoder} (hstore : after.store = e.store)
    (hground : after.ground = e.ground) (hsupply : after.supply = e.supply)
    (hrules : after.rules = e.rules) : Aside e after :=
  ⟨hstore ▸ .refl _, hground, hsupply ▸ Nat.le_refl _, [], hrules.trans (List.append_nil _).symm⟩

theorem Aside.post {e : Encoder} (rule : Rule) : Aside e { e with rules := e.rules ++ [rule] } :=
  ⟨.refl _, rfl, Nat.le_refl _, [rule], rfl⟩

/-- A change that enters no ground atom. -/
theorem Change.aside {horizon : Nat} {e after : Encoder} (h : Change horizon e after)
    (hground : after.ground = e.ground) : Aside e after := by
  cases h with
  | number f => exact aside_numbered e f
  | supply => exact ⟨.refl _, rfl, Nat.le_succ _, [], (List.append_nil _).symm⟩
  | post rule => exact .post rule
  | count | write | enter | await | postpone | demand | carry | unroll =>
    exact .frame rfl hground rfl rfl

theorem Filing.passage {edge : Instant} {scope : Formula → Nat → Prop} {e after : Encoder}
    (h : Filing edge scope e after) : Passage e after := by
  cases h with
  | number f => exact .aside (aside_numbered e f)
  | post rule => exact .aside (.post rule)
  | count | share => exact .aside (.frame rfl rfl rfl rfl)
  | define lit supply _ _ _ _ hle | await lit supply _ _ _ _ _ hle =>
    exact .aside ⟨.refl _, rfl, hle, [], (List.append_nil _).symm⟩
  | @enter key f hn hatom _ hfree =>
    -- The atom is numbered already, so asking for it does nothing else.
    have hrun := groundAtom_eq e f key.step
    rw [numbered_eq hn.number, Store.intern_of_idOf? f hn.number, hfree] at hrun
    have hstate : stateAfter (groundAtom f key.step) e = e.entered f key := stateAfter_ok hrun
    rw [← hstate]
    exact .ground key.step hatom

theorem Deed.passage {kind : Instant → Prop} {e after : Encoder} (h : Deed kind e after) :
    Relation.ReflTransGen Passage e after := by
  cases h with
  | change horizon hchange _ hground => exact .single (.aside (hchange.aside hground))
  | ground step hatom => exact .single (.ground step hatom)
  | @answer _ window f step _ =>
    have hfiles := (Files.encode (inclusive_all window.edge)).along window f step rfl trivial
    exact hfiles.mono (fun _ _ => Filing.passage) e
  | numberPath path =>
    exact .single (.aside ⟨(e.store.internPath_spec path).grown, rfl, Nat.le_refl _, [],
      (List.append_nil _).symm⟩)
  | rearrange => exact .single (.aside (.frame rfl rfl rfl rfl))

theorem passes_bind (f : Formula) (step : Nat) (host : Lit) :
    Along Passage (Encoder.bind f step host) := by
  have hcache : ∀ (e : Encoder) cache, Passage e { e with cache := cache } := fun _ _ =>
    .aside (.frame rfl rfl rfl rfl)
  refine .binding (fun e f => .aside (aside_numbered e f)) (fun e _ _ cache _ => hcache e cache)
    (fun hatom _ => .single (.ground step hatom)) (fun key lit => ?_) host
  exact .sharing (fun e _ _ _ => hcache e _) (fun _ rule => .aside (.post rule)) key lit

theorem Operation.passes {operation : Operation} (htakes : operation ≠ .takeRules) :
    Along Passage operation.run := by
  cases hbinds : operation.binds with
  | false =>
    have hdeeds : Along (Deed fun _ => True) operation.run := deeds hbinds htakes fun _ _ => trivial
    exact hdeeds.refine fun _ _ => Deed.passage
  | true =>
    cases operation with
    | bind f step host => exact passes_bind f step host
    | _ => cases hbinds

/-- A step of a run goes on with the history. -/
theorem History.pass {given : List Rule} {log : List Interning} {e after : Encoder}
    (h : History given log e) (hpass : Passage e after) : ∃ log, History given log after := by
  cases hpass with
  | aside hstep => exact ⟨log, h.aside hstep⟩
  | @ground f step hatom =>
    cases hground : (e.ledger []).ground f step with
    | some l =>
      obtain ⟨id, hid, hl⟩ := Option.bind_eq_some_iff.1 hground
      rw [stateAfter_ok (groundAtom_found hid hl)]
      exact ⟨log, h⟩
    | none =>
      have hrun := (groundAtom_new h.interned.named hground).2
      rw [stateAfter_ok hrun]
      exact ⟨_, h.intern hatom hground hrun rfl⟩

theorem History.passes {given : List Rule} {log : List Interning} {e after : Encoder}
    (h : History given log e) (hpasses : Relation.ReflTransGen Passage e after) :
    ∃ log, History given log after := by
  induction hpasses with
  | refl => exact ⟨log, h⟩
  | tail _ hlast ih =>
    obtain ⟨log, h⟩ := ih
    exact h.pass hlast

end Encoder

/-! ## Everything that can occur -/

namespace Chronicle

/-- What can occur: operations of the encoder, which may bind and may fail, and growth of
its store from outside. -/
inductive Occurs [Arithmetic] : Chronicle → Chronicle → Prop
  | perform {c} {operation : Encoder.Operation} : operation.InRange → Occurs c (c.perform operation)
  | grow {c store} : c.encoder.store.Growth store →
    Occurs c (c.through { c.encoder with store := store })

theorem taken_perform (c : Chronicle) {operation : Encoder.Operation}
    (htakes : operation ≠ .takeRules) : (c.perform operation).taken = c.taken := by
  cases operation with
  | takeRules => cases htakes rfl
  | _ => exact List.append_nil _

theorem exists_history {c : Chronicle} (h : Relation.ReflTransGen Occurs {} c) :
    ∃ log, Encoder.History c.taken log c.encoder := by
  induction h with
  | refl => exact ⟨[], .start⟩
  | @tail before after _ hlast ih =>
    obtain ⟨log, h⟩ := ih
    cases hlast with
    | @perform operation _ =>
      by_cases htakes : operation = .takeRules
      · rw [htakes]
        exact ⟨log, h.handOver⟩
      · rw [taken_perform before htakes]
        exact h.passes (Encoder.Operation.passes htakes before.encoder)
    | grow hgrowth =>
      exact ⟨log, h.aside ⟨hgrowth.extends, rfl, Nat.le_refl _, [], (List.append_nil _).symm⟩⟩

/-- Where the rules of two opposite atoms are, not both atoms are true. -/
theorem not_both_of_excluded {log : List Encoder.Interning} {earlier later : Encoder.Interning}
    (h : Encoder.Excluded log earlier later) {rules : List Rule}
    (hrules : (log.flatMap Encoder.Interning.rules).Sublist rules) {program : Program}
    (hprogram : rules ⊆ program.rules) {atoms : Set Nat} (stable : StableModel program atoms) :
    ¬ (earlier.lit.TrueIn atoms ∧ later.lit.TrueIn atoms) := by
  rintro ⟨hearlier, hlater⟩
  have hmem : later ∈ log := h.order.subset (by simp)
  have hrule : Rule.constraint [later.lit, earlier.lit] ∈ program.rules := by
    refine hprogram (hrules.subset (List.mem_flatMap.2 ⟨later, hmem, ?_⟩))
    rw [h.rules]
    exact List.mem_singleton_self _
  refine (Rule.satisfiedBy_constraint _).1 (stable.satisfied _ hrule) ?_
  simp [hearlier, hlater]

theorem exists_history_excluded {c : Chronicle} (h : Relation.ReflTransGen Occurs {} c)
    {name : String} {args : List Term} {s : Nat} {l m : Lit}
    (hl : (c.encoder.ledger []).ground (.atom name args true) s = some l)
    (hm : (c.encoder.ledger []).ground (.atom name args false) s = some m) :
    (∃ log, Encoder.History c.taken log c.encoder) ∧
    (∀ log, Encoder.History c.taken log c.encoder →
      (log.flatMap Encoder.Interning.rules).Sublist c.emitted ∧
      ∃ rules rules', Encoder.Excluded log ⟨.atom name args true, s, l, rules⟩
          ⟨.atom name args false, s, m, rules'⟩ ∨
        Encoder.Excluded log ⟨.atom name args false, s, m, rules'⟩
          ⟨.atom name args true, s, l, rules⟩) ∧
    ∀ program atoms, c.emitted ⊆ program.rules → StableModel program atoms →
      ¬ (l.TrueIn atoms ∧ m.TrueIn atoms) := by
  obtain ⟨log, hlog⟩ := exists_history h
  refine ⟨⟨log, hlog⟩, fun log hlog => ⟨hlog.sublist, hlog.interned.excluded_or hl hm⟩, ?_⟩
  rintro program atoms hprogram stable ⟨htrue, htrue'⟩
  obtain ⟨rules, rules', hexcluded | hexcluded⟩ := hlog.interned.excluded_or hl hm
  · exact not_both_of_excluded hexcluded hlog.sublist hprogram stable ⟨htrue, htrue'⟩
  · exact not_both_of_excluded hexcluded hlog.sublist hprogram stable ⟨htrue', htrue⟩

end Chronicle
end Exact

/-! ## Chronicles in range -/

section InRange

variable [Arithmetic]

theorem Encoder.grows_groundAtom {f : Formula} {s : Nat} {e after : Encoder} {lit : Lit}
    (h : groundAtom f s e = .ok lit after) : e.Grows after := by
  have hgrows := Encoder.grows_of_turns ((Along.groundAtom f s).turn 0 e)
  rwa [stateAfter_ok h] at hgrows

omit [Arithmetic] in
theorem Encoder.Aside.grows {e after : Encoder} (h : Aside e after) : e.Grows after :=
  ⟨h.supply, h.store.size_le⟩

/-- The histories of an encoder in range are the same without words. -/
theorem Encoder.history_iff_exact {given : List Rule} {log : List Interning} {e : Encoder}
    (hrange : e.InRange) : History given log e ↔ @History .exact given log e := by
  constructor
  · intro h
    induction h with
    | start => exact @History.start .exact
    | aside _ hstep ih =>
      exact @History.aside .exact _ _ _ _ (ih (hrange.of_grows hstep.grows)) hstep
    | @intern _ _ e after f s lit _ _ hatom hnone hrun hrules ih =>
      have hrun' : @groundAtom .exact f s e = .ok lit after := by
        rw [← hrun, (Agrees.groundAtom f s).agree e (Nat.zero_le _)
          (.inl (by rwa [stateAfter_ok hrun]))]
      exact @History.intern .exact _ _ _ _ _ _ _ _ (ih (hrange.of_grows (grows_groundAtom hrun)))
        hatom hnone hrun' hrules
    | @handOver _ _ e _ ih =>
      exact @History.handOver .exact _ _ _ (ih ⟨hrange.atoms, hrange.formulas⟩)
  · intro h
    induction h with
    | start => exact .start
    | aside _ hstep ih => exact .aside (ih (hrange.of_grows hstep.grows)) hstep
    | @intern _ _ e after f s lit _ _ hatom hnone hrun hrules ih =>
      have hrun' : groundAtom f s e = .ok lit after := by
        rw [← hrun, (Agrees.groundAtom f s).agree e (Nat.zero_le _)
          (.inr (by rwa [@stateAfter_ok _ _ _ (@groundAtom .exact f s) _ _ _ hrun]))]
      exact .intern (ih (hrange.of_grows (grows_groundAtom hrun'))) hatom hnone hrun' hrules
    | handOver _ ih => exact .handOver (ih ⟨hrange.atoms, hrange.formulas⟩)

namespace Chronicle

variable {c c' : Chronicle}

/-- Operations can be performed one after the other. -/
theorem occurs_foldl {operations : List Encoder.Operation}
    (hrange : ∀ operation ∈ operations, operation.InRange) (c : Chronicle) :
    Relation.ReflTransGen Occurs c (operations.foldl perform c) := by
  induction operations generalizing c with
  | nil => exact .refl
  | cons operation rest ih =>
    exact .head (.perform (hrange operation List.mem_cons_self))
      (ih (fun other hother => hrange other (List.mem_cons_of_mem _ hother)) _)

theorem Occurs.grows (h : Occurs c c') : c.encoder.Grows c'.encoder := by
  cases h with
  | perform hrange => exact c.grows_perform hrange
  | grow hgrowth => exact ⟨Nat.le_refl _, hgrowth.extends.size_le⟩

/-- What can occur within the range can occur without words. -/
theorem occurs_exact (h : Relation.ReflTransGen Occurs c c') (hrange : c'.encoder.InRange) :
    Relation.ReflTransGen (@Occurs .exact) c c' := by
  induction h with
  | refl => exact .refl
  | tail _ hlast ih =>
    have hstep := ih (hrange.of_grows hlast.grows)
    cases hlast with
    | @perform operation hoperation =>
      rw [perform_eq_exact hoperation hrange]
      exact hstep.tail (@Occurs.perform .exact _ _ operation.inRange_exact)
    | grow hgrowth => exact hstep.tail (@Occurs.grow .exact _ _ hgrowth)

/-- **Opposite atoms exclude each other.**  Whatever has occurred, let an atom and the atom of
the opposite sign both have a literal at a step.  The run has a history, and every history
of it has entered one of the two after the other, and has emitted just then, and for no other
atom, the one constraint whose body consists of the two literals.  The constraint is among
the emitted rules, so no stable model of these and any further rules contains both atoms.
The encoder must be in range. -/
theorem excluded_of_opposite (h : Relation.ReflTransGen Occurs {} c) (hrange : c.encoder.InRange)
    {name : String} {args : List Term} {s : Nat} {l m : Lit}
    (hl : (c.encoder.ledger []).ground (.atom name args true) s = some l)
    (hm : (c.encoder.ledger []).ground (.atom name args false) s = some m) :
    (∃ log, Encoder.History c.taken log c.encoder) ∧
    (∀ log, Encoder.History c.taken log c.encoder →
      (log.flatMap Encoder.Interning.rules).Sublist c.emitted ∧
      ∃ rules rules', Encoder.Excluded log ⟨.atom name args true, s, l, rules⟩
          ⟨.atom name args false, s, m, rules'⟩ ∨
        Encoder.Excluded log ⟨.atom name args false, s, m, rules'⟩
          ⟨.atom name args true, s, l, rules⟩) ∧
    ∀ program atoms, c.emitted ⊆ program.rules → StableModel program atoms →
      ¬ (l.TrueIn atoms ∧ m.TrueIn atoms) := by
  simp only [Encoder.history_iff_exact hrange]
  exact exists_history_excluded (occurs_exact h hrange) hl hm

end Chronicle
end InRange

namespace Chronicle

/-- An atom is required and the rules are taken away.  A request for the opposite atom fails,
and then it is bound to an atom of the host. -/
theorem excluded_of_opposite_bound :
    let p := Formula.atom "p" [] true
    let q := Formula.atom "p" [] false
    let now : Window := ⟨0, false, .always⟩
    let c : Chronicle := [Encoder.Operation.require now p 0 [], .takeRules, .fresh,
      .encode now q 3, .bind q 0 ⟨3, false⟩].foldl perform {}
    Relation.ReflTransGen Occurs {} c ∧ c.encoder.InRange ∧
      (c.encoder.ledger []).ground p 0 = some ⟨2, false⟩ ∧
      (c.encoder.ledger []).ground q 0 = some ⟨4, false⟩ ∧
      (∃ log, Encoder.History c.taken log c.encoder ∧ ∃ rules rules',
        Encoder.Excluded log ⟨p, 0, ⟨2, false⟩, rules⟩ ⟨q, 0, ⟨4, false⟩, rules'⟩ ∨
          Encoder.Excluded log ⟨q, 0, ⟨4, false⟩, rules'⟩ ⟨p, 0, ⟨2, false⟩, rules⟩) ∧
      ∀ program atoms, c.emitted ⊆ program.rules → StableModel program atoms →
        ¬ (2 ∈ atoms ∧ 4 ∈ atoms) := by
  intro p q now c
  have hreach : Relation.ReflTransGen Occurs {} c := occurs_foldl (by decide) {}
  have hrange : c.encoder.InRange := by decide +kernel
  have hp : (c.encoder.ledger []).ground p 0 = some ⟨2, false⟩ := by decide +kernel
  have hq : (c.encoder.ledger []).ground q 0 = some ⟨4, false⟩ := by decide +kernel
  obtain ⟨⟨log, hlog⟩, hexcluded, hstable⟩ := excluded_of_opposite hreach hrange hp hq
  exact ⟨hreach, hrange, hp, hq, ⟨log, hlog, (hexcluded log hlog).2⟩, hstable⟩

end Chronicle
end TemporalHorizon

import TemporalHorizon.Proofs.Fulfilment
import TemporalHorizon.Proofs.Outcomes

/-!
# Strands of carriers

An until or a release that is required leaves a carrier at every step to which it is
unrolled.  On the list of carriers a record names the formula, the origin and the step, but
not the guard, and two instances of one formula at one origin differ only in their guards.
So the list does not say which carrier belongs to which instance.  A *strand* does: it is an
instance together with the carriers that it has left, in the order of their steps.

The statements here are about all formulas, acceptable or not, and about failures as well
as success, since instances are started in the middle of other work: by the operands of
another instance, by a requirement that was postponed, or on demand.

* `Strand`, `Strand.records`: the carriers of one instance, and their records.
* `Ledger.Spun`: every carrier of a strand has its rules, from the carrier before it.
* `Encoder.Spins`: some work has added the records of some strands, one for every instance
  that has been required on the way, and put the instances on the edge in order.
* `Encoder.require_leads`: a requirement does no other thing, if it succeeds; if it
  fails, it does not fail by an assertion.
-/

namespace TemporalHorizon

attribute [local instance] Arithmetic.exact

/-- A formula that is unrolled step by step when it is required. -/
def Formula.IsUnrolled (f : Formula) : Prop := ∃ op lhs rhs, f.Unrolls op lhs rhs

/-- The records of carriers at the steps from a given one on. -/
def Carrier.listFrom (f : Formula) (origin : Nat) : Nat → List Lit → List Carrier
  | _, [] => []
  | t, lit :: rest => ⟨f, origin, t, lit⟩ :: listFrom f origin (t + 1) rest

theorem Carrier.listFrom_append (f : Formula) (origin t : Nat) (lits more : List Lit) :
    listFrom f origin t (lits ++ more) =
      listFrom f origin t lits ++ listFrom f origin (t + lits.length) more := by
  induction lits generalizing t with
  | nil => rfl
  | cons lit rest ih =>
    rw [List.cons_append, listFrom, listFrom, ih, List.cons_append, List.length_cons,
      Nat.add_right_comm, Nat.add_assoc]

/-- An instance with all carriers that it has left, from its origin on. -/
structure Strand where
  inst : Instance
  lits : List Lit

namespace Strand

/-- What the instance was required for: its formula, its origin and its guard. -/
def owner (strand : Strand) : Formula × Nat × List Lit :=
  (strand.inst.formula, strand.inst.origin, strand.inst.guard)

/-- The records of the carriers. -/
def records (strand : Strand) : List Carrier :=
  Carrier.listFrom strand.inst.formula strand.inst.origin strand.inst.origin strand.lits

end Strand

namespace Ledger

/-- Carriers of an instance, one for each step from the origin on, each with its
requirements and its rules. -/
inductive Spun (ledger : Ledger) (f : Formula) (origin : Nat) (guard : List Lit) :
    List Lit → Prop
  | start : Spun ledger f origin guard []
  | step {lits carrier} : Spun ledger f origin guard lits →
    ledger.Stepped f origin guard (origin + lits.length) lits.getLast? carrier →
    Spun ledger f origin guard (lits ++ [carrier])

theorem Spun.mono {ledger later : Ledger} (h : ledger.Keeps later) {f : Formula} {origin : Nat}
    {guard lits : List Lit} (hs : ledger.Spun f origin guard lits) :
    later.Spun f origin guard lits := by
  induction hs with
  | start => exact .start
  | step _ hstepped ih => exact .step ih (hstepped.mono h)

/-- An instance has left the given carriers. -/
structure Strung (ledger : Ledger) (inst : Instance) (lits : List Lit) : Prop where
  unrolls : inst.formula.Unrolls inst.op inst.lhs inst.rhs
  carrier : inst.carrier = lits.getLast?
  spun : ledger.Spun inst.formula inst.origin inst.guard lits

theorem Strung.mono {ledger later : Ledger} (h : ledger.Keeps later) {inst : Instance}
    {lits : List Lit} (hs : ledger.Strung inst lits) : later.Strung inst lits :=
  ⟨hs.unrolls, hs.carrier, hs.spun.mono h⟩

/-- The carriers of a strand go from the origin to the step to which the instance has been
unrolled. -/
structure Complete (ledger : Ledger) (strand : Strand) : Prop
    extends ledger.Strung strand.inst strand.lits where
  origin_le : strand.inst.origin ≤ strand.inst.last
  length_eq : strand.inst.origin + strand.lits.length = strand.inst.last + 1

theorem Complete.mono {ledger later : Ledger} (h : ledger.Keeps later) {strand : Strand}
    (hc : ledger.Complete strand) : later.Complete strand :=
  ⟨hc.toStrung.mono h, hc.origin_le, hc.length_eq⟩

end Ledger

namespace Encoder

variable {α β : Type} {given : List Rule} {horizon : Nat} {e : Encoder}

/-! ## Work that adds strands -/

/-- Some work has added the records of the given strands, and beside them those of `extra`;
it has put the instances of the strands on the edge.  The strands belong to the instances
that have been required meanwhile, one to each. -/
structure Spins (given : List Rule) (horizon : Nat) (extra : List Carrier) (strands : List Strand)
    (before after : Encoder) : Prop where
  fit : after.Fit
  grown : before.store.Extends after.store
  keeps : (before.ledger given).Keeps (after.ledger given)
  carriers : after.carriers.Perm (before.carriers ++ extra ++ strands.flatMap Strand.records)
  instances : after.edge.instances = before.edge.instances ++ strands.map Strand.inst
  required : ∀ f s guard, f.IsUnrolled → ((after.ledger given).required f s guard ↔
    (before.ledger given).required f s guard ∨ (f, s, guard) ∈ strands.map Strand.owner)
  fresh : ∀ f s guard, (f, s, guard) ∈ strands.map Strand.owner →
    ¬ (before.ledger given).required f s guard
  distinct : (strands.map Strand.owner).Nodup
  complete : ∀ strand ∈ strands, (after.ledger given).Complete strand ∧
    strand.inst.last = horizon

namespace Spins

variable {extra extra' : List Carrier} {strands strands' : List Strand} {before after : Encoder}

/-- Nothing has been required, and no carrier has been left. -/
theorem of_frame (hfit : after.Fit) (hgrown : before.store.Extends after.store)
    (hkeeps : (before.ledger given).Keeps (after.ledger given))
    (hcarriers : after.carriers = before.carriers)
    (hinstances : after.edge.instances = before.edge.instances)
    (hrequired : ∀ f s guard, f.IsUnrolled →
      ((after.ledger given).required f s guard ↔ (before.ledger given).required f s guard)) :
    Spins given horizon [] [] before after := by
  refine ⟨hfit, hgrown, hkeeps, ?_, ?_, fun f s guard hf => ?_, nofun, .nil, nofun⟩
  · rw [hcarriers, List.flatMap_nil, List.append_nil, List.append_nil]
  · rw [hinstances, List.map_nil, List.append_nil]
  · rw [hrequired f s guard hf, List.map_nil]
    simp

theorem refl (h : e.Fit) : Spins given horizon [] [] e e :=
  of_frame h (.refl _) (.refl _) rfl rfl fun _ _ _ _ => Iff.rfl

theorem of_spares {n m : Nat} (hb : before.Fit) (h : Spares given m n before after) :
    Spins given horizon [] [] before after :=
  of_frame (h.fit hb) h.grown h.grows.toKeeps h.carriers h.instances fun _ _ _ _ => by
    rw [h.required]

/-- The ledger has changed in nothing that matters. -/
theorem of_follows {ledger : Ledger} (hb : before.Fit) (h : Follows given before after ledger)
    (hentry : ledger.entry = (before.ledger given).entry)
    (hkeeps : (before.ledger given).Keeps ledger) (hcarriers : ledger.carriers = before.carriers)
    (hinstances : ledger.edge.instances = before.edge.instances)
    (hrequired : ∀ f s guard, f.IsUnrolled →
      (ledger.required f s guard ↔ (before.ledger given).required f s guard)) :
    Spins given horizon [] [] before after := by
  have heq := h.ledger_eq
  refine of_frame (hb.of_follows h hentry) h.grown (heq ▸ hkeeps)
    ((congrArg Ledger.carriers heq).trans hcarriers)
    ((congrArg (·.edge.instances) heq).trans hinstances) fun f s guard hf => ?_
  rw [heq]
  exact hrequired f s guard hf

/-- Work after work. -/
theorem trans {a b c : Encoder} (h : Spins given horizon extra strands a b)
    (h' : Spins given horizon extra' strands' b c) :
    Spins given horizon (extra ++ extra') (strands ++ strands') a c := by
  have hunrolled : ∀ strand ∈ strands, strand.inst.formula.IsUnrolled := fun strand hstrand =>
    ⟨_, _, _, (h.complete strand hstrand).1.unrolls⟩
  refine ⟨h'.fit, h.grown.trans h'.grown, h.keeps.trans h'.keeps, ?_, ?_,
    fun f s guard hf => ?_, fun f s guard hmem => ?_, ?_, fun strand hstrand => ?_⟩
  · refine h'.carriers.trans ?_
    have hfirst := (h.carriers.append_right extra').append_right (strands'.flatMap Strand.records)
    refine hfirst.trans ?_
    -- The records that are left beside the strands change places with those of the strands.
    rw [List.flatMap_append]
    simp only [List.append_assoc]
    refine (List.Perm.refl _).append ((List.Perm.refl _).append ?_)
    rw [← List.append_assoc, ← List.append_assoc]
    exact List.perm_append_comm.append_right _
  · rw [h'.instances, h.instances, List.map_append, List.append_assoc]
  · rw [h'.required f s guard hf, h.required f s guard hf, List.map_append, List.mem_append,
      or_assoc]
  · rw [List.map_append, List.mem_append] at hmem
    rcases hmem with hmem | hmem
    · exact h.fresh f s guard hmem
    · exact fun hr => h'.fresh f s guard hmem (h.keeps.required f s guard hr)
  · rw [List.map_append]
    refine List.nodup_append.2 ⟨h.distinct, h'.distinct, ?_⟩
    rintro owner hmem _ hmem' rfl
    obtain ⟨strand, hstrand, rfl⟩ := List.mem_map.1 hmem
    exact h'.fresh _ _ _ hmem'
      ((h.required _ _ _ (hunrolled strand hstrand)).2 (.inr (List.mem_map_of_mem hstrand)))
  · rcases List.mem_append.1 hstrand with hstrand | hstrand
    · exact ⟨(h.complete strand hstrand).1.mono h'.keeps, (h.complete strand hstrand).2⟩
    · exact h'.complete strand hstrand

end Spins

/-- A failure that is not an assertion, in a state that is fit. -/
def Harmless (failure : Failure) (after : Encoder) : Prop :=
  failure.isAssertion = false ∧ after.Fit

/-- A computation that succeeds has added strands and nothing beside them; it does not fail
by an assertion. -/
def Spinning (given : List Rule) (horizon : Nat) (x : Encode α) (e : Encoder) : Prop :=
  Leads x e (fun _ after => ∃ strands, Spins given horizon [] strands e after) Harmless

/-- A way to meet requirements that adds strands for all formulas, at reached steps only. -/
def SpinningAll (given : List Rule) (rec : Requiring) : Prop :=
  ∀ window f s guard e, e.Fit → Leads (rec window f s guard) e
    (fun _ after => (∃ strands, Spins given window.horizon [] strands e after) ∧
      (after.ledger given).Owes f s guard ∧ s ≤ window.horizon) Harmless

namespace Spinning

theorem pure (h : e.Fit) (a : α) : Spinning given horizon (pure a : Encode α) e := ⟨[], .refl h⟩

theorem refuse (h : e.Fit) (cause : Violation) :
    Spinning given horizon (Encoder.refuse cause : Encode α) e := ⟨rfl, h⟩

/-- What follows some work that has added strands. -/
theorem after {strands : List Strand} {now : Encoder} {x : Encode α}
    (h : Spins given horizon [] strands e now) (hx : Spinning given horizon x now) :
    Leads x now (fun _ after => ∃ strands, Spins given horizon [] strands e after) Harmless := by
  refine Leads.imp hx ?_
  rintro a after ⟨strands', h'⟩
  exact ⟨_, h.trans h'⟩

theorem bind {x : Encode α} {next : α → Encode β} (hx : Spinning given horizon x e)
    (hn : ∀ a now, x e = .ok a now → now.Fit → Spinning given horizon (next a) now) :
    Spinning given horizon (x >>= next) e := by
  refine Leads.bind hx ?_
  rintro a now hok ⟨strands, h⟩
  exact after h (hn a now hok h.fit)

theorem of_sparing {n m : Nat} {x : Encode α} (h : e.Fit) (hx : Sparing given m n x e) :
    Spinning given horizon x e :=
  Leads.mono hx (fun _ _ ha => ⟨[], .of_spares h ha⟩) fun _ _ ha => ⟨ha.1, ha.2.fit h⟩

theorem encode (h : e.Fit) (window : Window) (f : Formula) (s : Nat) :
    Spinning given horizon (encode window f s) e := of_sparing h (.encode given h.toTidy window f s)

theorem groundAtom (h : e.Fit) (f : Formula) (s : Nat) :
    Spinning given horizon (groundAtom f s) e :=
  of_sparing (m := 0) (n := 0) h (.groundAtom h.toTidy f s)

theorem emit (h : e.Fit) (rule : Rule) : Spinning given horizon (emit rule) e :=
  (Leads.of_does (.emit rule) (emit_does given h.toTidy rule)).imp fun _ _ ha =>
    ⟨[], .of_follows h ha rfl (Ledger.Grows.post _ _).toKeeps rfl rfl fun _ _ _ _ => Iff.rfl⟩

theorem defer (h : e.Fit) (requirement : Deferred) :
    Spinning given horizon (defer requirement) e :=
  (Leads.of_does (.modify _) (defer_does given h.toTidy requirement)).imp fun _ _ ha =>
    ⟨[], .of_follows h ha rfl { Ledger.Keeps.refl _ with } rfl rfl fun _ _ _ _ => Iff.rfl⟩

theorem of_all {rec : Requiring} (hrec : SpinningAll given rec) (h : e.Fit) (window : Window)
    (f : Formula) (s : Nat) (guard : List Lit) :
    Spinning given window.horizon (rec window f s guard) e :=
  (hrec window f s guard e h).imp fun _ _ ha => ha.1

theorem forM {xs : List α} {action : α → Encode PUnit}
    (h : ∀ x ∈ xs, ∀ now : Encoder, now.Fit → Spinning given horizon (action x) now)
    (htidy : e.Fit) : Spinning given horizon (xs.forM action) e := by
  induction xs generalizing e with
  | nil => exact pure htidy _
  | cons x xs ih =>
    exact bind (h x List.mem_cons_self e htidy) fun _ now _ hnow =>
      ih (fun y hy => h y (List.mem_cons_of_mem x hy)) hnow

/-! ## Requirements without instances -/

section Requirements

variable {rec : Requiring} {window : Window} {f : Formula} {s : Nat} {guard : List Lit}

theorem sortDisjuncts (h : e.Fit) (fs : List Formula) (head : List Nat) (body : List Lit) :
    Spinning given horizon (sortDisjuncts window s fs head body) e := by
  fun_induction Encoder.sortDisjuncts window s fs head body generalizing e with
  | case1 => exact pure h _
  | case2 head body name args positive rest ih =>
    exact bind (groundAtom h _ _) fun lit now _ hnow => ih lit hnow
  | case3 => exact pure h _
  | case4 head body rest ih => exact ih h
  | case5 head body f rest _ _ _ ih => exact bind (encode h _ _ _) fun lit now _ hnow => ih lit hnow

theorem requireDisjunction (h : e.Fit) :
    Spinning given horizon (requireDisjunction window f s guard) e := by
  refine bind (sortDisjuncts h _ _ _) fun sorted now _ hnow => ?_
  split
  · exact emit hnow _
  · exact pure hnow _

theorem requireNext (hrec : SpinningAll given rec) (h : e.Fit) (arg : Formula) (weak : Bool) :
    Spinning given window.horizon (requireNext rec window f arg weak s guard) e := by
  unfold Encoder.requireNext checkAhead
  cases window.stage.licensesFuture with
  | false => exact refuse h _
  | true =>
    rw [if_pos rfl, pure_bind]
    split
    · exact of_all hrec h window _ _ _
    · cases weak with
      | true => exact defer h _
      | false =>
        refine bind (bind (encode h _ _ _) fun next now _ hnow => emit hnow _) ?_
        exact fun _ now _ hnow => defer hnow _
    · cases weak with
      | true => exact pure h _
      | false => exact emit h _
    · cases weak with
      | true => exact pure h _
      | false => exact emit h _

/-- A formula that is not unrolled. -/
theorem requireNew (hrec : SpinningAll given rec) (h : e.Fit) (hf : ¬ f.IsUnrolled) :
    Spinning given window.horizon (requireNew rec window f s guard) e := by
  have hexclude : ∀ g, Spinning given window.horizon (do
      let lit ← Encoder.encode window g s
      Encoder.emit (.constraint (guard ++ [-lit]))) e := fun g =>
    bind (encode h _ _ _) fun lit now _ hnow => emit hnow _
  cases f with
  | atom name args positive => exact bind (groundAtom h _ _) fun lit now _ hnow => emit hnow _
  | bool value =>
    cases value with
    | true => exact pure h _
    | false => exact emit h _
  | not arg => exact bind (encode h _ _ _) fun lit now _ hnow => emit hnow _
  | binary op lhs rhs =>
    cases op with
    | and =>
      exact bind (of_all hrec h window _ _ _) fun _ now _ hnow => of_all hrec hnow window _ _ _
    | or => exact requireDisjunction h
    | implies => exact bind (encode h _ _ _) fun lit now _ hnow => of_all hrec hnow window _ _ _
    | implied => exact bind (encode h _ _ _) fun lit now _ hnow => of_all hrec hnow window _ _ _
    | equiv => exact hexclude _
  | next arg weak =>
    unfold Encoder.requireNew
    exact requireNext hrec h arg weak
  | modal op arg =>
    cases op with
    | since | trigger => exact hexclude _
    | untl => exact absurd ⟨_, _, _, .eventually arg⟩ hf
    | release =>
      exact bind (of_all hrec h window _ _ _) fun _ now _ hnow => of_all hrec hnow window _ _ _
  | temporal op lhs rhs =>
    cases op with
    | since | trigger => exact hexclude _
    | untl => exact absurd ⟨_, _, _, .untl lhs rhs⟩ hf
    | release => exact absurd ⟨_, _, _, .release lhs rhs⟩ hf
  | initial | final => exact hexclude _
  | previous arg weak => exact hexclude _
  | initially arg => exact hexclude _
  | dynamic modality path arg => exact hexclude _

end Requirements
end Spinning

/-! ## Instances -/

section Instances

variable {rec : Requiring} {window : Window}

/-- The literal of a formula, if it is returned, is in the ledger. -/
theorem encode_leads (given : List Rule) (horizon : Nat) (h : e.Fit) (f : Formula) (s : Nat) :
    Leads (encode window f s) e (fun lit after => Spins given horizon [] [] e after ∧
      (after.ledger given).lit f s = some lit) Harmless := by
  have hencode := Sparing.encode given h.toTidy window f s
  refine Leads.intro (fun lit after hok => ⟨.of_spares h (Leads.of_ok hencode hok), ?_⟩)
    fun failure after herror => ?_
  · exact Records.encode window e lit after hok
  · exact ⟨(Leads.of_error hencode herror).1, (Leads.of_error hencode herror).2.fit h⟩

theorem requireOperands_leads (hrec : SpinningAll given rec) (h : e.Fit) (inst : Instance)
    (guard : List Lit) (t : Nat) :
    Leads (requireOperands rec window inst guard t) e (fun _ after =>
      (∃ strands, Spins given window.horizon [] strands e after) ∧
        ∀ lhs, inst.lhs = some lhs → (after.ledger given).Owes (.or lhs inst.rhs) t guard)
      Harmless := by
  unfold requireOperands
  cases inst.lhs with
  | none => exact Leads.pure ⟨⟨[], .refl h⟩, nofun⟩
  | some lhs =>
    refine (hrec window (.or lhs inst.rhs) t guard e h).imp ?_
    rintro _ after ⟨hspins, howes, -⟩
    refine ⟨hspins, fun l hl => ?_⟩
    cases hl
    exact howes

/-- What an instance does at a step before it leaves its carrier there. -/
theorem instanceWitness_leads (hrec : SpinningAll given rec) (h : e.Fit) (inst : Instance)
    (guard : List Lit) (t : Nat) :
    Leads (instanceWitness rec window inst guard t) e (fun w after =>
      (∃ strands, Spins given window.horizon [] strands e after) ∧ t ≤ window.horizon ∧
        (inst.formula.Unrolls inst.op inst.lhs inst.rhs →
          (after.ledger given).lit (Ledger.witnessOf inst.op inst.lhs inst.rhs) t = some w ∧
          (after.ledger given).Prepared t guard inst.op inst.lhs inst.rhs)) Harmless := by
  obtain ⟨f, op, lhs, rhs, guard', origin, last, carrier⟩ := inst
  dsimp only
  unfold instanceWitness
  split
  · next hop =>
    -- An until meets its requirements and asks for its right operand.
    obtain rfl : op = .untl := hop
    refine (requireOperands_leads hrec h _ guard t).bind ?_
    rintro _ now₁ - ⟨⟨strands₁, h₁⟩, hoperands⟩
    refine (encode_leads given window.horizon h₁.fit Formula.hasNext t).bind ?_
    rintro n now₂ - ⟨h₂, hn⟩
    refine (hrec window rhs t (guard ++ [-n]) now₂ h₂.fit).bind ?_
    rintro _ now₃ - ⟨⟨strands₃, h₃⟩, hrhs, ht⟩
    refine (encode_leads given window.horizon h₃.fit rhs t).imp ?_
    rintro w after ⟨h₄, hw⟩
    have hn' := (h₃.keeps.trans h₄.keeps).lit _ _ _ hn
    refine ⟨⟨_, ((h₁.trans h₂).trans h₃).trans h₄⟩, ht, fun _ => ⟨hw, ?_⟩⟩
    cases lhs with
    | none => exact .eventually hn' (hrhs.mono h₄.keeps)
    | some lhs =>
      have hops := hoperands lhs rfl
      exact .untl (hops.mono ((h₂.keeps.trans h₃.keeps).trans h₄.keeps)) hn' (hrhs.mono h₄.keeps)
  · next hop =>
    -- Everything else meets its requirement and asks for its left operand.
    refine (hrec window rhs t guard e h).bind ?_
    rintro _ now₁ - ⟨⟨strands, h₁⟩, hrhs, ht⟩
    cases lhs with
    | none =>
      refine Leads.pure ⟨⟨_, h₁⟩, ht, fun hf => ?_⟩
      cases hf
      exact absurd rfl hop
    | some lhs =>
      refine (encode_leads given window.horizon h₁.fit lhs t).imp ?_
      rintro w after ⟨h₂, hw⟩
      refine ⟨⟨_, h₁.trans h₂⟩, ht, fun hf => ?_⟩
      cases hf with
      | untl => exact absurd rfl hop
      | release => exact ⟨hw, .release (hrhs.mono h₂.keeps)⟩

/-- An instance is unrolled at one step: it leaves one carrier there, beside the strands of
what it requires. -/
theorem advance_leads (hrec : SpinningAll given rec) (h : e.Fit) (inst : Instance) (t : Nat) :
    Leads (advance rec window inst t) e (fun result after => ∃ strands carrier,
      result = { inst with carrier := some carrier, last := t } ∧
      Spins given window.horizon [⟨inst.formula, inst.origin, t, carrier⟩] strands e after ∧
      t ≤ window.horizon ∧
      ∀ lits, (e.ledger given).Strung inst lits → t = inst.origin + lits.length →
        (after.ledger given).Strung result (lits ++ [carrier])) Harmless := by
  refine (instanceWitness_leads hrec h inst (stepGuard inst.guard inst.carrier) t).bind ?_
  rintro w now - ⟨⟨strands, hnow⟩, ht, hwitness⟩
  refine (Leads.of_does ?_ (carry_does given hnow.fit.toTidy inst t w)).imp ?_
  · exact .bind .fresh fun _ => .bind (.carryOn _ _) fun _ => .bind (.emit _) fun _ =>
      .bind (.modify _) fun _ => .pure _
  rintro _ after ⟨rfl, ha⟩
  have heq := ha.ledger_eq
  have hkeeps : (now.ledger given).Keeps (after.ledger given) := by
    rw [heq]
    exact { Ledger.Keeps.refl _ with
      next := Nat.le_succ _
      rules := ⟨_, rfl⟩
      carriers := ⟨_, rfl⟩ }
  -- The carrier is the only thing that is new, beside what has been required before it.
  have hcarry : Spins given window.horizon
      [⟨inst.formula, inst.origin, t, ⟨(now.ledger given).next, false⟩⟩] [] now after := by
    refine ⟨hnow.fit.of_follows ha rfl, ha.grown, hkeeps, ?_, ?_, fun f s guard _ => ?_, nofun,
      .nil, nofun⟩
    · rw [List.flatMap_nil, List.append_nil]
      exact .of_eq (congrArg Ledger.carriers heq)
    · rw [List.map_nil, List.append_nil]
      exact congrArg (·.edge.instances) heq
    · rw [heq, List.map_nil]
      simp [Ledger.carry, Ledger.post]
  have hall := hnow.trans hcarry
  rw [List.nil_append, List.append_nil] at hall
  refine ⟨strands, _, rfl, hall, ht, fun lits hstrung hlength => ?_⟩
  obtain ⟨hw, hprepared⟩ := hwitness hstrung.unrolls
  refine ⟨hstrung.unrolls, by rw [List.getLast?_concat], (hstrung.spun.mono hall.keeps).step ?_⟩
  rw [← hlength, ← hstrung.carrier]
  refine ⟨hstrung.unrolls, hprepared.mono hkeeps, hkeeps.lit _ _ _ hw, fun rule hr => ?_, ?_⟩
  · rw [heq]
    exact Ledger.posted_post _ hr
  · rw [heq]
    exact List.mem_append_right _ (List.mem_singleton.2 rfl)

/-- An instance is unrolled at several steps, one after the other. -/
theorem advanceThrough_leads (hrec : SpinningAll given rec) (count : Nat) {t : Nat}
    {inst : Instance} {lits : List Lit} (h : e.Fit) (hstrung : (e.ledger given).Strung inst lits)
    (ht : t = inst.origin + lits.length) :
    Leads (advanceThrough rec window count t inst) e (fun result after => ∃ strands more,
      more.length = count ∧
      (⟨result, lits ++ more⟩ : Strand).owner = (inst.formula, inst.origin, inst.guard) ∧
      (result.last + 1 = t + count ∨ count = 0 ∧ result.last = inst.last) ∧
      Spins given window.horizon (Carrier.listFrom inst.formula inst.origin t more) strands e
        after ∧
      (after.ledger given).Strung result (lits ++ more)) Harmless := by
  induction count generalizing t inst lits e with
  | zero =>
    refine Leads.pure ⟨[], [], rfl, rfl, .inr ⟨rfl, rfl⟩, .refl h, ?_⟩
    rw [List.append_nil]
    exact hstrung
  | succ count ih =>
    refine (advance_leads hrec h inst t).bind ?_
    rintro _ now - ⟨strands₁, carrier, rfl, h₁, -, hlonger⟩
    have hnow := hlonger lits hstrung ht
    refine (ih h₁.fit hnow ?_).imp ?_
    · rw [List.length_append, ht]
      rfl
    · rintro result after ⟨strands₂, more, hmore, howner, hlast, h₂, hstrung₂⟩
      refine ⟨_, carrier :: more, by rw [List.length_cons, hmore], howner, ?_, h₁.trans h₂, ?_⟩
      · rcases hlast with hlast | ⟨rfl, hlast⟩
        · exact .inl (by omega)
        · exact .inl (congrArg (· + 1) hlast)
      · rw [List.append_cons]
        exact hstrung₂

/-- An instance is started: it is unrolled to the horizon and then put on the edge, after the
instances that have been started on the way. -/
theorem startInstance_leads (hrec : SpinningAll given rec) (h : e.Fit) {inst : Instance}
    (hunrolls : inst.formula.Unrolls inst.op inst.lhs inst.rhs) (hcarrier : inst.carrier = none)
    (horigin : inst.origin ≤ window.horizon) :
    Leads (startInstance rec window inst) e (fun _ after => ∃ strands strand middle,
      Strand.owner strand = (inst.formula, inst.origin, inst.guard) ∧
      Spins given window.horizon strand.records strands e middle ∧
      (middle.ledger given).Complete strand ∧ strand.inst.last = window.horizon ∧
      after = { middle with edge := middle.edge.addInstance strand.inst }) Harmless := by
  have hstrung : (e.ledger given).Strung inst [] := ⟨hunrolls, hcarrier, .start⟩
  refine (advanceThrough_leads (t := inst.origin) hrec (window.horizon + 1 - inst.origin) h hstrung
    rfl).bind ?_
  rintro result middle - ⟨strands, more, hlength, howner, hlast, hspins, hresult⟩
  rw [List.nil_append] at howner hresult
  have hformula : result.formula = inst.formula := congrArg Prod.fst howner
  have horigin' : result.origin = inst.origin := congrArg (·.2.1) howner
  have hlast : result.last = window.horizon := by
    rcases hlast with hlast | ⟨hzero, -⟩ <;> omega
  refine Leads.modify ⟨strands, ⟨result, more⟩, middle, howner, ?_, ⟨hresult, ?_, ?_⟩, hlast, rfl⟩
  · rw [Strand.records, hformula, horigin']
    exact hspins
  · show result.origin ≤ result.last
    omega
  · show result.origin + more.length = result.last + 1
    omega

/-- A formula that is unrolled is met by an instance. -/
theorem requireNew_unrolls {f : Formula} {op : Fixpoint} {lhs : Option Formula} {rhs : Formula}
    (hf : f.Unrolls op lhs rhs) (s : Nat) (guard : List Lit) :
    requireNew rec window f s guard =
      startInstance rec window ⟨f, op, lhs, rhs, guard, s, s, none⟩ := by
  cases hf <;> rfl

/-- A requirement on a formula that is unrolled, from the moment it is taken on. -/
theorem requireNew_leads (hrec : SpinningAll given rec) (h : e.Fit) {f : Formula} {s : Nat}
    {guard : List Lit} {pushed : Encoder} (hs : s ≤ window.horizon) (hf : f.IsUnrolled)
    (hnew : ¬ (e.ledger given).required f s guard)
    (hpushed : Follows given e pushed ((e.ledger given).demand f s guard)) :
    Leads (requireNew rec window f s guard) pushed
      (fun _ after => (∃ strands, Spins given window.horizon [] strands e after) ∧
        (pushed.ledger given).Keeps (after.ledger given)) Harmless := by
  obtain ⟨op, lhs, rhs, hunrolls⟩ := hf
  rw [requireNew_unrolls hunrolls]
  refine (startInstance_leads hrec (h.of_follows hpushed rfl) hunrolls rfl hs).imp ?_
  rintro _ _ ⟨strands, strand, middle, howner, hspins, hcomplete, hlast, rfl⟩
  have hrequired : ∀ g t guard', (pushed.ledger given).required g t guard' ↔
      (e.ledger given).required g t guard' ∨ (g, t, guard') = strand.owner := by
    intro g t guard'
    rw [hpushed.ledger_eq, howner]
    simp [Ledger.demand]
  have hcarriers : pushed.carriers = e.carriers := congrArg Ledger.carriers hpushed.ledger_eq
  have hinstances : pushed.edge.instances = e.edge.instances :=
    congrArg (·.edge.instances) hpushed.ledger_eq
  have hadded : (middle.ledger given).Keeps (Encoder.ledger given
      { middle with edge := middle.edge.addInstance strand.inst }) :=
    { Ledger.Keeps.refl (middle.ledger given) with }
  refine ⟨⟨strands ++ [strand], hspins.fit.frame rfl rfl rfl rfl,
    hpushed.grown.trans hspins.grown, ?_, ?_, ?_, fun g t guard' hg => ?_,
    fun g t guard' hmem => ?_, ?_, fun other hother => ?_⟩, hspins.keeps.trans hadded⟩
  · have hkeeps : (e.ledger given).Keeps (pushed.ledger given) := by
      rw [hpushed.ledger_eq]
      exact { Ledger.Keeps.refl _ with required := fun _ _ _ hr => .inl hr }
    exact (hkeeps.trans hspins.keeps).trans hadded
  · refine hspins.carriers.trans ?_
    rw [hcarriers, List.append_nil, List.append_assoc, List.flatMap_append, List.flatMap_singleton]
    exact List.perm_append_comm.append_left _
  · show middle.edge.instances ++ [strand.inst] = _
    rw [hspins.instances, hinstances, List.map_append, List.append_assoc]
    rfl
  · show (middle.ledger given).required g t guard' ↔ _
    rw [hspins.required g t guard' hg, hrequired, List.map_append, List.mem_append,
      List.map_singleton, List.mem_singleton, or_assoc]
    exact or_congr_right or_comm
  · rw [List.map_append, List.mem_append, List.map_singleton, List.mem_singleton] at hmem
    rcases hmem with hmem | hmem
    · exact fun hr => hspins.fresh g t guard' hmem ((hrequired g t guard').2 (.inl hr))
    · rw [howner] at hmem
      cases hmem
      exact hnew
  · -- The instance itself is required when the others are started.
    rw [List.map_append]
    refine List.nodup_append.2 ⟨hspins.distinct, by simp, ?_⟩
    rintro owner hmem _ hmem' rfl
    obtain rfl := List.mem_singleton.1 hmem'
    exact hspins.fresh _ _ _ hmem ((hrequired _ _ _).2 (.inr rfl))
  · rcases List.mem_append.1 hother with hother | hother
    · exact ⟨(hspins.complete other hother).1.mono hadded, (hspins.complete other hother).2⟩
    · obtain rfl := List.mem_singleton.1 hother
      exact ⟨hcomplete.mono hadded, hlast⟩

theorem requireStep_leads (hrec : SpinningAll given rec) : SpinningAll given (requireStep rec) := by
  intro window f s guard e h
  unfold requireStep
  rcases Nat.lt_or_ge window.horizon s with hs | hs
  · rw [checkStep_of_lt hs]
    exact ⟨rfl, h⟩
  · rw [checkStep_of_le hs]
    show Leads _ e _ _
    rw [pure_bind]
    split
    · next hfalse => exact Leads.pure ⟨⟨[], .refl h⟩, .inl hfalse, hs⟩
    · refine (Leads.of_does (.keyOf f s) (keyOf_does given h.toTidy f s)).bind ?_
      rintro key now - ⟨hn, hnow⟩
      refine Leads.get_bind ?_
      split
      · next hmem =>
        have hreq := (required_iff given hn).2 hmem
        refine Leads.pure ⟨⟨[], ?_⟩, .inr hreq, hs⟩
        exact .of_follows h hnow rfl (.refl _) rfl rfl fun _ _ _ _ => Iff.rfl
      · next hmem =>
        refine (Leads.of_does (.modify _) (demand_does given hnow.tidy hn (guardSet guard))).bind ?_
        intro _ pushed _ hpushed
        rw [hnow.ledger_eq] at hpushed
        have hpushed := hnow.trans hpushed
        have htaken : (pushed.ledger given).required f s (guardSet guard) := by
          rw [hpushed.ledger_eq]
          exact .inr ⟨rfl, rfl, rfl⟩
        suffices hspins : Leads (requireNew rec window f s (guardSet guard)) pushed
            (fun _ after => (∃ strands, Spins given window.horizon [] strands e after) ∧
              (pushed.ledger given).Keeps (after.ledger given)) Harmless by
          refine hspins.imp ?_
          rintro _ after ⟨hspins, hkeeps⟩
          exact ⟨hspins, .inr (hkeeps.required _ _ _ htaken), hs⟩
        by_cases hf : f.IsUnrolled
        · refine requireNew_leads hrec h hs hf ?_ hpushed
          rw [← hnow.ledger_eq]
          exact fun hr => hmem ((required_iff given hn).1 hr)
        · refine Leads.imp (Spinning.requireNew hrec (h.of_follows hpushed rfl) hf) ?_
          rintro _ after ⟨strands, hspins⟩
          refine ⟨⟨_, Spins.trans (.of_follows h hpushed rfl ?_ rfl rfl fun g t guard' hg => ?_)
            hspins⟩, hspins.keeps⟩
          · exact { Ledger.Keeps.refl _ with required := fun _ _ _ hr => .inl hr }
          · -- The formula that is taken on is not one of those that are unrolled.
            refine ⟨fun hr => ?_, .inl⟩
            rcases hr with hr | ⟨rfl, -, -⟩
            · exact hr
            · exact absurd hg hf

theorem requireWithin_leads (given : List Rule) (depth : Nat) :
    SpinningAll given (requireWithin depth) := by
  induction depth with
  | zero => exact fun window f s guard e h => ⟨rfl, h⟩
  | succ depth ih => exact requireStep_leads ih

/-- **What a requirement does, whatever its formula.**  If it succeeds, it has left the
strands of the instances that it has started and nothing else of the kind; if it fails,
then not by an assertion. -/
theorem require_leads (given : List Rule) : SpinningAll given require := by
  intro window f s guard e h
  refine (Leads.of_does (.register f) (register_does given h.toTidy f)).bind ?_
  rintro id now - ⟨-, hnow⟩
  refine (requireWithin_leads given _ window f s guard now (h.of_follows hnow rfl)).imp ?_
  rintro _ after ⟨⟨strands, hspins⟩, howes, hs⟩
  exact ⟨⟨_, (Spins.of_follows h hnow rfl (.refl _) rfl rfl fun _ _ _ _ => Iff.rfl).trans hspins⟩,
    howes, hs⟩

end Instances

/-! ## The edge -/

/-- A change of what waits at the edge, other than the instances. -/
theorem Spins.of_edge (h : e.Fit) {edge : Edge} (hinstances : edge.instances = e.edge.instances) :
    Spins given horizon [] [] e { e with edge := edge } :=
  of_frame (h.frame rfl rfl rfl rfl) (.refl _) { Ledger.Keeps.refl (e.ledger given) with } rfl
    hinstances fun _ _ _ _ => Iff.rfl

theorem Spinning.require (h : e.Fit) (window : Window) (f : Formula) (s : Nat) (guard : List Lit) :
    Spinning given window.horizon (require window f s guard) e :=
  of_all (require_leads given) h window f s guard

theorem Spinning.tieBoundaries (h : e.Fit) (window : Window) (step : Nat) (due : List Boundary) :
    Spinning given horizon (tieBoundaries window step due) e := by
  induction due generalizing e with
  | nil => exact pure h _
  | cons boundary due ih =>
    exact bind (encode h _ _ _) fun lit now _ hnow => bind (emit hnow _) fun _ tied _ htied =>
      bind (ih htied) fun _ after _ hafter => pure hafter _

theorem Spinning.resolveBoundaries (h : e.Fit) (window : Window) (step : Nat) :
    Spinning given horizon (resolveBoundaries window step) e := by
  have hedge : Spins given horizon [] [] e { e with edge := (e.edge.takeDue step).2 } :=
    .of_edge h rfl
  exact Leads.modifyGet_bind (after hedge (tieBoundaries hedge.fit window step _))

theorem Spinning.runDeferred (h : e.Fit) (window : Window) (step : Nat) :
    Spinning given window.horizon (runDeferred window step) e := by
  have hedge : Spins given window.horizon [] [] e { e with edge := (e.edge.takeDeferred step).2 } :=
    .of_edge h rfl
  exact Leads.modifyGet_bind (after hedge
    (forM (fun _ _ now hnow => require hnow window _ step _) hedge.fit))

/-- What it takes to unroll one of the instances at the edge to a step: nothing if it is
there already.  Otherwise it leaves a carrier at the step and takes its own place again. -/
inductive Advances (given : List Rule) (window : Window) (step number : Nat) (e : Encoder) :
    Encoder → Prop
  | idle : (∀ inst, e.edge.instances[number]? = some inst → step ≤ inst.last) →
    Advances given window step number e e
  | moved {inst carrier strands middle} : e.edge.instances[number]? = some inst →
    inst.last < step → step ≤ window.horizon →
    Spins given window.horizon [⟨inst.formula, inst.origin, step, carrier⟩] strands e middle →
    (∀ lits, (e.ledger given).Strung inst lits → step = inst.origin + lits.length →
      (middle.ledger given).Strung { inst with carrier := some carrier, last := step }
        (lits ++ [carrier])) →
    Advances given window step number e { middle with
      edge := middle.edge.setInstance number { inst with carrier := some carrier, last := step } }

theorem Advances.fit {window : Window} {step number : Nat} {after : Encoder} (h : e.Fit)
    (ha : Advances given window step number e after) : after.Fit := by
  cases ha with
  | idle _ => exact h
  | moved _ _ _ hspins _ => exact hspins.fit.frame rfl rfl rfl rfl

theorem advanceInstance_leads (given : List Rule) (h : e.Fit) (window : Window)
    (step number : Nat) :
    Leads (advanceInstance window step number) e
      (fun _ after => Advances given window step number e after) Harmless := by
  refine Leads.get_bind ?_
  cases hinst : e.edge.instances[number]? with
  | none => exact Leads.pure (.idle fun inst hi => by rw [hinst] at hi; cases hi)
  | some inst =>
    by_cases hlast : inst.last < step
    · show Leads (if inst.last < step then _ else _) e _ _
      rw [if_pos hlast]
      refine (advance_leads (require_leads given) h inst step).bind ?_
      rintro _ middle - ⟨strands, carrier, rfl, hspins, hstep, hstrung⟩
      exact Leads.modify (.moved hinst hlast hstep hspins hstrung)
    · show Leads (if inst.last < step then _ else _) e _ _
      rw [if_neg hlast]
      refine Leads.pure (.idle fun other hi => ?_)
      rw [hinst] at hi
      cases hi
      exact Nat.le_of_not_lt hlast

end Encoder
end TemporalHorizon

import Mathlib.Data.Set.Insert
import TemporalHorizon.Proofs.ExactSessions
import TemporalHorizon.Proofs.Intended
import TemporalHorizon.Proofs.Strands

/-!
# Carriers record the past witnesses

An instance that has been required leaves a carrier at every step from its origin to the edge,
and the carrier is true where the witness of the instance has come by that step.  Instances are
started at any step and in the middle of other work, and they are advanced by a walk over the
edge while it grows.  What keeps the account is that all carriers together are those of some
strands, one for every instance.

* `Ledger.Woven`: the strands account for all carriers and all instances.
* `Encoder.Mounted`: the instances of the strands are on the edge in order, so that the walk
  over the edge is a walk over the strands.
* `Encoder.Mounted.reachStep`, `Encoder.Mounted.closeStep`: reaching a step makes every strand
  longer by one carrier, and closing the horizon makes none longer.
* `Session.Reachable.exists_strands`: the strands of a session, and what their carriers say in
  a stable model.
-/

namespace TemporalHorizon

section Exact

attribute [local instance] Arithmetic.exact

/-- The strand of an instance that has been unrolled to one more step. -/
def Strand.extend (strand : Strand) (step : Nat) (carrier : Lit) : Strand :=
  ⟨{ strand.inst with carrier := some carrier, last := step }, strand.lits ++ [carrier]⟩

namespace Ledger

variable {ledger later : Ledger} {strands : List Strand}

/-- The carriers of a ledger are those of the strands, and each instance that has been
required has exactly one strand. -/
structure Woven (ledger : Ledger) (strands : List Strand) : Prop where
  carriers : ledger.carriers.Perm (strands.flatMap Strand.records)
  required : ∀ f s guard, f.IsUnrolled →
    (ledger.required f s guard ↔ (f, s, guard) ∈ strands.map Strand.owner)
  distinct : (strands.map Strand.owner).Nodup
  complete : ∀ strand ∈ strands, ledger.Complete strand

theorem Woven.keep (h : ledger.Woven strands) (hkeeps : ledger.Keeps later)
    (hcarriers : later.carriers = ledger.carriers) (hrequired : later.required = ledger.required) :
    later.Woven strands where
  carriers := hcarriers ▸ h.carriers
  required := hrequired ▸ h.required
  distinct := h.distinct
  complete := fun strand hstrand => (h.complete strand hstrand).mono hkeeps

end Ledger

namespace Encoder

variable {given : List Rule} {horizon step : Nat} {strands more : List Strand} {e after : Encoder}
  {window : Window}

/-- The strands account for all carriers and instances, and their instances are on the edge,
in order. -/
structure Mounted (given : List Rule) (strands : List Strand) (e : Encoder) : Prop where
  fit : e.Fit
  woven : (e.ledger given).Woven strands
  instances : e.edge.instances = strands.map Strand.inst

section Owners

variable {extra : List Carrier}

/-- What has been required after some work: the instances from before, and the new ones. -/
theorem Spins.required_iff (hspins : Spins given horizon extra more e after)
    (h : (e.ledger given).Woven strands) {f : Formula} (hf : f.IsUnrolled) (s : Nat)
    (guard : List Lit) : (after.ledger given).required f s guard ↔
      (f, s, guard) ∈ (strands ++ more).map Strand.owner := by
  rw [hspins.required f s guard hf, h.required f s guard hf, List.map_append, List.mem_append]

theorem Spins.nodup_owners (hspins : Spins given horizon extra more e after)
    (h : (e.ledger given).Woven strands) : ((strands ++ more).map Strand.owner).Nodup := by
  rw [List.map_append]
  refine List.nodup_append.2 ⟨h.distinct, hspins.distinct, ?_⟩
  rintro owner hmem _ hmem' rfl
  obtain ⟨strand, hstrand, rfl⟩ := List.mem_map.1 hmem
  have hunrolled : strand.inst.formula.IsUnrolled := ⟨_, _, _, (h.complete strand hstrand).unrolls⟩
  exact hspins.fresh _ _ _ hmem' ((h.required _ _ _ hunrolled).2 (List.mem_map_of_mem hstrand))

end Owners

/-- Work that adds strands. -/
theorem Spins.woven (hspins : Spins given horizon [] more e after)
    (h : (e.ledger given).Woven strands) : (after.ledger given).Woven (strands ++ more) := by
  refine ⟨?_, fun f s guard hf => hspins.required_iff h hf s guard, hspins.nodup_owners h,
    fun strand hstrand => ?_⟩
  · rw [List.flatMap_append]
    refine hspins.carriers.trans ?_
    rw [List.append_nil]
    exact h.carriers.append_right _
  · rcases List.mem_append.1 hstrand with hstrand | hstrand
    · exact (h.complete strand hstrand).mono hspins.keeps
    · exact (hspins.complete strand hstrand).1

theorem Mounted.spin (h : Mounted given strands e) (hspins : Spins given horizon [] more e after) :
    Mounted given (strands ++ more) after :=
  ⟨hspins.fit, hspins.woven h.woven, by rw [hspins.instances, h.instances, List.map_append]⟩

/-! ## The walk over the edge -/

/-- One strand gets one more carrier. -/
theorem flatMap_set_perm {i : Nat} {old new : Strand} {record : Carrier}
    (hold : strands[i]? = some old) (hnew : new.records = old.records ++ [record]) :
    ((strands.set i new).flatMap Strand.records).Perm
      (strands.flatMap Strand.records ++ [record]) := by
  induction strands generalizing i with
  | nil => cases hold
  | cons strand rest ih =>
    cases i with
    | zero =>
      cases hold
      rw [List.set_cons_zero, List.flatMap_cons, List.flatMap_cons, hnew, List.append_assoc,
        List.append_assoc]
      exact List.perm_append_comm.append_left _
    | succ i =>
      rw [List.set_cons_succ, List.flatMap_cons, List.flatMap_cons, List.append_assoc]
      exact (ih hold).append_left _

/-- A strand with one more carrier has one more record. -/
theorem records_extend {strand : Strand} (carrier : Lit)
    (hstep : strand.inst.origin + strand.lits.length = step) :
    (strand.extend step carrier).records =
      strand.records ++ [⟨strand.inst.formula, strand.inst.origin, step, carrier⟩] := by
  show Carrier.listFrom strand.inst.formula strand.inst.origin strand.inst.origin
    (strand.lits ++ [carrier]) = _
  rw [Carrier.listFrom_append, hstep]
  rfl

/-- One strand gets one more carrier, beside the strands that are added meanwhile. -/
theorem Mounted.lengthen {number : Nat} {strand : Strand} {carrier : Lit}
    (h : Mounted given strands e) (hstrand : strands[number]? = some strand)
    (hstep : strand.inst.last + 1 = step)
    (hspins : Spins given horizon [⟨strand.inst.formula, strand.inst.origin, step, carrier⟩] more e
      after)
    (hstrung : (after.ledger given).Strung (strand.extend step carrier).inst
      (strand.lits ++ [carrier])) :
    Mounted given (strands.set number (strand.extend step carrier) ++ more)
      { after with edge := after.edge.setInstance number (strand.extend step carrier).inst } := by
  have hcomplete := h.woven.complete strand (List.mem_of_getElem? hstrand)
  have hlength : strand.inst.origin + strand.lits.length = step := hcomplete.length_eq.trans hstep
  have hrecords := records_extend carrier hlength
  have hlt : number < strands.length := (List.getElem?_eq_some_iff.1 hstrand).1
  have howners : (strands.set number (strand.extend step carrier) ++ more).map Strand.owner =
      (strands ++ more).map Strand.owner := by
    have hat : (strands.map Strand.owner)[number]? = some (strand.extend step carrier).owner := by
      rw [List.getElem?_map, hstrand]
      rfl
    obtain ⟨hnumber, hat⟩ := List.getElem?_eq_some_iff.1 hat
    rw [List.map_append, List.map_append, List.map_set, ← hat, List.set_getElem_self]
  have hkeeps : (after.ledger given).Keeps (Encoder.ledger given
      { after with edge := after.edge.setInstance number (strand.extend step carrier).inst }) :=
    { Ledger.Keeps.refl (after.ledger given) with }
  refine ⟨hspins.fit.frame rfl rfl rfl rfl, ⟨?_, fun f s guard hf => ?_, ?_, fun other hother =>
    Ledger.Complete.mono hkeeps ?_⟩, ?_⟩
  · refine hspins.carriers.trans ?_
    rw [List.flatMap_append]
    refine List.Perm.append_right _ ?_
    exact (h.woven.carriers.append_right _).trans (flatMap_set_perm hstrand hrecords).symm
  · rw [howners]
    exact hspins.required_iff h.woven hf s guard
  · rw [howners]
    exact hspins.nodup_owners h.woven
  · rcases List.mem_append.1 hother with hother | hother
    · rcases List.mem_or_eq_of_mem_set hother with hother | rfl
      · exact (h.woven.complete other hother).mono hspins.keeps
      · refine ⟨hstrung, ?_, ?_⟩
        · show strand.inst.origin ≤ step
          omega
        · show strand.inst.origin + (strand.lits ++ [carrier]).length = step + 1
          rw [List.length_append, ← Nat.add_assoc, hlength]
          rfl
    · exact (hspins.complete other hother).1
  · show after.edge.instances.set number _ = _
    rw [hspins.instances, h.instances, List.map_append, List.map_set,
      List.set_append_left _ _ (by rwa [List.length_map])]

/-- In the middle of the walk to a step: the strands with the given numbers have yet to be
looked at, and those of them that were there before the step end just before it.  All others
have come to the step. -/
def Due (step number count : Nat) (strands : List Strand) : Prop :=
  ∀ j strand, strands[j]? = some strand → strand.inst.last = step ∨
    number ≤ j ∧ j < number + count ∧ strand.inst.last + 1 = step

/-- One step of the walk. -/
theorem Mounted.advance {number count : Nat} (h : Mounted given strands e)
    (hhorizon : window.horizon = step) (hdue : Due step number (count + 1) strands)
    (ha : Advances given window step number e after) :
    ∃ strands', Mounted given strands' after ∧ Due step (number + 1) count strands' := by
  cases ha with
  | idle hidle =>
    refine ⟨strands, h, fun j strand hj => ?_⟩
    rcases hdue j strand hj with hlast | ⟨hle, hlt, hlast⟩
    · exact .inl hlast
    · refine .inr ⟨Nat.lt_of_le_of_ne hle ?_, by omega, hlast⟩
      rintro rfl
      have hinst : e.edge.instances[number]? = some strand.inst := by
        rw [h.instances, List.getElem?_map, hj]
        rfl
      have hge := hidle strand.inst hinst
      omega
  | @moved inst carrier more middle hinst hbefore _ hspins hstrung =>
    rw [h.instances, List.getElem?_map] at hinst
    obtain ⟨strand, hstrand, rfl⟩ := Option.map_eq_some_iff.1 hinst
    have hcomplete := h.woven.complete strand (List.mem_of_getElem? hstrand)
    have hlast : strand.inst.last + 1 = step := by
      rcases hdue number strand hstrand with hlast | ⟨-, -, hlast⟩
      · omega
      · exact hlast
    have hlonger := hstrung strand.lits hcomplete.toStrung (hcomplete.length_eq.trans hlast).symm
    refine ⟨_, h.lengthen hstrand hlast hspins hlonger, fun j other hj => ?_⟩
    rcases Nat.lt_or_ge j strands.length with hlt | hge
    · rw [List.getElem?_append_left (by rwa [List.length_set])] at hj
      by_cases heq : number = j
      · subst heq
        rw [List.getElem?_set_self hlt] at hj
        cases hj
        exact .inl rfl
      · rw [List.getElem?_set_ne heq] at hj
        refine (hdue j other hj).imp_right fun hrest => ⟨?_, ?_, hrest.2.2⟩ <;> omega
    · rw [List.getElem?_append_right (by rwa [List.length_set])] at hj
      exact .inl ((hspins.complete other (List.mem_of_getElem? hj)).2.trans hhorizon)

/-- The walk over the strands with the given numbers. -/
theorem Mounted.walk (hhorizon : window.horizon = step) (count : Nat) {number : Nat}
    (h : Mounted given strands e) (hdue : Due step number count strands) :
    Leads ((List.range' number count).forM (advanceInstance window step)) e
      (fun _ after => ∃ strands', Mounted given strands' after ∧
        Due step (number + count) 0 strands') Harmless := by
  induction count generalizing number strands e with
  | zero => exact Leads.pure ⟨strands, h, hdue⟩
  | succ count ih =>
    refine (advanceInstance_leads given h.fit window step number).bind fun _ now _ hnow => ?_
    obtain ⟨strands', h', hdue'⟩ := h.advance hhorizon hdue hnow
    rw [Nat.add_comm count 1, ← Nat.add_assoc]
    exact ih h' hdue'

/-- All strands that end just before a step are unrolled to it. -/
theorem Mounted.advanceInstances (h : Mounted given strands e) (hhorizon : window.horizon = step)
    (hlast : ∀ strand ∈ strands, strand.inst.last = step ∨ strand.inst.last + 1 = step) :
    Leads (advanceInstances window step) e (fun _ after => ∃ strands',
      Mounted given strands' after ∧ ∀ strand ∈ strands', strand.inst.last = step) Harmless := by
  have hdue : Due step 0 e.edge.instances.length strands := by
    intro j strand hj
    have hlt : j < 0 + e.edge.instances.length := by
      rw [h.instances, List.length_map, Nat.zero_add]
      exact (List.getElem?_eq_some_iff.1 hj).1
    exact (hlast strand (List.mem_of_getElem? hj)).imp_right fun hlast =>
      ⟨Nat.zero_le j, hlt, hlast⟩
  refine Leads.get_bind ?_
  have hwalk := h.walk hhorizon _ hdue
  rw [← List.range_eq_range'] at hwalk
  refine hwalk.imp ?_
  rintro _ after ⟨strands', h', hdue'⟩
  refine ⟨strands', h', fun strand hstrand => ?_⟩
  obtain ⟨j, hj⟩ := List.mem_iff_getElem?.1 hstrand
  exact (hdue' j strand hj).resolve_right fun hrest => by omega

/-! ## Reaching a step, and closing the horizon -/

/-- Work that adds strands adds them behind the others. -/
theorem Mounted.spinning {α : Type} {x : Encode α} (h : Mounted given strands e) (horizon : Nat)
    (hx : Spinning given horizon x e) :
    Leads x e (fun _ after => ∃ more, Mounted given (strands ++ more) after ∧
      ∀ strand ∈ more, strand.inst.last = horizon) Harmless := by
  refine Leads.imp hx ?_
  rintro _ after ⟨more, hspins⟩
  exact ⟨more, h.spin hspins, fun strand hstrand => (hspins.complete strand hstrand).2⟩

/-- When a step is reached, all strands come to it. -/
theorem Mounted.reachStep (h : Mounted given strands e)
    (hlast : ∀ strand ∈ strands, strand.inst.last + 1 = step) (theory : Theory) :
    Leads (Unrolling.reachStep theory step) e (fun _ after => ∃ strands',
      Mounted given strands' after ∧ ∀ strand ∈ strands', strand.inst.last = step) Harmless := by
  refine (h.spinning step (.resolveBoundaries h.fit _ step)).bind ?_
  rintro released now₁ - ⟨more₁, h₁, hmore₁⟩
  refine (h₁.spinning step (.runDeferred h₁.fit _ step)).bind ?_
  rintro _ now₂ - ⟨more₂, h₂, hmore₂⟩
  refine (h₂.advanceInstances rfl fun strand hstrand => ?_).bind ?_
  · rcases List.mem_append.1 hstrand with hstrand | hstrand
    · exact (List.mem_append.1 hstrand).elim (fun hold => .inr (hlast strand hold)) fun hnew =>
        .inl (hmore₁ strand hnew)
    · exact .inl (hmore₂ strand hstrand)
  rintro _ now₃ - ⟨strands₃, h₃, hlast₃⟩
  -- What follows starts instances at the step, and advances none.
  refine (h₃.spinning step (.bind (.forM ?_ h₃.fit) ?_)).imp ?_
  · exact fun entry _ now hnow => .require hnow _ _ _ _
  · intro _ now _ hnow
    have hfinals : Spinning given step
        (Unrolling.requireFinals theory ⟨step, false, .always⟩ step) now :=
      .bind (.encode hnow _ _ _) fun guard now _ hnow =>
        .forM (fun f _ now hnow => .require hnow _ _ _ _) hnow
    dsimp only
    split
    · exact .pure hnow _
    · exact .bind hfinals fun _ now _ hnow => .pure hnow _
  · rintro _ after ⟨more₄, h₄, hmore₄⟩
    exact ⟨_, h₄, fun strand hstrand =>
      (List.mem_append.1 hstrand).elim (hlast₃ strand) (hmore₄ strand)⟩

theorem Mounted.close (h : Mounted given strands e) :
    Leads close e (fun _ after => (after.ledger given).Woven strands) Harmless := by
  refine Leads.get_bind ?_
  refine (Leads.of_does (.emitAll _) (emitAll_does given h.fit.toTidy _)).bind ?_
  intro _ now _ hnow
  have hposted : (now.ledger given).Woven strands := by
    rw [hnow.ledger_eq]
    exact h.woven.keep (Ledger.Grows.post _ _).toKeeps rfl rfl
  show (Encoder.ledger given { now with edge := {} }).Woven strands
  exact hposted.keep { Ledger.Keeps.refl (now.ledger given) with } rfl rfl

/-- When the edge turns out to be the last step, all strands stay as they are. -/
theorem Mounted.closeStep (h : Mounted given strands e)
    (hlast : ∀ strand ∈ strands, strand.inst.last = step) (theory : Theory) :
    Leads (Unrolling.closeStep theory step) e (fun _ after => ∃ strands',
      (after.ledger given).Woven strands' ∧ ∀ strand ∈ strands', strand.inst.last = step)
      Harmless := by
  refine (h.spinning step (.forM (fun f _ now hnow => .require hnow _ _ _ _) h.fit)).bind ?_
  rintro _ now - ⟨more, hnow, hmore⟩
  refine hnow.close.imp fun _ after hafter => ⟨_, hafter, fun strand hstrand => ?_⟩
  exact (List.mem_append.1 hstrand).elim (hlast strand) (hmore strand)

end Encoder

/-! ## Literals of carriers -/

namespace Ledger

variable {brief : Brief} {edge : Instant} {first : Nat} {ledger later : Ledger}

/-- All carriers have atoms of their own, which have been handed out. -/
structure Apart (ledger : Ledger) : Prop where
  distinct : (ledger.carriers.map Carrier.lit).Nodup
  below : ∀ record ∈ ledger.carriers, record.lit.atom < ledger.next

theorem Apart.keep (h : ledger.Apart) (hcarriers : later.carriers = ledger.carriers)
    (hnext : ledger.next ≤ later.next) : later.Apart := by
  refine ⟨hcarriers ▸ h.distinct, fun record hrecord => ?_⟩
  rw [hcarriers] at hrecord
  exact Nat.lt_of_lt_of_le (h.below record hrecord) hnext

/-- A carrier gets a new atom. -/
theorem Apart.carry (h : ledger.Apart) (f : Formula) (origin t : Nat) (earlier : Option Lit)
    (witness : Lit) : (ledger.carry f origin t earlier witness).Apart := by
  refine ⟨?_, fun record hrecord => ?_⟩
  · show ((ledger.carriers ++ [Carrier.mk f origin t ⟨ledger.next, false⟩]).map Carrier.lit).Nodup
    rw [List.map_append]
    refine List.nodup_append.2 ⟨h.distinct, List.pairwise_singleton _ _, ?_⟩
    rintro l hl _ hl' rfl
    obtain ⟨record, hrecord, rfl⟩ := List.mem_map.1 hl
    have hlt := h.below record hrecord
    rw [List.mem_singleton.1 hl'] at hlt
    exact Nat.lt_irrefl _ hlt
  · rcases List.mem_append.1 hrecord with hrecord | hrecord
    · exact Nat.lt_succ_of_lt (h.below record hrecord)
    · rw [List.mem_singleton.1 hrecord]
      exact Nat.lt_succ_self _

theorem HeadMove.apart (hm : HeadMove brief edge first ledger later) (h : ledger.Apart) :
    later.Apart := by
  cases hm with
  | body hm => exact h.keep hm.frame.2.2.1 hm.grows.next
  | demand _ _ _ _ | duty _ _ _ | defer _ _ _ | rest _ _ _ _ _ _ => exact ⟨h.distinct, h.below⟩
  | carry _ _ _ _ _ _ => exact h.carry _ _ _ _ _

theorem HeadMoves.apart (hm : HeadMoves brief edge first ledger later) (h : ledger.Apart) :
    later.Apart := by
  induction hm with
  | refl => exact h
  | tail _ hmove ih => exact hmove.apart ih

theorem ReachMoves.apart {a b : List Boundary × Ledger} (hm : ReachMoves brief edge first a b)
    (h : a.2.Apart) : b.2.Apart := by
  induction hm with
  | refl => exact h
  | tail _ hmove ih =>
    cases hmove with
    | head hm => exact hm.apart ih
    | tie _ | settle _ _ => exact ⟨ih.distinct, ih.below⟩

/-- A request that binds nothing. -/
theorem Passes.apart {theory : Theory} {log log' : Log} {edge edge' : Option Instant}
    {request : Request} (hp : Passes theory log edge ledger request log' edge' later)
    (hplain : log'.bound = []) (h : ledger.Apart) : later.Apart := by
  cases hp with
  | refused => exact h
  | reached _ hreaches =>
    have hcleared : ledger.cleared.Apart := ⟨h.distinct, h.below⟩
    exact ReachMoves.apart hreaches.extending.moves hcleared
  | closed _ hcloses =>
    have hmiddle := hcloses.moves.apart h
    exact ⟨hmiddle.distinct, hmiddle.below⟩
  | answered _ _ hm _ => exact h.keep hm.frame.2.2.1 hm.grows.next
  | demanded _ _ hm _ _ => exact hm.apart h
  | bound _ _ => cases hplain
  | supplied => exact h.keep rfl (Nat.le_succ _)

/-- What has been bound stays bound. -/
theorem Passes.bound_eq_nil {theory : Theory} {log log' : Log} {edge edge' : Option Instant}
    {request : Request} (hp : Passes theory log edge ledger request log' edge' later)
    (hplain : log'.bound = []) : log.bound = [] := by
  cases hp with
  | bound _ _ => cases hplain
  | _ => exact hplain

end Ledger

/-! ## Sessions -/

/-- Whether a request may start or advance instances. -/
def Request.unrolls : Request → Bool
  | .extend | .close _ | .require _ _ => true
  | .encode _ _ | .bind _ _ _ | .newLiteral => false

/-- Other requests, as long as they bind nothing, leave instances and carriers alone. -/
theorem Ledger.Passes.frame {theory : Theory} {log log' : Log} {edge edge' : Option Instant}
    {ledger later : Ledger} {request : Request}
    (hp : Passes theory log edge ledger request log' edge' later) (hplain : log'.bound = [])
    (hquiet : request.unrolls = false) :
    ledger.Keeps later ∧ later.carriers = ledger.carriers ∧ later.required = ledger.required ∧
      later.edge.instances = ledger.edge.instances ∧ edge' = edge := by
  cases hp with
  | refused => exact ⟨.refl _, rfl, rfl, rfl, rfl⟩
  | reached _ _ | closed _ _ | demanded _ _ _ _ _ => cases hquiet
  | answered _ _ hm _ =>
    obtain ⟨-, hinstances, hcarriers, hrequired⟩ := hm.frame
    exact ⟨hm.grows.toKeeps, hcarriers, hrequired, hinstances, rfl⟩
  | bound _ _ => cases hplain
  | supplied => exact ⟨ledger.keeps_supplied, rfl, rfl, rfl, rfl⟩

namespace Session

variable {theory : Theory} {session : Session} {strands : List Strand}

theorem Proper.fit (h : Proper theory session) : session.unrolling.encoder.Fit := by
  obtain ⟨role, hsound, -⟩ := h.standing.accounted
  refine ⟨h.tidy, fun f s hpath => ?_⟩
  cases f with
  | dynamic modality path arg =>
    rw [Option.eq_none_iff_forall_not_mem]
    intro l hl
    rcases hsound.apt _ _ _ hl with hatom | ⟨hf, -⟩
    · cases hatom
    · have hpath : path.isNormal = false := hpath
      rw [Formula.malformedPath?, hpath] at hf
      cases hf
  | _ => cases hpath

/-- The strands of a session: they account for all carriers and instances, they have come to
the edge, and as long as the edge is open their instances are on it. -/
structure Tracked (session : Session) (strands : List Strand) : Prop where
  woven : session.ledger.Woven strands
  last : ∀ strand ∈ strands, strand.inst.last = session.edge.index
  instances : session.unrolling.isClosed = false →
    session.unrolling.encoder.edge.instances = strands.map Strand.inst

namespace Tracked

theorem mounted (h : Tracked session strands) (hproper : Proper theory session)
    (hopen : session.unrolling.isClosed = false) :
    Encoder.Mounted session.rules strands session.unrolling.encoder :=
  ⟨hproper.fit, h.woven, h.instances hopen⟩

/-- There are no strands before the first step. -/
theorem reached (h : Tracked session strands) (hproper : Proper theory session) {strand : Strand}
    (hstrand : strand ∈ strands) : ∃ edge, session.unrolling.edge = some edge := by
  cases hedge : session.unrolling.edge with
  | some edge => exact ⟨edge, rfl⟩
  | none =>
    have hunrolled : strand.inst.formula.IsUnrolled :=
      ⟨_, _, _, (h.woven.complete strand hstrand).unrolls⟩
    have hrequired := (h.woven.required _ _ _ hunrolled).2 (List.mem_map_of_mem hstrand)
    exact absurd hrequired ((hproper.standing.untouched hedge).2 _ _ _)

/-- The strands end just before the next step. -/
theorem last_succ (h : Tracked session strands) (hproper : Proper theory session) {strand : Strand}
    (hstrand : strand ∈ strands) : strand.inst.last + 1 = session.unrolling.nextStep := by
  obtain ⟨edge, hedge⟩ := h.reached hproper hstrand
  rw [h.last strand hstrand, session.unrolling.nextStep_eq, Session.edge, hedge]
  rfl

/-- A request that changes neither carriers nor requirements nor instances. -/
theorem keep (h : Tracked session strands) {request : Request}
    (hkeeps : session.ledger.Keeps (session.perform request).ledger)
    (hcarriers : (session.perform request).ledger.carriers = session.ledger.carriers)
    (hrequired : (session.perform request).ledger.required = session.ledger.required)
    (hinstances : (session.perform request).ledger.edge.instances = session.ledger.edge.instances)
    (hedge : (session.perform request).unrolling.edge = session.unrolling.edge) :
    Tracked (session.perform request) strands := by
  refine ⟨h.woven.keep hkeeps hcarriers hrequired, ?_, fun hopen =>
    hinstances.trans (h.instances ?_)⟩
  · rw [Session.edge, hedge]
    exact h.last
  · unfold Unrolling.isClosed at hopen ⊢
    rwa [hedge] at hopen

/-- A request that has been granted, with the strands that the encoder has then. -/
theorem granted (edge : Instant) {request : Request} {after : Encoder} {log : Log}
    {history : List Batch}
    (hperform : session.perform request =
      { log with
        unrolling :=
          { session.unrolling with
            encoder := { after with rules := [] }, edge := some edge, history := history }
        rules := session.rules ++ after.rules })
    (hwoven : (after.ledger session.rules).Woven strands)
    (hlast : ∀ strand ∈ strands, strand.inst.last = edge.index)
    (hinstances : edge.last = false → after.edge.instances = strands.map Strand.inst) :
    Tracked (session.perform request) strands := by
  rw [← Encoder.ledger_taken] at hwoven
  rw [hperform]
  exact ⟨hwoven, hlast, hinstances⟩

theorem extend (h : Tracked session strands) (hproper : Proper theory session) :
    ∃ strands', Tracked (session.perform .extend) strands' := by
  cases hclosed : session.unrolling.isClosed with
  | true =>
    obtain ⟨cause, hrefused⟩ := Unrolling.extend_refused hclosed
    have hsame : session.perform .extend = session := by simp only [Session.perform, hrefused]
    exact ⟨strands, hsame.symm ▸ h⟩
  | false =>
    obtain ⟨after, hok, -⟩ := hproper.sane.reachStep_ok hclosed
    have hreach := (h.mounted hproper hclosed).reachStep (fun _ hs => h.last_succ hproper hs) theory
    obtain ⟨strands', hmounted, hlast⟩ := hreach.of_ok hok
    rw [← hproper.theory_eq] at hok
    obtain ⟨history, hextend⟩ := Unrolling.extend_ok hclosed hok
    exact ⟨strands', .granted _ (by simp only [Session.perform, hextend]; rfl) hmounted.woven hlast
      fun _ => hmounted.instances⟩

theorem close (h : Tracked session strands) (hproper : Proper theory session) (k : Nat) :
    ∃ strands', Tracked (session.perform (.close k)) strands' := by
  by_cases hedge : session.unrolling.edge = some ⟨k, false⟩
  · have hopen : session.unrolling.isClosed = false := by
      rw [Unrolling.isClosed, hedge]
    have hlast : ∀ strand ∈ strands, strand.inst.last = k := fun strand hstrand => by
      rw [h.last strand hstrand, Session.edge, hedge]
      rfl
    obtain ⟨middle, after, hok, -, hledger, -⟩ := hproper.sane.closeStep_ok k
    obtain ⟨strands', hwoven, hlast'⟩ :=
      ((h.mounted hproper hopen).closeStep hlast theory).of_ok hok
    have hsettled : after.edge = {} := congrArg Ledger.edge hledger
    rw [← hproper.theory_eq] at hok
    obtain ⟨history, hclose⟩ := Unrolling.close_ok hedge hok hsettled
    exact ⟨strands', .granted ⟨k, true⟩ (by simp only [Session.perform, hclose]; rfl) hwoven hlast'
      nofun⟩
  · have hsame : session.perform (.close k) = session := by
      simp only [Session.perform, Unrolling.close_refused hedge]
    exact ⟨strands, hsame.symm ▸ h⟩

/-- A formula can be required also when the edge is closed; what is started then stays at the
edge, and is not advanced any more. -/
theorem require (h : Tracked session strands) (hproper : Proper theory session) (f : Formula)
    (s : Nat) : ∃ strands', Tracked (session.perform (.require f s)) strands' := by
  by_cases hgrants : session.unrolling.Grants f s
  · obtain ⟨hvalid, edge, hedge, hs⟩ := hgrants
    obtain ⟨after, hok, -⟩ := hproper.sane.require_encoder_ok hvalid hs
    have hspinning : Encoder.Spinning session.rules edge.index
        (Encoder.require ⟨edge.index, edge.last, .always⟩ f s []) session.unrolling.encoder :=
      .require hproper.fit _ f s []
    obtain ⟨more, hspins⟩ := Encoder.Leads.of_ok hspinning hok
    have hrequire : Unrolling.require f s session.unrolling = .ok after.rules
        { session.unrolling with encoder := { after with rules := [] } } :=
      (Unrolling.checked_granted hvalid hedge hs _).trans
        (Unrolling.withEncoder_takeRules hok fun _ rules => rules)
    refine ⟨strands ++ more, .granted edge
      (by simp only [Session.perform, hrequire, ← hedge]; rfl) (hspins.woven h.woven)
      (fun strand hstrand => ?_) fun hopen => ?_⟩
    · rcases List.mem_append.1 hstrand with hstrand | hstrand
      · rw [h.last strand hstrand, Session.edge, hedge]
        rfl
      · exact (hspins.complete strand hstrand).2
    · rw [hspins.instances, h.instances (by rw [Unrolling.isClosed, hedge]; exact hopen),
        List.map_append]
  · obtain ⟨cause, hrefused⟩ := Unrolling.checked_refused hgrants fun window => do
      Unrolling.withEncoder (Encoder.require window f s [])
      Unrolling.withEncoder Encoder.takeRules
    have hrefused : Unrolling.require f s session.unrolling = _ := hrefused
    have hsame : session.perform (.require f s) = session := by
      simp only [Session.perform, hrefused]
    exact ⟨strands, hsame.symm ▸ h⟩

/-- Any request that binds nothing. -/
theorem perform (h : Tracked session strands) (hproper : Proper theory session)
    (request : Request) (hplain : (session.perform request).bound = []) :
    ∃ strands', Tracked (session.perform request) strands' := by
  have hkeep : request.unrolls = false →
      ∃ strands', Tracked (session.perform request) strands' := by
    intro hquiet
    obtain ⟨hkeeps, hcarriers, hrequired, hinstances, hedge⟩ :=
      (hproper.sane.takes request).passes.frame hplain hquiet
    exact ⟨strands, h.keep hkeeps hcarriers hrequired hinstances hedge⟩
  cases request with
  | extend => exact h.extend hproper
  | close k => exact h.close hproper k
  | require f s => exact h.require hproper f s
  | encode f s | bind f s host | newLiteral => exact hkeep rfl

end Tracked

/-- The strands of a session without bindings. -/
theorem Reachable.tracked (h : Reachable theory session) (hplain : session.bound = []) :
    ∃ strands, Tracked session strands := by
  induction h with
  | start hstart =>
    obtain ⟨-, rfl⟩ := Unrolling.start_eq_ok_iff.1 hstart
    refine ⟨[], ⟨.nil, fun f s guard _ => ?_, .nil, nofun⟩, nofun, fun _ => rfl⟩
    refine iff_of_false ?_ nofun
    rintro ⟨id, -, hmem⟩
    cases hmem
  | @perform session request hreach _ ih =>
    have hproper := hreach.proper
    obtain ⟨strands, htracked⟩ := ih ((hproper.sane.takes request).passes.bound_eq_nil hplain)
    exact htracked.perform hproper request hplain

theorem Reachable.apart (h : Reachable theory session) (hplain : session.bound = []) :
    session.ledger.Apart := by
  induction h with
  | start hstart =>
    obtain ⟨-, rfl⟩ := Unrolling.start_eq_ok_iff.1 hstart
    exact ⟨.nil, nofun⟩
  | @perform session request hreach _ ih =>
    have hpasses := (hreach.proper.sane.takes request).passes
    exact hpasses.apart hplain (ih (hpasses.bound_eq_nil hplain))

end Session

/-! ## What carriers say -/

/-- The records of carriers from a step on. -/
theorem Carrier.mem_listFrom {f : Formula} {origin t : Nat} {lits : List Lit} {record : Carrier} :
    record ∈ listFrom f origin t lits ↔
      ∃ i l, lits[i]? = some l ∧ record = ⟨f, origin, t + i, l⟩ := by
  induction lits generalizing t with
  | nil => simp [listFrom]
  | cons lit rest ih =>
    rw [listFrom, List.mem_cons, ih]
    constructor
    · rintro (rfl | ⟨i, l, hl, rfl⟩)
      · exact ⟨0, lit, rfl, rfl⟩
      · exact ⟨i + 1, l, hl, by rw [Nat.add_right_comm, Nat.add_assoc]⟩
    · rintro ⟨i, l, hl, rfl⟩
      cases i with
      | zero =>
        cases hl
        exact .inl rfl
      | succ i => exact .inr ⟨i, l, hl, by rw [Nat.add_right_comm, Nat.add_assoc]⟩

theorem Carrier.map_step_listFrom (f : Formula) (origin t : Nat) (lits : List Lit) :
    (listFrom f origin t lits).map Carrier.step = List.range' t lits.length := by
  induction lits generalizing t with
  | nil => rfl
  | cons lit rest ih => exact congrArg (t :: ·) (ih (t + 1))

/-- The formula that settles an instance when it holds: the right operand of an until, and the
left operand of a release. -/
def Instance.witness (inst : Instance) : Formula := Ledger.witnessOf inst.op inst.lhs inst.rhs

namespace Ledger

variable {role : Nat → Role} {edge : Instant} {ledger : Ledger} {f rhs : Formula} {op : Fixpoint}
  {lhs : Option Formula} {origin : Nat} {guard lits : List Lit} {atoms : Set Nat}

/-- The witness of an instance has a literal at every step to which it has been unrolled. -/
theorem Spun.exists_witness (h : ledger.Spun f origin guard lits) (hf : f.Unrolls op lhs rhs)
    {i : Nat} (hi : i < lits.length) :
    ∃ w, ledger.lit (witnessOf op lhs rhs) (origin + i) = some w := by
  induction h with
  | start => cases hi
  | @step lits carrier _ hstepped ih =>
    rw [List.length_append, List.length_singleton] at hi
    rcases Nat.lt_or_eq_of_le (Nat.le_of_lt_succ hi) with hlt | rfl
    · exact ih hlt
    · obtain ⟨hunrolls, -, hw, -, -⟩ := hstepped
      obtain ⟨rfl, rfl, rfl⟩ := hf.unique hunrolls
      exact ⟨_, hw⟩

/-- A carrier is true if a witness has come: the rules carry it on from step to step. -/
theorem Spun.trueIn_of_witness (h : ledger.Spun f origin guard lits) (hf : f.Unrolls op lhs rhs)
    (hpos : ∀ record ∈ ledger.carriers, record.lit.negated = false) (hone : 1 ∉ atoms)
    (hrules : ∀ rule ∈ ledger.rules, rule.SatisfiedBy atoms) {i j : Nat} {l w : Lit}
    (hl : lits[i]? = some l) (hj : j ≤ i)
    (hw : ledger.lit (witnessOf op lhs rhs) (origin + j) = some w) (htrue : w.TrueIn atoms) :
    l.TrueIn atoms := by
  induction h generalizing i l with
  | start => cases hl
  | @step lits carrier _ hstepped ih =>
    rcases Nat.lt_or_ge i lits.length with hlt | hge
    · rw [List.getElem?_append_left hlt] at hl
      exact ih hl hj
    · -- The last carrier: the witness comes at its step, or the carrier before it is true.
      rw [List.getElem?_append_right hge, List.getElem?_singleton] at hl
      split at hl
      · cases hl
        obtain ⟨hunrolls, -, hlit, hposted, hmem⟩ := hstepped
        rw [Lit.trueIn_of_positive (hpos _ hmem)]
        obtain ⟨rfl, rfl, rfl⟩ := hf.unique hunrolls
        rcases Nat.lt_or_ge j lits.length with hbefore | hnow
        · have hat := List.getElem?_eq_getElem (show lits.length - 1 < lits.length by omega)
          rw [List.getLast?_eq_getElem?, hat] at hposted
          have hearlier := ih hat (by omega)
          exact (hposted _ (mem_carrierRules_earlier _ _ _)).mem_of_trueIn hone hrules hearlier
        · obtain rfl : j = lits.length := by omega
          rw [hw] at hlit
          cases hlit
          exact (hposted _ (mem_carrierRules_witness _ _ w)).mem_of_trueIn hone hrules htrue
      · cases hl

/-- An atom that waits for the next step is in use. -/
theorem ne_idle_of_awaited {free : List Nat}
    (hfree : ∀ a ∈ free, ∃ arg weak s, role a = .awaited arg weak s) :
    ∀ a ∈ free, role a ≠ .idle := by
  intro a ha hidle
  obtain ⟨arg, weak, s, hawaited⟩ := hfree a ha
  rw [hidle] at hawaited
  cases hawaited

/-- A carrier that is true records that a witness has come, at its step or before. -/
theorem Sound.witness_of_carrier (h : Sound role [] edge ledger) {others : List Rule}
    {free : List Nat} (hothers : ∀ rule ∈ others, ∀ a ∈ rule.head, ledger.IsGround a)
    (stable : StableModel ⟨ledger.rules ++ others, free⟩ atoms)
    (hfree : ∀ a ∈ free, ∃ arg weak s, role a = .awaited arg weak s)
    (hf : f.Unrolls op lhs rhs) {t : Nat} {l : Lit} (hrecord : ⟨f, origin, t, l⟩ ∈ ledger.carriers)
    (htrue : l.TrueIn atoms) :
    ∃ j w, origin ≤ j ∧ j ≤ t ∧ ledger.lit (witnessOf op lhs rhs) j = some w ∧ w.TrueIn atoms := by
  induction t using Nat.strongRecOn generalizing l with
  | ind t ih =>
    obtain ⟨hpos, hrole⟩ := h.carriers _ hrecord
    dsimp only at hpos hrole
    have hbound : l.atom ∉ free := by
      intro hmem
      obtain ⟨arg, weak, s, hawaited⟩ := hfree _ hmem
      rw [hrole] at hawaited
      cases hawaited
    obtain ⟨raw, hderives, hbody⟩ := h.derived hothers stable (ne_idle_of_awaited hfree)
      ((Lit.trueIn_of_positive hpos).1 htrue) hbound
    -- The rule that derives the carrier has the carrier before it, or the witness, in its body.
    cases hderives with
    | ground ha | chosen ha | tie ha _ _ | ending ha _ =>
      rw [hrole] at ha
      cases ha
    | carried ha ho hc =>
      rw [hrole] at ha
      cases ha
      obtain ⟨j, w, hj, hle, hw⟩ :=
        ih _ (Nat.lt_succ_self _) hc (hbody _ (List.mem_singleton.2 rfl))
      exact ⟨j, w, hj, Nat.le_succ_of_le hle, hw⟩
    | settled hunrolls ha ho hw =>
      rw [hrole] at ha
      cases ha
      obtain ⟨rfl, rfl, rfl⟩ := hf.unique hunrolls
      exact ⟨t, _, ho, Nat.le_refl t, hw, hbody _ (List.mem_singleton.2 rfl)⟩

section Strand

variable {strand : Strand}

theorem Complete.exists_witness (h : ledger.Complete strand) :
    ∃ witness : Nat → Lit, ∀ j, strand.inst.origin ≤ j → j ≤ strand.inst.last →
      ledger.lit strand.inst.witness j = some (witness j) := by
  refine ⟨fun j => (ledger.lit strand.inst.witness j).getD Lit.falsity, fun j hj hle => ?_⟩
  have hlength := h.length_eq
  obtain ⟨i, rfl⟩ := Nat.exists_eq_add_of_le hj
  obtain ⟨w, hw⟩ := h.spun.exists_witness h.unrolls (show i < strand.lits.length by omega)
  have hw : ledger.lit strand.inst.witness (strand.inst.origin + i) = some w := hw
  simp only [hw, Option.getD_some]

/-- A carrier of a strand is true exactly if the witness has come, at its step or before. -/
theorem Complete.carrier_iff (hcomplete : ledger.Complete strand) (h : Sound role [] edge ledger)
    {others : List Rule} {free : List Nat}
    (hothers : ∀ rule ∈ others, ∀ a ∈ rule.head, ledger.IsGround a)
    (stable : StableModel ⟨ledger.rules ++ others, free⟩ atoms)
    (hfree : ∀ a ∈ free, ∃ arg weak s, role a = .awaited arg weak s) {record : Carrier}
    (hrecord : record ∈ strand.records) (hmem : record ∈ ledger.carriers) :
    record.lit.TrueIn atoms ↔ ∃ j w, strand.inst.origin ≤ j ∧ j ≤ record.step ∧
      ledger.lit strand.inst.witness j = some w ∧ w.TrueIn atoms := by
  obtain ⟨i, l, hl, rfl⟩ := Carrier.mem_listFrom.1 hrecord
  constructor
  · exact h.witness_of_carrier hothers stable hfree hcomplete.unrolls hmem
  · rintro ⟨j, w, hj, hle, hw, htrue⟩
    obtain ⟨j, rfl⟩ := Nat.exists_eq_add_of_le hj
    have hpos : ∀ record ∈ ledger.carriers, record.lit.negated = false := fun record hr =>
      (h.carriers record hr).1
    have hrules : ∀ rule ∈ ledger.rules, rule.SatisfiedBy atoms := fun rule hr =>
      stable.satisfied rule (List.mem_append_left _ hr)
    have hone : 1 ∉ atoms := h.one_notMem hothers stable (ne_idle_of_awaited hfree)
    exact hcomplete.spun.trueIn_of_witness hcomplete.unrolls hpos hone hrules hl
      (Nat.le_of_add_le_add_left hle) hw htrue

end Strand
end Ledger

namespace Session

variable {theory : Theory} {session : Session} {strands : List Strand}

/-- The strands of a session: one for each instance that has been required, with its formula,
origin and guard.  They have one carrier for each step from the origin to the edge, together
they have all carriers, and all carriers have different literals. -/
structure Recorded [Arithmetic] (session : Session) (strands : List Strand) : Prop where
  owners : ∀ f origin guard, f.IsUnrolled →
    (session.ledger.required f origin guard ↔ (f, origin, guard) ∈ strands.map Strand.owner)
  unrolls : ∀ strand ∈ strands,
    strand.inst.formula.Unrolls strand.inst.op strand.inst.lhs strand.inst.rhs
  distinct : (strands.map Strand.owner).Nodup
  carriers : session.unrolling.encoder.carriers.Perm (strands.flatMap Strand.records)
  reached : ∀ strand ∈ strands, strand.inst.origin ≤ session.edge.index
  steps : ∀ strand ∈ strands, strand.records.map Carrier.step =
    List.range' strand.inst.origin (session.edge.index + 1 - strand.inst.origin)
  literals : (session.unrolling.encoder.carriers.map Carrier.lit).Nodup

/-- What the strands account for does not depend on the arithmetic. -/
theorem Recorded.of_exact [Arithmetic] (h : @Recorded .exact session strands) :
    Recorded session strands := by
  obtain ⟨howners, hunrolls, hdistinct, hcarriers, hreached, hsteps, hliterals⟩ := h
  exact ⟨howners, hunrolls, hdistinct, hcarriers, hreached, hsteps, hliterals⟩

/-- A literal that is in the ledger is returned, without any rules, and nothing is numbered. -/
theorem Proper.encode_found (h : Proper theory session) {f : Formula} {s : Nat} {l : Lit}
    {edge : Instant} (hedge : session.unrolling.edge = some edge) (hs : s ≤ edge.index)
    (hl : session.ledger.lit f s = some l) :
    ∃ later, Unrolling.encode f s session.unrolling = .ok (l, []) later ∧
      later.Grows session.unrolling := by
  have hwell : f.malformedPath? = none := by
    obtain ⟨role, hsound, -⟩ := h.standing.accounted
    cases hatom : f.isAtom with
    | true =>
      cases f with
      | atom name args positive => rfl
      | _ => cases hatom
    | false =>
      rw [Ledger.lit, hatom] at hl
      exact ((hsound.apt f s l hl).resolve_left (by rw [hatom]; exact Bool.false_ne_true)).1
  have hvalid : validate .always f = .ok () := by
    rw [validate, hwell]
    rfl
  obtain ⟨hits, hok⟩ := @Encoder.encode_found _ session.unrolling.encoder f s l
    ⟨edge.index, edge.last, .always⟩ hs hl
  have hanswer := Unrolling.withEncoder_takeRules hok Prod.mk
  rw [h.taken] at hanswer
  exact ⟨_, (Unrolling.checked_granted hvalid hedge hs _).trans hanswer,
    ⟨⟨Nat.le_refl _, Nat.le_refl _⟩, Nat.le_refl _⟩⟩

theorem Tracked.recorded (h : Tracked session strands) (hapart : session.ledger.Apart) :
    Recorded session strands where
  owners := h.woven.required
  unrolls := fun strand hstrand => (h.woven.complete strand hstrand).unrolls
  distinct := h.woven.distinct
  carriers := h.woven.carriers
  reached := fun strand hstrand =>
    h.last strand hstrand ▸ (h.woven.complete strand hstrand).origin_le
  steps := fun strand hstrand => by
    have hlength := (h.woven.complete strand hstrand).length_eq
    rw [h.last strand hstrand] at hlength
    rw [← hlength, Nat.add_sub_cancel_left]
    exact Carrier.map_step_listFrom _ _ _ _
  literals := hapart.distinct

/-- The strands of a session, with the literals of their witnesses, and what their carriers say
in a stable model. -/
theorem Reachable.exists_recorded (h : Reachable theory session) (hplain : session.bound = []) :
    ∃ strands, Recorded session strands ∧ ∀ strand ∈ strands, ∃ witness : Nat → Lit,
      (∀ j, strand.inst.origin ≤ j → j ≤ session.edge.index → ∃ later,
        Unrolling.encode strand.inst.witness j session.unrolling = .ok (witness j, []) later ∧
          later.Grows session.unrolling) ∧
      ∀ (others : List Rule) (atoms : Set Nat),
        (∀ rule ∈ others, ∀ a ∈ rule.head, session.ledger.IsGround a) →
        StableModel ⟨session.rules ++ others, session.waiting⟩ atoms →
        ∀ record ∈ strand.records, (record.lit.atom ∈ atoms ↔
          ∃ j, strand.inst.origin ≤ j ∧ j ≤ record.step ∧ (witness j).TrueIn atoms) := by
  have hproper := h.proper
  obtain ⟨role, hsound, -⟩ := hproper.standing.accounted
  obtain ⟨strands, htracked⟩ := h.tracked hplain
  have hrecorded := htracked.recorded (h.apart hplain)
  refine ⟨strands, hrecorded, fun strand hstrand => ?_⟩
  obtain ⟨edge, hedge⟩ := htracked.reached hproper hstrand
  have hcomplete := htracked.woven.complete strand hstrand
  obtain ⟨witness, hwitness⟩ := hcomplete.exists_witness
  rw [htracked.last strand hstrand] at hwitness
  have hindex : session.edge.index = edge.index := by rw [Session.edge, hedge]; rfl
  refine ⟨witness, fun j hj hle => hproper.encode_found hedge (hindex ▸ hle) (hwitness j hj hle),
    fun others atoms hothers stable record hrecord => ?_⟩
  have hmem : record ∈ session.ledger.carriers :=
    hrecorded.carriers.mem_iff.2 (List.mem_flatMap.2 ⟨strand, hstrand, hrecord⟩)
  have hstep : record.step ≤ session.edge.index := by
    have hsteps := List.mem_map_of_mem (f := Carrier.step) hrecord
    rw [hrecorded.steps strand hstrand, List.mem_range'_1] at hsteps
    omega
  rw [← hproper.ledger_rules] at stable
  have hiff := hcomplete.carrier_iff hsound hothers stable (fun a ha => ?_) hrecord hmem
  · rw [← Lit.trueIn_of_positive (hsound.carriers record hmem).1, hiff]
    constructor
    · rintro ⟨j, w, hj, hle, hw, htrue⟩
      rw [hwitness j hj (Nat.le_trans hle hstep)] at hw
      cases hw
      exact ⟨j, hj, hle, htrue⟩
    · rintro ⟨j, hj, hle, htrue⟩
      exact ⟨j, witness j, hj, hle, hwitness j hj (Nat.le_trans hle hstep), htrue⟩
  · -- What is free waits for the next step.
    obtain ⟨external, hexternal, rfl⟩ := List.mem_map.1 ha
    obtain ⟨b, hb, rfl⟩ := List.mem_map.1 hexternal
    obtain ⟨s, -, hrole⟩ := (hsound.boundaries b (List.mem_append_left _ hb)).role_eq
    exact ⟨_, _, s, hrole⟩

end Session
end Exact

namespace Session

/-- **Carriers record exactly the past witnesses.**  In a session without bindings each until,
and each release with two operands, that has been required at an origin with a guard owns exactly
one carrier for each step from the origin to the edge, and all carriers have different literals.
At each of these steps the witness of the instance has a literal.  Whatever other rules for ground
atoms are added, in every stable model with the waiting atoms free a carrier is true exactly if the
witness is true at some step from the origin to that of the carrier.  The session must be in
range. -/
theorem Reachable.exists_strands [Arithmetic] {theory : Theory} {session : Session}
    (h : Reachable theory session) (hrange : session.InRange) (hplain : session.bound = []) :
    ∃ strands, Recorded session strands ∧ ∀ strand ∈ strands, ∃ witness : Nat → Lit,
      (∀ j, strand.inst.origin ≤ j → j ≤ session.edge.index → ∃ later,
        Unrolling.encode strand.inst.witness j session.unrolling = .ok (witness j, []) later) ∧
      ∀ (others : List Rule) (atoms : Set Nat),
        (∀ rule ∈ others, ∀ a ∈ rule.head, session.ledger.IsGround a) →
        StableModel ⟨session.rules ++ others, session.waiting⟩ atoms →
        ∀ record ∈ strand.records, (record.lit.atom ∈ atoms ↔
          ∃ j, strand.inst.origin ≤ j ∧ j ≤ record.step ∧ (witness j).TrueIn atoms) := by
  obtain ⟨strands, hrecorded, hcarried⟩ := (h.exact hrange).exists_recorded hplain
  refine ⟨strands, hrecorded.of_exact, fun strand hstrand => ?_⟩
  obtain ⟨witness, hanswers, hiff⟩ := hcarried strand hstrand
  refine ⟨witness, fun j hj hle => ?_, hiff⟩
  -- What is found is not numbered again, so the answer is in range with the session.
  obtain ⟨later, hok, hsame⟩ := hanswers j hj hle
  have hlater : (stateAfter (@Unrolling.encode .exact strand.inst.witness j)
      session.unrolling).InRange := by
    rw [stateAfter_ok hok]
    exact Unrolling.InRange.of_grows hrange hsame
  exact ⟨later, ((Unrolling.agrees_encode _ _ _).agree (.inr hlater)).trans hok⟩

/-- An until over two steps whose right operand holds at the first one. -/
theorem exists_strands_untl :
    let p := Formula.atom "p" [] true
    let q := Formula.atom "q" [] true
    let f := Formula.temporal .untl p q
    let theory : Theory := ⟨[(.initial, f)]⟩
    let session := after theory [.extend, .extend]
    Reachable theory session ∧ session.InRange ∧ session.bound = [] ∧
      session.unrolling.encoder.carriers = [⟨f, 0, 0, ⟨5, false⟩⟩, ⟨f, 0, 1, ⟨9, false⟩⟩] ∧
      StableModel ⟨session.rules ++ [], session.waiting⟩ {3, 4, 5, 9} ∧
      ∃ strands, Recorded session strands ∧ ∃ strand ∈ strands, strand.owner = (f, 0, []) ∧
        ∃ witness : Nat → Lit,
          (∀ j, strand.inst.origin ≤ j → j ≤ session.edge.index → ∃ later,
            Unrolling.encode strand.inst.witness j session.unrolling = .ok (witness j, []) later) ∧
          ∀ record ∈ strand.records, (record.lit.atom ∈ ({3, 4, 5, 9} : Set Nat) ↔
            ∃ j, strand.inst.origin ≤ j ∧ j ≤ record.step ∧
              (witness j).TrueIn ({3, 4, 5, 9} : Set Nat)) := by
  intro p q f theory session
  have hreach : Reachable theory session := reachable_after rfl (by decide)
  have hrange : session.InRange := by decide +kernel
  have hplain : session.bound = [] := by decide +kernel
  have hcarriers : session.unrolling.encoder.carriers =
      [⟨f, 0, 0, ⟨5, false⟩⟩, ⟨f, 0, 1, ⟨9, false⟩⟩] := by decide +kernel
  have hrules : session.rules = [.disjunctive [2, 3] [], .normal 3 [⟨4, true⟩],
      .normal 5 [⟨3, false⟩], .fact 4, .disjunctive [6, 7] [⟨5, true⟩],
      .normal 7 [⟨8, true⟩, ⟨5, true⟩], .normal 9 [⟨5, false⟩], .normal 9 [⟨7, false⟩]] := by
    decide +kernel
  have hstable : StableModel ⟨session.rules ++ [], session.waiting⟩ {3, 4, 5, 9} := by
    rw [hrules]
    refine ⟨?_, fun part hpart hreduct _ => Set.Subset.antisymm hpart ?_⟩
    · simp [Rule.SatisfiedBy, Rule.disjunctive, Rule.normal, Rule.fact, Lit.TrueIn]
    · obtain ⟨hfirst, hfive, hfour, hnine⟩ : (2 ∈ part ∨ 3 ∈ part) ∧ (3 ∈ part → 5 ∈ part) ∧
          4 ∈ part ∧ (5 ∈ part → 9 ∈ part) ∧ (7 ∈ part → 9 ∈ part) := by
        simpa [Rule.ReductSatisfiedBy, Rule.ReductBody, Rule.disjunctive, Rule.normal, Rule.fact]
          using hreduct
      have hthree : 3 ∈ part := hfirst.resolve_left fun htwo => by simpa using hpart htwo
      rintro a (rfl | rfl | rfl | rfl)
      · exact hthree
      · exact hfour
      · exact hfive hthree
      · exact hnine.1 (hfive hthree)
  obtain ⟨strands, hrecorded, hcarried⟩ := hreach.exists_strands hrange hplain
  have hrequired : session.ledger.required f 0 [] := ⟨⟨2⟩, by decide +kernel, by decide +kernel⟩
  obtain ⟨strand, hstrand, howner⟩ :=
    List.mem_map.1 ((hrecorded.owners f 0 [] ⟨_, _, _, .untl p q⟩).1 hrequired)
  obtain ⟨witness, hanswers, hiff⟩ := hcarried strand hstrand
  exact ⟨hreach, hrange, hplain, hcarriers, hstable, strands, hrecorded, strand, hstrand, howner,
    witness, hanswers, hiff [] _ (List.forall_mem_nil _) hstable⟩

end Session
end TemporalHorizon

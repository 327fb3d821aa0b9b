import TemporalHorizon.Proofs.Acts

/-!
# What a request files

A request writes into two tables, the cache of representatives and the table of ground
atoms, and it may be cut off by a failure at any point.  Whatever its outcome, each entry
that it has made says why it is there.

* `Encoder.Filing`: one step of a request.  An entry is made for a formula at a step of a
  given scope; a literal that is shared has its source among the literals so far, and an
  external is opened at an open edge only.
* `Encoder.Inclusive`: a scope that includes what its members ask for.
* `Encoder.Files.encode`: a request in an inclusive scope comes to filings.
* `Encoder.groundAtom_eq`: what is done for a ground atom, all at once.
-/

namespace TemporalHorizon

attribute [local instance] Arithmetic.exact

namespace Encoder

/-! ## Ground atoms -/

/-- The rules that exclude the atom of the opposite sign when an atom is entered. -/
def exclusions (e : Encoder) (f : Formula) (step : Nat) : List Rule :=
  ((e.opposite? f step).bind fun other => simplify? (.constraint [e.supply.fresh.1, other])).toList

/-- The encoder after an atom has been entered under a key. -/
def entered (e : Encoder) (f : Formula) (key : Key) : Encoder :=
  { e with
    supply := e.supply.fresh.2
    ground :=
      { literals := e.ground.literals.insert key e.supply.fresh.1
        owners := e.ground.owners.insert e.supply.next key }
    rules := e.rules ++ e.exclusions f key.step }

theorem get?_entered (e : Encoder) (f : Formula) (key other : Key) :
    (e.entered f key).ground.get? other =
      if key = other then some e.supply.fresh.1 else e.ground.get? other :=
  Table.get?_insert _ _ _ _

theorem ground_entered {e : Encoder} {f : Formula} {key : Key} (hn : e.Names key f key.step) :
    ((e.entered f key).ledger []).ground =
      (e.ledger []).ground.put f key.step (some e.supply.fresh.1) :=
  Sheet.ofTable_put hn.number fun other => get?_entered e f key other

/-- Entering an atom does not enter the opposite one. -/
theorem opposite?_entered {e : Encoder} {f : Formula} {key : Key} (hn : e.Names key f key.step) :
    (e.entered f key).opposite? f key.step = e.opposite? f key.step := by
  rw [opposite?_eq [], opposite?_eq [],
    ← opposite?_put (e.ledger []) f key.step (e.supply.next + 1) (some e.supply.fresh.1),
    ← ground_entered hn]
  cases f <;> rfl

/-- A new atom is handed out, entered and set against the opposite one at one go. -/
theorem enter_ok {e : Encoder} {f : Formula} {key : Key} (hn : e.Names key f key.step)
    (hfree : e.ground.get? key = none) :
    (do
      let lit ← fresh
      enterGround key lit
      excludeOpposite f key.step lit
      return lit) e = .ok e.supply.fresh.1 (e.entered f key) := by
  have hfresh : fresh e = .ok e.supply.fresh.1 { e with supply := e.supply.fresh.2 } := rfl
  have hinsert : e.ground.insert key e.supply.fresh.1 = .ok (e.entered f key).ground := by
    unfold GroundTable.insert
    rw [hfree]
    rfl
  have henter : enterGround key e.supply.fresh.1 { e with supply := e.supply.fresh.2 } =
      .ok () { e.entered f key with rules := e.rules } := by
    unfold enterGround
    rw [bind_ok (get_ok _)]
    dsimp only
    rw [hinsert]
    rfl
  have hexclude : excludeOpposite f key.step e.supply.fresh.1
      { e.entered f key with rules := e.rules } = .ok () (e.entered f key) := by
    have hopposite : opposite? { e.entered f key with rules := e.rules } f key.step =
        e.opposite? f key.step := opposite?_entered hn
    unfold excludeOpposite
    rw [bind_ok (get_ok _), hopposite]
    unfold entered exclusions
    cases e.opposite? f key.step with
    | none =>
      rw [Option.bind_none, Option.toList_none, List.append_nil]
      rfl
    | some other => exact emit_ok _ _
  rw [bind_ok hfresh, bind_ok henter, bind_ok hexclude]
  rfl

/-- The literal of a ground atom is found, or the next atom becomes its literal. -/
theorem groundAtom_eq (e : Encoder) (f : Formula) (s : Nat) :
    groundAtom f s e = match (e.numbered f).ground.get? ⟨(e.store.intern f).1, s⟩ with
      | some lit => .ok lit (e.numbered f)
      | none => .ok e.supply.fresh.1 ((e.numbered f).entered f ⟨(e.store.intern f).1, s⟩) := by
  unfold groundAtom
  rw [bind_ok (keyOf_ok e f s), bind_ok (get_ok _)]
  cases hfree : (e.numbered f).ground.get? ⟨(e.store.intern f).1, s⟩ with
  | some lit => rfl
  | none => exact enter_ok (numbered_names e f s) hfree

/-- Asking for a ground atom leaves the representatives alone. -/
theorem cache_groundAtom (e : Encoder) (f : Formula) (s : Nat) :
    (stateAfter (groundAtom f s) e).cache = e.cache := by
  have hrun := groundAtom_eq e f s
  split at hrun
  · rw [stateAfter_ok hrun]
    rfl
  · rw [stateAfter_ok hrun]
    rfl

/-! ## Filings -/

/-- One step of a request in windows with the given edge.  What is filed is filed for
formulas at steps of the scope. -/
inductive Filing (edge : Instant) (scope : Formula → Nat → Prop) : Encoder → Encoder → Prop
  /-- A formula is numbered. -/
  | number {e} (f : Formula) : Filing edge scope e (e.numbered f)
  /-- A lookup is counted. -/
  | count {e} (hits misses : Nat) :
    Filing edge scope e { e with cache := { e.cache with hits := hits, misses := misses } }
  /-- A rule is emitted. -/
  | post {e} (rule : Rule) : Filing edge scope e { e with rules := e.rules ++ [rule] }
  /-- A ground atom is entered. -/
  | enter {e key f} : e.Names key f key.step → f.isAtom = true → scope f key.step →
    e.ground.get? key = none → Filing edge scope e (e.entered f key)
  /-- A literal is shared, or a host literal that is bound takes its place. -/
  | share {e key f} (lit : Lit) : e.Names key f key.step → scope f key.step →
    e.cache.entry? key = none → Sheet.Source (e.ledger []).lit edge f key.step lit →
    Filing edge scope e
      { e with cache := e.cache.write key ((e.cache.binding? key).getD lit) }
  /-- An atom is defined, new or bound. -/
  | define {e key f} (lit : Lit) (supply : Supply) : e.Names key f key.step → scope f key.step →
    e.cache.entry? key = none → f.isDefinedAt key.step = true → e.supply.next ≤ supply.next →
    Filing edge scope e { e with cache := e.cache.write key lit, supply := supply }
  /-- An external is opened, new or bound. -/
  | await {e key arg weak} (lit : Lit) (supply : Supply) : e.Names key (.next arg weak) key.step →
    scope (.next arg weak) key.step → e.cache.entry? key = none → edge.last = false →
    key.step = edge.index → e.supply.next ≤ supply.next →
    Filing edge scope e { e with
      cache := e.cache.write key lit
      supply := supply
      edge := e.edge.openBoundary ⟨lit, arg, key.step + 1, weak⟩ }

/-- A filing takes nothing back. -/
theorem Filing.endures {edge : Instant} {scope : Formula → Nat → Prop} {e after : Encoder}
    (h : Filing edge scope e after) : e.Endures after := by
  have hwrite : ∀ {key}, e.cache.entry? key = none → ∀ lit other l,
      e.cache.entry? other = some l → Cache.entry? (e.cache.write key lit) other = some l :=
    fun hnone lit => (Endures.write hnone lit).entry
  cases h with
  | number f => exact ⟨(e.store.intern_spec f).grown, fun _ _ h => h, fun _ _ h => h⟩
  | count | post => exact .frame rfl rfl rfl
  | enter _ _ _ hfree => exact ⟨.refl _, fun _ _ h => h, (Endures.enter hfree _ _).ground⟩
  | share _ _ _ hnone _ => exact ⟨.refl _, hwrite hnone _, fun _ _ h => h⟩
  | define _ _ _ _ hnone _ _ => exact ⟨.refl _, hwrite hnone _, fun _ _ h => h⟩
  | await _ _ _ _ hnone _ _ _ => exact ⟨.refl _, hwrite hnone _, fun _ _ h => h⟩

theorem endures_of_filings {edge : Instant} {scope : Formula → Nat → Prop} {e after : Encoder}
    (h : Relation.ReflTransGen (Filing edge scope) e after) : e.Endures after := by
  induction h with
  | refl => exact .refl e
  | tail _ hlast ih => exact ih.trans hlast.endures

/-- The scope includes what its members ask for.  The last step asks for a next step only
at an open edge. -/
structure Inclusive (edge : Instant) (scope : Formula → Nat → Prop) : Prop where
  request : ∀ f s, f ≠ .final → scope f s →
    ∀ request ∈ f.requests edge.index s, scope request.1 request.2
  final : scope .final edge.index → edge.last = false → scope .hasNext edge.index

/-- Everything is included in everything. -/
theorem inclusive_all (edge : Instant) : Inclusive edge fun _ _ => True :=
  ⟨fun _ _ _ _ _ _ => trivial, fun _ _ => trivial⟩

variable {edge : Instant} {scope : Formula → Nat → Prop}

/-! ## Tables -/

theorem files_groundAtom {f : Formula} {s : Nat} (hatom : f.isAtom = true) (hscope : scope f s) :
    Along (Filing edge scope) (groundAtom f s) := by
  intro e
  have hrun := groundAtom_eq e f s
  cases hfree : (e.numbered f).ground.get? ⟨(e.store.intern f).1, s⟩ with
  | some lit =>
    rw [hfree] at hrun
    rw [stateAfter_ok hrun]
    exact .single (.number f)
  | none =>
    rw [hfree] at hrun
    rw [stateAfter_ok hrun]
    exact .tail (.single (.number f)) (.enter (numbered_names e f s) hatom hscope hfree)

theorem files_lookup (key : Key) : Along (Filing edge scope) (lookup key) := by
  refine .modifyGet fun e => ?_
  dsimp only [Cache.lookup]
  split
  · exact .count _ _
  · exact .count _ _

theorem files_emit (rule : Rule) : Along (Filing edge scope) (emit rule) :=
  .posting (fun _ rule => .post rule) rule

theorem files_emitAll (rules : List Rule) : Along (Filing edge scope) (emitAll rules) :=
  .forM fun rule _ => files_emit rule

variable {e : Encoder} {key : Key} {f : Formula}

theorem files_share {lit : Lit} (hn : e.Names key f key.step) (hscope : scope f key.step)
    (hsource : Sheet.Source (e.ledger []).lit edge f key.step lit) :
    Relation.ReflTransGen (Filing edge scope) e (stateAfter (share key lit) e) := by
  unfold share
  rw [stateAfter_bind_ok (get_ok e)]
  cases hentry : e.cache.entry? key with
  | some old =>
    rw [Cache.share, hentry]
    exact .refl
  | none =>
    have hfile : Filing edge scope e
        { e with cache := e.cache.write key ((e.cache.binding? key).getD lit) } :=
      .share lit hn hscope hentry hsource
    rw [Cache.share, hentry, if_neg (by simp)]
    cases hbinding : e.cache.binding? key with
    | none =>
      rw [hbinding] at hfile
      exact .single hfile
    | some host =>
      rw [hbinding] at hfile
      have htie : Along (Filing edge scope) (tieHost host lit) :=
        .tying (fun _ rule => .post rule) host lit
      exact Along.bind_at (.single hfile) fun _ after _ => (htie.bind fun _ => .pure _) after

/-- What is known of the literal of a key that has none: it is new or bound. -/
theorem getOrCreate_ok (hnone : e.cache.entry? key = none) :
    ∃ lit supply, e.supply.next ≤ supply.next ∧ getOrCreate key e = .ok (lit, true)
      { e.missed with cache := e.missed.cache.write key lit, supply := supply } := by
  have hrun : getOrCreate key e = .ok (e.cache.getOrCreate key e.supply).1
    { e with
      cache := (e.cache.getOrCreate key e.supply).2.1
      supply := (e.cache.getOrCreate key e.supply).2.2 } := rfl
  rw [hrun]
  unfold Cache.getOrCreate Cache.lookup
  rw [hnone]
  dsimp only
  cases Cache.binding? { e.cache with misses := e.cache.misses + 1 } key with
  | some host => exact ⟨host, e.supply, Nat.le_refl _, rfl⟩
  | none => exact ⟨e.supply.fresh.1, e.supply.fresh.2, Nat.le_succ _, rfl⟩

theorem files_define (hn : e.Names key f key.step) (hscope : scope f key.step)
    (hdefined : f.isDefinedAt key.step = true) :
    Relation.ReflTransGen (Filing edge scope) e (stateAfter (define key) e) := by
  unfold define
  cases hentry : e.cache.entry? key with
  | some old =>
    rw [stateAfter_bind_ok (getOrCreate_old hentry)]
    exact .single (.count _ _)
  | none =>
    obtain ⟨lit, supply, hle, hcreate⟩ := getOrCreate_ok hentry
    have hfile : Filing edge scope e.missed
        { e.missed with cache := e.missed.cache.write key lit, supply := supply } :=
      .define lit supply ⟨hn.step_eq, hn.number⟩ hscope hentry hdefined hle
    refine .head (.count e.cache.hits (e.cache.misses + 1)) (.head hfile ?_)
    rw [stateAfter_bind_ok hcreate]
    exact Along.bind (.checkNew key true) (fun _ => .bind (files_emit _) fun _ => .pure _) _

theorem files_await {arg : Formula} {weak : Bool} (hn : e.Names key (.next arg weak) key.step)
    (hscope : scope (.next arg weak) key.step) (hnone : e.cache.entry? key = none)
    (hopen : edge.last = false) (hedge : key.step = edge.index) :
    Relation.ReflTransGen (Filing edge scope) e
      (stateAfter (getOrCreate key >>= fun answer =>
        openBoundary ⟨answer.1, arg, key.step + 1, weak⟩ >>= fun _ => pure answer.1) e) := by
  obtain ⟨lit, supply, hle, hcreate⟩ := getOrCreate_ok hnone
  have hfile : Filing edge scope e.missed { e.missed with
      cache := e.missed.cache.write key lit
      supply := supply
      edge := e.edge.openBoundary ⟨lit, arg, key.step + 1, weak⟩ } :=
    .await lit supply ⟨hn.step_eq, hn.number⟩ hscope hnone hopen hedge hle
  rw [stateAfter_bind_ok hcreate]
  exact .head (.count e.cache.hits (e.cache.misses + 1)) (.single hfile)

/-! ## Answers -/

/-- Requests in the scope come to filings, and what they return has been written down. -/
structure Files (edge : Instant) (scope : Formula → Nat → Prop) (rec : Encoding) : Prop where
  along : ∀ window f s, window.edge = edge → scope f s →
    Along (Filing edge scope) (rec window f s)
  records : ∀ window f s, Records f s (rec window f s)

theorem le_of_checkStep {window : Window} {s : Nat} {u : Unit} {after : Encoder}
    (hok : checkStep window s e = .ok u after) : s ≤ window.horizon := by
  by_contra hlt
  rw [checkStep_of_lt (Nat.lt_of_not_le hlt)] at hok
  cases hok

namespace Files

variable {rec : Encoding} {window : Window}

/-- What follows filings finds all that was filed before. -/
theorem after {α β : Type} {x : Encode α}
    (hx : Relation.ReflTransGen (Filing edge scope) e (stateAfter x e)) {next : α → Encode β}
    (hnext : ∀ a after, x e = .ok a after → e.Endures after →
      Relation.ReflTransGen (Filing edge scope) after (stateAfter (next a) after)) :
    Relation.ReflTransGen (Filing edge scope) e (stateAfter (x >>= next) e) :=
  Along.bind_at hx fun a after hok =>
    hnext a after hok (stateAfter_ok hok ▸ endures_of_filings hx)

/-- What follows a request may use the literal that it has returned. -/
theorem ask {α : Type} (h : Files edge scope rec) (hw : window.edge = edge) {g : Formula} {t : Nat}
    (hscope : scope g t) {next : Lit → Encode α}
    (hnext : ∀ lit after, e.Endures after → (after.ledger []).lit g t = some lit →
      Relation.ReflTransGen (Filing edge scope) after (stateAfter (next lit) after)) :
    Relation.ReflTransGen (Filing edge scope) e (stateAfter (rec window g t >>= next) e) :=
  after (h.along window g t hw hscope e) fun lit after hok hle =>
    hnext lit after hle (h.records window g t e lit after hok)

/-- A formula that shares the answer to one other request. -/
theorem ask_share (h : Files edge scope rec) (hw : window.edge = edge) {g : Formula} {t : Nat}
    (hrequest : scope g t) (value : Lit → Lit) (hn : e.Names key f key.step)
    (hscope : scope f key.step)
    (hsource : ∀ (lit : Sheet) y, lit g t = some y →
      Sheet.Source lit edge f key.step (value y)) :
    Relation.ReflTransGen (Filing edge scope) e
      (stateAfter (rec window g t >>= fun lit => share key (value lit)) e) :=
  h.ask hw hrequest fun lit _ hle hlit =>
    files_share (hn.mono hle.store) hscope (hsource _ lit hlit)

/-- The scope of a fixpoint includes its operands and the fixpoint at the adjacent step. -/
theorem encodeFixpoint (h : Files edge scope rec) (inclusive : Inclusive edge scope)
    (hw : window.edge = edge) {op : Fixpoint} {lhs : Option Formula} {rhs : Formula}
    (hf : f.IsFixpoint op lhs rhs) (hn : e.Names key f key.step) (hscope : scope f key.step)
    (hreached : key.step ≤ edge.index) :
    Relation.ReflTransGen (Filing edge scope) e
      (stateAfter (encodeFixpoint rec window f key op lhs rhs) e) := by
  have hfinal : f ≠ .final := by
    cases hf <;> exact nofun
  have hreached : key.step ≤ window.horizon := by
    subst hw
    exact hreached
  have hdefined : f.isDefinedAt key.step = (op.isFuture || key.step != 0) := by
    cases hf <;> rfl
  obtain ⟨hqr, hqf, hqp, hql⟩ := requests_of_isFixpoint (s := key.step) hf edge.index
  have hincluded := inclusive.request f key.step hfinal hscope
  refine h.ask hw (hincluded _ hqr) fun right e₁ hle₁ hright => ?_
  have hn₁ := hn.mono hle₁.store
  have hadjacent : ∀ e, Relation.ReflTransGen (Filing edge scope) e
      (stateAfter (encodeAdjacent rec window f op key.step) e) := by
    intro e
    unfold encodeAdjacent
    split
    · next hop => exact Along.map _ (h.along _ _ _ hw (hincluded _ (hqf hop))) e
    · next hop =>
      cases hback : window.shift key.step (-1) with
      | reached before =>
        have hs := (Window.eq_of_shift_back hback).1
        have hq := hincluded _ (hqp (by simpa using hop) (by omega))
        rw [hs, Nat.add_sub_cancel] at hq
        exact Along.map _ (h.along _ _ _ hw hq) e
      | beforeStart | pending _ | afterEnd => exact .refl
  refine after (hadjacent e₁) fun adjacent e₂ hok hle₂ => ?_
  have hsome := hdefined.trans (isSome_of_encodeAdjacent hreached hok).symm
  have hn₂ := hn₁.mono hle₂.store
  cases adjacent with
  | none =>
    have hpast : op.isFuture = false ∧ key.step = 0 := by simpa using hdefined.symm.trans hsome
    refine files_share hn₂ hscope ?_
    rw [hpast.2] at hright ⊢
    exact .fixpointStart hf hpast.1 (hle₂.lit hright)
  | some adjacent =>
    have hleft : Along (Filing edge scope) (encodeLeft rec window op lhs key.step) := by
      cases lhs with
      | none => exact .pure _
      | some lhs => exact h.along _ _ _ hw (hincluded _ (hql lhs rfl))
    refine after (hleft e₂) fun left e₃ _ hle₃ => ?_
    refine Along.bind_at (files_define (hn₂.mono hle₃.store) hscope hsome) fun x e₄ _ => ?_
    exact Along.bind (files_emitAll _) (fun _ => .pure _) e₄

/-- A composite formula at a reached step where it has no literal. -/
theorem encodeNew (h : Files edge scope rec) (inclusive : Inclusive edge scope)
    (hw : window.edge = edge) (hatom : f.isAtom = false) (hn : e.Names key f key.step)
    (hscope : scope f key.step) (hreached : key.step ≤ edge.index)
    (hnone : e.cache.entry? key = none) :
    Relation.ReflTransGen (Filing edge scope) e (stateAfter (encodeNew rec window f key) e) := by
  have hhorizon : window.horizon = edge.index := congrArg Instant.index hw
  have hclosed : window.closed = edge.last := congrArg Instant.last hw
  have hincluded := inclusive.request f key.step
  unfold Encoder.encodeNew
  dsimp only
  cases f with
  | atom name args positive => cases hatom
  | bool value => exact files_share hn hscope .bool
  | initial => exact files_share hn hscope .initial
  | final =>
    unfold Window.isLast
    rw [hhorizon, hclosed]
    dsimp only
    split
    · next hlast =>
      simp only [Bool.and_eq_true, beq_iff_eq] at hlast
      refine files_share hn hscope ?_
      rw [hlast.2]
      exact .last hlast.1
    · next hlast =>
      split
      · next hlt => exact files_share hn hscope (.notLast hlt)
      · next hlt =>
        have hedge : key.step = edge.index := by omega
        have hopen : edge.last = false := by simpa [hedge] using hlast
        have hrequest : scope Formula.hasNext key.step :=
          hedge ▸ inclusive.final (hedge ▸ hscope) hopen
        have hw' : (window.withStage .always).edge = edge := hw
        exact h.ask_share hw' hrequest (- ·) hn hscope fun _ _ => .atEdge
  | not arg =>
    have hrequest := hincluded (by simp) hscope (arg, key.step) (by simp [Formula.requests])
    exact h.ask_share hw hrequest (- ·) hn hscope fun _ _ => .not
  | binary op lhs rhs =>
    have hl := hincluded (by simp) hscope (lhs, key.step) (by simp [Formula.requests])
    have hr := hincluded (by simp) hscope (rhs, key.step) (by simp [Formula.requests])
    refine h.ask hw hl fun a e₁ hle₁ _ => h.ask hw hr fun b e₂ hle₂ _ => ?_
    have hn₂ := (hn.mono hle₁.store).mono hle₂.store
    refine Along.bind_at (files_define hn₂ hscope rfl) fun x e₃ _ => ?_
    exact Along.bind (files_emitAll _) (fun _ => .pure _) e₃
  | previous arg weak =>
    have hrequest := hincluded (by simp) hscope (arg, key.step - 1) (by simp [Formula.requests])
    dsimp only
    cases hs : key.step with
    | zero =>
      rw [window.shift_zero_back]
      exact files_share hn hscope (by rw [hs]; exact .previousStart)
    | succ before =>
      rw [Window.shift_succ_back (by omega)]
      rw [hs, Nat.add_sub_cancel] at hrequest
      refine h.ask_share hw hrequest id hn hscope fun lit y hy => ?_
      rw [hs]
      exact .previous hy
  | next arg weak =>
    refine after (Along.checkAhead _ _ e) fun _ e₁ hok _ => ?_
    obtain rfl : e₁ = e := eq_of_checkAhead hok
    rw [window.shift_one, Window.next, hhorizon, hclosed]
    by_cases hs : key.step + 1 ≤ edge.index
    · rw [if_pos hs]
      have hrequest := hincluded (by simp) hscope (arg, key.step + 1)
        (by simp [Formula.requests, Nat.lt_of_succ_le hs])
      exact h.ask_share hw hrequest id hn hscope fun _ _ => .next hs
    · have hedge : key.step = edge.index := by omega
      rw [if_neg hs]
      cases hlast : edge.last with
      | true =>
        refine files_share hn hscope ?_
        rw [hedge]
        exact .nextEnd hlast
      | false => exact files_await hn hscope hnone hlast hedge
  | initially arg =>
    have hrequest := hincluded (by simp) hscope (arg, 0) (by simp [Formula.requests])
    exact h.ask_share hw hrequest id hn hscope fun _ _ => .initially
  | temporal op lhs rhs => exact h.encodeFixpoint inclusive hw (.temporal op lhs rhs) hn hscope hreached
  | modal op arg => exact h.encodeFixpoint inclusive hw (.modal op arg) hn hscope hreached
  | dynamic modality path arg =>
    refine after (Along.checkPath _ _ e) fun _ e₁ hok hle₁ => ?_
    have hpath : path.isNormal = true := by
      by_contra hno
      unfold checkPath at hok
      rw [if_neg hno] at hok
      cases hok
    have hrequest := hincluded (by simp) hscope (Formula.unfoldPath modality path arg, key.step)
      (by simp [Formula.requests, hpath])
    exact h.ask_share hw hrequest id (hn.mono hle₁.store) hscope fun _ _ => .dynamic

theorem encodeStep (h : Files edge scope rec) (inclusive : Inclusive edge scope)
    (hw : window.edge = edge) {s : Nat} (hscope : scope f s) :
    Along (Filing edge scope) (encodeStep rec window f s) := by
  intro e
  refine Along.bind_at (Along.checkStep _ _ e) fun _ e₁ hok => ?_
  have hreached : s ≤ edge.index := hw ▸ le_of_checkStep hok
  cases hatom : f.isAtom with
  | true => exact files_groundAtom hatom hscope e₁
  | false =>
    rw [if_neg (by simp), stateAfter_bind_ok (keyOf_ok e₁ f s)]
    refine .head (.number f) (Along.bind_at (files_lookup _ _) fun found e₂ hlookup => ?_)
    cases found with
    | some lit => exact .refl
    | none =>
      obtain ⟨hstore, hnone⟩ := entry_of_lookup_none hlookup
      refine h.encodeNew inclusive hw hatom ⟨rfl, ?_⟩ hscope hreached hnone
      rw [hstore]
      exact (numbered_names e₁ f s).number

theorem encodeWithin (inclusive : Inclusive edge scope) (depth : Nat) :
    Files edge scope (encodeWithin depth) := by
  refine ⟨?_, fun window f s => .encodeWithin depth window⟩
  induction depth with
  | zero => exact fun window f s _ _ => .collapse _
  | succ depth ih =>
    exact fun window f s hw hscope =>
      encodeStep ⟨ih, fun window f s => .encodeWithin depth window⟩ inclusive hw hscope

/-- **A request in an inclusive scope files in the scope only.**  Each filing says what it is
for and where the literal comes from, whether the request succeeds or fails. -/
theorem encode (inclusive : Inclusive edge scope) : Files edge scope encode where
  along := fun window f s hw hscope => .bind (.modifyGet fun _ => .number f) fun _ =>
    (encodeWithin inclusive _).along window f s hw hscope
  records := fun window _ _ => .encode window

end Files
end Encoder
end TemporalHorizon

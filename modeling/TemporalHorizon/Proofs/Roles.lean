import Mathlib.Logic.Function.Basic
import TemporalHorizon.Proofs.Reaching

/-!
# What every atom is for

Each atom that is handed out gets one role: it stands for a ground atom, it is
chosen freely and fixed by constraints, it waits for a later step, or it is a
carrier.  A host literal has no role until it is bound, and takes a role when the
formula it is bound to is answered.  The roles are not part of the ledger; they are
kept beside it, and a ledger is `Sound` for an assignment of roles if

* every entry is `Backed`: it is the literal of its source or an atom in a role,
* every role is `Vouched`: the rules that its atoms need have been posted,
* every rule is `Emitted`: it belongs to a role or to a requirement.

Everything that is said about stable models later rests on these three and on
nothing else about the encoder.  The last part of the module shows that they are
kept by every move.
-/

namespace TemporalHorizon

attribute [local instance] Arithmetic.exact

/-- What an atom is for. -/
inductive Role where
  /-- Nothing yet: not handed out, or a host literal that has not been bound. -/
  | idle
  /-- A host literal that waits for a formula to be answered. -/
  | bound (f : Formula) (s : Nat)
  | ground (f : Formula) (s : Nat)
  /-- Chosen freely, and fixed by constraints. -/
  | chosen (f : Formula) (s : Nat)
  /-- Stands for the argument at the step after a step that was the edge. -/
  | awaited (arg : Formula) (weak : Bool) (s : Nat)
  | carrier (f : Formula) (origin t : Nat)

/-- Whether an atom keeps its role for good. -/
def Role.isSettled : Role → Bool
  | .idle | .bound _ _ => false
  | _ => true

/-- Settled roles are kept. -/
def Role.Kept (role role' : Nat → Role) : Prop :=
  ∀ a, (role a).isSettled = true → role' a = role a

theorem Role.Kept.refl (role : Nat → Role) : Role.Kept role role := fun _ _ => rfl

theorem Role.Kept.eq {role role' : Nat → Role} (h : Role.Kept role role') {a : Nat} {r : Role}
    (ha : role a = r) (hr : r.isSettled = true) : role' a = r := by
  subst ha
  exact h a hr

/-- Roles go on: settled ones are kept, and of the atoms handed out so far only the
bound ones may get another. -/
structure Role.Onward (next : Nat) (role role' : Nat → Role) : Prop where
  kept : Role.Kept role role'
  idle : ∀ a, a < next → role a = .idle → role' a = .idle

theorem Role.Onward.refl (next : Nat) (role : Nat → Role) : Role.Onward next role role :=
  ⟨.refl role, fun _ _ ha => ha⟩

theorem Role.Onward.trans {next next' : Nat} {a b c : Nat → Role} (hle : next ≤ next')
    (h : Role.Onward next a b) (h' : Role.Onward next' b c) : Role.Onward next a c := by
  refine ⟨fun x hx => ?_, fun x hlt hx => h'.idle x (Nat.lt_of_lt_of_le hlt hle) (h.idle x hlt hx)⟩
  have hb := h.kept x hx
  rw [h'.kept x (by rw [hb]; exact hx), hb]

/-- An atom that is not settled may be given a role. -/
theorem Role.kept_update {role : Nat → Role} {a : Nat} (h : (role a).isSettled = false)
    (r : Role) : Role.Kept role (Function.update role a r) := by
  intro b hb
  rw [Function.update_of_ne]
  rintro rfl
  rw [h] at hb
  cases hb

/-- The atom of a literal has been handed out. -/
structure Lit.InScope (next : Nat) (l : Lit) : Prop where
  pos : 0 < l.atom
  lt : l.atom < next

theorem Lit.InScope.mono {next next' : Nat} (h : next ≤ next') {l : Lit} (hl : l.InScope next) :
    l.InScope next' := ⟨hl.pos, Nat.lt_of_lt_of_le hl.lt h⟩

theorem Lit.InScope.neg {next : Nat} {l : Lit} (hl : l.InScope next) : (-l).InScope next :=
  ⟨hl.pos, hl.lt⟩

theorem Lit.InScope.constant {next : Nat} (h : 2 ≤ next) (value : Bool) :
    (Lit.constant value).InScope next := by
  cases value <;> exact ⟨Nat.one_pos, h⟩

/-! ## Members of guards -/

theorem Lit.eq_of_order {a b : Lit} (ha : 0 < a.atom) (hb : 0 < b.atom)
    (h : a.order b = .eq) : a = b := by
  have hint : a.toInt = b.toInt := by
    unfold Lit.order Ordered.byInt at h
    split at h
    · cases h
    · split at h
      · assumption
      · cases h
  obtain ⟨i, s⟩ := a
  obtain ⟨j, t⟩ := b
  cases s <;> cases t <;> simp only [Lit.toInt, if_true, if_false, Bool.false_eq_true] at hint ha hb
  · obtain rfl : i = j := by omega
    rfl
  · omega
  · omega
  · obtain rfl : i = j := by omega
    rfl

theorem Encoder.mem_of_mem_guardSet {l : Lit} {guard : List Lit} (h : l ∈ guardSet guard) :
    l ∈ guard := (List.mem_filter.1 (Ordered.mem_of_mem_ofList h)).1

/-- A guard keeps all its literals but the constant true. -/
theorem Encoder.mem_guardSet {l : Lit} {guard : List Lit} (hpos : ∀ l ∈ guard, 0 < l.atom)
    (hl : l ∈ guard) (htruth : l ≠ Lit.truth) : l ∈ guardSet guard := by
  have hpos' : ∀ l ∈ guard.filter fun l => l ≠ Lit.truth, 0 < l.atom := fun l hl =>
    hpos l (List.mem_filter.1 hl).1
  refine (Ordered.mem_ofList fun a ha b hb => Lit.eq_of_order (hpos' a ha) (hpos' b hb)).2 ?_
  refine List.mem_filter.2 ⟨hl, ?_⟩
  simpa using htruth

namespace Ledger

/-! ## Entries, roles and rules -/

/-- A formula may have an entry at a step: an atom anywhere, any other formula only
if it is acceptable and the step has been reached. -/
def Apt (edge : Instant) (f : Formula) (s : Nat) : Prop :=
  f.isAtom = true ∨ f.malformedPath? = none ∧ s ≤ edge.index

theorem Apt.mono {edge edge' : Instant} (he : edge.Precedes edge') {f : Formula} {s : Nat}
    (h : Apt edge f s) : Apt edge' f s :=
  h.imp_right fun h => ⟨h.1, Nat.le_trans h.2 he.index_le⟩

/-- Where the literal of an entry comes from. -/
inductive Backed (role : Nat → Role) (edge : Instant) (ledger : Ledger) :
    Formula → Nat → Lit → Prop
  | shared {f s y} : Sheet.Source ledger.lit edge f s y → Backed role edge ledger f s y
  | chosen {f s a} : role a = .chosen f s → Backed role edge ledger f s ⟨a, false⟩
  | awaited {arg weak s a} : role a = .awaited arg weak s →
    Backed role edge ledger (.next arg weak) s ⟨a, false⟩

/-- What fixes an atom that is chosen freely. -/
inductive Determined (edge : Instant) (ledger : Ledger) (f : Formula) (s : Nat) (x : Lit) : Prop
  | source {y} : Sheet.Source ledger.lit edge f s y →
    (∀ rule ∈ Rule.equal x y, ledger.Posted rule) → Determined edge ledger f s x
  | definition {rules} : Sheet.Definition ledger.lit f s x rules →
    (∀ rule ∈ rules, ledger.Posted rule) → Determined edge ledger f s x

/-- How far an atom that waits for the next step has come: it still waits, it has
been tied to its argument, or the step will never come. -/
inductive Await (due : List Boundary) (edge : Instant) (ledger : Ledger) (arg : Formula)
    (weak : Bool) (s : Nat) (x : Lit) : Prop
  | waiting : ⟨x, arg, s + 1, weak⟩ ∈ ledger.edge.boundaries ++ due →
    Await due edge ledger arg weak s x
  | tied {y} : s + 1 ≤ edge.index → ledger.lit arg (s + 1) = some y →
    ledger.Posted (.normal x.atom [y]) → Await due edge ledger arg weak s x
  | ended : edge.last = true → s = edge.index → (weak = true → ledger.Posted (.fact x.atom)) →
    Await due edge ledger arg weak s x

/-- What has been posted for an atom in a role. -/
inductive Vouched (due : List Boundary) (edge : Instant) (ledger : Ledger) (a : Nat) :
    Role → Prop
  | idle : Vouched due edge ledger a .idle
  | bound {f s} : Vouched due edge ledger a (.bound f s)
  | ground {f s} : ledger.ground f s = some ⟨a, false⟩ → Vouched due edge ledger a (.ground f s)
  | chosen {f s} : ledger.entry f s = some ⟨a, false⟩ → ledger.Posted (.choice a) →
    ledger.Determined edge f s ⟨a, false⟩ → Vouched due edge ledger a (.chosen f s)
  | awaited {arg weak s} : ledger.entry (.next arg weak) s = some ⟨a, false⟩ → s ≤ edge.index →
    ledger.Await due edge arg weak s ⟨a, false⟩ →
    Vouched due edge ledger a (.awaited arg weak s)
  | carrier {f op lhs rhs o t earlier w} : f.Unrolls op lhs rhs →
    ledger.Earlier f o t earlier → ledger.lit (witnessOf op lhs rhs) t = some w →
    (∀ rule ∈ carrierRules ⟨a, false⟩ earlier w, ledger.Posted rule) → o ≤ t →
    Vouched due edge ledger a (.carrier f o t)

/-- Where a rule comes from, before it is simplified. -/
inductive Emitted (role : Nat → Role) (edge : Instant) (ledger : Ledger) : Rule → Prop
  | choose {a f s} : role a = .chosen f s → Emitted role edge ledger (.choice a)
  | equal {a f s y rule} : role a = .chosen f s → Sheet.Source ledger.lit edge f s y →
    rule ∈ Rule.equal ⟨a, false⟩ y → Emitted role edge ledger rule
  | definition {a f s rules rule} : role a = .chosen f s →
    Sheet.Definition ledger.lit f s ⟨a, false⟩ rules → rule ∈ rules →
    Emitted role edge ledger rule
  | opposite {name args positive s a b} :
    ledger.ground (.atom name args positive) s = some a →
    ledger.ground (.atom name args !positive) s = some b →
    Emitted role edge ledger (.constraint [a, b])
  | tie {a arg weak s y} : role a = .awaited arg weak s → s + 1 ≤ edge.index →
    ledger.lit arg (s + 1) = some y → Emitted role edge ledger (.normal a [y])
  | ending {a arg} : role a = .awaited arg true edge.index → edge.last = true →
    Emitted role edge ledger (.fact a)
  | duty {f s guard rule} : ledger.required f s guard → Duty edge ledger f s guard rule →
    Emitted role edge ledger rule
  | carried {a f o t c} : role a = .carrier f o (t + 1) → o ≤ t →
    ⟨f, o, t, c⟩ ∈ ledger.carriers → Emitted role edge ledger (.normal a [c])
  | settled {a f op lhs rhs o t w} : f.Unrolls op lhs rhs → role a = .carrier f o t → o ≤ t →
    ledger.lit (witnessOf op lhs rhs) t = some w → Emitted role edge ledger (.normal a [w])

/-- A boundary belongs to an atom that waits. -/
structure Registered (role : Nat → Role) (b : Boundary) : Prop where
  positive : b.lit.negated = false
  role_eq : ∃ s, b.target = s + 1 ∧ role b.lit.atom = .awaited b.arg b.weak s

/-- A ledger is in order for an assignment of roles, while some boundaries that have
been taken off the edge are still due. -/
structure Sound (role : Nat → Role) (due : List Boundary) (edge : Instant) (ledger : Ledger) :
    Prop where
  next_ge : 2 ≤ ledger.next
  idle : ∀ a, a ≤ 1 ∨ ledger.next ≤ a → role a = .idle
  scope : ∀ f s l, ledger.entry f s = some l → l.InScope ledger.next
  apt : ∀ f s l, ledger.entry f s = some l → Apt edge f s
  entry : ∀ f s l, ledger.entry f s = some l → Backed role edge ledger f s l
  ground : ∀ f s l, ledger.ground f s = some l →
    f.isAtom = true ∧ l.negated = false ∧ role l.atom = .ground f s
  binding : ∀ f s l, ledger.binding f s = some l → l.negated = false ∧ role l.atom = .bound f s
  carriers : ∀ c ∈ ledger.carriers,
    c.lit.negated = false ∧ role c.lit.atom = .carrier c.formula c.origin c.step
  boundaries : ∀ b ∈ ledger.edge.boundaries ++ due, Registered role b
  due_target : ∀ b ∈ due, b.target = edge.index
  vouched : ∀ a, Vouched due edge ledger a (role a)
  opposites : ∀ name args s a b, ledger.ground (.atom name args true) s = some a →
    ledger.ground (.atom name args false) s = some b →
    ledger.Posted (.constraint [a, b]) ∨ ledger.Posted (.constraint [b, a])
  guards : ∀ f s guard, ledger.required f s guard → ∀ l ∈ guard, l.InScope ledger.next
  rules : ∀ rule ∈ ledger.rules, ∃ raw, Encoder.simplify? raw = some rule ∧
    Emitted role edge ledger raw

/-! ## Growing -/

section Growing

variable {role role' : Nat → Role} {edge edge' : Instant} {ledger later : Ledger}
  {due due' : List Boundary}

theorem Backed.mono (h : ledger.Keeps later) (he : edge.Precedes edge')
    (hr : Role.Kept role role') {f : Formula} {s : Nat} {l : Lit}
    (hb : Backed role edge ledger f s l) : Backed role' edge' later f s l := by
  cases hb with
  | shared hy => exact .shared (hy.mono h.lit he.index_le he.eq_of_last)
  | chosen ha => exact .chosen (hr.eq ha rfl)
  | awaited ha => exact .awaited (hr.eq ha rfl)

theorem Determined.mono (h : ledger.Keeps later) (he : edge.Precedes edge') {f : Formula}
    {s : Nat} {x : Lit} (hd : ledger.Determined edge f s x) : later.Determined edge' f s x := by
  cases hd with
  | source hy hp =>
    exact .source (hy.mono h.lit he.index_le he.eq_of_last) fun rule hr => (hp rule hr).mono h
  | definition hd hp => exact .definition (hd.mono h.lit) fun rule hr => (hp rule hr).mono h

theorem Await.mono (h : ledger.Keeps later) (he : edge.Precedes edge') {arg : Formula}
    {weak : Bool} {s : Nat} {x : Lit}
    (hw : ∀ b ∈ ledger.edge.boundaries ++ due, b ∈ later.edge.boundaries ++ due' ∨
      ∀ s, b.target = s + 1 → later.Await due' edge' b.arg b.weak s b.lit)
    (ha : ledger.Await due edge arg weak s x) : later.Await due' edge' arg weak s x := by
  cases ha with
  | waiting hb => exact (hw _ hb).elim .waiting fun hresolved => hresolved s rfl
  | tied hs hy hp => exact .tied (Nat.le_trans hs he.index_le) (h.lit _ _ _ hy) (hp.mono h)
  | ended hlast hs hp =>
    have heq := he.eq_of_last hlast
    subst heq
    exact .ended hlast hs fun hweak => (hp hweak).mono h

theorem Vouched.mono (h : ledger.Keeps later) (he : edge.Precedes edge') {a : Nat} {r : Role}
    (hw : ∀ b ∈ ledger.edge.boundaries ++ due, b ∈ later.edge.boundaries ++ due' ∨
      ∀ s, b.target = s + 1 → later.Await due' edge' b.arg b.weak s b.lit)
    (hv : Vouched due edge ledger a r) : Vouched due' edge' later a r := by
  cases hv with
  | idle => exact .idle
  | bound => exact .bound
  | ground ha => exact .ground (h.ground _ _ _ ha)
  | chosen ha hp hd => exact .chosen (h.entry _ _ _ ha) (hp.mono h) (hd.mono h he)
  | awaited ha hs hstatus =>
    exact .awaited (h.entry _ _ _ ha) (Nat.le_trans hs he.index_le) (hstatus.mono h he hw)
  | carrier hf hearlier hwit hp ho =>
    exact .carrier hf (hearlier.mono h) (h.lit _ _ _ hwit) (fun rule hr => (hp rule hr).mono h) ho

theorem Emitted.mono (h : ledger.Keeps later) (he : edge.Precedes edge')
    (hr : Role.Kept role role') {rule : Rule} (hm : Emitted role edge ledger rule) :
    Emitted role' edge' later rule := by
  cases hm with
  | choose ha => exact .choose (hr.eq ha rfl)
  | equal ha hy hrule =>
    exact .equal (hr.eq ha rfl) (hy.mono h.lit he.index_le he.eq_of_last) hrule
  | definition ha hd hrule => exact .definition (hr.eq ha rfl) (hd.mono h.lit) hrule
  | opposite ha hb => exact .opposite (h.ground _ _ _ ha) (h.ground _ _ _ hb)
  | tie ha hs hy => exact .tie (hr.eq ha rfl) (Nat.le_trans hs he.index_le) (h.lit _ _ _ hy)
  | ending ha hlast =>
    have heq := he.eq_of_last hlast
    subst heq
    exact .ending (hr.eq ha rfl) hlast
  | duty hreq hd => exact .duty (h.required _ _ _ hreq) (hd.mono h he)
  | carried ha ho hc => exact .carried (hr.eq ha rfl) ho (h.mem_carriers hc)
  | settled hf ha ho hw => exact .settled hf (hr.eq ha rfl) ho (h.lit _ _ _ hw)

theorem Registered.mono (hr : Role.Kept role role') {b : Boundary} (hb : Registered role b) :
    Registered role' b := by
  obtain ⟨s, ht, ha⟩ := hb.role_eq
  exact ⟨hb.positive, s, ht, hr.eq ha rfl⟩

/-- What has to be shown of a change to a ledger and its roles: everything that is
new is in order, and every boundary that has gone is settled. -/
structure Growth (role : Nat → Role) (due : List Boundary) (edge : Instant) (ledger : Ledger)
    (role' : Nat → Role) (due' : List Boundary) (edge' : Instant) (later : Ledger) : Prop where
  keeps : ledger.Keeps later
  precedes : edge.Precedes edge'
  kept : Role.Kept role role'
  idle : ∀ a, a ≤ 1 ∨ later.next ≤ a → role' a = .idle
  entry : ∀ f s l, later.entry f s = some l →
      ledger.entry f s = some l ∨
        l.InScope later.next ∧ Apt edge' f s ∧ Backed role' edge' later f s l
  ground : ∀ f s l, later.ground f s = some l → ledger.ground f s = some l ∨
      f.isAtom = true ∧ l.negated = false ∧ role' l.atom = .ground f s
  binding : ∀ f s l, later.binding f s = some l → l.negated = false ∧ role' l.atom = .bound f s
  carriers : ∀ c ∈ later.carriers, c ∈ ledger.carriers ∨
      c.lit.negated = false ∧ role' c.lit.atom = .carrier c.formula c.origin c.step
  boundaries : ∀ b ∈ later.edge.boundaries ++ due', b ∈ ledger.edge.boundaries ++ due ∨
      Registered role' b
  due_target : ∀ b ∈ due', b.target = edge'.index
  waiting : ∀ b ∈ ledger.edge.boundaries ++ due, b ∈ later.edge.boundaries ++ due' ∨
      ∀ s, b.target = s + 1 → later.Await due' edge' b.arg b.weak s b.lit
  vouched : ∀ a, role' a = role a ∨ Vouched due' edge' later a (role' a)
  opposites : ∀ name args s a b, later.ground (.atom name args true) s = some a →
      later.ground (.atom name args false) s = some b →
      ledger.ground (.atom name args true) s = some a ∧
        ledger.ground (.atom name args false) s = some b ∨
      later.Posted (.constraint [a, b]) ∨ later.Posted (.constraint [b, a])
  guards : ∀ f s guard, later.required f s guard → ledger.required f s guard ∨
      ∀ l ∈ guard, l.InScope later.next
  rules : ∀ rule ∈ later.rules, rule ∈ ledger.rules ∨
      ∃ raw, Encoder.simplify? raw = some rule ∧ Emitted role' edge' later raw

/-- A ledger that grows in order stays sound. -/
theorem Sound.grow (h : Sound role due edge ledger)
    (g : Growth role due edge ledger role' due' edge' later) : Sound role' due' edge' later where
  next_ge := Nat.le_trans h.next_ge g.keeps.next
  idle := g.idle
  scope := fun f s l hl =>
    (g.entry f s l hl).elim (fun hold => (h.scope f s l hold).mono g.keeps.next) And.left
  apt := fun f s l hl =>
    (g.entry f s l hl).elim (fun hold => (h.apt f s l hold).mono g.precedes) fun hnew => hnew.2.1
  entry := fun f s l hl =>
    (g.entry f s l hl).elim (fun hold => (h.entry f s l hold).mono g.keeps g.precedes g.kept)
      fun hnew => hnew.2.2
  ground := fun f s l hl => by
    rcases g.ground f s l hl with hold | hnew
    · obtain ⟨hatom, hpos, ha⟩ := h.ground f s l hold
      exact ⟨hatom, hpos, g.kept.eq ha rfl⟩
    · exact hnew
  binding := g.binding
  carriers := fun c hc => by
    rcases g.carriers c hc with hold | hnew
    · obtain ⟨hpos, ha⟩ := h.carriers c hold
      exact ⟨hpos, g.kept.eq ha rfl⟩
    · exact hnew
  boundaries := fun b hb =>
    (g.boundaries b hb).elim (fun hold => (h.boundaries b hold).mono g.kept) id
  due_target := g.due_target
  vouched := fun a => by
    rcases g.vouched a with heq | hnew
    · rw [heq]
      exact (h.vouched a).mono g.keeps g.precedes g.waiting
    · exact hnew
  opposites := fun name args s a b ha hb => by
    rcases g.opposites name args s a b ha hb with ⟨ha, hb⟩ | hnew
    · exact (h.opposites name args s a b ha hb).imp (fun hp => hp.mono g.keeps)
        fun hp => hp.mono g.keeps
    · exact hnew
  guards := fun f s guard hr l hl => by
    rcases g.guards f s guard hr with hold | hnew
    · exact (h.guards f s guard hold l hl).mono g.keeps.next
    · exact hnew l hl
  rules := fun rule hr => by
    rcases g.rules rule hr with hold | hnew
    · obtain ⟨raw, hraw, hm⟩ := h.rules rule hold
      exact ⟨raw, hraw, hm.mono g.keeps g.precedes g.kept⟩
    · exact hnew

/-- What has to be shown of a change that leaves the tables and all roles as they
are. -/
structure Calm (role : Nat → Role) (due : List Boundary) (edge : Instant) (ledger : Ledger)
    (due' : List Boundary) (edge' : Instant) (later : Ledger) : Prop where
  keeps : ledger.Keeps later
  precedes : edge.Precedes edge'
  tables : later.entry = ledger.entry ∧ later.ground = ledger.ground ∧
    later.binding = ledger.binding ∧ later.carriers = ledger.carriers
  boundaries : ∀ b ∈ later.edge.boundaries ++ due', b ∈ ledger.edge.boundaries ++ due
  due_target : ∀ b ∈ due', b.target = edge'.index
  waiting : ∀ b ∈ ledger.edge.boundaries ++ due, b ∈ later.edge.boundaries ++ due' ∨
    ∀ s, b.target = s + 1 → later.Await due' edge' b.arg b.weak s b.lit
  guards : ∀ f s guard, later.required f s guard → ledger.required f s guard ∨
    ∀ l ∈ guard, l.InScope later.next
  rules : ∀ rule ∈ later.rules, rule ∈ ledger.rules ∨
    ∃ raw, Encoder.simplify? raw = some rule ∧ Emitted role edge' later raw

/-- A ledger whose tables stay as they are stays sound for the same roles. -/
theorem Sound.calm (h : Sound role due edge ledger)
    (c : Calm role due edge ledger due' edge' later) : Sound role due' edge' later := by
  obtain ⟨hentry, hground, hbinding, hcarriers⟩ := c.tables
  exact h.grow
    { keeps := c.keeps
      precedes := c.precedes
      kept := .refl _
      idle := fun a ha => h.idle a (ha.imp_right (Nat.le_trans c.keeps.next))
      entry := fun f s l hl => .inl (hentry ▸ hl)
      ground := fun f s l hl => .inl (hground ▸ hl)
      binding := fun f s l hl => h.binding f s l (hbinding ▸ hl)
      carriers := fun other hmem => .inl (hcarriers ▸ hmem)
      boundaries := fun b hb => .inl (c.boundaries b hb)
      due_target := c.due_target
      waiting := c.waiting
      vouched := fun _ => .inl rfl
      opposites := fun name args s a b ha hb => .inl ⟨hground ▸ ha, hground ▸ hb⟩
      guards := c.guards
      rules := c.rules }

end Growing

/-- Posting rules that belong somewhere. -/
theorem mem_rules_post {ledger : Ledger} {rules : List Rule} {rule : Rule}
    (h : rule ∈ (ledger.post rules).rules) :
    rule ∈ ledger.rules ∨ ∃ raw ∈ rules, Encoder.simplify? raw = some rule :=
  (List.mem_append.1 h).imp_right List.mem_filterMap.1

/-! ## Atoms in use -/

namespace Sound

variable {role : Nat → Role} {due : List Boundary} {edge : Instant} {ledger : Ledger}

/-- An atom in a role has been handed out, and it is not the reserved one. -/
theorem in_use (h : Sound role due edge ledger) {a : Nat} (ha : role a ≠ .idle) :
    1 < a ∧ a < ledger.next := by
  constructor
  · exact Nat.lt_of_not_le fun hle => ha (h.idle a (.inl hle))
  · exact Nat.lt_of_not_le fun hle => ha (h.idle a (.inr hle))

/-- A ground atom is entered as one. -/
theorem ground_of_role (h : Sound role due edge ledger) {a s : Nat} {f : Formula}
    (ha : role a = .ground f s) : ledger.ground f s = some ⟨a, false⟩ := by
  have hvouched := h.vouched a
  rw [ha] at hvouched
  cases hvouched with
  | ground hl => exact hl

/-- An atom that is chosen freely is the literal of its formula, and is determined by it. -/
theorem chosen_of_role (h : Sound role due edge ledger) {a s : Nat} {f : Formula}
    (ha : role a = .chosen f s) : ledger.entry f s = some ⟨a, false⟩ ∧ ledger.Posted (.choice a) ∧
      ledger.Determined edge f s ⟨a, false⟩ := by
  have hvouched := h.vouched a
  rw [ha] at hvouched
  cases hvouched with
  | chosen hentry hposted hdetermined => exact ⟨hentry, hposted, hdetermined⟩

/-- An atom that waits is the literal of a next. -/
theorem awaited_of_role (h : Sound role due edge ledger) {a s : Nat} {arg : Formula} {weak : Bool}
    (ha : role a = .awaited arg weak s) : ledger.entry (.next arg weak) s = some ⟨a, false⟩ ∧
      ledger.Await due edge arg weak s ⟨a, false⟩ := by
  have hvouched := h.vouched a
  rw [ha] at hvouched
  cases hvouched with
  | awaited hentry _ hstatus => exact ⟨hentry, hstatus⟩

/-- A carrier has rules from the carrier before it and from the witness at its step. -/
theorem carrier_of_role (h : Sound role due edge ledger) {a o t : Nat} {f : Formula}
    (ha : role a = .carrier f o t) :
    ∃ op lhs rhs earlier w, f.Unrolls op lhs rhs ∧ ledger.Earlier f o t earlier ∧
      ledger.lit (witnessOf op lhs rhs) t = some w ∧
      (∀ rule ∈ carrierRules ⟨a, false⟩ earlier w, ledger.Posted rule) ∧ o ≤ t := by
  have hvouched := h.vouched a
  rw [ha] at hvouched
  cases hvouched with
  | carrier hf hearlier hw hposted ho => exact ⟨_, _, _, _, _, hf, hearlier, hw, hposted, ho⟩

theorem inScope_of_role (h : Sound role due edge ledger) {l : Lit} (hl : role l.atom ≠ .idle) :
    l.InScope ledger.next :=
  ⟨Nat.lt_of_succ_lt (h.in_use hl).1, (h.in_use hl).2⟩

theorem lit_inScope (h : Sound role due edge ledger) {f : Formula} {s : Nat} {l : Lit}
    (hl : ledger.lit f s = some l) : l.InScope ledger.next := by
  unfold lit at hl
  split at hl
  · refine h.inScope_of_role ?_
    rw [(h.ground f s l hl).2.2]
    exact Role.noConfusion
  · exact h.scope f s l hl

theorem source_inScope (h : Sound role due edge ledger) {f : Formula} {s : Nat} {y : Lit}
    (hy : Sheet.Source ledger.lit edge f s y) : y.InScope ledger.next := by
  cases hy with
  | bool | initial | previousStart => exact .constant h.next_ge _
  | nextEnd _ => exact .constant h.next_ge _
  | last _ | notLast _ => exact ⟨Nat.one_pos, h.next_ge⟩
  | atom _ hl | previous hl | next _ hl | initially hl | fixpointStart _ _ hl | dynamic hl =>
    exact h.lit_inScope hl
  | atEdge hl | not hl => exact (h.lit_inScope hl).neg

theorem earlier_inScope (h : Sound role due edge ledger) {f : Formula} {o t : Nat} {c : Lit}
    (hc : ledger.Earlier f o t (some c)) : c.InScope ledger.next := by
  cases hc with
  | step _ hmem =>
    refine h.inScope_of_role ?_
    rw [(h.carriers _ hmem).2]
    exact Role.noConfusion

theorem stepGuard_inScope (h : Sound role due edge ledger) {f : Formula} {o t : Nat}
    {earlier : Option Lit} (hc : ledger.Earlier f o t earlier) {guard : List Lit}
    (hg : ∀ l ∈ guard, l.InScope ledger.next) :
    ∀ l ∈ stepGuard guard earlier, l.InScope ledger.next := by
  intro l hl
  rcases List.mem_append.1 hl with hl | hl
  · exact hg l hl
  · cases earlier with
    | none => cases hl
    | some c =>
      cases List.mem_singleton.1 hl
      exact (h.earlier_inScope hc).neg

/-- What a requirement adds to its guard when it is passed on are literals in
use. -/
theorem child_inScope (h : Sound role due edge ledger) {f g : Formula} {s t : Nat}
    {guard guard' : List Lit} (hc : Child edge ledger f s guard g t guard')
    (hg : ∀ l ∈ guard, l.InScope ledger.next) : ∀ l ∈ guard', l.InScope ledger.next := by
  have hadd : ∀ {base : List Lit} {x : Lit}, (∀ l ∈ base, l.InScope ledger.next) →
      x.InScope ledger.next → ∀ l ∈ base ++ [x], l.InScope ledger.next := by
    intro base x hbase hx l hl
    rcases List.mem_append.1 hl with hl | hl
    · exact hbase l hl
    · cases List.mem_singleton.1 hl
      exact hx
  cases hc with
  | andLeft | andRight | next _ | alwaysNow | alwaysNext => exact hg
  | implies hx | implied hx => exact hadd hg (h.lit_inScope hx)
  | operands _ _ _ he | hold _ _ _ he => exact h.stepGuard_inScope he hg
  | settle _ _ _ he hn => exact hadd (h.stepGuard_inScope he hg) (h.lit_inScope hn).neg

theorem warranted_inScope (h : Sound role due edge ledger) {brief : Brief} {f : Formula} {s : Nat}
    {guard : List Lit} (hw : Warranted brief edge ledger f s guard) :
    ∀ l ∈ guard, l.InScope ledger.next := by
  induction hw with
  | staged _ _ | last _ _ | demanded _ _ => exact nofun
  | guarded _ _ hg =>
    intro l hl
    cases List.mem_singleton.1 hl
    exact h.lit_inScope hg
  | child _ hc ih => exact h.child_inScope hc fun l hl => ih l (Encoder.mem_of_mem_guardSet hl)

/-! ## Changes that keep a ledger sound -/

theorem fresh_idle (h : Sound role due edge ledger) : role ledger.next = .idle :=
  h.idle _ (.inr (Nat.le_refl _))

/-- Giving a role to an atom leaves the unused ones idle. -/
theorem idle_update (h : Sound role due edge ledger) {x next : Nat} (hx : 1 < x) (hlt : x < next)
    (hle : ledger.next ≤ next) (r : Role) :
    ∀ a, a ≤ 1 ∨ next ≤ a → Function.update role x r a = .idle := by
  intro a ha
  rw [Function.update_of_ne (by omega)]
  exact h.idle a (ha.imp_right (Nat.le_trans hle))

/-- Giving a role to an idle atom leaves the bound ones alone. -/
theorem binding_update (h : Sound role due edge ledger) {x : Nat} (hx : role x = .idle) (r : Role)
    {f : Formula} {s : Nat} {l : Lit} (hl : ledger.binding f s = some l) :
    l.negated = false ∧ Function.update role x r l.atom = .bound f s := by
  obtain ⟨hpos, ha⟩ := h.binding f s l hl
  refine ⟨hpos, ?_⟩
  rw [Function.update_of_ne, ha]
  rintro rfl
  rw [ha] at hx
  cases hx

/-- A new ground atom. -/
theorem enter (h : Sound role due edge ledger) {f : Formula} {s : Nat} (hatom : f.isAtom = true)
    (hnone : ledger.ground f s = none) :
    Sound (Function.update role ledger.next (.ground f s)) due edge (ledger.enter f s) := by
  have hkeeps := (Grows.enter hnone).toKeeps
  have hnew : (ledger.enter f s).ground f s = some ⟨ledger.next, false⟩ := Sheet.put_self _ _ _ _
  have hold : ∀ {g t l}, ¬ (g = f ∧ t = s) → (ledger.enter f s).ground g t = some l →
      ledger.ground g t = some l := by
    intro g t l hne hl
    have hl : ledger.ground.put f s (some ⟨ledger.next, false⟩) g t = some l := hl
    rwa [Sheet.put_of_ne hne] at hl
  have hidle := h.fresh_idle
  refine h.grow
    { keeps := hkeeps
      precedes := .refl _
      kept := Role.kept_update (by rw [hidle]; rfl) _
      idle := h.idle_update h.next_ge (Nat.lt_succ_self _) (Nat.le_succ _) _
      entry := fun _ _ _ => .inl
      ground := fun g t l hl => ?_
      binding := fun g t l hl => h.binding_update hidle _ hl
      carriers := fun _ => .inl
      boundaries := fun _ => .inl
      due_target := h.due_target
      waiting := fun _ => .inl
      vouched := fun a => ?_
      opposites := fun name args t a b ha hb => ?_
      guards := fun _ _ _ => .inl
      rules := fun rule hr => ?_ }
  · by_cases heq : g = f ∧ t = s
    · obtain ⟨rfl, rfl⟩ := heq
      rw [hnew] at hl
      cases hl
      exact .inr ⟨hatom, rfl, Function.update_self _ _ _⟩
    · exact .inl (hold heq hl)
  · by_cases ha : a = ledger.next
    · subst ha
      rw [Function.update_self]
      exact .inr (.ground hnew)
    · exact .inl (Function.update_of_ne ha _ _)
  · -- One of the two is new, and then the other is its opposite.
    have hposted : ∀ other, ledger.opposite? f s = some other →
        (ledger.enter f s).Posted (.constraint [⟨ledger.next, false⟩, other]) := by
      intro other hother
      refine posted_post _ ?_
      rw [hother]
      exact List.mem_singleton.2 rfl
    by_cases htrue : Formula.atom name args true = f ∧ t = s
    · obtain ⟨rfl, rfl⟩ := htrue
      rw [hnew] at ha
      cases ha
      have hb := hold (by simp) hb
      exact .inr (.inl (hposted b hb))
    · by_cases hfalse : Formula.atom name args false = f ∧ t = s
      · obtain ⟨rfl, rfl⟩ := hfalse
        rw [hnew] at hb
        cases hb
        have ha := hold (by simp) ha
        exact .inr (.inr (hposted a ha))
      · exact .inl ⟨hold htrue ha, hold hfalse hb⟩
  · refine (mem_rules_post hr).imp_right ?_
    rintro ⟨raw, hraw, hsimple⟩
    refine ⟨raw, hsimple, ?_⟩
    obtain ⟨other, hother, rfl⟩ := List.mem_map.1 hraw
    rw [Option.mem_toList] at hother
    cases f with
    | atom name args positive => exact .opposite hnew (hkeeps.ground _ _ _ hother)
    | _ => cases hatom

/-- The literal that a first entry gets is a bound host literal or a new atom. -/
structure Claimable (role : Nat → Role) (ledger : Ledger) (f : Formula) (s : Nat) (x : Lit) :
    Prop where
  positive : x.negated = false
  gt : 1 < x.atom
  lt : x.atom < (ledger.claim f s).next
  role_eq : role x.atom = .idle ∧ ledger.next ≤ x.atom ∨ role x.atom = .bound f s

theorem claimable (h : Sound role due edge ledger) (f : Formula) (s : Nat) :
    Claimable role ledger f s (ledger.candidate f s) := by
  cases hb : ledger.binding f s with
  | some host =>
    have hx : ledger.candidate f s = host := by rw [candidate, hb, Option.getD_some]
    have hnext : (ledger.claim f s).next = ledger.next := if_pos (by rw [hb]; rfl)
    obtain ⟨hpos, ha⟩ := h.binding f s host hb
    have huse : 1 < host.atom ∧ host.atom < ledger.next :=
      h.in_use (by rw [ha]; exact Role.noConfusion)
    rw [hx]
    exact ⟨hpos, huse.1, hnext ▸ huse.2, .inr ha⟩
  | none =>
    have hx : ledger.candidate f s = ⟨ledger.next, false⟩ := by
      rw [candidate, hb, Option.getD_none]
    have hnext : (ledger.claim f s).next = ledger.next + 1 := if_neg (by rw [hb]; exact nofun)
    rw [hx]
    exact ⟨rfl, h.next_ge, hnext ▸ Nat.lt_succ_self _, .inl ⟨h.fresh_idle, Nat.le_refl _⟩⟩

/-- A formula is given an atom of its own, in a settled role. -/
theorem claim (h : Sound role due edge ledger) {f : Formula} {s : Nat} (hapt : Apt edge f s)
    (hnone : ledger.entry f s = none) {r : Role} (later : Ledger) (hkeeps : ledger.Keeps later)
    (hentry : later.entry = ledger.entry.put f s (some (ledger.candidate f s)))
    (hbinding : later.binding = ledger.binding.put f s none)
    (hnext : later.next = (ledger.claim f s).next) (hground : later.ground = ledger.ground)
    (hcarriers : later.carriers = ledger.carriers) (hrequired : later.required = ledger.required)
    (hbacked : ∀ role', role' (ledger.candidate f s).atom = r →
      Backed role' edge later f s ⟨(ledger.candidate f s).atom, false⟩)
    (hvouched : Vouched due edge later (ledger.candidate f s).atom r)
    (hboundaries : ∀ role', Role.Kept role role' → role' (ledger.candidate f s).atom = r →
      ∀ b ∈ later.edge.boundaries ++ due, b ∈ ledger.edge.boundaries ++ due ∨ Registered role' b)
    (hwaiting : ∀ b ∈ ledger.edge.boundaries ++ due, b ∈ later.edge.boundaries ++ due)
    (hrules : ∀ role', role' (ledger.candidate f s).atom = r → ∀ rule ∈ later.rules,
      rule ∈ ledger.rules ∨ ∃ raw, Encoder.simplify? raw = some rule ∧
        Emitted role' edge later raw) :
    ∃ role', Role.Onward ledger.next role role' ∧ Sound role' due edge later := by
  have hx := h.claimable f s
  generalize ledger.candidate f s = x at *
  obtain ⟨a, negated⟩ := x
  obtain rfl : negated = false := hx.positive
  have hself : Function.update role a r a = r := Function.update_self _ _ _
  have hunsettled : (role a).isSettled = false := by
    rcases hx.role_eq with ⟨ha, -⟩ | ha
    · rw [ha]
      rfl
    · rw [ha]
      rfl
  have hkept := Role.kept_update hunsettled r
  have hle : ledger.next ≤ later.next := hkeeps.next
  refine ⟨Function.update role a r, ⟨hkept, fun b hlt hb => ?_⟩, h.grow
    { keeps := hkeeps
      precedes := .refl _
      kept := hkept
      idle := h.idle_update hx.gt (hnext ▸ hx.lt) hle r
      entry := fun g t l hl => ?_
      ground := fun g t l hl => .inl (hground ▸ hl)
      binding := fun g t l hl => ?_
      carriers := fun c hc => .inl (hcarriers ▸ hc)
      boundaries := hboundaries _ hkept hself
      due_target := h.due_target
      waiting := fun b hb => .inl (hwaiting b hb)
      vouched := fun b => ?_
      opposites := fun name args t b c hb hc => .inl ⟨hground ▸ hb, hground ▸ hc⟩
      guards := fun g t guard hr => .inl (hrequired ▸ hr)
      rules := hrules _ hself }⟩
  · -- A host literal that has not been bound is another atom.
    rw [Function.update_of_ne, hb]
    rintro rfl
    rcases hx.role_eq with ⟨-, hge⟩ | ha
    · exact absurd hlt (Nat.not_lt_of_le hge)
    · rw [hb] at ha
      cases ha
  · rw [hentry] at hl
    by_cases heq : g = f ∧ t = s
    · obtain ⟨rfl, rfl⟩ := heq
      rw [Sheet.put_self] at hl
      cases hl
      exact .inr ⟨⟨Nat.lt_of_succ_lt hx.gt, hnext ▸ hx.lt⟩, hapt, hbacked _ hself⟩
    · rw [Sheet.put_of_ne heq] at hl
      exact .inl hl
  · rw [hbinding] at hl
    by_cases heq : g = f ∧ t = s
    · obtain ⟨rfl, rfl⟩ := heq
      rw [Sheet.put_self] at hl
      cases hl
    · rw [Sheet.put_of_ne heq] at hl
      obtain ⟨hpos, hl⟩ := h.binding g t l hl
      refine ⟨hpos, ?_⟩
      rw [Function.update_of_ne, hl]
      rintro rfl
      rcases hx.role_eq with ⟨ha, -⟩ | ha
      · rw [hl] at ha
        cases ha
      · rw [hl] at ha
        cases ha
        exact heq ⟨rfl, rfl⟩
  · by_cases hb : b = a
    · subst hb
      rw [hself]
      exact .inr hvouched
    · exact .inl (Function.update_of_ne hb _ _)

/-- A formula shares a literal, or its host literal is tied to that. -/
theorem share (h : Sound role due edge ledger) {f : Formula} {s : Nat} {y : Lit}
    (hapt : Apt edge f s) (hnone : ledger.entry f s = none) (hy : Sheet.Source ledger.lit edge f s y) :
    ∃ role', Role.Onward ledger.next role role' ∧ Sound role' due edge (ledger.share f s y) := by
  have hkeeps : ledger.Keeps (ledger.share f s y) :=
    ((Grows.write hnone _).trans (.post _ _)).toKeeps
  have hsource : Sheet.Source (ledger.share f s y).lit edge f s y :=
    hy.mono hkeeps.lit (Nat.le_refl _) fun _ => rfl
  cases hb : ledger.binding f s with
  | none =>
    have hrep : ledger.representative f s y = y := by rw [representative, hb, Option.getD_none]
    have hrules : (ledger.share f s y).rules = ledger.rules := by
      show ledger.rules ++ (ledger.tieRules f s y).filterMap _ = _
      rw [tieRules, hb, List.filterMap_nil, List.append_nil]
    refine ⟨role, .refl _ _, h.grow
      { keeps := hkeeps
        precedes := .refl _
        kept := .refl _
        idle := h.idle
        entry := fun g t l hl => ?_
        ground := fun _ _ _ => .inl
        binding := fun g t l hl => ?_
        carriers := fun _ => .inl
        boundaries := fun _ => .inl
        due_target := h.due_target
        waiting := fun _ => .inl
        vouched := fun _ => .inl rfl
        opposites := fun _ _ _ _ _ ha hb => .inl ⟨ha, hb⟩
        guards := fun _ _ _ => .inl
        rules := fun rule hr => .inl (hrules ▸ hr) }⟩
    · have hl : ledger.entry.put f s (some (ledger.representative f s y)) g t = some l := hl
      by_cases heq : g = f ∧ t = s
      · obtain ⟨rfl, rfl⟩ := heq
        rw [hrep, Sheet.put_self] at hl
        cases hl
        exact .inr ⟨h.source_inScope hy, hapt, .shared hsource⟩
      · rw [Sheet.put_of_ne heq] at hl
        exact .inl hl
    · have hl : ledger.binding.put f s none g t = some l := hl
      by_cases heq : g = f ∧ t = s
      · obtain ⟨rfl, rfl⟩ := heq
        rw [Sheet.put_self] at hl
        cases hl
      · rw [Sheet.put_of_ne heq] at hl
        exact h.binding g t l hl
  | some host =>
    have hcandidate : ledger.candidate f s = host := by rw [candidate, hb, Option.getD_some]
    have hrep : ledger.representative f s y = host := by rw [representative, hb, Option.getD_some]
    have hties : ledger.tieRules f s y = .choice host.atom :: Rule.equal host y := by
      rw [tieRules, hb]
    have hpos := (h.binding f s host hb).1
    have hhost : host = ⟨host.atom, false⟩ := by rw [← hpos]
    have hentry : (ledger.share f s y).entry f s = some host := by
      show ledger.entry.put f s (some (ledger.representative f s y)) f s = _
      rw [Sheet.put_self, hrep]
    have hposted : ∀ rule ∈ Rule.choice host.atom :: Rule.equal host y,
        (ledger.share f s y).Posted rule := fun rule hr => posted_post _ (hties ▸ hr)
    refine h.claim hapt hnone (r := .chosen f s) (ledger.share f s y) hkeeps ?_ rfl ?_ rfl rfl rfl
      (fun role' hrole => .chosen hrole) ?_ (fun _ _ _ b hb => .inl hb) (fun b hb => hb) ?_
    · show ledger.entry.put f s (some (ledger.representative f s y)) = _
      rw [hrep, hcandidate]
    · exact (if_pos (by rw [hb]; rfl) : (ledger.claim f s).next = ledger.next).symm
    · rw [hcandidate]
      refine .chosen (hhost ▸ hentry) (hposted _ List.mem_cons_self) ?_
      rw [← hhost]
      exact .source hsource fun rule hr => hposted rule (List.mem_cons_of_mem _ hr)
    · intro role' hrole rule hr
      refine (mem_rules_post hr).imp_right ?_
      rintro ⟨raw, hraw, hsimple⟩
      refine ⟨raw, hsimple, ?_⟩
      rw [hcandidate] at hrole
      rw [hties] at hraw
      rcases List.mem_cons.1 hraw with rfl | hraw
      · exact .choose hrole
      · rw [hhost] at hraw
        exact .equal hrole hsource hraw

/-- A formula is given an atom with a definition. -/
theorem define (h : Sound role due edge ledger) {f : Formula} {s : Nat} {rules : List Rule}
    (hapt : Apt edge f s) (hnone : ledger.entry f s = none)
    (hd : Sheet.Definition ledger.lit f s (ledger.candidate f s) rules) :
    ∃ role', Role.Onward ledger.next role role' ∧ Sound role' due edge
      ((ledger.claim f s).post (.choice (ledger.candidate f s).atom :: rules)) := by
  have hkeeps := ((Grows.claim hnone).trans (.post _
    (.choice (ledger.candidate f s).atom :: rules))).toKeeps
  have hpos := (h.claimable f s).positive
  have hx : ledger.candidate f s = ⟨(ledger.candidate f s).atom, false⟩ := by rw [← hpos]
  have hd := hd.mono hkeeps.lit
  refine h.claim hapt hnone (r := .chosen f s) _ hkeeps rfl rfl rfl rfl rfl rfl
    (fun role' hrole => .chosen hrole) ?_ (fun _ _ _ b hb => .inl hb) (fun b hb => hb) ?_
  · refine .chosen ?_ (posted_post _ List.mem_cons_self) ?_
    · show ledger.entry.put f s _ f s = _
      rw [Sheet.put_self, ← hx]
    · rw [← hx]
      exact .definition hd fun rule hr => posted_post _ (List.mem_cons_of_mem _ hr)
  · intro role' hrole rule hr
    refine (mem_rules_post hr).imp_right ?_
    rintro ⟨raw, hraw, hsimple⟩
    refine ⟨raw, hsimple, ?_⟩
    rcases List.mem_cons.1 hraw with rfl | hraw
    · exact .choose hrole
    · rw [hx] at hd
      exact .definition hrole hd hraw

/-- A reference to the step after the edge is given an atom that waits there. -/
theorem await (h : Sound role due edge ledger) {arg : Formula} {weak : Bool}
    (hwell : (Formula.next arg weak).malformedPath? = none)
    (hnone : ledger.entry (.next arg weak) edge.index = none) :
    ∃ role', Role.Onward ledger.next role role' ∧ Sound role' due edge
      { ledger.claim (.next arg weak) edge.index with
        edge := ledger.edge.openBoundary
          ⟨ledger.candidate (.next arg weak) edge.index, arg, edge.index + 1, weak⟩ } := by
  have hkeeps : ledger.Keeps { ledger.claim (.next arg weak) edge.index with
      edge := ledger.edge.openBoundary
        ⟨ledger.candidate (.next arg weak) edge.index, arg, edge.index + 1, weak⟩ } :=
    { (Grows.claim hnone).toKeeps with }
  have hpos := (h.claimable (.next arg weak) edge.index).positive
  have hx : ledger.candidate (.next arg weak) edge.index =
      ⟨(ledger.candidate (.next arg weak) edge.index).atom, false⟩ := by rw [← hpos]
  refine h.claim (.inr ⟨hwell, Nat.le_refl _⟩) hnone (r := .awaited arg weak edge.index) _ hkeeps
    rfl rfl rfl rfl rfl rfl (fun role' hrole => .awaited hrole) ?_
    (fun role' hkept hrole b hb => ?_) (fun b hb => ?_) fun _ _ rule hr => .inl hr
  · refine .awaited ?_ (Nat.le_refl _) (.waiting ?_)
    · show ledger.entry.put _ _ _ _ _ = _
      rw [Sheet.put_self, ← hx]
    · rw [← hx]
      exact List.mem_append_left _ (List.mem_append_right _ (List.mem_singleton.2 rfl))
  · rcases List.mem_append.1 hb with hb | hb
    · rcases List.mem_append.1 hb with hb | hb
      · exact .inl (List.mem_append_left _ hb)
      · cases List.mem_singleton.1 hb
        exact .inr ⟨hpos, edge.index, rfl, hrole⟩
    · exact .inl (List.mem_append_right _ hb)
  · rcases List.mem_append.1 hb with hb | hb
    · exact List.mem_append_left _ (List.mem_append_left _ hb)
    · exact List.mem_append_right _ hb

/-- A carrier is handed out. -/
theorem carry (h : Sound role due edge ledger) {f : Formula} {op : Fixpoint}
    {lhs : Option Formula} {rhs : Formula} {o t : Nat} {earlier : Option Lit} {w : Lit}
    (hf : f.Unrolls op lhs rhs) (ho : o ≤ t) (he : ledger.Earlier f o t earlier)
    (hw : ledger.lit (witnessOf op lhs rhs) t = some w) :
    Sound (Function.update role ledger.next (.carrier f o t)) due edge
      (ledger.carry f o t earlier w) := by
  have hkeeps : ledger.Keeps (ledger.carry f o t earlier w) :=
    { Keeps.refl ledger with next := Nat.le_succ _, rules := ⟨_, rfl⟩, carriers := ⟨_, rfl⟩ }
  have hself : Function.update role ledger.next (Role.carrier f o t) ledger.next =
    .carrier f o t := Function.update_self _ _ _
  have hidle := h.fresh_idle
  refine h.grow
    { keeps := hkeeps
      precedes := .refl _
      kept := Role.kept_update (by rw [hidle]; rfl) _
      idle := h.idle_update h.next_ge (Nat.lt_succ_self _) (Nat.le_succ _) _
      entry := fun _ _ _ => .inl
      ground := fun _ _ _ => .inl
      binding := fun g u l hl => h.binding_update hidle _ hl
      carriers := fun c hc => ?_
      boundaries := fun _ => .inl
      due_target := h.due_target
      waiting := fun _ => .inl
      vouched := fun a => ?_
      opposites := fun _ _ _ _ _ ha hb => .inl ⟨ha, hb⟩
      guards := fun _ _ _ => .inl
      rules := fun rule hr => ?_ }
  · rcases List.mem_append.1 hc with hc | hc
    · exact .inl hc
    · cases List.mem_singleton.1 hc
      exact .inr ⟨rfl, hself⟩
  · by_cases ha : a = ledger.next
    · subst ha
      rw [hself]
      exact .inr (.carrier hf (he.mono hkeeps) (hkeeps.lit _ _ _ hw)
        (fun rule hr => posted_post _ hr) ho)
    · exact .inl (Function.update_of_ne ha _ _)
  · refine (mem_rules_post hr).imp_right ?_
    rintro ⟨raw, hraw, hsimple⟩
    refine ⟨raw, hsimple, ?_⟩
    rcases List.mem_append.1 hraw with hraw | hraw
    · obtain ⟨c, hc, rfl⟩ := List.mem_map.1 hraw
      rw [Option.mem_toList] at hc
      cases hc
      cases he with
      | step hle hmem => exact .carried hself hle (hkeeps.mem_carriers hmem)
    · cases List.mem_singleton.1 hraw
      exact .settled hf hself ho (hkeeps.lit _ _ _ hw)

/-- A requirement is taken on. -/
theorem demand (h : Sound role due edge ledger) {brief : Brief} {f : Formula} {s : Nat}
    {guard : List Lit} (hw : Warranted brief edge ledger f s guard) :
    Sound role due edge (ledger.demand f s (Encoder.guardSet guard)) := by
  refine h.calm
    { keeps := { Keeps.refl ledger with required := fun _ _ _ hr => .inl hr }
      precedes := .refl _
      tables := ⟨rfl, rfl, rfl, rfl⟩
      boundaries := fun _ => id
      due_target := h.due_target
      waiting := fun _ => .inl
      guards := fun g t guard' hr => ?_
      rules := fun _ => .inl }
  refine hr.imp_right ?_
  rintro ⟨-, -, rfl⟩ l hl
  exact h.warranted_inScope hw l (Encoder.mem_of_mem_guardSet hl)

/-- A rule is posted. -/
theorem post (h : Sound role due edge ledger) {rule : Rule}
    (hm : Emitted role edge (ledger.post [rule]) rule) :
    Sound role due edge (ledger.post [rule]) := by
  refine h.calm
    { keeps := (Grows.post _ _).toKeeps
      precedes := .refl _
      tables := ⟨rfl, rfl, rfl, rfl⟩
      boundaries := fun _ => id
      due_target := h.due_target
      waiting := fun _ => .inl
      guards := fun _ _ _ => .inl
      rules := fun simple hr => ?_ }
  refine (mem_rules_post hr).imp_right ?_
  rintro ⟨raw, hraw, hsimple⟩
  cases List.mem_singleton.1 hraw
  exact ⟨rule, hsimple, hm⟩

/-- What waits at the edge beside the boundaries does not matter. -/
theorem settle (h : Sound role due edge ledger) {edge' : Edge}
    (hsame : edge'.boundaries = ledger.edge.boundaries) :
    Sound role due edge { ledger with edge := edge' } :=
  h.calm
    { keeps := { Keeps.refl ledger with }
      precedes := .refl _
      tables := ⟨rfl, rfl, rfl, rfl⟩
      boundaries := fun _ hb => hsame ▸ hb
      due_target := h.due_target
      waiting := fun _ hb => .inl (hsame.symm ▸ hb)
      guards := fun _ _ _ => .inl
      rules := fun _ => .inl }

/-- A boundary that is due is tied to its argument. -/
theorem tie {b : Boundary} (h : Sound role (b :: due) edge ledger) {y : Lit}
    (hy : ledger.lit b.arg edge.index = some y) :
    Sound role due edge (ledger.post [.normal b.lit.atom [y]]) := by
  have hkeeps := (Grows.post ledger [.normal b.lit.atom [y]]).toKeeps
  have htarget := h.due_target b List.mem_cons_self
  obtain ⟨s, hs, hrole⟩ := (h.boundaries b (List.mem_append_right _ List.mem_cons_self)).role_eq
  have hstep : s + 1 = edge.index := hs.symm.trans htarget
  have hy : (ledger.post [.normal b.lit.atom [y]]).lit b.arg (s + 1) = some y := by
    rw [hstep]
    exact hkeeps.lit _ _ _ hy
  refine h.calm
    { keeps := hkeeps
      precedes := .refl _
      tables := ⟨rfl, rfl, rfl, rfl⟩
      boundaries := fun b' hb' => ?_
      due_target := fun b' hb' => h.due_target b' (List.mem_cons_of_mem _ hb')
      waiting := fun b' hb' => ?_
      guards := fun _ _ _ => .inl
      rules := fun simple hr => ?_ }
  · rcases List.mem_append.1 hb' with hb' | hb'
    · exact List.mem_append_left _ hb'
    · exact List.mem_append_right _ (List.mem_cons_of_mem _ hb')
  · rcases List.mem_append.1 hb' with hb' | hb'
    · exact .inl (List.mem_append_left _ hb')
    · rcases List.mem_cons.1 hb' with rfl | hb'
      · refine .inr fun s' hs' => ?_
        obtain rfl : s' = s := by omega
        exact .tied (Nat.le_of_eq hstep) hy (posted_post _ (List.mem_singleton.2 rfl))
      · exact .inl (List.mem_append_right _ hb')
  · refine (mem_rules_post hr).imp_right ?_
    rintro ⟨raw, hraw, hsimple⟩
    cases List.mem_singleton.1 hraw
    exact ⟨_, hsimple, .tie hrole (Nat.le_of_eq hstep) hy⟩

/-- The edge moves on. -/
theorem precedes (h : Sound role due edge ledger) {edge' : Instant} (he : edge.Precedes edge')
    (hdue : ∀ b ∈ due, b.target = edge'.index) : Sound role due edge' ledger :=
  h.calm
    { keeps := .refl _
      precedes := he
      tables := ⟨rfl, rfl, rfl, rfl⟩
      boundaries := fun _ => id
      due_target := hdue
      waiting := fun _ => .inl
      guards := fun _ _ _ => .inl
      rules := fun _ => .inl }

/-- The boundaries that wait for a step fall due when it is reached. -/
theorem cleared (h : Sound role [] edge ledger) {edge' : Instant} (he : edge.Precedes edge')
    (hdue : ∀ b ∈ ledger.edge.boundaries, b.target = edge'.index) :
    Sound role ledger.edge.boundaries edge' ledger.cleared := by
  have hsame : ledger.edge.boundaries ++ [] =
      ledger.cleared.edge.boundaries ++ ledger.edge.boundaries := by
    rw [List.append_nil]
    rfl
  exact h.calm
    { keeps := ledger.keeps_cleared
      precedes := he
      tables := ⟨rfl, rfl, rfl, rfl⟩
      boundaries := fun b hb => hsame ▸ hb
      due_target := hdue
      waiting := fun b hb => .inl (hsame ▸ hb)
      guards := fun _ _ _ => .inl
      rules := fun _ => .inl }

/-- The boundaries are settled when the edge is the last step. -/
theorem closed (h : Sound role [] edge ledger) (hlast : edge.last = true)
    (htarget : ∀ b ∈ ledger.edge.boundaries, b.target = edge.index + 1) :
    Sound role [] edge ledger.closed := by
  refine h.calm
    { keeps := ledger.keeps_closed
      precedes := .refl _
      tables := ⟨rfl, rfl, rfl, rfl⟩
      boundaries := fun b hb => absurd hb List.not_mem_nil
      due_target := h.due_target
      waiting := fun b hb => .inr fun s hs => ?_
      guards := fun _ _ _ => .inl
      rules := fun rule hr => ?_ }
  · rw [List.append_nil] at hb
    have hstep := htarget b hb
    exact .ended hlast (by omega) fun hweak =>
      posted_post _ (mem_closingRules.2 ⟨b, hb, hweak, rfl⟩)
  · refine (mem_rules_post hr).imp_right ?_
    rintro ⟨raw, hmem, hsimple⟩
    obtain ⟨b, hb, hweak, rfl⟩ := mem_closingRules.1 hmem
    obtain ⟨s, hs, hrole⟩ := (h.boundaries b (List.mem_append_left _ hb)).role_eq
    have hstep := htarget b hb
    obtain rfl : s = edge.index := by omega
    rw [hweak] at hrole
    exact ⟨_, hsimple, .ending hrole hlast⟩

/-- An atom is handed out to the host. -/
theorem fresh (h : Sound role due edge ledger) :
    Sound role due edge { ledger with next := ledger.next + 1 } :=
  h.calm
    { keeps := { Keeps.refl ledger with next := Nat.le_succ _ }
      precedes := .refl _
      tables := ⟨rfl, rfl, rfl, rfl⟩
      boundaries := fun _ => id
      due_target := h.due_target
      waiting := fun _ => .inl
      guards := fun _ _ _ => .inl
      rules := fun _ => .inl }

/-- A host literal that has no role yet is bound. -/
theorem bind (h : Sound role due edge ledger) {f : Formula} {s : Nat} {host : Lit}
    (hpos : host.negated = false) (hidle : role host.atom = .idle) (hgt : 1 < host.atom)
    (hlt : host.atom < ledger.next) :
    Sound (Function.update role host.atom (.bound f s)) due edge
      { ledger with binding := ledger.binding.put f s (some host) } := by
  refine h.grow
    { keeps := { Keeps.refl ledger with }
      precedes := .refl _
      kept := Role.kept_update (by rw [hidle]; rfl) _
      idle := h.idle_update hgt hlt (Nat.le_refl _) _
      entry := fun _ _ _ => .inl
      ground := fun _ _ _ => .inl
      binding := fun g t l hl => ?_
      carriers := fun _ => .inl
      boundaries := fun _ => .inl
      due_target := h.due_target
      waiting := fun _ => .inl
      vouched := fun a => ?_
      opposites := fun _ _ _ _ _ ha hb => .inl ⟨ha, hb⟩
      guards := fun _ _ _ => .inl
      rules := fun _ => .inl }
  · have hl : ledger.binding.put f s (some host) g t = some l := hl
    by_cases heq : g = f ∧ t = s
    · obtain ⟨rfl, rfl⟩ := heq
      rw [Sheet.put_self] at hl
      cases hl
      exact ⟨hpos, Function.update_self _ _ _⟩
    · rw [Sheet.put_of_ne heq] at hl
      exact h.binding_update hidle _ hl
  · by_cases ha : a = host.atom
    · rw [ha, Function.update_self]
      exact .inr .bound
    · exact .inl (Function.update_of_ne ha _ _)

end Sound

/-! ## Runs -/

variable {role : Nat → Role} {due : List Boundary} {edge : Instant} {ledger later : Ledger}

theorem Move.sound (hm : Move edge ledger later) (h : Sound role due edge ledger) :
    ∃ role', Role.Onward ledger.next role role' ∧ Sound role' due edge later := by
  cases hm with
  | enter hatom _ hnone =>
    refine ⟨_, ⟨Role.kept_update (by rw [h.fresh_idle]; rfl) _, fun a hlt ha => ?_⟩,
      h.enter hatom hnone⟩
    rw [Function.update_of_ne (Nat.ne_of_lt hlt), ha]
  | share _ hwell hs hnone hy => exact h.share (.inr ⟨hwell, hs⟩) hnone hy
  | define hwell hs hnone hd => exact h.define (.inr ⟨hwell, hs⟩) hnone hd
  | await hwell _ hnone => exact h.await hwell hnone

theorem HeadMove.sound {brief : Brief} {first : Nat}
    (hm : HeadMove brief edge first ledger later) (h : Sound role due edge ledger) :
    ∃ role', Role.Onward ledger.next role role' ∧ Sound role' due edge later := by
  cases hm with
  | body hm => exact hm.sound h
  | demand _ _ _ hw => exact ⟨role, .refl _ _, h.demand hw⟩
  | duty _ hreq hd =>
    exact ⟨role, .refl _ _, h.post (.duty hreq (hd.mono (Grows.post _ _).toKeeps (.refl _)))⟩
  | defer _ _ _ => exact ⟨role, .refl _ _, h.settle rfl⟩
  | carry _ hf ho _ he hw =>
    refine ⟨_, ⟨Role.kept_update (by rw [h.fresh_idle]; rfl) _, fun a hlt ha => ?_⟩,
      h.carry hf ho he hw⟩
    rw [Function.update_of_ne (Nat.ne_of_lt hlt), ha]
  | rest _ _ _ _ _ _ => exact ⟨role, .refl _ _, h.settle rfl⟩

theorem HeadMoves.sound {brief : Brief} {first : Nat}
    (hm : HeadMoves brief edge first ledger later) (h : Sound role due edge ledger) :
    ∃ role', Role.Onward ledger.next role role' ∧ Sound role' due edge later := by
  induction hm with
  | refl => exact ⟨role, .refl _ _, h⟩
  | tail hrun hmove ih =>
    obtain ⟨role', hrole', h'⟩ := ih
    obtain ⟨role'', hrole'', h''⟩ := hmove.sound h'
    exact ⟨role'', hrole'.trans (HeadMoves.grows hrun).next hrole'', h''⟩

theorem ReachMoves.sound {brief : Brief} {first : Nat} {a b : List Boundary × Ledger}
    (hm : ReachMoves brief edge first a b) (h : Sound role a.1 edge a.2) :
    ∃ role', Role.Onward a.2.next role role' ∧ Sound role' b.1 edge b.2 := by
  induction hm with
  | refl => exact ⟨role, .refl _ _, h⟩
  | tail hrun hmove ih =>
    obtain ⟨role', hrole', h'⟩ := ih
    have hnext := (ReachMoves.keeps hrun).next
    cases hmove with
    | head hm =>
      obtain ⟨role'', hrole'', h''⟩ := hm.sound h'
      exact ⟨role'', hrole'.trans hnext hrole'', h''⟩
    | tie hy => exact ⟨role', hrole', h'.tie hy⟩
    | settle _ _ => exact ⟨role', hrole', h'.settle rfl⟩

end Ledger
end TemporalHorizon

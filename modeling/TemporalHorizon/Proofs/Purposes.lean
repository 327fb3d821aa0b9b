import TemporalHorizon.Proofs.Acts
import TemporalHorizon.Proofs.Canonicity
import TemporalHorizon.Proofs.Exactness
import Mathlib.Data.List.Nodup

/-!
# What atoms are for

Atoms are handed out in five places of the encoder, and rules are emitted in many more.
Yet each atom serves one purpose for ever, and its purpose bounds how often it is derived.
Nothing of this is lost when an operation fails in the middle.

The purposes are read off the tables of the encoder and off its past, which a `Chronicle`
records: the rules that were taken away, the atoms handed to the host and the boundaries
that have been open between two operations.

* `Chronicle.Serves`: an atom serves a purpose.
* `Purpose.Permits`: the rules in whose heads an atom with the purpose may occur.
* `Chronicle.Assigned`: every atom in use has one purpose, and its rules are permitted.
  Each act keeps this (`Assigned.act`), so each operation does (`Assigned.happens`).
* `Chronicle.existsUnique_purpose`: the statement for everything that can happen without
  bindings.
-/

namespace TemporalHorizon

section Exact

attribute [local instance] Arithmetic.exact

/-- What an atom has been handed out for. -/
inductive Purpose where
  /-- The constant false. -/
  | reserved
  /-- A ground atom. -/
  | ground (key : Key)
  /-- The atom that a formula is defined by at a step. -/
  | chosen (key : Key)
  /-- The external of a reference to a step that was still to come. -/
  | external (key : Key)
  /-- The record of an instance at a step. -/
  | carrier (record : Carrier)
  /-- The host's own use. -/
  | host

/-- The rules that may derive an atom with the purpose: a defining atom has its choice and
nothing else, an external at most one rule, a carrier at most two, and neither the reserved
atom nor an atom of the host any. -/
def Purpose.Permits (a : Nat) (rules : List Rule) : Purpose → Prop
  | .reserved | .host => rules = []
  | .ground _ => True
  | .chosen _ => rules = [.choice a]
  | .external _ => rules.length ≤ 1
  | .carrier _ => rules.length ≤ 2

/-! ## Chronicles -/

namespace Encoder.Operation

/-- The rules that an operation takes away from an encoder. -/
def taken (e : Encoder) : Operation → List Rule
  | .takeRules => e.rules
  | _ => []

/-- The literals that an operation hands to the host. -/
def handed [Arithmetic] (e : Encoder) : Operation → List Lit
  | .fresh => [e.supply.fresh.1]
  | _ => []

end Encoder.Operation

/-- An encoder with its past. -/
structure Chronicle where
  encoder : Encoder := .empty
  /-- The rules that have been taken away. -/
  taken : List Rule := []
  /-- The literals that have been handed to the host. -/
  handed : List Lit := []
  /-- The boundaries that have been open between two operations. -/
  opened : List Boundary := []

theorem Key.eq_of_parts {key other : Key} (hf : key.formula = other.formula)
    (hs : key.step = other.step) : key = other := by
  cases key
  cases other
  cases hf
  cases hs
  rfl

namespace Chronicle

/-- The chronicle when its encoder has become another one. -/
def through (c : Chronicle) (e : Encoder) : Chronicle :=
  { c with encoder := e, opened := c.opened ++ e.edge.boundaries }

/-- The chronicle after an operation, which may have failed. -/
def perform [Arithmetic] (c : Chronicle) (operation : Encoder.Operation) : Chronicle :=
  { c.through (stateAfter operation.run c.encoder) with
    taken := c.taken ++ operation.taken c.encoder
    handed := c.handed ++ operation.handed c.encoder }

/-- What can happen without bindings: operations of the encoder, and growth of its store
from outside. -/
inductive Happens [Arithmetic] : Chronicle → Chronicle → Prop
  | perform {c operation} : operation.binds = false → operation.InRange →
    Happens c (c.perform operation)
  | grow {c store} : c.encoder.store.Growth store →
    Happens c (c.through { c.encoder with store := store })

/-- All rules that have been emitted. -/
def emitted (c : Chronicle) : List Rule := c.taken ++ c.encoder.rules

/-- The rules with an atom in the head. -/
def derivations (c : Chronicle) (a : Nat) : List Rule := c.emitted.filter fun rule => a ∈ rule.head

/-- An atom serves a purpose.  A formula that is defined at a step has an entry of its
own; an external is the entry of the formula whose boundary has been open, and was opened
for the step after.  The numbers in the cache are read as those of keys without words, so that
each of them stands for one key; for the keys of an encoder in range these are the numbers
that it uses (`InRange.entry?_eq`). -/
def Serves (c : Chronicle) (a : Nat) : Purpose → Prop
  | .reserved => a = 1
  | .ground key => c.encoder.ground.get? key = some ⟨a, false⟩
  | .chosen key => c.encoder.cache.entry? key = some ⟨a, false⟩ ∧
    ∃ f, c.encoder.store.idOf? f = some key.formula ∧ f.isDefinedAt key.step = true
  | .external key => c.encoder.cache.entry? key = some ⟨a, false⟩ ∧
    ∃ b ∈ c.opened, b.lit = ⟨a, false⟩ ∧ b.target = key.step + 1 ∧
      c.encoder.store.idOf? (.next b.arg b.weak) = some key.formula
  | .carrier record => record ∈ c.encoder.carriers ∧ record.lit = ⟨a, false⟩
  | .host => ⟨a, false⟩ ∈ c.handed

/-! ## The invariant -/

/-- The tables are in order.  Every entry is filed under a formula, ground atoms know
their owners, carriers are recorded once, and every boundary that has been open has its
literal filed. -/
structure Filed (c : Chronicle) : Prop where
  unbound : c.encoder.Unbound
  named : ∀ key l, c.encoder.cache.entry? key = some l → ∃ f, c.encoder.store.idOf? f = some key.formula
  owned : ∀ key l, c.encoder.ground.get? key = some l →
    l.negated = false ∧ c.encoder.ground.owner? l.atom = some key
  recorded : (c.encoder.carriers.map Carrier.lit).Nodup
  opened : ∀ b ∈ c.opened, b.lit.negated = false ∧ ∃ key,
    c.encoder.cache.entry? key = some b.lit ∧ b.target = key.step + 1 ∧
      c.encoder.store.idOf? (.next b.arg b.weak) = some key.formula

/-- Every atom in use has one purpose, which permits the rules that derive it.  The
boundaries at the edge, and those taken off it and not tied yet, are underived. -/
structure Assigned (role : Nat → Option Purpose) (due : List Boundary) (c : Chronicle) : Prop
    extends Filed c where
  range : ∀ a, (role a).isSome ↔ 0 < a ∧ a < c.encoder.supply.next
  serves : ∀ a p, c.Serves a p ↔ role a = some p
  waiting : ∀ b ∈ due ++ c.encoder.edge.boundaries, b ∈ c.opened ∧ c.derivations b.lit.atom = []
  distinct : ((due ++ c.encoder.edge.boundaries).map fun b => b.lit.atom).Nodup
  permits : ∀ a p, role a = some p → p.Permits a (c.derivations a)
  underived : ∀ a, role a = none → c.derivations a = []
  reduced : ∀ rule ∈ c.emitted, rule.Reduced

namespace Filed

variable {c : Chronicle}

/-- A key without an entry has not been waited for. -/
theorem not_opened (h : Filed c) {key : Key} (hnone : c.encoder.cache.entry? key = none)
    {b : Boundary} (hb : b ∈ c.opened) (ht : b.target = key.step + 1)
    (hn : c.encoder.store.idOf? (.next b.arg b.weak) = some key.formula) : False := by
  obtain ⟨-, other, hentry, ht', hn'⟩ := h.opened b hb
  have heq : key = other := Key.eq_of_parts (Option.some_inj.1 (hn.symm.trans hn'))
    (Nat.succ.inj (ht.symm.trans ht'))
  rw [heq, hentry] at hnone
  cases hnone

end Filed

theorem derivations_append {c c' : Chronicle} {more : List Rule}
    (h : c'.emitted = c.emitted ++ more) (a : Nat) :
    c'.derivations a = c.derivations a ++ more.filter fun rule => a ∈ rule.head := by
  rw [derivations, h, List.filter_append]
  rfl

namespace Assigned

variable {role : Nat → Option Purpose} {due : List Boundary} {c c' : Chronicle}

theorem role_next (h : Assigned role due c) : role c.encoder.supply.next = none := by
  rw [← Option.not_isSome_iff_eq_none, h.range]
  exact fun hlt => Nat.lt_irrefl _ hlt.2

theorem ne_next (h : Assigned role due c) {a : Nat} {p : Purpose} (hp : role a = some p) :
    a ≠ c.encoder.supply.next := by
  rintro rfl
  rw [h.role_next] at hp
  cases hp

theorem one_lt_next (h : Assigned role due c) : 1 < c.encoder.supply.next := by
  have hrole : role 1 = some .reserved := (h.serves 1 .reserved).1 rfl
  exact ((h.range 1).1 (by rw [hrole]; rfl)).2

theorem role_of_opened (h : Assigned role due c) {b : Boundary} (hb : b ∈ c.opened) :
    ∃ key, role b.lit.atom = some (.external key) := by
  obtain ⟨hpos, key, hentry, ht, hn⟩ := h.opened b hb
  have hlit : b.lit = ⟨b.lit.atom, false⟩ := by rw [← hpos]
  exact ⟨key, (h.serves _ _).1 ⟨hlit ▸ hentry, b, hb, hlit, ht, hn⟩⟩

/-- A new atom is given a purpose, together with the rules that derive it. -/
theorem allocate (h : Assigned role due c) (new : Purpose) (more : List Rule) (hfiled : Filed c')
    (hnext : c'.encoder.supply.next = c.encoder.supply.next + 1)
    (hserves : ∀ a p, c'.Serves a p ↔ c.Serves a p ∨ a = c.encoder.supply.next ∧ p = new)
    (hemitted : c'.emitted = c.emitted ++ more)
    (hmore : ∀ rule ∈ more, rule.head = [c.encoder.supply.next] ∧ rule.Reduced)
    (hpermits : new.Permits c.encoder.supply.next more)
    (hwaiting : ∀ b ∈ due ++ c'.encoder.edge.boundaries, b ∈ c'.opened ∧
      (b ∈ due ++ c.encoder.edge.boundaries ∨ b.lit.atom = c.encoder.supply.next ∧ more = []))
    (hdistinct : ((due ++ c'.encoder.edge.boundaries).map fun b => b.lit.atom).Nodup) :
    Assigned (Function.update role c.encoder.supply.next (some new)) due c' := by
  have hnew : c'.derivations c.encoder.supply.next = more := by
    rw [derivations_append hemitted, h.underived _ h.role_next, List.nil_append,
      List.filter_eq_self]
    intro rule hr
    rw [(hmore rule hr).1]
    exact decide_eq_true (List.mem_singleton_self _)
  have hold : ∀ {a}, a ≠ c.encoder.supply.next → c'.derivations a = c.derivations a := by
    intro a hne
    rw [derivations_append hemitted, List.filter_eq_nil_iff.2, List.append_nil]
    intro rule hr hmem
    rw [(hmore rule hr).1] at hmem
    exact hne (List.mem_singleton.1 (of_decide_eq_true hmem))
  refine { hfiled with
    range := fun a => ?_
    serves := fun a p => ?_
    waiting := fun b hb => ?_
    distinct := hdistinct
    permits := fun a p hp => ?_
    underived := fun a ha => ?_
    reduced := fun rule hr => ?_ }
  · by_cases ha : a = c.encoder.supply.next
    · have hpos : 0 < c.encoder.supply.next := Nat.lt_of_succ_lt h.one_lt_next
      rw [ha, Function.update_self, hnext]
      exact ⟨fun _ => ⟨hpos, Nat.lt_succ_self _⟩, fun _ => rfl⟩
    · rw [Function.update_of_ne ha, h.range, hnext]
      omega
  · rw [hserves]
    by_cases ha : a = c.encoder.supply.next
    · rw [ha, Function.update_self, h.serves, h.role_next]
      simp [eq_comm]
    · rw [Function.update_of_ne ha, h.serves]
      simp [ha]
  · obtain ⟨hopened, hb | ⟨hb, hnil⟩⟩ := hwaiting b hb
    · obtain ⟨hb, hnil⟩ := h.waiting b hb
      obtain ⟨key, hrole⟩ := h.role_of_opened hb
      exact ⟨hopened, (hold (h.ne_next hrole)).trans hnil⟩
    · exact ⟨hopened, by rw [hb, hnew, hnil]⟩
  · by_cases ha : a = c.encoder.supply.next
    · rw [ha, Function.update_self] at hp
      cases hp
      rw [ha, hnew]
      exact hpermits
    · rw [Function.update_of_ne ha] at hp
      rw [hold ha]
      exact h.permits a p hp
  · have hne : a ≠ c.encoder.supply.next := by
      rintro rfl
      rw [Function.update_self] at ha
      cases ha
    rw [Function.update_of_ne hne] at ha
    rw [hold hne]
    exact h.underived a ha
  · rw [hemitted] at hr
    rcases List.mem_append.1 hr with hr | hr
    · exact h.reduced rule hr
    · exact (hmore rule hr).2

/-! ## Acts that hand out no atom -/

section Quiet

variable {e : Encoder}

theorem number (h : Assigned role due (c.through e)) {store : Store}
    (hext : e.store.Extends store) :
    Assigned role due (c.through { e with store := store }) := by
  have hmono : ∀ {f id}, e.store.idOf? f = some id → store.idOf? f = some id :=
    fun {f _} hf => Store.idOf?_mono hext f hf
  -- A key with an entry is named already, so a larger store gives it no other formula.
  have hback : ∀ {key : Key} {l f}, e.cache.entry? key = some l →
      store.idOf? f = some key.formula → e.store.idOf? f = some key.formula := by
    intro key l f hl hf
    obtain ⟨g, hg⟩ := h.named key l hl
    rwa [Store.idOf?_injective f g hf (hmono hg)]
  refine { h with
    named := fun key l hl => (h.named key l hl).imp fun _ => hmono
    opened := fun b hb => ?_
    serves := fun a p => Iff.trans ?_ (h.serves a p) }
  · obtain ⟨hpos, key, hentry, ht, hn⟩ := h.opened b hb
    exact ⟨hpos, key, hentry, ht, hmono hn⟩
  · cases p with
    | chosen key =>
      exact and_congr_right fun hl => exists_congr fun f => and_congr_left fun _ =>
        ⟨hback hl, hmono⟩
    | external key =>
      exact and_congr_right fun hl => exists_congr fun b => and_congr_right fun _ =>
        and_congr_right fun _ => and_congr_right fun _ => ⟨hback hl, hmono⟩
    | _ => exact Iff.rfl

theorem count (h : Assigned role due (c.through e)) (hits misses : Nat) :
    Assigned role due (c.through
      { e with cache := { e.cache with hits := hits, misses := misses } }) :=
  { h with }

theorem arrange (h : Assigned role due (c.through e)) (edge : Edge)
    (required : List (Key × List Lit)) (hsame : edge.boundaries = e.edge.boundaries) :
    Assigned role due (c.through { e with edge := edge, required := required }) := by
  obtain ⟨boundaries, deferred, instances⟩ := edge
  cases hsame
  exact { h with }

/-- What was filed stays filed when the first entry of a key is written. -/
theorem entry_of_write {key other : Key} {lit l : Lit} (hnone : e.cache.entry? key = none)
    (hl : e.cache.entry? other = some l) : Cache.entry? (e.cache.write key lit) other = some l := by
  have hne : key ≠ other := by
    rintro rfl
    rw [hnone] at hl
    cases hl
  rw [Encoder.entry?_write, if_neg hne]
  exact hl

theorem filed_write (h : Filed (c.through e)) {key : Key} {f : Formula}
    (hn : e.Names key f key.step) (hnone : e.cache.entry? key = none) (lit : Lit) :
    Filed (c.through { e with cache := e.cache.write key lit }) := by
  refine { h with unbound := h.unbound.write key lit, named := fun other l hl => ?_, opened := ?_ }
  · by_cases heq : key = other
    · exact heq ▸ ⟨f, hn.number⟩
    · have hl : Cache.entry? (e.cache.write key lit) other = some l := hl
      rw [Encoder.entry?_write, if_neg heq] at hl
      exact h.named other l hl
  · intro b hb
    obtain ⟨hpos, other, hentry, ht, hid⟩ := h.opened b hb
    exact ⟨hpos, other, entry_of_write hnone hentry, ht, hid⟩

/-- What writing the first entry of a key says about purposes: the key may be that of a
formula that is defined. -/
theorem serves_write (h : Filed (c.through e)) {key : Key} {f : Formula}
    (hn : e.Names key f key.step) (hnone : e.cache.entry? key = none) (lit : Lit) (a : Nat)
    (p : Purpose) :
    (c.through { e with cache := e.cache.write key lit }).Serves a p ↔
      (c.through e).Serves a p ∨
        p = .chosen key ∧ lit = ⟨a, false⟩ ∧ f.isDefinedAt key.step = true := by
  have hsame : ∀ {other : Key}, key ≠ other →
      Cache.entry? (e.cache.write key lit) other = e.cache.entry? other := fun hne => by
    rw [Encoder.entry?_write, if_neg hne]
  have hself : Cache.entry? (e.cache.write key lit) key = some lit := by
    rw [Encoder.entry?_write, if_pos rfl]
  cases p with
  | chosen other =>
    by_cases heq : key = other
    · subst heq
      refine ⟨fun ⟨hl, g, hg, hdefined⟩ => .inr ⟨rfl, ?_, ?_⟩, ?_⟩
      · exact Option.some_inj.1 (hself.symm.trans hl)
      · rwa [Store.idOf?_injective f g hn.number hg]
      · rintro (⟨hl, -⟩ | ⟨-, rfl, hdefined⟩)
        · exact absurd (hnone.symm.trans hl) nofun
        · exact ⟨hself, f, hn.number, hdefined⟩
    · refine ⟨fun ⟨hl, hrest⟩ => .inl ⟨(hsame heq).symm.trans hl, hrest⟩, ?_⟩
      rintro (⟨hl, hrest⟩ | ⟨hp, -⟩)
      · exact ⟨(hsame heq).trans hl, hrest⟩
      · cases hp
        exact absurd rfl heq
  | external other =>
    refine Iff.trans ?_ (or_iff_left fun hp => nomatch hp.1).symm
    by_cases heq : key = other
    · subst heq
      refine ⟨fun ⟨_, b, hb, _, ht, hid⟩ => (h.not_opened hnone hb ht hid).elim, fun ⟨hl, _⟩ => ?_⟩
      exact absurd (hnone.symm.trans hl) nofun
    · exact ⟨fun ⟨hl, hrest⟩ => ⟨(hsame heq).symm.trans hl, hrest⟩,
        fun ⟨hl, hrest⟩ => ⟨(hsame heq).trans hl, hrest⟩⟩
  | _ => exact (or_iff_left fun hp => nomatch hp.1).symm

theorem share (h : Assigned role due (c.through e)) {key : Key} {f : Formula} (lit : Lit)
    (hn : e.Names key f key.step) (hdefined : f.isDefinedAt key.step = false)
    (hnone : e.cache.entry? key = none) :
    Assigned role due (c.through { e with cache := e.cache.write key lit }) := by
  refine { h with
    toFiled := filed_write h.toFiled hn hnone lit
    serves := fun a p => (serves_write h.toFiled hn hnone lit a p).trans ?_ }
  rw [hdefined, ← h.serves]
  exact or_iff_left fun hp => nomatch hp.2.2

/-- Rules that derive only ground atoms. -/
theorem derive (h : Assigned role due (c.through e)) {rule : Rule}
    (hground : ∀ a ∈ rule.head, ∃ key l, e.ground.get? key = some l ∧ l.atom = a)
    (hreduced : rule.Reduced) :
    Assigned role due (c.through { e with rules := e.rules ++ [rule] }) := by
  have hemitted : (c.through { e with rules := e.rules ++ [rule] }).emitted =
      (c.through e).emitted ++ [rule] := (List.append_assoc _ _ _).symm
  have hrole : ∀ a ∈ rule.head, ∃ key, role a = some (.ground key) := by
    intro a ha
    obtain ⟨key, ⟨atom, negated⟩, hl, rfl⟩ := hground a ha
    obtain ⟨hpos, -⟩ := h.owned key _ hl
    have hpos : negated = false := hpos
    exact ⟨key, (h.serves _ _).1 (hpos ▸ hl)⟩
  have hsame : ∀ {a}, (∀ key, role a ≠ some (.ground key)) →
      (c.through { e with rules := e.rules ++ [rule] }).derivations a =
        (c.through e).derivations a := by
    intro a hne
    rw [derivations_append hemitted, List.filter_eq_nil_iff.2, List.append_nil]
    intro other hr hmem
    cases List.mem_singleton.1 hr
    obtain ⟨key, hrole⟩ := hrole a (of_decide_eq_true hmem)
    exact hne key hrole
  refine { h with
    waiting := fun b hb => ?_
    permits := fun a p hp => ?_
    underived := fun a ha => ?_
    reduced := fun other hr => ?_ }
  · obtain ⟨hopened, hnil⟩ := h.waiting b hb
    obtain ⟨key, hexternal⟩ := h.role_of_opened hopened
    refine ⟨hopened, (hsame fun other => ?_).trans hnil⟩
    rw [hexternal]
    exact nofun
  · cases p with
    | ground key => exact trivial
    | _ =>
      rw [hsame fun key => by rw [hp]; exact nofun]
      exact h.permits a _ hp
  · rw [hsame fun key => by rw [ha]; exact nofun]
    exact h.underived a ha
  · rw [hemitted] at hr
    rcases List.mem_append.1 hr with hr | hr
    · exact h.reduced other hr
    · cases List.mem_singleton.1 hr
      exact hreduced

/-- The rule of a boundary that was taken off the edge. -/
theorem tie {b : Boundary} (h : Assigned role (b :: due) (c.through e)) {rules : List Rule}
    (hlength : rules.length ≤ 1)
    (hrules : ∀ rule ∈ rules, rule.head = [b.lit.atom] ∧ rule.Reduced) :
    Assigned role due (c.through { e with rules := e.rules ++ rules }) := by
  have hemitted : (c.through { e with rules := e.rules ++ rules }).emitted =
      (c.through e).emitted ++ rules := (List.append_assoc _ _ _).symm
  obtain ⟨hopened, hnil⟩ := h.waiting b List.mem_cons_self
  obtain ⟨key, hexternal⟩ := h.role_of_opened hopened
  have hsame : ∀ {a}, a ≠ b.lit.atom →
      (c.through { e with rules := e.rules ++ rules }).derivations a =
        (c.through e).derivations a := by
    intro a hne
    rw [derivations_append hemitted, List.filter_eq_nil_iff.2, List.append_nil]
    intro rule hr hmem
    rw [(hrules rule hr).1] at hmem
    exact hne (List.mem_singleton.1 (of_decide_eq_true hmem))
  have hdistinct := List.nodup_cons.1 h.distinct
  refine { h with
    waiting := fun other hother => ?_
    distinct := hdistinct.2
    permits := fun a p hp => ?_
    underived := fun a ha => ?_
    reduced := fun rule hr => ?_ }
  · obtain ⟨hopened, hnil⟩ := h.waiting other (List.mem_cons_of_mem _ hother)
    refine ⟨hopened, (hsame fun heq => hdistinct.1 ?_).trans hnil⟩
    exact List.mem_map.2 ⟨other, hother, heq⟩
  · by_cases heq : a = b.lit.atom
    · subst heq
      cases hexternal.symm.trans hp
      rw [derivations_append hemitted, hnil, List.nil_append]
      exact Nat.le_trans (List.length_filter_le _ _) hlength
    · rw [hsame heq]
      exact h.permits a p hp
  · rw [hsame fun heq => by rw [heq, hexternal] at ha; cases ha]
    exact h.underived a ha
  · rw [hemitted] at hr
    rcases List.mem_append.1 hr with hr | hr
    · exact h.reduced rule hr
    · exact (hrules rule hr).2

theorem drop (h : Assigned role due (c.through e)) : Assigned role [] (c.through e) := by
  have hsub : List.Sublist ([] ++ (c.through e).encoder.edge.boundaries)
      (due ++ (c.through e).encoder.edge.boundaries) := List.sublist_append_right _ _
  exact { h with
    waiting := fun b hb => h.waiting b (hsub.subset hb)
    distinct := h.distinct.sublist (hsub.map _) }

end Quiet

/-! ## Acts that hand out an atom -/

section Allocating

variable {e : Encoder}

/-- The boundaries at the edge when none has been opened. -/
theorem waiting_of_same (h : Assigned role due (c.through e)) {more : List Rule} :
    ∀ b ∈ due ++ e.edge.boundaries, b ∈ c.opened ++ e.edge.boundaries ∧
      (b ∈ due ++ e.edge.boundaries ∨ b.lit.atom = e.supply.next ∧ more = []) :=
  fun b hb => ⟨(h.waiting b hb).1, .inl hb⟩

theorem enter (h : Assigned role due (c.through e)) {key : Key}
    (hnone : e.ground.get? key = none) :
    Assigned (Function.update role e.supply.next (some (.ground key))) due (c.through { e with
      supply := e.supply.fresh.2
      ground :=
        { literals := e.ground.literals.insert key e.supply.fresh.1
          owners := e.ground.owners.insert e.supply.next key } }) := by
  have hget : ∀ other, (e.ground.literals.insert key e.supply.fresh.1).get? other =
      if key = other then some ⟨e.supply.next, false⟩ else e.ground.get? other :=
    fun other => Table.get?_insert _ _ _ _
  have hfiled : Filed (c.through { e with
      supply := e.supply.fresh.2
      ground :=
        { literals := e.ground.literals.insert key e.supply.fresh.1
          owners := e.ground.owners.insert e.supply.next key } }) := by
    refine { h with owned := fun other l hl => ?_ }
    have hl : (e.ground.literals.insert key e.supply.fresh.1).get? other = some l := hl
    rw [hget] at hl
    split at hl
    · next heq =>
      cases hl
      cases heq
      exact ⟨rfl, Table.get?_insert_self _ _ _⟩
    · obtain ⟨hpos, howner⟩ := h.owned other l hl
      -- The atom of an earlier ground atom is not the new one.
      have hrole : role l.atom = some (.ground other) :=
        (h.serves _ _).1 (hl.trans (by rw [← hpos]))
      have hne : e.supply.next ≠ l.atom := (h.ne_next hrole).symm
      refine ⟨hpos, (Table.get?_insert _ _ _ _).trans ?_⟩
      rw [if_neg hne]
      exact howner
  refine h.allocate (.ground key) [] hfiled rfl (fun a p => ?_) (List.append_nil _).symm nofun
    trivial h.waiting_of_same h.distinct
  cases p with
  | ground other =>
    show (e.ground.literals.insert key e.supply.fresh.1).get? other = some ⟨a, false⟩ ↔ _
    rw [hget]
    by_cases heq : key = other
    · subst heq
      rw [if_pos rfl]
      refine ⟨fun hl => ?_, ?_⟩
      · cases hl
        exact .inr ⟨rfl, rfl⟩
      · rintro (hl | ⟨rfl, -⟩)
        · exact absurd (hnone.symm.trans hl) nofun
        · rfl
    · rw [if_neg heq]
      exact (or_iff_left fun hp => heq (Purpose.ground.inj hp.2).symm).symm
  | _ => exact (or_iff_left fun hp => nomatch hp.2).symm

theorem choose (h : Assigned role due (c.through e)) {key : Key} {f : Formula}
    (hn : e.Names key f key.step) (hdefined : f.isDefinedAt key.step = true)
    (hnone : e.cache.entry? key = none) :
    Assigned (Function.update role e.supply.next (some (.chosen key))) due (c.through { e with
      cache := e.cache.write key e.supply.fresh.1
      supply := e.supply.fresh.2
      rules := e.rules ++ [.choice e.supply.next] }) := by
  have hfiled := filed_write h.toFiled hn hnone e.supply.fresh.1
  refine h.allocate (.chosen key) [.choice e.supply.next] { hfiled with } rfl (fun a p => ?_)
    (List.append_assoc _ _ _).symm (fun rule hr => ?_) rfl h.waiting_of_same h.distinct
  · refine (serves_write h.toFiled hn hnone e.supply.fresh.1 a p).trans ?_
    refine or_congr_right ⟨fun ⟨hp, hl, _⟩ => ⟨(Lit.mk.inj hl).1.symm, hp⟩, ?_⟩
    rintro ⟨rfl, hp⟩
    exact ⟨hp, rfl, hdefined⟩
  · cases List.mem_singleton.1 hr
    exact ⟨rfl, nofun⟩

theorem carry (h : Assigned role due (c.through e)) (f : Formula) (origin step : Nat)
    {rules : List Rule} (hlength : rules.length ≤ 2)
    (hrules : ∀ rule ∈ rules, rule.head = [e.supply.next] ∧ rule.Reduced) :
    Assigned (Function.update role e.supply.next
        (some (.carrier ⟨f, origin, step, e.supply.fresh.1⟩))) due (c.through { e with
      supply := e.supply.fresh.2
      rules := e.rules ++ rules
      carriers := e.carriers ++ [⟨f, origin, step, e.supply.fresh.1⟩] }) := by
  have hfiled : Filed (c.through { e with
      supply := e.supply.fresh.2
      rules := e.rules ++ rules
      carriers := e.carriers ++ [⟨f, origin, step, e.supply.fresh.1⟩] }) := by
    refine { h with recorded := ?_ }
    show ((e.carriers ++ [Carrier.mk f origin step e.supply.fresh.1]).map Carrier.lit).Nodup
    rw [List.map_append, List.nodup_append]
    refine ⟨h.recorded, List.nodup_singleton _, fun l hl l' hl' heq => ?_⟩
    cases List.mem_singleton.1 hl'
    obtain ⟨record, hrecord, hlit⟩ := List.mem_map.1 hl
    have hserves : (c.through e).Serves e.supply.next (.carrier record) :=
      ⟨hrecord, hlit.trans heq⟩
    exact h.ne_next ((h.serves _ _).1 hserves) rfl
  refine h.allocate _ rules hfiled rfl (fun a p => ?_) (List.append_assoc _ _ _).symm hrules
    hlength h.waiting_of_same h.distinct
  cases p with
  | carrier record =>
    refine ⟨fun ⟨hmem, hlit⟩ => ?_, ?_⟩
    · rcases List.mem_append.1 hmem with hmem | hmem
      · exact .inl ⟨hmem, hlit⟩
      · cases List.mem_singleton.1 hmem
        exact .inr ⟨(Lit.mk.inj hlit).1.symm, rfl⟩
    · rintro (⟨hmem, hlit⟩ | ⟨rfl, hp⟩)
      · exact ⟨List.mem_append_left _ hmem, hlit⟩
      · cases hp
        exact ⟨List.mem_append_right _ (List.mem_singleton_self _), rfl⟩
  | _ => exact (or_iff_left fun hp => nomatch hp.2).symm

theorem await (h : Assigned role due (c.through e)) {key : Key} {arg : Formula} {weak : Bool}
    (hn : e.Names key (.next arg weak) key.step) (hnone : e.cache.entry? key = none) :
    Assigned (Function.update role e.supply.next (some (.external key))) due (c.through { e with
      cache := e.cache.write key e.supply.fresh.1
      supply := e.supply.fresh.2
      edge := e.edge.openBoundary ⟨e.supply.fresh.1, arg, key.step + 1, weak⟩ }) := by
  have hwrite := filed_write h.toFiled hn hnone e.supply.fresh.1
  have hself : Cache.entry? (e.cache.write key e.supply.fresh.1) key = some e.supply.fresh.1 := by
    rw [Encoder.entry?_write, if_pos rfl]
  have hopened : ∀ {b}, b ∈ c.opened ++ (e.edge.boundaries ++
      [⟨e.supply.fresh.1, arg, key.step + 1, weak⟩]) ↔
        b ∈ c.opened ++ e.edge.boundaries ∨ b = ⟨e.supply.fresh.1, arg, key.step + 1, weak⟩ := by
    intro b
    rw [← List.append_assoc, List.mem_append, List.mem_singleton]
  have hfiled : Filed (c.through { e with
      cache := e.cache.write key e.supply.fresh.1
      supply := e.supply.fresh.2
      edge := e.edge.openBoundary ⟨e.supply.fresh.1, arg, key.step + 1, weak⟩ }) := by
    refine { hwrite with opened := fun b hb => ?_ }
    rcases hopened.1 hb with hb | rfl
    · exact hwrite.opened b hb
    · exact ⟨rfl, key, hself, rfl, hn.number⟩
  refine h.allocate (.external key) [] hfiled rfl (fun a p => ?_) (List.append_nil _).symm nofun
    (Nat.zero_le 1) (fun b hb => ?_) ?_
  · have hbase : (c.through { e with cache := e.cache.write key e.supply.fresh.1 }).Serves a p ↔
        (c.through e).Serves a p :=
      (serves_write h.toFiled hn hnone e.supply.fresh.1 a p).trans
        (or_iff_left fun hp => nomatch hp.2.2)
    rw [← hbase]
    cases p with
    | external other =>
      refine ⟨fun ⟨hl, b, hb, hlit, ht, hid⟩ => ?_, ?_⟩
      · rcases hopened.1 hb with hb | rfl
        · exact .inl ⟨hl, b, hb, hlit, ht, hid⟩
        · have heq : other = key := Key.eq_of_parts
            (Option.some_inj.1 (hid.symm.trans hn.number)) (Nat.succ.inj ht).symm
          exact .inr ⟨(Lit.mk.inj hlit).1.symm, heq ▸ rfl⟩
      · rintro (⟨hl, b, hb, hrest⟩ | ⟨rfl, hp⟩)
        · exact ⟨hl, b, hopened.2 (.inl hb), hrest⟩
        · cases hp
          exact ⟨hself, _, hopened.2 (.inr rfl), rfl, rfl, hn.number⟩
    | _ => exact (or_iff_left fun hp => nomatch hp.2).symm
  · rcases List.mem_append.1 hb with hdue | hb
    · exact ⟨hopened.2 (.inl (h.waiting b (List.mem_append_left _ hdue)).1),
        .inl (List.mem_append_left _ hdue)⟩
    · rcases List.mem_append.1 hb with hold | hnew
      · exact ⟨hopened.2 (.inl (List.mem_append_right _ hold)),
          .inl (List.mem_append_right _ hold)⟩
      · cases List.mem_singleton.1 hnew
        exact ⟨hopened.2 (.inr rfl), .inr ⟨rfl, rfl⟩⟩
  · show ((due ++ (e.edge.boundaries ++ [Boundary.mk e.supply.fresh.1 arg (key.step + 1) weak])).map
      fun b => b.lit.atom).Nodup
    rw [← List.append_assoc, List.map_append, List.nodup_append]
    refine ⟨h.distinct, List.nodup_singleton _, fun a ha a' ha' heq => ?_⟩
    cases List.mem_singleton.1 ha'
    obtain ⟨b, hb, rfl⟩ := List.mem_map.1 ha
    obtain ⟨other, hrole⟩ := h.role_of_opened (h.waiting b hb).1
    exact h.ne_next hrole heq

end Allocating

/-! ## Acts and operations -/

/-- **Every act keeps one purpose for every atom.** -/
theorem act {a b : List Boundary × Encoder} (hact : Encoder.Act a b)
    (h : Assigned role a.1 (c.through a.2)) : ∃ role, Assigned role b.1 (c.through b.2) := by
  cases hact with
  | number hext => exact ⟨_, h.number hext⟩
  | count hits misses => exact ⟨_, h.count hits misses⟩
  | arrange edge required hsame => exact ⟨_, h.arrange edge required hsame⟩
  | enter hnone => exact ⟨_, h.enter hnone⟩
  | choose hn hdefined hnone => exact ⟨_, h.choose hn hdefined hnone⟩
  | share lit hn hdefined hnone => exact ⟨_, h.share lit hn hdefined hnone⟩
  | await hn hnone => exact ⟨_, h.await hn hnone⟩
  | carry f origin step rules hlength hrules => exact ⟨_, h.carry f origin step hlength hrules⟩
  | derive rule hground hreduced => exact ⟨_, h.derive hground hreduced⟩
  | tie rules hlength hrules => exact ⟨_, h.tie hlength hrules⟩
  | drop => exact ⟨_, h.drop⟩

theorem acts {a b : List Boundary × Encoder} (hacts : Encoder.Acts a b)
    (h : Assigned role a.1 (c.through a.2)) : ∃ role, Assigned role b.1 (c.through b.2) := by
  induction hacts with
  | refl => exact ⟨role, h⟩
  | tail _ hact ih =>
    obtain ⟨role, h⟩ := ih
    exact h.act hact

/-- Between two operations, boundaries can be taken off the edge. -/
theorem take (h : Assigned role [] c) {due : List Boundary} {edge : Edge}
    (hperm : (due ++ edge.boundaries).Perm c.encoder.edge.boundaries) :
    Assigned role due (c.through { c.encoder with edge := edge }) := by
  have hopen : ∀ b ∈ due ++ edge.boundaries, b ∈ c.opened := fun b hb =>
    (h.waiting b (hperm.subset hb)).1
  -- No boundary is new, so those that have been open are the same.
  have hopened : ∀ {b}, b ∈ c.opened ++ edge.boundaries ↔ b ∈ c.opened := by
    intro b
    rw [List.mem_append]
    exact or_iff_left_of_imp fun hb => hopen b (List.mem_append_right _ hb)
  refine { h with
    opened := fun b hb => h.opened b (hopened.1 hb)
    serves := fun a p => Iff.trans ?_ (h.serves a p)
    waiting := fun b hb => ⟨hopened.2 (hopen b hb), (h.waiting b (hperm.subset hb)).2⟩
    distinct := (hperm.map _).nodup_iff.2 h.distinct }
  cases p with
  | external key =>
    exact and_congr_right fun _ => exists_congr fun b => and_congr_left fun _ => hopened
  | _ => exact Iff.rfl

/-- A computation that acts keeps one purpose for every atom. -/
theorem acting {α : Type} {x : Encode α} (hx : Acting x) (h : Assigned role [] c) :
    ∃ role, Assigned role [] (c.through (stateAfter x c.encoder)) :=
  acts (hx c.encoder h.unbound []) (h.take (List.Perm.refl _))

theorem resolveBoundaries (h : Assigned role [] c) (window : Window) (step : Nat) :
    ∃ role, Assigned role []
      (c.through (stateAfter (Encoder.resolveBoundaries window step) c.encoder)) := by
  rw [Encoder.stateAfter_resolveBoundaries]
  refine acts (Encoder.acts_tieBoundaries window step _ ?_) (h.take ?_)
  · exact h.unbound
  · have hfilter := List.filter_append_perm (fun b : Boundary => decide (b.target = step))
      c.encoder.edge.boundaries
    simpa only [Edge.takeDue, decide_not] using hfilter

theorem close (h : Assigned role [] c) :
    ∃ role, Assigned role [] (c.through (stateAfter Encoder.close c.encoder)) :=
  acts (Encoder.acts_close c.encoder) (h.take (by rw [List.append_nil]))

theorem fresh (h : Assigned role [] c) :
    Assigned (Function.update role c.encoder.supply.next (some .host)) [] (c.perform .fresh) := by
  have h : Assigned role [] (c.through c.encoder) := h.take (List.Perm.refl _)
  have hemitted : (c.perform .fresh).emitted = (c.through c.encoder).emitted ++ [] := by
    show (c.taken ++ []) ++ c.encoder.rules = (c.taken ++ c.encoder.rules) ++ []
    rw [List.append_nil, List.append_nil]
  refine h.allocate .host [] { h with } rfl (fun a p => ?_) hemitted nofun rfl h.waiting_of_same
    h.distinct
  cases p with
  | host =>
    show _ ∈ c.handed ++ [c.encoder.supply.fresh.1] ↔ _ ∈ c.handed ∨ _
    rw [List.mem_append, List.mem_singleton]
    exact or_congr_right ⟨fun hl => ⟨(Lit.mk.inj hl).1, rfl⟩, fun ⟨ha, _⟩ => ha ▸ rfl⟩
  | _ => exact (or_iff_left fun hp => nomatch hp.2).symm

theorem takeRules (h : Assigned role [] c) : Assigned role [] (c.perform .takeRules) := by
  have h : Assigned role [] (c.through c.encoder) := h.take (List.Perm.refl _)
  have hemitted : (c.perform .takeRules).emitted = (c.through c.encoder).emitted :=
    List.append_nil _
  have hsame : ∀ a, (c.perform .takeRules).derivations a = (c.through c.encoder).derivations a :=
    fun a => congrArg (List.filter _) hemitted
  have hhanded : (c.perform .takeRules).handed = (c.through c.encoder).handed := List.append_nil _
  refine { h with
    serves := fun a p => Iff.trans ?_ (h.serves a p)
    waiting := fun b hb => ⟨(h.waiting b hb).1, (hsame _).trans (h.waiting b hb).2⟩
    permits := fun a p hp => (hsame a).symm ▸ h.permits a p hp
    underived := fun a ha => (hsame a).trans (h.underived a ha)
    reduced := fun rule hr => h.reduced rule (hemitted ▸ hr) }
  cases p with
  | host =>
    show _ ∈ (c.perform .takeRules).handed ↔ _
    rw [hhanded]
    rfl
  | _ => exact Iff.rfl

/-- An operation that hands nothing over is a change of the encoder alone. -/
theorem of_through {operation : Encoder.Operation} (htaken : operation.taken c.encoder = [])
    (hhanded : operation.handed c.encoder = [])
    (h : ∃ role, Assigned role [] (c.through (stateAfter operation.run c.encoder))) :
    ∃ role, Assigned role [] (c.perform operation) := by
  have hsame : c.perform operation = c.through (stateAfter operation.run c.encoder) := by
    unfold perform
    rw [htaken, hhanded, List.append_nil, List.append_nil]
    rfl
  rw [hsame]
  exact h

theorem perform (h : Assigned role [] c) {operation : Encoder.Operation}
    (hplain : operation.binds = false) : ∃ role, Assigned role [] (c.perform operation) := by
  cases operation with
  | number f => exact of_through rfl rfl (h.acting (.map _ (.register f)))
  | numberPath path =>
    refine of_through rfl rfl (h.acting (.modify fun _ e => ?_))
    exact .number (e.store.internPath_spec path).grown
  | fresh => exact ⟨_, h.fresh⟩
  | takeRules => exact ⟨_, h.takeRules⟩
  | bind f step host => cases hplain
  | encode window f step => exact of_through rfl rfl (h.acting (.map _ (.encode window f step)))
  | require window f step guard => exact of_through rfl rfl (h.acting (.require window f step guard))
  | resolveBoundaries window step =>
    refine of_through rfl rfl ?_
    have hstate := stateAfter_bind_pure (Encoder.resolveBoundaries window step) (fun _ => ())
      c.encoder
    exact hstate ▸ h.resolveBoundaries window step
  | runDeferred window step => exact of_through rfl rfl (h.acting (.runDeferred window step))
  | advanceInstances window step =>
    exact of_through rfl rfl (h.acting (.advanceInstances window step))
  | close =>
    refine of_through rfl rfl ?_
    have hstate := stateAfter_bind_pure Encoder.close (fun _ => ()) c.encoder
    exact hstate ▸ h.close

/-- A new encoder has handed out the reserved atom only. -/
theorem start : Assigned (fun a => if a = 1 then some .reserved else none) [] {} where
  unbound := fun _ => rfl
  named := nofun
  owned := nofun
  recorded := List.nodup_nil
  opened := nofun
  range := fun a => by
    show (if a = 1 then some Purpose.reserved else none).isSome ↔ 0 < a ∧ a < 2
    split <;> simp <;> omega
  serves := fun a p => by
    cases p with
    | reserved => simp [Serves]
    | ground _ | host => exact ⟨nofun, fun hp => by split at hp <;> cases hp⟩
    | chosen _ | external _ | carrier _ =>
      exact ⟨fun hp => (nomatch hp.1), fun hp => by split at hp <;> cases hp⟩
  waiting := nofun
  distinct := List.nodup_nil
  permits := fun a p hp => by
    split at hp <;> cases hp
    rfl
  underived := fun _ _ => rfl
  reduced := nofun

end Assigned

end Chronicle
end Exact

namespace Chronicle

section InRange

variable [Arithmetic] {c c' : Chronicle}

theorem grows_perform (c : Chronicle) {operation : Encoder.Operation} (h : operation.InRange) :
    c.encoder.Grows (c.perform operation).encoder :=
  (Encoder.Operation.agrees h).grows c.encoder

/-- **In range, words do not show.** -/
theorem perform_eq_exact {operation : Encoder.Operation} (h : operation.InRange)
    (hrange : (c.perform operation).encoder.InRange) :
    c.perform operation = @perform .exact c operation := by
  have hagrees := (Encoder.Operation.agrees h).agree c.encoder (Nat.zero_le _) (.inl hrange)
  have hstate : stateAfter operation.run c.encoder =
      stateAfter (@Encoder.Operation.run .exact operation) c.encoder := stateAfter_congr hagrees
  have hhanded : operation.handed c.encoder =
      @Encoder.Operation.handed .exact c.encoder operation := by
    cases operation with
    | fresh => exact congrArg (fun supply => [supply.1]) (Agrees.fresh_eq hrange.atoms)
    | _ => rfl
  unfold perform
  rw [hstate, hhanded]

theorem Happens.grows (h : Happens c c') : c.encoder.Grows c'.encoder := by
  cases h with
  | perform _ hrange => exact c.grows_perform hrange
  | grow hgrowth => exact ⟨Nat.le_refl _, hgrowth.extends.size_le⟩

end InRange

end Chronicle
end TemporalHorizon

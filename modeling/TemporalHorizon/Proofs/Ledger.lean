import TemporalHorizon.Proofs.Numbering
import TemporalHorizon.Proofs.Termination

/-!
# The ledger of an encoder

An encoder files literals under packed numbers of keys, keys hold numbers of
formulas, and a store that grows gives out these numbers.  None of this matters
for what an encoder says, so it is removed here once and for all: the *ledger* of
an encoder shows its tables as functions of a formula and a step.  The store and
the lookup counts are not part of it; numbering a formula or looking one up
changes nothing that the ledger shows.

The rules of a ledger are all rules so far: those that were taken away before and
those that the encoder still holds.  Taking rules away does not change a ledger
either.

For every basic operation of the encoder there is one statement: it succeeds, and
the ledger afterwards is a stated update of the ledger before.  They are phrased
with `Does`, which also lets a computation end in the fault of an unfolding that
is too deep; `Does.exists_ok` closes that way out at the end.
-/

namespace TemporalHorizon

attribute [local instance] Arithmetic.exact

/-! ## Packed keys -/

theorem max_eq_of_squarePair_eq {a b c d : Nat} (h : squarePair a b = squarePair c d) :
    max a b = max c d := by
  have h1 := squarePair_bounds a b
  have h2 := squarePair_bounds c d
  generalize max a b = m at *
  generalize max c d = n at *
  rcases Nat.lt_trichotomy m n with hlt | heq | hgt
  · have := Nat.mul_le_mul (Nat.succ_le_of_lt hlt) (Nat.succ_le_of_lt hlt)
    rw [Nat.succ_mul_succ] at this
    omega
  · exact heq
  · have := Nat.mul_le_mul (Nat.succ_le_of_lt hgt) (Nat.succ_le_of_lt hgt)
    rw [Nat.succ_mul_succ] at this
    omega

theorem squarePair_injective {a b c d : Nat} (h : squarePair a b = squarePair c d) :
    a = c ∧ b = d := by
  have hmax := max_eq_of_squarePair_eq h
  unfold squarePair at h
  split at h <;> split at h
  · obtain rfl : b = d := by omega
    omega
  · obtain rfl : b = c := by omega
    omega
  · obtain rfl : a = d := by omega
    omega
  · obtain rfl : a = c := by omega
    omega

/-- Keys in range are packed apart. -/
theorem Key.InRange.pack_injective [Arithmetic] {key other : Key} (h : key.InRange)
    (h' : other.InRange) (heq : key.pack = other.pack) : key = other := by
  rw [h.pack_eq, h'.pack_eq] at heq
  obtain ⟨⟨i⟩, s⟩ := key
  obtain ⟨⟨j⟩, t⟩ := other
  obtain ⟨rfl, rfl⟩ := squarePair_injective heq
  rfl

theorem Key.InRange.pack_eq_iff [Arithmetic] {key other : Key} (h : key.InRange)
    (h' : other.InRange) : key.pack = other.pack ↔ key = other :=
  ⟨h.pack_injective h', congrArg pack⟩

theorem Key.pack_injective {key other : Key} (h : key.pack = other.pack) : key = other :=
  InRange.pack_injective ⟨rfl, rfl⟩ ⟨rfl, rfl⟩ h

theorem Key.pack_eq_iff {key other : Key} : key.pack = other.pack ↔ key = other :=
  ⟨pack_injective, congrArg pack⟩

/-! ## Sheets -/

/-- Literals of formulas at steps. -/
abbrev Sheet := Formula → Nat → Option Lit

namespace Sheet

/-- The sheet with another value for one formula at one step. -/
def put (sheet : Sheet) (f : Formula) (s : Nat) (value : Option Lit) : Sheet := fun g t =>
  if g = f ∧ t = s then value else sheet g t

@[simp] theorem put_self (sheet : Sheet) (f : Formula) (s : Nat) (value : Option Lit) :
    sheet.put f s value f s = value := if_pos ⟨rfl, rfl⟩

theorem put_of_ne {sheet : Sheet} {f g : Formula} {s t : Nat} {value : Option Lit}
    (h : ¬ (g = f ∧ t = s)) : sheet.put f s value g t = sheet g t := if_neg h

/-- Writing where there was nothing keeps what there was. -/
theorem put_eq_some {sheet : Sheet} {f g : Formula} {s t : Nat} {lit l : Lit}
    (h : sheet f s = none) (hg : sheet g t = some l) : sheet.put f s (some lit) g t = some l := by
  rw [put_of_ne]
  · exact hg
  · rintro ⟨rfl, rfl⟩
    rw [h] at hg
    cases hg

/-- The sheet of a table of keys, with the numbers of a store. -/
def ofTable (store : Store) (table : Key → Option Lit) : Sheet := fun f s =>
  (store.idOf? f).bind fun id => table ⟨id, s⟩

theorem ofTable_eq {store : Store} {table : Key → Option Lit} {f : Formula} {key : Key}
    (h : store.idOf? f = some key.formula) : ofTable store table f key.step = table key := by
  rw [ofTable, h]
  rfl

/-- New numbers have no entries yet, so a larger store gives the same sheet. -/
theorem ofTable_of_old {store later : Store} {table : Key → Option Lit} (h : store.Extends later)
    (old : ∀ f key lit, later.idOf? f = some key.formula → table key = some lit →
      store.idOf? f = some key.formula) : ofTable later table = ofTable store table := by
  funext f s
  unfold ofTable
  cases hid : store.idOf? f with
  | some id => rw [Store.idOf?_mono h f hid]
  | none =>
    cases hlater : later.idOf? f with
    | none => rfl
    | some id =>
      show table ⟨id, s⟩ = none
      cases htable : table ⟨id, s⟩ with
      | none => rfl
      | some lit =>
        have hold := old f ⟨id, s⟩ lit hlater htable
        rw [hid] at hold
        cases hold

theorem ofTable_of_extends {store later : Store} {table : Key → Option Lit}
    (hc : store.Closed) (h : store.Extends later)
    (range : ∀ key lit, table key = some lit → key.formula.index < store.size) :
    ofTable later table = ofTable store table :=
  ofTable_of_old h fun f _ _ hid hl => Store.idOf?_of_lt hc h f hid (range _ _ hl)

theorem ofTable_of_named {store later : Store} {table : Key → Option Lit} (h : store.Extends later)
    (named : ∀ key lit, table key = some lit → ∃ f, store.idOf? f = some key.formula) :
    ofTable later table = ofTable store table := by
  refine ofTable_of_old h fun f key lit hid hl => ?_
  obtain ⟨g, hg⟩ := named key lit hl
  rwa [Store.idOf?_injective f g hid (Store.idOf?_mono h g hg)]

/-- One entry of the table is one entry of the sheet. -/
theorem ofTable_put {store : Store} {table table' : Key → Option Lit} {f : Formula} {key : Key}
    {value : Option Lit} (hid : store.idOf? f = some key.formula)
    (h : ∀ other, table' other = if key = other then value else table other) :
    ofTable store table' = (ofTable store table).put f key.step value := by
  funext g t
  by_cases hg : g = f ∧ t = key.step
  · rw [hg.1, hg.2, put_self, ofTable_eq hid, h, if_pos rfl]
  · rw [put_of_ne hg]
    unfold ofTable
    cases hgid : store.idOf? g with
    | none => rfl
    | some id =>
      show table' ⟨id, t⟩ = table ⟨id, t⟩
      rw [h, if_neg]
      rintro rfl
      exact hg ⟨Store.idOf?_injective g f hgid hid, rfl⟩

end Sheet

/-! ## Ledgers -/

/-- What an encoder says about formulas at steps. -/
structure Ledger where
  /-- The representatives of composite formulas. -/
  entry : Sheet
  /-- Host literals that wait for a first entry. -/
  binding : Sheet
  /-- The literals of ground atoms. -/
  ground : Sheet
  /-- The next atom to be handed out. -/
  next : Nat
  /-- All rules so far. -/
  rules : List Rule
  edge : Edge
  carriers : List Carrier
  /-- The requirements that have been taken on, with their guards. -/
  required : Formula → Nat → List Lit → Prop

namespace Ledger

/-- The literal of a formula at a step: that of the ground atom or the
representative. -/
def lit (ledger : Ledger) : Sheet := fun f s =>
  if f.isAtom then ledger.ground f s else ledger.entry f s

/-- The ledger with more rules, simplified. -/
def post (ledger : Ledger) (rules : List Rule) : Ledger :=
  { ledger with rules := ledger.rules ++ rules.filterMap Encoder.simplify? }

/-- The ledger with an entry, which consumes a binding. -/
def write (ledger : Ledger) (f : Formula) (s : Nat) (lit : Lit) : Ledger :=
  { ledger with
    entry := ledger.entry.put f s (some lit)
    binding := ledger.binding.put f s none }

/-- The literal that a first entry gets: the bound host literal, or the next
atom. -/
def candidate (ledger : Ledger) (f : Formula) (s : Nat) : Lit :=
  (ledger.binding f s).getD ⟨ledger.next, false⟩

/-- The ledger with a first entry for its candidate. -/
def claim (ledger : Ledger) (f : Formula) (s : Nat) : Ledger :=
  { ledger.write f s (ledger.candidate f s) with
    next := if (ledger.binding f s).isSome then ledger.next else ledger.next + 1 }

/-- The literal that represents a formula which shares a literal: the bound host
literal, or the shared one. -/
def representative (ledger : Ledger) (f : Formula) (s : Nat) (lit : Lit) : Lit :=
  (ledger.binding f s).getD lit

/-- The rules that tie a bound host literal to a shared one. -/
def tieRules (ledger : Ledger) (f : Formula) (s : Nat) (lit : Lit) : List Rule :=
  match ledger.binding f s with
  | some host => .choice host.atom :: Rule.equal host lit
  | none => []

/-- The ledger after a formula has been given a shared literal. -/
def share (ledger : Ledger) (f : Formula) (s : Nat) (lit : Lit) : Ledger :=
  (ledger.write f s (ledger.representative f s lit)).post (ledger.tieRules f s lit)

/-- The literal of the atom with the opposite classical sign. -/
def opposite? (ledger : Ledger) (f : Formula) (s : Nat) : Option Lit :=
  match f with
  | .atom name args positive => ledger.ground (.atom name args !positive) s
  | _ => none

/-- The ledger with a new ground atom. -/
def enter (ledger : Ledger) (f : Formula) (s : Nat) : Ledger :=
  { ledger with
    ground := ledger.ground.put f s (some ⟨ledger.next, false⟩)
    next := ledger.next + 1 }.post
      ((ledger.opposite? f s).toList.map fun other => .constraint [⟨ledger.next, false⟩, other])

@[simp] theorem post_nil (ledger : Ledger) : ledger.post [] = ledger := by
  rw [post, List.filterMap_nil, List.append_nil]

theorem post_append (ledger : Ledger) (rules more : List Rule) :
    (ledger.post rules).post more = ledger.post (rules ++ more) := by
  simp only [post, List.filterMap_append, List.append_assoc]

end Ledger

/-! ## The ledger of an encoder -/

namespace Encoder

/-- What an encoder says, when the given rules were taken away before. -/
def ledger [Arithmetic] (given : List Rule) (encoder : Encoder) : Ledger where
  entry := .ofTable encoder.store encoder.cache.entry?
  binding := .ofTable encoder.store encoder.cache.binding?
  ground := .ofTable encoder.store encoder.ground.get?
  next := encoder.supply.next
  rules := given ++ encoder.rules
  edge := encoder.edge
  carriers := encoder.carriers
  required := fun f s guard =>
    ∃ id, encoder.store.idOf? f = some id ∧ (⟨id, s⟩, guard) ∈ encoder.required

/-- Everything is filed under numbers of the store, and no ground atom is hidden by
another one. -/
structure Tidy (encoder : Encoder) : Prop where
  store : encoder.store.Closed
  entry : ∀ key lit, encoder.cache.entry? key = some lit →
    key.formula.index < encoder.store.size
  binding : ∀ key lit, encoder.cache.binding? key = some lit →
    key.formula.index < encoder.store.size
  ground : ∀ key lit, (key, lit) ∈ encoder.ground.toList →
    (∃ f, encoder.store.idOf? f = some key.formula) ∧ encoder.ground.get? key = some lit
  required : ∀ key guard, (key, guard) ∈ encoder.required →
    key.formula.index < encoder.store.size

/-- An encoder has gone on to a state with a given ledger; formulas have kept
their numbers. -/
structure Follows (given : List Rule) (before after : Encoder) (ledger : Ledger) : Prop where
  tidy : after.Tidy
  grown : before.store.Extends after.store
  ledger_eq : after.ledger given = ledger

theorem Follows.refl {given : List Rule} {encoder : Encoder} (h : encoder.Tidy) :
    Follows given encoder encoder (encoder.ledger given) := ⟨h, .refl _, rfl⟩

theorem Follows.trans {given : List Rule} {a b c : Encoder} {ledger ledger' : Ledger}
    (h : Follows given a b ledger) (h' : Follows given b c ledger') :
    Follows given a c ledger' := ⟨h'.tidy, h.grown.trans h'.grown, h'.ledger_eq⟩

/-! ## Computations that succeed -/

variable {α β : Type} {encoder : Encoder}

/-- A computation succeeds with a result and a state of the stated kind, or gives
up because an unfolding is too deep. -/
def Does (action : Encode α) (encoder : Encoder) (post : α → Encoder → Prop) : Prop :=
  match action encoder with
  | .ok a after => post a after
  | .error failure _ => ∃ f s, failure = .fault (.unfoldingTooDeep f s)

namespace Does

theorem pure {a : α} {post : α → Encoder → Prop} (h : post a encoder) :
    Does (pure a : Encode α) encoder post := h

theorem bind {x : Encode α} {next : α → Encode β} {R : α → Encoder → Prop}
    {post : β → Encoder → Prop} (hx : Does x encoder R)
    (hn : ∀ a after, R a after → Does (next a) after post) :
    Does (x >>= next) encoder post := by
  unfold Does at hx ⊢
  change match EStateM.bind x next encoder with
    | .ok a after => post a after
    | .error failure _ => ∃ f s, failure = .fault (.unfoldingTooDeep f s)
  unfold EStateM.bind
  cases h : x encoder with
  | ok a after =>
    rw [h] at hx
    exact hn a after hx
  | error failure after =>
    rw [h] at hx
    exact hx

theorem mono {x : Encode α} {post post' : α → Encoder → Prop} (hx : Does x encoder post)
    (h : ∀ a after, post a after → post' a after) : Does x encoder post' := by
  unfold Does at hx ⊢
  cases hr : x encoder with
  | ok a after =>
    rw [hr] at hx
    exact h a after hx
  | error failure after =>
    rw [hr] at hx
    exact hx

theorem map {x : Encode α} {g : α → β} {post : β → Encoder → Prop}
    (hx : Does x encoder fun a after => post (g a) after) : Does (g <$> x) encoder post := by
  unfold Does at hx ⊢
  change match EStateM.map g x encoder with
    | .ok a after => post a after
    | .error failure _ => ∃ f s, failure = .fault (.unfoldingTooDeep f s)
  unfold EStateM.map
  cases h : x encoder with
  | ok a after =>
    rw [h] at hx
    exact hx
  | error failure after =>
    rw [h] at hx
    exact hx

theorem get_bind {next : Encoder → Encode β} {post : β → Encoder → Prop}
    (h : Does (next encoder) encoder post) : Does (get >>= next) encoder post := h

theorem modify_bind {g : Encoder → Encoder} {next : PUnit → Encode β}
    {post : β → Encoder → Prop} (h : Does (next ⟨⟩) (g encoder) post) :
    Does (modify g >>= next) encoder post := h

theorem modify {g : Encoder → Encoder} {post : PUnit → Encoder → Prop}
    (h : post ⟨⟩ (g encoder)) : Does (modify g) encoder post := h

theorem pure_bind {a : α} {next : α → Encode β} {post : β → Encoder → Prop}
    (h : Does (next a) encoder post) : Does (Pure.pure a >>= next) encoder post := h

theorem modifyGet {g : Encoder → α × Encoder} {post : α → Encoder → Prop}
    (h : post (g encoder).1 (g encoder).2) : Does (modifyGet g) encoder post := h

/-- A walk over a list, with an invariant that knows what is left. -/
theorem forM {action : α → Encode PUnit} {I : List α → Encoder → Prop}
    (hstep : ∀ x rest now, I (x :: rest) now → Does (action x) now fun _ => I rest)
    {xs : List α} (h : I xs encoder) : Does (xs.forM action) encoder fun _ => I [] := by
  induction xs generalizing encoder with
  | nil => exact pure h
  | cons x rest ih => exact (hstep x rest encoder h).bind fun _ _ ha => ih ha

end Does

/-- A computation that never gives up for lack of depth does what it does. -/
theorem Does.exists_ok {x : Encode α} {post : α → Encoder → Prop}
    (hs : Shallow x) (h : Does x encoder post) :
    ∃ a after, x encoder = .ok a after ∧ post a after := by
  unfold Does at h
  cases hr : x encoder with
  | ok a after =>
    rw [hr] at h
    exact ⟨a, after, rfl, h⟩
  | error failure after =>
    rw [hr] at h
    obtain ⟨f, s, rfl⟩ := h
    exact absurd rfl (hs _ _ _ hr f s)

/-! ## Numbering and looking up -/

variable (given : List Rule)

/-- A key is the key of a formula at a step. -/
structure Names (encoder : Encoder) (key : Key) (f : Formula) (s : Nat) : Prop where
  step_eq : key.step = s
  number : encoder.store.idOf? f = some key.formula

theorem Names.mono {a b : Encoder} (h : a.store.Extends b.store) {key : Key} {f : Formula}
    {s : Nat} (hn : a.Names key f s) : b.Names key f s :=
  ⟨hn.step_eq, Store.idOf?_mono h f hn.number⟩

theorem Tidy.ground_lt (h : encoder.Tidy) {key : Key} {lit : Lit}
    (hk : encoder.ground.get? key = some lit) : key.formula.index < encoder.store.size := by
  obtain ⟨⟨f, hid⟩, -⟩ := h.ground key lit (Table.mem_entries_of_get? hk)
  exact Store.idOf?_lt hid

/-- A larger store shows the same ledger. -/
theorem Tidy.follows_store (h : encoder.Tidy) {store : Store}
    (hext : encoder.store.Extends store) (hc : store.Closed) :
    Follows given encoder { encoder with store := store } (encoder.ledger given) := by
  have hle := hext.size_le
  refine ⟨⟨hc, fun k l hk => ?_, fun k l hk => ?_, fun k l hk => ?_, fun k g hk => ?_⟩, hext, ?_⟩
  · exact Nat.lt_of_lt_of_le (h.entry k l hk) hle
  · exact Nat.lt_of_lt_of_le (h.binding k l hk) hle
  · obtain ⟨⟨f, hid⟩, hget⟩ := h.ground k l hk
    exact ⟨⟨f, Store.idOf?_mono hext f hid⟩, hget⟩
  · exact Nat.lt_of_lt_of_le (h.required k g hk) hle
  · unfold ledger
    rw [Sheet.ofTable_of_extends h.store hext h.entry,
      Sheet.ofTable_of_extends h.store hext h.binding,
      Sheet.ofTable_of_extends h.store hext fun _ _ hk => h.ground_lt hk]
    congr 1
    funext f s guard
    refine propext ⟨?_, ?_⟩
    · rintro ⟨id, hid, hmem⟩
      exact ⟨id, Store.idOf?_of_lt h.store hext f hid (h.required _ _ hmem), hmem⟩
    · rintro ⟨id, hid, hmem⟩
      exact ⟨id, Store.idOf?_mono hext f hid, hmem⟩

theorem register_does (h : encoder.Tidy) (f : Formula) :
    Does (register f) encoder fun id after =>
      after.store.idOf? f = some id ∧ Follows given encoder after (encoder.ledger given) := by
  have hf := encoder.store.intern_spec f
  exact ⟨hf.number, h.follows_store given hf.grown (hf.closed h.store)⟩

theorem keyOf_does (h : encoder.Tidy) (f : Formula) (s : Nat) :
    Does (keyOf f s) encoder fun key after =>
      after.Names key f s ∧ Follows given encoder after (encoder.ledger given) :=
  (register_does given h f).bind fun _ _ hid => .pure ⟨⟨rfl, hid.1⟩, hid.2⟩

/-- Counting lookups does not show in the ledger. -/
theorem lookup_does (h : encoder.Tidy) {key : Key} {f : Formula} {s : Nat}
    (hn : encoder.Names key f s) :
    Does (lookup key) encoder fun lit after =>
      lit = (encoder.ledger given).entry f s ∧
        Follows given encoder after (encoder.ledger given) := by
  obtain ⟨rfl, hid⟩ := hn
  have hentry : (encoder.ledger given).entry f key.step = encoder.cache.entry? key :=
    Sheet.ofTable_eq hid
  rw [hentry]
  refine Does.modifyGet ?_
  unfold Cache.lookup
  cases hc : encoder.cache.entry? key with
  | some lit => exact ⟨rfl, ⟨h.store, h.entry, h.binding, h.ground, h.required⟩, .refl _, rfl⟩
  | none => exact ⟨rfl, ⟨h.store, h.entry, h.binding, h.ground, h.required⟩, .refl _, rfl⟩

/-! ## Rules and atoms -/

theorem emit_does (h : encoder.Tidy) (rule : Rule) :
    Does (emit rule) encoder fun _ after =>
      Follows given encoder after ((encoder.ledger given).post [rule]) := by
  refine Does.modify ?_
  unfold Ledger.post
  cases hs : simplify? rule with
  | none =>
    rw [List.filterMap_cons_none hs, List.filterMap_nil, List.append_nil]
    exact .refl h
  | some simple =>
    rw [List.filterMap_cons_some hs, List.filterMap_nil]
    refine ⟨⟨h.store, h.entry, h.binding, h.ground, h.required⟩, .refl _, ?_⟩
    simp only [ledger, List.append_assoc]

theorem emitAll_does (h : encoder.Tidy) (rules : List Rule) :
    Does (emitAll rules) encoder fun _ after =>
      Follows given encoder after ((encoder.ledger given).post rules) := by
  induction rules generalizing encoder with
  | nil =>
    rw [Ledger.post_nil]
    exact Does.pure (.refl h)
  | cons rule rules ih =>
    refine (emit_does given h rule).bind fun _ middle hm => (ih hm.tidy).mono fun _ after ha => ?_
    rw [hm.ledger_eq, Ledger.post_append] at ha
    exact hm.trans ha

theorem fresh_does (h : encoder.Tidy) :
    Does fresh encoder fun lit after =>
      lit = ⟨(encoder.ledger given).next, false⟩ ∧ Follows given encoder after
        { encoder.ledger given with next := (encoder.ledger given).next + 1 } :=
  Does.modifyGet
    ⟨rfl, ⟨h.store, h.entry, h.binding, h.ground, h.required⟩, .refl _, rfl⟩

/-! ## Representatives -/

theorem entry?_write (cache : Cache) (key other : Key) (lit : Lit) :
    Cache.entry? (cache.write key lit) other =
      if key = other then some lit else cache.entry? other := by
  rw [Cache.entry?, Cache.write, Table.get?_insert]
  simp only [Key.pack_eq_iff, Cache.entry?]

theorem binding?_write (cache : Cache) (key other : Key) (lit : Lit) :
    (cache.write key lit).binding? other = if key = other then none else cache.binding? other := by
  rw [Cache.binding?, Cache.write, Table.get?_erase]
  simp only [Key.pack_eq_iff, Cache.binding?]

/-- Writing an entry into the cache, beside what else changes. -/
theorem Tidy.follows_write (h : encoder.Tidy) {key : Key} {f : Formula} {s : Nat}
    (hn : encoder.Names key f s) (lit : Lit) (supply : Supply) {cache : Cache}
    (hentry : cache.entries = encoder.cache.entries)
    (hbinding : cache.bindings = encoder.cache.bindings) :
    Follows given encoder { encoder with cache := cache.write key lit, supply := supply }
      { (encoder.ledger given).write f s lit with next := supply.next } := by
  obtain ⟨rfl, hid⟩ := hn
  have he : ∀ other, cache.entry? other = encoder.cache.entry? other := fun other => by
    rw [Cache.entry?, Cache.entry?, hentry]
  have hb : ∀ other, cache.binding? other = encoder.cache.binding? other := fun other => by
    rw [Cache.binding?, Cache.binding?, hbinding]
  refine ⟨⟨h.store, fun k l hk => ?_, fun k l hk => ?_, h.ground, h.required⟩, .refl _, ?_⟩
  · rw [entry?_write, he] at hk
    split at hk
    · next heq => exact heq ▸ Store.idOf?_lt hid
    · exact h.entry k l hk
  · rw [binding?_write, hb] at hk
    split at hk
    · cases hk
    · exact h.binding k l hk
  · have hentries : Sheet.ofTable encoder.store (Cache.entry? (cache.write key lit)) =
        (Sheet.ofTable encoder.store encoder.cache.entry?).put f key.step (some lit) :=
      Sheet.ofTable_put hid fun other => by rw [entry?_write, he]
    have hbindings : Sheet.ofTable encoder.store (cache.write key lit).binding? =
        (Sheet.ofTable encoder.store encoder.cache.binding?).put f key.step none :=
      Sheet.ofTable_put hid fun other => by rw [binding?_write, hb]
    show Ledger.mk _ _ _ _ _ _ _ _ = _
    rw [hentries, hbindings]
    rfl

theorem getOrCreate_does (h : encoder.Tidy) {key : Key} {f : Formula} {s : Nat}
    (hn : encoder.Names key f s) (hnone : (encoder.ledger given).entry f s = none) :
    Does (getOrCreate key) encoder fun answer after =>
      answer = ((encoder.ledger given).candidate f s, true) ∧
        Follows given encoder after ((encoder.ledger given).claim f s) := by
  obtain ⟨hstep, hid⟩ := id hn
  have hentry : encoder.cache.entry? key = none := by
    rw [← hnone, ← hstep]
    exact (Sheet.ofTable_eq hid).symm
  have hbinding : (encoder.ledger given).binding f s = encoder.cache.binding? key := by
    rw [← hstep]
    exact Sheet.ofTable_eq hid
  refine Does.modifyGet ?_
  unfold Cache.getOrCreate Cache.lookup Ledger.claim Ledger.candidate
  rw [hentry, hbinding]
  have hsame : ({ encoder.cache with misses := encoder.cache.misses + 1 } : Cache).binding? key =
      encoder.cache.binding? key := rfl
  dsimp only
  rw [hsame]
  cases encoder.cache.binding? key with
  | some host => exact ⟨rfl, h.follows_write given hn host encoder.supply rfl rfl⟩
  | none => exact ⟨rfl, h.follows_write given hn _ _ rfl rfl⟩

theorem define_does (h : encoder.Tidy) {key : Key} {f : Formula} {s : Nat}
    (hn : encoder.Names key f s) (hnone : (encoder.ledger given).entry f s = none) :
    Does (define key) encoder fun lit after =>
      lit = (encoder.ledger given).candidate f s ∧ Follows given encoder after
        (((encoder.ledger given).claim f s).post
          [.choice ((encoder.ledger given).candidate f s).atom]) := by
  refine (getOrCreate_does given h hn hnone).bind ?_
  rintro _ middle ⟨rfl, hm⟩
  refine Does.pure_bind ((emit_does given hm.tidy _).bind fun _ after ha => .pure ⟨rfl, ?_⟩)
  rw [hm.ledger_eq] at ha
  exact hm.trans ha

theorem share_does (h : encoder.Tidy) {key : Key} {f : Formula} {s : Nat}
    (hn : encoder.Names key f s) (hnone : (encoder.ledger given).entry f s = none) (lit : Lit) :
    Does (share key lit) encoder fun answer after =>
      answer = (encoder.ledger given).representative f s lit ∧
        Follows given encoder after ((encoder.ledger given).share f s lit) := by
  obtain ⟨hstep, hid⟩ := id hn
  have hentry : encoder.cache.entry? key = none := by
    rw [← hnone, ← hstep]
    exact (Sheet.ofTable_eq hid).symm
  have hbinding : (encoder.ledger given).binding f s = encoder.cache.binding? key := by
    rw [← hstep]
    exact Sheet.ofTable_eq hid
  refine Does.get_bind ?_
  unfold Cache.share Ledger.share Ledger.representative Ledger.tieRules
  rw [hentry, hbinding]
  simp only [Option.isSome_none, Bool.false_eq_true, if_false]
  cases encoder.cache.binding? key with
  | none =>
    rw [Ledger.post_nil]
    exact Does.modify_bind (Does.pure_bind
      (Does.pure ⟨rfl, h.follows_write given hn lit encoder.supply rfl rfl⟩))
  | some host =>
    have hm := @Tidy.follows_write encoder given h key f s hn host encoder.supply encoder.cache rfl rfl
    refine Does.modify_bind (Does.bind (R := fun _ after => Follows given encoder after
      (((encoder.ledger given).write f s host).post (.choice host.atom :: Rule.equal host lit)))
      ?_ fun _ after ha => Does.pure ⟨rfl, ha⟩)
    refine (emit_does given hm.tidy _).bind fun _ next hnext =>
      (emitAll_does given hnext.tidy _).mono fun _ after ha => ?_
    rw [hnext.ledger_eq, hm.ledger_eq, Ledger.post_append] at ha
    exact (hm.trans hnext).trans ha

/-! ## Ground atoms -/

/-- The ledger shows the atom of the opposite sign. -/
theorem opposite?_eq (encoder : Encoder) (f : Formula) (s : Nat) :
    encoder.opposite? f s = (encoder.ledger given).opposite? f s := by
  cases f with
  | atom name args positive =>
    show _ = (encoder.store.find? (.atom name args !positive)).bind
      fun id => encoder.ground.get? ⟨id, s⟩
    unfold Encoder.opposite?
    dsimp only
    cases encoder.store.find? (.atom name args !positive) <;> rfl
  | _ => rfl

/-- A ground atom that is not in the table yet can be entered. -/
theorem enterGround_does (h : encoder.Tidy) {key : Key} {f : Formula} {s : Nat}
    (hn : encoder.Names key f s) (hnone : (encoder.ledger given).ground f s = none)
    (atom : Nat) :
    Does (enterGround key ⟨atom, false⟩) encoder fun _ after =>
      Follows given encoder after { encoder.ledger given with
        ground := (encoder.ledger given).ground.put f s (some ⟨atom, false⟩) } := by
  obtain ⟨rfl, hid⟩ := hn
  have hget : encoder.ground.get? key = none := by
    rw [← hnone]
    exact (Sheet.ofTable_eq hid).symm
  refine Does.get_bind ?_
  unfold GroundTable.insert
  rw [hget]
  simp only [Bool.false_eq_true, if_false, Option.isSome_none]
  have hput : ∀ other, (GroundTable.mk (encoder.ground.literals.insert key ⟨atom, false⟩)
      (encoder.ground.owners.insert atom key)).get? other =
        if key = other then some ⟨atom, false⟩ else encoder.ground.get? other := fun other =>
    Table.get?_insert _ _ _ _
  refine Does.modify ⟨⟨h.store, h.entry, h.binding, fun k l hk => ?_, h.required⟩, .refl _, ?_⟩
  · rw [hput]
    rcases List.mem_cons.1 hk with hk | hk
    · obtain ⟨rfl, rfl⟩ := Prod.mk.inj hk
      exact ⟨⟨f, hid⟩, if_pos rfl⟩
    · obtain ⟨hnumber, hold⟩ := h.ground k l hk
      refine ⟨hnumber, (if_neg fun heq => ?_).trans hold⟩
      rw [← heq, hget] at hold
      cases hold
  · show Ledger.mk _ _ _ _ _ _ _ _ = _
    rw [Sheet.ofTable_put hid hput]
    rfl

/-- Another ground atom does not change what the opposite atom is. -/
theorem opposite?_put (ledger : Ledger) (f : Formula) (s next : Nat) (value : Option Lit) :
    { ledger with ground := ledger.ground.put f s value, next := next }.opposite? f s =
      ledger.opposite? f s := by
  unfold Ledger.opposite?
  split
  · next name args positive =>
    exact Sheet.put_of_ne fun h => by
      have := Formula.atom.inj h.1
      simp at this
  · rfl

theorem excludeOpposite_does (h : encoder.Tidy) (f : Formula) (s : Nat) (lit : Lit) :
    Does (excludeOpposite f s lit) encoder fun _ after =>
      Follows given encoder after ((encoder.ledger given).post
        (((encoder.ledger given).opposite? f s).toList.map fun other =>
          .constraint [lit, other])) := by
  refine Does.get_bind ?_
  rw [opposite?_eq given]
  cases (encoder.ledger given).opposite? f s with
  | none => exact Does.pure (by rw [Option.toList_none, List.map_nil, Ledger.post_nil]; exact .refl h)
  | some other => exact emit_does given h _

/-- The literal of an atom is found, or the atom is entered. -/
theorem groundAtom_does (h : encoder.Tidy) (f : Formula) (s : Nat) :
    Does (groundAtom f s) encoder fun lit after =>
      ((encoder.ledger given).ground f s = some lit ∧
        Follows given encoder after (encoder.ledger given)) ∨
      ((encoder.ledger given).ground f s = none ∧
        lit = ⟨(encoder.ledger given).next, false⟩ ∧
        Follows given encoder after ((encoder.ledger given).enter f s)) := by
  refine (keyOf_does given h f s).bind fun key middle hm => ?_
  obtain ⟨hn, hm⟩ := hm
  have hground : middle.ground.get? key = (encoder.ledger given).ground f s := by
    rw [← hm.ledger_eq, ← hn.step_eq]
    exact (Sheet.ofTable_eq hn.number).symm
  refine Does.get_bind ?_
  rw [hground]
  cases hg : (encoder.ledger given).ground f s with
  | some lit => exact Does.pure (.inl ⟨rfl, hm⟩)
  | none =>
    refine (fresh_does given hm.tidy).bind fun lit next hnext => ?_
    obtain ⟨rfl, hnext⟩ := hnext
    have hnone : (next.ledger given).ground f s = none := by
      rw [hnext.ledger_eq, hm.ledger_eq]
      exact hg
    refine (enterGround_does given hnext.tidy (hn.mono hnext.grown) hnone _).bind
      fun _ entered he => ?_
    refine (excludeOpposite_does given he.tidy f s _).bind fun _ after ha => ?_
    refine Does.pure (.inr ⟨rfl, by rw [hm.ledger_eq], ?_⟩)
    rw [he.ledger_eq, hnext.ledger_eq, hm.ledger_eq, opposite?_put] at ha
    exact ((hm.trans hnext).trans he).trans ha

/-! ## The edge -/

theorem openBoundary_does (h : encoder.Tidy) (boundary : Boundary) :
    Does (openBoundary boundary) encoder fun _ after =>
      Follows given encoder after { encoder.ledger given with
        edge := (encoder.ledger given).edge.openBoundary boundary } :=
  Does.modify ⟨⟨h.store, h.entry, h.binding, h.ground, h.required⟩, .refl _, rfl⟩

theorem defer_does (h : encoder.Tidy) (requirement : Deferred) :
    Does (defer requirement) encoder fun _ after =>
      Follows given encoder after { encoder.ledger given with
        edge := (encoder.ledger given).edge.defer requirement } :=
  Does.modify ⟨⟨h.store, h.entry, h.binding, h.ground, h.required⟩, .refl _, rfl⟩

end Encoder
end TemporalHorizon

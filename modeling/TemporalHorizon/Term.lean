import TemporalHorizon.Ordered
import TemporalHorizon.Text.Quoted

/-!
# Ground terms

The arguments of an atom are ground terms: numbers, names, quoted texts and
compound terms.  The encoder never looks inside them; it only asks whether two
of them are equal.  They are printed in argument lists, and they have a fixed
order for reports.
-/

namespace TemporalHorizon

/-- A ground term. -/
inductive Term where
  /-- A number. -/
  | number (value : Int)
  /-- A name such as `a`. -/
  | name (text : String)
  /-- A text written between double quotes. -/
  | quoted (text : String)
  /-- A functor with its arguments, of which there may be none. -/
  | compound (functor : String) (args : List Term)

namespace Term

/-! ## Equality -/

mutual

/-- Whether two terms are the same tree. -/
def same : Term → Term → Bool
  | number a, number b => a == b
  | name a, name b => a == b
  | quoted a, quoted b => a == b
  | compound f as, compound g bs => f == g && sameArgs as bs
  | _, _ => false

/-- Whether two argument lists agree position by position. -/
def sameArgs : List Term → List Term → Bool
  | [], [] => true
  | a :: as, b :: bs => same a b && sameArgs as bs
  | _, _ => false

end

mutual

theorem same_iff : (a b : Term) → (same a b = true ↔ a = b)
  | number _, b => by cases b <;> simp [same]
  | name _, b => by cases b <;> simp [same]
  | quoted _, b => by cases b <;> simp [same]
  | compound _ as, b => by
      cases b with
      | compound _ bs => simp [same, sameArgs_iff as bs]
      | _ => simp [same]

theorem sameArgs_iff : (as bs : List Term) → (sameArgs as bs = true ↔ as = bs)
  | [], bs => by cases bs <;> simp [sameArgs]
  | a :: as, bs => by
      cases bs with
      | nil => simp [sameArgs]
      | cons b bs => simp [sameArgs, same_iff a b, sameArgs_iff as bs]

end

instance : DecidableEq Term := fun a b => decidable_of_iff _ (same_iff a b)

/-! ## Text -/

mutual

/-- The text of a term. -/
def text : Term → String
  | number value => toString value
  | name text => text
  | quoted text => Text.quoted text
  | compound functor args => functor ++ "(" ++ Text.joined "," (texts args) ++ ")"

/-- The texts of a list of terms. -/
def texts : List Term → List String
  | [] => []
  | a :: as => text a :: texts as

end

theorem texts_eq_map (terms : List Term) : texts terms = terms.map text := by
  induction terms with
  | nil => rfl
  | cons a as ih => simp [texts, ih]

/-! ## Order -/

/-- Numbers come before names, names before quoted texts, and compound terms
last. -/
def rank : Term → Nat
  | number _ => 0
  | name _ => 1
  | quoted _ => 2
  | compound _ _ => 3

mutual

/-- The order of terms: by kind, then by value or text, and compound terms by
functor and then by their arguments. -/
def order : Term → Term → Ordering
  | number a, number b => Ordered.byInt a b
  | name a, name b => Ordered.byText a b
  | quoted a, quoted b => Ordered.byText a b
  | compound f as, compound g bs => (Ordered.byText f g).then (orderArgs as bs)
  | a, b => Ordered.byNat a.rank b.rank

/-- Argument lists in dictionary order. -/
def orderArgs : List Term → List Term → Ordering
  | [], [] => .eq
  | [], _ :: _ => .lt
  | _ :: _, [] => .gt
  | a :: as, b :: bs => (order a b).then (orderArgs as bs)

end

end Term
end TemporalHorizon

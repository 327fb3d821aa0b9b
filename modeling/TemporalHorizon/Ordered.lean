/-!
# Sorted lists without repetition

Guards, candidate atoms and printed names are finite sets shown in increasing
order.  A set is kept as the strictly increasing list of its members, and
inserting an element that is already there changes nothing.  The list depends on
the members only, not on the order in which they came.
-/

namespace TemporalHorizon
namespace Ordered

variable {α : Type}

/-- Put an element in its place in an increasing list; an element that compares
equal to a member is dropped. -/
def insert (order : α → α → Ordering) (a : α) : List α → List α
  | [] => [a]
  | b :: rest =>
    match order a b with
    | .lt => a :: b :: rest
    | .eq => b :: rest
    | .gt => b :: insert order a rest

/-- The increasing list of the distinct elements of a list. -/
def ofList (order : α → α → Ordering) (elements : List α) : List α :=
  elements.foldr (insert order) []

@[simp] theorem ofList_nil (order : α → α → Ordering) : ofList order [] = [] := rfl

@[simp] theorem ofList_cons (order : α → α → Ordering) (a : α) (rest : List α) :
    ofList order (a :: rest) = insert order a (ofList order rest) := rfl

/-- Natural numbers in their usual order. -/
def byNat (a b : Nat) : Ordering :=
  if a < b then .lt else if a = b then .eq else .gt

/-- Integers in their usual order. -/
def byInt (a b : Int) : Ordering :=
  if a < b then .lt else if a = b then .eq else .gt

/-- Lists of characters in dictionary order, single characters by code point. -/
def byChars : List Char → List Char → Ordering
  | [], [] => .eq
  | [], _ :: _ => .lt
  | _ :: _, [] => .gt
  | a :: as, b :: bs => (byNat a.toNat b.toNat).then (byChars as bs)

/-- Texts in dictionary order by code point. -/
def byText (a b : String) : Ordering :=
  byChars a.toList b.toList

/-! ## Members -/

section Members

variable {order : α → α → Ordering}

theorem mem_of_mem_insert {a b : α} {xs : List α} (h : b ∈ insert order a xs) :
    b = a ∨ b ∈ xs := by
  induction xs with
  | nil => exact .inl (List.mem_singleton.1 h)
  | cons c rest ih =>
    unfold insert at h
    split at h
    · exact List.mem_cons.1 h
    · exact .inr h
    · rcases List.mem_cons.1 h with rfl | h
      · exact .inr List.mem_cons_self
      · exact (ih h).imp_right (List.mem_cons_of_mem _)

theorem mem_insert {a b : α} {xs : List α}
    (heq : ∀ c ∈ xs, order a c = .eq → a = c) (h : b = a ∨ b ∈ xs) : b ∈ insert order a xs := by
  induction xs with
  | nil => exact List.mem_singleton.2 (h.resolve_right List.not_mem_nil)
  | cons c rest ih =>
    unfold insert
    split
    · exact List.mem_cons.2 h
    · next hc =>
      have hc : a = c := heq c List.mem_cons_self hc
      rcases h with rfl | h
      · exact hc ▸ List.mem_cons_self
      · exact h
    · refine List.mem_cons.2 ?_
      rcases h with rfl | h
      · exact .inr (ih (fun d hd => heq d (List.mem_cons_of_mem _ hd)) (.inl rfl))
      · rcases List.mem_cons.1 h with rfl | h
        · exact .inl rfl
        · exact .inr (ih (fun d hd => heq d (List.mem_cons_of_mem _ hd)) (.inr h))

theorem mem_of_mem_ofList {a : α} {xs : List α} (h : a ∈ ofList order xs) : a ∈ xs := by
  induction xs with
  | nil => cases h
  | cons b rest ih =>
    rw [ofList_cons] at h
    rcases mem_of_mem_insert h with rfl | h
    · exact List.mem_cons_self
    · exact List.mem_cons_of_mem _ (ih h)

/-- If only equal elements compare equal, no element is lost. -/
theorem mem_ofList {xs : List α} (heq : ∀ a ∈ xs, ∀ b ∈ xs, order a b = .eq → a = b) {a : α} :
    a ∈ ofList order xs ↔ a ∈ xs := by
  refine ⟨mem_of_mem_ofList, fun h => ?_⟩
  induction xs with
  | nil => exact h
  | cons b rest ih =>
    rw [ofList_cons]
    refine mem_insert (fun c hc => ?_) ((List.mem_cons.1 h).imp_right (ih fun x hx y hy => ?_))
    · exact heq b List.mem_cons_self c (List.mem_cons_of_mem _ (mem_of_mem_ofList hc))
    · exact heq x (List.mem_cons_of_mem _ hx) y (List.mem_cons_of_mem _ hy)

end Members

/-! ## Order -/

section Order

variable {order : α → α → Ordering} {lt : α → α → Prop}

theorem pairwise_insert (htrans : ∀ a b c, lt a b → lt b c → lt a c)
    (hlt : ∀ a b, order a b = .lt → lt a b) (hgt : ∀ a b, order a b = .gt → lt b a)
    {a : α} {xs : List α} (h : xs.Pairwise lt) : (insert order a xs).Pairwise lt := by
  induction xs with
  | nil => exact List.pairwise_singleton _ a
  | cons b rest ih =>
    obtain ⟨hb, hrest⟩ := List.pairwise_cons.1 h
    unfold insert
    split
    · next hab =>
      refine List.pairwise_cons.2 ⟨fun c hc => ?_, h⟩
      rcases List.mem_cons.1 hc with rfl | hc
      · exact hlt _ _ hab
      · exact htrans _ _ _ (hlt _ _ hab) (hb c hc)
    · exact h
    · next hab =>
      refine List.pairwise_cons.2 ⟨fun c hc => ?_, ih hrest⟩
      rcases mem_of_mem_insert hc with rfl | hc
      · exact hgt _ _ hab
      · exact hb c hc

theorem pairwise_ofList (htrans : ∀ a b c, lt a b → lt b c → lt a c)
    (hlt : ∀ a b, order a b = .lt → lt a b) (hgt : ∀ a b, order a b = .gt → lt b a)
    (xs : List α) : (ofList order xs).Pairwise lt := by
  induction xs with
  | nil => exact List.Pairwise.nil
  | cons a rest ih => exact pairwise_insert htrans hlt hgt ih

/-- An increasing list is determined by its members. -/
theorem eq_of_pairwise (hirrefl : ∀ a, ¬ lt a a) (htrans : ∀ a b c, lt a b → lt b c → lt a c)
    {xs ys : List α} (hx : xs.Pairwise lt) (hy : ys.Pairwise lt) (h : ∀ a, a ∈ xs ↔ a ∈ ys) :
    xs = ys := by
  have hne : ∀ {a b}, lt a b → a ≠ b := by
    rintro a b hab rfl
    exact hirrefl a hab
  refine List.Perm.eq_of_pairwise (fun a b _ _ hab hba => ?_) hx hy ?_
  · exact absurd (htrans a b a hab hba) (hirrefl a)
  · exact (List.perm_ext_iff_of_nodup (hx.imp hne) (hy.imp hne)).2 h

end Order

theorem byNat_eq_lt {a b : Nat} : byNat a b = .lt ↔ a < b := by
  grind [byNat]

theorem byNat_eq_eq {a b : Nat} : byNat a b = .eq ↔ a = b := by
  grind [byNat]

theorem byNat_eq_gt {a b : Nat} : byNat a b = .gt ↔ b < a := by
  grind [byNat]

theorem pairwise_ofList_byNat (xs : List Nat) : (ofList byNat xs).Pairwise (· < ·) := by
  refine pairwise_ofList ?_ ?_ ?_ xs
  · exact fun _ _ _ => Nat.lt_trans
  · exact fun _ _ => byNat_eq_lt.1
  · exact fun _ _ => byNat_eq_gt.1

theorem byInt_eq_lt {a b : Int} : byInt a b = .lt ↔ a < b := by
  grind [byInt]

theorem byInt_eq_gt {a b : Int} : byInt a b = .gt ↔ b < a := by
  grind [byInt]

end Ordered
end TemporalHorizon

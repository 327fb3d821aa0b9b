import TemporalHorizon.Formula.Text
import Mathlib.Data.List.TakeWhile

/-!
# Words, numbers, quoted texts and terms can be told apart

A text is read from left to right, so a spelling is useful only if it shows where it
ends.  All statements here have one form: if two spellings, each followed by a rest that
cannot continue it, give one text, then they are spellings of the same thing and the
rests agree.

* `append_inj_of_stops`: words over a class of characters that the rest leaves at once.
* `Text.toDigits_injective`: the digits of a number, in any base up to sixteen.
* `Text.quoted_append_inj`: texts in quotes, whose characters are written one by one.
* `Term.text_append_inj`: terms whose names are words.
* `atomText_append_inj`: atoms with their sign, their name and their arguments.
-/

namespace TemporalHorizon

/-! ## Words -/

/-- Two words of a class of characters, each followed by a rest that begins with no such
character. -/
theorem append_inj_of_stops {p : Char → Bool} {x y u v : List Char}
    (hx : ∀ c ∈ x, p c = true) (hy : ∀ c ∈ y, p c = true)
    (hu : ∀ c ∈ u.head?, p c = false) (hv : ∀ c ∈ v.head?, p c = false)
    (h : x ++ u = y ++ v) : x = y ∧ u = v := by
  have htaken : ∀ {x u : List Char}, (∀ c ∈ x, p c = true) → (∀ c ∈ u.head?, p c = false) →
      (x ++ u).takeWhile p = x := by
    intro x u hx hu
    rw [List.takeWhile_append_of_pos hx]
    cases u with
    | nil => exact List.append_nil x
    | cons c rest =>
      rw [List.takeWhile_cons_of_neg (by simp [hu c rfl]), List.append_nil]
  have hxy : x = y := by rw [← htaken hx hu, h, htaken hy hv]
  subst hxy
  exact ⟨rfl, List.append_cancel_left h⟩

namespace Text

/-- The characters of a name: letters, digits and the underscore. -/
def isWordChar (c : Char) : Bool := c.isAlphanum || c == '_'

/-- A name: a small letter, then letters, digits and underscores. -/
def isName (text : String) : Bool :=
  match text.toList with
  | [] => false
  | first :: rest => first.isLower && rest.all isWordChar

theorem toNat_of_isLower {c : Char} (h : c.isLower = true) : 97 ≤ c.toNat ∧ c.toNat ≤ 122 := by
  have hrange : (c.val ≥ 'a'.val && c.val ≤ 'z'.val) = true := h
  simp only [Bool.and_eq_true, decide_eq_true_eq, ge_iff_le, UInt32.le_iff_toNat_le] at hrange
  exact hrange

theorem toNat_of_isDigit {c : Char} (h : c.isDigit = true) : 48 ≤ c.toNat ∧ c.toNat ≤ 57 := by
  simp only [Char.isDigit, Bool.and_eq_true, decide_eq_true_eq, ge_iff_le,
    UInt32.le_iff_toNat_le] at h
  exact h

theorem isWordChar_of_isLower {c : Char} (h : c.isLower = true) : isWordChar c = true := by
  have hword : isWordChar c = (c.isUpper || c.isLower || c.isDigit || c == '_') := rfl
  simp [hword, h]

/-- A name begins with a small letter. -/
theorem exists_cons_of_isName {text : String} (h : isName text = true) :
    ∃ first rest, text.toList = first :: rest ∧ first.isLower = true := by
  unfold isName at h
  split at h
  · cases h
  · next first rest heq => exact ⟨first, rest, heq, (Bool.and_eq_true_iff.1 h).1⟩

theorem isWordChar_of_isName {text : String} (h : isName text = true) :
    ∀ c ∈ text.toList, isWordChar c = true := by
  unfold isName at h
  split at h
  · cases h
  · next first rest heq =>
    obtain ⟨hfirst, hrest⟩ := Bool.and_eq_true_iff.1 h
    rw [heq]
    intro c hc
    rcases List.mem_cons.1 hc with rfl | hc
    · exact isWordChar_of_isLower hfirst
    · exact List.all_eq_true.1 hrest c hc

/-- The rest of a text does not go on with a name. -/
def LeavesName (rest : List Char) : Prop := ∀ c ∈ rest.head?, isWordChar c = false

theorem leavesName_cons {c : Char} {rest : List Char} (h : isWordChar c = false) :
    LeavesName (c :: rest) := by
  intro d hd
  rwa [← Option.some_inj.1 hd]

theorem name_append_inj {x y : String} (hx : isName x = true) (hy : isName y = true)
    {u v : List Char} (hu : LeavesName u) (hv : LeavesName v)
    (h : x.toList ++ u = y.toList ++ v) : x = y ∧ u = v := by
  obtain ⟨hnames, hrests⟩ :=
    append_inj_of_stops (isWordChar_of_isName hx) (isWordChar_of_isName hy) hu hv h
  exact ⟨String.toList_inj.1 hnames, hrests⟩

/-! ## Numbers -/

/-- The value of a digit. -/
def digitValue (c : Char) : Nat := if c.isDigit then c.toNat - 48 else c.toNat - 87

/-- The number that digits stand for. -/
def digitsValue (base : Nat) (digits : List Char) : Nat :=
  digits.foldl (fun value c => base * value + digitValue c) 0

theorem digitValue_digitChar {d : Nat} (h : d < 16) : digitValue d.digitChar = d := by
  revert d
  decide

theorem digitsValue_toDigits {base : Nat} (hbase : 1 < base) (hsmall : base ≤ 16) (n : Nat) :
    digitsValue base (Nat.toDigits base n) = n := by
  induction n using Nat.strongRecOn with
  | ind n ih =>
    by_cases hlt : n < base
    · rw [Nat.toDigits_of_lt_base hlt]
      simpa [digitsValue] using digitValue_digitChar (Nat.lt_of_lt_of_le hlt hsmall)
    · have hge : base ≤ n := Nat.le_of_not_lt hlt
      have hdigit : n % base < 16 := Nat.lt_of_lt_of_le (Nat.mod_lt n (by omega)) hsmall
      have hless : n / base < n := Nat.div_lt_self (by omega) hbase
      rw [Nat.toDigits_of_base_le hbase hge, digitsValue, List.foldl_append, ← digitsValue,
        ih _ hless, List.foldl_cons, List.foldl_nil, digitValue_digitChar hdigit]
      exact Nat.div_add_mod n base

theorem toDigits_injective {base : Nat} (hbase : 1 < base) (hsmall : base ≤ 16) {n m : Nat}
    (h : Nat.toDigits base n = Nat.toDigits base m) : n = m := by
  rw [← digitsValue_toDigits hbase hsmall n, h, digitsValue_toDigits hbase hsmall]

/-- The digits of a number are among the sixteen. -/
theorem exists_of_mem_toDigits {base : Nat} (hbase : 1 < base) (hsmall : base ≤ 16) {n : Nat}
    {c : Char} (h : c ∈ Nat.toDigits base n) : ∃ d, d < 16 ∧ c = d.digitChar := by
  induction n using Nat.strongRecOn with
  | ind n ih =>
    by_cases hlt : n < base
    · rw [Nat.toDigits_of_lt_base hlt] at h
      exact ⟨n, Nat.lt_of_lt_of_le hlt hsmall, List.mem_singleton.1 h⟩
    · rw [Nat.toDigits_of_base_le hbase (Nat.le_of_not_lt hlt), List.mem_append] at h
      rcases h with h | h
      · exact ih _ (Nat.div_lt_self (by omega) hbase) h
      · have hdigit : n % base < base := Nat.mod_lt n (by omega)
        exact ⟨n % base, Nat.lt_of_lt_of_le hdigit hsmall, List.mem_singleton.1 h⟩

/-- The characters of a signed number. -/
def isNumberChar (c : Char) : Bool := c.isDigit || c == '-'

theorem toList_toString_int (a : Int) :
    (toString a).toList =
      if a < 0 then '-' :: Nat.toDigits 10 a.natAbs else Nat.toDigits 10 a.natAbs := by
  cases a with
  | ofNat n =>
    rw [if_neg (by simp)]
    exact (congrArg String.toList Nat.repr_eq_ofList_toDigits).trans String.toList_ofList
  | negSucc n =>
    rw [if_pos (Int.negSucc_lt_zero n)]
    show ("-" ++ (n + 1).repr).toList = '-' :: Nat.toDigits 10 (n + 1)
    simp [Nat.repr_eq_ofList_toDigits]

theorem isDigit_of_mem_toDigits {n : Nat} {c : Char} (h : c ∈ Nat.toDigits 10 n) :
    c.isDigit = true :=
  Nat.isDigit_of_mem_toDigits (by decide) (by decide) h

theorem isNumberChar_of_mem {a : Int} {c : Char} (h : c ∈ (toString a).toList) :
    isNumberChar c = true := by
  rw [toList_toString_int] at h
  unfold isNumberChar
  split at h
  · rcases List.mem_cons.1 h with rfl | h
    · rfl
    · rw [isDigit_of_mem_toDigits h, Bool.true_or]
  · rw [isDigit_of_mem_toDigits h, Bool.true_or]

/-- A signed number begins with a minus or a digit. -/
theorem exists_cons_number (a : Int) :
    ∃ first rest, (toString a).toList = first :: rest ∧ isNumberChar first = true := by
  cases h : (toString a).toList with
  | nil =>
    rw [toList_toString_int] at h
    split at h
    · cases h
    · exact absurd h Nat.toDigits_ne_nil
  | cons first rest =>
    exact ⟨first, rest, rfl, isNumberChar_of_mem (h ▸ List.mem_cons_self)⟩

theorem toList_toString_int_injective {a b : Int} (h : (toString a).toList = (toString b).toList) :
    a = b := by
  have hdigits : ∀ {n m : Nat}, '-' :: Nat.toDigits 10 n ≠ Nat.toDigits 10 m := by
    intro n m heq
    have hminus := isDigit_of_mem_toDigits (heq ▸ List.mem_cons_self : '-' ∈ Nat.toDigits 10 m)
    revert hminus
    decide
  rw [toList_toString_int, toList_toString_int] at h
  split at h <;> split at h
  · have habs := toDigits_injective (by decide) (by decide) (List.cons.inj h).2
    omega
  · exact absurd h hdigits
  · exact absurd h.symm hdigits
  · have habs := toDigits_injective (by decide) (by decide) h
    omega

theorem number_append_inj {a b : Int} {u v : List Char} (hu : ∀ c ∈ u.head?, isNumberChar c = false)
    (hv : ∀ c ∈ v.head?, isNumberChar c = false)
    (h : (toString a).toList ++ u = (toString b).toList ++ v) : a = b ∧ u = v := by
  obtain ⟨hnumbers, hrests⟩ := append_inj_of_stops (fun _ => isNumberChar_of_mem)
    (fun _ => isNumberChar_of_mem) hu hv h
  exact ⟨toList_toString_int_injective hnumbers, hrests⟩

/-! ## Quoted texts -/

/-- The characters that are written by a backslash and a mark. -/
def markedChars : List (Char × Char) :=
  [('"', '"'), ('\\', '\\'), ('n', '\n'), ('r', '\r'), ('t', '\t'), ('0', '\x00')]

/-- The forms in which a character is written. -/
inductive Written (c : Char) : List Char → Prop
  | verbatim (hquote : c ≠ '"') (hslash : c ≠ '\\') : Written c [c]
  | marked {mark : Char} (h : (mark, c) ∈ markedChars) : Written c ['\\', mark]
  | numbered : Written c ('\\' :: 'u' :: '\x7b' :: (Nat.toDigits 16 c.toNat ++ ['\x7d']))

theorem written_escape (c : Char) : Written c (escape c).toList := by
  unfold escape
  split_ifs with hquote hslash hn hr ht hzero hhidden
  · exact hquote ▸ .marked (by decide)
  · exact hslash ▸ .marked (by decide)
  · exact hn ▸ .marked (by decide)
  · exact hr ▸ .marked (by decide)
  · exact ht ▸ .marked (by decide)
  · obtain rfl : c = '\x00' := Char.toNat_inj.1 hzero
    exact .marked (by decide)
  · have htext : ("\\u\x7b" ++ hexDigits c.toNat ++ "\x7d").toList =
        '\\' :: 'u' :: '\x7b' :: (Nat.toDigits 16 c.toNat ++ ['\x7d']) := by
      simp [hexDigits]
    exact htext ▸ .numbered
  · have htext : c.toString.toList = [c] := by simp
    exact htext ▸ .verbatim hquote hslash

/-- A mark stands for one character. -/
theorem markedChars_unique {mark c d : Char} (hc : (mark, c) ∈ markedChars)
    (hd : (mark, d) ∈ markedChars) : c = d := by
  simp only [markedChars, List.mem_cons, Prod.mk.injEq, List.not_mem_nil, or_false] at hc hd
  grind

theorem u_notMem_markedChars (c : Char) : ('u', c) ∉ markedChars := by
  simp [markedChars]

theorem numbered_append_inj {c d : Char} {u v : List Char}
    (h : Nat.toDigits 16 c.toNat ++ '\x7d' :: u = Nat.toDigits 16 d.toNat ++ '\x7d' :: v) :
    c = d ∧ u = v := by
  have hdigits : ∀ n, ∀ c ∈ Nat.toDigits 16 n, (c != '\x7d') = true := by
    intro n c hc
    obtain ⟨d, hd, rfl⟩ := exists_of_mem_toDigits (by decide) (by decide) hc
    exact (by decide : ∀ d < 16, (Nat.digitChar d != '\x7d') = true) d hd
  obtain ⟨hsame, hrests⟩ :=
    append_inj_of_stops (hdigits _) (hdigits _) (by simp) (by simp) h
  exact ⟨Char.toNat_inj.1 (toDigits_injective (by decide) (by decide) hsame),
    (List.cons.inj hrests).2⟩

/-- No written form of a character begins that of another one. -/
theorem Written.append_inj {c d : Char} {x y u v : List Char} (hx : Written c x) (hy : Written d y)
    (h : x ++ u = y ++ v) : c = d ∧ u = v := by
  cases hx with
  | verbatim _ hslash =>
    cases hy with
    | verbatim _ _ => simpa using h
    | marked _ | numbered => exact absurd (List.cons.inj h).1 hslash
  | marked hc =>
    cases hy with
    | verbatim _ hslash => exact absurd (List.cons.inj h).1.symm hslash
    | marked hd =>
      simp only [List.cons_append, List.nil_append, List.cons.injEq, true_and] at h
      obtain ⟨rfl, rfl⟩ := h
      exact ⟨markedChars_unique hc hd, rfl⟩
    | numbered =>
      simp only [List.cons_append, List.nil_append, List.cons.injEq, true_and] at h
      exact absurd (h.1 ▸ hc) (u_notMem_markedChars c)
  | numbered =>
    cases hy with
    | verbatim _ hslash => exact absurd (List.cons.inj h).1.symm hslash
    | marked hd =>
      simp only [List.cons_append, List.nil_append, List.cons.injEq, true_and] at h
      exact absurd (h.1 ▸ hd) (u_notMem_markedChars d)
    | numbered =>
      simp only [List.cons_append, List.append_assoc, List.nil_append, List.cons.injEq,
        true_and] at h
      exact numbered_append_inj h

/-- No written form begins with the closing quote. -/
theorem Written.ne_quote {c : Char} {x u v : List Char} (hx : Written c x) : x ++ u ≠ '"' :: v := by
  intro h
  cases hx with
  | verbatim hquote _ => exact hquote (List.cons.inj h).1
  | marked _ | numbered => exact absurd (List.cons.inj h).1 (by decide)

/-- The characters of a quoted text after the opening quote. -/
theorem escapes_append_inj (x y : List Char) {u v : List Char}
    (h : x.flatMap (fun c => (escape c).toList) ++ '"' :: u =
      y.flatMap (fun c => (escape c).toList) ++ '"' :: v) : x = y ∧ u = v := by
  induction x generalizing y with
  | nil =>
    cases y with
    | nil => exact ⟨rfl, (List.cons.inj h).2⟩
    | cons d y =>
      rw [List.flatMap_cons, List.append_assoc] at h
      exact absurd h.symm (written_escape d).ne_quote
  | cons c x ih =>
    cases y with
    | nil =>
      rw [List.flatMap_cons, List.append_assoc] at h
      exact absurd h (written_escape c).ne_quote
    | cons d y =>
      rw [List.flatMap_cons, List.flatMap_cons, List.append_assoc, List.append_assoc] at h
      obtain ⟨rfl, hrests⟩ := (written_escape c).append_inj (written_escape d) h
      obtain ⟨rfl, hrest⟩ := ih y hrests
      exact ⟨rfl, hrest⟩

theorem toList_quoted (text : String) :
    (quoted text).toList = '"' :: (text.toList.flatMap (fun c => (escape c).toList) ++ ['"']) := by
  simp [quoted, String.toList_join, List.flatMap_map]

theorem quoted_append_inj {x y : String} {u v : List Char}
    (h : (quoted x).toList ++ u = (quoted y).toList ++ v) : x = y ∧ u = v := by
  rw [toList_quoted, toList_quoted] at h
  simp only [List.cons_append, List.append_assoc, List.nil_append, List.cons.injEq, true_and] at h
  obtain ⟨hchars, hrest⟩ := escapes_append_inj _ _ h
  exact ⟨String.toList_inj.1 hchars, hrest⟩

end Text

/-! ## Terms -/

namespace Term

mutual

/-- All names in the term are words. -/
def isPlain : Term → Bool
  | number _ | quoted _ => true
  | name text => Text.isName text
  | compound functor args => Text.isName functor && arePlain args

/-- All names in the terms are words. -/
def arePlain : List Term → Bool
  | [] => true
  | a :: as => isPlain a && arePlain as

end

/-- What can follow an argument: a comma or the closing parenthesis. -/
def EndsArg (rest : List Char) : Prop := ∃ tail, rest = ',' :: tail ∨ rest = ')' :: tail

theorem EndsArg.head? {rest : List Char} (h : EndsArg rest) {c : Char} (hc : c ∈ rest.head?) :
    c = ',' ∨ c = ')' := by
  obtain ⟨tail, rfl | rfl⟩ := h
  · exact .inl (Option.some_inj.1 hc).symm
  · exact .inr (Option.some_inj.1 hc).symm

theorem not_endsArg_paren {rest : List Char} : ¬ EndsArg ('(' :: rest) := by
  rintro ⟨tail, h | h⟩ <;> cases h

theorem EndsArg.leavesName {rest : List Char} (h : EndsArg rest) : Text.LeavesName rest := by
  intro c hc
  rcases h.head? hc with rfl | rfl <;> decide

theorem EndsArg.leavesNumber {rest : List Char} (h : EndsArg rest) :
    ∀ c ∈ rest.head?, Text.isNumberChar c = false := by
  intro c hc
  rcases h.head? hc with rfl | rfl <;> decide

/-- The kinds of terms that their first characters tell apart. -/
inductive Lead where
  | number
  | word
  | quote

/-- The kind of term that begins with a character, if one does. -/
def Lead.of? (c : Char) : Option Lead :=
  if c.isLower then some .word
  else if Text.isNumberChar c then some .number
  else if c = '"' then some .quote
  else none

/-- The kind of a term. -/
def lead : Term → Lead
  | number _ => .number
  | name _ | compound _ _ => .word
  | quoted _ => .quote

theorem Lead.of?_isLower {c : Char} (h : c.isLower = true) : of? c = some .word := if_pos h

theorem Lead.of?_isNumberChar {c : Char} (h : Text.isNumberChar c = true) :
    of? c = some .number := by
  have hlower : ¬ c.isLower = true := by
    intro hlower
    have hrange := Text.toNat_of_isLower hlower
    rcases Bool.or_eq_true_iff.1 h with hdigit | hminus
    · have := Text.toNat_of_isDigit hdigit
      omega
    · rw [beq_iff_eq.1 hminus] at hlower
      exact absurd hlower (by decide)
  rw [of?, if_neg hlower, if_pos h]

theorem toList_compound (functor : String) (args : List Term) :
    (compound functor args).text.toList =
      functor.toList ++ '(' :: ((Text.joined "," (texts args)).toList ++ [')']) := by
  simp [text]

/-- A term begins with a character of its kind. -/
theorem head?_text {a : Term} (h : a.isPlain = true) :
    ∃ first rest, a.text.toList = first :: rest ∧ Lead.of? first = some a.lead := by
  cases a with
  | number x =>
    obtain ⟨first, rest, htext, hfirst⟩ := Text.exists_cons_number x
    exact ⟨first, rest, htext, Lead.of?_isNumberChar hfirst⟩
  | name x =>
    obtain ⟨first, rest, htext, hfirst⟩ := Text.exists_cons_of_isName h
    exact ⟨first, rest, htext, Lead.of?_isLower hfirst⟩
  | quoted x => exact ⟨'"', _, Text.toList_quoted x, rfl⟩
  | compound functor args =>
    obtain ⟨first, rest, htext, hfirst⟩ :=
      Text.exists_cons_of_isName (Bool.and_eq_true_iff.1 h).1
    rw [toList_compound, htext]
    exact ⟨first, _, rfl, Lead.of?_isLower hfirst⟩

theorem lead_eq_of_append_eq {a b : Term} (ha : a.isPlain = true) (hb : b.isPlain = true)
    {u v : List Char} (h : a.text.toList ++ u = b.text.toList ++ v) : a.lead = b.lead := by
  obtain ⟨first, rest, hfirst, hlead⟩ := head?_text ha
  obtain ⟨first', rest', hfirst', hlead'⟩ := head?_text hb
  rw [hfirst, hfirst'] at h
  rw [(List.cons.inj h).1, hlead'] at hlead
  exact (Option.some_inj.1 hlead).symm

/-- No argument begins with the closing parenthesis. -/
theorem text_append_ne {a : Term} (h : a.isPlain = true) {u v : List Char} :
    a.text.toList ++ u ≠ ')' :: v := by
  obtain ⟨first, rest, hfirst, hlead⟩ := head?_text h
  rw [hfirst]
  intro heq
  rw [(List.cons.inj heq).1] at hlead
  cases hlead

/-- What follows the first of some arguments. -/
def moreArgs : List Term → List Char
  | [] => []
  | a :: as => ',' :: (Text.joined "," (texts (a :: as))).toList

theorem toList_joined_cons (a : Term) (as : List Term) :
    (Text.joined "," (texts (a :: as))).toList = a.text.toList ++ moreArgs as := by
  cases as with
  | nil => simp [texts, moreArgs]
  | cons b bs => simp [texts, moreArgs, Text.joined_cons_cons]

theorem endsArg_moreArgs (as : List Term) (u : List Char) : EndsArg (moreArgs as ++ ')' :: u) := by
  cases as with
  | nil => exact ⟨u, .inr rfl⟩
  | cons a as => exact ⟨_, .inl rfl⟩

mutual

theorem text_append_inj : (a b : Term) → a.isPlain = true → b.isPlain = true →
    ∀ {u v : List Char}, EndsArg u → EndsArg v →
      a.text.toList ++ u = b.text.toList ++ v → a = b ∧ u = v
  | number x, b, ha, hb, u, v, hu, hv, h => by
    have hlead := lead_eq_of_append_eq ha hb h
    cases b with
    | number y =>
      obtain ⟨rfl, hrest⟩ := Text.number_append_inj hu.leavesNumber hv.leavesNumber h
      exact ⟨rfl, hrest⟩
    | _ => cases hlead
  | quoted x, b, ha, hb, u, v, hu, hv, h => by
    have hlead := lead_eq_of_append_eq ha hb h
    cases b with
    | quoted y =>
      obtain ⟨rfl, hrest⟩ := Text.quoted_append_inj h
      exact ⟨rfl, hrest⟩
    | _ => cases hlead
  | name x, b, ha, hb, u, v, hu, hv, h => by
    have hlead := lead_eq_of_append_eq ha hb h
    cases b with
    | name y =>
      obtain ⟨rfl, hrest⟩ := Text.name_append_inj ha hb hu.leavesName hv.leavesName h
      exact ⟨rfl, hrest⟩
    | compound g bs =>
      rw [toList_compound, List.append_assoc] at h
      obtain ⟨-, hrest⟩ := Text.name_append_inj ha (Bool.and_eq_true_iff.1 hb).1 hu.leavesName
        (Text.leavesName_cons rfl) h
      exact absurd (hrest ▸ hu) not_endsArg_paren
    | _ => cases hlead
  | compound f as, b, ha, hb, u, v, hu, hv, h => by
    have hlead := lead_eq_of_append_eq ha hb h
    cases b with
    | name y =>
      rw [toList_compound, List.append_assoc] at h
      obtain ⟨-, hrest⟩ := Text.name_append_inj (Bool.and_eq_true_iff.1 ha).1 hb
        (Text.leavesName_cons rfl) hv.leavesName h
      exact absurd (hrest ▸ hv) not_endsArg_paren
    | compound g bs =>
      obtain ⟨hf, has⟩ := Bool.and_eq_true_iff.1 ha
      obtain ⟨hg, hbs⟩ := Bool.and_eq_true_iff.1 hb
      rw [toList_compound, toList_compound] at h
      simp only [List.append_assoc, List.cons_append, List.nil_append] at h
      obtain ⟨rfl, hargs⟩ := Text.name_append_inj hf hg (Text.leavesName_cons rfl)
        (Text.leavesName_cons rfl) h
      obtain ⟨rfl, hrest⟩ := texts_append_inj as bs has hbs (List.cons.inj hargs).2
      exact ⟨rfl, hrest⟩
    | _ => cases hlead

theorem texts_append_inj : (as bs : List Term) → arePlain as = true → arePlain bs = true →
    ∀ {u v : List Char}, (Text.joined "," (texts as)).toList ++ ')' :: u =
      (Text.joined "," (texts bs)).toList ++ ')' :: v → as = bs ∧ u = v
  | [], [], _, _, u, v, h => ⟨rfl, (List.cons.inj h).2⟩
  | [], b :: bs, _, hbs, u, v, h => by
    rw [toList_joined_cons, List.append_assoc] at h
    exact absurd h.symm (text_append_ne (Bool.and_eq_true_iff.1 hbs).1)
  | a :: as, [], has, _, u, v, h => by
    rw [toList_joined_cons, List.append_assoc] at h
    exact absurd h (text_append_ne (Bool.and_eq_true_iff.1 has).1)
  | a :: as, b :: bs, has, hbs, u, v, h => by
    obtain ⟨ha, has'⟩ := Bool.and_eq_true_iff.1 has
    obtain ⟨hb, hbs'⟩ := Bool.and_eq_true_iff.1 hbs
    rw [toList_joined_cons, toList_joined_cons, List.append_assoc, List.append_assoc] at h
    obtain ⟨rfl, hmore⟩ :=
      text_append_inj a b ha hb (endsArg_moreArgs as u) (endsArg_moreArgs bs v) h
    cases as with
    | nil =>
      cases bs with
      | nil => exact ⟨rfl, (List.cons.inj hmore).2⟩
      | cons _ _ => cases hmore
    | cons a' as =>
      cases bs with
      | nil => cases hmore
      | cons b' bs =>
        obtain ⟨hsame, hrest⟩ :=
          texts_append_inj (a' :: as) (b' :: bs) has' hbs' (List.cons.inj hmore).2
        exact ⟨congrArg (List.cons a) hsame, hrest⟩

end

end Term

/-! ## Atoms -/

/-- The rest of a text goes on neither with a name nor with arguments. -/
def LeavesAtom (rest : List Char) : Prop :=
  ∀ c ∈ rest.head?, Text.isWordChar c = false ∧ c ≠ '('

theorem leavesAtom_cons {c : Char} {rest : List Char} (hword : Text.isWordChar c = false)
    (hparen : c ≠ '(') : LeavesAtom (c :: rest) := by
  intro d hd
  rw [← Option.some_inj.1 hd]
  exact ⟨hword, hparen⟩

/-- The argument list of an atom, empty if it has no arguments. -/
def argList (args : List Term) : List Char :=
  if args.isEmpty then [] else '(' :: ((Text.joined "," (Term.texts args)).toList ++ [')'])

theorem toList_atomText (name : String) (args : List Term) (positive : Bool) :
    (atomText name args positive).toList =
      (if positive then [] else ['-']) ++ (name.toList ++ argList args) := by
  unfold atomText argList
  cases positive <;> cases args <;> simp

theorem LeavesAtom.leavesName {args : List Term} {u : List Char} (h : LeavesAtom u) :
    Text.LeavesName (argList args ++ u) := by
  cases args with
  | nil => exact fun c hc => (h c hc).1
  | cons a as => exact Text.leavesName_cons rfl

theorem argList_append_inj {args args' : List Term} (hargs : Term.arePlain args = true)
    (hargs' : Term.arePlain args' = true) {u v : List Char} (hu : LeavesAtom u) (hv : LeavesAtom v)
    (h : argList args ++ u = argList args' ++ v) : args = args' ∧ u = v := by
  have hparen : ∀ {rest : List Char}, ¬ LeavesAtom ('(' :: rest) := fun hleaves =>
    (hleaves '(' rfl).2 rfl
  cases args with
  | nil =>
    cases args' with
    | nil => exact ⟨rfl, h⟩
    | cons b bs => exact absurd (show LeavesAtom (argList (b :: bs) ++ v) from h ▸ hu) hparen
  | cons a as =>
    cases args' with
    | nil => exact absurd (show LeavesAtom (argList (a :: as) ++ u) from h ▸ hv) hparen
    | cons b bs =>
      simp only [argList, List.isEmpty_cons, Bool.false_eq_true, if_false, List.cons_append,
        List.append_assoc, List.nil_append, List.cons.injEq, true_and] at h
      exact Term.texts_append_inj _ _ hargs hargs' h

/-- An atom begins with a small letter, or with a minus if its sign is negative. -/
theorem head?_atomText {name : String} (h : Text.isName name = true) (args : List Term)
    (positive : Bool) :
    ∃ first rest, (atomText name args positive).toList = first :: rest ∧
      if positive then first.isLower = true else first = '-' := by
  rw [toList_atomText]
  cases positive with
  | false => exact ⟨'-', _, rfl, rfl⟩
  | true =>
    obtain ⟨first, rest, htext, hfirst⟩ := Text.exists_cons_of_isName h
    rw [htext]
    exact ⟨first, _, rfl, hfirst⟩

theorem atomText_append_inj {name name' : String} {args args' : List Term}
    {positive positive' : Bool} (hname : Text.isName name = true)
    (hname' : Text.isName name' = true) (hargs : Term.arePlain args = true)
    (hargs' : Term.arePlain args' = true) {u v : List Char} (hu : LeavesAtom u) (hv : LeavesAtom v)
    (h : (atomText name args positive).toList ++ u = (atomText name' args' positive').toList ++ v) :
    (name = name' ∧ args = args' ∧ positive = positive') ∧ u = v := by
  -- The first character shows the sign, since no name begins with a minus.
  have hsign : positive = positive' := by
    obtain ⟨first, rest, htext, hfirst⟩ := head?_atomText hname args positive
    obtain ⟨first', rest', htext', hfirst'⟩ := head?_atomText hname' args' positive'
    rw [htext, htext'] at h
    obtain rfl : first = first' := (List.cons.inj h).1
    cases positive <;> cases positive' <;> simp_all
  subst hsign
  rw [toList_atomText, toList_atomText] at h
  simp only [List.append_assoc] at h
  obtain ⟨rfl, hmore⟩ :=
    Text.name_append_inj hname hname' hu.leavesName hv.leavesName (List.append_cancel_left h)
  obtain ⟨rfl, hrest⟩ := argList_append_inj hargs hargs' hu hv hmore
  exact ⟨⟨rfl, rfl, rfl⟩, hrest⟩

end TemporalHorizon

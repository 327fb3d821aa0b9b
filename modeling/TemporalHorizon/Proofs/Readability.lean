import TemporalHorizon.Proofs.PathChecks
import TemporalHorizon.Proofs.Spelling

/-!
# Formulas and paths can be read back

The signs of the language are used in more than one place: `<` begins the step before, a
fixpoint of the past, the value at the first step and a modality, and it also stands
within connectives.  Still no two formulas have the same text.

Formulas and paths are read together, as phrases, because a phrase after `(<` may turn out
to be either.  They share one text: `&true` is both a formula and a path.

* `Phrase.Kind`: what a phrase between parentheses is, apart from its children.  The signs
  after the opening parenthesis and those after the first child determine it
  (`Kind.eq_of_signs`).
* `Phrase.chars_append_inj`: phrases with one text are one phrase, up to `&true`.
* `Formula.text_injective`, `Path.text_injective`: where a formula or a path is wanted,
  nothing is left open.
-/

namespace TemporalHorizon

mutual

/-- All names in the formula are words. -/
def Formula.isPlain : Formula → Bool
  | .atom name args _ => Text.isName name && Term.arePlain args
  | .bool _ | .initial | .final => true
  | .not arg | .previous arg _ | .next arg _ | .initially arg | .modal _ arg => arg.isPlain
  | .binary _ lhs rhs | .temporal _ lhs rhs => lhs.isPlain && rhs.isPlain
  | .dynamic _ path arg => path.isPlain && arg.isPlain

/-- All names in the path are words. -/
def Path.isPlain : Path → Bool
  | .skip => true
  | .test arg => arg.isPlain
  | .seq first second => first.isPlain && second.isPlain
  | .choice lhs rhs => lhs.isPlain && rhs.isPlain
  | .star body => body.isPlain

end

namespace Phrase

def isPlain : Phrase → Bool
  | formula f => f.isPlain
  | path p => p.isPlain

theorem isPlain_of_mem_children {x : Phrase} (h : x.isPlain = true) :
    ∀ child ∈ x.children, child.isPlain = true := by
  revert h
  fun_cases children x <;> simp [isPlain, Formula.isPlain, Path.isPlain]

/-- The characters of the text of a phrase. -/
def chars : Phrase → List Char
  | formula f => f.text.toList
  | path p => p.text.toList

/-! ## Kinds -/

/-- What a phrase between parentheses is, apart from its children. -/
inductive Kind where
  | not
  | binary (op : Connective)
  | previous (weak : Bool)
  | next (weak : Bool)
  | initially
  | temporal (op : Fixpoint)
  | modal (op : Fixpoint)
  | box
  | diamond
  | test
  | seq
  | choice
  | star
  deriving DecidableEq

namespace Kind

/-- The signs after the opening parenthesis. -/
def opening : Kind → List Char
  | not => ['~']
  | previous weak => (if weak then "<:" else "<").toList
  | next weak => (if weak then ">:" else ">").toList
  | initially => ['<', '<']
  | modal op => op.text.toList
  | box => ['[']
  | diamond => ['<']
  | test => ['?']
  | star => ['*']
  | binary _ | temporal _ | seq | choice => []

/-- The signs after the first child. -/
def middle : Kind → List Char
  | binary op => op.text.toList
  | temporal op => op.text.toList
  | box => [']']
  | diamond => ['>']
  | seq => [';', ';']
  | choice => ['+']
  | not | previous _ | next _ | initially | modal _ | test | star => [')']

/-- All kinds. -/
def all : List Kind :=
  [not, previous true, previous false, next true, next false, initially, box, diamond, test, seq,
    choice, star] ++
  [Connective.and, .or, .implies, .implied, .equiv].map binary ++
  [Fixpoint.since, .trigger, .untl, .release].flatMap fun op => [temporal op, modal op]

theorem mem_all (k : Kind) : k ∈ all := by
  cases k with
  | binary op => cases op <;> decide
  | temporal op | modal op => cases op <;> decide
  | previous weak | next weak => cases weak <;> decide
  | _ => decide

/-- Among kinds that open alike, no sign after the first child begins another one. -/
theorem eq_of_middle_begins {k k' : Kind} (hopening : k.opening = k'.opening)
    (hmiddle : k.middle <+: k'.middle) : k = k' := by
  have hall : ∀ k ∈ all, ∀ k' ∈ all, k.opening = k'.opening → k.middle <+: k'.middle → k = k' := by
    decide +kernel
  exact hall k k.mem_all k' k'.mem_all hopening hmiddle

/-- The signs around the first child determine the kind. -/
theorem eq_of_signs {k k' : Kind} (hopening : k.opening = k'.opening) {u v : List Char}
    (hmiddle : k.middle ++ u = k'.middle ++ v) : k = k' := by
  rcases List.prefix_or_prefix_of_prefix ⟨u, rfl⟩ ⟨v, hmiddle.symm⟩ with hbegins | hbegins
  · exact eq_of_middle_begins hopening hbegins
  · exact (eq_of_middle_begins hopening.symm hbegins).symm

/-- A character that only stands in signs. -/
def isSignChar (c : Char) : Bool := c ∈ ['~', '<', '>', ':', '?', '*', '[']

theorem isSignChar_of_mem_opening {k : Kind} {c : Char} (h : c ∈ k.opening) :
    isSignChar c = true := by
  have hall : (all.all fun k => k.opening.all isSignChar) = true := by decide +kernel
  exact List.all_eq_true.1 (List.all_eq_true.1 hall k k.mem_all) c h

/-- What follows the first child does not continue it. -/
theorem leavesAtom_middle (k : Kind) (rest : List Char) : LeavesAtom (k.middle ++ rest) := by
  have hall : (all.all fun k => k.middle.head?.any fun c => !Text.isWordChar c && c != '(') =
      true := by decide +kernel
  have hfirst := List.all_eq_true.1 hall k k.mem_all
  cases hmiddle : k.middle with
  | nil =>
    rw [hmiddle] at hfirst
    cases hfirst
  | cons c tail =>
    rw [hmiddle] at hfirst
    obtain ⟨hword, hparen⟩ : Text.isWordChar c = false ∧ c ≠ '(' := by simpa using hfirst
    exact leavesAtom_cons hword hparen

end Kind

/-- The kind of a phrase between parentheses. -/
def kind? : Phrase → Option Kind
  | formula (.atom _ _ _) | formula (.bool _) | formula .initial | formula .final
  | path .skip => none
  | formula (.not _) => some .not
  | formula (.binary op _ _) => some (.binary op)
  | formula (.previous _ weak) => some (.previous weak)
  | formula (.next _ weak) => some (.next weak)
  | formula (.initially _) => some .initially
  | formula (.temporal op _ _) => some (.temporal op)
  | formula (.modal op _) => some (.modal op)
  | formula (.dynamic .box _ _) => some .box
  | formula (.dynamic .diamond _ _) => some .diamond
  | path (.test _) => some .test
  | path (.seq _ _) => some .seq
  | path (.choice _ _) => some .choice
  | path (.star _) => some .star

/-- What follows the sign after the first child: a second child, if there is one, with the
closing parenthesis. -/
def tail : List Phrase → List Char
  | [] => []
  | second :: _ => second.chars ++ [')']

/-- The number of children after the first one. -/
def Kind.extra : Kind → Nat
  | binary _ | temporal _ | box | diamond | seq | choice => 1
  | not | previous _ | next _ | initially | modal _ | test | star => 0

/-- The text of a phrase between parentheses: signs, the first child, and signs again. -/
theorem chars_of_kind? {x : Phrase} {k : Kind} (h : x.kind? = some k) :
    ∃ first more, x.children = first :: more ∧ more.length = k.extra ∧
      x.chars = '(' :: (k.opening ++ (first.chars ++ (k.middle ++ tail more))) := by
  revert h
  fun_cases kind? x <;> intro h <;> cases h
  all_goals
    refine ⟨_, _, rfl, rfl, ?_⟩
    simp [Kind.middle, Kind.opening, chars, tail, Formula.text, Path.text]

/-! ## Readings -/

/-- The phrase as it is read: the path that has the text of the constant true is read as
this constant. -/
def reading : Phrase → Phrase
  | path .skip => formula (.bool true)
  | x => x

/-- What is read, where a formula is wanted. -/
def asFormula : Phrase → Formula
  | formula f => f
  | path _ => .bool true

/-- What is read, where a path is wanted. -/
def asPath : Phrase → Path
  | path p => p
  | formula _ => .skip

@[simp] theorem asPath_reading (p : Path) : (path p).reading.asPath = p := by
  cases p <;> rfl

/-- The phrase of a kind, from what is read as its children. -/
def Kind.build : Kind → List Phrase → Option Phrase
  | not, [x] => some (formula (.not x.asFormula))
  | binary op, [x, y] => some (formula (.binary op x.asFormula y.asFormula))
  | previous weak, [x] => some (formula (.previous x.asFormula weak))
  | next weak, [x] => some (formula (.next x.asFormula weak))
  | initially, [x] => some (formula (.initially x.asFormula))
  | temporal op, [x, y] => some (formula (.temporal op x.asFormula y.asFormula))
  | modal op, [x] => some (formula (.modal op x.asFormula))
  | box, [x, y] => some (formula (.dynamic .box x.asPath y.asFormula))
  | diamond, [x, y] => some (formula (.dynamic .diamond x.asPath y.asFormula))
  | test, [x] => some (path (.test x.asFormula))
  | seq, [x, y] => some (path (.seq x.asPath y.asPath))
  | choice, [x, y] => some (path (.choice x.asPath y.asPath))
  | star, [x] => some (path (.star x.asPath))
  | _, _ => none

/-- A phrase between parentheses is determined by its kind and by what is read as its
children. -/
theorem build_kind? {x : Phrase} {k : Kind} (h : x.kind? = some k) :
    k.build (x.children.map reading) = some x.reading := by
  revert h
  fun_cases kind? x <;> intro h <;> cases h
  all_goals simp [children, Kind.build]
  all_goals rfl

/-- The word of a constant. -/
def word? : Phrase → Option String
  | formula (.bool true) | path .skip => some "true"
  | formula (.bool false) => some "false"
  | formula .initial => some "initial"
  | formula .final => some "final"
  | _ => none

/-- The constant of a word. -/
def ofWord? (word : String) : Option Phrase :=
  if word = "true" then some (formula (.bool true))
  else if word = "false" then some (formula (.bool false))
  else if word = "initial" then some (formula .initial)
  else if word = "final" then some (formula .final)
  else none

theorem ofWord?_word? {x : Phrase} {word : String} (h : x.word? = some word) :
    x.chars = '&' :: word.toList ∧ Text.isName word = true ∧ ofWord? word = some x.reading := by
  revert h
  fun_cases word? x <;> intro h <;> cases h
  all_goals decide +kernel

/-! ## First characters -/

/-- How a phrase begins. -/
inductive Lead where
  | group
  | constant
  | atom

/-- How a phrase begins that begins with a character. -/
def Lead.of? (c : Char) : Option Lead :=
  if c = '(' then some .group
  else if c = '&' then some .constant
  else if c.isLower || c == '-' then some .atom
  else none

def lead (x : Phrase) : Lead :=
  match x.kind?, x.word? with
  | some _, _ => .group
  | none, some _ => .constant
  | none, none => .atom

theorem exists_kind_of_lead {x : Phrase} (h : x.lead = .group) : ∃ k, x.kind? = some k := by
  cases hkind : x.kind? with
  | some k => exact ⟨k, rfl⟩
  | none => cases hword : x.word? <;> simp [lead, hkind, hword] at h

theorem exists_word_of_lead {x : Phrase} (h : x.lead = .constant) :
    ∃ word, x.word? = some word := by
  cases hword : x.word? with
  | some word => exact ⟨word, rfl⟩
  | none => cases hkind : x.kind? <;> simp [lead, hkind, hword] at h

theorem exists_atom_of_lead {x : Phrase} (h : x.lead = .atom) :
    ∃ name args positive, x = formula (.atom name args positive) := by
  rcases x with f | p
  · cases f with
    | atom name args positive => exact ⟨name, args, positive, rfl⟩
    | bool value => cases value <;> cases h
    | dynamic modality _ _ => cases modality <;> cases h
    | _ => cases h
  · cases p <;> cases h

theorem Lead.of?_isLower {c : Char} (h : c.isLower = true) : of? c = some .atom := by
  have hne : ∀ d : Char, d.isLower = false → c ≠ d := by
    rintro d hd rfl
    rw [h] at hd
    cases hd
  rw [of?, if_neg (hne '(' rfl), if_neg (hne '&' rfl), if_pos (by simp [h])]

/-- No phrase begins with a sign. -/
theorem Lead.isSignChar_eq_false {c : Char} {l : Lead} (h : of? c = some l) :
    Kind.isSignChar c = false := by
  cases hsign : Kind.isSignChar c with
  | false => rfl
  | true =>
    simp only [Kind.isSignChar, List.mem_cons, List.not_mem_nil, or_false,
      decide_eq_true_eq] at hsign
    rcases hsign with rfl | rfl | rfl | rfl | rfl | rfl | rfl <;> cases h

/-- A phrase begins as its lead says. -/
theorem head?_chars {x : Phrase} (h : x.isPlain = true) :
    ∃ first rest, x.chars = first :: rest ∧ Lead.of? first = some x.lead := by
  cases hlead : x.lead with
  | group =>
    obtain ⟨k, hk⟩ := exists_kind_of_lead hlead
    obtain ⟨first, more, -, -, hchars⟩ := chars_of_kind? hk
    exact ⟨'(', _, hchars, rfl⟩
  | constant =>
    obtain ⟨word, hword⟩ := exists_word_of_lead hlead
    exact ⟨'&', _, (ofWord?_word? hword).1, rfl⟩
  | atom =>
    obtain ⟨name, args, positive, rfl⟩ := exists_atom_of_lead hlead
    obtain ⟨first, rest, htext, hfirst⟩ :=
      head?_atomText (Bool.and_eq_true_iff.1 h).1 args positive
    refine ⟨first, rest, htext, ?_⟩
    cases positive with
    | true => exact Lead.of?_isLower hfirst
    | false =>
      obtain rfl : first = '-' := hfirst
      rfl

theorem lead_eq_of_append_eq {x y : Phrase} (hx : x.isPlain = true) (hy : y.isPlain = true)
    {u v : List Char} (h : x.chars ++ u = y.chars ++ v) : x.lead = y.lead := by
  obtain ⟨first, rest, hfirst, hlead⟩ := head?_chars hx
  obtain ⟨first', rest', hfirst', hlead'⟩ := head?_chars hy
  rw [hfirst, hfirst'] at h
  rw [(List.cons.inj h).1, hlead'] at hlead
  exact (Option.some_inj.1 hlead).symm

/-! ## Unique reading -/

/-- The signs after the opening parenthesis end where the first child begins. -/
theorem opening_append_inj {k k' : Kind} {x y : Phrase} (hx : x.isPlain = true)
    (hy : y.isPlain = true) {u v : List Char}
    (h : k.opening ++ (x.chars ++ u) = k'.opening ++ (y.chars ++ v)) :
    k.opening = k'.opening ∧ x.chars ++ u = y.chars ++ v := by
  have hstops : ∀ {x : Phrase}, x.isPlain = true → ∀ {u : List Char}, ∀ c ∈ (x.chars ++ u).head?,
      Kind.isSignChar c = false := by
    intro x hx u c hc
    obtain ⟨first, rest, hfirst, hlead⟩ := head?_chars hx
    rw [hfirst] at hc
    obtain rfl : first = c := Option.some_inj.1 hc
    exact Lead.isSignChar_eq_false hlead
  exact append_inj_of_stops (fun _ => Kind.isSignChar_of_mem_opening)
    (fun _ => Kind.isSignChar_of_mem_opening) (hstops hx) (hstops hy) h

/-- The signs after the first child are followed by at most one other child. -/
theorem tail_append_inj {k : Kind} {more more' : List Phrase} (hlength : more.length = k.extra)
    (hlength' : more'.length = k.extra) {u v : List Char}
    (hread : ∀ c ∈ more, ∀ d ∈ more', c.chars ++ ')' :: u = d.chars ++ ')' :: v →
      c.reading = d.reading ∧ ')' :: u = ')' :: v)
    (h : tail more ++ u = tail more' ++ v) :
    more.map reading = more'.map reading ∧ u = v := by
  have hextra : k.extra = 0 ∨ k.extra = 1 := by cases k <;> simp [Kind.extra]
  rcases hextra with hextra | hextra
  · rw [hextra] at hlength hlength'
    obtain rfl := List.length_eq_zero_iff.1 hlength
    obtain rfl := List.length_eq_zero_iff.1 hlength'
    exact ⟨rfl, h⟩
  · rw [hextra] at hlength hlength'
    obtain ⟨c, rfl⟩ := List.length_eq_one_iff.1 hlength
    obtain ⟨d, rfl⟩ := List.length_eq_one_iff.1 hlength'
    simp only [tail, List.append_assoc, List.cons_append, List.nil_append] at h
    obtain ⟨hreading, hrest⟩ :=
      hread c (List.mem_singleton_self c) d (List.mem_singleton_self d) h
    exact ⟨congrArg (fun x => [x]) hreading, (List.cons.inj hrest).2⟩

/-- **Phrases are read in one way.**  If two phrases, each followed by a rest that does not
continue it, give one text, then they are read as the same phrase, and the rests agree. -/
theorem chars_append_inj (x : Phrase) (hx : x.isPlain = true) :
    ∀ {y : Phrase}, y.isPlain = true → ∀ {u v : List Char}, LeavesAtom u → LeavesAtom v →
      x.chars ++ u = y.chars ++ v → x.reading = y.reading ∧ u = v := by
  induction x using induction_children with
  | step x ih =>
    intro y hy u v hu hv h
    have hlead := lead_eq_of_append_eq hx hy h
    cases hcase : x.lead with
    | group =>
      obtain ⟨k, hk⟩ := exists_kind_of_lead hcase
      obtain ⟨k', hk'⟩ := exists_kind_of_lead (hlead ▸ hcase)
      obtain ⟨a, more, hchildren, hlength, hchars⟩ := chars_of_kind? hk
      obtain ⟨b, more', hchildren', hlength', hchars'⟩ := chars_of_kind? hk'
      have hplain := isPlain_of_mem_children hx
      have hplain' := isPlain_of_mem_children hy
      rw [hchildren, List.forall_mem_cons] at hplain ih
      rw [hchildren', List.forall_mem_cons] at hplain'
      rw [hchars, hchars'] at h
      simp only [List.cons_append, List.append_assoc, List.cons.injEq, true_and] at h
      obtain ⟨hopening, hbody⟩ := opening_append_inj hplain.1 hplain'.1 h
      obtain ⟨hfirst, hafter⟩ :=
        ih.1 hplain.1 hplain'.1 (k.leavesAtom_middle _) (k'.leavesAtom_middle _) hbody
      obtain rfl := Kind.eq_of_signs hopening hafter
      obtain ⟨hmore, hrest⟩ := tail_append_inj hlength hlength'
        (fun c hc d hd => ih.2 c hc (hplain.2 c hc) (hplain'.2 d hd)
          (leavesAtom_cons rfl (by decide)) (leavesAtom_cons rfl (by decide)))
        (List.append_cancel_left hafter)
      have hchildren : x.children.map reading = y.children.map reading := by
        rw [hchildren, hchildren', List.map_cons, List.map_cons, hfirst, hmore]
      have hbuild := build_kind? hk
      rw [hchildren, build_kind? hk'] at hbuild
      exact ⟨(Option.some_inj.1 hbuild).symm, hrest⟩
    | constant =>
      obtain ⟨word, hword⟩ := exists_word_of_lead hcase
      obtain ⟨word', hword'⟩ := exists_word_of_lead (hlead ▸ hcase)
      obtain ⟨hchars, hname, hreading⟩ := ofWord?_word? hword
      obtain ⟨hchars', hname', hreading'⟩ := ofWord?_word? hword'
      rw [hchars, hchars'] at h
      obtain ⟨rfl, hrest⟩ := Text.name_append_inj hname hname' (fun c hc => (hu c hc).1)
        (fun c hc => (hv c hc).1) (List.cons.inj h).2
      exact ⟨Option.some_inj.1 (hreading.symm.trans hreading'), hrest⟩
    | atom =>
      obtain ⟨name, args, positive, rfl⟩ := exists_atom_of_lead hcase
      obtain ⟨name', args', positive', rfl⟩ := exists_atom_of_lead (hlead ▸ hcase)
      obtain ⟨hname, hargs⟩ := Bool.and_eq_true_iff.1 hx
      obtain ⟨hname', hargs'⟩ := Bool.and_eq_true_iff.1 hy
      obtain ⟨⟨rfl, rfl, rfl⟩, hrest⟩ := atomText_append_inj hname hname' hargs hargs' hu hv h
      exact ⟨rfl, hrest⟩

/-- Phrases with one text are read as the same phrase. -/
theorem reading_eq_of_chars_eq {x y : Phrase} (hx : x.isPlain = true) (hy : y.isPlain = true)
    (h : x.chars = y.chars) : x.reading = y.reading := by
  have hend : LeavesAtom [] := fun c hc => by cases hc
  refine (chars_append_inj x hx hy hend hend ?_).1
  rw [h]

end Phrase

/-- Formulas with the same text are the same. -/
theorem Formula.text_injective {f g : Formula} (hf : f.isPlain = true) (hg : g.isPlain = true)
    (h : f.text = g.text) : f = g := by
  have hreading : (Phrase.formula f).reading = (Phrase.formula g).reading :=
    Phrase.reading_eq_of_chars_eq hf hg (congrArg String.toList h)
  exact congrArg Phrase.asFormula hreading

/-- Paths with the same text are the same. -/
theorem Path.text_injective {p q : Path} (hp : p.isPlain = true) (hq : q.isPlain = true)
    (h : p.text = q.text) : p = q := by
  have hreading : (Phrase.path p).reading = (Phrase.path q).reading :=
    Phrase.reading_eq_of_chars_eq hp hq (congrArg String.toList h)
  rw [← Phrase.asPath_reading p, hreading, Phrase.asPath_reading]

/-- Formulas at steps are the same if they have the same name. -/
theorem Formula.name_injective {f g : Formula} (hf : f.isPlain = true) (hg : g.isPlain = true)
    {s t : Nat} (h : f.text ++ "@" ++ toString s = g.text ++ "@" ++ toString t) :
    f = g ∧ s = t := by
  have hchars : (Phrase.formula f).chars ++ '@' :: (Nat.toDigits 10 s) =
      (Phrase.formula g).chars ++ '@' :: (Nat.toDigits 10 t) := by
    simpa [Phrase.chars, Nat.toString_eq_repr, Nat.repr] using congrArg String.toList h
  have hat : ∀ rest, LeavesAtom ('@' :: rest) := fun rest => leavesAtom_cons rfl (by decide)
  obtain ⟨hreading, hrest⟩ :=
    Phrase.chars_append_inj (.formula f) hf (y := .formula g) hg (hat _) (hat _) hchars
  exact ⟨congrArg Phrase.asFormula hreading,
    Text.toDigits_injective (by decide) (by decide) (List.cons.inj hrest).2⟩

end TemporalHorizon

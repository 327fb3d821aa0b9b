import Mathlib.Logic.Relation
import TemporalHorizon.Proofs.Ledger

/-!
# What an answer leaves in the ledger

A request for the literal of a formula at a step changes the ledger in a few ways
only, however deep it goes.  `Move` lists them:

* a ground atom is entered;
* a formula is given a literal that it *shares* with another formula at another
  step, or with a constant; `Source` says which;
* a formula is given an atom of its own, with the rules of its *definition*;
* a reference to the step after an open edge is given an atom that waits at the
  edge.

The main statement is `encode_does`: a request for an acceptable formula at a
reached step succeeds, and it leads from ledger to ledger by moves.  That no
entry is written twice rests on the bound on chains of requests: whatever is
written while a formula is being answered has shorter chains than the formula, so
the formula itself is not among it.
-/

namespace TemporalHorizon

attribute [local instance] Arithmetic.exact

/-- A fixpoint formula, its operator and its operands; the left one may be
missing. -/
inductive Formula.IsFixpoint : Formula → Fixpoint → Option Formula → Formula → Prop
  | temporal (op lhs rhs) : IsFixpoint (.temporal op lhs rhs) op (some lhs) rhs
  | modal (op arg) : IsFixpoint (.modal op arg) op none arg

/-- The last reached step as a window shows it. -/
def Window.edge (window : Window) : Instant := ⟨window.horizon, window.closed⟩

@[simp] theorem Window.edge_withStage (window : Window) (stage : Stage) :
    (window.withStage stage).edge = window.edge := rfl

namespace Sheet

/-- The literal of the left operand of a fixpoint; a missing operand is a
constant. -/
def left (lit : Sheet) (op : Fixpoint) (lhs : Option Formula) (s : Nat) : Option Lit :=
  match lhs with
  | some lhs => lit lhs s
  | none => some (Lit.constant !op.isGreatest)

/-- The literal of a fixpoint at the adjacent step. -/
def adjacent (lit : Sheet) (f : Formula) (op : Fixpoint) (s : Nat) : Option Lit :=
  if op.isFuture then lit (.next f op.isGreatest) s
  else
    match s with
    | 0 => none
    | before + 1 => lit f before

theorem adjacent_future {lit : Sheet} {f : Formula} {op : Fixpoint} {s : Nat}
    (h : op.isFuture = true) : lit.adjacent f op s = lit (.next f op.isGreatest) s := if_pos h

theorem adjacent_past {lit : Sheet} {f : Formula} {op : Fixpoint} {s : Nat}
    (h : op.isFuture = false) : lit.adjacent f op (s + 1) = lit f s := if_neg (by simp [h])

/-- The literal that a formula at a step shares, given the literals so far and the
last reached step. -/
inductive Source (lit : Sheet) (edge : Instant) : Formula → Nat → Lit → Prop
  | atom {f s y} : f.isAtom = true → lit f s = some y → Source lit edge f s y
  | bool {value s} : Source lit edge (.bool value) s (Lit.constant value)
  | initial {s} : Source lit edge .initial s (Lit.constant (s == 0))
  | last : edge.last = true → Source lit edge .final edge.index Lit.truth
  | notLast {s} : s < edge.index → Source lit edge .final s Lit.falsity
  | atEdge {s y} : lit Formula.hasNext s = some y → Source lit edge .final s (-y)
  | not {arg s y} : lit arg s = some y → Source lit edge (.not arg) s (-y)
  | previousStart {arg weak} : Source lit edge (.previous arg weak) 0 (Lit.constant weak)
  | previous {arg weak s y} : lit arg s = some y → Source lit edge (.previous arg weak) (s + 1) y
  | next {arg weak s y} : s < edge.index → lit arg (s + 1) = some y →
    Source lit edge (.next arg weak) s y
  | nextEnd {arg weak} : edge.last = true →
    Source lit edge (.next arg weak) edge.index (Lit.constant weak)
  | initially {arg s y} : lit arg 0 = some y → Source lit edge (.initially arg) s y
  | fixpointStart {f op lhs rhs y} : f.IsFixpoint op lhs rhs → op.isFuture = false →
    lit rhs 0 = some y → Source lit edge f 0 y
  | dynamic {modality path arg s y} : lit (Formula.unfoldPath modality path arg) s = some y →
    Source lit edge (.dynamic modality path arg) s y

/-- The rules that define the atom of a formula at a step, given the literals so
far. -/
inductive Definition (lit : Sheet) : Formula → Nat → Lit → List Rule → Prop
  | binary {op lhs rhs s x a b} : lit lhs s = some a → lit rhs s = some b →
    Definition lit (.binary op lhs rhs) s x (Encoder.connectiveRules op x a b)
  | fixpoint {f op lhs rhs s x l r adjacent} : f.IsFixpoint op lhs rhs → lit rhs s = some r →
    lit.adjacent f op s = some adjacent → lit.left op lhs s = some l →
    Definition lit f s x (Encoder.fixpointRules op x l r adjacent)

/-- The literals of one sheet are those of another. -/
def Below (lit lit' : Sheet) : Prop := ∀ f s l, lit f s = some l → lit' f s = some l

theorem Below.refl (lit : Sheet) : lit.Below lit := fun _ _ _ h => h

theorem Below.trans {a b c : Sheet} (h : a.Below b) (h' : b.Below c) : a.Below c :=
  fun f s l hl => h' f s l (h f s l hl)

theorem Below.left {lit lit' : Sheet} (h : lit.Below lit') {op : Fixpoint} {lhs : Option Formula}
    {s : Nat} {l : Lit} (hl : lit.left op lhs s = some l) : lit'.left op lhs s = some l := by
  cases lhs with
  | none => exact hl
  | some lhs => exact h _ _ _ hl

theorem Below.adjacent {lit lit' : Sheet} (h : lit.Below lit') {f : Formula} {op : Fixpoint}
    {s : Nat} {l : Lit} (hl : lit.adjacent f op s = some l) : lit'.adjacent f op s = some l := by
  unfold Sheet.adjacent at hl ⊢
  split
  · next hop =>
    rw [if_pos hop] at hl
    exact h _ _ _ hl
  · next hop =>
    rw [if_neg hop] at hl
    cases s with
    | zero => exact hl
    | succ before => exact h _ _ _ hl

/-- More literals and a later edge keep what is shared.  An edge that is the last
step stays where it is. -/
theorem Source.mono {lit lit' : Sheet} {edge edge' : Instant} {f : Formula} {s : Nat} {y : Lit}
    (h : Source lit edge f s y) (hlit : lit.Below lit') (hle : edge.index ≤ edge'.index)
    (hlast : edge.last = true → edge' = edge) : Source lit' edge' f s y := by
  cases h with
  | atom hf hl => exact .atom hf (hlit _ _ _ hl)
  | bool => exact .bool
  | initial => exact .initial
  | last he => rw [hlast he]; exact .last he
  | notLast hs => exact .notLast (Nat.lt_of_lt_of_le hs hle)
  | atEdge hl => exact .atEdge (hlit _ _ _ hl)
  | not hl => exact .not (hlit _ _ _ hl)
  | previousStart => exact .previousStart
  | previous hl => exact .previous (hlit _ _ _ hl)
  | next hs hl => exact .next (Nat.lt_of_lt_of_le hs hle) (hlit _ _ _ hl)
  | nextEnd he => rw [hlast he]; exact .nextEnd he
  | initially hl => exact .initially (hlit _ _ _ hl)
  | fixpointStart hf hop hl => exact .fixpointStart hf hop (hlit _ _ _ hl)
  | dynamic hl => exact .dynamic (hlit _ _ _ hl)

theorem Definition.mono {lit lit' : Sheet} {f : Formula} {s : Nat} {x : Lit} {rules : List Rule}
    (h : Definition lit f s x rules) (hlit : lit.Below lit') : Definition lit' f s x rules := by
  cases h with
  | binary ha hb => exact .binary (hlit _ _ _ ha) (hlit _ _ _ hb)
  | fixpoint hf hr hadj hl =>
    exact .fixpoint hf (hlit _ _ _ hr) (hlit.adjacent hadj) (hlit.left hl)

end Sheet

/-! ## Moves -/

namespace Ledger

/-- What a request for a literal can do to a ledger at a time. -/
inductive Move (edge : Instant) (ledger : Ledger) : Ledger → Prop
  | enter {f s} : f.isAtom = true → s ≤ edge.index → ledger.ground f s = none →
    Move edge ledger (ledger.enter f s)
  | share {f s y} : f.isAtom = false → f.malformedPath? = none → s ≤ edge.index →
    ledger.entry f s = none → Sheet.Source ledger.lit edge f s y →
    Move edge ledger (ledger.share f s y)
  | define {f s rules} : f.malformedPath? = none → s ≤ edge.index → ledger.entry f s = none →
    Sheet.Definition ledger.lit f s (ledger.candidate f s) rules →
    Move edge ledger
      ((ledger.claim f s).post (.choice (ledger.candidate f s).atom :: rules))
  | await {arg weak} : (Formula.next arg weak).malformedPath? = none → edge.last = false →
    ledger.entry (.next arg weak) edge.index = none →
    Move edge ledger
      { ledger.claim (.next arg weak) edge.index with
        edge := ledger.edge.openBoundary
          ⟨ledger.candidate (.next arg weak) edge.index, arg, edge.index + 1, weak⟩ }

/-- Moves one after the other. -/
abbrev Moves (edge : Instant) : Ledger → Ledger → Prop := Relation.ReflTransGen (Move edge)

/-- What stays in a ledger for good.  What waits at the edge is not among it: the
next step takes it away. -/
structure Keeps (ledger later : Ledger) : Prop where
  entry : ledger.entry.Below later.entry
  ground : ledger.ground.Below later.ground
  next : ledger.next ≤ later.next
  rules : ∃ more, later.rules = ledger.rules ++ more
  carriers : ∃ more, later.carriers = ledger.carriers ++ more
  required : ∀ f s guard, ledger.required f s guard → later.required f s guard

namespace Keeps

theorem refl (ledger : Ledger) : ledger.Keeps ledger :=
  ⟨.refl _, .refl _, Nat.le_refl _, ⟨[], (List.append_nil _).symm⟩,
    ⟨[], (List.append_nil _).symm⟩, fun _ _ _ h => h⟩

/-- Appending twice is appending. -/
theorem append_trans {α : Type} {a b c : List α} (h : ∃ more, b = a ++ more)
    (h' : ∃ more, c = b ++ more) : ∃ more, c = a ++ more := by
  obtain ⟨more, rfl⟩ := h
  obtain ⟨more', rfl⟩ := h'
  exact ⟨more ++ more', List.append_assoc _ _ _⟩

theorem trans {a b c : Ledger} (h : a.Keeps b) (h' : b.Keeps c) : a.Keeps c where
  entry := h.entry.trans h'.entry
  ground := h.ground.trans h'.ground
  next := Nat.le_trans h.next h'.next
  rules := append_trans h.rules h'.rules
  carriers := append_trans h.carriers h'.carriers
  required := fun f s guard hr => h'.required f s guard (h.required f s guard hr)

theorem lit {a b : Ledger} (h : a.Keeps b) : a.lit.Below b.lit := by
  intro f s l hl
  unfold Ledger.lit at hl ⊢
  split
  · next hf =>
    rw [if_pos hf] at hl
    exact h.ground f s l hl
  · next hf =>
    rw [if_neg hf] at hl
    exact h.entry f s l hl

theorem mem_rules {a b : Ledger} (h : a.Keeps b) {rule : Rule} (hr : rule ∈ a.rules) :
    rule ∈ b.rules := by
  obtain ⟨more, hmore⟩ := h.rules
  rw [hmore]
  exact List.mem_append_left _ hr

theorem mem_carriers {a b : Ledger} (h : a.Keeps b) {carrier : Carrier}
    (hc : carrier ∈ a.carriers) : carrier ∈ b.carriers := by
  obtain ⟨more, hmore⟩ := h.carriers
  rw [hmore]
  exact List.mem_append_left _ hc

end Keeps

/-- What stays when a ledger grows at one step. -/
structure Grows (ledger later : Ledger) : Prop extends Keeps ledger later where
  boundaries : ∃ more, later.edge.boundaries = ledger.edge.boundaries ++ more
  deferred : ∃ more, later.edge.deferred = ledger.edge.deferred ++ more
  instances : ∃ more, later.edge.instances = ledger.edge.instances ++ more

namespace Grows

theorem refl (ledger : Ledger) : ledger.Grows ledger :=
  ⟨.refl _, ⟨[], (List.append_nil _).symm⟩, ⟨[], (List.append_nil _).symm⟩,
    ⟨[], (List.append_nil _).symm⟩⟩

theorem trans {a b c : Ledger} (h : a.Grows b) (h' : b.Grows c) : a.Grows c where
  toKeeps := h.toKeeps.trans h'.toKeeps
  boundaries := Keeps.append_trans h.boundaries h'.boundaries
  deferred := Keeps.append_trans h.deferred h'.deferred
  instances := Keeps.append_trans h.instances h'.instances

theorem post (ledger : Ledger) (rules : List Rule) : ledger.Grows (ledger.post rules) :=
  { refl ledger with rules := ⟨_, rfl⟩ }

theorem write {ledger : Ledger} {f : Formula} {s : Nat} (h : ledger.entry f s = none) (lit : Lit) :
    ledger.Grows (ledger.write f s lit) :=
  { refl ledger with entry := fun _ _ _ hg => Sheet.put_eq_some h hg }

theorem claim {ledger : Ledger} {f : Formula} {s : Nat} (h : ledger.entry f s = none) :
    ledger.Grows (ledger.claim f s) := by
  refine { refl ledger with entry := fun _ _ _ hg => Sheet.put_eq_some h hg, next := ?_ }
  unfold Ledger.claim
  cases ledger.binding f s with
  | some host => exact Nat.le_refl _
  | none => exact Nat.le_succ _

theorem enter {ledger : Ledger} {f : Formula} {s : Nat} (h : ledger.ground f s = none) :
    ledger.Grows (ledger.enter f s) :=
  { refl ledger with
    ground := fun _ _ _ hg => Sheet.put_eq_some h hg
    next := Nat.le_succ _
    rules := ⟨_, rfl⟩ }

end Grows

namespace Move

variable {edge : Instant} {ledger later : Ledger}

theorem grows (h : Move edge ledger later) : ledger.Grows later := by
  cases h with
  | enter _ _ hnone => exact .enter hnone
  | share _ _ _ hnone _ => exact (Grows.write hnone _).trans (.post _ _)
  | define _ _ hnone _ => exact (Grows.claim hnone).trans (.post _ _)
  | await _ _ hnone => exact { Grows.claim hnone with boundaries := ⟨_, rfl⟩ }

/-- Requests for literals leave requirements, instances and carriers alone. -/
theorem frame (h : Move edge ledger later) :
    later.edge.deferred = ledger.edge.deferred ∧ later.edge.instances = ledger.edge.instances ∧
      later.carriers = ledger.carriers ∧ later.required = ledger.required := by
  cases h <;> exact ⟨rfl, rfl, rfl, rfl⟩

end Move

namespace Moves

variable {edge : Instant} {ledger later : Ledger}

theorem grows (h : Moves edge ledger later) : ledger.Grows later := by
  induction h with
  | refl => exact .refl _
  | tail _ hmove ih => exact ih.trans hmove.grows

theorem frame (h : Moves edge ledger later) :
    later.edge.deferred = ledger.edge.deferred ∧ later.edge.instances = ledger.edge.instances ∧
      later.carriers = ledger.carriers ∧ later.required = ledger.required := by
  induction h with
  | refl => exact ⟨rfl, rfl, rfl, rfl⟩
  | tail _ hmove ih =>
    obtain ⟨hd, hi, hc, hr⟩ := hmove.frame
    exact ⟨hd.trans ih.1, hi.trans ih.2.1, hc.trans ih.2.2.1, hr.trans ih.2.2.2⟩

end Moves
end Ledger

/-! ## Acceptable formulas -/

/-- A formula that may be encoded or required in a window: its paths are in normal
form, and it looks ahead only if the stage allows it. -/
structure Window.Admits (window : Window) (f : Formula) : Prop where
  wellFormed : f.malformedPath? = none
  ahead : window.stage.licensesFuture = true ∨ f.referencesFuture = false

/-- Nothing is found by either of two searches. -/
theorem orElse_eq_none_iff {α : Type} {a b : Option α} :
    (a <|> b) = none ↔ a = none ∧ b = none := by
  cases a <;> simp

/-- Unfolding a dynamic formula over a path in normal form makes no malformed
path. -/
theorem Formula.malformedPath?_unfoldPath {modality : Modality} {path : Path} {arg : Formula}
    (h : (Formula.dynamic modality path arg).malformedPath? = none) :
    (Formula.unfoldPath modality path arg).malformedPath? = none := by
  have hpath : path.isNormal = true := by
    cases hn : path.isNormal with
    | true => rfl
    | false => simp [Formula.malformedPath?, hn] at h
  simp only [Formula.malformedPath?, hpath, if_true, orElse_eq_none_iff] at h
  obtain ⟨htests, harg⟩ := h
  cases path with
  | skip => exact harg
  | test f => exact orElse_eq_none_iff.2 ⟨htests, harg⟩
  | seq first second =>
    simp only [Path.isNormal, Bool.and_eq_true] at hpath
    obtain ⟨hfirst, hsecond⟩ := orElse_eq_none_iff.1 htests
    simp [Formula.unfoldPath, Formula.malformedPath?, hpath, hfirst, hsecond, harg]
  | choice lhs rhs =>
    simp only [Path.isNormal, Bool.and_eq_true] at hpath
    obtain ⟨hlhs, hrhs⟩ := orElse_eq_none_iff.1 htests
    simp [Formula.unfoldPath, Formula.malformedPath?, hpath, hlhs, hrhs, harg]
  | star body =>
    have hbody : body.isNormal = true := by
      simp only [Path.isNormal, Bool.and_eq_true] at hpath
      exact hpath.2
    have hb : body.malformedTest? = none := htests
    have hs : (Path.star body).malformedTest? = none := htests
    simp [Formula.unfoldPath, Formula.malformedPath?, hpath, hbody, hb, hs, harg]

/-- A formula at the adjacent step is as acceptable as the fixpoint it belongs
to. -/
theorem Window.Admits.adjacent {window : Window} {f g : Formula} {op : Fixpoint} {s t : Nat}
    (h : window.Admits f) (hop : op.isFuture = true → f.referencesFuture = true)
    (hq : (g, t) ∈ if op.isFuture then [(Formula.next f op.isGreatest, s)]
      else if s = 0 then [] else [(f, s - 1)]) : window.Admits g := by
  split at hq
  · next hfuture =>
    simp only [List.mem_singleton, Prod.mk.injEq] at hq
    refine hq.1 ▸ ⟨h.wellFormed, .inl (h.ahead.resolve_right ?_)⟩
    rw [hop hfuture]
    exact Bool.noConfusion
  · split at hq
    · cases hq
    · simp only [List.mem_singleton, Prod.mk.injEq] at hq
      exact hq.1 ▸ h

/-- Whatever is asked for on behalf of an acceptable formula is acceptable; only
the last step asks on behalf of another stage. -/
theorem Window.Admits.request {window : Window} {f g : Formula} {horizon s t : Nat}
    (h : window.Admits f) (hf : f ≠ .final) (hq : (g, t) ∈ f.requests horizon s) :
    window.Admits g := by
  obtain ⟨hwell, hahead⟩ := id h
  cases f with
  | atom name args positive | bool value | initial => simp [Formula.requests] at hq
  | final => exact absurd rfl hf
  | not arg | initially arg | previous arg weak =>
    simp only [Formula.requests, List.mem_singleton, Prod.mk.injEq] at hq
    exact hq.1 ▸ ⟨hwell, hahead⟩
  | binary op lhs rhs =>
    obtain ⟨hl, hr⟩ := orElse_eq_none_iff.1 hwell
    simp only [Formula.referencesFuture, Bool.or_eq_false_iff] at hahead
    simp only [Formula.requests, List.mem_cons, List.not_mem_nil, or_false, Prod.mk.injEq] at hq
    rcases hq with ⟨rfl, _⟩ | ⟨rfl, _⟩
    · exact ⟨hl, hahead.imp_right And.left⟩
    · exact ⟨hr, hahead.imp_right And.right⟩
  | next arg weak =>
    have hstage := hahead.resolve_right (by simp [Formula.referencesFuture])
    simp only [Formula.requests] at hq
    split at hq
    · simp only [List.mem_singleton, Prod.mk.injEq] at hq
      exact hq.1 ▸ ⟨hwell, .inl hstage⟩
    · cases hq
  | temporal op lhs rhs =>
    obtain ⟨hl, hr⟩ := orElse_eq_none_iff.1 hwell
    simp only [Formula.referencesFuture, Bool.or_eq_false_iff] at hahead
    rcases List.mem_append.1 hq with hq | hq
    · exact h.adjacent (fun hop => by simp [Formula.referencesFuture, hop]) hq
    · simp only [List.mem_cons, List.not_mem_nil, or_false, Prod.mk.injEq] at hq
      rcases hq with ⟨rfl, _⟩ | ⟨rfl, _⟩
      · exact ⟨hl, hahead.imp_right fun h => h.1.2⟩
      · exact ⟨hr, hahead.imp_right fun h => h.2⟩
  | modal op arg =>
    simp only [Formula.referencesFuture, Bool.or_eq_false_iff] at hahead
    rcases List.mem_append.1 hq with hq | hq
    · exact h.adjacent (fun hop => by simp [Formula.referencesFuture, hop]) hq
    · simp only [List.mem_singleton, Prod.mk.injEq] at hq
      exact hq.1 ▸ ⟨hwell, hahead.imp_right fun h => h.2⟩
  | dynamic modality path arg =>
    have hstage := hahead.resolve_right (by simp [Formula.referencesFuture])
    simp only [Formula.requests] at hq
    split at hq
    · simp only [List.mem_singleton, Prod.mk.injEq] at hq
      exact hq.1 ▸ ⟨Formula.malformedPath?_unfoldPath hwell, .inl hstage⟩
    · cases hq

/-! ## Requests under way -/

namespace Encoder

open Ledger (Move Moves)

/-- A request was answered: moves have led to a ledger with the literal, and every
entry that is new there is for a formula whose chains of requests are no longer
than those of the formula that was asked for. -/
structure Answers (given : List Rule) (edge : Instant) (f : Formula) (s : Nat)
    (before : Encoder) (lit : Lit) (after : Encoder) : Prop where
  tidy : after.Tidy
  grown : before.store.Extends after.store
  moves : Moves edge (before.ledger given) (after.ledger given)
  lit_eq : (after.ledger given).lit f s = some lit
  bounded : ∀ n, Bounded edge.index n f s → ∀ g t,
    (after.ledger given).entry g t = (before.ledger given).entry g t ∨ Bounded edge.index n g t

/-- A way to answer requests that does so for all acceptable formulas. -/
def AnswersAll (given : List Rule) (edge : Instant) (rec : Encoding) : Prop :=
  ∀ window f s encoder, window.edge = edge → window.Admits f → s ≤ edge.index → encoder.Tidy →
    Does (rec window f s) encoder (Answers given edge f s encoder)

/-- A formula is being answered.  All it asks for has chains of at most `m`
requests, but the formula itself has not. -/
structure UnderWay (given : List Rule) (edge : Instant) (m : Nat) (f : Formula) (key : Key)
    (start now : Encoder) : Prop where
  names : now.Names key f key.step
  composite : f.isAtom = false
  wellFormed : f.malformedPath? = none
  reached : key.step ≤ edge.index
  absent : (start.ledger given).entry f key.step = none
  requests : ∀ request ∈ f.requests edge.index key.step, Bounded edge.index m request.1 request.2
  deep : ¬ Bounded edge.index m f key.step
  tidy : now.Tidy
  grown : start.store.Extends now.store
  moves : Moves edge (start.ledger given) (now.ledger given)
  bounded : ∀ g t, (now.ledger given).entry g t = (start.ledger given).entry g t ∨
    Bounded edge.index m g t

variable {given : List Rule} {edge : Instant} {m : Nat} {f : Formula} {key : Key}
  {start now : Encoder}

namespace UnderWay

/-- The formula has no entry yet. -/
theorem entry_none (h : UnderWay given edge m f key start now) :
    (now.ledger given).entry f key.step = none := by
  rcases h.bounded f key.step with heq | hb
  · rw [heq]
    exact h.absent
  · exact absurd hb h.deep

/-- Another formula is asked for. -/
theorem ask (h : UnderWay given edge m f key start now) {rec : Encoding}
    (hrec : AnswersAll given edge rec) {window : Window} (hw : window.edge = edge)
    {g : Formula} {t : Nat} (hadmits : window.Admits g) (ht : t ≤ edge.index)
    (hq : (g, t) ∈ f.requests edge.index key.step) :
    Does (rec window g t) now fun lit after =>
      UnderWay given edge m f key start after ∧ (after.ledger given).lit g t = some lit ∧
        (now.ledger given).Grows (after.ledger given) := by
  refine (hrec window g t now hw hadmits ht h.tidy).mono fun lit after ha => ?_
  refine ⟨?_, ha.lit_eq, ha.moves.grows⟩
  exact { h with
    names := h.names.mono ha.grown
    tidy := ha.tidy
    grown := h.grown.trans ha.grown
    moves := h.moves.trans ha.moves
    bounded := fun g' t' => by
      rcases ha.bounded m (h.requests _ hq) g' t' with heq | hb
      · rw [heq]
        exact h.bounded g' t'
      · exact .inr hb }

/-- The last move gives the formula its entry. -/
theorem finish (h : UnderWay given edge m f key start now) {after : Encoder} {ledger : Ledger}
    {lit : Lit} (hm : Move edge (now.ledger given) ledger) (ha : Follows given now after ledger)
    (hentry : ledger.entry = (now.ledger given).entry.put f key.step (some lit)) :
    Answers given edge f key.step start lit after := by
  rw [← ha.ledger_eq] at hm hentry
  refine ⟨ha.tidy, h.grown.trans ha.grown, h.moves.tail hm, ?_, fun n hn g t => ?_⟩
  · unfold Ledger.lit
    rw [h.composite, hentry, Sheet.put_self]
    rfl
  · rw [hentry]
    by_cases hg : g = f ∧ t = key.step
    · exact .inr (by rw [hg.1, hg.2]; exact hn)
    · rw [Sheet.put_of_ne hg]
      -- A bound for the formula is above `m`, and the entries so far have chains of at most `m`.
      have hlt : m < n := Nat.lt_of_not_le fun hle => h.deep (hn.mono hle)
      exact (h.bounded g t).imp_right fun hb => hb.mono (Nat.le_of_lt hlt)

theorem share (h : UnderWay given edge m f key start now) {y : Lit}
    (hy : Sheet.Source (now.ledger given).lit edge f key.step y) :
    Does (share key y) now (Answers given edge f key.step start) := by
  refine (share_does given h.tidy h.names h.entry_none y).mono ?_
  rintro _ after ⟨rfl, ha⟩
  exact h.finish (.share h.composite h.wellFormed h.reached h.entry_none hy) ha rfl

theorem define (h : UnderWay given edge m f key start now) {rules : Lit → List Rule}
    (hy : ∀ x, Sheet.Definition (now.ledger given).lit f key.step x (rules x)) :
    Does (do
      let x ← define key
      emitAll (rules x)
      return x) now (Answers given edge f key.step start) := by
  refine (define_does given h.tidy h.names h.entry_none).bind ?_
  rintro _ middle ⟨rfl, hm⟩
  refine (emitAll_does given hm.tidy _).bind fun _ after ha => Does.pure ?_
  rw [hm.ledger_eq, Ledger.post_append] at ha
  exact h.finish (.define h.wellFormed h.reached h.entry_none (hy _)) (hm.trans ha) rfl

end UnderWay

/-! ## One answer from others -/

/-- A fixpoint formula asks for its right operand, for itself at the adjacent step
and for its left operand. -/
theorem requests_of_isFixpoint {op : Fixpoint} {lhs : Option Formula} {rhs : Formula} {s : Nat}
    (hf : f.IsFixpoint op lhs rhs) (horizon : Nat) :
    (rhs, s) ∈ f.requests horizon s ∧
    (op.isFuture = true → (.next f op.isGreatest, s) ∈ f.requests horizon s) ∧
    (op.isFuture = false → s ≠ 0 → (f, s - 1) ∈ f.requests horizon s) ∧
    ∀ l, lhs = some l → (l, s) ∈ f.requests horizon s := by
  cases hf with
  | temporal op lhs rhs => cases hop : op.isFuture <;> simp_all [Formula.requests]
  | modal op arg => cases hop : op.isFuture <;> simp_all [Formula.requests]

theorem encodeFixpoint_does (h : UnderWay given edge m f key start now) {rec : Encoding}
    (hrec : AnswersAll given edge rec) {window : Window} (hw : window.edge = edge)
    (hadmits : window.Admits f) {op : Fixpoint} {lhs : Option Formula} {rhs : Formula}
    (hf : f.IsFixpoint op lhs rhs) :
    Does (encodeFixpoint rec window f key op lhs rhs) now
      (Answers given edge f key.step start) := by
  have hfinal : f ≠ .final := by
    cases hf <;> exact fun e => nomatch e
  have hhorizon : window.horizon = edge.index := congrArg Instant.index hw
  obtain ⟨hqr, hqf, hqp, hql⟩ := requests_of_isFixpoint (s := key.step) hf edge.index
  refine (h.ask hrec hw (hadmits.request hfinal hqr) h.reached hqr).bind ?_
  rintro r now₁ ⟨h₁, hr, -⟩
  -- The fixpoint at the adjacent step, if there is one.
  refine Does.bind (R := fun adjacent now₂ => UnderWay given edge m f key start now₂ ∧
    (now₁.ledger given).Grows (now₂.ledger given) ∧
    (adjacent = none ∧ op.isFuture = false ∧ key.step = 0 ∨
      ∃ l, adjacent = some l ∧ (now₂.ledger given).lit.adjacent f op key.step = some l)) ?_ ?_
  · unfold encodeAdjacent
    cases hop : op.isFuture with
    | true =>
      rw [if_pos rfl]
      have hq := hqf hop
      refine Does.map ((h₁.ask hrec hw (hadmits.request hfinal hq) h.reached hq).mono ?_)
      rintro l now₂ ⟨h₂, hl, hgrows⟩
      refine ⟨h₂, hgrows, .inr ⟨l, rfl, ?_⟩⟩
      rw [Sheet.adjacent_future hop]
      exact hl
    | false =>
      rw [if_neg (by simp)]
      cases hs : key.step with
      | zero =>
        rw [window.shift_zero_back]
        exact Does.pure ⟨h₁, .refl _, .inl ⟨rfl, rfl, rfl⟩⟩
      | succ before =>
        have hq := hqp hop (by omega)
        rw [hs, Nat.add_sub_cancel] at hq
        have hle := h.reached
        rw [Window.shift_succ_back (hhorizon ▸ by omega)]
        refine Does.map ((h₁.ask hrec hw (hadmits.request hfinal hq) (by omega)
          (by rw [hs]; exact hq)).mono ?_)
        rintro l now₂ ⟨h₂, hl, hgrows⟩
        refine ⟨h₂, hgrows, .inr ⟨l, rfl, ?_⟩⟩
        rw [Sheet.adjacent_past hop]
        exact hl
  · rintro adjacent now₂ ⟨h₂, hgrows, ⟨rfl, hop, hs⟩ | ⟨a, rfl, ha⟩⟩
    · refine h₂.share ?_
      rw [hs] at hr ⊢
      exact .fixpointStart hf hop (hgrows.lit _ _ _ hr)
    · -- The left operand, then the definition.
      refine Does.bind (R := fun l now₃ => UnderWay given edge m f key start now₃ ∧
        (now₂.ledger given).Grows (now₃.ledger given) ∧
        (now₃.ledger given).lit.left op lhs key.step = some l) ?_ ?_
      · unfold encodeLeft
        cases lhs with
        | none => exact Does.pure ⟨h₂, .refl _, rfl⟩
        | some lhs =>
          have hq := hql lhs rfl
          exact (h₂.ask hrec hw (hadmits.request hfinal hq) h.reached hq).mono
            fun l now₃ h₃ => ⟨h₃.1, h₃.2.2, h₃.2.1⟩
      · rintro l now₃ ⟨h₃, hgrows', hl⟩
        exact h₃.define fun x => .fixpoint hf (hgrows'.lit _ _ _ (hgrows.lit _ _ _ hr))
          (hgrows'.lit.adjacent ha) hl

/-- A formula without an entry is answered. -/
theorem encodeNew_does (h : UnderWay given edge m f key start now) {rec : Encoding}
    (hrec : AnswersAll given edge rec) {window : Window} (hw : window.edge = edge)
    (hadmits : window.Admits f) :
    Does (encodeNew rec window f key) now (Answers given edge f key.step start) := by
  have hhorizon : window.horizon = edge.index := congrArg Instant.index hw
  have hclosed : window.closed = edge.last := congrArg Instant.last hw
  cases f with
  | atom name args positive => cases h.composite
  | bool value => exact h.share .bool
  | initial => exact h.share .initial
  | final =>
    unfold encodeNew Window.isLast
    rw [hhorizon, hclosed]
    dsimp only
    split
    · next hlast =>
      simp only [Bool.and_eq_true, beq_iff_eq] at hlast
      refine h.share ?_
      rw [hlast.2]
      exact .last hlast.1
    · split
      · next hlt => exact h.share (.notLast hlt)
      · have hw' : (window.withStage .always).edge = edge := hw
        refine (h.ask hrec hw' ⟨rfl, .inl rfl⟩ h.reached (by simp [Formula.requests])).bind ?_
        rintro next now₁ ⟨h₁, hnext, -⟩
        exact h₁.share (.atEdge hnext)
  | not arg =>
    have hq : (arg, key.step) ∈ (Formula.not arg).requests edge.index key.step := by
      simp [Formula.requests]
    refine (h.ask hrec hw (hadmits.request (by simp) hq) h.reached hq).bind ?_
    rintro l now₁ ⟨h₁, hl, -⟩
    exact h₁.share (.not hl)
  | binary op lhs rhs =>
    have hql : (lhs, key.step) ∈ (Formula.binary op lhs rhs).requests edge.index key.step := by
      simp [Formula.requests]
    have hqr : (rhs, key.step) ∈ (Formula.binary op lhs rhs).requests edge.index key.step := by
      simp [Formula.requests]
    refine (h.ask hrec hw (hadmits.request (by simp) hql) h.reached hql).bind ?_
    rintro a now₁ ⟨h₁, ha, -⟩
    refine (h₁.ask hrec hw (hadmits.request (by simp) hqr) h.reached hqr).bind ?_
    rintro b now₂ ⟨h₂, hb, hgrows⟩
    exact h₂.define fun x => .binary (hgrows.lit _ _ _ ha) hb
  | previous arg weak =>
    unfold encodeNew
    dsimp only
    cases hs : key.step with
    | zero =>
      rw [window.shift_zero_back]
      have := h.share (y := Lit.constant weak) (by rw [hs]; exact .previousStart)
      rwa [hs] at this
    | succ before =>
      have hle := h.reached
      rw [Window.shift_succ_back (by omega)]
      have hq : (arg, before) ∈ (Formula.previous arg weak).requests edge.index key.step := by
        simp [Formula.requests, hs]
      refine (h.ask hrec hw (hadmits.request (by simp) hq) (by omega) hq).bind ?_
      rintro l now₁ ⟨h₁, hl, -⟩
      have := h₁.share (y := l) (by rw [hs]; exact .previous hl)
      rwa [hs] at this
  | next arg weak =>
    have hstage : window.stage.licensesFuture = true :=
      hadmits.ahead.resolve_right (by simp [Formula.referencesFuture])
    unfold encodeNew checkAhead
    dsimp only
    rw [if_pos hstage]
    refine Does.pure_bind ?_
    rw [window.shift_one, Window.next, hhorizon, hclosed]
    by_cases hs : key.step + 1 ≤ edge.index
    · rw [if_pos hs]
      have hq : (arg, key.step + 1) ∈ (Formula.next arg weak).requests edge.index key.step := by
        simp [Formula.requests, Nat.lt_of_succ_le hs]
      refine (h.ask hrec hw (hadmits.request (by simp) hq) hs hq).bind ?_
      rintro l now₁ ⟨h₁, hl, -⟩
      exact h₁.share (.next hs hl)
    · have hedge : key.step = edge.index := by
        have := h.reached
        omega
      rw [if_neg hs]
      cases hlast : edge.last with
      | true =>
        refine h.share ?_
        rw [hedge]
        exact .nextEnd hlast
      | false =>
        refine (getOrCreate_does given h.tidy h.names h.entry_none).bind ?_
        rintro _ middle ⟨rfl, hm⟩
        refine (openBoundary_does given hm.tidy _).bind fun _ after ha => Does.pure ?_
        have hnone := h.entry_none
        rw [hm.ledger_eq, hedge] at ha
        rw [hedge] at hnone
        refine h.finish (.await h.wellFormed hlast hnone) (hm.trans ha) ?_
        rw [hedge]
        rfl
  | initially arg =>
    have hq : (arg, 0) ∈ (Formula.initially arg).requests edge.index key.step := by
      simp [Formula.requests]
    refine (h.ask hrec hw (hadmits.request (by simp) hq) (Nat.zero_le _) hq).bind ?_
    rintro l now₁ ⟨h₁, hl, -⟩
    exact h₁.share (.initially hl)
  | temporal op lhs rhs => exact encodeFixpoint_does h hrec hw hadmits (.temporal op lhs rhs)
  | modal op arg => exact encodeFixpoint_does h hrec hw hadmits (.modal op arg)
  | dynamic modality path arg =>
    have hpath : path.isNormal = true := by
      cases hn : path.isNormal with
      | true => rfl
      | false =>
        have := hadmits.wellFormed
        simp [Formula.malformedPath?, hn] at this
    have hq : (Formula.unfoldPath modality path arg, key.step) ∈
        (Formula.dynamic modality path arg).requests edge.index key.step := by
      simp [Formula.requests, hpath]
    unfold encodeNew checkPath
    dsimp only
    rw [if_pos hpath]
    refine Does.pure_bind ((h.ask hrec hw (hadmits.request (by simp) hq) h.reached hq).bind ?_)
    rintro l now₁ ⟨h₁, hl, -⟩
    exact h₁.share (.dynamic hl)

/-- Among the bounds on chains of requests there is a least one. -/
theorem exists_rank {horizon n s : Nat} (h : Bounded horizon n f s) :
    ∃ m, (∀ request ∈ f.requests horizon s, Bounded horizon m request.1 request.2) ∧
      ¬ Bounded horizon m f s := by
  induction n with
  | zero => exact h.elim
  | succ n ih =>
    by_cases hn : Bounded horizon n f s
    · exact ih hn
    · exact ⟨n, h, hn⟩

/-- A ground atom is answered by its literal. -/
theorem groundAtom_answers {encoder : Encoder} (h : encoder.Tidy) {s : Nat}
    (hatom : f.isAtom = true) (hs : s ≤ edge.index) :
    Does (groundAtom f s) encoder (Answers given edge f s encoder) := by
  have hlit : ∀ ledger : Ledger, ledger.lit f s = ledger.ground f s := fun ledger => if_pos hatom
  refine (groundAtom_does given h f s).mono ?_
  rintro lit after (⟨hl, ha⟩ | ⟨hnone, rfl, ha⟩)
  · refine ⟨ha.tidy, ha.grown, ?_, ?_, fun n _ g t => ?_⟩
    · rw [ha.ledger_eq]
    · rw [hlit, ha.ledger_eq, hl]
    · rw [ha.ledger_eq]
      exact .inl rfl
  · refine ⟨ha.tidy, ha.grown, ?_, ?_, fun n _ g t => ?_⟩
    · rw [ha.ledger_eq]
      exact .single (.enter hatom hs hnone)
    · rw [hlit, ha.ledger_eq]
      exact Sheet.put_self _ _ _ _
    · rw [ha.ledger_eq]
      exact .inl rfl

theorem encodeStep_does {rec : Encoding} (hrec : AnswersAll given edge rec) :
    AnswersAll given edge (encodeStep rec) := by
  intro window f s encoder hw hadmits hs h
  have hhorizon : window.horizon = edge.index := congrArg Instant.index hw
  unfold encodeStep
  rw [checkStep_of_le (by omega)]
  refine Does.pure_bind ?_
  cases hatom : f.isAtom with
  | true =>
    rw [if_pos rfl]
    exact groundAtom_answers h hatom hs
  | false =>
    rw [if_neg (by simp)]
    refine (keyOf_does given h f s).bind ?_
    rintro key now ⟨hn, hnow⟩
    refine (lookup_does given hnow.tidy hn).bind ?_
    rintro lit after ⟨rfl, ha⟩
    rw [hnow.ledger_eq] at ha ⊢
    cases hentry : (encoder.ledger given).entry f s with
    | some lit =>
      refine Does.pure ⟨ha.tidy, hnow.grown.trans ha.grown, ?_, ?_, fun n _ g t => ?_⟩
      · rw [ha.ledger_eq]
      · rw [ha.ledger_eq, Ledger.lit, hatom]
        exact hentry
      · rw [ha.ledger_eq]
        exact .inl rfl
    | none =>
      obtain ⟨m, hrequests, hdeep⟩ := exists_rank (f.bounded_unfoldDepth edge.index s hs)
      obtain rfl := hn.step_eq
      have hway : UnderWay given edge m f key encoder after :=
        { names := hn.mono ha.grown
          composite := hatom
          wellFormed := hadmits.wellFormed
          reached := hs
          absent := hentry
          requests := hrequests
          deep := hdeep
          tidy := ha.tidy
          grown := hnow.grown.trans ha.grown
          moves := by rw [ha.ledger_eq]
          bounded := fun g t => .inl (by rw [ha.ledger_eq]) }
      exact encodeNew_does hway hrec hw hadmits

/-- Within any depth all acceptable requests are answered, unless the depth is too
small. -/
theorem encodeWithin_does (given : List Rule) (edge : Instant) (depth : Nat) :
    AnswersAll given edge (encodeWithin depth) := by
  induction depth with
  | zero => exact fun window f s encoder _ _ _ _ => ⟨f, s, rfl⟩
  | succ depth ih => exact encodeStep_does ih

/-- **A request for an acceptable formula at a reached step is answered.**  It leads
from ledger to ledger by moves, and the literal is in the ledger afterwards. -/
theorem encode_does (given : List Rule) (edge : Instant) : AnswersAll given edge encode := by
  intro window f s encoder hw hadmits hs h
  refine (register_does given h f).bind ?_
  rintro id now ⟨-, hnow⟩
  refine (encodeWithin_does given edge _ window f s now hw hadmits hs hnow.tidy).mono
    fun lit after ha => ?_
  obtain ⟨htidy, hgrown, hmoves, hlit, hbounded⟩ := ha
  rw [hnow.ledger_eq] at hmoves hbounded
  exact ⟨htidy, hnow.grown.trans hgrown, hmoves, hlit, hbounded⟩

end Encoder
end TemporalHorizon

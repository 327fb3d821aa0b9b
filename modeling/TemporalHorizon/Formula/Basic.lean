import TemporalHorizon.Term

/-!
# Temporal and dynamic formulas

Formulas speak about the steps of a finite trace.  Beside the Boolean
connectives there are the one-step operators, the four fixpoint operators since,
trigger, until and release, their one-operand forms, and the dynamic modalities
over regular path expressions.  A path expression may test formulas, so the two
types are defined together.

The type holds the core operators only.  Everything else that a user may write
is an abbreviation, defined in the second half of this module.
-/

namespace TemporalHorizon

/-- The binary Boolean connectives. -/
inductive Connective where
  | and
  | or
  /-- From left to right. -/
  | implies
  /-- From right to left. -/
  | implied
  | equiv
  deriving DecidableEq

/-- The binary temporal connectives.  Without a left operand since and until
become once and eventually, trigger and release become historically and
always. -/
inductive Fixpoint where
  | since
  | trigger
  /-- Until. -/
  | untl
  | release
  deriving DecidableEq

namespace Fixpoint

/-- Whether the operator looks at later steps. -/
def isFuture : Fixpoint → Bool
  | untl | release => true
  | since | trigger => false

/-- Whether the operator is a greatest fixpoint: trigger and release. -/
def isGreatest : Fixpoint → Bool
  | trigger | release => true
  | since | untl => false

end Fixpoint

/-- The two modalities over a path. -/
inductive Modality where
  /-- After every run of the path. -/
  | box
  /-- After some run of the path. -/
  | diamond
  deriving DecidableEq

mutual

/-- A formula over the steps of a trace. -/
inductive Formula where
  /-- A ground atom; `positive` is false for the classical negation of it. -/
  | atom (name : String) (args : List Term) (positive : Bool)
  /-- A truth constant. -/
  | bool (value : Bool)
  /-- True at step 0 only. -/
  | initial
  /-- True at the last step only. -/
  | final
  /-- Default negation. -/
  | not (arg : Formula)
  | binary (op : Connective) (lhs rhs : Formula)
  /-- The argument at the step before; at step 0 the value is `weak`. -/
  | previous (arg : Formula) (weak : Bool)
  /-- The argument at the step after; at the last step the value is `weak`. -/
  | next (arg : Formula) (weak : Bool)
  /-- The argument at step 0. -/
  | initially (arg : Formula)
  /-- A fixpoint operator with both operands. -/
  | temporal (op : Fixpoint) (lhs rhs : Formula)
  /-- A fixpoint operator without its left operand. -/
  | modal (op : Fixpoint) (arg : Formula)
  | dynamic (modality : Modality) (path : Path) (arg : Formula)
  deriving DecidableEq

/-- A regular path expression: how to move from one step to a later one. -/
inductive Path where
  /-- One step forward. -/
  | skip
  /-- Stay, provided that the formula holds. -/
  | test (arg : Formula)
  | seq (first second : Path)
  | choice (lhs rhs : Path)
  | star (body : Path)
  deriving DecidableEq

end

namespace Path

/-- One step forward from a step at which the formula holds. -/
def guarded (f : Formula) : Path := .seq (.test f) .skip

end Path

namespace Formula

/-! ## Boolean abbreviations -/

def and (lhs rhs : Formula) : Formula := .binary .and lhs rhs

def or (lhs rhs : Formula) : Formula := .binary .or lhs rhs

def implies (lhs rhs : Formula) : Formula := .binary .implies lhs rhs

def implied (lhs rhs : Formula) : Formula := .binary .implied lhs rhs

def equiv (lhs rhs : Formula) : Formula := .binary .equiv lhs rhs

/-! ## Temporal abbreviations -/

/-- The argument `n` steps before, one step at a time. -/
def previousBy (n : Nat) (arg : Formula) (weak : Bool) : Formula :=
  match n with
  | 0 => arg
  | n + 1 => .previous (previousBy n arg weak) weak

/-- The argument `n` steps after, one step at a time. -/
def nextBy (n : Nat) (arg : Formula) (weak : Bool) : Formula :=
  match n with
  | 0 => arg
  | n + 1 => .next (nextBy n arg weak) weak

def since (lhs rhs : Formula) : Formula := .temporal .since lhs rhs

def trigger (lhs rhs : Formula) : Formula := .temporal .trigger lhs rhs

def untl (lhs rhs : Formula) : Formula := .temporal .untl lhs rhs

def release (lhs rhs : Formula) : Formula := .temporal .release lhs rhs

def once (arg : Formula) : Formula := .modal .since arg

def historically (arg : Formula) : Formula := .modal .trigger arg

def eventually (arg : Formula) : Formula := .modal .untl arg

def always (arg : Formula) : Formula := .modal .release arg

/-- The argument holds at the last step: always, unless this is not the last
step. -/
def atEnd (arg : Formula) : Formula := always (or (.not .final) arg)

/-- A next step exists. -/
def hasNext : Formula := .next (.bool true) false

/-- First the left formula, then the right one at the next step. -/
def andNext (lhs rhs : Formula) (weak : Bool) : Formula := and lhs (.next rhs weak)

/-- The left formula at the previous step and the right one now. -/
def previousAnd (lhs rhs : Formula) (weak : Bool) : Formula := and (.previous lhs weak) rhs

/-! ## Dynamic abbreviations -/

def box (path : Path) (arg : Formula) : Formula := .dynamic .box path arg

def diamond (path : Path) (arg : Formula) : Formula := .dynamic .diamond path arg

/-- The last step, said by a modality: there is no step to move to. -/
def dynamicFinal : Formula := box .skip (.bool false)

/-! ## Atoms -/

/-- The formula is an atom, with either sign. -/
def isAtom : Formula → Bool
  | .atom _ _ _ => true
  | _ => false

/-- The disjuncts of a formula from left to right: a disjunction is taken apart
as deep as it goes, and any other formula is its own only disjunct. -/
def disjuncts : Formula → List Formula
  | .binary .or lhs rhs => disjuncts lhs ++ disjuncts rhs
  | f => [f]

end Formula
end TemporalHorizon

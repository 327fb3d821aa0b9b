import TemporalHorizon.Theory

/-!
# Options of the demonstration

The demonstration unrolls one of six small theories.  Its options are the theory,
the number of steps, whether to close the horizon, and whether to search for the
stable models.  Each option may be given once; there are no other arguments.
-/

namespace TemporalHorizon
namespace Demo

/-- The theories to choose from. -/
inductive Example where
  | eventually
  | always
  | untl
  | release
  | star
  | atEnd
  deriving DecidableEq

namespace Example

/-- All examples. -/
def all : List Example := [.eventually, .always, .untl, .release, .star, .atEnd]

/-- The word that selects an example. -/
def word : Example → String
  | .eventually => "eventually"
  | .always => "always"
  | .untl => "until"
  | .release => "release"
  | .star => "star"
  | .atEnd => "at-end"

/-- The title of an example. -/
def title : Example → String
  | .eventually => "Eventually"
  | .always => "Always"
  | .untl => "Until"
  | .release => "Release"
  | .star => "Star"
  | .atEnd => "AtEnd"

/-- The theory of an example. -/
def theory (which : Example) : Theory :=
  let a : Formula := .atom "a" [] true
  let b : Formula := .atom "b" [] true
  match which with
  | .eventually => ⟨[(.initial, .eventually a)]⟩
  | .always => ⟨[(.always, .always a)]⟩
  | .untl => ⟨[(.initial, .untl a b)]⟩
  | .release => ⟨[(.initial, .release a b)]⟩
  | .star => ⟨[(.initial, .diamond (.star (.guarded a)) b)]⟩
  | .atEnd => ⟨[(.initial, .atEnd a)]⟩

end Example

/-- The options of a run. -/
structure Options where
  formula : Example := .eventually
  steps : Nat := 3
  close : Bool := false
  models : Bool := false
  deriving DecidableEq

namespace Options

/-- The name of a truth value. -/
def flagText (value : Bool) : String := if value then "true" else "false"

/-- The line that shows the options. -/
def line (options : Options) : String :=
  "args = Cli \x7b formula: " ++ options.formula.title ++ ", steps: " ++
    toString options.steps ++ ", close: " ++ flagText options.close ++ ", models: " ++
    flagText options.models ++ " \x7d"

/-! ## Reading the arguments -/

/-- Options that may not have been given yet. -/
structure Given where
  formula : Option Example := none
  steps : Option Nat := none
  close : Option Unit := none
  models : Option Unit := none

/-- The value of a decimal digit. -/
def digit? (c : Char) : Option Nat :=
  if '0' ≤ c ∧ c ≤ '9' then some (c.toNat - '0'.toNat) else none

/-- The number of a nonempty list of digits, read behind those already read. -/
def digits? : List Char → Nat → Option Nat
  | [], value => some value
  | c :: rest, value =>
    match digit? c with
    | some digit => digits? rest (value * 10 + digit)
    | none => none

/-- Counts are below this number, which is the number of words of 64 bits. -/
def countLimit : Nat := 18446744073709551616

/-- A count: decimal digits, with a plus sign allowed before them. -/
def count? (text : String) : Option Nat :=
  let digits := match text.toList with
    | '+' :: rest => rest
    | chars => chars
  if digits.isEmpty then none
  else
    match digits? digits 0 with
    | some value => if value < countLimit then some value else none
    | none => none

/-- The example selected by a word. -/
def example? (text : String) : Option Example :=
  Example.all.find? fun which => which.word == text

/-- Set a value that has not been given yet. -/
def once? {α : Type} (given : Option α) (value : Option α) : Option (Option α) :=
  match given, value with
  | none, some value => some (some value)
  | _, _ => none

/-- Set the option with the given name to a value. -/
def set? (given : Given) (name value : String) : Option Given :=
  if name = "--formula" then
    (once? given.formula (example? value)).map fun f => { given with formula := f }
  else if name = "--steps" then
    (once? given.steps (count? value)).map fun n => { given with steps := n }
  else none

/-- Whether an option of this name has a value. -/
def takesValue (name : String) : Bool := name = "--formula" || name = "--steps"

/-- Set the flag with the given name. -/
def flag? (given : Given) (name : String) : Option Given :=
  if name = "--close" then
    (once? given.close (some ())).map fun f => { given with close := f }
  else if name = "--models" then
    (once? given.models (some ())).map fun f => { given with models := f }
  else none

/-- The name and the value of an argument with an equals sign. -/
def splitValue? (arg : String) : Option (String × String) :=
  let chars := arg.toList
  match chars.dropWhile fun c => c ≠ '=' with
  | _ :: value => some (String.ofList (chars.takeWhile fun c => c ≠ '='), String.ofList value)
  | [] => none

/-- Read the arguments one by one.  The value of an option stands behind an equals
sign, or is the next argument, which must then not look like an option.  A double
dash ends the options; nothing may follow it. -/
def read? : List String → Given → Option Given
  | [], given => some given
  | arg :: rest, given =>
    if arg = "--" then if rest.isEmpty then some given else none
    else
      match splitValue? arg with
      | some (name, value) =>
        match set? given name value with
        | some given => read? rest given
        | none => none
      | none =>
        if takesValue arg then
          match rest with
          | [] => none
          | value :: rest =>
            if value.toList.head? = some '-' then none
            else
              match set? given arg value with
              | some given => read? rest given
              | none => none
        else
          match flag? given arg with
          | some given => read? rest given
          | none => none

/-- The options given by the arguments, with defaults for the others. -/
def parse? (args : List String) : Option Options :=
  (read? args {}).map fun given =>
    let defaults : Options := {}
    { formula := given.formula.getD defaults.formula
      steps := given.steps.getD defaults.steps
      close := given.close.isSome
      models := given.models.isSome }

end Options
end Demo
end TemporalHorizon

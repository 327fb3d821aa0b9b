import TemporalHorizon.Text.Hidden

/-!
# Quoted text

A text that may hold any character is written between double quotes.  The quote
and the backslash are written with a backslash before them, four control
characters have a letter of their own, every other character without a visible
form is written by its number, and all else stands for itself.
-/

namespace TemporalHorizon
namespace Text

/-- The digits of a number in base sixteen, lower case and without padding. -/
def hexDigits (n : Nat) : String :=
  String.ofList (Nat.toDigits 16 n)

/-- How one character is written between double quotes. -/
def escape (c : Char) : String :=
  if c = '"' then "\\\""
  else if c = '\\' then "\\\\"
  else if c = '\n' then "\\n"
  else if c = '\r' then "\\r"
  else if c = '\t' then "\\t"
  else if c.toNat = 0 then "\\0"
  else if isHidden c then "\\u\x7b" ++ hexDigits c.toNat ++ "\x7d"
  else c.toString

/-- A text between double quotes, each character written by `escape`. -/
def quoted (text : String) : String :=
  "\"" ++ String.join (text.toList.map escape) ++ "\""

/-- The texts of a list, one after the other, with a separator between two
neighbours. -/
def joined (separator : String) : List String → String
  | [] => ""
  | [text] => text
  | text :: next :: rest => text ++ separator ++ joined separator (next :: rest)

@[simp] theorem joined_nil (separator : String) : joined separator [] = "" := rfl

@[simp] theorem joined_singleton (separator text : String) :
    joined separator [text] = text := rfl

theorem joined_cons_cons (separator text next : String) (rest : List String) :
    joined separator (text :: next :: rest) =
      text ++ separator ++ joined separator (next :: rest) := rfl

end Text
end TemporalHorizon

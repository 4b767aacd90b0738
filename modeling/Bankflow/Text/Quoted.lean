import Bankflow.Text.Printable

/-!
# Quoted text

A text between double quotes, in which every character can be seen: quote and
backslash take a backslash, the usual controls have short forms, and any other
character that is not printable is written by its code point.
-/

namespace Bankflow.Text

/-- The digits of a number in base sixteen. -/
def hex (n : Nat) : String := String.ofList (Nat.toDigits 16 n)

/-- How a character is written between quotes. -/
def escape (c : Char) : String :=
  if c = '"' then "\\\""
  else if c = '\\' then "\\\\"
  else if c = '\x00' then "\\0"
  else if c = '\t' then "\\t"
  else if c = '\n' then "\\n"
  else if c = '\r' then "\\r"
  else if isPrintable c then c.toString
  else "\\u\x7b" ++ hex c.toNat ++ "\x7d"

/-- The text between quotes. -/
def quote (s : String) : String := "\"" ++ String.join (s.toList.map escape) ++ "\""

end Bankflow.Text

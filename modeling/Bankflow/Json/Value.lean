import Bankflow.Text.Quoted

/-!
# JSON text

Values, and their text with one member or element a line, two blanks deeper at
each level. The members of an object keep their order.
-/

namespace Bankflow.Json

inductive Value where
  | null
  | bool (b : Bool)
  | nat (n : Nat)
  | str (s : String)
  | arr (items : List Value)
  | obj (members : List (String × Value))

/-- How a character is written in a string: quote, backslash and controls are
escaped, everything else stands for itself. -/
def escape (c : Char) : String :=
  if c = '"' then "\\\""
  else if c = '\\' then "\\\\"
  else if c = '\x08' then "\\b"
  else if c = '\t' then "\\t"
  else if c = '\n' then "\\n"
  else if c = '\x0c' then "\\f"
  else if c = '\r' then "\\r"
  else if c.toNat < 16 then "\\u000" ++ Text.hex c.toNat
  else if c.toNat < 32 then "\\u00" ++ Text.hex c.toNat
  else c.toString

def quote (s : String) : String := "\"" ++ String.join (s.toList.map escape) ++ "\""

/-- A line break and the blanks at a level. -/
def newline (level : Nat) : String := "\n" ++ String.join (List.replicate level "  ")

/-- Lines between brackets; just the brackets if there are none. -/
def block (opening closing : String) (level : Nat) : List String → String
  | [] => opening ++ closing
  | lines =>
    opening ++ newline (level + 1) ++ ("," ++ newline (level + 1)).intercalate lines ++
      newline level ++ closing

namespace Value

mutual

/-- The text of a value at a level. -/
def textAt (level : Nat) : Value → String
  | null => "null"
  | bool b => if b then "true" else "false"
  | nat n => toString n
  | str s => quote s
  | arr items => block "[" "]" level (itemTexts (level + 1) items)
  | obj members => block "\x7b" "\x7d" level (memberTexts (level + 1) members)

def itemTexts (level : Nat) : List Value → List String
  | [] => []
  | v :: rest => v.textAt level :: itemTexts level rest

def memberTexts (level : Nat) : List (String × Value) → List String
  | [] => []
  | (key, v) :: rest => (quote key ++ ": " ++ v.textAt level) :: memberTexts level rest

end

def text (v : Value) : String := v.textAt 0

/-- A value that may be missing. -/
def ofOption {α : Type} (f : α → Value) : Option α → Value
  | some a => f a
  | none => null

/-- A list of values. -/
def ofList {α : Type} (f : α → Value) (as : List α) : Value := arr (as.map f)

end Value

end Bankflow.Json

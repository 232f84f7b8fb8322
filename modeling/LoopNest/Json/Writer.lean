import LoopNest.Decimal.Layout
import LoopNest.Json.Basic
import LoopNest.Text.Indented

/-! # Writing JSON

  `Json.compact` writes a value in one line. `Json.pretty` writes every element and every member in
  a line of its own, indented by two spaces; empty arrays and objects stay together. -/

namespace LoopNest.Json

/-- Floating point numbers are positional from `0.00001` up to sixteen digits; all other exponents
    have a sign. -/
def floatLayout : Decimal.Layout := { tie := .toEven, least := -5, plus := "+" }

/-- A lower case hexadecimal digit. -/
def hexDigit (n : Nat) : Char := Nat.digitChar (n % 16)

/-- A character inside quotes. -/
def escape (c : Char) : List Char :=
  if c == '"' then ['\\', '"']
  else if c == '\\' then ['\\', '\\']
  else if c == '\n' then ['\\', 'n']
  else if c == '\r' then ['\\', 'r']
  else if c == '\t' then ['\\', 't']
  else if c == '\x08' then ['\\', 'b']
  else if c == '\x0c' then ['\\', 'f']
  else if c.toNat < 0x20 then
    ['\\', 'u', '0', '0', hexDigit (c.toNat / 16), hexDigit c.toNat]
  else [c]

/-- A text in quotes. -/
def quoted (s : String) : String := String.ofList ('"' :: s.toList.flatMap escape ++ ['"'])

/-- A value without parts. -/
def scalarText : Json → String
  | null | illegible => "null"
  | bool b => if b then "true" else "false"
  | int v => toString v
  | float v => if v.isFinite then floatLayout.text v else "null"
  | str s => quoted s
  | arr _ => "[]"
  | obj _ => "\x7b\x7d"

mutual
/-- A value in one line. -/
def compact : Json → String
  | arr js => "[" ++ Text.list "," (compactItems js) ++ "]"
  | obj ms => "\x7b" ++ Text.list "," (compactMembers ms) ++ "\x7d"
  | j => scalarText j
/-- The elements of an array, each in one line. -/
def compactItems : List Json → List String
  | [] => []
  | j :: js => compact j :: compactItems js
/-- The members of an object, each in one line. -/
def compactMembers : List (String × Json) → List String
  | [] => []
  | (key, j) :: ms => (quoted key ++ ":" ++ compact j) :: compactMembers ms
end

/-- The start of a line at a depth. -/
def newLine (depth : Nat) : String := "\n" ++ String.ofList (List.replicate (2 * depth) ' ')

/-- Texts in lines of their own between brackets. -/
def bracketed (opening closing : String) (depth : Nat) (texts : List String) : String :=
  if texts.isEmpty then opening ++ closing
  else
    opening ++ newLine (depth + 1) ++ Text.list ("," ++ newLine (depth + 1)) texts ++ newLine depth
      ++ closing

mutual
/-- A value over several lines, as part of a value at a depth. -/
def prettyAt (depth : Nat) : Json → String
  | arr js => bracketed "[" "]" depth (prettyItems (depth + 1) js)
  | obj ms => bracketed "\x7b" "\x7d" depth (prettyMembers (depth + 1) ms)
  | j => scalarText j
/-- The elements of an array. -/
def prettyItems (depth : Nat) : List Json → List String
  | [] => []
  | j :: js => prettyAt depth j :: prettyItems depth js
/-- The members of an object. -/
def prettyMembers (depth : Nat) : List (String × Json) → List String
  | [] => []
  | (key, j) :: ms => (quoted key ++ ": " ++ prettyAt depth j) :: prettyMembers depth ms
end

/-- A value over several lines. -/
def pretty (j : Json) : String := prettyAt 0 j

end LoopNest.Json

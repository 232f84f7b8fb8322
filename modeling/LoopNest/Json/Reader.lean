import LoopNest.Decimal.Numeral
import LoopNest.Json.Basic

/-! # Reading JSON

  A text is read as one value with nothing but white space around it. An integer that needs more
  than 64 bits, and the integer zero with a minus sign, are read as floating point numbers.

  Three parts of a text have the form of a value and stand for none: a number that is too large, a
  text with half a surrogate pair (and an object with such a key), and an array or object that is
  nested deeper than allowed. They are read as `Json.illegible`.

  Every reader takes the characters of a text and gives what it read together with the characters
  behind it. -/

namespace LoopNest.Json

open Decimal (Numeral)

def isSpace (c : Char) : Bool := c == ' ' || c == '\t' || c == '\n' || c == '\r'

/-- Skips white space. -/
def skip (cs : List Char) : List Char := cs.dropWhile isSpace

/-! ## Numbers -/

/-- The value of a decimal digit. -/
def digit? (c : Char) : Option Nat :=
  if '0' ≤ c ∧ c ≤ '9' then some (c.toNat - '0'.toNat) else none

/-- The digits at the beginning of a text. -/
def digits : List Char → List Nat × List Char
  | [] => ([], [])
  | c :: cs =>
    match digit? c with
    | some d =>
      let (ds, rest) := digits cs
      (d :: ds, rest)
    | none => ([], c :: cs)

/-- At least one digit. -/
def someDigits (cs : List Char) : Option (List Nat × List Char) :=
  match digits cs with
  | ([], _) => none
  | (ds, rest) => some (ds, rest)

/-- The digits before the point: no zero stands in front of other digits. -/
def wholePart (cs : List Char) : Option (List Nat × List Char) := do
  let (ds, rest) ← someDigits cs
  match ds with
  | 0 :: _ :: _ => none
  | _ => some (ds, rest)

/-- The digits behind the point, if there is one. -/
def fractionPart : List Char → Option (List Nat × List Char)
  | '.' :: cs => someDigits cs
  | cs => some ([], cs)

/-- The sign of an exponent. -/
def exponentSign : List Char → Bool × List Char
  | '-' :: cs => (true, cs)
  | '+' :: cs => (false, cs)
  | cs => (false, cs)

/-- The exponent, if there is one. -/
def exponentPart : List Char → Option (Option (Bool × List Nat) × List Char)
  | [] => some (none, [])
  | c :: cs =>
    if c == 'e' || c == 'E' then do
      let (minus, cs) := exponentSign cs
      let (ds, rest) ← someDigits cs
      return (some (minus, ds), rest)
    else some (none, c :: cs)

/-- The numeral at the beginning of a text. -/
def numeral (negative : Bool) (cs : List Char) : Option (Numeral × List Char) := do
  let (whole, cs) ← wholePart cs
  let (fraction, cs) ← fractionPart cs
  let (exponent, cs) ← exponentPart cs
  return ({ negative, whole, fraction, exponent }, cs)

/-- The floating point number that a numeral stands for. -/
def floatOf (n : Numeral) : Json := n.float?.elim .illegible .float

/-- The number that a numeral stands for. -/
def numberOf (n : Numeral) : Json :=
  if n.fraction.isEmpty && n.exponent.isNone then
    let v := Numeral.ofDigits n.whole
    if n.negative then
      if 0 < v ∧ Word.fits (-(v : Int)) then .int (-(v : Int)) else floatOf n
    else if v < Word.naturals then .int v
    else floatOf n
  else floatOf n

/-! ## Texts -/

/-- The value of a hexadecimal digit. -/
def hexDigit? (c : Char) : Option Nat :=
  if '0' ≤ c ∧ c ≤ '9' then some (c.toNat - '0'.toNat)
  else if 'a' ≤ c ∧ c ≤ 'f' then some (c.toNat - 'a'.toNat + 10)
  else if 'A' ≤ c ∧ c ≤ 'F' then some (c.toNat - 'A'.toNat + 10)
  else none

/-- Four hexadecimal digits. -/
def hex4 : List Char → Option (Nat × List Char)
  | a :: b :: c :: d :: cs => do
    let a ← hexDigit? a
    let b ← hexDigit? b
    let c ← hexDigit? c
    let d ← hexDigit? d
    return (((a * 16 + b) * 16 + c) * 16 + d, cs)
  | _ => none

/-- A character written by its number behind a backslash and a `u`. Numbers above 16 bits are written
    as a pair of surrogates; half a pair is no character. -/
def unicodeEscape (cs : List Char) : Option (Option Char × List Char) := do
  let (n, cs) ← hex4 cs
  if 0xD800 ≤ n ∧ n < 0xDC00 then
    match cs with
    | '\\' :: 'u' :: rest =>
      let (m, rest) ← hex4 rest
      if 0xDC00 ≤ m ∧ m < 0xE000 then
        some (some (Char.ofNat (0x10000 + (n - 0xD800) * 0x400 + (m - 0xDC00))), rest)
      else some (none, cs)
    | _ => some (none, cs)
  else if 0xDC00 ≤ n ∧ n < 0xE000 then some (none, cs)
  else some (some (Char.ofNat n), cs)

/-- The character that a letter behind a backslash stands for. -/
def escaped? : Char → Option Char
  | '"' => some '"'
  | '\\' => some '\\'
  | '/' => some '/'
  | 'b' => some '\x08'
  | 'f' => some '\x0c'
  | 'n' => some '\n'
  | 'r' => some '\r'
  | 't' => some '\t'
  | _ => none

/-- Puts a character in front of the ones before it, unless one of them is none. -/
def pushChar (acc : Option (List Char)) (c : Option Char) : Option (List Char) := do
  return (← c) :: (← acc)

/-- The characters up to the closing quote; `acc` are the ones before, last one first. -/
def stringBody : (fuel : Nat) → (acc : Option (List Char)) → List Char →
    Option (Option String × List Char)
  | 0, _, _ => none
  | _ + 1, _, [] => none
  | fuel + 1, acc, c :: cs =>
    if c == '"' then some (acc.map fun cs => String.ofList cs.reverse, cs)
    else if c == '\\' then
      match cs with
      | [] => none
      | 'u' :: cs =>
        match unicodeEscape cs with
        | some (c, cs) => stringBody fuel (pushChar acc c) cs
        | none => none
      | c :: cs =>
        match escaped? c with
        | some c => stringBody fuel (pushChar acc c) cs
        | none => none
    else if c.toNat < 0x20 then none
    else stringBody fuel (pushChar acc c) cs

/-- A text behind its opening quote; it is none when a character of it is none. -/
def string (fuel : Nat) (cs : List Char) : Option (Option String × List Char) :=
  stringBody fuel (some []) cs

/-! ## Values -/

/-- The rest of a text behind a given word. -/
def word? (w : List Char) (cs : List Char) : Option (List Char) :=
  if w.isPrefixOf cs then some (cs.drop w.length) else none

/-- An array or an object at a depth that is allowed when `depth` is not zero. -/
def nested (depth : Nat) (j : Json) : Json := if depth = 0 then .illegible else j

/-- The object with the given members, if all keys are texts. -/
def objectOf (members : List (Option String × Json)) : Json :=
  let named : Option (List (String × Json)) := members.mapM fun (key, j) => do return (← key, j)
  named.elim .illegible .obj

mutual
/-- The value at the beginning of a text that may be nested `depth` levels deep. -/
def value : (fuel depth : Nat) → List Char → Option (Json × List Char)
  | 0, _, _ => none
  | fuel + 1, depth, cs =>
    match skip cs with
    | [] => none
    | '"' :: cs => (string fuel cs).map fun (s, rest) => (s.elim .illegible .str, rest)
    | '[' :: cs =>
      match skip cs with
      | ']' :: rest => some (nested depth (.arr []), rest)
      | cs => (elements fuel (depth - 1) [] cs).map fun (js, rest) => (nested depth (.arr js), rest)
    | '\x7b' :: cs =>
      match skip cs with
      | '\x7d' :: rest => some (nested depth (.obj []), rest)
      | cs => (members fuel (depth - 1) [] cs).map fun (ms, rest) => (nested depth (objectOf ms), rest)
    | '-' :: cs => (numeral true cs).map fun (n, rest) => (numberOf n, rest)
    | c :: cs =>
      if c == 't' then (word? "rue".toList cs).map (.bool true, ·)
      else if c == 'f' then (word? "alse".toList cs).map (.bool false, ·)
      else if c == 'n' then (word? "ull".toList cs).map (.null, ·)
      else (numeral false (c :: cs)).map fun (n, rest) => (numberOf n, rest)
/-- The elements of an array up to its closing bracket. -/
def elements : (fuel depth : Nat) → (acc : List Json) → List Char → Option (List Json × List Char)
  | 0, _, _, _ => none
  | fuel + 1, depth, acc, cs =>
    match value fuel depth cs with
    | none => none
    | some (j, cs) =>
      match skip cs with
      | ',' :: cs => elements fuel depth (j :: acc) cs
      | ']' :: cs => some ((j :: acc).reverse, cs)
      | _ => none
/-- The members of an object up to its closing brace. -/
def members : (fuel depth : Nat) → (acc : List (Option String × Json)) → List Char →
    Option (List (Option String × Json) × List Char)
  | 0, _, _, _ => none
  | fuel + 1, depth, acc, cs =>
    match skip cs with
    | '"' :: cs =>
      match string fuel cs with
      | none => none
      | some (key, cs) =>
        match skip cs with
        | ':' :: cs =>
          match value fuel depth cs with
          | none => none
          | some (j, cs) =>
            match skip cs with
            | ',' :: cs => members fuel depth ((key, j) :: acc) cs
            | '\x7d' :: cs => some (((key, j) :: acc).reverse, cs)
            | _ => none
        | _ => none
    | _ => none
end

/-- Reads a text as one value. Every two steps take at least one character, so the fuel is never used
    up. What is nested deeper than `depth` levels is illegible. -/
def readWithin (depth : Nat) (s : String) : Option Json :=
  let cs := s.toList
  match value (2 * cs.length + 2) depth cs with
  | some (j, rest) => if (skip rest).isEmpty then some j else none
  | none => none

/-- Reads a text as one value of any depth, all parts of which stand for values. -/
def read (s : String) : Option Json := do (← readWithin s.length s).legible?

/-- How deep a file may be nested. -/
def fileDepth : Nat := 127

/-- Reads a file. Parts of it may be illegible. -/
def readFile (s : String) : Option Json := readWithin fileDepth s

end LoopNest.Json

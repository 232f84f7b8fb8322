import LoopNest.Decimal.Shortest

/-! # Layout of decimal numbers

  A floating point number is written with its shortest digits. Numbers of middling size are written
  positionally and always carry a fraction (`2.0`, `0.001`); all others are written as digits and an
  exponent (`1e16`, `1.5e300`). A `Layout` says where the positional range begins, which of two
  equally near decimals is taken, and whether an exponent that is not negative has a sign. -/

namespace LoopNest.Decimal

/-- The choices of one way to write numbers. -/
structure Layout where
  tie : Tie
  /-- The least exponent of the first digit that is still written positionally. -/
  least : Int
  /-- The greatest such exponent. -/
  greatest : Int := 15
  /-- What stands before an exponent that is not negative. -/
  plus : String := ""

/-- `n` zeros. -/
def zeros (n : Nat) : String := String.ofList (List.replicate n '0')

/-- The digits of a positive decimal, positionally, with at least one digit on either side of the
    point. -/
def positional (digits : List Char) (exponent : Int) : String :=
  let whole := (digits.length : Int) + exponent
  if 0 ≤ exponent then
    String.ofList digits ++ zeros exponent.toNat ++ ".0"
  else if 0 < whole then
    String.ofList (digits.take whole.toNat) ++ "." ++ String.ofList (digits.drop whole.toNat)
  else
    "0." ++ zeros (-whole).toNat ++ String.ofList digits

/-- An exponent with its sign. -/
def Layout.exponent (l : Layout) (e : Int) : String :=
  if 0 ≤ e then l.plus ++ toString e else toString e

/-- The digits of a positive decimal with one digit before the point and an exponent. -/
def Layout.withExponent (l : Layout) (digits : List Char) (exponent : Int) : String :=
  let first := l.exponent ((digits.length : Int) + exponent - 1)
  match digits with
  | [] => ""
  | [d] => String.singleton d ++ "e" ++ first
  | d :: rest => String.singleton d ++ "." ++ String.ofList rest ++ "e" ++ first

/-- A positive decimal in the given layout. -/
def Layout.render (l : Layout) (s : Scientific) : String :=
  let digits := Nat.toDigits 10 s.digits
  let first := (digits.length : Int) + s.exponent - 1
  if l.least ≤ first ∧ first ≤ l.greatest then positional digits s.exponent
  else l.withExponent digits s.exponent

/-- The text of a number: its sign, kept also on zero, and the shortest decimal of its magnitude. -/
def Layout.text (l : Layout) (x : Float) : String :=
  if x.isNaN then "NaN"
  else
    let sign := if x.toBits < 0x8000000000000000 then "" else "-"
    let magnitude :=
      if x.isInf then "inf"
      else if x == 0 then "0.0"
      else l.render ((Binary.ofBits x.toBits).shortest l.tie)
    sign ++ magnitude

end LoopNest.Decimal

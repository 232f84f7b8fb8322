import LoopNest.Word

/-! # Numerals

  A numeral is a decimal number as it is written: digits before and behind the point and an
  exponent. Its value as a floating point number is computed in three rounded steps: as many leading
  digits as fit 64 bits are taken as an integer, the integer is converted, and the result is
  multiplied or divided by a power of ten. -/

namespace LoopNest.Decimal

/-- A decimal number as it is written. -/
structure Numeral where
  negative : Bool
  whole : List Nat
  fraction : List Nat := []
  /-- The sign (`true` is minus) and the digits of the exponent. -/
  exponent : Option (Bool × List Nat) := none
deriving DecidableEq, Repr, Inhabited

namespace Numeral

/-- Appends digits to an integer while it fits 64 bits; also gives the number of digits left. -/
def leading (acc : Nat) : List Nat → Nat × Nat
  | [] => (acc, 0)
  | d :: ds =>
    if 10 * acc + d < Word.naturals then leading (10 * acc + d) ds else (acc, ds.length + 1)

/-- The digits as one integer, and the power of ten by which it has to be multiplied. -/
def significand (n : Numeral) : Nat × Int :=
  let (m, dropped) := leading 0 n.whole
  let (m', left) := leading m n.fraction
  (m', (dropped : Int) - ((n.fraction.length - left : Nat) : Int))

/-- The value of digits. -/
def ofDigits (ds : List Nat) : Nat := ds.foldl (fun acc d => 10 * acc + d) 0

/-- A power of ten. -/
def powerOfTen (n : Nat) : Float := Float.ofScientific 1 false n

/-- The number `x * 10^e`. Powers beyond the greatest one are applied in several steps. There is no
    answer when the number is too large. -/
def scaled : (fuel : Nat) → Float → Int → Option Float
  | 0, _, _ => none
  | fuel + 1, x, e =>
    if 0 ≤ e then
      if e ≤ 308 then
        let y := x * powerOfTen e.toNat
        if y.isInf then none else some y
      else if x == 0 then some x
      else none
    else if -308 ≤ e then some (x / powerOfTen (-e).toNat)
    else if x == 0 then some x
    else scaled fuel (x / powerOfTen 308) (e + 308)

/-- The greatest exponent that is taken into account. -/
def exponentLimit : Nat := 2147483647

/-- The floating point number; none when it is too large. -/
def float? (n : Numeral) : Option Float := do
  let (m, e) := n.significand
  let x := (UInt64.ofNat m).toFloat
  let signed (y : Float) : Float := if n.negative then -y else y
  match n.exponent with
  | none => signed <$> scaled 400 x e
  | some (minus, ds) =>
    if exponentLimit < ofDigits ds then
      if m ≠ 0 ∧ minus = false then none else some (signed 0.0)
    else
      let e := if minus then e - (ofDigits ds : Int) else e + (ofDigits ds : Int)
      signed <$> scaled 400 x (max e (-100000))

end Numeral

end LoopNest.Decimal

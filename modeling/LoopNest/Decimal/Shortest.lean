/-! # Shortest decimals

  The shortest decimal of a binary fraction `m * 2^q` is the decimal with the fewest digits that
  lies in the interval of reals rounding to that fraction; among those with equally few digits it
  is the nearest one.

  * `Binary` is a positive binary fraction together with the gap to its lower neighbour.
  * `Binary.shortest` tries the decimal grids with 1, 2, … 17 significant digits. On each grid only
    the two neighbours of the value can be hits, so both are tested with exact integers.

  All arithmetic is on natural numbers; nothing here rounds. -/

namespace LoopNest.Decimal

/-- What to do when two decimals are equally near. -/
inductive Tie where
  /-- Take the larger one. -/
  | up
  /-- Take the one whose last digit is even. -/
  | toEven
deriving DecidableEq, Repr

/-- The number `digits * 10^exponent`. -/
structure Scientific where
  digits : Nat
  exponent : Int
deriving DecidableEq, Repr

/-- A positive binary fraction `mantissa * 2^exponent`. -/
structure Binary where
  mantissa : Nat
  exponent : Int
  /-- The lower neighbour is only half as far away as the upper one. -/
  narrowBelow : Bool
deriving DecidableEq, Repr

/-- The leading bit of a mantissa, which is not stored. -/
def hiddenBit : Nat := 4503599627370496

/-- The magnitude of a finite number other than zero. -/
def Binary.ofBits (bits : UInt64) : Binary :=
  let fraction : Nat := bits.toNat % hiddenBit
  let biased : Nat := bits.toNat / hiddenBit % 2048
  if biased = 0 then
    ⟨fraction, -1074, false⟩
  else
    ⟨hiddenBit + fraction, (biased : Int) - 1075, fraction = 0 && 1 < biased⟩

/-! ## Numbers on a common grid -/

/-- A value and the two ends of its rounding interval, all in units of `unit / 10^place`. -/
structure Scaled where
  value : Nat
  low : Nat
  high : Nat
  unit : Nat
  /-- Whether the ends themselves round to the value. -/
  closed : Bool

/-- The value measured in steps of `10^place`: the step itself is `unit`. -/
def Binary.scaled (b : Binary) (place : Int) : Scaled :=
  let up := Nat.pow 2 b.exponent.toNat * Nat.pow 10 (-place).toNat
  { value := 4 * b.mantissa * up
    low := (4 * b.mantissa - if b.narrowBelow then 1 else 2) * up
    high := (4 * b.mantissa + 2) * up
    unit := 4 * Nat.pow 2 (-b.exponent).toNat * Nat.pow 10 place.toNat
    closed := b.mantissa % 2 = 0 }

/-- Whether the decimal `n * 10^place` rounds to the value. -/
def Scaled.holds (s : Scaled) (n : Nat) : Bool :=
  let x := n * s.unit
  if s.closed then s.low ≤ x && x ≤ s.high else s.low < x && x < s.high

/-- The nearest multiple of the step that rounds to the value, if there is one. -/
def Scaled.nearest? (s : Scaled) (tie : Tie) : Option Nat :=
  let below := s.value / s.unit
  let rest := s.value % s.unit
  match s.holds below, s.holds (below + 1) with
  | false, false => none
  | true, false => some below
  | false, true => some (below + 1)
  | true, true =>
    if 2 * rest < s.unit then some below
    else if s.unit < 2 * rest then some (below + 1)
    else match tie with
      | .up => some (below + 1)
      | .toEven => some (if below % 2 = 0 then below else below + 1)

/-! ## The search -/

/-- How often `num` must be multiplied by ten to reach `den`, at most `fuel` times. -/
def leadingZeros : (fuel num den : Nat) → Nat
  | 0, _, _ => 0
  | fuel + 1, num, den => if den ≤ num then 0 else leadingZeros fuel (num * 10) den + 1

/-- The `e` with `10^(e-1) ≤ value < 10^e`. -/
def Binary.magnitude (b : Binary) : Int :=
  let num := b.mantissa * Nat.pow 2 b.exponent.toNat
  let den := Nat.pow 2 (-b.exponent).toNat
  if den ≤ num then ((Nat.toDigits 10 (num / den)).length : Int)
  else 1 - (leadingZeros 400 num den : Int)

/-- Writes a decimal without zeros at its end. -/
def Scientific.trimmed : (fuel : Nat) → Scientific → Scientific
  | 0, s => s
  | fuel + 1, s =>
    if s.digits ≠ 0 ∧ s.digits % 10 = 0 then trimmed fuel ⟨s.digits / 10, s.exponent + 1⟩ else s

/-- Tries the grids from `count` significant digits on. -/
def Binary.searchFrom (b : Binary) (tie : Tie) : (fuel count : Nat) → Scientific
  | 0, _ => ⟨0, 0⟩
  | fuel + 1, count =>
    let place := b.magnitude - (count : Int)
    match (b.scaled place).nearest? tie with
    | some n => Scientific.trimmed 20 ⟨n, place⟩
    | none => searchFrom b tie fuel (count + 1)

/-- The shortest decimal of a positive binary fraction. Seventeen digits always suffice. -/
def Binary.shortest (b : Binary) (tie : Tie) : Scientific :=
  b.searchFrom tie 17 1

end LoopNest.Decimal

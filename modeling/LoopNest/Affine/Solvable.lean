import LoopNest.Affine.Interval

/-! # Two tests for integer equations

  Both tests look at an equation between integers with unknowns and answer `false` only when it has
  no solution: `divisible` by divisibility alone, `reachesZero` by the ranges of the unknowns. -/

namespace LoopNest

namespace Word

/-- What takes greatest common divisors of words.

    * **exact**: a divisor that fits the word is taken as it is;
    * **wrapped**: the one that does not, one more than the greatest constant, becomes the least
      constant, which differs from it in its sign only. -/
structure IsGcd (gcd : Int → Int → Int) : Prop where
  exact : ∀ {a b}, fits a = true → fits b = true → fits (Int.gcd a b) = true →
    gcd a b = Int.gcd a b
  wrapped : ∀ {a b}, fits a = true → fits b = true → fits (Int.gcd a b) = false → gcd a b = least

/-- The greatest common divisor of two words, and the least one for the divisor that is no word. -/
def gcd (a b : Int) : Int := (checked (Int.gcd a b)).getD least

theorem isGcd_gcd : IsGcd gcd where
  exact _ _ h := by simp [gcd, checked, h]
  wrapped _ _ h := by simp [gcd, checked, h]

end Word

namespace Affine

/-- Whether `Σ coeffs · x = constant` has a solution in the integers: the greatest common divisor of
    the coefficients must divide the constant. -/
def divisible (coeffs : List Int) (constant : Int) : Bool :=
  let g := coeffs.foldl (fun acc c => (Int.gcd acc c : Int)) 0
  if g = 0 then constant == 0 else constant % g == 0

/-- The same test on words: `gcd` takes the divisors, and a remainder has the sign of the constant. -/
def divisibleWith (gcd : Int → Int → Int) (coeffs : List Int) (constant : Int) : Bool :=
  let g := coeffs.foldl gcd 0
  if g = 0 then constant == 0 else constant.tmod g == 0

/-- The values of `Σ coeffs · x + start` when each `x` lies in its interval; an unknown without an
    interval is unbounded. -/
def spread (start : Interval) : List Int → List Interval → Interval
  | [], _ => start
  | c :: cs, [] => spread (start.add (Interval.unbounded.scale c)) cs []
  | c :: cs, b :: bs => spread (start.add (b.scale c)) cs bs

/-- Whether the interval of `Σ coeffs · x + constant` admits zero. -/
def reachesZero (coeffs : List Int) (constant : Int) (bounds : List Interval) : Bool :=
  (spread (.point constant) coeffs bounds).containsZero

end Affine

end LoopNest

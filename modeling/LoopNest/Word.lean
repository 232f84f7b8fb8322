/-! # 64-bit constants

  Every integer constant of a program fits a signed 64-bit word. Transformations compute with
  unbounded integers and give up as soon as a result would leave that range; no operation here
  ever wraps around. An answer `some v` is therefore always the exact result. -/

namespace LoopNest.Word

/-- The least constant. -/
def least : Int := -9223372036854775808

/-- The greatest constant. -/
def greatest : Int := 9223372036854775807

/-- How many natural numbers fit 64 bits. -/
def naturals : Nat := 18446744073709551616

/-- Whether a constant fits the word. -/
def fits (v : Int) : Bool := least ≤ v && v ≤ greatest

/-- The value itself when it fits the word. -/
def checked (v : Int) : Option Int := if fits v then some v else none

/-- Exact sum, unless it leaves the word. -/
def add? (a b : Int) : Option Int := checked (a + b)

/-- Exact difference, unless it leaves the word. -/
def sub? (a b : Int) : Option Int := checked (a - b)

/-- Exact product, unless it leaves the word. -/
def mul? (a b : Int) : Option Int := checked (a * b)

/-- Exact negation, unless it leaves the word. -/
def neg? (a : Int) : Option Int := checked (-a)

/-! ## What an answer says -/

theorem fits_iff {v : Int} : fits v = true ↔ least ≤ v ∧ v ≤ greatest := by
  simp [fits]

@[simp] theorem checked_eq_some {v w : Int} : checked v = some w ↔ fits v = true ∧ v = w := by
  unfold checked
  split <;> simp_all

theorem checked_eq_none {v : Int} : checked v = none ↔ fits v = false := by
  unfold checked
  split <;> simp_all

theorem add?_eq_some {a b c : Int} : add? a b = some c ↔ fits (a + b) = true ∧ a + b = c :=
  checked_eq_some

theorem sub?_eq_some {a b c : Int} : sub? a b = some c ↔ fits (a - b) = true ∧ a - b = c :=
  checked_eq_some

theorem mul?_eq_some {a b c : Int} : mul? a b = some c ↔ fits (a * b) = true ∧ a * b = c :=
  checked_eq_some

theorem neg?_eq_some {a c : Int} : neg? a = some c ↔ fits (-a) = true ∧ -a = c :=
  checked_eq_some

end LoopNest.Word

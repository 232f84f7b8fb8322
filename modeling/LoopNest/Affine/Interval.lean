import LoopNest.Word

/-! # Intervals

  A closed interval of integers with optional ends; an absent end is unbounded. Ends are 64-bit
  constants: an end that would leave the word is dropped, which only makes the interval larger.

  * `Interval.Mem` says which integers an interval holds.
  * `Interval.mem_add` and `Interval.mem_scale`: sums and multiples of members are members of the
    sum and the multiple. -/

namespace LoopNest.Affine

/-- A closed interval; `none` stands for an unbounded end. -/
structure Interval where
  lo : Option Int
  hi : Option Int
deriving DecidableEq, Repr, Inhabited

namespace Interval

/-- The integers from `lo` to `hi`. -/
def between (lo hi : Int) : Interval := ⟨some lo, some hi⟩

/-- The interval of one integer. -/
def point (v : Int) : Interval := between v v

/-- All integers. -/
def unbounded : Interval := ⟨none, none⟩

/-- The integers from `lo` on. -/
def atLeast (lo : Int) : Interval := ⟨some lo, none⟩

/-- Whether no integer lies in the interval. -/
def isEmpty : Interval → Bool
  | ⟨some lo, some hi⟩ => hi < lo
  | _ => false

/-- The sum of two ends, absent when one of them is or when it leaves the word. -/
def addEnd : Option Int → Option Int → Option Int
  | some a, some b => Word.add? a b
  | _, _ => none

/-- The multiple of an end, absent when the end is or when it leaves the word. -/
def scaleEnd (c : Int) : Option Int → Option Int
  | some a => Word.mul? a c
  | none => none

/-- Holds every sum of a member of each interval. -/
def add (a b : Interval) : Interval := ⟨addEnd a.lo b.lo, addEnd a.hi b.hi⟩

/-- Holds `c` times every member. -/
def scale (a : Interval) (c : Int) : Interval :=
  if c = 0 then point 0
  else if 0 < c then ⟨scaleEnd c a.lo, scaleEnd c a.hi⟩
  else ⟨scaleEnd c a.hi, scaleEnd c a.lo⟩

/-- Whether the ends admit zero. -/
def containsZero (a : Interval) : Bool := a.lo.all (· ≤ 0) && a.hi.all (0 ≤ ·)

/-- Every member is negative. -/
def isNegative (a : Interval) : Bool := a.hi.any (· < 0)

/-- Every member is positive. -/
def isPositive (a : Interval) : Bool := a.lo.any (0 < ·)

/-- No member is negative. -/
def isNonNegative (a : Interval) : Bool := a.lo.any (0 ≤ ·)

/-- No member is positive. -/
def isNonPositive (a : Interval) : Bool := a.hi.any (· ≤ 0)

/-! ## Members -/

/-- The integers of an interval. -/
structure Mem (a : Interval) (v : Int) : Prop where
  lo : ∀ l, a.lo = some l → l ≤ v
  hi : ∀ h, a.hi = some h → v ≤ h

@[simp] theorem mem_point {v w : Int} : (point v).Mem w ↔ w = v := by
  constructor
  · intro h
    have := h.lo v rfl
    have := h.hi v rfl
    omega
  · rintro rfl
    exact ⟨fun l h => by simp_all [point, between], fun h e => by simp_all [point, between]⟩

@[simp] theorem mem_unbounded (v : Int) : unbounded.Mem v :=
  ⟨fun _ h => by simp [unbounded] at h, fun _ h => by simp [unbounded] at h⟩

theorem addEnd_eq_some {a b : Option Int} {c : Int} (h : addEnd a b = some c) :
    ∃ x y, a = some x ∧ b = some y ∧ x + y = c := by
  cases a <;> cases b <;> simp_all [addEnd, Word.add?]

theorem scaleEnd_eq_some {a : Option Int} {c d : Int} (h : scaleEnd c a = some d) :
    ∃ x, a = some x ∧ x * c = d := by
  cases a <;> simp_all [scaleEnd, Word.mul?]

theorem mem_add {a b : Interval} {v w : Int} (hv : a.Mem v) (hw : b.Mem w) :
    (a.add b).Mem (v + w) := by
  constructor
  · intro l h
    obtain ⟨x, y, hx, hy, rfl⟩ := addEnd_eq_some h
    have := hv.lo x hx
    have := hw.lo y hy
    omega
  · intro u h
    obtain ⟨x, y, hx, hy, rfl⟩ := addEnd_eq_some h
    have := hv.hi x hx
    have := hw.hi y hy
    omega

theorem mem_scale {a : Interval} {v : Int} (hv : a.Mem v) (c : Int) : (a.scale c).Mem (v * c) := by
  unfold scale
  split
  · simp_all
  · split
    · -- a positive factor keeps the ends in place
      rename_i hc
      constructor
      · intro l h
        obtain ⟨x, hx, rfl⟩ := scaleEnd_eq_some h
        exact Int.mul_le_mul_of_nonneg_right (hv.lo x hx) (Int.le_of_lt hc)
      · intro u h
        obtain ⟨x, hx, rfl⟩ := scaleEnd_eq_some h
        exact Int.mul_le_mul_of_nonneg_right (hv.hi x hx) (Int.le_of_lt hc)
    · -- a negative one swaps them
      have hc : c ≤ 0 := by omega
      constructor
      · intro l h
        obtain ⟨x, hx, rfl⟩ := scaleEnd_eq_some h
        exact Int.mul_le_mul_of_nonpos_right (hv.hi x hx) hc
      · intro u h
        obtain ⟨x, hx, rfl⟩ := scaleEnd_eq_some h
        exact Int.mul_le_mul_of_nonpos_right (hv.lo x hx) hc

end Interval

end LoopNest.Affine

import Mathlib.Algebra.Order.Field.Basic
import Mathlib.Algebra.Order.Ring.Rat
import Mathlib.Data.Rat.Cast.Order
import Mathlib.Tactic.Linarith
import LoopNest.Affine.Equation
import LoopNest.Proofs.AffineForms

/-! # Tight ranges

  Ranges are computed with open ends, and an end that would leave the word becomes open. So they hold
  every value (`spread_combine_mem`), whatever the numbers are.

  They hold nothing else when no interval is empty and nothing leaves the word: each rational number of
  a sum is a sum of members (`Interval.exists_of_holds_add`), each one of a multiple is a multiple of a
  member (`Interval.exists_of_holds_scale`), and so each one of a range is the value of a choice
  (`exists_of_holds_spread`). -/

namespace LoopNest.Affine

/-! ## Numbers between ends -/

/-- There is a number between lower and upper ends when no lower end is above an upper one. -/
theorem exists_between_ends (lows highs : List Rat) (h : ∀ l ∈ lows, ∀ u ∈ highs, l ≤ u) :
    ∃ q, (∀ l ∈ lows, l ≤ q) ∧ ∀ u ∈ highs, q ≤ u := by
  induction lows with
  | nil =>
    induction highs with
    | nil => exact ⟨0, by simp, by simp⟩
    | cons u highs ih =>
      obtain ⟨q, _, hq⟩ := ih (by simp)
      refine ⟨min u q, by simp, List.forall_mem_cons.mpr ⟨min_le_left u q, fun v hv => ?_⟩⟩
      exact (min_le_right u q).trans (hq v hv)
  | cons l lows ih =>
    obtain ⟨hHere, hRest⟩ := List.forall_mem_cons.mp h
    obtain ⟨q, hLow, hHigh⟩ := ih hRest
    refine ⟨max l q, List.forall_mem_cons.mpr ⟨le_max_left l q, fun k hk => ?_⟩, fun u hu => ?_⟩
    · exact (hLow k hk).trans (le_max_right l q)
    · exact max_le (hHere u hu) (hHigh u hu)

namespace Interval

variable {a b : Interval} {c : Int} {q : Rat}

/-! ## Rational members -/

theorem holds_point {v : Int} : (point v).Holds q ↔ q = v := by
  constructor
  · exact fun h => le_antisymm (h.hi v rfl) (h.lo v rfl)
  · rintro rfl
    exact ⟨fun l h => by cases h; exact le_rfl, fun u h => by cases h; exact le_rfl⟩

/-- An interval admits zero by its ends exactly when zero is a member. -/
theorem containsZero_iff : a.containsZero = true ↔ a.Holds 0 := by
  rw [containsZero, Bool.and_eq_true, Option.all_eq_true, Option.all_eq_true]
  constructor
  · rintro ⟨hLow, hHigh⟩
    refine ⟨fun l hl => ?_, fun u hu => ?_⟩
    · exact_mod_cast of_decide_eq_true (hLow l hl)
    · exact_mod_cast of_decide_eq_true (hHigh u hu)
  · intro h
    refine ⟨fun l hl => decide_eq_true ?_, fun u hu => decide_eq_true ?_⟩
    · exact_mod_cast h.lo l hl
    · exact_mod_cast h.hi u hu

/-- The ends of an interval that is not empty are in order. -/
theorem isEmpty_eq_false_iff :
    a.isEmpty = false ↔ ∀ l, a.lo = some l → ∀ u, a.hi = some u → l ≤ u := by
  obtain ⟨lo, hi⟩ := a
  cases lo <;> cases hi <;> simp [isEmpty]

theorem isEmpty_add (ha : a.isEmpty = false) (hb : b.isEmpty = false) :
    (a.add b).isEmpty = false := by
  rw [isEmpty_eq_false_iff] at *
  intro l hl u hu
  obtain ⟨x, y, hx, hy, rfl⟩ := addEnd_eq_some hl
  obtain ⟨x', y', hx', hy', rfl⟩ := addEnd_eq_some hu
  exact add_le_add (ha x hx x' hx') (hb y hy y' hy')

theorem isEmpty_scale (ha : a.isEmpty = false) (c : Int) : (a.scale c).isEmpty = false := by
  unfold scale
  split
  · rfl
  · rw [isEmpty_eq_false_iff] at *
    split
    · -- a positive factor keeps the ends in place
      rename_i hc
      intro l hl u hu
      obtain ⟨x, hx, rfl⟩ := scaleEnd_eq_some hl
      obtain ⟨y, hy, rfl⟩ := scaleEnd_eq_some hu
      exact mul_le_mul_of_nonneg_right (ha x hx y hy) hc.le
    · -- a negative one swaps them
      rename_i hc
      intro l hl u hu
      obtain ⟨x, hx, rfl⟩ := scaleEnd_eq_some hl
      obtain ⟨y, hy, rfl⟩ := scaleEnd_eq_some hu
      exact mul_le_mul_of_nonpos_right (ha y hy x hx) (not_lt.mp hc)

/-- An interval that is not empty has a member. -/
theorem exists_holds (ha : a.isEmpty = false) : ∃ q, a.Holds q := by
  rw [isEmpty_eq_false_iff] at ha
  let lows := a.lo.toList.map fun l : Int => (l : Rat)
  let highs := a.hi.toList.map fun u : Int => (u : Rat)
  have hOrder : ∀ l ∈ lows, ∀ u ∈ highs, l ≤ u := by
    simp only [lows, highs, List.mem_map, Option.mem_toList]
    rintro _ ⟨l, hl, rfl⟩ _ ⟨u, hu, rfl⟩
    exact_mod_cast ha l hl u hu
  obtain ⟨q, hLow, hHigh⟩ := exists_between_ends lows highs hOrder
  simp only [lows, highs, List.forall_mem_map, Option.mem_toList] at hLow hHigh
  exact ⟨q, hLow, hHigh⟩

/-! ## Sums and multiples -/

theorem addEnd_of_fits {e e' : Option Int}
    (hFits : ∀ x ∈ e, ∀ y ∈ e', Word.fits (x + y) = true) {x y : Int} (he : e = some x)
    (he' : e' = some y) : addEnd e e' = some (x + y) := by
  rw [he, he']
  exact Word.add?_eq_some.mpr ⟨hFits x he y he', rfl⟩

theorem scaleEnd_of_fits {e : Option Int} (hFits : ∀ x ∈ e, Word.fits (x * c) = true) {x : Int}
    (he : e = some x) : scaleEnd c e = some (x * c) := by
  rw [he]
  exact Word.mul?_eq_some.mpr ⟨hFits x he, rfl⟩

/-- **Sums are tight**: every rational number of a sum is a sum of members. -/
theorem exists_of_holds_add (ha : a.isEmpty = false) (hb : b.isEmpty = false)
    (hFits : a.AddFits b) (h : (a.add b).Holds q) :
    ∃ x y, a.Holds x ∧ b.Holds y ∧ x + y = q := by
  rw [isEmpty_eq_false_iff] at ha hb
  -- `x` lies in the first interval, and `q - x` in the second one
  let lows := (a.lo.toList.map fun l : Int => (l : Rat)) ++ b.hi.toList.map fun u : Int => q - u
  let highs := (a.hi.toList.map fun u : Int => (u : Rat)) ++ b.lo.toList.map fun l : Int => q - l
  have hOrder : ∀ l ∈ lows, ∀ u ∈ highs, l ≤ u := by
    simp only [lows, highs, List.mem_append, List.mem_map, Option.mem_toList]
    rintro _ (⟨l, hl, rfl⟩ | ⟨u', hu', rfl⟩) _ (⟨u, hu, rfl⟩ | ⟨l', hl', rfl⟩)
    · exact_mod_cast ha l hl u hu
    · have hSum : ((l + l' : Int) : Rat) ≤ q := h.lo _ (addEnd_of_fits hFits.1 hl hl')
      push_cast at hSum
      linarith
    · have hSum : q ≤ ((u + u' : Int) : Rat) := h.hi _ (addEnd_of_fits hFits.2 hu hu')
      push_cast at hSum
      linarith
    · have hEnds : (l' : Rat) ≤ u' := by exact_mod_cast hb l' hl' u' hu'
      linarith
  obtain ⟨x, hLow, hHigh⟩ := exists_between_ends lows highs hOrder
  simp only [lows, highs, List.forall_mem_append, List.forall_mem_map, Option.mem_toList]
    at hLow hHigh
  refine ⟨x, q - x, ⟨hLow.1, hHigh.1⟩, ⟨fun l hl => ?_, fun u hu => ?_⟩, add_sub_cancel x q⟩
  · linarith [hHigh.2 l hl]
  · linarith [hLow.2 u hu]

/-- **Multiples are tight**: every rational number of a multiple is that multiple of a member. -/
theorem exists_of_holds_scale (ha : a.isEmpty = false) (hFits : a.ScaleFits c)
    (h : (a.scale c).Holds q) : ∃ x, a.Holds x ∧ (c : Rat) * x = q := by
  unfold scale at h
  split at h
  · -- zero is the only multiple, of any member
    rename_i hZero
    obtain ⟨x, hx⟩ := exists_holds ha
    exact ⟨x, hx, by rw [hZero, Int.cast_zero, zero_mul, holds_point.mp h, Int.cast_zero]⟩
  · rename_i hc
    obtain ⟨hLow, hHigh⟩ := hFits hc
    have hCast : (c : Rat) ≠ 0 := Int.cast_ne_zero.mpr hc
    refine ⟨q / c, ?_, mul_div_cancel₀ q hCast⟩
    split at h
    · rename_i hPos
      have hPos : (0 : Rat) < c := Int.cast_pos.mpr hPos
      refine ⟨fun l hl => ?_, fun u hu => ?_⟩
      · rw [le_div_iff₀ hPos]
        exact_mod_cast h.lo _ (scaleEnd_of_fits hLow hl)
      · rw [div_le_iff₀ hPos]
        exact_mod_cast h.hi _ (scaleEnd_of_fits hHigh hu)
    · rename_i hPos
      have hNeg : (c : Rat) < 0 := Int.cast_lt_zero.mpr (by omega)
      refine ⟨fun l hl => ?_, fun u hu => ?_⟩
      · rw [le_div_iff_of_neg hNeg]
        exact_mod_cast h.hi _ (scaleEnd_of_fits hLow hl)
      · rw [div_le_iff_of_neg hNeg]
        exact_mod_cast h.lo _ (scaleEnd_of_fits hHigh hu)

end Interval

/-! ## Ranges of sums -/

variable {coeffs : List Int} {bounds : List Interval} {start : Interval}

/-- What holds of a first interval holds of the one that is taken, an open one if there is none. -/
theorem headD_unbounded {P : Interval → Prop} (h : ∀ b, bounds.head? = some b → P b)
    (hOpen : P .unbounded) : P (bounds.headD .unbounded) := by
  cases bounds with
  | nil => exact hOpen
  | cons b bounds => exact h b rfl

/-- A range holds the value of every choice within the intervals. -/
theorem spread_combine_mem {xs : List Int} (hLength : xs.length = coeffs.length)
    (hWithin : Within Interval.Mem bounds xs) {v : Int} (hStart : start.Mem v) :
    (spread start coeffs bounds).Mem (v + combine coeffs xs) := by
  -- `start` and `v` take in one unknown after the other
  induction coeffs generalizing bounds start xs v with
  | nil => simpa [spread] using hStart
  | cons c coeffs ih =>
    cases xs with
    | nil => cases hLength
    | cons x xs =>
      obtain ⟨hFirst, hRest⟩ := within_cons.mp hWithin
      have hTerm := Interval.mem_scale (headD_unbounded hFirst (Interval.mem_unbounded x)) c
      have hNext := ih (Nat.succ.inj hLength) hRest (Interval.mem_add hStart hTerm)
      rwa [spread_cons, combine_cons, Int.cast_id, Int.mul_comm c, ← Int.add_assoc]

/-- **Ranges are tight**: every rational number of a range is the value of a choice. -/
theorem exists_of_holds_spread (hStart : start.isEmpty = false)
    (hBounds : ∀ b ∈ bounds, b.isEmpty = false) (hFits : SpreadFits start coeffs bounds) {q : Rat}
    (h : (spread start coeffs bounds).Holds q) :
    ∃ (s : Rat) (xs : List Rat), start.Holds s ∧ xs.length = coeffs.length
      ∧ Within Interval.Holds bounds xs ∧ s + combine coeffs xs = q := by
  induction coeffs generalizing bounds start q with
  | nil =>
    refine ⟨q, [], h, rfl, fun i b x _ hx => ?_, by simp⟩
    cases hx
  | cons c coeffs ih =>
    rw [spread_cons] at h
    obtain ⟨hScale, hAdd, hLater⟩ := hFits
    have hFirst : (bounds.headD .unbounded).isEmpty = false :=
      headD_unbounded (fun b hb => hBounds b (List.mem_of_mem_head? hb)) rfl
    have hNext := Interval.isEmpty_add hStart (Interval.isEmpty_scale hFirst c)
    obtain ⟨s', xs, hs', hLength, hWithin, hSum⟩ :=
      ih hNext (fun b hb => hBounds b (List.mem_of_mem_tail hb)) hLater h
    -- the sum so far comes apart into what was there and a multiple of the next unknown
    obtain ⟨s, p, hs, hp, rfl⟩ := Interval.exists_of_holds_add hStart
      (Interval.isEmpty_scale hFirst c) hAdd hs'
    obtain ⟨x, hx, rfl⟩ := Interval.exists_of_holds_scale hFirst hScale hp
    refine ⟨s, x :: xs, hs, congrArg (· + 1) hLength, within_cons.mpr ⟨?_, hWithin⟩, ?_⟩
    · intro b hb
      rwa [List.headD_eq_head?_getD, hb] at hx
    · rw [combine_cons, ← add_assoc, hSum]

/-! ## The range test -/

/-- The test admits every equation with a solution within the intervals. -/
theorem reachesZero_of_combine {constant : Int} {xs : List Int} (hLength : xs.length = coeffs.length)
    (hWithin : Within Interval.Mem bounds xs) (hZero : combine coeffs xs + constant = 0) :
    reachesZero coeffs constant bounds = true := by
  have hMem := spread_combine_mem hLength hWithin (Interval.mem_point.mpr (Eq.refl constant))
  rw [Int.add_comm, hZero] at hMem
  exact Interval.containsZero_of_mem hMem

/-- An equation that the test admits has a rational solution within the intervals. -/
theorem exists_of_reachesZero {constant : Int} (hBounds : ∀ b ∈ bounds, b.isEmpty = false)
    (hFits : SpreadFits (.point constant) coeffs bounds)
    (hYes : reachesZero coeffs constant bounds = true) :
    ∃ xs : List Rat, xs.length = coeffs.length ∧ Within Interval.Holds bounds xs
      ∧ combine coeffs xs + constant = 0 := by
  have hPoint : (Interval.point constant).isEmpty = false :=
    decide_eq_false (Int.lt_irrefl constant)
  obtain ⟨s, xs, hs, hLength, hWithin, hSum⟩ :=
    exists_of_holds_spread hPoint hBounds hFits (Interval.containsZero_iff.mp hYes)
  obtain rfl := Interval.holds_point.mp hs
  exact ⟨xs, hLength, hWithin, by rw [add_comm, hSum]⟩

/-- **Ranges and the test on them**, for intervals and numbers of any size:

    * sums, multiples and the ranges of forms hold every value of members;
    * the test answers no only if no choice of integers within the intervals has the value zero;
    * where no interval is empty and nothing leaves the word, sums and multiples hold only values of
      members, and the test answers yes only if some choice of rational numbers within the intervals
      has the value zero. -/
theorem ranges_exact :
    (∀ (a b : Interval) (x y : Int), a.Mem x → b.Mem y → (a.add b).Mem (x + y))
    ∧ (∀ (a : Interval) (c x : Int), a.Mem x → (a.scale c).Mem (c * x))
    ∧ (∀ (κ : Type) (f : Form κ) (bound : κ → Interval) (ν : κ → Int),
        (∀ t ∈ f.terms, (bound t.1).Mem (ν t.1)) → (f.range bound).Mem (f.eval ν))
    ∧ (∀ (coeffs : List Int) (constant : Int) (bounds : List Interval),
        reachesZero coeffs constant bounds = false →
        ¬ ∃ xs : List Int, xs.length = coeffs.length ∧ Within Interval.Mem bounds xs
            ∧ combine coeffs xs + constant = 0)
    ∧ (∀ (a b : Interval) (q : Rat), a.isEmpty = false → b.isEmpty = false → a.AddFits b →
        (a.add b).Holds q → ∃ x y, a.Holds x ∧ b.Holds y ∧ x + y = q)
    ∧ (∀ (a : Interval) (c : Int) (q : Rat), a.isEmpty = false → a.ScaleFits c →
        (a.scale c).Holds q → ∃ x, a.Holds x ∧ (c : Rat) * x = q)
    ∧ ∀ (coeffs : List Int) (constant : Int) (bounds : List Interval),
        (∀ b ∈ bounds, b.isEmpty = false) → SpreadFits (.point constant) coeffs bounds →
        reachesZero coeffs constant bounds = true →
        ∃ xs : List Rat, xs.length = coeffs.length ∧ Within Interval.Holds bounds xs
          ∧ combine coeffs xs + constant = 0 := by
  refine ⟨fun a b x y => Interval.mem_add, fun a c x hx => ?_, fun κ f bound ν => Form.mem_range,
    ?_, fun a b q => Interval.exists_of_holds_add, fun a c q => Interval.exists_of_holds_scale,
    fun coeffs constant bounds => exists_of_reachesZero⟩
  · rw [Int.mul_comm]
    exact Interval.mem_scale hx c
  · rintro coeffs constant bounds hNo ⟨xs, hLength, hWithin, hZero⟩
    exact Bool.false_ne_true (hNo.symm.trans (reachesZero_of_combine hLength hWithin hZero))

/-- One end of a sum of large intervals leaves the word and becomes open. On the other hand, `2 x - 2 y`
    is never odd, but the range and rational numbers do not show it. -/
theorem ranges_exact_halves :
    let large := Interval.between 0 Word.greatest
    let digits := Interval.between 0 9
    (large.add large = .atLeast 0 ∧ (large.add large).Mem (Word.greatest + Word.greatest))
      ∧ (large.scale (-2)).Mem (-2 * Word.greatest)
      ∧ ((⟨[("i", 3), ("j", -1)], 1⟩ : Form String).range fun _ => digits).Mem 5
      ∧ (reachesZero [1, -1] 20 [digits, digits] = false
          ∧ ¬ ∃ xs : List Int, xs.length = 2 ∧ Within Interval.Mem [digits, digits] xs
              ∧ combine [1, -1] xs + 20 = 0)
      ∧ (∃ x y, digits.Holds x ∧ (Interval.atLeast 2).Holds y ∧ x + y = 5 / 2)
      ∧ (∃ x, digits.Holds x ∧ ((-2 : Int) : Rat) * x = -1)
      ∧ SpreadFits (.point 1) [2, -2] [digits] ∧ reachesZero [2, -2] 1 [digits] = true
      ∧ ∃ xs : List Rat, xs.length = 2 ∧ Within Interval.Holds [digits] xs
          ∧ combine [2, -2] xs + 1 = 0 := by
  intro large digits
  have hLarge : large.Mem Word.greatest :=
    ⟨fun l h => by cases h; decide, fun u h => by cases h; decide⟩
  have hTwo : digits.Mem 2 := ⟨fun l h => by cases h; decide, fun u h => by cases h; decide⟩
  have hSum : (digits.add (.atLeast 2)).Holds (5 / 2) :=
    ⟨fun l h => by cases h; norm_num, fun u h => by cases h⟩
  have hMultiple : (digits.scale (-2)).Holds (-1) :=
    ⟨fun l h => by cases h; norm_num, fun u h => by cases h; norm_num⟩
  have hFits : SpreadFits (.point 1) [2, -2] [digits] := by decide
  have hYes : reachesZero [2, -2] 1 [digits] = true := by decide
  have hNo : reachesZero [1, -1] 20 [digits, digits] = false := by decide
  obtain ⟨hAdd, hScale, hRange, hSound, hAddTight, hScaleTight, hTight⟩ := ranges_exact
  refine ⟨⟨by decide, hAdd large large _ _ hLarge hLarge⟩, hScale large (-2) _ hLarge, ?_,
    ⟨hNo, hSound [1, -1] 20 [digits, digits] hNo⟩, ?_, ?_, hFits, hYes,
    hTight [2, -2] 1 [digits] (by decide) hFits hYes⟩
  · exact hRange String ⟨[("i", 3), ("j", -1)], 1⟩ (fun _ => digits) (fun _ => 2) fun _ _ => hTwo
  · exact hAddTight digits (.atLeast 2) (5 / 2) rfl rfl (by decide) hSum
  · exact hScaleTight digits (-2) (-1) rfl (by decide) hMultiple

end LoopNest.Affine

import Mathlib.Data.Int.GCD
import Mathlib.Tactic.Ring
import LoopNest.Affine.Equation
import LoopNest.Proofs.AffineForms

/-! # Equations that have a solution

  An equation `Σ coeffs · x = constant` has a solution in the integers exactly when the greatest common
  divisor of the coefficients divides the constant, and the divisibility test decides this for every
  list of coefficients (`divisible_exact`).

  * **Words**: taken on words, a divisor is the exact one up to its sign, also the one divisor that is
    no word (`Word.IsGcd.natAbs_eq`). So the test on words answers the same.
  * **Combinations**: the divisor of a list is itself a value of `Σ coeffs · x`
    (`exists_combine_eq_foldl_gcd`), so its multiples are. -/

namespace LoopNest

namespace Word

theorem natAbs_le_of_fits {a : Int} (h : fits a = true) : a.natAbs ≤ 9223372036854775808 := by
  obtain ⟨hLow, hHigh⟩ := fits_iff.mp h
  rw [least] at hLow
  rw [greatest] at hHigh
  omega

/-- The only divisor of two words that is not a word is one more than the greatest. -/
theorem gcd_of_not_fits {a b : Int} (ha : fits a = true) (hb : fits b = true)
    (h : fits (Int.gcd a b) = false) : Int.gcd a b = 9223372036854775808 := by
  have hSmall : Int.gcd a b ≤ 9223372036854775808 := by
    by_cases hZero : a = 0
    · rw [hZero, Int.gcd_zero_left]
      exact natAbs_le_of_fits hb
    · have hPos : 0 < a.natAbs := Int.natAbs_pos.mpr hZero
      exact (Nat.gcd_le_left b.natAbs hPos).trans (natAbs_le_of_fits ha)
  have hLarge : ¬ (least ≤ (Int.gcd a b : Int) ∧ (Int.gcd a b : Int) ≤ greatest) := by
    rw [← fits_iff, h]
    exact Bool.false_ne_true
  rw [least, greatest] at hLarge
  omega

namespace IsGcd

variable {gcd : Int → Int → Int} {a b : Int}

theorem fits_gcd (h : IsGcd gcd) (ha : fits a = true) (hb : fits b = true) :
    fits (gcd a b) = true := by
  cases hFits : fits (Int.gcd a b) with
  | true => rw [h.exact ha hb hFits, hFits]
  | false => rw [h.wrapped ha hb hFits]; rfl

/-- Up to its sign, a divisor of words is the exact one. -/
theorem natAbs_eq (h : IsGcd gcd) (ha : fits a = true) (hb : fits b = true) :
    (gcd a b).natAbs = Int.gcd a b := by
  cases hFits : fits (Int.gcd a b) with
  | true => rw [h.exact ha hb hFits, Int.natAbs_natCast]
  | false => rw [h.wrapped ha hb hFits, gcd_of_not_fits ha hb hFits]; rfl

/-- The divisors of a list of words, taken one after the other, stay the exact ones up to their
    signs. -/
theorem natAbs_foldl (h : IsGcd gcd) {coeffs : List Int} (hCoeffs : ∀ c ∈ coeffs, fits c = true)
    {start start' : Int} (hStart : fits start = true) (hSame : start.natAbs = start'.natAbs) :
    (coeffs.foldl gcd start).natAbs
      = (coeffs.foldl (fun acc c => (Int.gcd acc c : Int)) start').natAbs := by
  induction coeffs generalizing start start' with
  | nil => exact hSame
  | cons c coeffs ih =>
    obtain ⟨hc, hRest⟩ := List.forall_mem_cons.mp hCoeffs
    rw [List.foldl_cons, List.foldl_cons]
    refine ih hRest (h.fits_gcd hStart hc) ?_
    rw [h.natAbs_eq hStart hc, Int.natAbs_natCast, Int.gcd_def, Int.gcd_def, hSame]

end IsGcd

end Word

namespace Affine

/-! ## What the test asks -/

/-- However remainders are taken, they tell whether a divisor divides a constant; zero divides zero
    only. -/
theorem remainder_iff_dvd {g constant remainder : Int} (h : g ∣ constant ↔ remainder = 0) :
    (if g = 0 then constant == 0 else remainder == 0) = true ↔ g ∣ constant := by
  by_cases hZero : g = 0
  · rw [if_pos hZero, hZero, Int.zero_dvd, beq_iff_eq]
  · rw [if_neg hZero, h, beq_iff_eq]

theorem divisible_iff_dvd {coeffs : List Int} {constant : Int} :
    divisible coeffs constant = true
      ↔ coeffs.foldl (fun acc c => (Int.gcd acc c : Int)) 0 ∣ constant :=
  remainder_iff_dvd Int.dvd_iff_emod_eq_zero

theorem divisibleWith_iff_dvd {gcd : Int → Int → Int} {coeffs : List Int} {constant : Int} :
    divisibleWith gcd coeffs constant = true ↔ coeffs.foldl gcd 0 ∣ constant :=
  remainder_iff_dvd Int.dvd_iff_tmod_eq_zero

/-- On words the test answers as on integers. -/
theorem divisibleWith_eq {gcd : Int → Int → Int} (h : Word.IsGcd gcd) {coeffs : List Int}
    (hCoeffs : ∀ c ∈ coeffs, Word.fits c = true) (constant : Int) :
    divisibleWith gcd coeffs constant = divisible coeffs constant := by
  rw [Bool.eq_iff_iff, divisibleWith_iff_dvd, divisible_iff_dvd, ← Int.natAbs_dvd,
    h.natAbs_foldl hCoeffs rfl rfl, Int.natAbs_dvd]

/-! ## Combinations -/

/-- **Divisors are combinations**: the divisor of a list and a number to start from is the sum of
    multiples of them. -/
theorem exists_combine_eq_foldl_gcd (coeffs : List Int) : ∀ start : Int,
    ∃ (x : Int) (xs : List Int), xs.length = coeffs.length
      ∧ coeffs.foldl (fun acc c => (Int.gcd acc c : Int)) start
        = start * x + combine coeffs xs := by
  induction coeffs with
  | nil => exact fun start => ⟨1, [], rfl, by simp⟩
  | cons c coeffs ih =>
    intro start
    obtain ⟨x, xs, hLength, hFold⟩ := ih (Int.gcd start c)
    refine ⟨Int.gcdA start c * x, Int.gcdB start c * x :: xs, congrArg (· + 1) hLength, ?_⟩
    rw [List.foldl_cons, hFold, combine_cons, Int.gcd_eq_gcd_ab, Int.cast_id]
    ring

theorem combine_map_mul (k : Int) (coeffs xs : List Int) :
    combine coeffs (xs.map (k * ·)) = k * combine coeffs xs := by
  induction coeffs generalizing xs with
  | nil => simp
  | cons c coeffs ih =>
    cases xs with
    | nil => simp [combine]
    | cons x xs =>
      rw [List.map_cons, combine_cons, combine_cons, ih]
      ring

/-- A choice of the unknowns is a list of terms with these coefficients. -/
theorem total_zip {coeffs xs : List Int} (h : xs.length = coeffs.length) :
    Form.total id (xs.zip coeffs) = combine coeffs xs := by
  induction coeffs generalizing xs with
  | nil => rw [List.length_eq_zero_iff.mp h, List.zip_nil_left, Form.total_nil, combine_nil]
  | cons c coeffs ih =>
    cases xs with
    | nil => cases h
    | cons x xs =>
      rw [List.zip_cons_cons, Form.total_cons, combine_cons, ih (Nat.succ.inj h)]
      rfl

/-! ## Solutions -/

/-- **Solvable equations**: the test admits a constant exactly when some choice of integers has that
    value, for all coefficients. On words it answers the same, whatever takes the divisors. -/
theorem divisible_exact (coeffs : List Int) (constant : Int) :
    (divisible coeffs constant = true
        ↔ ∃ xs : List Int, xs.length = coeffs.length ∧ combine coeffs xs = constant)
      ∧ ∀ gcd, Word.IsGcd gcd → (∀ c ∈ coeffs, Word.fits c = true) →
          divisibleWith gcd coeffs constant = divisible coeffs constant := by
  refine ⟨⟨fun h => ?_, ?_⟩, fun gcd hGcd hCoeffs => divisibleWith_eq hGcd hCoeffs constant⟩
  · obtain ⟨k, hk⟩ := divisible_iff_dvd.mp h
    obtain ⟨x, xs, hLength, hFold⟩ := exists_combine_eq_foldl_gcd coeffs 0
    refine ⟨xs.map (k * ·), (List.length_map _).trans hLength, ?_⟩
    rw [combine_map_mul, hk, hFold, Int.zero_mul, Int.zero_add, Int.mul_comm]
  · rintro ⟨xs, hLength, rfl⟩
    have hTerms := divisible_of_total id (xs.zip coeffs)
    rwa [total_zip hLength, List.map_snd_zip hLength.ge] at hTerms

/-- The divisor of zero and the least word is no word, so the test on words goes by the least word
    itself. -/
theorem divisible_exact_least :
    Word.IsGcd Word.gcd ∧ (∀ c ∈ [0, Word.least], Word.fits c = true)
      ∧ [0, Word.least].foldl Word.gcd 0 = Word.least
      ∧ divisibleWith Word.gcd [0, Word.least] Word.least = true
      ∧ divisibleWith Word.gcd [0, Word.least] 4611686018427387904 = false
      ∧ (∃ xs : List Int, xs.length = 2 ∧ combine [0, Word.least] xs = Word.least)
      ∧ ¬ ∃ xs : List Int, xs.length = 2
          ∧ combine [0, Word.least] xs = 4611686018427387904 := by
  have hFits : ∀ c ∈ [0, Word.least], Word.fits c = true := by decide
  obtain ⟨hLeast, hSame⟩ := divisible_exact [0, Word.least] Word.least
  obtain ⟨hHalf, hSameHalf⟩ := divisible_exact [0, Word.least] 4611686018427387904
  refine ⟨Word.isGcd_gcd, hFits, by decide, ?_, ?_, hLeast.mp (by decide), ?_⟩
  · rw [hSame Word.gcd Word.isGcd_gcd hFits]
    decide
  · rw [hSameHalf Word.gcd Word.isGcd_gcd hFits]
    decide
  · rw [show 2 = [0, Word.least].length from rfl, ← hHalf]
    decide

end Affine

end LoopNest

import LoopNest.Affine.Solvable

/-! # Linear equations

  What the tests for equations are about: the value of `Σ coeffs · xs` for a choice of the unknowns,
  and the choices that the intervals of the unknowns admit.

  * `combine` is the value of a choice, `Within` says that it keeps to the intervals.
  * `Interval.Holds` says which rational numbers an interval holds. The integers alone leave gaps that
    no interval can show.
  * `SpreadFits` says that no number leaves the word while a range is computed. -/

namespace LoopNest.Affine

/-- The value of `Σ coeffs · xs`. -/
def combine {α : Type} [IntCast α] [Zero α] [Add α] [Mul α] : List Int → List α → α
  | c :: cs, x :: xs => (c : α) * x + combine cs xs
  | _, _ => 0

/-- Every number that has an interval is one of its members. -/
def Within {α : Type} (member : Interval → α → Prop) (bounds : List Interval) (xs : List α) : Prop :=
  ∀ (i : Nat) b x, bounds[i]? = some b → xs[i]? = some x → member b x

namespace Interval

/-- The rational numbers of an interval. -/
structure Holds (a : Interval) (q : Rat) : Prop where
  lo : ∀ l, a.lo = some l → (l : Rat) ≤ q
  hi : ∀ h, a.hi = some h → q ≤ (h : Rat)

/-- The sums of the ends of two intervals fit the word. -/
def AddFits (a b : Interval) : Prop :=
  (∀ x ∈ a.lo, ∀ y ∈ b.lo, Word.fits (x + y) = true)
    ∧ ∀ x ∈ a.hi, ∀ y ∈ b.hi, Word.fits (x + y) = true

/-- The products of a factor and the ends of an interval fit the word. No product is taken when the
    factor is zero. -/
def ScaleFits (a : Interval) (c : Int) : Prop :=
  c ≠ 0 → (∀ x ∈ a.lo, Word.fits (x * c) = true) ∧ ∀ x ∈ a.hi, Word.fits (x * c) = true

instance (a b : Interval) : Decidable (a.AddFits b) := inferInstanceAs (Decidable (_ ∧ _))

instance (a : Interval) (c : Int) : Decidable (a.ScaleFits c) := inferInstanceAs (Decidable (_ → _))

end Interval

/-- No product and no sum on the way to the range of `Σ coeffs · x + start` leaves the word. -/
def SpreadFits (start : Interval) : List Int → List Interval → Prop
  | [], _ => True
  | c :: cs, bounds =>
    let b := bounds.headD .unbounded
    b.ScaleFits c ∧ start.AddFits (b.scale c) ∧ SpreadFits (start.add (b.scale c)) cs bounds.tail

instance SpreadFits.decide : ∀ (coeffs : List Int) (start : Interval) (bounds : List Interval),
    Decidable (SpreadFits start coeffs bounds)
  | [], _, _ => isTrue trivial
  | _ :: cs, _, _ =>
    have := SpreadFits.decide cs
    inferInstanceAs (Decidable (_ ∧ _ ∧ _))

/-! ## Choices -/

section choices

variable {α : Type} [IntCast α] [Zero α] [Add α] [Mul α]

@[simp] theorem combine_nil (xs : List α) : combine [] xs = 0 := by
  rw [combine]
  simp

@[simp] theorem combine_cons (c : Int) (cs : List Int) (x : α) (xs : List α) :
    combine (c :: cs) (x :: xs) = (c : α) * x + combine cs xs := rfl

end choices

/-- A choice keeps to the intervals when its first number and the others do. -/
theorem within_cons {α : Type} {member : Interval → α → Prop} {bounds : List Interval} {x : α}
    {xs : List α} : Within member bounds (x :: xs) ↔
      (∀ b, bounds.head? = some b → member b x) ∧ Within member bounds.tail xs := by
  constructor
  · intro h
    refine ⟨fun b hb => h 0 b x (List.head?_eq_getElem? ▸ hb) rfl, fun i b y hb hy => ?_⟩
    rw [List.getElem?_tail] at hb
    exact h (i + 1) b y hb hy
  · rintro ⟨hFirst, hRest⟩ i b y hb hy
    cases i with
    | zero =>
      obtain rfl : x = y := Option.some.inj hy
      exact hFirst b (List.head?_eq_getElem? ▸ hb)
    | succ i => exact hRest i b y (by rw [List.getElem?_tail]; exact hb) hy

/-- A range takes in its unknowns from the front, those without an interval as unbounded ones. -/
theorem spread_cons (start : Interval) (c : Int) (cs : List Int) (bounds : List Interval) :
    spread start (c :: cs) bounds
      = spread (start.add ((bounds.headD .unbounded).scale c)) cs bounds.tail := by
  cases bounds <;> rfl

end LoopNest.Affine

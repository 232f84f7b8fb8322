import Mathlib.Tactic.Ring
import LoopNest.Proofs.AffineForms
import LoopNest.Proofs.AnyOrders
import LoopNest.Proofs.BuiltExprs
import LoopNest.Proofs.EnteredStatements
import LoopNest.Proofs.FreshNames
import LoopNest.Proofs.ReplacedScalars
import LoopNest.Restructure.Split

/-! # Split loops make the same writes

  The outer loop of a split counts rounds, the inner one the iterations of a round, and the old
  iterator is put together from both.

  * **Rounds**: counting in rounds is counting (`flatMap_rounds`), and a guard drops what lies beyond
    the last number (`filter_counting`).
  * **Counts**: the two trip counts cover the extent, exactly when no guard is needed
    (`Restructure.SplitBy.reach_tripNumbers`, `Restructure.SplitBy.tripNumbers_exact`).
  * **Replaced iterators**: a program with an expression in the place of a scalar runs like the
    program with the value of the expression as that of the scalar, if it leaves the expression
    alone (`Stmt.runWith_substitute`).
  * **Loops**: the two loops run like the loop in whose place they are
    (`Restructure.runWith_splitLoop`).
  * **Programs**: the program makes the same writes in the same order
    (`Restructure.split_preserves_writes`). -/

namespace LoopNest

/-! ## Rounds -/

theorem counting_eq_nil {lower upper : Int} (h : upper ≤ lower) : counting lower upper = [] := by
  unfold counting
  rw [show (upper - lower).toNat = 0 by omega]
  rfl

/-- Counting on by one number. -/
theorem counting_add_one {lower upper : Int} (h : lower ≤ upper) :
    counting lower (upper + 1) = counting lower upper ++ [upper] := by
  rw [counting_snoc (Int.lt_add_one_of_le h), Int.add_sub_cancel]

theorem counting_append {lower middle upper : Int} (hFirst : lower ≤ middle)
    (hLast : middle ≤ upper) :
    counting lower middle ++ counting middle upper = counting lower upper := by
  obtain ⟨n, rfl⟩ : ∃ n : Nat, upper = middle + n := ⟨(upper - middle).toNat, by omega⟩
  clear hLast
  induction n with
  | zero =>
    have hEmpty : counting middle (middle + (0 : Nat)) = [] := counting_eq_nil (by simp)
    rw [hEmpty, List.append_nil, Int.natCast_zero, Int.add_zero]
  | succ n ih =>
    rw [Int.natCast_succ, ← Int.add_assoc, counting_add_one (by omega), ← List.append_assoc, ih,
      counting_add_one (by omega)]

theorem map_counting (start lower upper : Int) :
    (counting lower upper).map (start + ·) = counting (start + lower) (start + upper) := by
  unfold counting
  rw [List.map_map, show start + upper - (start + lower) = upper - lower by omega]
  exact List.map_congr_left fun k _ => by simp only [Function.comp_apply]; omega

/-- Counting in rounds of equal length is counting. -/
theorem flatMap_rounds (start : Int) (rounds length : Nat) :
    (counting 0 rounds).flatMap (fun o => (counting 0 length).map fun i => start + (i + length * o))
      = counting start (start + length * rounds) := by
  induction rounds with
  | zero =>
    have hEmpty : counting start (start + length * (0 : Nat)) = [] := counting_eq_nil (by simp)
    rw [hEmpty]
    rfl
  | succ n ih =>
    have hRound : (counting 0 length).map (fun i => start + (i + (length : Int) * n))
        = counting (start + length * n) (start + length * n + length) := by
      have hShift := map_counting (start + length * n) 0 length
      rw [Int.add_zero] at hShift
      rw [← hShift]
      exact List.map_congr_left fun i _ => by ring
    have hPositive : 0 ≤ (length : Int) * n := Int.mul_nonneg (by omega) (by omega)
    rw [Int.natCast_succ, counting_add_one (by omega), List.flatMap_append, ih,
      List.flatMap_singleton, hRound, counting_append (by omega) (by omega)]
    congr 1
    ring

/-- Counting further and dropping what is too large is counting. -/
theorem filter_counting {lower middle upper : Int} (h : middle ≤ upper) :
    (counting lower upper).filter (· < middle) = counting lower middle := by
  have hBeyond : ∀ start, middle ≤ start → (counting start upper).filter (· < middle) = [] := by
    intro start hStart
    rw [List.filter_eq_nil_iff]
    intro v hv
    have hLow := (mem_counting.mp hv).1
    rw [decide_eq_true_eq]
    omega
  by_cases hEmpty : middle ≤ lower
  · rw [counting_eq_nil hEmpty, hBeyond lower hEmpty]
  · rw [← counting_append (by omega) h, List.filter_append, hBeyond _ (Int.le_refl _),
      List.append_nil]
    exact List.filter_eq_self.mpr fun v hv => decide_eq_true (mem_counting.mp hv).2

/-- Turns that may be skipped are the turns that are not. -/
theorem Action.inTurn_filter {α : Type} (p : α → Bool) (f : α → Action) (xs : List α) :
    inTurn (xs.map fun x => if p x then f x else skip) = inTurn ((xs.filter p).map f) := by
  induction xs with
  | nil => rfl
  | cons x xs ih =>
    by_cases hp : p x = true
    · rw [List.filter_cons_of_pos hp, List.map_cons, List.map_cons, inTurn_cons, inTurn_cons, ih,
        if_pos hp]
    · rw [List.filter_cons_of_neg hp, List.map_cons, inTurn_cons, ih, if_neg hp, skip_seq]

/-- Actions in the order of a list are the same on some memories when each of them is the same on
    these memories and does not lead out of them. -/
theorem Action.inTurn_eqOn {α : Type} {P : Memory → Prop} {f g : α → Action} {xs : List α}
    (hKeeps : ∀ x ∈ xs, (f x).change.Keeps P) (hSame : ∀ x ∈ xs, ∀ m, P m → g x m = f x m)
    {m : Memory} (hm : P m) : inTurn (xs.map g) m = inTurn (xs.map f) m := by
  apply inTurn_congr
  intro before x after between w hSplit hBefore
  have hTurns : (inTurn (before.map f)).change.Keeps P := by
    rw [change_inTurn, List.map_map]
    refine Change.Keeps.inTurn fun a ha => ?_
    obtain ⟨y, hy, rfl⟩ := List.mem_map.mp ha
    exact hKeeps y (hSplit ▸ List.mem_append_left _ hy)
  have hBetween : P between := hTurns m between hm (by rw [change, hBefore]; rfl)
  exact hSame x (by simp [hSplit]) between hBetween

/-! ## Replaced iterators -/

/-- **Replaced iterators**: a program with an expression in the place of a scalar runs like the
    program with the value of the expression as that of the scalar, if it leaves the expression
    alone. -/
theorem Stmt.runWith_substitute {c : Conventions} {x : String} {w : Expr} {v : Int} :
    ∀ (t : Stmt) (env : Env) (m : Memory), t.Still w → w.valueWith? c env m = some v →
      (t.substitute x w).runWith c env m = t.runWith c (env.set x v) m := by
  have hHere : ∀ {env : Env} {m : Memory}, w.valueWith? c env m = some v → ∀ e : Expr,
      (e.substitute [(x, w)]).valueWith? c env m = e.valueWith? c (env.set x v) m :=
    fun hw e => Expr.valueWith?_substitute hw e
  -- an expression that is left alone keeps its value from one turn to the next
  have hKept : ∀ {t : Stmt} {env env' : Env}, t.Still w →
      (t.runWith c env').change.Keeps fun m => w.valueWith? c env m = some v := by
    intro t env env' hStill m m' hw hRun
    exact (hStill.value_of_change hRun).trans hw
  refine Stmt.ind ?decl ?loop ?guard ?branch ?store ?call ?block ?hole
  case decl =>
    intro s n b body ih env m hStill hw
    have hBody : body.Still w := hStill.of_mem (by simp [self_mem_nodes])
    rw [substitute, runWith, runWith]
    split
    · unfold Action.withLocal
      rw [ih env _ hBody ((hStill.value_exchange env m _).trans hw)]
    · exact ih env m hBody hw
  case loop =>
    intro s head body ih env m hStill hw
    have hBody : body.Still w := hStill.of_mem (by simp [self_mem_nodes])
    have hInside : ∀ (u : Int) (m : Memory), w.valueWith? c env m = some v →
        w.valueWith? c (env.set head.iter u) m = some v :=
      fun u m hw => (hStill.value_set env u m).trans hw
    have hTurn : ∀ (u : Int) (m : Memory), w.valueWith? c env m = some v →
        (if head.iter = x then body else body.substitute x w).runWith c (env.set head.iter u) m
          = body.runWith c ((env.set x v).set head.iter u) m := by
      intro u m hw
      by_cases hIter : head.iter = x
      · -- the loop sets the scalar itself, so its old value does not matter
        rw [if_pos hIter, hIter, Env.set_set]
      · rw [if_neg hIter, Env.set_comm env (Ne.symm hIter)]
        exact ih _ m hBody (hInside u m hw)
    rw [substitute]
    simp only [runWith, hHere hw]
    cases head.lower.valueWith? c (env.set x v) m with
    | none => rfl
    | some lower =>
      cases head.upper.valueWith? c (env.set x v) m with
      | none => rfl
      | some upper =>
        exact Action.inTurn_eqOn (P := fun m => w.valueWith? c env m = some v)
          (fun u _ => hKept hBody) (fun u _ => hTurn u) hw
  case guard =>
    intro s e body ih env m hStill hw
    rw [substitute]
    simp only [runWith, hHere hw, ih env m (hStill.of_mem (by simp [self_mem_nodes])) hw]
  case branch =>
    intro s e yes no ihYes ihNo env m hStill hw
    rw [substitute]
    simp only [runWith, hHere hw, ihYes env m (hStill.of_mem (by simp [self_mem_nodes])) hw,
      ihNo env m (hStill.of_mem (by simp [self_mem_nodes])) hw]
  case store =>
    intro s b is u env m _ hw
    have hSubscripts : Expr.valuesWith? c env m (is.map (Expr.substitute [(x, w)]))
        = Expr.valuesWith? c (env.set x v) m is := by
      rw [Expr.valuesWith?_eq_mapM, Expr.valuesWith?_eq_mapM]
      exact Expr.mapM_map_congr fun e _ => hHere hw e
    rw [substitute]
    simp only [runWith, hHere hw, hSubscripts]
  case call => exact fun s f args env m _ _ => rfl
  case block =>
    intro s ts ih env m hStill hw
    have hEach : ∀ t ∈ ts, t.Still w := fun t ht => hStill.of_mem (by
      rw [nodes_block]
      exact List.mem_cons_of_mem _ (List.mem_flatMap.mpr ⟨t, ht, self_mem_nodes t⟩))
    rw [substitute, runWith, runWith, runAllWith_eq_inTurn, runAllWith_eq_inTurn,
      substituteAll_eq_map, List.map_map]
    exact Action.inTurn_eqOn (P := fun m => w.valueWith? c env m = some v)
      (fun t ht => hKept (hEach t ht)) (fun t ht m => ih t ht env m (hEach t ht)) hw
  case hole => exact fun s env m _ _ => rfl

namespace Restructure

open Stmt (LabelledLoop)

/-! ## Counts -/

/-- The quotient rounded up is the least number of rounds that reaches a number. -/
theorem ceilQuotient_bounds {n k : Int} (hk : 0 < k) :
    n ≤ k * Expr.ceilQuotient n k ∧ k * Expr.ceilQuotient n k < n + k := by
  unfold Expr.ceilQuotient
  have hLow := Int.mul_fdiv_self_le (x := -n) hk
  have hHigh := Int.lt_mul_fdiv_self_add (x := -n) hk
  constructor
  · rw [Int.mul_neg]
    omega
  · rw [Int.mul_neg]
    omega

/-- The values of the old iterator in the order of two loops with these trip counts. -/
def roundValues (start outer inner : Int) : List Int :=
  (counting 0 outer).flatMap fun o => (counting 0 inner).map fun i => start + (i + inner * o)

/-- Trip counts reach an extent: one of them is zero when there is nothing to do, and otherwise
    there are enough rounds. -/
structure Reach (extent outer inner : Int) : Prop where
  none : extent ≤ 0 → outer ≤ 0 ∨ inner ≤ 0
  some : 0 < extent → 0 ≤ outer ∧ 0 ≤ inner ∧ extent ≤ inner * outer

namespace Reach

variable {extent outer inner : Int}

theorem roundValues_of_le (h : Reach extent outer inner) (hExtent : extent ≤ 0) (start : Int) :
    roundValues start outer inner = [] := by
  unfold roundValues
  rcases h.none hExtent with hNone | hNone
  · rw [counting_eq_nil hNone, List.flatMap_nil]
  · simp [counting_eq_nil hNone]

theorem roundValues_of_pos (h : Reach extent outer inner) (hExtent : 0 < extent) (start : Int) :
    roundValues start outer inner = counting start (start + inner * outer) := by
  obtain ⟨hOuter, hInner, _⟩ := h.some hExtent
  obtain ⟨A, rfl⟩ := Int.eq_ofNat_of_zero_le hOuter
  obtain ⟨B, rfl⟩ := Int.eq_ofNat_of_zero_le hInner
  exact flatMap_rounds start A B

/-- The values below the upper bound are those of the old loop. -/
theorem filter_roundValues (h : Reach extent outer inner) (start : Int) :
    (roundValues start outer inner).filter (· < start + extent)
      = counting start (start + extent) := by
  by_cases hExtent : extent ≤ 0
  · rw [h.roundValues_of_le hExtent, counting_eq_nil (by omega)]
    rfl
  · rw [h.roundValues_of_pos (by omega)]
    have hEnough := (h.some (by omega)).2.2
    exact filter_counting (by omega)

/-- Without a remainder no value lies beyond the upper bound. -/
theorem roundValues_exact (h : Reach extent outer inner)
    (hExact : 0 < extent → inner * outer = extent) (start : Int) :
    roundValues start outer inner = counting start (start + extent) := by
  by_cases hExtent : extent ≤ 0
  · rw [h.roundValues_of_le hExtent, counting_eq_nil (by omega)]
  · rw [h.roundValues_of_pos (by omega), hExact (by omega)]

end Reach

namespace SplitBy

/-- The trip counts of the outer and the inner loop, as numbers. -/
def tripNumbers (s : SplitBy) (extent count : Int) : Int × Int :=
  match s with
  | factor _ => (Expr.ceilQuotient extent count, count)
  | parts _ => (count, Expr.ceilQuotient extent count)

variable {s : SplitBy} {extent k : Int}

theorem reach_tripNumbers (hk : 0 < k) :
    Reach extent (s.tripNumbers extent k).1 (s.tripNumbers extent k).2 := by
  obtain ⟨hLow, hHigh⟩ := ceilQuotient_bounds (n := extent) hk
  have hNone : extent ≤ 0 → Expr.ceilQuotient extent k ≤ 0 := by
    intro hExtent
    by_contra hPositive
    have hMul : k * 1 ≤ k * Expr.ceilQuotient extent k :=
      Int.mul_le_mul_of_nonneg_left (by omega) (by omega)
    omega
  have hSome : 0 < extent → 0 ≤ Expr.ceilQuotient extent k := by
    intro hExtent
    by_contra hNegative
    have hMul : k * Expr.ceilQuotient extent k ≤ k * 0 :=
      Int.mul_le_mul_of_nonneg_left (by omega) (by omega)
    omega
  cases s with
  | factor c => exact ⟨fun h => .inl (hNone h), fun h => ⟨hSome h, Int.le_of_lt hk, hLow⟩⟩
  | parts c =>
    exact ⟨fun h => .inr (hNone h), fun h => ⟨Int.le_of_lt hk, hSome h, by rwa [Int.mul_comm]⟩⟩

/-- A count that divides the extent leaves no remainder. -/
theorem tripNumbers_exact (hk : 0 < k) (hDivides : k ∣ extent) :
    (s.tripNumbers extent k).2 * (s.tripNumbers extent k).1 = extent := by
  obtain ⟨q, rfl⟩ := hDivides
  obtain ⟨hLow, hHigh⟩ := ceilQuotient_bounds (n := k * q) hk
  have hQuotient : Expr.ceilQuotient (k * q) k = q := by
    unfold Expr.ceilQuotient
    rw [← Int.mul_neg, Int.mul_fdiv_cancel_left _ (Int.ne_of_gt hk), Int.neg_neg]
  cases s with
  | factor c => rw [tripNumbers, hQuotient]
  | parts c => rw [tripNumbers, hQuotient, Int.mul_comm]

end SplitBy

/-! ## Loops -/

/-- The two new iterators are different and do not occur in a loop. -/
structure SplitNames.New (names : SplitNames) (l : LabelledLoop) : Prop where
  outer : names.outerIter ∉ l.stmt.usedNames
  inner : names.innerIter ∉ l.stmt.usedNames
  different : names.outerIter ≠ names.innerIter

/-- The expressions that decide how often the new loops run. -/
def governing (l : LabelledLoop) (count : Expr) : List Expr := [l.head.lower, l.head.upper, count]

/-- A loop can be split by a count.

    * **loads**: neither the bounds nor the count reads a buffer;
    * **steady**: no loop in the body sets a scalar of them;
    * **apart**: the count does not mention the new iterators. -/
structure Splittable (names : SplitNames) (l : LabelledLoop) (count : Expr) : Prop where
  loads : ∀ e ∈ governing l count, e.buffers = []
  steady : ∀ e ∈ governing l count, ∀ x ∈ e.scalars, ¬ l.body.Binds x
  apart : names.outerIter ∉ count.scalars ∧ names.innerIter ∉ count.scalars

/-- The body of a loop leaves alone what decides how often the new loops run.

    * **still**: no loop in the body sets a scalar of the bounds and of the count, and the body
      neither writes nor declares a buffer that they read;
    * **apart**: the count does not mention the new iterators. -/
structure Undisturbed (names : SplitNames) (l : LabelledLoop) (count : Expr) : Prop where
  still : ∀ e ∈ governing l count, l.body.Still e
  apart : names.outerIter ∉ count.scalars ∧ names.innerIter ∉ count.scalars

/-- Nothing disturbs bounds and a count that read no buffer. -/
theorem Splittable.undisturbed {names : SplitNames} {l : LabelledLoop} {count : Expr}
    (h : Splittable names l count) : Undisturbed names l count where
  still e he :=
    ⟨h.steady e he, fun b hb => absurd hb (by simp [h.loads e he]),
      fun b hb => absurd hb (by simp [h.loads e he])⟩
  apart := h.apart

section loops

variable (l : LabelledLoop) (s : SplitBy) (names : SplitNames)

/-- The trip counts of the new loops. -/
def newCounts : Expr × Expr := s.tripCounts (l.head.upper.minus l.head.lower)

/-- The old iterator in terms of the new ones. -/
def oldIterator : Expr :=
  l.head.lower.plus
    ((Expr.var names.innerIter).add ((newCounts l s).2.mul (.var names.outerIter)))

/-- The body of the inner loop. -/
def newBody : Stmt :=
  let body := l.body.substitute l.head.iter (oldIterator l s names)
  if divides s.count (l.head.upper.minus l.head.lower) then body
  else .guard .unnumbered ((oldIterator l s names).lessThan l.head.upper) body

/-- The inner loop. -/
def newInner : Stmt :=
  .loop (.unnumbered (some names.innerLabel))
    { iter := names.innerIter, lower := .int 0, upper := (newCounts l s).2 } (newBody l s names)

theorem splitLoop_eq : splitLoop l s names =
    .loop (.unnumbered (some names.outerLabel))
      { l.head with iter := names.outerIter, lower := .int 0, upper := (newCounts l s).1 }
      (newInner l s names) := rfl

theorem newCounts_madeOf :
    (newCounts l s).1.MadeOf (governing l s.count) ∧ (newCounts l s).2.MadeOf (governing l s.count) := by
  have hCount : s.count.MadeOf (governing l s.count) := .of_mem (by simp [governing])
  have hExtent : (l.head.upper.minus l.head.lower).MadeOf (governing l s.count) :=
    .minus (.of_mem (by simp [governing])) (.of_mem (by simp [governing]))
  cases s with
  | factor c => exact ⟨hExtent.ceilQuot hCount, hCount⟩
  | parts c => exact ⟨hCount, hExtent.ceilQuot hCount⟩

theorem oldIterator_madeOf : (oldIterator l s names).MadeOf
    (.var names.innerIter :: .var names.outerIter :: governing l s.count) := by
  have hInner := (newCounts_madeOf l s).2
  refine .plus (.of_mem (by simp [governing])) (.binary (.of_mem (by simp)) (.binary ?_ ?_ _) _)
  · exact hInner.mono fun e he => List.mem_cons_of_mem _ (List.mem_cons_of_mem _ he)
  · exact .of_mem (by simp)

end loops

/-- Two environments agree but for the new iterators. -/
def SplitNames.Beside (names : SplitNames) (env env' : Env) : Prop :=
  ∀ x, x ≠ names.outerIter → x ≠ names.innerIter → env' x = env x

/-- Two memories agree on what the bounds and the count read. -/
def SameBounds (l : LabelledLoop) (count : Expr) (m m' : Memory) : Prop :=
  ∀ e ∈ governing l count, ∀ b ∈ e.buffers, m' b = m b

theorem SameBounds.refl (l : LabelledLoop) (count : Expr) (m : Memory) : SameBounds l count m m :=
  fun _ _ _ _ => rfl

section runs

variable {l : LabelledLoop} {s : SplitBy} {names : SplitNames} {c : Conventions} {env env' : Env}
  {m m' : Memory}

theorem SplitNames.New.agree (hNew : names.New l) (hEnv : names.Beside env env') {x : String}
    (hx : x ∈ l.stmt.usedNames) : env' x = env x := by
  apply hEnv
  · rintro rfl
    exact hNew.outer hx
  · rintro rfl
    exact hNew.inner hx

/-- What decides how often the loops run has one value for all values of the new iterators. -/
theorem Undisturbed.valueWith?_eq (h : Undisturbed names l s.count) (hNew : names.New l)
    (hEnv : names.Beside env env') (hSame : SameBounds l s.count m m') {e : Expr}
    (he : e.MadeOf (governing l s.count)) : e.valueWith? c env' m' = e.valueWith? c env m := by
  refine he.valueWith?_congr (fun d hd x hx => ?_) hSame
  by_cases hBound : d ∈ [l.head.lower, l.head.upper]
  · exact hNew.agree hEnv
      (Stmt.mem_usedNames.mpr ⟨l.stmt, Stmt.self_mem_nodes _, .inr ⟨d, hBound, .inl hx⟩⟩)
  · obtain rfl : d = s.count := by
      simp only [governing, List.mem_cons, List.not_mem_nil, or_false] at hd hBound
      tauto
    apply hEnv
    · rintro rfl
      exact h.apart.1 hx
    · rintro rfl
      exact h.apart.2 hx

theorem beside_set (names : SplitNames) (env : Env) (o i : Int) :
    names.Beside env ((env.set names.outerIter o).set names.innerIter i) := by
  intro x hOuter hInner
  rw [Env.set_ne hInner, Env.set_ne hOuter]

theorem beside_set_outer (names : SplitNames) (env : Env) (o : Int) :
    names.Beside env (env.set names.outerIter o) := fun _ hOuter _ => Env.set_ne hOuter

/-- The new iterators give the old one its value. -/
theorem valueWith?_oldIterator (h : Undisturbed names l s.count) (hNew : names.New l)
    {start inner : Int}
    (hLower : l.head.lower.valueWith? c env m = some start)
    (hInner : (newCounts l s).2.valueWith? c env m = some inner) {o i : Int}
    (hEnv : names.Beside env env') (hSame : SameBounds l s.count m m')
    (hOuterIter : env' names.outerIter = o) (hInnerIter : env' names.innerIter = i) :
    (oldIterator l s names).valueWith? c env' m' = some (start + (i + inner * o)) := by
  have hStart : l.head.lower.valueWith? c env' m' = some start := by
    rw [h.valueWith?_eq hNew hEnv hSame (.of_mem (by simp [governing])), hLower]
  have hCount : (newCounts l s).2.valueWith? c env' m' = some inner := by
    rw [h.valueWith?_eq hNew hEnv hSame (newCounts_madeOf l s).2, hInner]
  apply Expr.valueWith?_plus hStart
  simp only [Expr.add, Expr.mul, Expr.valueWith?, hCount, hOuterIter, hInnerIter,
    Option.bind_eq_bind, Option.bind_some, BinaryOp.valueWith?, BinaryOp.value?, Option.some_or]

/-- The old body leaves alone what takes the place of the old iterator. -/
theorem Undisturbed.still_oldIterator (h : Undisturbed names l s.count) (hNew : names.New l) :
    l.body.Still (oldIterator l s names) := by
  have hMade := oldIterator_madeOf l s names
  have hGoverning : ∀ b ∈ (oldIterator l s names).buffers,
      ∃ e ∈ governing l s.count, b ∈ e.buffers := by
    intro b hb
    obtain ⟨d, hd, hb⟩ := hMade.2 b hb
    rcases List.mem_cons.mp hd with rfl | hd
    · cases hb
    · rcases List.mem_cons.mp hd with rfl | hd
      · cases hb
      · exact ⟨d, hd, hb⟩
  refine ⟨fun y hy hBinds => ?_, fun b hb => ?_, fun b hb => ?_⟩
  · have hUsed : y ∈ l.stmt.usedNames :=
      Stmt.usedNames_subset (by simp [LabelledLoop.stmt, Stmt.self_mem_nodes]) hBinds.mem_usedNames
    obtain ⟨d, hd, hy⟩ := hMade.1 y hy
    rcases List.mem_cons.mp hd with rfl | hd
    · obtain rfl := List.mem_singleton.mp hy
      exact hNew.inner hUsed
    · rcases List.mem_cons.mp hd with rfl | hd
      · obtain rfl := List.mem_singleton.mp hy
        exact hNew.outer hUsed
      · exact (h.still d hd).scalars y hy hBinds
  · obtain ⟨e, he, hb⟩ := hGoverning b hb
    exact (h.still e he).declares b hb
  · obtain ⟨e, he, hb⟩ := hGoverning b hb
    exact (h.still e he).writes b hb

/-- The old body with the old iterator replaced runs like the old body in an old iteration. -/
theorem runWith_substituted (h : Undisturbed names l s.count) (hNew : names.New l) {x : Int}
    (hEnv : names.Beside env env') (hOld : (oldIterator l s names).valueWith? c env' m' = some x) :
    (l.body.substitute l.head.iter (oldIterator l s names)).runWith c env' m'
      = l.body.runWith c (env.set l.head.iter x) m' := by
  rw [Stmt.runWith_substitute l.body env' m' (h.still_oldIterator hNew) hOld]
  -- the new iterators are not used in the old body
  refine congrFun (Stmt.runWith_congr _ _ _ fun y hy => ?_) m'
  by_cases hIter : y = l.head.iter
  · rw [hIter, Env.set_self, Env.set_self]
  · rw [Env.set_ne hIter, Env.set_ne hIter]
    apply hNew.agree hEnv
    exact Stmt.usedNames_subset (by simp [LabelledLoop.stmt, Stmt.self_mem_nodes]) hy.mem_usedNames

/-- What happens for one value of the old iterator: nothing where the guard skips it. -/
def turn (c : Conventions) (l : LabelledLoop) (s : SplitBy) (env : Env) (stop x : Int) : Action :=
  if divides s.count (l.head.upper.minus l.head.lower) || decide (x < stop)
  then l.body.runWith c (env.set l.head.iter x) else .skip

/-- A turn keeps what the bounds and the count read. -/
theorem Undisturbed.keeps_turn (h : Undisturbed names l s.count) (c : Conventions) (env : Env)
    (stop x : Int) (m : Memory) :
    (turn c l s env stop x).change.Keeps (SameBounds l s.count m) := by
  unfold turn
  split
  · intro m' m'' hSame hRun e he b hb
    rw [Stmt.keeps_of_change hRun ((h.still e he).writes b hb), hSame e he b hb]
  · exact Change.keeps_skip

theorem runWith_newBody (h : Undisturbed names l s.count) (hNew : names.New l)
    {start stop inner : Int} (hLower : l.head.lower.valueWith? c env m = some start)
    (hUpper : l.head.upper.valueWith? c env m = some stop)
    (hInner : (newCounts l s).2.valueWith? c env m = some inner) (hSame : SameBounds l s.count m m')
    (o i : Int) :
    (newBody l s names).runWith c ((env.set names.outerIter o).set names.innerIter i) m'
      = turn c l s env stop (start + (i + inner * o)) m' := by
  have hEnv := beside_set names env o i
  have hOld : (oldIterator l s names).valueWith? c
      ((env.set names.outerIter o).set names.innerIter i) m' = some (start + (i + inner * o)) :=
    valueWith?_oldIterator h hNew hLower hInner hEnv hSame
      (by rw [Env.set_ne hNew.different, Env.set_self]) (Env.set_self _ _ _)
  have hBody : (l.body.substitute l.head.iter (oldIterator l s names)).runWith c
      ((env.set names.outerIter o).set names.innerIter i) m'
        = l.body.runWith c (env.set l.head.iter (start + (i + inner * o))) m' :=
    runWith_substituted h hNew hEnv hOld
  unfold newBody turn
  cases divides s.count (l.head.upper.minus l.head.lower) with
  | true => exact hBody
  | false =>
    have hStop : l.head.upper.valueWith? c
        ((env.set names.outerIter o).set names.innerIter i) m' = some stop := by
      rw [h.valueWith?_eq hNew hEnv hSame (.of_mem (by simp [governing])), hUpper]
    simp only [Bool.false_eq_true, if_false, Bool.false_or, decide_eq_true_eq, Stmt.runWith,
      Expr.lessThan, Expr.valueWith?, hOld, hStop, Option.bind_eq_bind, Option.bind_some,
      BinaryOp.valueWith?, BinaryOp.value?, Option.some_or, hBody]
    by_cases hLess : start + (i + inner * o) < stop
    · rw [if_neg (by simp [flag, hLess]), if_pos hLess]
    · rw [if_pos (by simp [flag, hLess]), if_neg hLess]

theorem runWith_newInner (h : Undisturbed names l s.count) (hNew : names.New l)
    {start stop inner : Int} (hLower : l.head.lower.valueWith? c env m = some start)
    (hUpper : l.head.upper.valueWith? c env m = some stop)
    (hInner : (newCounts l s).2.valueWith? c env m = some inner) (hSame : SameBounds l s.count m m')
    (o : Int) :
    (newInner l s names).runWith c (env.set names.outerIter o) m'
      = Action.inTurn (((counting 0 inner).map fun i => start + (i + inner * o)).map
          (turn c l s env stop)) m' := by
  have hCount : (newCounts l s).2.valueWith? c (env.set names.outerIter o) m' = some inner := by
    rw [h.valueWith?_eq hNew (beside_set_outer names env o) hSame (newCounts_madeOf l s).2, hInner]
  simp only [newInner, Stmt.runWith, Expr.valueWith?, hCount, Option.bind_eq_bind, Option.bind_some,
    List.map_map]
  exact Action.inTurn_eqOn (fun _ _ => h.keeps_turn c env _ _ m)
    (fun i _ m' hSame => runWith_newBody h hNew hLower hUpper hInner hSame o i) hSame

/-- The values of the trip counts, when the bounds have values. -/
theorem valueWith?_newCounts {start stop k : Int}
    (hLower : l.head.lower.valueWith? c env m = some start)
    (hUpper : l.head.upper.valueWith? c env m = some stop)
    (hCount : s.count.valueWith? c env m = some k) (hk : 0 < k) :
    (newCounts l s).1.valueWith? c env m = some (s.tripNumbers (stop - start) k).1
      ∧ (newCounts l s).2.valueWith? c env m = some (s.tripNumbers (stop - start) k).2 := by
  have hExtent : (l.head.upper.minus l.head.lower).valueWith? c env m = some (stop - start) := by
    rw [Expr.valueWith?_minus_eq, hUpper, hLower]
    rfl
  have hQuotient : ((l.head.upper.minus l.head.lower).ceilQuot s.count).valueWith? c env m
      = some (Expr.ceilQuotient (stop - start) k) := by
    rw [Expr.valueWith?_ceilQuot hCount hk, hExtent]
    rfl
  cases s with
  | factor c => exact ⟨hQuotient, hCount⟩
  | parts c => exact ⟨hCount, hQuotient⟩

/-- Without a guard the values of the old iterator are those of the old loop. -/
theorem roundValues_divides {start stop k : Int}
    (hLower : l.head.lower.valueWith? c env m = some start)
    (hUpper : l.head.upper.valueWith? c env m = some stop)
    (hCount : s.count.valueWith? c env m = some k) (hk : 0 < k) (hDivides : divides s.count (l.head.upper.minus l.head.lower) = true) :
    roundValues start (s.tripNumbers (stop - start) k).1 (s.tripNumbers (stop - start) k).2
      = counting start stop := by
  have hExtent : (l.head.upper.minus l.head.lower).valueWith? c env m = some (stop - start) := by
    rw [Expr.valueWith?_minus_eq, hUpper, hLower]
    rfl
  have hZero : k ∣ stop - start := by
    unfold divides at hDivides
    split at hDivides
    · rename_i n c hn hc
      rw [Expr.valueWith?_of_int? hn, Option.some.injEq] at hExtent
      rw [Expr.valueWith?_of_int? hc, Option.some.injEq] at hCount
      rw [← hExtent, ← hCount]
      exact Int.dvd_of_tmod_eq_zero (by simpa using hDivides)
    · cases hDivides
  rw [(SplitBy.reach_tripNumbers hk).roundValues_exact
    (fun _ => SplitBy.tripNumbers_exact hk hZero)]
  congr 1
  omega

/-- The values that are not skipped are those of the old loop. -/
theorem filter_roundValues {start stop k : Int}
    (hLower : l.head.lower.valueWith? c env m = some start)
    (hUpper : l.head.upper.valueWith? c env m = some stop)
    (hCount : s.count.valueWith? c env m = some k) (hk : 0 < k) :
    ((roundValues start (s.tripNumbers (stop - start) k).1
        (s.tripNumbers (stop - start) k).2).filter fun x =>
          divides s.count (l.head.upper.minus l.head.lower) || decide (x < stop))
      = counting start stop := by
  cases hDivides : divides s.count (l.head.upper.minus l.head.lower) with
  | true =>
    rw [roundValues_divides hLower hUpper hCount hk hDivides]
    exact List.filter_eq_self.mpr fun _ _ => rfl
  | false =>
    have hReach : Reach (stop - start) (s.tripNumbers (stop - start) k).1
        (s.tripNumbers (stop - start) k).2 := SplitBy.reach_tripNumbers hk
    have hFilter := hReach.filter_roundValues start
    rw [show start + (stop - start) = stop by omega] at hFilter
    exact hFilter

/-- When a bound has no value, neither loop runs. -/
theorem runWith_splitLoop_eq_none (h : Undisturbed names l s.count) (hNew : names.New l) {k : Int}
    (hCount : s.count.valueWith? c env m = some k) (hk : 0 < k)
    (hBounds : l.head.lower.valueWith? c env m = none ∨ l.head.upper.valueWith? c env m = none) :
    (splitLoop l s names).runWith c env m = none := by
  have hExtent : (l.head.upper.minus l.head.lower).valueWith? c env m = none := by
    rw [Expr.valueWith?_minus_eq]
    rcases hBounds with hNone | hNone
    · rw [hNone]
      cases l.head.upper.valueWith? c env m <;> rfl
    · rw [hNone]
      rfl
  have hQuotient : ((l.head.upper.minus l.head.lower).ceilQuot s.count).valueWith? c env m
      = none := by
    rw [Expr.valueWith?_ceilQuot hCount hk, hExtent]
    rfl
  rw [splitLoop_eq]
  cases s with
  | factor count =>
    have hOuter : (newCounts l (.factor count)).1.valueWith? c env m = none := hQuotient
    simp only [Stmt.runWith, Expr.valueWith?, hOuter, Option.bind_eq_bind, Option.bind_some,
      Option.bind_none]
  | parts count =>
    -- the outer loop starts, because its count is positive, and then the inner one does not
    have hOuter : (newCounts l (.parts count)).1.valueWith? c env m = some k := hCount
    have hInner : (newCounts l (.parts count)).2.valueWith? c (env.set names.outerIter 0) m
        = none := by
      rw [h.valueWith?_eq hNew (beside_set_outer names env 0) (.refl _ _ m)
        (newCounts_madeOf l (.parts count)).2]
      exact hQuotient
    have hFirst : (newInner l (.parts count) names).runWith c (env.set names.outerIter 0) m
        = none := by
      simp only [newInner, Stmt.runWith, Expr.valueWith?, hInner, Option.bind_eq_bind,
        Option.bind_some, Option.bind_none]
    simp only [Stmt.runWith, Expr.valueWith?, hOuter, Option.bind_eq_bind, Option.bind_some,
      counting_cons hk, List.map_cons, Action.inTurn_cons, Action.seq, hFirst, Option.bind_none]

/-- **Split loops**: where the count is positive the two loops run like the one in whose place they
    are. -/
theorem runWith_splitLoop (h : Undisturbed names l s.count) (hNew : names.New l) {k : Int}
    (hCount : s.count.valueWith? c env m = some k) (hk : 0 < k) :
    (splitLoop l s names).runWith c env m = l.stmt.runWith c env m := by
  cases hLower : l.head.lower.valueWith? c env m with
  | none =>
    rw [runWith_splitLoop_eq_none h hNew hCount hk (.inl hLower), LabelledLoop.stmt]
    simp only [Stmt.runWith, hLower, Option.bind_eq_bind, Option.bind_none]
  | some start =>
    cases hUpper : l.head.upper.valueWith? c env m with
    | none =>
      rw [runWith_splitLoop_eq_none h hNew hCount hk (.inr hUpper), LabelledLoop.stmt]
      simp only [Stmt.runWith, hLower, hUpper, Option.bind_eq_bind, Option.bind_some,
        Option.bind_none]
    | some stop =>
      obtain ⟨hOuter, hInner⟩ := valueWith?_newCounts hLower hUpper hCount hk
      -- rounds keep the bounds, so every round starts with the same ones
      have hRounds : Action.inTurn ((counting 0 (s.tripNumbers (stop - start) k).1).map fun o =>
            (newInner l s names).runWith c (env.set names.outerIter o)) m
          = Action.inTurn ((counting 0 (s.tripNumbers (stop - start) k).1).map fun o =>
            Action.inTurn (((counting 0 (s.tripNumbers (stop - start) k).2).map fun i =>
              start + (i + (s.tripNumbers (stop - start) k).2 * o)).map (turn c l s env stop))) m := by
        refine Action.inTurn_eqOn (fun o _ => ?_)
          (fun o _ m' hSame => runWith_newInner h hNew hLower hUpper hInner hSame o)
          (SameBounds.refl l s.count m)
        rw [Action.change_inTurn]
        refine Change.Keeps.inTurn fun a ha => ?_
        obtain ⟨t, ht, rfl⟩ := List.mem_map.mp ha
        obtain ⟨x, _, rfl⟩ := List.mem_map.mp ht
        exact h.keeps_turn c env stop x m
      rw [splitLoop_eq, LabelledLoop.stmt]
      simp only [Stmt.runWith, Expr.valueWith?, hOuter, hLower, hUpper, Option.bind_eq_bind,
        Option.bind_some, hRounds]
      rw [← filter_roundValues hLower hUpper hCount hk, ← Action.inTurn_filter, roundValues,
        List.map_flatMap, Action.inTurn_flatMap]
      rfl

theorem run_splitLoop_of_undisturbed (h : Undisturbed names l s.count) (hNew : names.New l)
    {fresh : Memory} {k : Int} (hCount : s.count.value? env m = some k) (hk : 0 < k) :
    (splitLoop l s names).run fresh env m = l.stmt.run fresh env m := by
  rw [← Expr.valueWith?_reference fresh] at hCount
  rw [← Stmt.runWith_reference, ← Stmt.runWith_reference, runWith_splitLoop h hNew hCount hk]

theorem run_splitLoop (h : Splittable names l s.count) (hNew : names.New l) {fresh : Memory}
    {k : Int} (hCount : s.count.value? env m = some k) (hk : 0 < k) :
    (splitLoop l s names).run fresh env m = l.stmt.run fresh env m :=
  run_splitLoop_of_undisturbed h.undisturbed hNew hCount hk

end runs

/-! ## Programs -/

variable {t t' : Stmt} {label a b : String} {factor nparts : Option Expr} {s r : SplitBy}

/-- A count is taken as it is, or as the positive constant that it reduces to. -/
theorem SplitBy.reduced_cases (h : s.reduced = .ok r) :
    r = s ∨ ∃ v, s.count.constant? = some v ∧ r.count = .int v := by
  unfold reduced at h
  cases hCount : s.count.constant? with
  | none =>
    rw [hCount] at h
    cases h
    exact .inl rfl
  | some v =>
    rw [hCount] at h
    dsimp only at h
    split at h
    · cases h
    · cases h
      refine .inr ⟨v, rfl, ?_⟩
      cases s <;> rfl

/-- A count that reduces to a constant is taken as that constant, which is positive. -/
theorem SplitBy.reduced_of_constant {v : Int} (hConstant : s.count.constant? = some v)
    (h : s.reduced = .ok r) : r.count = .int v ∧ 0 < v := by
  unfold reduced at h
  rw [hConstant] at h
  dsimp only at h
  split at h
  · cases h
  · rename_i hPositive
    cases h
    refine ⟨?_, by omega⟩
    cases s <;> rfl

theorem Splittable.reduced {names : SplitNames} {l : LabelledLoop}
    (h : Splittable names l s.count) (hReduced : s.reduced = .ok r) :
    Splittable names l r.count := by
  rcases SplitBy.reduced_cases hReduced with rfl | ⟨v, _, hCount⟩
  · exact h
  · have hBounds : ∀ e ∈ governing l r.count, e ∈ governing l s.count ∨ e = .int v := by
      intro e he
      simp only [governing, List.mem_cons, List.not_mem_nil, or_false] at he ⊢
      rcases he with rfl | rfl | rfl
      · exact .inl (.inl rfl)
      · exact .inl (.inr (.inl rfl))
      · exact .inr hCount
    refine ⟨fun e he => ?_, fun e he x hx => ?_, ?_⟩
    · rcases hBounds e he with he | rfl
      · exact h.loads e he
      · rfl
    · rcases hBounds e he with he | rfl
      · exact h.steady e he x hx
      · cases hx
    · rw [hCount]
      exact ⟨List.not_mem_nil, List.not_mem_nil⟩

/-- The names of the new iterators are new. -/
theorem splitNames_new {l : LabelledLoop} (hl : l.stmt ∈ t.nodes) :
    (splitNames t l.head.iter label).New l := by
  let supply := NameSupply.mk t.usedNames
  have hOuter := supply.choose_not_mem (l.head.iter ++ ".0")
  have hInner := (supply.fresh (l.head.iter ++ ".0")).2.choose_not_mem (l.head.iter ++ ".1")
  rw [NameSupply.fresh_snd, NameSupply.mem_used_reserve, not_or] at hInner
  have hUsed := Stmt.usedNames_subset hl
  exact ⟨fun h => hOuter (hUsed h), fun h => hInner.2 (hUsed h), fun h => hInner.1 h.symm⟩

/-- What a split puts in the place of a loop. -/
theorem split_cases (hArgs : SplitBy.ofArgs factor nparts = .ok s)
    (h : split t label factor nparts = .ok (t', a, b)) :
    ∃ l r, t.loopAt label = .ok l ∧ s.reduced = .ok r
      ∧ t' = t.update l.site.id fun _ => splitLoop l r (splitNames t l.head.iter label) := by
  obtain ⟨l, hFound, h⟩ := Outcome.bind_eq_ok.mp h
  rw [hArgs] at h
  obtain ⟨s', hSame, h⟩ := Outcome.bind_eq_ok.mp h
  cases hSame
  obtain ⟨r, hReduced, h⟩ := Outcome.bind_eq_ok.mp h
  cases h
  exact ⟨l, r, hFound, hReduced, rfl⟩

/-- The program runs as before after a loop was split by a constant count, under all
    conventions. -/
theorem change_split {c : Conventions} {v : Int} (hIds : t.ids.Nodup)
    (hArgs : SplitBy.ofArgs factor nparts = .ok s) (hConstant : s.count.constant? = some v)
    (h : split t label factor nparts = .ok (t', a, b))
    (hBounds : ∀ l, t.loopAt label = .ok l → ∀ e ∈ [l.head.lower, l.head.upper],
      e.buffers = [] ∧ ∀ x ∈ e.scalars, ¬ l.body.Binds x) (env : Env) :
    t'.change c env = t.change c env := by
  obtain ⟨l, r, hFound, hReduced, rfl⟩ := split_cases hArgs h
  have hMem := Stmt.mem_of_loopAt hFound
  obtain ⟨hCount, hv⟩ := SplitBy.reduced_of_constant hConstant hReduced
  have hSplittable : Splittable (splitNames t l.head.iter label) l r.count := by
    rw [hCount]
    refine ⟨fun e he => ?_, fun e he x hx => ?_, List.not_mem_nil, List.not_mem_nil⟩
    · rcases List.mem_append.mp (show e ∈ [l.head.lower, l.head.upper] ++ [.int v] from he)
        with he | he
      · exact (hBounds l hFound e he).1
      · rw [List.mem_singleton.mp he]
        rfl
    · rcases List.mem_append.mp (show e ∈ [l.head.lower, l.head.upper] ++ [.int v] from he)
        with he | he
      · exact (hBounds l hFound e he).2 x hx
      · rw [List.mem_singleton.mp he] at hx
        cases hx
  refine (Stmt.replaces_update t hIds hMem).change_eq (fun env' => ?_) env
  have hRun : (splitLoop l r (splitNames t l.head.iter label)).runWith c env'
      = l.stmt.runWith c env' :=
    funext fun m => runWith_splitLoop hSplittable.undisturbed (splitNames_new hMem) (by rw [hCount]; rfl) hv
  exact congrArg Action.change hRun

/-- A loop over a strip of unknown bounds. -/
def strip : LabelledLoop where
  site := ⟨1, some "L2"⟩
  head := { iter := "v", lower := .var "b", upper := .var "e" }
  body := .store ⟨2, none⟩ "y" [.var "i", .var "v"] (.add (.load "x" [.var "v"]) (.var "i"))

/-- The strip inside another loop, with a given statement in its place. -/
def around (inner : Stmt) : Stmt :=
  .loop ⟨0, some "L1"⟩ { iter := "i", lower := .int 0, upper := .int 2 } inner

/-- The strip in rounds of unknown length. -/
def strips : Stmt := splitLoop strip (.factor (.var "c")) ⟨"v.0", "v.1", "L2.0", "L2.1"⟩

end Restructure

end LoopNest

import LoopNest.Expr.Simplify
import LoopNest.Proofs.AffineForms
import LoopNest.Proofs.BuiltExprs

/-! # Values of simplified expressions

  A simplified expression has the value of the expression, in every environment in which the
  scalars lie in their ranges.

  Two rewrites, `a && true` to `a` and `!!a` to `a`, are right for truth values only. So values are
  compared as long as logical operators are applied to 0 and 1 (`Expr.logicalValue?`).

  * **Ranges** hold the values of affine expressions, so they decide comparisons rightly
    (`Ranges.compare?_eq`).
  * **Folding** is exact (`logicalValue?_of_fold?`).
  * **Simplification** keeps values (`logicalValue?_simplify`) and brings in no names
    (`simplify_madeOf`). -/

namespace LoopNest

/-! ## Truth values -/

/-- The number stands for a truth value. -/
def Truth (x : Int) : Prop := x = 0 ∨ x = 1

theorem flag_injective {p q : Bool} (h : flag p = flag q) : p = q := by
  cases p <;> cases q <;> first | rfl | cases h

/-- Logical operators take truth values, all others take all numbers. -/
def BinaryOp.Takes (op : BinaryOp) (x y : Int) : Prop :=
  op = .and ∨ op = .or → Truth x ∧ Truth y

def UnaryOp.Takes (op : UnaryOp) (x : Int) : Prop := op = .not → Truth x

namespace Expr

/-- The operands of the expression when it is a logical operation. -/
def logicalOperands : Expr → List Expr
  | .unary .not e => [e]
  | .binary .and a b => [a, b]
  | .binary .or a b => [a, b]
  | _ => []

/-- Whether all logical operators in an expression are applied to 0 and 1. -/
def isLogical (env : Env) (m : Memory) (e : Expr) : Bool :=
  e.parts.all fun p => p.logicalOperands.all fun o => [some 0, some 1].contains (o.value? env m)

/-- The value of an expression whose logical operators are applied to 0 and 1 only. -/
def logicalValue? (env : Env) (m : Memory) (e : Expr) : Option Int :=
  if e.isLogical env m then e.value? env m else none

variable {env : Env} {m : Memory} {r : Ranges} {a b e : Expr} {v x y : Int}

theorem logicalValue?_eq_some :
    e.logicalValue? env m = some v ↔ e.isLogical env m = true ∧ e.value? env m = some v := by
  unfold logicalValue?
  by_cases h : e.isLogical env m = true
  · simp [h]
  · simp [h]

theorem value?_of_logicalValue? (h : e.logicalValue? env m = some v) : e.value? env m = some v :=
  (logicalValue?_eq_some.mp h).2

@[simp] theorem logicalValue?_int (w : Int) : (Expr.int w).logicalValue? env m = some w := rfl

@[simp] theorem logicalValue?_bool (w : Bool) :
    (Expr.bool w).logicalValue? env m = some (flag w) := rfl

@[simp] theorem logicalValue?_var (name : String) :
    (Expr.var name).logicalValue? env m = some (env name) := rfl

@[simp] theorem logicalValue?_float (w : Float) : (Expr.float w).logicalValue? env m = none := by
  unfold logicalValue?
  rw [value?, ite_self]

theorem truth_iff (h : e.value? env m = some x) :
    [some 0, some 1].contains (e.value? env m) = true ↔ Truth x := by
  rw [h]
  simp [Truth]

theorem logicalValue?_unary {op : UnaryOp} :
    (Expr.unary op a).logicalValue? env m = some v ↔
      ∃ x, a.logicalValue? env m = some x ∧ op.Takes x ∧ op.value x = v := by
  have hParts : (Expr.unary op a).isLogical env m
      = (((Expr.unary op a).logicalOperands.all fun o =>
          [some 0, some 1].contains (o.value? env m)) && a.isLogical env m) := by
    rw [isLogical, parts, List.all_cons]
    rfl
  have hOwn : ∀ x, a.value? env m = some x → (((Expr.unary op a).logicalOperands.all fun o =>
      [some 0, some 1].contains (o.value? env m)) = true ↔ op.Takes x) := by
    intro x hx
    cases op with
    | neg => simp [logicalOperands, UnaryOp.Takes]
    | not =>
      rw [logicalOperands, List.all_cons, List.all_nil, Bool.and_true, truth_iff hx]
      simp [UnaryOp.Takes]
  rw [logicalValue?_eq_some, hParts, Bool.and_eq_true]
  simp only [value?, Option.bind_eq_bind, Option.bind_eq_some_iff, logicalValue?_eq_some,
    Option.pure_def, Option.some.injEq]
  constructor
  · rintro ⟨⟨hTakes, ha⟩, x, hx, rfl⟩
    exact ⟨x, ⟨ha, hx⟩, (hOwn x hx).mp hTakes, rfl⟩
  · rintro ⟨x, ⟨ha, hx⟩, hTakes, rfl⟩
    exact ⟨⟨(hOwn x hx).mpr hTakes, ha⟩, x, hx, rfl⟩

theorem logicalValue?_binary {op : BinaryOp} :
    (Expr.binary op a b).logicalValue? env m = some v ↔
      ∃ x y, a.logicalValue? env m = some x ∧ b.logicalValue? env m = some y ∧ op.Takes x y
        ∧ op.value? x y = some v := by
  have hParts : (Expr.binary op a b).isLogical env m
      = (((Expr.binary op a b).logicalOperands.all fun o =>
          [some 0, some 1].contains (o.value? env m))
        && (a.isLogical env m && b.isLogical env m)) := by
    rw [isLogical, parts, List.all_cons, List.all_append]
    rfl
  have hOwn : ∀ x y, a.value? env m = some x → b.value? env m = some y →
      (((Expr.binary op a b).logicalOperands.all fun o =>
        [some 0, some 1].contains (o.value? env m)) = true ↔ op.Takes x y) := by
    intro x y hx hy
    have hBoth : ([a, b].all fun o => [some 0, some 1].contains (o.value? env m)) = true ↔
        Truth x ∧ Truth y := by
      rw [List.all_cons, List.all_cons, List.all_nil, Bool.and_true, Bool.and_eq_true,
        truth_iff hx, truth_iff hy]
    unfold BinaryOp.Takes
    cases op
    case and => exact hBoth.trans (by simp)
    case or => exact hBoth.trans (by simp)
    all_goals simp [logicalOperands]
  rw [logicalValue?_eq_some, hParts, Bool.and_eq_true, Bool.and_eq_true]
  simp only [value?, Option.bind_eq_bind, Option.bind_eq_some_iff, logicalValue?_eq_some]
  constructor
  · rintro ⟨⟨hTakes, ha, hb⟩, x, hx, y, hy, hv⟩
    exact ⟨x, y, ⟨ha, hx⟩, ⟨hb, hy⟩, (hOwn x y hx hy).mp hTakes, hv⟩
  · rintro ⟨x, y, ⟨ha, hx⟩, ⟨hb, hy⟩, hTakes, hv⟩
    exact ⟨⟨(hOwn x y hx hy).mpr hTakes, ha, hb⟩, x, hx, y, hy, hv⟩

/-- The values of a list whose logical operators are applied to 0 and 1 only. -/
theorem mapM_logicalValue? {es : List Expr} {vs : List Int} :
    es.mapM (logicalValue? env m) = some vs ↔
      (es.all fun e => e.isLogical env m) = true ∧ values? env m es = some vs := by
  induction es generalizing vs with
  | nil => simp [values?]
  | cons e es ih =>
    simp only [List.mapM_cons, Option.bind_eq_bind, Option.bind_eq_some_iff, logicalValue?_eq_some,
      ih, List.all_cons, Bool.and_eq_true, values?]
    constructor
    · rintro ⟨v, ⟨he, hv⟩, ws, ⟨hes, hws⟩, hEq⟩
      exact ⟨⟨he, hes⟩, v, hv, ws, hws, hEq⟩
    · rintro ⟨⟨he, hes⟩, v, hv, ws, hws, hEq⟩
      exact ⟨v, ⟨he, hv⟩, ws, ⟨hes, hws⟩, hEq⟩

theorem logicalValue?_load {name : String} {is : List Expr} :
    (Expr.load name is).logicalValue? env m = some v ↔
      ∃ cell, is.mapM (logicalValue? env m) = some cell ∧ m name cell = some v := by
  have hParts : (Expr.load name is).isLogical env m = is.all fun e => e.isLogical env m := by
    rw [isLogical, parts, partsAll_eq_flatMap, List.all_cons, List.all_flatMap]
    rfl
  rw [logicalValue?_eq_some, hParts]
  simp only [value?, Option.bind_eq_bind, Option.bind_eq_some_iff, mapM_logicalValue?]
  constructor
  · rintro ⟨hAll, cell, hCell, hv⟩
    exact ⟨cell, ⟨hAll, hCell⟩, hv⟩
  · rintro ⟨cell, ⟨hAll, hCell⟩, hv⟩
    exact ⟨hAll, cell, hCell, hv⟩

end Expr

/-! ## Ranges -/

/-- The range of a form holds its value when the atoms lie in their intervals. -/
theorem Affine.Form.range_mem {f : Form String} {bound : String → Interval} {ν : String → Int}
    (h : ∀ x, (bound x).Mem (ν x)) : (f.range bound).Mem (f.eval ν) :=
  mem_range fun t _ => h t.1

namespace Affine.Interval

variable {d : Interval} {v : Int}

theorem neg_of_isNegative (h : d.isNegative = true) (hv : d.Mem v) : v < 0 := by
  obtain ⟨lo, hi⟩ := d
  cases hi with
  | none => cases h
  | some u =>
    have hBelow := hv.hi u rfl
    have hLess : u < 0 := by simpa [isNegative] using h
    omega

theorem pos_of_isPositive (h : d.isPositive = true) (hv : d.Mem v) : 0 < v := by
  obtain ⟨lo, hi⟩ := d
  cases lo with
  | none => cases h
  | some l =>
    have hAbove := hv.lo l rfl
    have hLess : 0 < l := by simpa [isPositive] using h
    omega

theorem nonneg_of_isNonNegative (h : d.isNonNegative = true) (hv : d.Mem v) : 0 ≤ v := by
  obtain ⟨lo, hi⟩ := d
  cases lo with
  | none => cases h
  | some l =>
    have hAbove := hv.lo l rfl
    have hLe : 0 ≤ l := by simpa [isNonNegative] using h
    omega

theorem nonpos_of_isNonPositive (h : d.isNonPositive = true) (hv : d.Mem v) : v ≤ 0 := by
  obtain ⟨lo, hi⟩ := d
  cases hi with
  | none => cases h
  | some u =>
    have hBelow := hv.hi u rfl
    have hLe : u ≤ 0 := by simpa [isNonPositive] using h
    omega

end Affine.Interval

namespace Expr

variable {env : Env} {m : Memory} {r : Ranges} {a b e : Expr} {v x y : Int}

/-- All scalars lie in their ranges. -/
def Ranges.Hold (r : Ranges) (env : Env) : Prop := ∀ name, (r.of name).Mem (env name)

theorem Ranges.hold_nil (env : Env) : Ranges.Hold [] env := fun _ => Affine.Interval.mem_unbounded _

/-- Ranges hold below a loop whose values are known. -/
theorem Ranges.Hold.cons (h : r.Hold env) (name : String) {values : Affine.Interval}
    (hv : values.Mem v) : Ranges.Hold ((name, values) :: r) (env.set name v) := by
  intro x
  unfold Ranges.of
  rw [List.lookup_cons]
  by_cases hx : x = name
  · subst hx
    rw [beq_self_eq_true, Env.set_self]
    exact hv
  · rw [beq_eq_false_iff_ne.mpr hx, Env.set_ne hx]
    exact h x

theorem Ranges.mem_of_range? (h : r.Hold env) {d : Affine.Interval} (hd : r.range? e = some d)
    (hv : e.value? env m = some v) : d.Mem v := by
  simp only [Ranges.range?, Option.bind_eq_bind, Option.bind_eq_some_iff, Option.pure_def,
    Option.some.injEq] at hd
  obtain ⟨f, hf, rfl⟩ := hd
  rw [value?_of_symbolic? hf, Option.some.injEq] at hv
  rw [← hv]
  exact Affine.Form.range_mem h

/-- **Comparisons**: what the ranges decide is right. -/
theorem Ranges.compare?_eq (h : r.Hold env) {op : BinaryOp} {w : Bool}
    (hw : r.compare? op a b = some w) (hx : a.value? env m = some x)
    (hy : b.value? env m = some y) : op.value? x y = some (flag w) := by
  simp only [Ranges.compare?, Option.bind_eq_bind, Option.bind_eq_some_iff] at hw
  obtain ⟨d, hd, hw⟩ := hw
  have hDiff : (a.sub b).value? env m = some (x - y) := by
    rw [sub, value?, hx, hy]
    rfl
  have hMem : d.Mem (x - y) := Ranges.mem_of_range? h hd hDiff
  have hNeg : d.isNegative = true → x < y := fun hd => by
    have hSign := Affine.Interval.neg_of_isNegative hd hMem
    omega
  have hPos : d.isPositive = true → y < x := fun hd => by
    have hSign := Affine.Interval.pos_of_isPositive hd hMem
    omega
  have hNonNeg : d.isNonNegative = true → y ≤ x := fun hd => by
    have hSign := Affine.Interval.nonneg_of_isNonNegative hd hMem
    omega
  have hNonPos : d.isNonPositive = true → x ≤ y := fun hd => by
    have hSign := Affine.Interval.nonpos_of_isNonPositive hd hMem
    omega
  have hEqual : (d.isNonNegative && d.isNonPositive) = true → x = y := fun hd => by
    rw [Bool.and_eq_true] at hd
    exact Int.le_antisymm (hNonPos hd.2) (hNonNeg hd.1)
  have hDifferent : (d.isNegative || d.isPositive) = true → x ≠ y := fun hd => by
    rcases (Bool.or_eq_true ..).mp hd with hd | hd
    · exact Int.ne_of_lt (hNeg hd)
    · exact (Int.ne_of_lt (hPos hd)).symm
  -- each operator is decided by the sign of the difference, one way or the other
  have hDecided : ∀ (yes no : Bool) (P : Prop) [Decidable P], (yes = true → P) →
      (no = true → ¬ P) → (if yes then some true else if no then some false else none) = some w →
        flag P = flag w := by
    intro yes no P _ hYes hNo hw
    cases yes with
    | true =>
      cases hw
      rw [decide_eq_true (hYes rfl)]
    | false => cases no with
      | true =>
        cases hw
        rw [decide_eq_false (hNo rfl)]
      | false => cases hw
  cases op <;> simp only [reduceCtorEq] at hw <;> rw [BinaryOp.value?, Option.some.injEq]
  case lt => exact hDecided _ _ (x < y) hNeg (fun hd => Int.not_lt.mpr (hNonNeg hd)) hw
  case le => exact hDecided _ _ (x ≤ y) hNonPos (fun hd => Int.not_le.mpr (hPos hd)) hw
  case gt => exact hDecided _ _ (y < x) hPos (fun hd => Int.not_lt.mpr (hNonPos hd)) hw
  case ge => exact hDecided _ _ (y ≤ x) hNonNeg (fun hd => Int.not_le.mpr (hNeg hd)) hw
  case eq => exact hDecided _ _ (x = y) hEqual hDifferent hw
  case ne => exact hDecided _ _ (x ≠ y) hDifferent (fun hd hNe => hNe (hEqual hd)) hw

/-! ## Folding -/

theorem eq_of_wordConstant? {w : Int} (h : wordConstant? w = some e) : e = .int w := by
  obtain ⟨u, hu, rfl⟩ := Option.map_eq_some_iff.mp h
  rw [(Word.checked_eq_some.mp hu).2]

/-- Folding integers is exact. -/
theorem logicalValue?_of_foldInts? {op : BinaryOp} (h : foldInts? op x y = some e)
    (hv : op.value? x y = some v) : e.logicalValue? env m = some v := by
  have hQuotient : ∀ {w : Int}, y ≠ 0 → (if y = 0 then none else some w) = some v → w = v := by
    intro w hy hw
    rw [if_neg hy] at hw
    exact Option.some.inj hw
  cases op <;> simp only [foldInts?, reduceCtorEq] at h <;> rw [BinaryOp.value?] at hv
  case add => rw [eq_of_wordConstant? h, logicalValue?_int, hv]
  case sub => rw [eq_of_wordConstant? h, logicalValue?_int, hv]
  case mul => rw [eq_of_wordConstant? h, logicalValue?_int, hv]
  case div =>
    split at h
    · rename_i hExact
      obtain ⟨k, rfl⟩ := Int.dvd_of_tmod_eq_zero hExact.2
      rw [eq_of_wordConstant? h, logicalValue?_int, ← hQuotient hExact.1 hv,
        Int.mul_tdiv_cancel_left k hExact.1, Int.mul_fdiv_cancel_left k hExact.1]
    · cases h
  case floorDiv =>
    split at h
    · rename_i hy
      rw [eq_of_wordConstant? h, logicalValue?_int, ← hQuotient hy hv]
    · cases h
  case ceilDiv =>
    split at h
    · rename_i hy
      rw [eq_of_wordConstant? h, logicalValue?_int, ← hQuotient hy hv]
      rfl
    · cases h
  case mod =>
    split at h
    · rename_i hy
      rw [eq_of_wordConstant? h, logicalValue?_int, ← hQuotient hy hv]
    · cases h
  all_goals
    cases h
    exact hv

theorem logicalValue?_of_foldBools? {op : BinaryOp} {p q : Bool} (h : foldBools? op p q = some e)
    (hv : op.value? (flag p) (flag q) = some v) : e.logicalValue? env m = some v := by
  cases op <;> simp only [foldBools?, reduceCtorEq] at h <;> cases h <;>
    rw [logicalValue?_bool, ← hv] <;> cases p <;> cases q <;> rfl

/-- **Folding** keeps values. -/
theorem logicalValue?_of_fold? {op : BinaryOp} (h : fold? op a b = some e)
    (ha : a.logicalValue? env m = some x) (hb : b.logicalValue? env m = some y)
    (hv : op.value? x y = some v) : e.logicalValue? env m = some v := by
  unfold fold? at h
  split at h
  · cases ha
    cases hb
    exact logicalValue?_of_foldInts? h hv
  · rw [logicalValue?_float] at ha
    cases ha
  · cases ha
    cases hb
    exact logicalValue?_of_foldBools? h hv
  · cases h

/-! ## One operator -/

theorem eq_of_isInt {w : Int} (h : a.isInt w = true) : a = .int w := by
  cases a <;> simp [isInt, int?] at h
  rw [h]

theorem eq_of_isBool {w : Bool} (h : a.isBool w = true) : a = .bool w := by
  cases a <;> simp [isBool] at h
  rw [h]

theorem value_of_isInt {w u : Int} (h : e.isInt w = true) (hu : e.logicalValue? env m = some u) :
    u = w := by
  rw [eq_of_isInt h] at hu
  exact (Option.some.inj hu).symm

theorem value_of_isBool {w : Bool} {u : Int} (h : e.isBool w = true)
    (hu : e.logicalValue? env m = some u) : u = flag w := by
  rw [eq_of_isBool h] at hu
  exact (Option.some.inj hu).symm

section reduce

variable (ha : a.logicalValue? env m = some x) (hb : b.logicalValue? env m = some y)
include ha hb

theorem logicalValue?_reduce_add :
    (reduce r .add a b).logicalValue? env m = some (x + y) := by
  delta reduce
  dsimp only
  split
  · rename_i hZero
    rw [hb, value_of_isInt hZero ha, Int.zero_add]
  · split
    · rename_i hZero
      rw [ha, value_of_isInt hZero hb, Int.add_zero]
    · exact logicalValue?_binary.mpr ⟨x, y, ha, hb, by simp [BinaryOp.Takes], rfl⟩

theorem logicalValue?_reduce_sub :
    (reduce r .sub a b).logicalValue? env m = some (x - y) := by
  delta reduce
  dsimp only
  split
  · rename_i hZero
    rw [ha, value_of_isInt hZero hb, Int.sub_zero]
  · split
    · rename_i hSame
      have hValues : a.valueWith? (.reference .blank) env m = b.valueWith? (.reference .blank) env m :=
        valueWith?_of_same a b (Bool.and_eq_true_iff.mp hSame).1
      rw [valueWith?_reference, valueWith?_reference, value?_of_logicalValue? ha,
        value?_of_logicalValue? hb, Option.some.injEq] at hValues
      rw [logicalValue?_int, hValues, Int.sub_self]
    · exact logicalValue?_binary.mpr ⟨x, y, ha, hb, by simp [BinaryOp.Takes], rfl⟩

theorem logicalValue?_reduce_mul :
    (reduce r .mul a b).logicalValue? env m = some (x * y) := by
  delta reduce
  dsimp only
  split
  · rename_i hOne
    rw [hb, value_of_isInt hOne ha, Int.one_mul]
  · split
    · rename_i hOne
      rw [ha, value_of_isInt hOne hb, Int.mul_one]
    · split
      · rename_i hZero
        rw [logicalValue?_int, value_of_isInt (Bool.and_eq_true_iff.mp hZero).1 ha, Int.zero_mul]
      · split
        · rename_i hZero
          rw [logicalValue?_int, value_of_isInt (Bool.and_eq_true_iff.mp hZero).1 hb, Int.mul_zero]
        · exact logicalValue?_binary.mpr ⟨x, y, ha, hb, by simp [BinaryOp.Takes], rfl⟩

theorem logicalValue?_reduce_and (hx : Truth x) (hy : Truth y) :
    (reduce r .and a b).logicalValue? env m = some (flag (x ≠ 0 ∧ y ≠ 0)) := by
  delta reduce
  dsimp only
  split
  · rename_i hTrue
    rw [hb, value_of_isBool hTrue ha]
    rcases hy with rfl | rfl <;> rfl
  · split
    · rename_i hTrue
      rw [ha, value_of_isBool hTrue hb]
      rcases hx with rfl | rfl <;> rfl
    · split
      · rename_i hFalse
        rw [logicalValue?_bool]
        rcases (Bool.or_eq_true ..).mp hFalse with hFalse | hFalse
        · rw [value_of_isBool hFalse ha]
          simp [flag]
        · rw [value_of_isBool hFalse hb]
          simp [flag]
      · exact logicalValue?_binary.mpr ⟨x, y, ha, hb, fun _ => ⟨hx, hy⟩, rfl⟩

theorem logicalValue?_reduce_or (hx : Truth x) (hy : Truth y) :
    (reduce r .or a b).logicalValue? env m = some (flag (x ≠ 0 ∨ y ≠ 0)) := by
  delta reduce
  dsimp only
  split
  · rename_i hFalse
    rw [hb, value_of_isBool hFalse ha]
    rcases hy with rfl | rfl <;> rfl
  · split
    · rename_i hFalse
      rw [ha, value_of_isBool hFalse hb]
      rcases hx with rfl | rfl <;> rfl
    · split
      · rename_i hTrue
        rw [logicalValue?_bool]
        rcases (Bool.or_eq_true ..).mp hTrue with hTrue | hTrue
        · rw [value_of_isBool hTrue ha]
          simp [flag]
        · rw [value_of_isBool hTrue hb]
          simp [flag]
      · exact logicalValue?_binary.mpr ⟨x, y, ha, hb, fun _ => ⟨hx, hy⟩, rfl⟩

/-- What the ranges decide about the operands is right. -/
theorem compared (hr : r.Hold env) {op : BinaryOp} {w : Bool} (hw : r.compare? op a b = some w) :
    op.value? x y = some (flag w) :=
  Ranges.compare?_eq hr hw (value?_of_logicalValue? ha) (value?_of_logicalValue? hb)

theorem logicalValue?_reduce_min (hr : r.Hold env) :
    (reduce r .min a b).logicalValue? env m = some (min x y) := by
  delta reduce
  dsimp only
  split
  · rename_i hw
    have hLe := of_decide_eq_true (flag_injective (Option.some.inj (compared ha hb hr hw)))
    rw [ha, Int.min_eq_left hLe]
  · rename_i hw
    have hGt := of_decide_eq_false (flag_injective (Option.some.inj (compared ha hb hr hw)))
    rw [hb, Int.min_eq_right (by omega)]
  · exact logicalValue?_binary.mpr ⟨x, y, ha, hb, by simp [BinaryOp.Takes], rfl⟩

theorem logicalValue?_reduce_max (hr : r.Hold env) :
    (reduce r .max a b).logicalValue? env m = some (max x y) := by
  delta reduce
  dsimp only
  split
  · rename_i hw
    have hGe := of_decide_eq_true (flag_injective (Option.some.inj (compared ha hb hr hw)))
    rw [ha, Int.max_eq_left hGe]
  · rename_i hw
    have hLt := of_decide_eq_false (flag_injective (Option.some.inj (compared ha hb hr hw)))
    rw [hb, Int.max_eq_right (by omega)]
  · exact logicalValue?_binary.mpr ⟨x, y, ha, hb, by simp [BinaryOp.Takes], rfl⟩

/-- **One operator** on operands that do not both fold keeps the value. -/
theorem logicalValue?_reduce (hr : r.Hold env) {op : BinaryOp} (hTakes : op.Takes x y)
    (hv : op.value? x y = some v) : (reduce r op a b).logicalValue? env m = some v := by
  have hSelf : (Expr.binary op a b).logicalValue? env m = some v :=
    logicalValue?_binary.mpr ⟨x, y, ha, hb, hTakes, hv⟩
  have hDivision : (y = 1 → op.value? x y = some x) →
      (if b.isInt 1 then a else .binary op a b).logicalValue? env m = some v := by
    intro hQuotient
    split
    · rename_i hOne
      rw [ha, ← hQuotient (value_of_isInt hOne hb), hv]
    · exact hSelf
  have hComparison : (∀ w, r.compare? op a b = some w → reduce r op a b = .bool w) →
      (r.compare? op a b = none → reduce r op a b = .binary op a b) →
        (reduce r op a b).logicalValue? env m = some v := by
    intro hDecided hOpen
    cases hw : r.compare? op a b with
    | some w => rw [hDecided w hw, logicalValue?_bool, ← compared ha hb hr hw, hv]
    | none => rw [hOpen hw, hSelf]
  cases op
  case add => rw [logicalValue?_reduce_add ha hb, ← hv, BinaryOp.value?]
  case sub => rw [logicalValue?_reduce_sub ha hb, ← hv, BinaryOp.value?]
  case mul => rw [logicalValue?_reduce_mul ha hb, ← hv, BinaryOp.value?]
  case div => exact hDivision fun hy => by rw [hy, BinaryOp.value?, if_neg (by decide), Int.fdiv_one]
  case floorDiv =>
    exact hDivision fun hy => by rw [hy, BinaryOp.value?, if_neg (by decide), Int.fdiv_one]
  case ceilDiv =>
    exact hDivision fun hy => by
      rw [hy, BinaryOp.value?, if_neg (by decide), Int.fdiv_one, Int.neg_neg]
  case mod => exact hSelf
  case and =>
    obtain ⟨hx, hy⟩ := hTakes (.inl rfl)
    rw [logicalValue?_reduce_and ha hb hx hy, ← hv, BinaryOp.value?]
  case or =>
    obtain ⟨hx, hy⟩ := hTakes (.inr rfl)
    rw [logicalValue?_reduce_or ha hb hx hy, ← hv, BinaryOp.value?]
  case min => rw [logicalValue?_reduce_min ha hb hr, ← hv, BinaryOp.value?]
  case max => rw [logicalValue?_reduce_max ha hb hr, ← hv, BinaryOp.value?]
  all_goals exact hComparison (fun w hw => by rw [reduce, hw]) fun hw => by rw [reduce, hw]

theorem logicalValue?_combine (hr : r.Hold env) {op : BinaryOp} (hTakes : op.Takes x y)
    (hv : op.value? x y = some v) : (combine r op a b).logicalValue? env m = some v := by
  unfold combine
  cases hFold : fold? op a b with
  | some e => exact logicalValue?_of_fold? hFold ha hb hv
  | none => exact logicalValue?_reduce ha hb hr hTakes hv

end reduce

theorem logicalValue?_combineUnary {op : UnaryOp} (ha : a.logicalValue? env m = some x)
    (hTakes : op.Takes x) : (combineUnary op a).logicalValue? env m = some (op.value x) := by
  have hSelf : (Expr.unary op a).logicalValue? env m = some (op.value x) :=
    logicalValue?_unary.mpr ⟨x, ha, hTakes, rfl⟩
  unfold combineUnary
  split
  · cases ha
    cases hNeg : Word.neg? x with
    | none => exact hSelf
    | some u =>
      rw [Option.elim_some, logicalValue?_int, ← (Word.neg?_eq_some.mp hNeg).2]
      rfl
  · rw [logicalValue?_float] at ha
    cases ha
  · cases ha
    rename_i w
    cases w <;> rfl
  · -- the operand of an inner `!` is a truth value
    obtain ⟨y, hy, hTruth, rfl⟩ := logicalValue?_unary.mp ha
    rw [hy]
    rcases hTruth rfl with rfl | rfl <;> rfl
  · exact hSelf

/-! ## Whole expressions -/

theorem mapM_simplify {is : List Expr} {cell : List Int}
    (hEach : ∀ i ∈ is, ∀ v, i.logicalValue? env m = some v →
      (i.simplify r).logicalValue? env m = some v)
    (h : is.mapM (logicalValue? env m) = some cell) :
    (is.map (simplify r)).mapM (logicalValue? env m) = some cell := by
  induction is generalizing cell with
  | nil => exact h
  | cons i is ih =>
    simp only [List.mapM_cons, Option.bind_eq_bind, Option.bind_eq_some_iff, List.map_cons] at h ⊢
    obtain ⟨v, hv, vs, hvs, hCell⟩ := h
    exact ⟨v, hEach i List.mem_cons_self v hv, vs,
      ih (fun j hj => hEach j (List.mem_cons_of_mem i hj)) hvs, hCell⟩

/-- **Simplification keeps values** where the scalars lie in their ranges. -/
theorem logicalValue?_simplify (hr : r.Hold env) :
    ∀ (e : Expr) (v : Int), e.logicalValue? env m = some v →
      (e.simplify r).logicalValue? env m = some v := by
  refine Expr.ind ?_ ?_ ?_ ?_ ?_ ?_ ?_
  · exact fun _ _ h => h
  · exact fun _ _ h => h
  · exact fun _ _ h => h
  · exact fun _ _ h => h
  · intro name is ih v h
    obtain ⟨cell, hCell, hv⟩ := logicalValue?_load.mp h
    rw [simplify, simplifyAll_eq_map]
    refine logicalValue?_load.mpr ⟨cell, ?_, hv⟩
    exact mapM_simplify ih hCell
  · intro op e ih v h
    obtain ⟨x, hx, hTakes, rfl⟩ := logicalValue?_unary.mp h
    rw [simplify]
    exact logicalValue?_combineUnary (ih x hx) hTakes
  · intro op a b iha ihb v h
    obtain ⟨x, y, hx, hy, hTakes, hv⟩ := logicalValue?_binary.mp h
    rw [simplify]
    exact logicalValue?_combine (iha x hx) (ihb y hy) hr hTakes hv

/-- The subscripts of a cell. -/
theorem mapM_logicalValue?_simplify (hr : r.Hold env) {is : List Expr} {cell : List Int}
    (h : is.mapM (logicalValue? env m) = some cell) :
    (is.map (simplify r)).mapM (logicalValue? env m) = some cell :=
  mapM_simplify (fun i _ => logicalValue?_simplify hr i) h

/-- The simplified negation of a condition is zero exactly when the condition is not. The condition
    itself need not be a truth value. -/
theorem value?_simplify_negation (hr : r.Hold env) (h : e.logicalValue? env m = some v) :
    ∃ u, (e.negation.simplify r).value? env m = some u ∧ (u = 0 ↔ v ≠ 0) := by
  have hInner := logicalValue?_simplify hr e v h
  have hFlag : ∀ v : Int, (flag (v = 0) = 0 ↔ v ≠ 0) := by
    intro v
    by_cases hv : v = 0 <;> simp [flag, hv]
  rw [negation, simplify]
  generalize e.simplify r = d at hInner
  unfold combineUnary
  split
  case h_3 =>
    cases hInner
    rename_i w _
    refine ⟨flag (!w), rfl, ?_⟩
    cases w <;> simp [flag]
  case h_4 =>
    obtain ⟨y, hy, hTruth, rfl⟩ := logicalValue?_unary.mp hInner
    refine ⟨y, value?_of_logicalValue? hy, ?_⟩
    -- the operand of an inner `!` is a truth value
    rcases hTruth rfl with rfl | rfl <;> simp [UnaryOp.value, flag]
  case h_5 =>
    refine ⟨flag (v = 0), ?_, hFlag v⟩
    rw [value?, value?_of_logicalValue? hInner]
    rfl
  all_goals contradiction

/-- An affine expression has no logical operators. -/
theorem logicalValue?_of_symbolic? (env : Env) (m : Memory) :
    ∀ (e : Expr) (f : Affine.Form String), e.symbolic? = some f →
      e.logicalValue? env m = some (f.eval env) := by
  refine Expr.ind ?_ ?_ ?_ ?_ ?_ ?_ ?_
  · intro w f h
    exact value?_of_symbolic? h env m
  · intro w f h
    simp [symbolic?, linear?] at h
  · intro w f h
    simp [symbolic?, linear?] at h
  · intro x f h
    exact value?_of_symbolic? h env m
  · intro b is _ f h
    simp [symbolic?, linear?] at h
  · intro op e ih f h
    have hValue := value?_of_symbolic? h env m
    cases op with
    | not => simp [symbolic?, linear?] at h
    | neg =>
      simp only [symbolic?, linear?, Option.bind_eq_bind, Option.bind_eq_some_iff] at h
      obtain ⟨g, hg, _⟩ := h
      have hOperand := ih g hg
      rw [value?, value?_of_logicalValue? hOperand] at hValue
      exact logicalValue?_unary.mpr ⟨_, hOperand, by simp [UnaryOp.Takes], Option.some.inj hValue⟩
  · intro op a b iha ihb f h
    have hValue := value?_of_symbolic? h env m
    simp only [symbolic?, linear?, Option.bind_eq_bind, Option.bind_eq_some_iff] at h
    obtain ⟨g, hg, g', hg', hf⟩ := h
    have hLeft := iha g hg
    have hRight := ihb g' hg'
    rw [value?, value?_of_logicalValue? hLeft, value?_of_logicalValue? hRight] at hValue
    refine logicalValue?_binary.mpr ⟨_, _, hLeft, hRight, ?_, hValue⟩
    rintro (rfl | rfl) <;> cases hf

/-- Replacing the scalar `x` by an expression changes the value as setting `x` does. -/
theorem logicalValue?_substitute {x : String} {w : Expr} {u : Int}
    (hw : w.logicalValue? env m = some u) :
    ∀ e : Expr, (e.substitute [(x, w)]).logicalValue? env m = e.logicalValue? (env.set x u) m := by
  refine Expr.ind ?_ ?_ ?_ ?_ ?_ ?_ ?_
  · exact fun _ => rfl
  · intro v
    show (Expr.float v).logicalValue? env m = _
    rw [logicalValue?_float, logicalValue?_float]
  · exact fun _ => rfl
  · intro y
    by_cases hy : y = x
    · subst hy
      simp [substitute, hw]
    · have hLookup : List.lookup y [(x, w)] = none := by
        rw [List.lookup_cons, beq_eq_false_iff_ne.mpr hy]
        rfl
      simp [substitute, hLookup, Env.set_ne hy]
  · intro b is ih
    apply Option.ext
    intro v
    rw [substitute, substituteAll_eq_map, logicalValue?_load, logicalValue?_load,
      mapM_map_congr ih]
  · intro op e ih
    apply Option.ext
    intro v
    rw [substitute, logicalValue?_unary, logicalValue?_unary, ih]
  · intro op a b iha ihb
    apply Option.ext
    intro v
    rw [substitute, logicalValue?_binary, logicalValue?_binary, iha, ihb]

/-! ## Names -/

theorem names_of_fold? {op : BinaryOp} (h : fold? op a b = some e) :
    e.scalars = [] ∧ e.buffers = [] := by
  unfold fold? at h
  split at h
  · cases op <;> simp only [foldInts?, reduceCtorEq] at h
    all_goals first
      | cases h
        exact ⟨rfl, rfl⟩
      | rw [eq_of_wordConstant? h]
        exact ⟨rfl, rfl⟩
      | split at h
        · rw [eq_of_wordConstant? h]
          exact ⟨rfl, rfl⟩
        · cases h
  · cases op <;> cases h <;> exact ⟨rfl, rfl⟩
  · cases op <;> cases h <;> exact ⟨rfl, rfl⟩
  · cases h

/-- What an operator makes of its operands is one of them, a constant or the operation itself. -/
theorem reduce_cases (r : Ranges) (op : BinaryOp) (a b : Expr) :
    reduce r op a b = a ∨ reduce r op a b = b ∨ reduce r op a b = .binary op a b
      ∨ (reduce r op a b).scalars = [] ∧ (reduce r op a b).buffers = [] := by
  cases op <;> rw [reduce] <;> repeat' split
  all_goals first
    | exact .inl rfl
    | exact .inr (.inl rfl)
    | exact .inr (.inr (.inl rfl))
    | exact .inr (.inr (.inr ⟨rfl, rfl⟩))

/-- An operator brings in no names. -/
theorem combine_madeOf (r : Ranges) (op : BinaryOp) (a b : Expr) :
    (combine r op a b).MadeOf [a, b] := by
  have ha : a.MadeOf [a, b] := .of_mem (by simp)
  have hb : b.MadeOf [a, b] := .of_mem (by simp)
  unfold combine
  cases hFold : fold? op a b with
  | some e =>
    rw [Option.getD_some]
    exact .constant (names_of_fold? hFold).1 (names_of_fold? hFold).2 _
  | none =>
    rw [Option.getD_none]
    rcases reduce_cases r op a b with hCase | hCase | hCase | ⟨hScalars, hBuffers⟩
    · rwa [hCase]
    · rwa [hCase]
    · rw [hCase]
      exact ha.binary hb op
    · exact .constant hScalars hBuffers _

theorem combineUnary_madeOf (op : UnaryOp) (a : Expr) : (combineUnary op a).MadeOf [a] := by
  unfold combineUnary
  split
  · rename_i w
    cases Word.neg? w with
    | none => exact (MadeOf.refl _).unary _
    | some v => exact .int v _
  · exact .constant rfl rfl _
  · exact .constant rfl rfl _
  · exact .operand _ _
  · exact (MadeOf.refl _).unary _

/-- **No new names**: a simplified expression mentions only names that the expression mentions. -/
theorem simplify_madeOf (r : Ranges) : ∀ e : Expr, (e.simplify r).MadeOf [e] := by
  refine Expr.ind ?_ ?_ ?_ ?_ ?_ ?_ ?_
  · exact fun _ => .refl _
  · exact fun _ => .refl _
  · exact fun _ => .refl _
  · exact fun _ => .refl _
  · intro b is ih
    rw [simplify, simplifyAll_eq_map]
    refine .load fun j hj => ?_
    obtain ⟨i, hi, rfl⟩ := List.mem_map.mp hj
    exact (ih i hi).single (.subscript b hi)
  · intro op e ih
    exact (combineUnary_madeOf op _).single (ih.single (.operand op e))
  · intro op a b iha ihb
    refine (combine_madeOf r op _ _).trans fun d hd => ?_
    rcases List.mem_cons.mp hd with rfl | hd
    · exact iha.single (.left op a b)
    · rw [List.mem_singleton.mp hd]
      exact ihb.single (.right op a b)

theorem scalars_simplify (r : Ranges) (name : String) (e : Expr)
    (h : name ∈ (e.simplify r).scalars) : name ∈ e.scalars := by
  simpa using (simplify_madeOf r e).1 name h

end Expr

end LoopNest

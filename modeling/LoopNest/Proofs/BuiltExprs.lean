import LoopNest.Expr.Simplify
import LoopNest.Proofs.Evaluation

/-! # Expressions that are built from others

  Transformations build bounds and subscripts with `Expr.plus`, `Expr.minus` and `Expr.ceilQuot`, which
  fold constants on the way.

  * What is built mentions only names of its parts (`Expr.MadeOf`).
  * It has the value that the operator gives for the values of its parts, and none when a part has
    none (`Expr.valueWith?_minus_eq`, `Expr.valueWith?_ceilQuot`). -/

namespace LoopNest.Expr

/-! ## Quotients -/

/-- A quotient is the first operand over one, the quotient of two constants, or left as it is. -/
theorem ceilQuot_cases (a b : Expr) :
    a.ceilQuot b = a ∧ b.int? = some 1 ∨ a.ceilQuot b = .binary .ceilDiv a b
      ∨ ∃ x y, a.int? = some x ∧ b.int? = some y ∧ a.ceilQuot b = .int (ceilQuotient x y) := by
  unfold ceilQuot
  split
  · rename_i x y hx hy
    split
    · exact .inr (.inr ⟨x, y, hx, hy, rfl⟩)
    · exact .inr (.inl rfl)
  · rename_i y _ hy
    split
    · rename_i hOne
      exact .inl ⟨rfl, hOne ▸ hy⟩
    · exact .inr (.inl rfl)
  · exact .inr (.inl rfl)

/-! ## Names -/

/-- Every name in an expression is one of some others. -/
def MadeOf (e : Expr) (es : List Expr) : Prop :=
  (∀ x ∈ e.scalars, ∃ d ∈ es, x ∈ d.scalars) ∧ ∀ b ∈ e.buffers, ∃ d ∈ es, b ∈ d.buffers

namespace MadeOf

variable {a b e : Expr} {es : List Expr}

theorem of_mem (h : e ∈ es) : e.MadeOf es := ⟨fun _ hx => ⟨e, h, hx⟩, fun _ hb => ⟨e, h, hb⟩⟩

theorem int (v : Int) (es : List Expr) : (Expr.int v).MadeOf es := by
  constructor
  · intro x hx
    cases hx
  · intro b hb
    cases hb

theorem binary (ha : a.MadeOf es) (hb : b.MadeOf es) (op : BinaryOp) :
    (Expr.binary op a b).MadeOf es := by
  constructor
  · intro x hx
    rw [scalars_binary, List.mem_append] at hx
    exact hx.elim (ha.1 x) (hb.1 x)
  · intro b' hb'
    rw [buffers_binary, List.mem_append] at hb'
    exact hb'.elim (ha.2 b') (hb.2 b')

theorem plus (ha : a.MadeOf es) (hb : b.MadeOf es) : (a.plus b).MadeOf es := by
  rcases plus_cases a b with ⟨hEq, _⟩ | ⟨hEq, _⟩ | hEq | ⟨x, y, _, _, hEq⟩
  · rwa [hEq]
  · rwa [hEq]
  · rw [hEq]
    exact ha.binary hb .add
  · rw [hEq]
    exact .int _ es

theorem minus (ha : a.MadeOf es) (hb : b.MadeOf es) : (a.minus b).MadeOf es := by
  rcases minus_cases a b with ⟨hEq, _⟩ | hEq | ⟨x, y, _, _, hEq⟩
  · rwa [hEq]
  · rw [hEq]
    exact ha.binary hb .sub
  · rw [hEq]
    exact .int _ es

theorem ceilQuot (ha : a.MadeOf es) (hb : b.MadeOf es) : (a.ceilQuot b).MadeOf es := by
  rcases ceilQuot_cases a b with ⟨hEq, _⟩ | hEq | ⟨x, y, _, _, hEq⟩
  · rwa [hEq]
  · rw [hEq]
    exact ha.binary hb .ceilDiv
  · rw [hEq]
    exact .int _ es

theorem mono {fs : List Expr} (h : e.MadeOf es) (hSub : es ⊆ fs) : e.MadeOf fs := by
  constructor
  · intro x hx
    obtain ⟨d, hd, hx⟩ := h.1 x hx
    exact ⟨d, hSub hd, hx⟩
  · intro b hb
    obtain ⟨d, hd, hb⟩ := h.2 b hb
    exact ⟨d, hSub hd, hb⟩

theorem refl (e : Expr) : e.MadeOf [e] := .of_mem (List.mem_singleton_self e)

theorem trans {fs : List Expr} (h : e.MadeOf es) (hEach : ∀ d ∈ es, d.MadeOf fs) : e.MadeOf fs := by
  constructor
  · intro x hx
    obtain ⟨d, hd, hx⟩ := h.1 x hx
    exact (hEach d hd).1 x hx
  · intro b hb
    obtain ⟨d, hd, hb⟩ := h.2 b hb
    exact (hEach d hd).2 b hb

theorem single {d : Expr} {fs : List Expr} (h : e.MadeOf [d]) (hd : d.MadeOf fs) : e.MadeOf fs :=
  h.trans fun _ hMem => List.mem_singleton.mp hMem ▸ hd

theorem constant (hScalars : e.scalars = []) (hBuffers : e.buffers = []) (es : List Expr) :
    e.MadeOf es := by
  constructor
  · simp [hScalars]
  · simp [hBuffers]

theorem operand (op : UnaryOp) (e : Expr) : e.MadeOf [.unary op e] := by
  constructor
  · simp
  · simp

theorem unary (h : e.MadeOf es) (op : UnaryOp) : (Expr.unary op e).MadeOf es := by
  constructor
  · simpa using h.1
  · simpa using h.2

theorem left (op : BinaryOp) (a b : Expr) : a.MadeOf [.binary op a b] := by
  constructor
  · simp +contextual
  · simp +contextual

theorem right (op : BinaryOp) (a b : Expr) : b.MadeOf [.binary op a b] := by
  constructor
  · simp +contextual
  · simp +contextual

theorem subscript {is : List Expr} (b : String) (h : e ∈ is) : e.MadeOf [.load b is] := by
  constructor
  · intro x hx
    exact ⟨_, List.mem_singleton_self _, by simpa using ⟨e, h, hx⟩⟩
  · intro x hx
    exact ⟨_, List.mem_singleton_self _, by simpa using .inr ⟨e, h, hx⟩⟩

/-- A read of the same buffer with other subscripts. -/
theorem load {b : String} {is js : List Expr} (h : ∀ j ∈ js, j.MadeOf [.load b is]) :
    (Expr.load b js).MadeOf [.load b is] := by
  constructor
  · intro x hx
    rw [scalars_load] at hx
    obtain ⟨j, hj, hx⟩ := List.mem_flatMap.mp hx
    exact (h j hj).1 x hx
  · intro x hx
    rw [buffers_load, List.mem_cons] at hx
    rcases hx with rfl | hx
    · exact ⟨_, List.mem_singleton_self _, by simp⟩
    · obtain ⟨j, hj, hx⟩ := List.mem_flatMap.mp hx
      exact (h j hj).2 x hx

/-- The scalars and the buffers of the parts decide the value. -/
theorem valueWith?_congr (h : e.MadeOf es) {c : Conventions} {env env' : Env} {m m' : Memory}
    (hScalars : ∀ d ∈ es, ∀ x ∈ d.scalars, env' x = env x)
    (hBuffers : ∀ d ∈ es, ∀ b ∈ d.buffers, m' b = m b) :
    e.valueWith? c env' m' = e.valueWith? c env m := by
  apply valueWith?_congr_names
  · intro x hx
    obtain ⟨d, hd, hx⟩ := h.1 x hx
    exact hScalars d hd x hx
  · intro b hb
    obtain ⟨d, hd, hb⟩ := h.2 b hb
    exact hBuffers d hd b hb

end MadeOf

theorem mem_scalars_minus {a b : Expr} {x : String} (h : x ∈ (a.minus b).scalars) :
    x ∈ a.scalars ∨ x ∈ b.scalars := by
  have hMade : (a.minus b).MadeOf [a, b] := .minus (.of_mem (by simp)) (.of_mem (by simp))
  simpa using hMade.1 x h

theorem mem_buffers_minus {a b : Expr} {x : String} (h : x ∈ (a.minus b).buffers) :
    x ∈ a.buffers ∨ x ∈ b.buffers := by
  have hMade : (a.minus b).MadeOf [a, b] := .minus (.of_mem (by simp)) (.of_mem (by simp))
  simpa using hMade.2 x h

/-! ## Values -/

variable {c : Conventions} {env : Env} {m : Memory} {a b : Expr}

/-- A difference has a value when both operands have. -/
theorem valueWith?_minus_eq : (a.minus b).valueWith? c env m
    = (a.valueWith? c env m).bind fun x => (b.valueWith? c env m).map fun y => x - y := by
  rcases minus_cases a b with ⟨hEq, hZero⟩ | hEq | ⟨x, y, hx, hy, hEq⟩
  · rw [hEq, valueWith?_of_int? hZero]
    cases a.valueWith? c env m <;> simp
  · rw [hEq, sub, valueWith?]
    cases a.valueWith? c env m <;> cases b.valueWith? c env m <;> rfl
  · rw [hEq, valueWith?_of_int? hx, valueWith?_of_int? hy]
    rfl

/-- A quotient by a positive number has a value when the first operand has. -/
theorem valueWith?_ceilQuot {k : Int} (hb : b.valueWith? c env m = some k) (hk : 0 < k) :
    (a.ceilQuot b).valueWith? c env m
      = (a.valueWith? c env m).map fun x => ceilQuotient x k := by
  rcases ceilQuot_cases a b with ⟨hEq, hOne⟩ | hEq | ⟨x, y, hx, hy, hEq⟩
  · obtain rfl : 1 = k := Option.some.inj ((valueWith?_of_int? hOne).symm.trans hb)
    rw [hEq]
    cases a.valueWith? c env m <;> simp [ceilQuotient]
  · rw [hEq, valueWith?, hb]
    cases a.valueWith? c env m with
    | none => rfl
    | some x => simp [BinaryOp.valueWith?, BinaryOp.value?, ceilQuotient, Int.ne_of_gt hk]
  · obtain rfl : y = k := Option.some.inj ((valueWith?_of_int? hy).symm.trans hb)
    rw [hEq, valueWith?_of_int? hx]
    rfl

end LoopNest.Expr

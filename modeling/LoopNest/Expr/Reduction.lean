import LoopNest.Expr.Basic

/-! # Reductions

  A store `b[i] = b[i] op e`, or `b[i] = e op b[i]`, is a reduction when `op` commutes and
  associates and `e` does not read `b`. Instances of such stores may run in any order. -/

namespace LoopNest

/-- The commutative and associative operators. -/
inductive ReduceOp where
  | add
  | mul
  | min
  | max
deriving DecidableEq, Repr, Inhabited

namespace ReduceOp

def ofBinary? : BinaryOp → Option ReduceOp
  | .add => some add
  | .mul => some mul
  | .min => some min
  | .max => some max
  | _ => none

def toBinary : ReduceOp → BinaryOp
  | add => .add
  | mul => .mul
  | min => .min
  | max => .max

@[simp] theorem ofBinary?_toBinary (op : ReduceOp) : ofBinary? op.toBinary = some op := by
  cases op <;> rfl

theorem toBinary_of_ofBinary? {o : BinaryOp} {op : ReduceOp} (h : ofBinary? o = some op) :
    op.toBinary = o := by
  cases o <;> simp [ofBinary?] at h <;> subst h <;> rfl

def symbol (op : ReduceOp) : String := op.toBinary.symbol

/-- The neutral integer within the range of an integer type. -/
def neutralInt (op : ReduceOp) (least greatest : Int) : Int :=
  match op with
  | add => 0
  | mul => 1
  | min => greatest
  | max => least

/-- The neutral floating point number. -/
def neutralFloat : ReduceOp → Float
  | add => 0.0
  | mul => 1.0
  | min => 1.0 / 0.0
  | max => -1.0 / 0.0

/-- The neutral element among the values of a type. Truth values have none. -/
def neutral? (op : ReduceOp) : ElemType → Option Expr
  | .int32 => some (.int (op.neutralInt (-2147483648) 2147483647))
  | .int64 => some (.int (op.neutralInt (-9223372036854775808) 9223372036854775807))
  | .float32 | .float64 => some (.float op.neutralFloat)
  | .bool => none

/-- The expression `acc op value`. -/
def combine (op : ReduceOp) (acc value : Expr) : Expr := .binary op.toBinary acc value

end ReduceOp

namespace Expr

/-- Whether the expression reads the cell `buffer[indices]`. -/
def isCell (e : Expr) (buffer : String) (indices : List Expr) : Bool :=
  match e with
  | .load b is => b == buffer && sameAll is indices
  | _ => false

/-- The operator and the other operand when storing `value` to `buffer[indices]` is a reduction. -/
def reduction? (buffer : String) (indices : List Expr) (value : Expr) : Option (ReduceOp × Expr) :=
  match value with
  | .binary op lhs rhs => do
    let op ← ReduceOp.ofBinary? op
    if lhs.isCell buffer indices && !rhs.reads buffer then some (op, rhs)
    else if rhs.isCell buffer indices && !lhs.reads buffer then some (op, lhs)
    else none
  | _ => none

end Expr

end LoopNest

import LoopNest.Expr.Basic
import LoopNest.Semantics.Memory

/-! # Values of expressions

  Expressions have integer values. Truth values are 0 and 1, and every number other than 0 counts as
  true. Division rounds down, except that `ceildiv` rounds up.

  `Expr.value?` has no answer when a number is divided by zero, when an element without content is
  read and when the expression holds a float constant. -/

namespace LoopNest

/-- A truth value as a number. -/
def flag (b : Bool) : Int := if b then 1 else 0

/-- The value of an operator; none for a division by zero. -/
def BinaryOp.value? (op : BinaryOp) (x y : Int) : Option Int :=
  match op with
  | .add => some (x + y)
  | .sub => some (x - y)
  | .mul => some (x * y)
  | .div | .floorDiv => if y = 0 then none else some (x.fdiv y)
  | .ceilDiv => if y = 0 then none else some (-((-x).fdiv y))
  | .mod => if y = 0 then none else some (x.fmod y)
  | .min => some (Min.min x y)
  | .max => some (Max.max x y)
  | .lt => some (flag (x < y))
  | .le => some (flag (x ≤ y))
  | .gt => some (flag (y < x))
  | .ge => some (flag (y ≤ x))
  | .eq => some (flag (x = y))
  | .ne => some (flag (x ≠ y))
  | .and => some (flag (x ≠ 0 ∧ y ≠ 0))
  | .or => some (flag (x ≠ 0 ∨ y ≠ 0))

def UnaryOp.value : UnaryOp → Int → Int
  | .neg, x => -x
  | .not, x => flag (x = 0)

namespace Expr

mutual
/-- The value of an expression. -/
def value? (env : Env) (m : Memory) : Expr → Option Int
  | .int v => some v
  | .float _ => none
  | .bool b => some (flag b)
  | .var x => some (env x)
  | .load b is => do m b (← values? env m is)
  | .unary op e => return op.value (← value? env m e)
  | .binary op a b => do op.value? (← value? env m a) (← value? env m b)
/-- The values of all expressions of a list. -/
def values? (env : Env) (m : Memory) : List Expr → Option (List Int)
  | [] => some []
  | e :: es => do
    let v ← value? env m e
    return v :: (← values? env m es)
end

end Expr

end LoopNest

import LoopNest.Expr.Linear

/-! # Simplified expressions

  Constants are folded, neutral and absorbing operands disappear, and comparisons, minima and maxima
  are decided where the ranges of the scalars allow it.

  * `fold?` evaluates an operator on two constants of one kind.
  * `Ranges` knows what values the enclosing iterators take; `Ranges.compare?` decides comparisons.
  * `combine` applies one operator to operands that are already simplified.
  * `simplify` works from the leaves to the root, so `combine` sees simplified operands only.

  Folding on integers is exact: a result outside the 64-bit word, a division by zero and a division
  that leaves a remainder are not folded. -/

namespace LoopNest.Expr

open Affine (Interval)

/-! ## Constants -/

/-- A constant of the word. -/
def wordConstant? (v : Int) : Option Expr := (Word.checked v).map .int

/-- Least integer above the quotient. -/
def ceilQuotient (x y : Int) : Int := -((-x).fdiv y)

/-- Value of an operator on two integers. -/
def foldInts? (op : BinaryOp) (x y : Int) : Option Expr :=
  match op with
  | .add => wordConstant? (x + y)
  | .sub => wordConstant? (x - y)
  | .mul => wordConstant? (x * y)
  | .div => if y ≠ 0 ∧ x.tmod y = 0 then wordConstant? (x.tdiv y) else none
  | .floorDiv => if y ≠ 0 then wordConstant? (x.fdiv y) else none
  | .ceilDiv => if y ≠ 0 then wordConstant? (ceilQuotient x y) else none
  | .mod => if y ≠ 0 then wordConstant? (x.fmod y) else none
  | .min => some (.int (min x y))
  | .max => some (.int (max x y))
  | .lt => some (.bool (x < y))
  | .le => some (.bool (x ≤ y))
  | .gt => some (.bool (y < x))
  | .ge => some (.bool (y ≤ x))
  | .eq => some (.bool (x = y))
  | .ne => some (.bool (x ≠ y))
  | .and | .or => none

/-- The smaller of two numbers; an undefined one loses. -/
def floatMin (x y : Float) : Float :=
  if x.isNaN then y else if y.isNaN then x else if x < y then x else y

/-- The larger of two numbers; an undefined one loses. -/
def floatMax (x y : Float) : Float :=
  if x.isNaN then y else if y.isNaN then x else if y < x then x else y

/-- Value of an operator on two floating point numbers. -/
def foldFloats? (op : BinaryOp) (x y : Float) : Option Expr :=
  match op with
  | .add => some (.float (x + y))
  | .sub => some (.float (x - y))
  | .mul => some (.float (x * y))
  | .div => some (.float (x / y))
  | .min => some (.float (floatMin x y))
  | .max => some (.float (floatMax x y))
  | .lt => some (.bool (x < y))
  | .le => some (.bool (x ≤ y))
  | .gt => some (.bool (y < x))
  | .ge => some (.bool (y ≤ x))
  | _ => none

/-- Value of an operator on two truth values. -/
def foldBools? (op : BinaryOp) (x y : Bool) : Option Expr :=
  match op with
  | .and => some (.bool (x && y))
  | .or => some (.bool (x || y))
  | .eq => some (.bool (x == y))
  | .ne => some (.bool (x != y))
  | _ => none

/-- Value of an operator on two constants of one kind. -/
def fold? (op : BinaryOp) : Expr → Expr → Option Expr
  | .int x, .int y => foldInts? op x y
  | .float x, .float y => foldFloats? op x y
  | .bool x, .bool y => foldBools? op x y
  | _, _ => none

/-! ## Ranges -/

/-- The values of the enclosing iterators, innermost first. Other scalars are unbounded. -/
abbrev Ranges := List (String × Interval)

namespace Ranges

/-- The values of one scalar. -/
def of (r : Ranges) (name : String) : Interval := (r.lookup name).getD .unbounded

/-- The values of an affine expression. -/
def range? (r : Ranges) (e : Expr) : Option Interval := do
  return (← e.symbolic?).range r.of

/-- Decides a comparison of two expressions from the range of their difference. -/
def compare? (r : Ranges) (op : BinaryOp) (a b : Expr) : Option Bool := do
  let d ← r.range? (a.sub b)
  let decided (yes no : Bool) : Option Bool := if yes then some true else if no then some false else none
  match op with
  | .lt => decided d.isNegative d.isNonNegative
  | .le => decided d.isNonPositive d.isPositive
  | .gt => decided d.isPositive d.isNonPositive
  | .ge => decided d.isNonNegative d.isNegative
  | .eq => decided (d.isNonNegative && d.isNonPositive) (d.isNegative || d.isPositive)
  | .ne => decided (d.isNegative || d.isPositive) (d.isNonNegative && d.isNonPositive)
  | _ => none

/-- Whether an expression is known to be an integer: it is affine in the scalars. -/
def integral (r : Ranges) (e : Expr) : Bool := (r.range? e).isSome

end Ranges

/-! ## One operator -/

/-- Whether the expression is the integer `v`. -/
def isInt (e : Expr) (v : Int) : Bool := e.int? == some v

/-- Whether the expression is the truth value `v`. -/
def isBool (e : Expr) (v : Bool) : Bool :=
  match e with
  | .bool w => w == v
  | _ => false

/-- Applies an operator to operands that do not both fold. -/
def reduce (r : Ranges) (op : BinaryOp) (a b : Expr) : Expr :=
  match op with
  | .add => if a.isInt 0 then b else if b.isInt 0 then a else .binary op a b
  | .sub =>
    if b.isInt 0 then a
    else if a == b && r.integral a then .int 0
    else .binary op a b
  | .mul =>
    if a.isInt 1 then b
    else if b.isInt 1 then a
    else if a.isInt 0 && r.integral b then .int 0
    else if b.isInt 0 && r.integral a then .int 0
    else .binary op a b
  | .div | .floorDiv | .ceilDiv => if b.isInt 1 then a else .binary op a b
  | .and =>
    if a.isBool true then b
    else if b.isBool true then a
    else if a.isBool false || b.isBool false then .bool false
    else .binary op a b
  | .or =>
    if a.isBool false then b
    else if b.isBool false then a
    else if a.isBool true || b.isBool true then .bool true
    else .binary op a b
  | .min =>
    match r.compare? .le a b with
    | some true => a
    | some false => b
    | none => .binary op a b
  | .max =>
    match r.compare? .ge a b with
    | some true => a
    | some false => b
    | none => .binary op a b
  | .mod => .binary op a b
  | .lt | .le | .gt | .ge | .eq | .ne =>
    match r.compare? op a b with
    | some v => .bool v
    | none => .binary op a b

/-- Applies an operator to simplified operands. -/
def combine (r : Ranges) (op : BinaryOp) (a b : Expr) : Expr :=
  (fold? op a b).getD (reduce r op a b)

/-- Applies an operator to a simplified operand. -/
def combineUnary (op : UnaryOp) (a : Expr) : Expr :=
  match op, a with
  | .neg, .int v => (Word.neg? v).elim (.unary .neg (.int v)) .int
  | .neg, .float v => .float (-v)
  | .not, .bool v => .bool (!v)
  | .not, .unary .not e => e
  | op, a => .unary op a

/-! ## Whole expressions -/

mutual
/-- The simplified expression. -/
def simplify (r : Ranges) : Expr → Expr
  | .load b is => .load b (simplifyAll r is)
  | .unary op e => combineUnary op (simplify r e)
  | .binary op a b => combine r op (simplify r a) (simplify r b)
  | e => e
/-- The simplified expressions of a list. -/
def simplifyAll (r : Ranges) : List Expr → List Expr
  | [] => []
  | e :: es => simplify r e :: simplifyAll r es
end

theorem simplifyAll_eq_map (r : Ranges) (es : List Expr) : simplifyAll r es = es.map (simplify r) := by
  induction es with
  | nil => rfl
  | cons e es ih => simp [simplifyAll, ih]

/-! ## Folding while building

  Transformations build bounds and indices from parts. They fold constants on the way and leave all
  other sums as they are. -/

/-- A sum. -/
def plus (a b : Expr) : Expr :=
  match a.int?, b.int? with
  | some x, some y => (Word.add? x y).elim (if x = 0 then b else if y = 0 then a else a.add b) .int
  | some x, none => if x = 0 then b else a.add b
  | none, some y => if y = 0 then a else a.add b
  | none, none => a.add b

/-- A difference. -/
def minus (a b : Expr) : Expr :=
  match a.int?, b.int? with
  | some x, some y => (Word.sub? x y).elim (if y = 0 then a else a.sub b) .int
  | none, some y => if y = 0 then a else a.sub b
  | _, none => a.sub b

/-- A quotient rounded up. -/
def ceilQuot (a b : Expr) : Expr :=
  match a.int?, b.int? with
  | some x, some y => if 0 < y then .int (ceilQuotient x y) else .binary .ceilDiv a b
  | none, some y => if y = 1 then a else .binary .ceilDiv a b
  | _, none => .binary .ceilDiv a b

end LoopNest.Expr

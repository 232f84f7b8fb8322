/-! # Expressions

  Scalar and index expressions stand in loop bounds, subscripts, stored values and conditions.

  * `ElemType` is the type of a buffer's elements.
  * `UnaryOp` and `BinaryOp` are the operators.
  * `Expr` is the expression itself. Scalars (`var`) and buffers (`load`) are separate name spaces.

  An expression holds the list of its subscripts, so recursive functions come in pairs: one on
  expressions and one on lists of them. `Expr.ind` is the induction principle that goes with it. -/

namespace LoopNest

/-- The type of a buffer's elements. -/
inductive ElemType where
  | int32
  | int64
  | float32
  | float64
  | bool
deriving DecidableEq, Repr, Inhabited

namespace ElemType

/-- The name of the type in texts and files. -/
def name : ElemType → String
  | int32 => "int32"
  | int64 => "int64"
  | float32 => "float32"
  | float64 => "float64"
  | bool => "bool"

def isFloat : ElemType → Bool
  | float32 | float64 => true
  | _ => false

def isInt : ElemType → Bool
  | int32 | int64 => true
  | _ => false

/-- All types. -/
def all : List ElemType := [int32, int64, float32, float64, bool]

/-- Reads a type name or its short form. -/
def ofText? : String → Option ElemType
  | "int32" | "i32" => some int32
  | "int64" | "i64" => some int64
  | "float32" | "f32" => some float32
  | "float64" | "f64" => some float64
  | "bool" => some bool
  | _ => none

end ElemType

inductive UnaryOp where
  | neg
  | not
deriving DecidableEq, Repr, Inhabited

inductive BinaryOp where
  | add
  | sub
  | mul
  | div
  | floorDiv
  | ceilDiv
  | mod
  | min
  | max
  | lt
  | le
  | gt
  | ge
  | eq
  | ne
  | and
  | or
deriving DecidableEq, Repr, Inhabited

namespace BinaryOp

/-- The infix symbol, or the function name of an operator that is written as a call. -/
def symbol : BinaryOp → String
  | add => "+"
  | sub => "-"
  | mul => "*"
  | div => "/"
  | floorDiv => "floordiv"
  | ceilDiv => "ceildiv"
  | mod => "%"
  | min => "min"
  | max => "max"
  | lt => "<"
  | le => "<="
  | gt => ">"
  | ge => ">="
  | eq => "=="
  | ne => "!="
  | and => "&&"
  | or => "||"

/-- Operators written as a call of two arguments. -/
def isCallLike : BinaryOp → Bool
  | floorDiv | ceilDiv | min | max => true
  | _ => false

def isComparison : BinaryOp → Bool
  | lt | le | gt | ge | eq | ne => true
  | _ => false

end BinaryOp

/-- An expression. -/
inductive Expr where
  | int (value : Int)
  | float (value : Float)
  | bool (value : Bool)
  /-- A scalar: a loop iterator or a symbolic parameter. -/
  | var (name : String)
  /-- An element of a buffer. -/
  | load (buffer : String) (indices : List Expr)
  | unary (op : UnaryOp) (operand : Expr)
  | binary (op : BinaryOp) (lhs rhs : Expr)
deriving Repr, Inhabited

namespace Expr

/-- Induction over expressions, with one hypothesis for every subscript. -/
theorem ind {motive : Expr → Prop}
    (int : ∀ v, motive (.int v)) (float : ∀ v, motive (.float v)) (bool : ∀ v, motive (.bool v))
    (var : ∀ x, motive (.var x))
    (load : ∀ b is, (∀ i ∈ is, motive i) → motive (.load b is))
    (unary : ∀ op e, motive e → motive (.unary op e))
    (binary : ∀ op a b, motive a → motive b → motive (.binary op a b)) :
    ∀ e, motive e := by
  intro e
  refine @Expr.rec motive (fun es => ∀ i ∈ es, motive i) int float bool var load unary binary
    ?_ ?_ e
  · intro i h
    cases h
  · intro head tail hHead hTail i h
    rcases List.mem_cons.mp h with rfl | h
    · exact hHead
    · exact hTail i h

/-! ## Equality

  Two expressions are the same when they have the same shape, names and constants. Float constants
  are compared as numbers: zero has one value whatever its sign. -/

mutual
/-- Whether two expressions are the same. -/
def same : Expr → Expr → Bool
  | .int a, .int b => a == b
  | .float a, .float b => a == b
  | .bool a, .bool b => a == b
  | .var x, .var y => x == y
  | .load x is, .load y js => x == y && sameAll is js
  | .unary o a, .unary p b => o == p && same a b
  | .binary o a b, .binary p c d => o == p && same a c && same b d
  | _, _ => false
/-- Whether two lists of expressions are the same, place by place. -/
def sameAll : List Expr → List Expr → Bool
  | [], [] => true
  | a :: as, b :: bs => same a b && sameAll as bs
  | _, _ => false
end

instance : BEq Expr := ⟨same⟩

/-! ## Parts -/

mutual
/-- The expression and all its parts, outermost first and from left to right. -/
def parts : Expr → List Expr
  | .load b is => .load b is :: partsAll is
  | .unary o e => .unary o e :: parts e
  | .binary o a b => .binary o a b :: (parts a ++ parts b)
  | e => [e]
/-- The parts of every expression of a list. -/
def partsAll : List Expr → List Expr
  | [] => []
  | e :: es => parts e ++ partsAll es
end

/-- How many parts an expression has. -/
def size (e : Expr) : Nat := e.parts.length

/-- The scalar that a part names. -/
def scalar? : Expr → Option String
  | .var x => some x
  | _ => none

/-- The buffer that a part reads. -/
def buffer? : Expr → Option String
  | .load b _ => some b
  | _ => none

/-- The scalars an expression uses, in order of occurrence and with repetitions. -/
def scalars (e : Expr) : List String := e.parts.filterMap scalar?

/-- The buffers an expression reads, in order of occurrence and with repetitions. -/
def buffers (e : Expr) : List String := e.parts.filterMap buffer?

/-- Whether the scalar `name` occurs. -/
def mentions (e : Expr) (name : String) : Bool := e.scalars.contains name

/-- Whether the buffer `name` is read. -/
def reads (e : Expr) (name : String) : Bool := e.buffers.contains name

/-- The value of an integer constant. -/
def int? : Expr → Option Int
  | .int v => some v
  | _ => none

/-- Whether the expression is the scalar `name`. -/
def isVar (e : Expr) (name : String) : Bool := e.scalar? == some name

/-! ## Short forms -/

def add (a b : Expr) : Expr := .binary .add a b
def sub (a b : Expr) : Expr := .binary .sub a b
def mul (a b : Expr) : Expr := .binary .mul a b
def equals (a b : Expr) : Expr := .binary .eq a b
def lessThan (a b : Expr) : Expr := .binary .lt a b
def both (a b : Expr) : Expr := .binary .and a b
def negation (a : Expr) : Expr := .unary .not a

end Expr

end LoopNest

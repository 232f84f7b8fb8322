import LoopNest.Expr.Basic
import LoopNest.Json.Record
import LoopNest.Word

/-! # Expressions in JSON

  An expression is a variant: its case names what it is. Constants fit the 64-bit word. A floating
  point constant that is not finite is written as null and so cannot be read again.

  Every reader is told how freely variants may be spelled. -/

namespace LoopNest

open Json (Fields Spelling)

namespace ElemType

def toJson (e : ElemType) : Json := .str e.name

def ofJson? (s : Spelling) : Json → Option ElemType := Json.oneOf? s all name

end ElemType

namespace UnaryOp

/-- The name of the operator in files. -/
def caseName : UnaryOp → String
  | neg => "Neg"
  | not => "Not"

def all : List UnaryOp := [neg, not]

def toJson (op : UnaryOp) : Json := .str op.caseName

def ofJson? (s : Spelling) : Json → Option UnaryOp := Json.oneOf? s all caseName

end UnaryOp

namespace BinaryOp

/-- The name of the operator in files. -/
def caseName : BinaryOp → String
  | add => "Add"
  | sub => "Sub"
  | mul => "Mul"
  | div => "Div"
  | floorDiv => "FloorDiv"
  | ceilDiv => "CeilDiv"
  | mod => "Mod"
  | min => "Min"
  | max => "Max"
  | lt => "Lt"
  | le => "Le"
  | gt => "Gt"
  | ge => "Ge"
  | eq => "Eq"
  | ne => "Ne"
  | and => "And"
  | or => "Or"

def all : List BinaryOp :=
  [add, sub, mul, div, floorDiv, ceilDiv, mod, min, max, lt, le, gt, ge, eq, ne, and, or]

def toJson (op : BinaryOp) : Json := .str op.caseName

def ofJson? (s : Spelling) : Json → Option BinaryOp := Json.oneOf? s all caseName

end BinaryOp

namespace Expr

mutual
/-- An expression as a JSON value. -/
def toJson : Expr → Json
  | .int v => .ofCase "Int" (.int v)
  | .float v => .ofCase "Float" (.ofFloat v)
  | .bool v => .ofCase "Bool" (.bool v)
  | .var x => .ofCase "Var" (.str x)
  | .load b is => .ofCase "Load" (.obj [("var", .str b), ("indices", .arr (toJsons is))])
  | .unary op e => .ofCase "Unary" (.obj [("op", op.toJson), ("operand", toJson e)])
  | .binary op a b =>
    .ofCase "Binary" (.obj [("op", op.toJson), ("lhs", toJson a), ("rhs", toJson b)])
/-- Expressions as JSON values. -/
def toJsons : List Expr → List Json
  | [] => []
  | e :: es => toJson e :: toJsons es
end

/-- Reads an expression from a value that is nested at most `depth` levels deep. -/
def ofJsonWithin? (s : Spelling) : (depth : Nat) → Json → Option Expr
  | 0, _ => none
  | depth + 1, j => do
    match ← j.case? with
    | ("Int", some j) => .int <$> j.intWithin? Word.least Word.greatest
    | ("Float", some j) => .float <$> j.float?
    | ("Bool", some j) => .bool <$> j.bool?
    | ("Var", some j) => .var <$> j.text?
    | ("Load", some j) => do
      let fs ← j.caseFields? s ["var", "indices"]
      return .load (← fs.required "var" Json.text?)
        (← fs.required "indices" (Json.listOf? (ofJsonWithin? s depth)))
    | ("Unary", some j) => do
      let fs ← j.caseFields? s ["op", "operand"]
      return .unary (← fs.required "op" (UnaryOp.ofJson? s))
        (← fs.required "operand" (ofJsonWithin? s depth))
    | ("Binary", some j) => do
      let fs ← j.caseFields? s ["op", "lhs", "rhs"]
      return .binary (← fs.required "op" (BinaryOp.ofJson? s))
        (← fs.required "lhs" (ofJsonWithin? s depth)) (← fs.required "rhs" (ofJsonWithin? s depth))
    | _ => none

/-- Reads an expression. -/
def ofJson? (s : Spelling) (j : Json) : Option Expr := ofJsonWithin? s j.depth j

end Expr

end LoopNest

import LoopNest.Decimal.Layout
import LoopNest.Expr.Basic
import LoopNest.Text.Indented

/-! # The text of an expression

  Binary operators are written fully parenthesised, so the text shows the structure: `(a + b)`,
  `min(a, b)`, `x[i, (j + 1)]`, `-a`, `!a`. -/

namespace LoopNest.Expr

/-- Float constants are positional from `0.0001` up to sixteen digits. -/
def floatLayout : Decimal.Layout := { tie := .up, least := -4 }

mutual
/-- The text of an expression. -/
def text : Expr → String
  | .int v => toString v
  | .float v => floatLayout.text v
  | .bool v => if v then "true" else "false"
  | .var x => x
  | .load b is => b ++ "[" ++ Text.list ", " (texts is) ++ "]"
  | .unary .neg e => "-" ++ text e
  | .unary .not e => "!" ++ text e
  | .binary op a b =>
    if op.isCallLike then op.symbol ++ "(" ++ text a ++ ", " ++ text b ++ ")"
    else "(" ++ text a ++ " " ++ op.symbol ++ " " ++ text b ++ ")"
/-- The texts of a list of expressions. -/
def texts : List Expr → List String
  | [] => []
  | e :: es => text e :: texts es
end

@[simp] theorem texts_eq_map (es : List Expr) : texts es = es.map text := by
  induction es with
  | nil => rfl
  | cons e es ih => simp [texts, ih]

end LoopNest.Expr

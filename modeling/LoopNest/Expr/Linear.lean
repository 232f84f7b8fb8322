import LoopNest.Affine.Form
import LoopNest.Expr.Basic

/-! # Affine expressions

  Sums, differences, negations and constant multiples of affine expressions are affine. Everything
  else, and every expression whose form leaves the word, has no affine form. -/

namespace LoopNest.Expr

open Affine (Form)

variable {κ : Type} [Ord κ]

/-- The affine form of a product: one factor must be a constant. -/
def linearProduct (a b : Form κ) : Option (Form κ) :=
  match a.constant?, b.constant? with
  | some c, _ => b.scale? c
  | none, some c => a.scale? c
  | none, none => none

/-- The affine form of an expression whose scalars stand for the forms that `resolve` gives. -/
def linear? (resolve : String → Option (Form κ)) : Expr → Option (Form κ)
  | .int v => some (.ofConstant v)
  | .var x => resolve x
  | .unary .neg e => do (← linear? resolve e).scale? (-1)
  | .binary op lhs rhs => do
    let a ← linear? resolve lhs
    let b ← linear? resolve rhs
    match op with
    | .add => a.add? b
    | .sub => a.sub? b
    | .mul => linearProduct a b
    | _ => none
  | _ => none

/-- The affine form with every scalar as an atom of its own. -/
def symbolic? (e : Expr) : Option (Form String) := e.linear? fun x => some (.ofAtom x)

/-- The value of an expression that reduces to a constant. -/
def constant? (e : Expr) : Option Int := do (← e.symbolic?).constant?

/-- The distance from one bound to the other when it is the same for all values of the scalars. -/
def constantDistance? (begin stop : Expr) : Option Int := do
  let b ← begin.symbolic?
  let e ← stop.symbolic?
  (← e.sub? b).constant?

end LoopNest.Expr

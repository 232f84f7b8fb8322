import LoopNest.Restructure.Outcome

/-! # Permuting the dimensions of a buffer

  The dimensions of a local buffer may be stored in any order, as long as every access permutes its
  subscripts alike. Accesses with another number of subscripts and accesses below a declaration of
  the same name are not affected. -/

namespace LoopNest

namespace Expr

/-- The elements of a list in a given order. -/
def permuted {α : Type} (order : List Nat) (xs : List α) : List α := order.filterMap (xs[·]?)

mutual
/-- Permutes the subscripts in all reads of a buffer. -/
def permuteCells (name : String) (order : List Nat) : Expr → Expr
  | .load b is =>
    let is' := permuteCellsAll name order is
    if b == name && is.length == order.length then .load b (permuted order is') else .load b is'
  | .unary o e => .unary o (permuteCells name order e)
  | .binary o a b => .binary o (permuteCells name order a) (permuteCells name order b)
  | e => e
/-- Permutes the subscripts in every expression of a list. -/
def permuteCellsAll (name : String) (order : List Nat) : List Expr → List Expr
  | [] => []
  | e :: es => permuteCells name order e :: permuteCellsAll name order es
end

end Expr

namespace Stmt

mutual
/-- Permutes the subscripts in all accesses to a buffer, except below declarations of that name. -/
def permuteAccesses (name : String) (order : List Nat) : Stmt → Stmt
  | .decl s n b body =>
    .decl s n { b with shape := b.shape.map (Expr.permuteCells name order) }
      (if n == name then body else permuteAccesses name order body)
  | .loop s h body =>
    let h' := { h with
      lower := h.lower.permuteCells name order, upper := h.upper.permuteCells name order }
    .loop s h' (permuteAccesses name order body)
  | .guard s c body => .guard s (c.permuteCells name order) (permuteAccesses name order body)
  | .branch s c yes no =>
    .branch s (c.permuteCells name order) (permuteAccesses name order yes)
      (permuteAccesses name order no)
  | .store s b is v =>
    let is' := is.map (Expr.permuteCells name order)
    let is'' := if b == name && is.length == order.length then Expr.permuted order is' else is'
    .store s b is'' (v.permuteCells name order)
  | .call s f args => .call s f (args.map (mapArg (Expr.permuteCells name order)))
  | .block s stmts => .block s (permuteAccessesAll name order stmts)
  | .hole s => .hole s
/-- Permutes the subscripts in every statement of a list. -/
def permuteAccessesAll (name : String) (order : List Nat) : List Stmt → List Stmt
  | [] => []
  | t :: ts => permuteAccesses name order t :: permuteAccessesAll name order ts
end

/-- Whether a call passes the buffer on. -/
def passes (name : String) : Stmt → Bool
  | .call _ _ args => args.any fun
      | .buffer b => b == name
      | .value _ => false
  | _ => false

end Stmt

namespace Restructure

/-- Whether a list is a permutation of the numbers below `n`. -/
def isPermutation (order : List Nat) (n : Nat) : Bool :=
  order.length == n && order.all (· < n) && order.eraseDups.length == n

/-- Stores dimension `order[k]` of the buffer declared under a label as its dimension `k`. -/
def varReorder (t : Stmt) (label : String) (order : List Nat) : Outcome Stmt := do
  match t.labelled? label with
  | none => .error (.notFound label)
  | some (.decl site n b body) =>
    if b.access ≠ .cache then .error (.notACache n b.access.name)
    else if !isPermutation order b.rank then .error (.notAPermutation order b.rank)
    else if body.nodes.any (Stmt.passes n) then .error (.passedToCall n)
    else
      let permuted := Stmt.decl site n { b with shape := Expr.permuted order b.shape }
        (body.permuteAccesses n order)
      .ok (t.update site.id fun _ => permuted)
  | some _ => .error (.notADeclaration label)

end Restructure

end LoopNest

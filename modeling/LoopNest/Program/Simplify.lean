import LoopNest.Dependence.Access
import LoopNest.Expr.Simplify

/-! # Simplified programs

  All expressions are simplified with the ranges of the iterators around them. Statements that
  cannot run disappear: branches not taken, loops without iterations, declarations of local buffers
  around nothing. A sequential loop with one iteration is replaced by its body, and blocks without
  a label are dissolved.

  Replacing an iterator changes the body before it is simplified, so the recursion follows the
  height of the tree, which replacing does not change. -/

namespace LoopNest

/-- What simplification makes of a loop. -/
inductive LoopFate where
  /-- It never runs. -/
  | gone
  /-- It runs once and gives way to its body. -/
  | dissolved
  | kept
deriving DecidableEq, Repr, Inhabited

/-- A loop that runs in parallel is kept, also with one iteration. -/
def LoopHead.fate (h : LoopHead) : LoopFate :=
  match h.extent? with
  | none => .kept
  | some n => if n ≤ 0 then .gone else if n = 1 ∧ h.isParallel = false then .dissolved else .kept

/-- The values that an iterator takes. -/
def LoopHead.values (h : LoopHead) (r : Expr.Ranges) : Affine.Interval :=
  { lo := (r.range? h.lower).bind (·.lo)
    hi := ((r.range? h.upper).bind (·.hi)).bind (Word.sub? · 1) }

namespace Stmt

/-- The statements of a block without a label; any other statement by itself. -/
def dissolve : Stmt → List Stmt
  | .block ⟨id, some l⟩ stmts => [.block ⟨id, some l⟩ stmts]
  | .block ⟨_, none⟩ stmts => stmts
  | t => [t]

/-- What remains of a block whose statements are simplified. -/
def simplifiedBlock (s : Site) (stmts : List Stmt) : Option Stmt :=
  let flat := stmts.flatMap dissolve
  match s.label, flat with
  | none, [] => none
  | none, [t] => some t
  | _, _ => some (.block s flat)

/-- What remains of a declaration. Visible buffers stay declared, around an empty block if need
    be. -/
def simplifiedDecl (next : Nat) (s : Site) (n : String) (b : Buffer) : Option Stmt → Option Stmt
  | some body => some (.decl s n b body)
  | none =>
    if b.access = .cache then none else some (.decl s n b (.block ⟨next + s.id, none⟩ []))

/-- What remains of a condition with an alternative. -/
def simplifiedBranch (r : Expr.Ranges) (s : Site) (c : Expr) : Option Stmt → Option Stmt → Option Stmt
  | none, none => none
  | some yes, none => some (.guard s c yes)
  | some yes, some no => some (.branch s c yes no)
  | none, some no => some (.guard s (c.negation.simplify r) no)

/-- What remains of a statement that is no higher than `height`. Blocks that have to be created are
    numbered from `next` on, after the declaration that they stand in. -/
def simplifyTo (next : Nat) : (height : Nat) → Expr.Ranges → Stmt → Option Stmt
  | 0, _, t => some t
  | height + 1, r, t =>
    match t.mapOwnExprs (Expr.simplify r) with
    | .decl s n b body => simplifiedDecl next s n b (simplifyTo next height r body)
    | .loop s h body =>
      match h.fate with
      | .gone => none
      | .dissolved => simplifyTo next height r (body.substitute h.iter h.lower)
      | .kept => (simplifyTo next height ((h.iter, h.values r) :: r) body).map (.loop s h)
    | .guard s c body =>
      if c.isBool true then simplifyTo next height r body
      else if c.isBool false then none
      else (simplifyTo next height r body).map (.guard s c)
    | .branch s c yes no =>
      if c.isBool true then simplifyTo next height r yes
      else if c.isBool false then simplifyTo next height r no
      else simplifiedBranch r s c (simplifyTo next height r yes) (simplifyTo next height r no)
    | .block s stmts => simplifiedBlock s (stmts.filterMap (simplifyTo next height r))
    | t => some t

/-- The simplified program. Nothing at all becomes an empty block. -/
def simplify (next : Nat) (t : Stmt) : Stmt :=
  (simplifyTo next t.size [] t).getD (.block ⟨next + t.id, none⟩ [])

end Stmt

end LoopNest

import LoopNest.Dependence.Legality
import LoopNest.Expr.Simplify
import LoopNest.Restructure.Outcome

/-! # Reordering a nest

  The loops of a nested chain are permuted in two steps.

  * The chain is made perfect: every loop becomes the whole body of the loop around it. Conditions
    between two loops move into the inner body. Statements in front of the inner loop move into it
    under a guard that holds in its first iteration, statements behind it under a guard that holds in
    its last one (`Between.innerBody`).
  * The heads of the perfect nest are permuted while the innermost body stays where it is, if no
    dependence stands against that.

  Statements that are created on the way get the next free numbers, because a dependence that
  stands against the new order is reported with them. -/

namespace LoopNest.Restructure

open Stmt (LabelledLoop)

/-! ## Making a nest perfect -/

/-- All conditions of a list and one more, nested to the right. -/
def allOf (conds : List Expr) (last : Expr) : Expr := conds.foldr Expr.both last

/-- What lies between a loop and the next loop of the chain. -/
structure Between where
  /-- Conditions around the inner loop, outermost first. -/
  conds : List Expr
  /-- Statements in front of the inner loop. -/
  before : List Stmt
  /-- Statements behind the inner loop. -/
  after : List Stmt
deriving Repr, Inhabited

/-- Whether a statement may be moved into the loop over `iter`: it holds no loops, calls or
    declarations and does not use a scalar of that name. -/
def movable (iter : String) (t : Stmt) : Outcome Unit :=
  t.nodes.forM fun u =>
    match u with
    | .loop .. | .call .. | .decl .. => .error (.between u.kindName)
    | _ => if u.exprs.any (·.mentions iter) then .error (.iteratorUsedBetween iter) else .ok ()

/-- Checks that the statements beside the inner loop can be moved into it. -/
def Between.check (b : Between) (inner : LoopHead) : Outcome Unit := do
  if b.before.isEmpty && b.after.isEmpty then return
  (b.before ++ b.after).forM (movable inner.iter)
  match inner.extent? with
  | some n => if n < 1 then .error .mayRunZeroTimes
  | none => .error .mayRunZeroTimes

/-- Checks that a condition around the inner loop can be moved into it. -/
def checkCondition (writes : List String) (inner : LoopHead) (c : Expr) : Outcome Unit :=
  if writes.any c.reads then .error (.conditionReads c)
  else if c.mentions inner.iter then .error (.conditionUses c inner.iter)
  else .ok ()

mutual
/-- Looks for the inner loop below a statement and collects what is on the way to it. -/
def gather (writes : List String) (inner : LabelledLoop) (b : Between) : Stmt → Outcome Between
  | .block _ stmts => gatherAll writes inner b stmts
  | .guard _ c body =>
    if !b.before.isEmpty || !b.after.isEmpty then .error .besideBranch
    else do
      checkCondition writes inner.head c
      gather writes inner { b with conds := b.conds ++ [c] } body
  | t =>
    if t.id = inner.site.id then .ok b
    else if !b.before.isEmpty || !b.after.isEmpty then .error .besideBranch
    else .error (.between t.kindName)
/-- Looks for the inner loop below the statements of a block. -/
def gatherAll (writes : List String) (inner : LabelledLoop) (b : Between) :
    List Stmt → Outcome Between
  | [] => .error .looseLoops
  | t :: ts =>
    if t.holds inner.site.id then gather writes inner { b with after := ts ++ b.after } t
    else gatherAll writes inner { b with before := b.before ++ [t] } ts
end

/-- Several statements as a block with the next free number. -/
def sequenceAt (next : Nat) : List Stmt → Stmt × Nat
  | [t] => (t, next)
  | ts => (.block ⟨next, none⟩ ts, next + 1)

/-- Statements under a guard; no statements stay no statements. -/
def guardedAt (next : Nat) (cond : Expr) : List Stmt → List Stmt × Nat
  | [] => ([], next)
  | ts =>
    let (t, next) := sequenceAt next ts
    ([.guard ⟨next, none⟩ cond t], next + 1)

/-- The body of the inner loop after everything between the two loops has moved into it. -/
def Between.innerBody (b : Between) (inner : LabelledLoop) (next : Nat) : Stmt × Nat :=
  let iter := Expr.var inner.head.iter
  let (before, next) := guardedAt next (allOf b.conds (iter.equals inner.head.lower)) b.before
  let last := inner.head.upper.minus (.int 1)
  let (after, next) := guardedAt next (allOf b.conds (iter.equals last)) b.after
  let (body, next) := match b.conds.reverse with
    | [] => (inner.body, next)
    | c :: outer => (Stmt.guard ⟨next, none⟩ (allOf outer.reverse c) inner.body, next + 1)
  sequenceAt next (before ++ [body] ++ after)

/-- A perfect nest: the loops without their bodies, outermost first, and the innermost body. -/
structure PerfectNest where
  loops : List (Site × LoopHead)
  body : Stmt
deriving Repr, Inhabited

/-- The nest as a statement. -/
def PerfectNest.stmt (n : PerfectNest) : Stmt :=
  n.loops.foldr (fun (site, head) body => .loop site head body) n.body

/-- The levels of the nest. -/
def PerfectNest.levels (n : PerfectNest) : List Level :=
  n.loops.map fun (site, head) => head.level site.id

/-- Makes a chain of loops perfect. The body of the outermost loop holds the others. -/
def perfect (writes : List String) (next : Nat) (outer : LabelledLoop) :
    List LabelledLoop → Outcome PerfectNest
  | [] => .ok ⟨[(outer.site, outer.head)], outer.body⟩
  | inner :: rest => do
    let b ← gather writes inner ⟨[], [], []⟩ outer.body
    b.check inner.head
    let (body, next) := b.innerBody inner next
    let nest ← perfect writes next { inner with body } rest
    return { nest with loops := (outer.site, outer.head) :: nest.loops }

/-! ## Permuting the loops -/

/-- Checks that the bounds of a loop depend neither on the other loops of the chain nor on anything
    that is written inside. -/
def checkBounds (writes iters : List String) (l : LabelledLoop) : Outcome Unit :=
  [l.head.lower, l.head.upper].forM fun bound =>
    match iters.find? fun v => v != l.head.iter && bound.mentions v with
    | some other => .error (.boundDepends bound l.head.iter other)
    | none => if writes.any bound.reads then .error (.boundReads bound) else .ok ()

/-- The loops that a request names, in its order. -/
def namedLoops (t : Stmt) (found : List LabelledLoop) : List String → Outcome (List LabelledLoop)
  | [] => .ok found
  | label :: rest => do
    let l ← t.loopAt label
    if found.any (·.site.id == l.site.id) then .error (.listedTwice label)
    else namedLoops t (found ++ [l]) rest

/-- Whether every loop of a list lies inside the one before it. -/
def nested : List LabelledLoop → Bool
  | a :: b :: rest => a.body.holds b.site.id && nested (b :: rest)
  | _ => true

/-- The number of statements around a loop. -/
def depth (t : Stmt) (l : LabelledLoop) : Nat := (t.around l.site.id).length

/-- Lets the loops with the given labels run in the given order, outermost first. -/
def reorder (maxLevels : Nat) (t : Stmt) (order : List String) : Outcome Stmt := do
  if order.isEmpty then .error .noLoops
  let named ← namedLoops t [] order
  let chain := named.mergeSort fun a b => depth t a ≤ depth t b
  if !nested chain then .error .notNested
  let places := named.map fun l => chain.findIdx (·.site.id == l.site.id)
  if places == List.range places.length then return t
  match chain with
  | [] => return t
  | outer :: rest =>
    let writes := outer.stmt.written
    chain.forM (checkBounds writes (chain.map (·.head.iter)))
    let nest ← perfect writes t.size outer rest
    match nest.stmt.reorderObstacle? maxLevels nest.levels places with
    | some d => .error (.dependence d)
    | none =>
      let permuted := { nest with loops := places.filterMap (nest.loops[·]?) }
      return t.update outer.site.id fun _ => permuted.stmt

end LoopNest.Restructure

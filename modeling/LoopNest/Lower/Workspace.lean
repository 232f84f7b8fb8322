import LoopNest.Dependence.Legality
import LoopNest.Expr.Simplify
import LoopNest.Lower.Target
import LoopNest.Restructure.Draft

/-! # Reductions in parallel loops

  When a parallel loop reduces into a buffer, its iterations must not update the buffer at the same
  time. Each iteration gets a row of its own in a workspace, a local buffer with one row per
  iteration:

  * at the start of an iteration, its row is filled with the neutral element;
  * the stores of the reduction go to that row;
  * after the loop, a sequential loop over all rows combines them into the buffer.

  Inner loops are handled before the loops around them. -/

namespace LoopNest.Lower

open Restructure (Workpiece)
open Stmt (LabelledLoop)

/-! ## Nests over a shape -/

/-- Loops around a statement, one for each iterator with its extent, outermost first. -/
def loopsAround (next : Nat) (t : Stmt) : List (String × Expr) → Stmt × Nat
  | [] => (t, next)
  | (iter, extent) :: rest =>
    let (t, next) := loopsAround next t rest
    (.loop ⟨next, none⟩ { iter, lower := .int 0, upper := extent } t, next + 1)

/-- A store under loops over all its cells. -/
def fillNest (next : Nat) (axes : List (String × Expr)) (buffer : String) (indices : List Expr)
    (value : Expr) : Stmt × Nat :=
  loopsAround (next + 1) (.store ⟨next, none⟩ buffer indices value) axes

/-! ## One workspace -/

/-- The reduction that a workspace is for. -/
structure Job where
  loop : LabelledLoop
  buffer : String
  op : ReduceOp
  host : Buffer
  neutral : Expr

/-- The names that a workspace needs. -/
structure JobNames where
  /-- The workspace itself. -/
  space : String
  /-- Iterators over a row while it is filled. -/
  fillIters : List String
  /-- The iterator over all rows. -/
  rowIter : String
  /-- Iterators over a row while it is combined. -/
  foldIters : List String

/-- Fresh names for the `k`-th workspace of a loop. -/
def Job.names (j : Job) (k : Nat) (supply : NameSupply) : JobNames × NameSupply :=
  let owner := j.loop.site.label.getD j.loop.head.iter
  let rows := j.host.shape.map fun _ => "r"
  let (space, supply) := supply.fresh ("__reduce_" ++ owner ++ "_" ++ toString k)
  let (fillIters, supply) := supply.freshAll rows
  let (rowIter, supply) := supply.fresh j.loop.head.iter
  let (foldIters, supply) := supply.freshAll rows
  (⟨space, fillIters, rowIter, foldIters⟩, supply)

/-- Sends a store of the reduction to the row of its iteration. -/
def redirectStore (buffer space : String) (op : ReduceOp) (row : Expr) : Stmt → Stmt
  | .store s b is v =>
    if b == buffer then
      match Expr.reduction? b is v with
      | some (_, rhs) => .store s space (row :: is) (op.combine (.load space (row :: is)) rhs)
      | none => .store s b is v
    else .store s b is v
  | t => t

/-- Whether a statement writes the buffer in another way than by the reduction. -/
def assigns (buffer : String) (op : ReduceOp) : Stmt → Bool
  | .store _ b is v => b == buffer && (Expr.reduction? b is v).all fun (o, _) => o != op
  | _ => false

/-- The loop with its workspace: the declaration around the loop and the combining loop. -/
def Job.stmt (j : Job) (n : JobNames) (space : MemSpace) (next : Nat) : Stmt × Nat :=
  let h := j.loop.head
  let row := (Expr.var h.iter).minus h.lower
  let rows := h.upper.minus h.lower
  let body := j.loop.body.bottomUp (redirectStore j.buffer n.space j.op row)
  -- fill the row of an iteration
  let fillCells := n.fillIters.map Expr.var
  let (fill, next) := fillNest next (n.fillIters.zip j.host.shape) n.space (row :: fillCells) j.neutral
  let loop := Stmt.loop j.loop.site h (.block ⟨next, none⟩ [fill, body])
  let next := next + 1
  -- combine all rows
  let foldCells := n.foldIters.map Expr.var
  let sum := j.op.combine (.load j.buffer foldCells) (.load n.space (.var n.rowIter :: foldCells))
  let (fold, next) := fillNest next (n.foldIters.zip j.host.shape) j.buffer foldCells sum
  let combine := Stmt.loop ⟨next, none⟩ { iter := n.rowIter, lower := .int 0, upper := rows } fold
  let declared := Stmt.block ⟨next + 1, none⟩ [loop, combine]
  let workspace : Buffer := ⟨rows :: j.host.shape, j.host.elem, .cache, space⟩
  (.decl ⟨next + 2, none⟩ n.space workspace declared, next + 3)

/-- Checks that a reduction of a loop into a buffer can be moved to a workspace. -/
def Job.of (host : Option Buffer) (l : LabelledLoop) (buffer : String) (op : ReduceOp) : Outcome Job :=
  match host with
  | none => .error (.undeclaredReduction buffer)
  | some host =>
    match op.neutral? host.elem with
    | none => .error (.reductionType op host.elem buffer)
    | some neutral =>
      if l.body.nodes.any (assigns buffer op) then .error (.mixedReduction buffer)
      else .ok ⟨l, buffer, op, host, neutral⟩

/-! ## All workspaces -/

/-- A workpiece with the names that are in use in it. -/
structure State (α : Type) where
  piece : α
  supply : NameSupply
  /-- How many workspaces have been introduced. -/
  count : Nat

variable {α : Type} [Workpiece α]

open Restructure.Workpiece (tree next stmt? bufferAt? graft)

/-- The loop with a given number. -/
def loopNumbered? (w : α) (id : Nat) : Option LabelledLoop :=
  match stmt? w id with
  | some (.loop site head body) => some ⟨site, head, body⟩
  | _ => none

/-- Moves the reductions of one loop to workspaces, numbered from `k` on. Only one workspace is made
    for a buffer. -/
def moveReductions (space : MemSpace) (id : Nat) (seen : List String) (k : Nat) (s : State α) :
    List (String × ReduceOp) → Outcome (State α)
  | [] => .ok s
  | (buffer, op) :: rest =>
    if seen.contains buffer then moveReductions space id seen k s rest
    else match loopNumbered? s.piece id with
      | none => .ok s
      | some l => do
        let job ← Job.of (bufferAt? s.piece buffer id) l buffer op
        let (names, supply) := job.names k s.supply
        let (t, next) := job.stmt names space (next s.piece)
        let s := ⟨graft s.piece id t next, supply, s.count + 1⟩
        moveReductions space id (buffer :: seen) (k + 1) s rest

/-- Checks one parallel loop and moves its reductions. -/
def lowerLoop (target : Target) (move : Bool) (s : State α) (id : Nat) : Outcome (State α) :=
  match loopNumbered? s.piece id with
  | none => .ok s
  | some l =>
    match l.stmt.parallelVerdict defaultLevels with
    | .blocked d => .error (.dependence d)
    | .safe reductions =>
      if move then moveReductions target.space id [] 0 s reductions else .ok s

/-- Checks every parallel loop, and moves the reductions they carry to workspaces if asked to. Also
    gives the number of workspaces. -/
def lowerReductions (target : Target) (move : Bool) (w : α) : Outcome (α × Nat) := do
  let parallel := ((tree w).nodes.filter Stmt.isParallelLoop).map Stmt.id
  let s ← parallel.reverse.foldlM (lowerLoop target move) ⟨w, ⟨(tree w).usedNames⟩, 0⟩
  return (s.piece, s.count)

end LoopNest.Lower

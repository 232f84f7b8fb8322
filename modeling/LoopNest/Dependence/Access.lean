import LoopNest.Expr.Linear
import LoopNest.Expr.Reduction
import LoopNest.Names
import LoopNest.Program.Walk

/-! # Accesses

  The accesses of a statement are the reads and writes of buffer elements below it, in the order of
  the program text: a statement reads before it writes, and a loop reads its bounds before its body
  runs. Each access remembers the loops around it inside the analysed statement. -/

namespace LoopNest

inductive AccessKind where
  | read
  | write
deriving DecidableEq, Repr, Inhabited

/-- A loop around an access. -/
structure Enclosing where
  id : Nat
  head : LoopHead
deriving Repr, Inhabited

namespace LoopHead

/-- The trip count when it is the same for all values of the scalars. -/
def extent? (h : LoopHead) : Option Int := Expr.constantDistance? h.lower h.upper

end LoopHead

/-- One read or write of a buffer element. -/
structure Access where
  buffer : String
  indices : List Expr
  kind : AccessKind
  /-- The number of the statement that makes the access. -/
  stmt : Nat
  /-- The loops around the access, outermost first. -/
  loops : List Enclosing
  /-- The operator when the access belongs to a reduction. -/
  reduction : Option ReduceOp
  /-- How many of `loops` lie around the declaration of the buffer, when that is inside as well. -/
  declDepth : Option Nat
  /-- The place among all accesses. -/
  position : Nat := 0
deriving Repr, Inhabited

/-- What surrounds a statement inside the analysed one. -/
structure Scope where
  /-- The loops, outermost first. -/
  loops : List Enclosing := []
  /-- The declared buffers with the number of loops around them, innermost first. -/
  decls : List (String × Nat) := []

namespace Scope

/-- An access made here. -/
def access (s : Scope) (kind : AccessKind) (stmt : Nat) (reduction : Option ReduceOp)
    (buffer : String) (indices : List Expr) : Access :=
  { buffer, indices, kind, stmt, loops := s.loops, reduction, declDepth := s.decls.lookup buffer }

/-- The reads of an expression. Those of the reduced buffer belong to the reduction. -/
def reads (s : Scope) (stmt : Nat) (reduced : Option (String × ReduceOp)) (e : Expr) : List Access :=
  e.parts.filterMap fun
    | .load b is =>
      let op := reduced.bind fun (name, op) => if name == b then some op else none
      some (s.access .read stmt op b is)
    | _ => none

end Scope

namespace Stmt

mutual
/-- The accesses below a statement, without their places. -/
def accessesIn (s : Scope) : Stmt → List Access
  | .decl _ n _ body => accessesIn { s with decls := (n, s.loops.length) :: s.decls } body
  | .loop site h body =>
    s.reads site.id none h.lower ++ s.reads site.id none h.upper
      ++ accessesIn { s with loops := s.loops ++ [⟨site.id, h⟩] } body
  | .guard site c body => s.reads site.id none c ++ accessesIn s body
  | .branch site c yes no => s.reads site.id none c ++ accessesIn s yes ++ accessesIn s no
  | .store site b is v =>
    let op := (Expr.reduction? b is v).map (·.1)
    is.flatMap (s.reads site.id none) ++ s.reads site.id (op.map (b, ·)) v
      ++ [s.access .write site.id op b is]
  | .block _ stmts => accessesInAll s stmts
  | .call .. | .hole _ => []
/-- The accesses below every statement of a list. -/
def accessesInAll (s : Scope) : List Stmt → List Access
  | [] => []
  | t :: ts => accessesIn s t ++ accessesInAll s ts
end

/-- The accesses below a statement. -/
def accesses (t : Stmt) : List Access :=
  (t.accessesIn {}).zipIdx.map fun (a, k) => { a with position := k }

/-- The buffers written below a statement, sorted. -/
def written (t : Stmt) : List String :=
  sortedNames ((t.accesses.filter (·.kind == .write)).map (·.buffer))

end Stmt

end LoopNest

import LoopNest.Dependence.Nest

/-! # Legality of loop transformations

  Three questions about a loop are answered from its dependences: may its iterations run at the same
  time, may the loops of a perfect nest be permuted, may its body be distributed over two loops?
  Each answer names the first dependence that stands against it. Dependences between parts of one
  reduction stand against nothing. -/

namespace LoopNest

/-- How many levels are refined unless a schedule says otherwise. -/
def defaultLevels : Nat := 8

/-- Whether the iterations of a loop may run at the same time. -/
inductive Verdict where
  /-- They may, given that these reductions are carried out properly. -/
  | safe (reductions : List (String × ReduceOp))
  /-- This dependence is carried by the loop. -/
  | blocked (obstacle : Dependence)
deriving DecidableEq, Repr, Inhabited

namespace Verdict

def isSafe : Verdict → Bool
  | safe _ => true
  | blocked _ => false

end Verdict

namespace Stmt

/-- The dependences between iterations of one loop. -/
def carriedDependences (maxLevels : Nat) (lp : Stmt) : List Dependence :=
  dependences maxLevels lp [lp.level]

/-- Reads a list of dependences: collects the reductions, each once, until a dependence blocks. -/
def verdictOf (found : List (String × ReduceOp)) : List Dependence → Verdict
  | [] => .safe found
  | d :: ds =>
    if !d.isCarriedAt 0 then verdictOf found ds
    else match d.reduction with
      | none => .blocked d
      | some op =>
        if found.contains (d.buffer, op) then verdictOf found ds
        else verdictOf (found ++ [(d.buffer, op)]) ds

/-- Whether the iterations of a loop may run at the same time. -/
def parallelVerdict (maxLevels : Nat) (lp : Stmt) : Verdict :=
  verdictOf [] (lp.carriedDependences maxLevels)

/-- The dependence that forbids to run the levels of a nest in another order, in which place `k` is
    taken by level `order[k]`. -/
def reorderObstacle? (maxLevels : Nat) (scope : Stmt) (levels : List Level) (order : List Nat) :
    Option Dependence :=
  (dependences maxLevels scope levels).find? fun d =>
    d.reduction.isNone
      && !Direction.forward (order.map fun k => d.direction.getD k .star)

/-- The dependence that forbids to run all iterations of the statements `first` before those of the
    statements `second`. -/
def fissionObstacle? (maxLevels : Nat) (lp : Stmt) (first second : List Stmt) : Option Dependence :=
  let early := first.flatMap ids
  let late := second.flatMap ids
  (lp.carriedDependences maxLevels).find? fun d =>
    d.reduction.isNone && d.isCarriedAt 0
      && ((late.contains d.source && early.contains d.target) || d.direction.head? == some .star)

/-! ## Chains of loops -/

/-- The dependences between the iterations of a chain of loops, outermost first. -/
def chainDependences (maxLevels : Nat) : List Stmt → List Dependence
  | [] => []
  | outer :: inner => dependences maxLevels outer ((outer :: inner).map level)

/-- The dependence that forbids to run the loops of a chain in another order. -/
def chainObstacle? (maxLevels : Nat) (order : List Nat) : List Stmt → Option Dependence
  | [] => none
  | outer :: inner => outer.reorderObstacle? maxLevels ((outer :: inner).map level) order

end Stmt

end LoopNest

import LoopNest.Arena.Edit
import LoopNest.Lower.Workspace
import LoopNest.Restructure.Inline

/-! # Restructuring node tables in place

  A table is a workpiece: a statement is put in the place of another one by writing its entries
  behind the last one and letting the parent refer to them. What was there before stays in the table
  without being reached. A place that is not reached has no parent; what is made for it stays
  unreached as well. -/

namespace LoopNest.Arena

open Restructure (Workpiece)

instance : Workpiece Arena where
  tree := Arena.tree
  next := Arena.size
  stmt? a id := if id < a.size then some (a.stmtAt id) else none
  bufferAt? := Arena.bufferAt?
  graft a old t _ := ((a.putAll t).replace old t.id).1

/-- Expands the call at a place, and the calls that it brings in. Also gives how many. -/
def expandCall (r : Registry) (a : Arena) (id : Nat) : Outcome (Arena × Nat) :=
  Restructure.expandCall r a (a.stmtAt id)

/-- Expands all calls. Also gives how many. -/
def expandAll (r : Registry) (a : Arena) : Outcome (Arena × Nat) := Restructure.expandAll r a

/-- Moves the reductions of parallel loops to workspaces. Also gives how many. -/
def lowerReductions (target : Lower.Target) (move : Bool) (a : Arena) : Outcome (Arena × Nat) :=
  Lower.lowerReductions target move a

end LoopNest.Arena

import LoopNest.Program.Function
import Mathlib.Logic.Relation

/-! # Call graphs

  The functions of a registry call each other. A program is recursive when its calls lead to a
  function that leads back to itself. Otherwise its calls unfold to a finite tree: below each call
  stand the calls in the body of its function. -/

namespace LoopNest

namespace Stmt

/-- The function that a statement calls. -/
def callee? : Stmt → Option String
  | .call _ f _ => some f
  | _ => none

/-- The functions that a program calls, once for every call. -/
def callees (t : Stmt) : List String := t.nodes.filterMap callee?

end Stmt

namespace Registry

/-- A registered function has a call of another one in its body. -/
def Calls (r : Registry) (f g : String) : Prop := ∃ F, r.get? f = some F ∧ g ∈ F.body.callees

/-- Some function calls lead back to itself. -/
def Looping (r : Registry) (f : String) : Prop :=
  ∃ g, Relation.ReflTransGen r.Calls f g ∧ Relation.TransGen r.Calls g g

/-- The calls of a program lead to a cycle of calls. -/
def Recursive (r : Registry) (t : Stmt) : Prop := ∃ f ∈ t.callees, r.Looping f

/-- The trees below calls of some functions, one after the other, have so many calls altogether: each
    call itself, and those in the tree of the body of its function. -/
inductive Unfolds (r : Registry) : List String → Nat → Prop where
  | nil : Unfolds r [] 0
  | cons {f : String} {F : Function} {fs : List String} {inside after : Nat}
    (function : r.get? f = some F) (below : Unfolds r F.body.callees inside)
    (rest : Unfolds r fs after) : Unfolds r (f :: fs) (1 + inside + after)

end Registry

end LoopNest

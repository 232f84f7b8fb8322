import LoopNest.Dependence.Direction
import LoopNest.Program.Walk

/-! # Malformed programs

  Reasons why a table of nodes is no program, or why functions cannot be registered together. -/

namespace LoopNest

inductive TreeError where
  /-- Two statements carry one label. -/
  | duplicateLabel (label : String)
  /-- The root lies outside the table. -/
  | missingRoot (root size : Nat)
  /-- A node refers to a child outside the table. -/
  | missingChild (node child : Nat)
  /-- A node is reached on two ways. -/
  | sharedNode (node : Nat)
  /-- Two functions have one name. -/
  | duplicateFunction (name : String)
deriving DecidableEq, Repr, Inhabited

namespace TreeError

/-- The class of the error. -/
def kindName : TreeError → String
  | duplicateLabel _ => "DuplicateIdentifier"
  | missingRoot .. | missingChild .. => "DanglingNode"
  | sharedNode _ => "SharedNode"
  | duplicateFunction _ => "DuplicateFunction"

open Dependence (siteText) in
/-- The error in words. -/
def message : TreeError → String
  | duplicateLabel l => "label `" ++ l ++ "` used more than once"
  | missingRoot root size =>
    "root " ++ siteText root ++ " outside arena of " ++ toString size ++ " nodes"
  | missingChild node child =>
    "node " ++ siteText node ++ " refers to missing child " ++ siteText child
  | sharedNode node => "node " ++ siteText node ++ " reachable from more than one parent"
  | duplicateFunction f => "function `" ++ f ++ "` registered twice"

end TreeError

namespace Stmt

/-- The first label that an earlier label repeats. -/
def repeated? : (seen : List String) → List String → Option String
  | _, [] => none
  | seen, l :: ls => if seen.contains l then some l else repeated? (l :: seen) ls

/-- Numbers a tree in pre-order. Labels must be different from each other. -/
def commit (t : Stmt) : Except TreeError Stmt :=
  match repeated? [] t.labels with
  | some l => .error (.duplicateLabel l)
  | none => .ok t.number

end Stmt

end LoopNest

import LoopNest.Lower.Workspace
import LoopNest.Program.Function
import LoopNest.Program.Simplify
import LoopNest.Restructure.Inline

/-! # Lowering

  A scheduled program is prepared for code generation in a fixed order: calls are expanded, the tags
  of parallel loops are checked against the target, reductions in parallel loops are moved to
  workspaces, and the result is simplified. -/

namespace LoopNest.Lower

/-- The optional steps. -/
structure Steps where
  expand : Bool := true
  workspaces : Bool := true
  simplify : Bool := true
deriving DecidableEq, Repr, Inhabited

/-- Checks that the target can run a loop in the way its tag says. -/
def checkTag (target : Target) (t : Stmt) : Outcome Unit :=
  match t.head? with
  | none => .ok ()
  | some h =>
    match h.tag? with
    | none => .ok ()
    | some tag =>
      if target.acceptsTag tag then .ok ()
      else .error (.unavailableTag tag (t.label?.getD h.iter) target.name)

/-- Lowers a committed program. -/
def lower (target : Target) (registry : Registry) (steps : Steps) (t : Stmt) :
    Except Rejection Stmt := do
  let d := Restructure.Draft.of t
  let d ← if steps.expand then (·.1) <$> answering .inline (Restructure.expandAll registry d) else pure d
  answering .lower (d.tree.loops.forM (checkTag target))
  let (d, _) ← answering .lower (lowerReductions target steps.workspaces d)
  let t := if steps.simplify then d.tree.simplify d.next else d.tree
  match t.commit with
  | .ok t => return t
  | .error e => .error ⟨.duplicateLabel e.message, .lower⟩

/-- Lowers a function with its parameters declared around its body. -/
def lowerFunction (target : Target) (registry : Registry) (f : Function) : Except Rejection Stmt :=
  match f.program with
  | .ok t => lower target registry {} t
  | .error e => .error ⟨.function f.name e.message, .lower⟩

end LoopNest.Lower

import LoopNest.Dependence.Legality
import LoopNest.Names
import LoopNest.Restructure.Outcome

/-! # Distributing a loop

  A loop over several statements becomes two loops one after the other: the first one runs the
  statements up to a given one, the second one the rest. -/

namespace LoopNest.Restructure

/-- The statements of a block up to the one with a given number, and the statements behind it. -/
def cutAfter (id : Nat) : List Stmt → Option (List Stmt × List Stmt)
  | [] => none
  | t :: ts =>
    if t.id = id then some ([t], ts)
    else (cutAfter id ts).map fun (first, second) => (t :: first, second)

/-- The two parts into which the body of a loop is cut. -/
def fissionParts (t : Stmt) (l : Stmt.LabelledLoop) (label after : String) :
    Outcome (List Stmt × List Stmt) := do
  let stop ← match t.labelled? after with
    | some u => .ok u
    | none => .error (.notFound after)
  match l.body with
  | .block _ stmts =>
    match cutAfter stop.id stmts with
    | none => .error (.notDirectlyInside after label)
    | some (_, []) => .error (.nothingFollows after)
    | some parts => .ok parts
  | _ => .error (.singleStatement label)

/-- Distributes the loop with a given label behind the statement labelled `after`; also gives the
    labels of the two loops. -/
def fission (maxLevels : Nat) (t : Stmt) (label after : String) :
    Outcome (Stmt × String × String) := do
  let l ← t.loopAt label
  let (first, second) ← fissionParts t l label after
  match l.body.written.find? fun b => l.head.lower.reads b || l.head.upper.reads b with
  | some b => .error (.boundsRead b)
  | none => pure ()
  match l.stmt.fissionObstacle? maxLevels first second with
  | some d => .error (.dependence d)
  | none => pure ()
  let (a, labels) := (NameSupply.mk t.labels).fresh (label ++ ".a")
  let (b, _) := labels.fresh (label ++ ".b")
  let loops := Stmt.block .unnumbered [
    .loop (.unnumbered (some a)) l.head (.sequence first),
    .loop (.unnumbered (some b)) l.head (.sequence second)]
  return (t.update l.site.id fun _ => loops, a, b)

end LoopNest.Restructure

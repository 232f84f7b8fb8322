import LoopNest.Dependence.Legality
import LoopNest.Restructure.Outcome
import LoopNest.Text.Blank

/-! # Running a loop in parallel

  A loop may be marked to run its iterations at the same time when no dependence, reductions aside,
  leads from one iteration to another. -/

namespace LoopNest.Restructure

/-- Marks the loop with a given label to run in parallel, by the means that the tag names. -/
def parallelize (maxLevels : Nat) (t : Stmt) (label tag : String) : Outcome Stmt := do
  if Text.allBlank tag then .error .emptyTag
  let l ← t.loopAt label
  match l.stmt.parallelVerdict maxLevels with
  | .blocked d => .error (.dependence d)
  | .safe _ =>
    return t.update l.site.id fun _ => .loop l.site { l.head with mode := .parallel tag } l.body

end LoopNest.Restructure

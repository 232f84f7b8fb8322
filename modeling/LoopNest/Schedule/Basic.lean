import LoopNest.Restructure.Fission
import LoopNest.Restructure.Inline
import LoopNest.Restructure.Parallelize
import LoopNest.Restructure.Reorder
import LoopNest.Restructure.Split
import LoopNest.Restructure.VarReorder
import LoopNest.Schedule.Command

/-! # Schedules

  A schedule holds a committed program and the commands that led to it. Each command is carried out
  on the committed program; its result is numbered, checked and committed as a whole, or the command
  is rejected and nothing changes.

  * `Command.perform` carries a command out.
  * `Schedule.run` commits the result or rejects the command.
  * `Schedule.replay` runs a list of commands up to the first rejection. -/

namespace LoopNest

/-- How a schedule checks its commands. -/
structure ScheduleConfig where
  /-- Whether loops that run in parallel are checked again after every command. -/
  recheck : Bool := true
  /-- How many levels the dependence analysis refines. -/
  maxLevels : Nat := defaultLevels
deriving DecidableEq, Repr, Inhabited

/-- What a command reports besides the new program. -/
inductive Report where
  | nothing
  /-- The labels of two new loops. -/
  | labels (first second : String)
  /-- The number of expanded calls. -/
  | count (n : Nat)
deriving DecidableEq, Repr, Inhabited

/-- Carries a command out on a committed program. -/
def Command.perform (registry : Registry) (maxLevels : Nat) (t : Stmt) :
    Command → Outcome (Stmt × Report)
  | .reorder order => (·, .nothing) <$> Restructure.reorder maxLevels t order
  | .split l factor nparts =>
    (fun (t, a, b) => (t, .labels a b)) <$> Restructure.split t l factor nparts
  | .parallelize l tag => (·, .nothing) <$> Restructure.parallelize maxLevels t l tag
  | .fission l after =>
    (fun (t, a, b) => (t, .labels a b)) <$> Restructure.fission maxLevels t l after
  | .varReorder l order => (·, .nothing) <$> Restructure.varReorder t l order
  | .inline =>
    (fun (d, n) => (d.tree, .count n)) <$> Restructure.expandAll registry (Restructure.Draft.of t)

/-- A program under scheduling. -/
structure Schedule where
  tree : Stmt
  /-- The committed commands, oldest first. -/
  history : List Command := []
  config : ScheduleConfig := {}
deriving Repr, Inhabited

namespace Schedule

/-- Checks that every loop that runs in parallel may do so. -/
def recheckLoops (maxLevels : Nat) : List Stmt → Outcome Unit
  | [] => .ok ()
  | lp :: rest =>
    if !lp.isParallelLoop then recheckLoops maxLevels rest
    else match lp.parallelVerdict maxLevels with
      | .safe _ => recheckLoops maxLevels rest
      | .blocked d => .error (.parallelDependence (lp.label?.getD (Dependence.siteText lp.id)) d)

/-- Numbers and checks a new tree. -/
def commit (config : ScheduleConfig) (t : Stmt) : Outcome Stmt := do
  let t ← t.commit.mapError fun e => .duplicateLabel e.message
  if config.recheck then recheckLoops config.maxLevels t.loops
  return t

/-- Runs a command: the schedule after it with what it reports, or why it is rejected. -/
def run (s : Schedule) (registry : Registry) (c : Command) : Except Rejection (Schedule × Report) :=
  answering c.request do
    let (t, report) ← c.perform registry s.config.maxLevels s.tree
    let t ← commit s.config t
    return ({ s with tree := t, history := s.history ++ [c] }, report)

/-- Runs commands one after the other, up to the first one that is rejected. -/
def replay (s : Schedule) (registry : Registry) (cs : List Command) : Except Rejection Schedule :=
  cs.foldlM (fun s c => (·.1) <$> s.run registry c) s

/-- Runs commands one after the other and ignores those that are rejected. -/
def attempt (s : Schedule) (registry : Registry) (cs : List Command) : Schedule :=
  cs.foldl (fun s c => ((s.run registry c).toOption.map (·.1)).getD s) s

end Schedule

end LoopNest

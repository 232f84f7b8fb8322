import LoopNest.CommandLine.Options
import LoopNest.Program.Text
import LoopNest.Session.Run

/-! # What the program writes

  A run turns the text of a session file into the text of the scheduled, and usually lowered,
  program. Whatever fails on the way gives no output at all. -/

namespace LoopNest.CommandLine

/-- Why a run has no result. -/
inductive Failure where
  /-- The session file cannot be read as a session. -/
  | unreadable (file : String)
  | session (e : SessionError)
  | lowering (r : Rejection)
deriving Repr, Inhabited

/-- The failure in words. -/
def Failure.message : Failure → String
  | unreadable file => "Failed to load session: " ++ file
  | session e => e.message
  | lowering r => "Lowering failed: " ++ r.message

/-- The text of a program. -/
def Emit.render : Emit → Stmt → String
  | tree, t => t.text
  | json, t => t.toJson.pretty

namespace Options

/-- The program that the text of a session file leads to. -/
def program (o : Options) (text : String) : Except Failure Stmt := do
  let some s := Session.ofText? text | throw (.unreadable o.file)
  let registry ← s.registry.mapError fun e => .session (.program e)
  let schedule ← (s.scheduled registry o.commands).mapError fun r => .session (.schedule r)
  if o.lowered then
    (Lower.lower o.target registry { simplify := o.simplified } schedule.tree).mapError .lowering
  else return schedule.tree

/-- What a run writes. -/
def result (o : Options) (text : String) : Except Failure String := do
  return o.emit.render (← o.program text)

end Options

/-- How the program is called. -/
def usage : String :=
  "Usage: loopnest [-a CMD]... [-t cpu|gpu] [--no-lower] [--no-simplify] [--emit tree|json] "
    ++ "[-o FILE] [-v]... [-q] FILE\n"

end LoopNest.CommandLine

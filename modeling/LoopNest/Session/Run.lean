import LoopNest.Lower.Pipeline
import LoopNest.Schedule.Basic
import LoopNest.Session.Basic

/-! # Running sessions

  The program of a session is scheduled with the commands of the session, then with further
  commands, and may be lowered afterwards. -/

namespace LoopNest

/-- Why a session gives no scheduled program. -/
inductive SessionError where
  | program (e : TreeError)
  | schedule (r : Rejection)
deriving Repr, Inhabited

namespace SessionError

/-- The error in words. -/
def message : SessionError → String
  | program e => "IR error: " ++ e.message
  | schedule r => "Invalid schedule: " ++ r.message

end SessionError

namespace Session

/-- The commands of the session, followed by further ones. -/
def commands (s : Session) (more : List Command) : List Command := s.schedule ++ more

/-- The program after all commands. -/
def scheduled (s : Session) (registry : Registry) (more : List Command) : Except Rejection Schedule :=
  Schedule.replay { tree := s.program } registry (s.commands more)

end Session

end LoopNest

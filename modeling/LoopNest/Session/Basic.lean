import LoopNest.Json.Reader
import LoopNest.Json.Writer
import LoopNest.Program.Json
import LoopNest.Schedule.Json

/-! # Session files

  A session file holds a program, the functions that it may call and the commands to schedule it
  with, as one JSON record. A file without functions or commands has none. -/

namespace LoopNest

open Json (Fields)

/-- What a session file holds. -/
structure Session where
  functions : List Function := []
  program : Stmt
  schedule : List Command := []
deriving Repr, Inhabited

namespace Session

/-- The functions as a registry; their names are different from each other. -/
def registry (s : Session) : Except TreeError Registry := Registry.ofList s.functions

/-! ## Files -/

def toJson (s : Session) : Json :=
  .obj ([("functions", .arr (s.functions.map Function.toJson)), ("program", s.program.toJson)] ++
    if s.schedule.isEmpty then [] else [("schedule", .arr (s.schedule.map Command.toJson))])

def ofJson? (s : Json.Spelling) (j : Json) : Option Session := do
  let fs ← j.recordFields? ["functions", "program", "schedule"]
  return { functions := ← fs.optional "functions" (Json.listOf? (Function.ofJson? s)) []
           program := ← fs.required "program" (Stmt.ofJson? s)
           schedule := ← fs.optional "schedule" (Json.listOf? Command.ofJson?) [] }

/-- Reads the text of a session file. -/
def ofText? (text : String) : Option Session := do ofJson? .file (← Json.readFile text)

/-- The text of a session file. -/
def text (s : Session) : String := s.toJson.pretty

end Session

end LoopNest

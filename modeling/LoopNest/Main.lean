import LoopNest.CommandLine.Run

/-! # The program

  The exit code is 0 for a result, 1 for a failure and 2 for arguments that make no sense. Nothing
  but the result goes to the standard output. -/

namespace LoopNest.CommandLine

/-- Reports an error. -/
def complain (code : UInt32) (message : String) : IO UInt32 := do
  IO.eprintln ("error: " ++ message)
  return code

/-- Writes a result to a file, or else to the standard output. -/
def deliver (path : Option String) (content : String) : IO Unit :=
  match path with
  | some path => IO.FS.writeFile path content
  | none => do
    IO.print content
    (← IO.getStdout).flush

/-- Processes a session file. -/
def process (o : Options) : IO UInt32 := do
  try
    match o.result (← IO.FS.readFile o.file) with
    | .ok content =>
      deliver o.output content
      return 0
    | .error f => complain 1 f.message
  catch e => complain 1 e.toString

/-- Does what the arguments ask for. -/
def perform (args : List String) : IO UInt32 := do
  match Invocation.ofArgs args with
  | .ok (.run o) => process o
  | .ok .help =>
    IO.print usage
    return 0
  | .ok .version =>
    IO.println "loopnest"
    return 0
  | .error e => complain 2 (e.message ++ "\n\n" ++ usage)

end LoopNest.CommandLine

def main (args : List String) : IO UInt32 := LoopNest.CommandLine.perform args

import LoopNest.Lower.Target
import LoopNest.Schedule.Command

/-! # Command line options

  The program is called with the name of a session file and options around it. An option has a long
  name, and some have a letter as well.

  * A value follows its option as the next argument, or in the same argument: `--emit=json`,
    `-tgpu`, `-t=gpu`. Letters of options without a value may be put together.
  * Behind `--` every argument is a file name.
  * An argument that begins with `-` is no value, except for `-` alone.

  `Invocation.ofArgs` reads the arguments; what it cannot read is a `UsageError`. -/

namespace LoopNest.CommandLine

/-- What is written in the end. -/
inductive Emit where
  | tree
  | json
deriving DecidableEq, Repr, Inhabited

/-- The options. -/
inductive Key where
  | apply
  | target
  | noLower
  | noSimplify
  | emit
  | output
  | verbose
  | quiet
  | help
  | version
deriving DecidableEq, Repr, Inhabited

namespace Key

def all : List Key :=
  [apply, target, noLower, noSimplify, emit, output, verbose, quiet, help, version]

def name : Key → String
  | apply => "apply"
  | target => "target"
  | noLower => "no-lower"
  | noSimplify => "no-simplify"
  | emit => "emit"
  | output => "output"
  | verbose => "verbose"
  | quiet => "quiet"
  | help => "help"
  | version => "version"

def letter? : Key → Option Char
  | apply => some 'a'
  | target => some 't'
  | output => some 'o'
  | verbose => some 'v'
  | quiet => some 'q'
  | help => some 'h'
  | version => some 'V'
  | noLower | noSimplify | emit => none

def takesValue : Key → Bool
  | apply | target | emit | output => true
  | _ => false

/-- Whether the option may be given more than once. -/
def isRepeatable : Key → Bool
  | apply | verbose => true
  | _ => false

def ofName? (s : String) : Option Key := all.find? (·.name == s)

def ofLetter? (c : Char) : Option Key := all.find? (·.letter? == some c)

end Key

/-- Why the arguments cannot be understood. -/
inductive UsageError where
  | unknown (option : String)
  | missingValue (key : Key)
  | unexpectedValue (key : Key) (value : String)
  | badValue (key : Key) (value : String)
  | badCommand (r : Rejection)
  | repeated (key : Key)
  | missingFile
  | extraFile (arg : String)
deriving Repr, Inhabited

namespace UsageError

/-- The error in words. -/
def message : UsageError → String
  | unknown o => "unexpected argument '" ++ o ++ "'"
  | missingValue k => "a value is required for '--" ++ k.name ++ "'"
  | unexpectedValue k v => "unexpected value '" ++ v ++ "' for '--" ++ k.name ++ "'"
  | badValue k v => "invalid value '" ++ v ++ "' for '--" ++ k.name ++ "'"
  | badCommand r => r.message
  | repeated k => "the argument '--" ++ k.name ++ "' cannot be used multiple times"
  | missingFile => "no session file given"
  | extraFile a => "unexpected argument '" ++ a ++ "'"

end UsageError

/-! ## From arguments to items -/

/-- A part of the command line. -/
inductive Item where
  | option (key : Key) (value : Option String)
  | file (name : String)
deriving DecidableEq, Repr, Inhabited

/-- Whether an argument cannot be a value. -/
def isOptionLike (arg : String) : Bool := arg.startsWith "-" && arg != "-"

/-- The options of a long argument: the name before the first equals sign, the value behind it. The
    option waits for its value if there is no equals sign. -/
def longOption (body : List Char) : Except UsageError (Item ⊕ Key) :=
  let name := String.ofList (body.takeWhile (· != '='))
  match Key.ofName? name, body.dropWhile (· != '=') with
  | none, _ => .error (.unknown ("--" ++ name))
  | some k, [] => .ok (if k.takesValue then .inr k else .inl (.option k none))
  | some k, _ :: value =>
    let value := String.ofList value
    if k.takesValue then .ok (.inl (.option k (some value)))
    else .error (.unexpectedValue k value)

/-- The options of letters put together. Behind the letter of an option that takes a value stands
    its value; that option waits if nothing does. -/
def letters : List Char → Except UsageError (List Item × Option Key)
  | [] => .ok ([], none)
  | c :: cs =>
    match Key.ofLetter? c with
    | none => .error (.unknown ("-" ++ c.toString))
    | some k =>
      if k.takesValue then
        match cs with
        | [] => .ok ([], some k)
        | '=' :: value | value => .ok ([.option k (some (String.ofList value))], none)
      else do
        let (items, waiting) ← letters cs
        return (.option k none :: items, waiting)

/-- The options of an argument that begins with a dash, and the option that waits for a value. -/
def optionItems : List Char → Except UsageError (List Item × Option Key)
  | '-' :: body =>
    return match ← longOption body with
      | .inl item => ([item], none)
      | .inr k => ([], some k)
  | cs => letters cs

/-- The parts of a command line. -/
def items : List String → Except UsageError (List Item)
  | [] => .ok []
  | arg :: rest =>
    if arg == "--" then .ok (rest.map .file)
    else if isOptionLike arg then do
      let (found, waiting) ← optionItems (arg.toList.drop 1)
      match waiting, rest with
      | none, rest => return found ++ (← items rest)
      | some k, [] => .error (.missingValue k)
      | some k, value :: rest =>
        if isOptionLike value then .error (.missingValue k)
        else return found ++ .option k (some value) :: (← items rest)
    else return .file arg :: (← items rest)

/-! ## From items to options -/

/-- How to process a session file. -/
structure Options where
  file : String
  /-- Commands behind those of the session. -/
  commands : List Command := []
  target : Lower.Target := .cpu
  /-- Whether the program is lowered after scheduling. -/
  lowered : Bool := true
  /-- Whether lowering ends with simplification. -/
  simplified : Bool := true
  emit : Emit := .tree
  /-- The file to write instead of the standard output. -/
  output : Option String := none
  /-- How much is told about the run besides its result. -/
  verbosity : Nat := 0
  quiet : Bool := false
deriving Repr, Inhabited

/-- What the program is asked for. -/
inductive Invocation where
  | help
  | version
  | run (o : Options)
deriving Repr, Inhabited

namespace Options

/-- Takes the value of an option. -/
def withValue (o : Options) (k : Key) (value : String) : Except UsageError Options :=
  match k, value with
  | .apply, text =>
    match Command.ofText text with
    | .ok c => .ok { o with commands := o.commands ++ [c] }
    | .error r => .error (.badCommand r)
  | .target, "cpu" => .ok { o with target := .cpu }
  | .target, "gpu" => .ok { o with target := .gpu }
  | .emit, "tree" => .ok { o with emit := .tree }
  | .emit, "json" => .ok { o with emit := .json }
  | .output, path => if path.isEmpty then .error (.badValue k path)
    else .ok { o with output := some path }
  | k, value => .error (.badValue k value)

/-- Takes an option without a value. -/
def withFlag (o : Options) : Key → Options
  | .noLower => { o with lowered := false }
  | .noSimplify => { o with simplified := false }
  | .verbose => { o with verbosity := o.verbosity + 1 }
  | .quiet => { o with quiet := true }
  | _ => o

/-- Takes the parts of a command line one after the other; `seen` are the options so far, and `file`
    is the file so far. -/
def ofItems (o : Options) (seen : List Key) (file : Option String) :
    List Item → Except UsageError Invocation
  | [] =>
    match file with
    | some file => .ok (.run { o with file })
    | none => .error .missingFile
  | .file name :: rest =>
    if file.isSome then .error (.extraFile name)
    else if name.isEmpty then .error .missingFile
    else ofItems o seen (some name) rest
  | .option k value :: rest =>
    if seen.contains k && !k.isRepeatable then .error (.repeated k)
    else match k, value with
      | .help, _ => .ok .help
      | .version, _ => .ok .version
      | k, some value => do ofItems (← o.withValue k value) (k :: seen) file rest
      | k, none => ofItems (o.withFlag k) (k :: seen) file rest

end Options

/-- Reads the arguments of the program. -/
def Invocation.ofArgs (args : List String) : Except UsageError Invocation := do
  Options.ofItems { file := "" } [] none (← items args)

end LoopNest.CommandLine

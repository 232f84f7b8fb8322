import LoopNest.Dependence.Direction
import LoopNest.Expr.Text

/-! # Rejected requests

  A request to restructure or lower a program is either carried out or rejected for a `Cause`. A cause
  belongs to a class of errors (`Cause.kind`) and has a wording (`Cause.message`). -/

namespace LoopNest

/-- What was asked for. -/
inductive Request where
  | command
  | reorder
  | split
  | parallelize
  | fission
  | varReorder
  | inline
  | lower
deriving DecidableEq, Repr, Inhabited

/-- The name of a request. -/
def Request.name : Request → String
  | .command => "command"
  | .reorder => "reorder"
  | .split => "split"
  | .parallelize => "parallelize"
  | .fission => "fission"
  | .varReorder => "var_reorder"
  | .inline => "inline"
  | .lower => "lower"

/-- The classes of causes. -/
inductive RejectionKind where
  | notFound
  | notALoop
  | notADeclaration
  | notPerfectNest
  | unsolvableDependency
  | malformedArguments
  | functionNotRegistered
  | argumentMismatch
  | recursiveCall
  | unsupported
deriving DecidableEq, Repr, Inhabited

namespace RejectionKind

def name : RejectionKind → String
  | notFound => "NotFound"
  | notALoop => "NotALoop"
  | notADeclaration => "NotAVarDef"
  | notPerfectNest => "NotPerfectNest"
  | unsolvableDependency => "UnsolvableDependency"
  | malformedArguments => "MalformedArguments"
  | functionNotRegistered => "FunctionNotRegistered"
  | argumentMismatch => "ArgumentMismatch"
  | recursiveCall => "RecursiveCall"
  | unsupported => "Unsupported"

/-- The class in words. -/
def reason : RejectionKind → String
  | notFound => "identifier not found"
  | notALoop => "not a loop"
  | notADeclaration => "not a variable definition"
  | notPerfectNest => "not a perfect nest"
  | unsolvableDependency => "unsolvable dependency"
  | malformedArguments => "malformed arguments"
  | functionNotRegistered => "function not registered"
  | argumentMismatch => "argument/parameter mismatch"
  | recursiveCall => "recursive call"
  | unsupported => "unsupported"

end RejectionKind

/-- How an argument fails to fit a parameter. -/
inductive Mismatch where
  | count (given expected : Nat)
  | undeclared (buffer : String)
  | rank (buffer : String) (given : Nat) (param : String) (expected : Nat)
  | elem (buffer : String) (given : ElemType) (param : String) (expected : ElemType)
  | extent (dim : Nat) (buffer : String) (given : Int) (param : String) (expected : Int)
  | written (buffer param : String)
  | notScalarInput (param : String)
deriving DecidableEq, Repr, Inhabited

namespace Mismatch

def message : Mismatch → String
  | count given expected =>
    toString given ++ " arguments given, " ++ toString expected ++ " expected"
  | undeclared b => "buffer " ++ b ++ " is not declared at the call site"
  | rank b given p expected =>
    b ++ " has rank " ++ toString given ++ ", parameter " ++ p ++ " expects " ++ toString expected
  | elem b given p expected =>
    b ++ " is " ++ given.name ++ ", parameter " ++ p ++ " expects " ++ expected.name
  | extent dim b given p expected =>
    "dimension " ++ toString dim ++ " of " ++ b ++ " is " ++ toString given ++ ", parameter " ++ p
      ++ " expects " ++ toString expected
  | written b p => b ++ " is written through input parameter " ++ p
  | notScalarInput p => "value passed to parameter " ++ p ++ ", which is not a scalar input"

end Mismatch

/-- Why a request is rejected. -/
inductive Cause where
  /-- No statement has the label. -/
  | notFound (label : String)
  /-- The label names something other than a loop. -/
  | notALoop (label : String)
  /-- The label names something other than a declaration. -/
  | notADeclaration (label : String)
  -- loops that form no perfect nest
  | notNested
  | looseLoops
  | between (kindName : String)
  | iteratorUsedBetween (iter : String)
  | besideBranch
  | mayRunZeroTimes
  | conditionUses (cond : Expr) (iter : String)
  | boundDepends (bound : Expr) (iter other : String)
  -- dependences that cannot be respected
  | conditionReads (cond : Expr)
  | boundReads (bound : Expr)
  | boundsRead (buffer : String)
  | dependence (d : Dependence)
  | parallelDependence (loop : String) (d : Dependence)
  -- arguments that make no sense
  | noLoops
  | listedTwice (label : String)
  | splitArguments
  | splitCount (count : Int)
  | emptyTag
  | singleStatement (loop : String)
  | notDirectlyInside (stmt loop : String)
  | nothingFollows (stmt : String)
  | notAPermutation (order : List Nat) (rank : Nat)
  | notACall (id : Nat) (kindName : String)
  | duplicateLabel (message : String)
  | function (name message : String)
  -- commands that cannot be read
  | emptyCommand
  | unreadableCommand (op text : String)
  | splitArgument (arg : String)
  | splitKey (key : String)
  | badDimension (dim : String)
  -- calls
  | unregistered (function : String)
  | mismatch (function : String) (how : Mismatch)
  | recursive (function : String) (chain : List String)
  -- things that are not supported
  | notACache (buffer : String) (access : String)
  | passedToCall (buffer : String)
  | unavailableTag (tag loop target : String)
  | undeclaredReduction (buffer : String)
  | reductionType (op : ReduceOp) (elem : ElemType) (buffer : String)
  | mixedReduction (buffer : String)
deriving Repr, Inhabited

namespace Cause

/-- The class of a cause. -/
def kind : Cause → RejectionKind
  | notFound _ => .notFound
  | notALoop _ => .notALoop
  | notADeclaration _ => .notADeclaration
  | notNested | looseLoops | between _ | iteratorUsedBetween _ | besideBranch | mayRunZeroTimes
  | conditionUses .. | boundDepends .. => .notPerfectNest
  | conditionReads _ | boundReads _ | boundsRead _ | dependence _ | parallelDependence .. =>
    .unsolvableDependency
  | noLoops | listedTwice _ | splitArguments | splitCount _ | emptyTag | singleStatement _
  | notDirectlyInside .. | nothingFollows _ | notAPermutation .. | notACall .. | duplicateLabel _
  | function .. | emptyCommand | unreadableCommand .. | splitArgument _ | splitKey _
  | badDimension _ => .malformedArguments
  | unregistered _ => .functionNotRegistered
  | mismatch .. => .argumentMismatch
  | recursive .. => .recursiveCall
  | notACache .. | passedToCall _ | unavailableTag .. | undeclaredReduction _ | reductionType ..
  | mixedReduction _ => .unsupported

/-- The cause in words. -/
def message : Cause → String
  | notFound l => l ++ " not found"
  | notALoop l => l ++ " is not a loop"
  | notADeclaration l => l ++ " is not a variable definition"
  | notNested => "the loops do not form a nest"
  | looseLoops => "loops are not nested"
  | between k => "a " ++ k ++ " sits between the loops to reorder"
  | iteratorUsedBetween v => "a statement between the loops uses a variable named `" ++ v ++ "`"
  | besideBranch => "statements next to a branch between the loops"
  | mayRunZeroTimes => "cannot move statements into a loop that may run zero times"
  | conditionUses c v => "condition `" ++ c.text ++ "` uses a variable named `" ++ v ++ "`"
  | boundDepends b v other =>
    "bound `" ++ b.text ++ "` of loop over " ++ v ++ " depends on " ++ other
  | conditionReads c => "condition `" ++ c.text ++ "` reads a buffer written in the nest"
  | boundReads b => "bound `" ++ b.text ++ "` reads a buffer written in the nest"
  | boundsRead b => "loop bounds read " ++ b ++ ", which the body writes"
  | dependence d => "unsolvable dependency: " ++ d.description
  | parallelDependence l d =>
    "unsolvable dependency: parallel loop " ++ l ++ " would carry " ++ d.description
  | noLoops => "no loops given"
  | listedTwice l => l ++ " listed twice"
  | splitArguments => "exactly one of factor and nparts must be given"
  | splitCount c => "split count must be positive, got " ++ toString c
  | emptyTag => "empty parallel tag"
  | singleStatement l => "body of " ++ l ++ " is a single statement"
  | notDirectlyInside s l => s ++ " is not a statement directly inside " ++ l
  | nothingFollows s => "nothing follows " ++ s
  | notAPermutation order rank =>
    "[" ++ Text.list ", " (order.map toString) ++ "] is not a permutation of " ++ toString rank
      ++ " dimensions"
  | notACall id k => Dependence.siteText id ++ " is a " ++ k ++ ", not a call"
  | duplicateLabel m => m
  | function f m => "function " ++ f ++ ": " ++ m
  | emptyCommand => "empty command"
  | unreadableCommand op text => "cannot parse `" ++ op ++ "` command `" ++ text ++ "`"
  | splitArgument arg => "expected factor=N or nparts=N, got `" ++ arg ++ "`"
  | splitKey key => "unknown split argument `" ++ key ++ "`"
  | badDimension d => "bad dimension `" ++ d ++ "`"
  | unregistered f => "function " ++ f ++ " is not registered"
  | mismatch f how => "call to " ++ f ++ ": " ++ how.message
  | recursive f chain => f ++ " calls itself through " ++ Text.list " -> " chain
  | notACache b access =>
    b ++ " is an " ++ access ++ " buffer; only cache buffers can be reordered"
  | passedToCall b => b ++ " is passed to a call"
  | unavailableTag tag l target =>
    "parallel tag " ++ tag ++ " of " ++ l ++ " is not available on " ++ target
  | undeclaredReduction b => "reduction into undeclared buffer " ++ b
  | reductionType op t b => op.symbol ++ " reduction into " ++ t.name ++ " buffer " ++ b
  | mixedReduction b => b ++ " is both reduced and assigned inside a parallel loop"

end Cause

/-- A rejected request. -/
structure Rejection where
  cause : Cause
  request : Request
deriving Repr, Inhabited

namespace Rejection

def kind (r : Rejection) : RejectionKind := r.cause.kind

/-- The rejection in words. -/
def message (r : Rejection) : String := r.cause.message ++ " in " ++ r.request.name

end Rejection

end LoopNest

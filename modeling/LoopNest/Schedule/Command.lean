import LoopNest.Rejection
import LoopNest.Text.Blank
import LoopNest.Word

/-! # Schedule commands

  A schedule is a list of commands. A command has a text of a few words:

  * `reorder L2,L1`
  * `split L1 factor=4` or `split L1 nparts=n`
  * `parallelize L1 openmp`
  * `fission L1 S0`
  * `var_reorder V 1,0`
  * `inline` -/

namespace LoopNest

/-- One request to restructure a program. -/
inductive Command where
  | reorder (order : List String)
  | split (label : String) (factor nparts : Option Expr)
  | parallelize (label tag : String)
  | fission (label after : String)
  | varReorder (label : String) (order : List Nat)
  | inline
deriving Repr, Inhabited

namespace Command

/-- What a command asks for. -/
def request : Command → Request
  | reorder _ => .reorder
  | split .. => .split
  | parallelize .. => .parallelize
  | fission .. => .fission
  | varReorder .. => .varReorder
  | inline => .inline

/-- Whether two commands are the same. -/
def same : Command → Command → Bool
  | reorder a, reorder b => a == b
  | split l f n, split l' f' n' => l == l' && Expr.sameAll f.toList f'.toList
      && Expr.sameAll n.toList n'.toList
  | parallelize l t, parallelize l' t' => l == l' && t == t'
  | fission l a, fission l' a' => l == l' && a == a'
  | varReorder l o, varReorder l' o' => l == l' && o == o'
  | inline, inline => true
  | _, _ => false

/-- The text of a command. -/
def text : Command → String
  | reorder order => "reorder " ++ Text.list "," order
  | split l (some c) _ => "split " ++ l ++ " factor=" ++ c.text
  | split l none (some c) => "split " ++ l ++ " nparts=" ++ c.text
  | split l none none => "split " ++ l
  | parallelize l tag => "parallelize " ++ l ++ " " ++ tag
  | fission l after => "fission " ++ l ++ " " ++ after
  | varReorder l order => "var_reorder " ++ l ++ " " ++ Text.list "," (order.map toString)
  | inline => "inline"

/-! ## Reading -/

/-- The value of a digit. -/
def digit? (c : Char) : Option Nat :=
  if '0' ≤ c ∧ c ≤ '9' then some (c.toNat - '0'.toNat) else none

/-- The number that digits write behind digits worth `acc`. -/
def digits? (acc : Nat) : List Char → Option Nat
  | [] => some acc
  | c :: cs => do digits? (10 * acc + (← digit? c)) cs

/-- A number of at least one digit. -/
def number? : List Char → Option Nat
  | [] => none
  | cs => digits? 0 cs

/-- A constant of the word with an optional sign. -/
def constant? (s : String) : Option Int :=
  match s.toList with
  | '-' :: cs => do Word.checked (-(← number? cs))
  | '+' :: cs => do Word.checked (← number? cs)
  | cs => do Word.checked (← number? cs)

/-- A dimension: a number of 64 bits with an optional plus sign. -/
def dimension? (s : String) : Option Nat := do
  let n ← match s.toList with
    | '+' :: cs => number? cs
    | cs => number? cs
  if n < Word.naturals then some n else none

/-- A count: a constant, or else the name of a scalar. -/
def count (s : String) : Expr := (constant? s).elim (.var s) .int

/-- The text before and behind the first equals sign. -/
def keyValue? (arg : String) : Option (String × String) :=
  match arg.toList.dropWhile (· != '=') with
  | [] => none
  | _ :: value => some (String.ofList (arg.toList.takeWhile (· != '=')), String.ofList value)

/-- Dimensions one after the other. -/
def dimensions : List String → Except Cause (List Nat)
  | [] => .ok []
  | d :: ds =>
    match dimension? d with
    | none => .error (.badDimension d)
    | some n => (n :: ·) <$> dimensions ds

/-- Reads the words of a command; `whole` is its text. -/
def ofWords (whole : String) : List String → Except Cause Command
  | ["reorder", order] => .ok (reorder (Text.items ',' order))
  | ["split", l, arg] =>
    match keyValue? arg with
    | none => .error (.splitArgument arg)
    | some ("factor", value) => .ok (split l (some (count value)) none)
    | some ("nparts", value) => .ok (split l none (some (count value)))
    | some (key, _) => .error (.splitKey key)
  | ["parallelize", l, tag] => .ok (parallelize l tag)
  | ["fission", l, after] => .ok (fission l after)
  | ["var_reorder", l, order] => varReorder l <$> dimensions (Text.items ',' order)
  | ["inline"] => .ok inline
  | [] => .error .emptyCommand
  | op :: _ => .error (.unreadableCommand op (Text.trimmed whole))

/-- Reads a command. -/
def ofText (s : String) : Except Rejection Command :=
  (ofWords s (Text.words s)).mapError fun c => ⟨c, .command⟩

end Command

end LoopNest

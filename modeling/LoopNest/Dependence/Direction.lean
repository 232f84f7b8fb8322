import LoopNest.Expr.Reduction

/-! # Dependences and their directions

  A dependence joins two statements that touch the same element of a buffer, at least one of them
  writing it. Its direction vector has one entry per analysed loop, outermost first, and compares
  the iteration of the earlier statement with that of the later one. -/

namespace LoopNest

/-- How two iterations of one loop compare. -/
inductive Direction where
  /-- The first one comes earlier. -/
  | lt
  /-- They are the same. -/
  | eq
  /-- The first one comes later. -/
  | gt
  /-- Nothing is known. -/
  | star
deriving DecidableEq, Repr, Inhabited

namespace Direction

def symbol : Direction → Char
  | lt => '<'
  | eq => '='
  | gt => '>'
  | star => '*'

/-- The comparison with the sides exchanged. -/
def reverse : Direction → Direction
  | lt => gt
  | gt => lt
  | d => d

@[simp] theorem reverse_reverse (d : Direction) : d.reverse.reverse = d := by
  cases d <;> rfl

/-- Whether a vector certainly does not point backwards: its first entry other than `eq` is `lt`. -/
def forward : List Direction → Bool
  | [] => true
  | lt :: _ => true
  | eq :: ds => forward ds
  | gt :: _ | star :: _ => false

end Direction

/-- What the two ends of a dependence do. -/
inductive DependenceKind where
  /-- A write, then a read. -/
  | flow
  /-- A read, then a write. -/
  | anti
  /-- Two writes. -/
  | output
deriving DecidableEq, Repr, Inhabited

namespace DependenceKind

def name : DependenceKind → String
  | flow => "Flow"
  | anti => "Anti"
  | output => "Output"

/-- The short name used in descriptions. -/
def shortName : DependenceKind → String
  | flow => "RAW"
  | anti => "WAR"
  | output => "WAW"

end DependenceKind

/-- A dependence between two statements. -/
structure Dependence where
  /-- The number of the statement executed first. -/
  source : Nat
  /-- The number of the statement executed later. -/
  target : Nat
  kind : DependenceKind
  /-- One entry per analysed loop, outermost first. -/
  direction : List Direction
  /-- The buffer that both statements touch. -/
  buffer : String
  /-- Set when both ends are part of a reduction with this operator. -/
  reduction : Option ReduceOp
  /-- The outermost loop whose iterations differ. -/
  level : Option Nat
deriving DecidableEq, Repr, Inhabited

namespace Dependence

/-- Whether the dependence stays within one iteration of every loop. -/
def isLoopIndependent (d : Dependence) : Bool := d.level.isNone

/-- Whether the dependence may cross iterations of the `k`-th loop. -/
def isCarriedAt (d : Dependence) (k : Nat) : Bool := d.direction[k]?.any (· != .eq)

/-- A statement number as texts show it. -/
def siteText (id : Nat) : String := "#" ++ toString id

/-- The dependence in one line. -/
def description (d : Dependence) : String :=
  let reduction := match d.reduction with
    | some op => " (reduction " ++ op.symbol ++ ")"
    | none => ""
  d.kind.shortName ++ " " ++ siteText d.source ++ " -> " ++ siteText d.target ++ " on " ++ d.buffer
    ++ " dir=<" ++ String.ofList (d.direction.map Direction.symbol) ++ ">" ++ reduction

end Dependence

end LoopNest

import LoopNest.Affine.Solvable
import LoopNest.Dependence.Access
import LoopNest.Dependence.Direction

/-! # Dependences of a loop nest

  For a chain of nested loops, the levels, every two accesses to one buffer, at least one of them a
  write, are tested for a conflict under direction vectors that are refined from the outermost level
  inwards.

  * Each loop variable is written as the loop's lower bound plus an offset. On a level that is
    already constrained, the second access sees the value of the first one, plus or minus a
    distance of at least one.
  * A vector is dropped when in one dimension the two subscripts certainly differ, by divisibility
    or by the ranges of the unknowns.
  * Subscripts that are not affine never rule a vector out. -/

namespace LoopNest

open Affine (Form Interval)

/-! ## Levels and pairs -/

/-- One level of the analysed chain. -/
structure Level where
  id : Nat
  iter : String
  extent : Option Int
  noDeps : List String
deriving Repr, Inhabited

/-- The level of a loop with a given head and number. -/
def LoopHead.level (h : LoopHead) (id : Nat) : Level := ⟨id, h.iter, h.extent?, h.noDeps⟩

/-- The level of a loop. A statement that is no loop constrains nothing. -/
def Stmt.level (t : Stmt) : Level :=
  match t.head? with
  | some h => h.level t.id
  | none => ⟨t.id, "", none, []⟩

/-- The side of a pair of accesses. -/
inductive Side where
  | first
  | second
deriving DecidableEq, Repr, Inhabited

/-- What the difference of two subscripts is made of. -/
inductive Unknown where
  /-- How far a loop is beyond its lower bound. -/
  | offset (side : Side) (loop : Nat)
  /-- How far the two iterations of a level lie apart, at least one. -/
  | distance (level : Nat)
  /-- A scalar that has the same value on both sides. -/
  | symbol (name : String)
  /-- The iterator of a loop whose lower bound is not affine. -/
  | hidden (side : Side) (loop : Nat)
deriving DecidableEq, Repr, Inhabited

namespace Unknown

def sideRank : Side → Nat
  | .first => 0
  | .second => 1

def rank : Unknown → Nat
  | offset .. => 0
  | distance _ => 1
  | symbol _ => 2
  | hidden .. => 3

/-- Offsets come before distances, then symbols, then hidden iterators. -/
def order : Unknown → Unknown → Ordering
  | offset s i, offset t j => (compare (sideRank s) (sideRank t)).then (compare i j)
  | distance k, distance l => compare k l
  | symbol x, symbol y => compare x y
  | hidden s i, hidden t j => (compare (sideRank s) (sideRank t)).then (compare i j)
  | a, b => compare a.rank b.rank

instance : Ord Unknown := ⟨order⟩

end Unknown

/-- Two accesses to one buffer and the number of levels around both. -/
structure Pair where
  a : Access
  b : Access
  common : Nat
deriving Repr, Inhabited

/-! ## Loop variables as affine forms -/

/-- The loops around an access with the values of their iterators, innermost first. A value is
    absent when it would leave the word. -/
abbrev Iterators := List (Enclosing × Option (Form Unknown))

namespace Iterators

/-- What a scalar stands for: the innermost loop of that name, else a symbol. -/
def resolve (env : Iterators) (name : String) : Option (Form Unknown) :=
  match env.find? (·.1.head.iter == name) with
  | some (_, value) => value
  | none => some (.ofAtom (.symbol name))

/-- The value of the iterator of the loop numbered `id`. -/
def valueOf (env : Iterators) (id : Nat) : Option (Form Unknown) :=
  (env.find? (·.1.id == id)).bind (·.2)

end Iterators

/-- The iterator of a loop as its lower bound plus an offset. -/
def Enclosing.freeValue (l : Enclosing) (side : Side) (env : Iterators) : Option (Form Unknown) :=
  match l.head.lower.linear? env.resolve with
  | some b => b.add? (.ofAtom (.offset side l.id))
  | none => some (.ofAtom (.hidden side l.id))

/-- The iterators around the first access. -/
def firstIterators (loops : List Enclosing) : Iterators :=
  loops.foldl (fun env l => (l, l.freeValue .first env) :: env) []

/-! ## Testing one vector -/

/-- The analysed chain. -/
structure Nest where
  levels : List Level
  /-- Levels from this one on are not refined. -/
  maxLevels : Nat

namespace Nest

/-- The place of a loop in the chain. -/
def levelOf? (n : Nest) (id : Nat) : Option Nat := n.levels.findIdx? (·.id == id)

/-- The direction that constrains the loop numbered `id`, with its level. -/
def constraint? (n : Nest) (p : Pair) (dirs : List Direction) (id : Nat) :
    Option (Nat × Direction) := do
  let k ← n.levelOf? id
  if k < p.common then
    let d := dirs.getD k .star
    if d = .star then none else some (k, d)
  else none

/-- The value of a constrained iterator on the second side. -/
def shifted (value : Form Unknown) (k : Nat) : Direction → Option (Form Unknown)
  | .lt => value.add? (.ofAtom (.distance k))
  | .gt => value.sub? (.ofAtom (.distance k))
  | .eq | .star => some value

/-- The iterators around the second access. -/
def secondIterators (n : Nest) (p : Pair) (dirs : List Direction) (first : Iterators) : Iterators :=
  p.b.loops.foldl (fun env l =>
    let value := match n.constraint? p dirs l.id with
      | some (k, d) => (first.valueOf l.id).bind (shifted · k d)
      | none => l.freeValue .second env
    (l, value) :: env) []

/-- The distances that a level allows. -/
def distanceRange (n : Nest) (k : Nat) : Interval :=
  match n.levels[k]?.bind (·.extent) with
  | some e => .between 1 (e - 1)
  | none => .atLeast 1

/-- The values that an unknown takes. -/
def rangeOf (n : Nest) (p : Pair) : Unknown → Interval
  | .offset _ id =>
    match ((p.a.loops ++ p.b.loops).find? (·.id == id)).bind (·.head.extent?) with
    | some e => .between 0 (max (e - 1) 0)
    | none => .atLeast 0
  | .distance k => n.distanceRange k
  | .symbol _ | .hidden .. => .unbounded

/-- Whether two subscripts of one dimension may be equal. -/
def subscriptsMayMeet (n : Nest) (p : Pair) (first second : Iterators) (x y : Expr) : Bool :=
  let diff := do
    let a ← x.linear? first.resolve
    let b ← y.linear? second.resolve
    let d ← a.sub? b
    return (d, ← Word.neg? d.constant)
  match diff with
  | none => true
  | some (d, rhs) =>
    let coeffs := d.terms.map (·.2)
    Affine.divisible coeffs rhs
      && Affine.reachesZero coeffs d.constant (d.terms.map fun t => n.rangeOf p t.1)

/-- Whether a direction is possible on a level. -/
def admits (n : Nest) (k : Nat) : Direction → Bool
  | .lt | .gt => !(n.distanceRange k).isEmpty
  | .eq | .star => true

/-- Whether the two accesses may touch one element under a vector. -/
def mayConflict (n : Nest) (p : Pair) (dirs : List Direction) : Bool :=
  ((dirs.take p.common).zipIdx.all fun (d, k) => n.admits k d)
    && (p.a.indices.length != p.b.indices.length
      || (let first := firstIterators p.a.loops
          let second := n.secondIterators p dirs first
          (p.a.indices.zip p.b.indices).all fun (x, y) => n.subscriptsMayMeet p first second x y))

/-! ## Refinement -/

/-- A vector whose first entries are fixed: levels around both accesses are open, the others lie
    outside one of them. -/
def padded (n : Nest) (p : Pair) (fixed : List Direction) : List Direction :=
  fixed ++ List.replicate (p.common - fixed.length) .star
    ++ List.replicate (n.levels.length - p.common) .eq

/-- The directions that are tried on a level. -/
def choices (forced : Bool) : List Direction := if forced then [.eq] else [.lt, .eq, .gt]

/-- The vectors that extend `fixed` and may conflict, refined on one level per entry of the list. -/
def refine (n : Nest) (p : Pair) (fixed : List Direction) : List Bool → List (List Direction)
  | [] => if n.mayConflict p (n.padded p fixed) then [n.padded p fixed] else []
  | f :: rest =>
    if n.mayConflict p (n.padded p fixed) then
      (choices f).flatMap fun d => refine n p (fixed ++ [d]) rest
    else []

/-- The number of levels around both accesses. -/
def commonLevels (n : Nest) (a b : Access) : Nat :=
  (n.levels.takeWhile fun l => a.loops.any (·.id == l.id) && b.loops.any (·.id == l.id)).length

/-- Whether the buffer of an access is declared inside a level. -/
def declaredInside (l : Level) (a : Access) : Bool :=
  match a.declDepth with
  | some d => (a.loops.take d).any (·.id == l.id)
  | none => false

/-- The levels on which two accesses can only meet in the same iteration. -/
def forcedEqual (n : Nest) (p : Pair) : List Bool :=
  (n.levels.take p.common).map fun l =>
    l.noDeps.contains p.a.buffer || (declaredInside l p.a && declaredInside l p.b)

/-- The vectors of a pair. -/
def vectors (n : Nest) (p : Pair) : List (List Direction) :=
  n.refine p [] ((n.forcedEqual p).take n.maxLevels)

/-! ## Dependences -/

/-- What two accesses make of a dependence; two reads make none. -/
def kindBetween : AccessKind → AccessKind → Option DependenceKind
  | .write, .read => some .flow
  | .read, .write => some .anti
  | .write, .write => some .output
  | .read, .read => none

/-- Whether a subscript of an access depends on a level. -/
def mentionsLevel (n : Nest) (a : Access) : Bool :=
  a.indices.any fun e => n.levels.any fun l => e.mentions l.iter

/-- The operator when two accesses belong to reductions into cells that no level moves. -/
def reductionPair? (n : Nest) (a b : Access) : Option ReduceOp :=
  match a.reduction with
  | some op =>
    if b.reduction == some op && !n.mentionsLevel a && !n.mentionsLevel b then some op else none
  | none => none

/-- The dependence that a vector stands for, pointing from the earlier access to the later one.
    An access does not depend on itself within one iteration. -/
def dependence? (n : Nest) (x y : Access) (dirs : List Direction) : Option Dependence := do
  let same := x.position == y.position
  let (src, tgt, direction) ← match dirs.find? (· != .eq) with
    | some .gt => if same then none else some (y, x, dirs.map Direction.reverse)
    | none => if same then none else some (x, y, dirs)
    | some _ => some (x, y, dirs)
  let kind ← kindBetween src.kind tgt.kind
  return {
    source := src.stmt
    target := tgt.stmt
    kind
    direction
    buffer := x.buffer
    reduction := n.reductionPair? x y
    level := direction.findIdx? (· != .eq) }

/-- The dependences between two accesses. -/
def between (n : Nest) (x y : Access) : List Dependence :=
  (n.vectors ⟨x, y, n.commonLevels x y⟩).filterMap (n.dependence? x y)

/-- Whether two accesses have to be compared. -/
def conflicting (x y : Access) : Bool :=
  x.buffer == y.buffer && !(x.kind == .read && y.kind == .read)

/-- The dependences of a list of accesses, each with itself and with all later ones. -/
def among (n : Nest) : List Access → List Dependence
  | [] => []
  | x :: rest => ((x :: rest).filter (conflicting x)).flatMap (n.between x) ++ among n rest

end Nest

/-- A call may touch anything: it depends on itself in every direction. -/
def callDependence (levels : Nat) (t : Stmt) : Option Dependence :=
  match t with
  | .call s f _ =>
    some {
      source := s.id
      target := s.id
      kind := .output
      direction := List.replicate levels .star
      buffer := f
      reduction := none
      level := some 0 }
  | _ => none

/-- The dependences below a statement over a chain of levels, outermost first. -/
def dependences (maxLevels : Nat) (scope : Stmt) (levels : List Level) : List Dependence :=
  scope.calls.filterMap (callDependence levels.length)
    ++ Nest.among ⟨levels, maxLevels⟩ scope.accesses

end LoopNest

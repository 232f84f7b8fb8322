import LoopNest.Expr.Simplify
import LoopNest.Names
import LoopNest.Restructure.Outcome

/-! # Splitting a loop

  A loop is split into an outer and an inner loop that together run through the same values in the
  same order. Either the trip count of the inner loop is given (`factor`) or that of the outer one
  (`parts`). Unless the count certainly divides the extent, a guard skips the values beyond the
  upper bound. -/

namespace LoopNest.Restructure

/-- Which of the two new trip counts is given. -/
inductive SplitBy where
  /-- The trip count of the inner loop. -/
  | factor (count : Expr)
  /-- The trip count of the outer loop. -/
  | parts (count : Expr)
deriving Repr, Inhabited

namespace SplitBy

/-- The given count. -/
def count : SplitBy → Expr
  | factor c | parts c => c

/-- Exactly one of the two counts must be given. -/
def ofArgs (factor nparts : Option Expr) : Outcome SplitBy :=
  match factor, nparts with
  | some c, none => .ok (.factor c)
  | none, some c => .ok (.parts c)
  | _, _ => .error .splitArguments

/-- The same request with a count that is a constant whenever it reduces to one. Constants must be
    positive; a symbolic count is taken to be positive when the program runs. -/
def reduced (s : SplitBy) : Outcome SplitBy :=
  match s.count.constant? with
  | some v =>
    if v ≤ 0 then .error (.splitCount v)
    else .ok (match s with
      | factor _ => .factor (.int v)
      | parts _ => .parts (.int v))
  | none => .ok s

/-- The trip counts of the outer and the inner loop for a given extent. -/
def tripCounts (s : SplitBy) (extent : Expr) : Expr × Expr :=
  match s with
  | factor c => (extent.ceilQuot c, c)
  | parts c => (c, extent.ceilQuot c)

end SplitBy

/-- Whether a count certainly divides an extent. -/
def divides (count extent : Expr) : Bool :=
  match extent.int?, count.int? with
  | some n, some c => n.tmod c == 0
  | _, _ => false

/-- Names and labels of the two loops. -/
structure SplitNames where
  outerIter : String
  innerIter : String
  outerLabel : String
  innerLabel : String

/-- Fresh names and labels for splitting a loop. -/
def splitNames (t : Stmt) (iter label : String) : SplitNames :=
  let (outerIter, names) := (NameSupply.mk t.usedNames).fresh (iter ++ ".0")
  let (innerIter, _) := names.fresh (iter ++ ".1")
  let (outerLabel, labels) := (NameSupply.mk t.labels).fresh (label ++ ".0")
  let (innerLabel, _) := labels.fresh (label ++ ".1")
  ⟨outerIter, innerIter, outerLabel, innerLabel⟩

/-- The two loops in place of one. -/
def splitLoop (l : Stmt.LabelledLoop) (by_ : SplitBy) (names : SplitNames) : Stmt :=
  let h := l.head
  let extent := h.upper.minus h.lower
  let (outerCount, innerCount) := by_.tripCounts extent
  -- the old iterator is the lower bound plus the inner one plus whole rounds of the inner loop
  let rounds := innerCount.mul (.var names.outerIter)
  let value := h.lower.plus ((Expr.var names.innerIter).add rounds)
  let body := l.body.substitute h.iter value
  let guarded :=
    if divides by_.count extent then body else .guard .unnumbered (value.lessThan h.upper) body
  let inner := Stmt.loop (.unnumbered (some names.innerLabel))
    { iter := names.innerIter, lower := .int 0, upper := innerCount } guarded
  .loop (.unnumbered (some names.outerLabel))
    { h with iter := names.outerIter, lower := .int 0, upper := outerCount } inner

/-- Splits the loop with a given label; also gives the labels of the outer and the inner loop. -/
def split (t : Stmt) (label : String) (factor nparts : Option Expr) :
    Outcome (Stmt × String × String) := do
  let l ← t.loopAt label
  let by_ ← (← SplitBy.ofArgs factor nparts).reduced
  let names := splitNames t l.head.iter label
  return (t.update l.site.id fun _ => splitLoop l by_ names, names.outerLabel, names.innerLabel)

end LoopNest.Restructure

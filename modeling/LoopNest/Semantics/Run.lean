import LoopNest.Program.Basic
import LoopNest.Semantics.Value

/-! # Running programs

  `Stmt.run` runs a program without calls on a memory. It gives the memory afterwards and all writes
  in the order in which they were made.

  * The bounds of a loop are evaluated once, before the first iteration. Iterations run in
    increasing order, those of parallel loops as well.
  * The memory `fresh` says what a local buffer holds when its declaration is entered; with
    `Memory.blank` an element has to be written before it is read. When the declaration is left, the
    name means again what it meant before.
  * A run has no answer when an expression has none, or when it comes to a call or a wildcard. -/

namespace LoopNest

/-- A write of one element. -/
structure Write where
  buffer : String
  indices : List Int
  value : Int
deriving DecidableEq, Repr, Inhabited

/-- What a program does to a memory: the memory afterwards and the writes. -/
abbrev Action := Memory → Option (Memory × List Write)

namespace Action

/-- Leaves the memory as it is. -/
def skip : Action := fun m => some (m, [])

/-- Fails on every memory. -/
def stuck : Action := fun _ => none

/-- One action after the other. -/
def seq (a b : Action) : Action := fun m => do
  let (m, before) ← a m
  let (m, after) ← b m
  return (m, before ++ after)

/-- Actions in the order of a list. -/
def inTurn (actions : List Action) : Action := actions.foldr seq skip

/-- An action on a buffer of its own, with the given cells at first, that hides another one of that
    name. -/
def withLocal (buffer : String) (cells : Cells) (a : Action) : Action := fun m => do
  let (after, writes) ← a (m.exchange buffer cells)
  return (after.exchange buffer (m buffer), writes)

theorem skip_seq (a : Action) : skip.seq a = a := by
  funext m
  simp only [seq, skip, Option.bind_eq_bind, Option.bind_some]
  cases a m <;> rfl

theorem seq_skip (a : Action) : a.seq skip = a := by
  funext m
  simp only [seq, skip]
  cases a m <;> simp

theorem seq_assoc (a b c : Action) : (a.seq b).seq c = a.seq (b.seq c) := by
  funext m
  simp only [seq]
  cases a m with
  | none => rfl
  | some r =>
    cases h : b r.1 with
    | none => simp [h]
    | some s => cases h' : c s.1 <;> simp [h, h']

@[simp] theorem inTurn_nil : inTurn [] = skip := rfl

@[simp] theorem inTurn_cons (a : Action) (as : List Action) :
    inTurn (a :: as) = a.seq (inTurn as) := rfl

theorem inTurn_append (as bs : List Action) :
    inTurn (as ++ bs) = (inTurn as).seq (inTurn bs) := by
  induction as with
  | nil => simp [skip_seq]
  | cons a as ih => simp [ih, seq_assoc]

end Action

/-- The integers from `lower` on that are less than `upper`, in increasing order. -/
def counting (lower upper : Int) : List Int :=
  (List.range (upper - lower).toNat).map fun (k : Nat) => lower + (k : Int)

theorem mem_counting {lower upper v : Int} : v ∈ counting lower upper ↔ lower ≤ v ∧ v < upper := by
  simp only [counting, List.mem_map, List.mem_range]
  constructor
  · rintro ⟨k, hk, rfl⟩
    omega
  · intro h
    exact ⟨(v - lower).toNat, by omega, by omega⟩

namespace Stmt

mutual
/-- What a program does. -/
def run (fresh : Memory) (env : Env) : Stmt → Action
  | .decl _ n b body =>
    if b.access = .cache then (run fresh env body).withLocal n (fresh n) else run fresh env body
  | .loop _ h body => fun m => do
    let lower ← h.lower.value? env m
    let upper ← h.upper.value? env m
    Action.inTurn ((counting lower upper).map fun v => run fresh (env.set h.iter v) body) m
  | .guard _ c body => fun m => do
    if (← c.value? env m) = 0 then Action.skip m else run fresh env body m
  | .branch _ c yes no => fun m => do
    if (← c.value? env m) = 0 then run fresh env no m else run fresh env yes m
  | .store _ b is v => fun m => do
    let indices ← Expr.values? env m is
    let value ← v.value? env m
    return (m.put b indices value, [⟨b, indices, value⟩])
  | .block _ stmts => runAll fresh env stmts
  | .call .. | .hole _ => .stuck
/-- What statements do one after the other. -/
def runAll (fresh : Memory) (env : Env) : List Stmt → Action
  | [] => .skip
  | t :: ts => (run fresh env t).seq (runAll fresh env ts)
end

theorem runAll_eq_inTurn (fresh : Memory) (env : Env) (ts : List Stmt) :
    runAll fresh env ts = Action.inTurn (ts.map (run fresh env)) := by
  induction ts with
  | nil => rfl
  | cons t ts ih => simp [runAll, ih]

end Stmt

end LoopNest

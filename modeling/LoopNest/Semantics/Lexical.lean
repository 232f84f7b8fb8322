import LoopNest.Semantics.Rounding
import LoopNest.Semantics.Run

/-! # Runs in lexical scopes

  `Stmt.runIn` runs a program without calls and keeps apart the buffers that have one name.

  * A local declaration introduces a buffer of its own for its body, with the contents that `fresh`
    has for the declaration. A visible declaration stands for the buffer that has this name outside of
    the program, also inside of a local declaration of the same name.
  * Every write says which declaration its buffer belongs to.
  * Float constants have the values that `round` gives them.

  `Stmt.run` goes by names alone. It does the same when no buffer is declared visible inside of a local
  declaration of its name. -/

namespace LoopNest

/-- The numbers of the local declarations that names refer to. Other names refer to the buffers outside
    of the program. -/
abbrev LocalScope := String → Option Nat

namespace LocalScope

/-- No name is declared. -/
def outside : LocalScope := fun _ => none

/-- The scope below a declaration. -/
def enter (σ : LocalScope) (s : Site) (n : String) (b : Buffer) : LocalScope :=
  fun c => if c = n then (if b.access = .cache then some s.id else none) else σ c

end LocalScope

/-- The contents of the buffers outside of a program, and of the local buffers that are in scope. -/
structure Stores where
  outside : Memory
  locals : Memory

namespace Stores

/-- The buffers that names refer to. -/
def seen (s : Stores) (σ : LocalScope) : Memory :=
  fun b => if (σ b).isSome then s.locals b else s.outside b

/-- The same contents but for one element. -/
def put (s : Stores) (σ : LocalScope) (b : String) (indices : List Int) (value : Int) : Stores :=
  if (σ b).isSome then { s with locals := s.locals.put b indices value }
  else { s with outside := s.outside.put b indices value }

/-- The same contents but for one local buffer. -/
def exchange (s : Stores) (b : String) (cells : Cells) : Stores :=
  { s with locals := s.locals.exchange b cells }

end Stores

/-- A write together with the number of the local declaration that its buffer belongs to, if there is
    one. -/
structure ScopedWrite extends Write where
  decl : Option Nat
deriving DecidableEq, Repr

/-- What a program does in a scope: the contents afterwards and the writes. -/
abbrev Process := Stores → Option (Stores × List ScopedWrite)

namespace Process

/-- What is done for the elements of a list, one after the other. -/
def inTurn {α : Type} (f : α → Process) : List α → Process
  | [] => fun s => some (s, [])
  | x :: xs => fun s => do
    let (s, before) ← f x s
    let (s, after) ← inTurn f xs s
    return (s, before ++ after)

/-- A process that has other contents for a local buffer, which hides the one of that name. -/
def withLocal (b : String) (cells : Cells) (a : Process) : Process := fun s => do
  let (after, writes) ← a (s.exchange b cells)
  return (after.exchange b (s.locals b), writes)

end Process

namespace Stmt

mutual
/-- What a program does in a scope. -/
def runIn (round : Float → Int) (fresh : Nat → Memory) (σ : LocalScope) (env : Env) : Stmt → Process
  | .decl s n b body => (runIn round fresh (σ.enter s n b) env body).withLocal n (fresh s.id n)
  | .loop _ h body => fun s => do
    let lower ← (h.lower.rounded round).value? env (s.seen σ)
    let upper ← (h.upper.rounded round).value? env (s.seen σ)
    Process.inTurn (fun v => runIn round fresh σ (env.set h.iter v) body) (counting lower upper) s
  | .guard _ c body => fun s => do
    if (← (c.rounded round).value? env (s.seen σ)) = 0 then some (s, [])
    else runIn round fresh σ env body s
  | .branch _ c yes no => fun s => do
    if (← (c.rounded round).value? env (s.seen σ)) = 0 then runIn round fresh σ env no s
    else runIn round fresh σ env yes s
  | .store _ b is v => fun s => do
    let indices ← Expr.values? env (s.seen σ) (is.map (Expr.rounded round))
    let value ← (v.rounded round).value? env (s.seen σ)
    return (s.put σ b indices value, [⟨⟨b, indices, value⟩, σ b⟩])
  | .block _ stmts => runAllIn round fresh σ env stmts
  | .call .. | .hole _ => fun _ => none
/-- What statements do one after the other. -/
def runAllIn (round : Float → Int) (fresh : Nat → Memory) (σ : LocalScope) (env : Env) :
    List Stmt → Process
  | [] => fun s => some (s, [])
  | t :: ts => fun s => do
    let (s, before) ← runIn round fresh σ env t s
    let (s, after) ← runAllIn round fresh σ env ts s
    return (s, before ++ after)
end

theorem runAllIn_eq_inTurn (round : Float → Int) (fresh : Nat → Memory) (σ : LocalScope) (env : Env)
    (ts : List Stmt) :
    runAllIn round fresh σ env ts = Process.inTurn (runIn round fresh σ env) ts := by
  induction ts with
  | nil => rfl
  | cons t ts ih =>
    funext s
    rw [runAllIn, Process.inTurn, ih]

end Stmt

end LoopNest

import LoopNest.Program.Function
import LoopNest.Semantics.Run

/-! # Running programs with calls

  `Stmt.execute` runs a program together with the functions that it calls. Nothing is expanded.

  * A program works on a state that it sees through a `View`: as a memory in which it can give a
    buffer other contents. The outermost program sees a memory as it is.
  * A called function sees the buffers passed to it under the names of their parameters, and has the
    same view of them as its caller. All other names mean buffers of its own, which have no contents
    at first and are gone when it returns.
  * A value is evaluated once, when the function is entered. The function reads it under the name of
    the parameter, as a scalar or as a buffer without subscripts.
  * A run has no answer when calls are nested deeper than `depth`. -/

namespace LoopNest

/-! ## Views -/

/-- How a program sees a state. -/
structure View (S : Type) where
  /-- What is read. -/
  seen : S → Memory
  /-- The state with other contents of a buffer. -/
  exchange : S → String → Cells → S

/-- The same contents but for one element. -/
def Cells.put (cells : Cells) (indices : List Int) (value : Int) : Cells :=
  fun is => if is = indices then some value else cells is

namespace View

variable {S : Type}

/-- A memory seen as it is. -/
def whole : View Memory := ⟨fun m => m, Memory.exchange⟩

/-- The state but for one element of a buffer. -/
def put (V : View S) (s : S) (buffer : String) (indices : List Int) (value : Int) : S :=
  V.exchange s buffer (Cells.put (V.seen s buffer) indices value)

/-- What a called function sees of the state of its caller and of its own buffers. The aliases say
    which buffers of the caller its parameters stand for. -/
def callee (V : View S) (aliases : Expr.Renaming) : View (S × Memory) where
  seen s b :=
    match aliases.lookup b with
    | some a => V.seen s.1 a
    | none => s.2 b
  exchange s b cells :=
    match aliases.lookup b with
    | some a => (V.exchange s.1 a cells, s.2)
    | none => (s.1, s.2.exchange b cells)

@[simp] theorem whole_seen (m : Memory) : whole.seen m = m := rfl

@[simp] theorem whole_exchange (m : Memory) (b : String) (cells : Cells) :
    whole.exchange m b cells = m.exchange b cells := rfl

@[simp] theorem whole_put (m : Memory) (b : String) (is : List Int) (v : Int) :
    whole.put m b is v = m.put b is v := by
  funext c js
  by_cases hc : c = b
  · subst hc
    simp [put, Cells.put, Memory.put]
  · simp [put, Memory.exchange, Memory.put, hc]

end View

/-! ## Entering a function -/

/-- The buffer that an argument passes. -/
def Arg.buffer? : Arg → Option String
  | .buffer b => some b
  | .value _ => none

/-- The value that an argument passes. -/
def Arg.value? : Arg → Option Expr
  | .value e => some e
  | .buffer _ => none

namespace Function

/-- The buffers that parameters stand for. The last one counts when two parameters have one name. -/
def aliases (f : Function) (args : List Arg) : Expr.Renaming :=
  ((f.params.zip args).filterMap fun x => x.2.buffer?.map (x.1.name, ·)).reverse

/-- The expressions passed by value, in the order of the parameters. -/
def passed (f : Function) (args : List Arg) : List (String × Expr) :=
  (f.params.zip args).filterMap fun x => x.2.value?.map (x.1.name, ·)

/-- The values passed. -/
def values? (f : Function) (args : List Arg) (env : Env) (m : Memory) :
    Option (List (String × Int)) := do
  let values ← Expr.values? env m ((f.passed args).map Prod.snd)
  return ((f.passed args).map Prod.fst).zip values

end Function

/-- The scalars of a function that was entered with some values. -/
def Env.entry (values : List (String × Int)) : Env := fun x => (values.lookup x).getD 0

/-- The own buffers of a function that was entered with some values. -/
def Memory.entry (values : List (String × Int)) : Memory :=
  fun b is => if is = [] then values.lookup b else none

/-! ## Running -/

/-- A change of a state; none when the run has no answer. -/
abbrev Transition (S : Type) := S → Option S

namespace Stmt

variable {S : Type}

mutual
/-- What a program does to the state that it sees. Calls do what `call` says. -/
def runOn (V : View S) (call : Env → String → List Arg → Transition S) (fresh : Memory) (env : Env) :
    Stmt → Transition S
  | .decl _ n b body => fun s =>
    if b.access = .cache then do
      let after ← runOn V call fresh env body (V.exchange s n (fresh n))
      return V.exchange after n (V.seen s n)
    else runOn V call fresh env body s
  | .loop _ h body => fun s => do
    let lower ← h.lower.value? env (V.seen s)
    let upper ← h.upper.value? env (V.seen s)
    (counting lower upper).foldlM (fun s v => runOn V call fresh (env.set h.iter v) body s) s
  | .guard _ c body => fun s => do
    if (← c.value? env (V.seen s)) = 0 then some s else runOn V call fresh env body s
  | .branch _ c yes no => fun s => do
    if (← c.value? env (V.seen s)) = 0 then runOn V call fresh env no s
    else runOn V call fresh env yes s
  | .store _ b is v => fun s => do
    let indices ← Expr.values? env (V.seen s) is
    let value ← v.value? env (V.seen s)
    return V.put s b indices value
  | .call _ f args => call env f args
  | .block _ stmts => runAllOn V call fresh env stmts
  | .hole _ => fun _ => none
/-- What statements do one after the other. -/
def runAllOn (V : View S) (call : Env → String → List Arg → Transition S) (fresh : Memory)
    (env : Env) : List Stmt → Transition S
  | [] => some
  | t :: ts => fun s => (runOn V call fresh env t s).bind (runAllOn V call fresh env ts)
end

end Stmt

/-- What a call does, when the calls in the function are nested less than `depth` deep. -/
def Registry.enter (r : Registry) (fresh : Memory) :
    (depth : Nat) → {S : Type} → View S → Env → String → List Arg → Transition S
  | 0, _, _, _, _, _ => fun _ => none
  | depth + 1, _, V, env, name, args => fun s => do
    let f ← r.get? name
    let values ← f.values? args env (V.seen s)
    let own := V.callee (f.aliases args)
    let (after, _) ← f.body.runOn own (r.enter fresh depth own) fresh (.entry values)
      (s, .entry values)
    return after

/-- What a program and the functions it calls do, with calls at most `depth` deep. -/
def Stmt.execute {S : Type} (r : Registry) (fresh : Memory) (depth : Nat) (V : View S) (env : Env)
    (t : Stmt) : Transition S :=
  t.runOn V (r.enter fresh depth V) fresh env

end LoopNest

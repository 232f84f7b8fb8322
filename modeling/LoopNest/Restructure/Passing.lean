import LoopNest.Restructure.Expansion

/-! # Passing by value

  A call evaluates its value arguments once, on entry. A private copy of the function has the argument
  in the place of every use of the parameter, where it is evaluated at each use. The arguments are put
  in one after the other, so an argument is put into those that were put in before it.

  * `Stmt.phrases` are the expressions of a program. `Expansion.Use` says what a use of a parameter is.
  * `Restructure.settle?` puts values in one after the other, as a copy does.
  * `Restructure.InOrder` says when no argument is put into another one.
  * `Registry.Writes` says which buffers a program writes, also by way of the functions it calls, and
    `Registry.leaves` looks for that in the calls.
  * `Expansion.Steady` says when an argument keeps the value that it has on entry. -/

namespace LoopNest

namespace Stmt

/-- The buffer that a statement writes or declares. -/
def written? : Stmt → Option String
  | .decl _ n _ _ => some n
  | .store _ b _ _ => some b
  | _ => none

/-- The buffers in a statement itself, except for those that are only read in arguments of a call. -/
def lasting : Stmt → List String
  | .call s f args => (Stmt.call s f args).ownBuffers
  | t => t.mentions

/-- The buffers that a program declares, writes, passes on or reads elsewhere than in arguments. -/
def lastingNames (t : Stmt) : List String := t.nodes.flatMap lasting

/-- The expressions of a program, those of each statement together. -/
def phrases (t : Stmt) : List (List Expr) := t.nodes.map exprs

end Stmt

/-- A program writes or declares a buffer, or it passes the buffer to a function that writes the
    parameter. -/
inductive Registry.Writes (r : Registry) : Stmt → String → Prop where
  | here {t u : Stmt} {b : String} (mem : u ∈ t.nodes) (own : u.written? = some b) : r.Writes t b
  | inside {t : Stmt} {s : Site} {f p b : String} {args : List Arg} {g : Function}
    (mem : .call s f args ∈ t.nodes) (function : r.get? f = some g)
    (passed : (g.aliases args).lookup p = some b) (below : Writes r g.body p) : r.Writes t b

/-- A program is seen not to write a buffer when calls are followed as deep as `depth` says. -/
def Registry.leaves (r : Registry) : (depth : Nat) → Stmt → String → Bool
  | 0, t, b => t.nodes.all fun u => !u.isCall && u.written? != some b
  | depth + 1, t, b => t.nodes.all fun u =>
    match u with
    | .call _ f args =>
      match r.get? f with
      | none => true
      | some g => (g.aliases args).all fun a => a.2 != b || leaves r depth g.body a.1
    | u => u.written? != some b

namespace Restructure

/-- Gives every name the value of its expression, one after the other, the last one first. -/
def settle? (m : Memory) (env : Env) : List (String × Expr) → Option Env
  | [] => some env
  | v :: values => do
    let env ← settle? m env values
    return env.set v.1 (← v.2.value? env m)

/-- Values that are put in one after the other and are not changed by it.

    * **own**: a value does not read a buffer under the name for which it stands;
    * **later**: it does not mention the names whose values are put in after it. -/
structure InOrder (values : List (String × Expr)) : Prop where
  own : ∀ v ∈ values, v.1 ∉ v.2.buffers
  later : values.Pairwise fun v w => w.1 ∉ v.2.scalars ∧ w.1 ∉ v.2.buffers

instance (values : List (String × Expr)) : Decidable (InOrder values) :=
  decidable_of_iff
    ((∀ v ∈ values, v.1 ∉ v.2.buffers)
      ∧ values.Pairwise fun v w => w.1 ∉ v.2.scalars ∧ w.1 ∉ v.2.buffers)
    ⟨fun ⟨own, later⟩ => ⟨own, later⟩, fun h => ⟨h.own, h.later⟩⟩

/-- A parameter that stands for a value is used as a scalar or as a cell, which is a buffer when one is
    passed under the same name. -/
inductive Expansion.Use (e : Expansion) (p : String) : Expr → Prop where
  | scalar : Use e p (.var p)
  | cell (value : p ∉ e.bufferNames) : Use e p (.load p [])

/-- What the arguments of a call are worth stays the same in the function.

    * **outside**, **inside**: the function takes its parameters from outside and nothing else, and it
      binds no iterator and no buffer under the name of a parameter;
    * **order**: no argument is put into another one;
    * **buffers**: no buffer is passed that has the name of a parameter that stands for a value;
    * **unwritten**: a buffer that an argument reads is not passed to a parameter that is written. -/
structure Expansion.Steady (r : Registry) (e : Expansion) : Prop where
  outside : e.function.body.within ⟨e.valueNames, e.valueNames, e.bufferNames⟩ = true
  inside : ∀ x ∈ e.function.body.binders, x.name ∉ e.function.params.map Param.name
  order : InOrder (e.function.passed e.args)
  buffers : ∀ a ∈ e.function.aliases e.args, a.2 ∉ e.valueNames
  unwritten : ∀ v ∈ e.function.passed e.args, ∀ b ∈ v.2.buffers, ∀ p,
    (e.function.aliases e.args).lookup p = some b → ¬ r.Writes e.function.body p

end Restructure

end LoopNest

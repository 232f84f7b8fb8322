import LoopNest.Program.Scoping
import LoopNest.Program.Vocabulary
import LoopNest.Restructure.Inline
import LoopNest.Semantics.Calls

/-! # Expansions

  An `Expansion` is a call at the moment when it is expanded: the function and the arguments.
  `expansions` lists the expansions of a draft in the order in which they are made, `privateCopies` the
  copies that they put in the places of the calls. The calls that a copy brings in are expanded before
  the next one.

  `Expansion.Apart` says when the names of the function and of the arguments do not meet.
  `Stmt.bufferNames` are the buffers of a program, where the program with calls and the expanded one
  are compared. -/

namespace LoopNest

namespace Stmt

/-- The buffers that a statement names outside its expressions. -/
def ownBuffers : Stmt → List String
  | .decl _ n _ _ => [n]
  | .store _ b _ _ => [b]
  | .call _ _ args => args.filterMap Arg.buffer?
  | _ => []

/-- The buffers in a statement itself. -/
def mentions (t : Stmt) : List String := t.ownBuffers ++ t.exprs.flatMap Expr.buffers

/-- The buffers that a program declares, writes, passes on or reads. -/
def bufferNames (t : Stmt) : List String := t.nodes.flatMap mentions

end Stmt

namespace Restructure

/-- A call that is expanded. -/
structure Expansion where
  function : Function
  args : List Arg

namespace Expansion

variable (e : Expansion)

/-- The parameters that stand for a value. -/
def valueNames : List String := (e.function.passed e.args).map Prod.fst

/-- The parameters that stand for a buffer. -/
def bufferNames : List String := (e.function.aliases e.args).map Prod.fst

/-- The names of function and arguments are apart.

    * **outside**: of the names from outside, the function uses its own parameters only, those that
      stand for a value as a scalar or as a cell, and those that stand for a buffer as a buffer;
    * **inside**: it binds no iterator and no buffer under the name of a parameter;
    * **pure**: no value reads a buffer;
    * **scalars**, **buffers**: no argument mentions the name of a parameter that stands for a
      value. -/
structure Apart : Prop where
  outside : e.function.body.within ⟨e.valueNames, e.valueNames, e.bufferNames⟩ = true
  inside : ∀ x ∈ e.function.body.binders, x.name ∉ e.function.params.map Param.name
  pure : ∀ v ∈ e.function.passed e.args, v.2.buffers = []
  scalars : ∀ v ∈ e.function.passed e.args, ∀ x ∈ v.2.scalars, x ∉ e.valueNames
  buffers : ∀ a ∈ e.function.aliases e.args, a.2 ∉ e.valueNames

instance : Decidable e.Apart :=
  decidable_of_iff
    (e.function.body.within ⟨e.valueNames, e.valueNames, e.bufferNames⟩ = true
      ∧ (∀ x ∈ e.function.body.binders, x.name ∉ e.function.params.map Param.name)
      ∧ (∀ v ∈ e.function.passed e.args, v.2.buffers = [])
      ∧ (∀ v ∈ e.function.passed e.args, ∀ x ∈ v.2.scalars, x ∉ e.valueNames)
      ∧ ∀ a ∈ e.function.aliases e.args, a.2 ∉ e.valueNames)
    ⟨fun ⟨outside, inside, pure, scalars, buffers⟩ => ⟨outside, inside, pure, scalars, buffers⟩,
      fun h => ⟨h.outside, h.inside, h.pure, h.scalars, h.buffers⟩⟩

end Expansion

/-- The first `count` expansions that are made for the calls of a list, as far as they fit. -/
def expansions (r : Registry) : (count : Nat) → Draft → (calls : List Stmt) → List Expansion
  | count + 1, d, .call site callee args :: calls =>
    match r.get? callee with
    | none => []
    | some f =>
      match bindArgs (fun name => d.tree.bufferAt? name site.id) callee f.body.written {} f.params
          args with
      | .error _ => []
      | .ok b =>
        let (copy, next) := privateCopy d.tree d.next f b (site.label.getD callee)
        ⟨f, args⟩ :: expansions r count ⟨d.tree.update site.id fun _ => copy, next⟩
          (copy.calls ++ calls)
  | _, _, _ => []

/-- The private copies that the first `count` expansions make for the calls of a list, as far as they
    fit. The calls in a copy are still there. -/
def privateCopies (r : Registry) : (count : Nat) → Draft → (calls : List Stmt) → List Stmt
  | count + 1, d, .call site callee args :: calls =>
    match r.get? callee with
    | none => []
    | some f =>
      match bindArgs (fun name => d.tree.bufferAt? name site.id) callee f.body.written {} f.params
          args with
      | .error _ => []
      | .ok b =>
        let (copy, next) := privateCopy d.tree d.next f b (site.label.getD callee)
        copy :: privateCopies r count ⟨d.tree.update site.id fun _ => copy, next⟩
          (copy.calls ++ calls)
  | _, _, _ => []

end Restructure

end LoopNest

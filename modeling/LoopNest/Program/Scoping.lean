import LoopNest.Program.Walk

/-! # Scopes of names

  A loop binds its iterator and a declaration binds its buffer, each for its body. A program is
  cleanly named when no name is bound again where it is bound already, and what is bound anywhere is
  only used where it is bound. Then a name means one thing wherever it occurs, and a statement that
  moves inside its scope keeps its meaning.

  * `Symbol` tells scalars and buffers of one name apart.
  * `Stmt.Scoped` checks a statement among the names that are bound around it.
  * `Stmt.CleanlyNamed` is the check of a whole program. -/

namespace LoopNest

/-- A name together with what it names. -/
inductive Symbol where
  | scalar (name : String)
  | buffer (name : String)
deriving DecidableEq, Repr

/-- The name without what it names. -/
def Symbol.name : Symbol → String
  | scalar x | buffer x => x

/-- The names in an expression. -/
def Expr.symbols (e : Expr) : List Symbol := e.scalars.map .scalar ++ e.buffers.map .buffer

namespace Stmt

/-- What a statement binds for its body. -/
def binder? : Stmt → Option Symbol
  | .decl _ n _ _ => some (.buffer n)
  | .loop _ h _ => some (.scalar h.iter)
  | _ => none

/-- What a statement writes itself. -/
def target? : Stmt → Option Symbol
  | .store _ b _ _ => some (.buffer b)
  | _ => none

/-- What occurs in the statement itself, in its expressions or as the target of a store. -/
def occurrences (t : Stmt) : List Symbol := t.target?.toList ++ t.exprs.flatMap Expr.symbols

/-- What occurs anywhere in a program. -/
def symbols (t : Stmt) : List Symbol := t.nodes.flatMap occurrences

/-- What is bound anywhere in a program. -/
def binders (t : Stmt) : List Symbol := t.nodes.filterMap binder?

/-- A statement in the scope of the names `around` it.

    * **uses**: of the `bound` names, only those around it occur in it;
    * **apart**: it does not bind a name around it again;
    * **inner**: so it is with the statements below, which lie in the scope of its binder, too. -/
inductive Scoped (bound : List Symbol) : (around : List Symbol) → Stmt → Prop where
  | intro {around : List Symbol} {t : Stmt}
      (uses : ∀ x ∈ t.occurrences, x ∈ bound → x ∈ around)
      (apart : ∀ x ∈ t.binder?, x ∉ around)
      (inner : ∀ u ∈ t.children, Scoped bound (t.binder?.toList ++ around) u) :
      Scoped bound around t

/-- No loop lies inside a loop with the same iterator, no declaration inside a declaration of the
    same buffer, and what a loop or a declaration binds occurs only in the body of one that binds
    it. -/
def CleanlyNamed (t : Stmt) : Prop := t.Scoped t.binders []

end Stmt

end LoopNest

import LoopNest.Program.Basic

/-! # Names from outside

  A program has names for the iterators and buffers that it binds itself. All other names in it come
  from outside: they mean what they mean where the program runs. `Stmt.within` checks that those are
  in a `Vocabulary`. Shapes of buffers are left out, because no run looks at them. -/

namespace LoopNest

/-- Names for use in a program. -/
structure Vocabulary where
  scalars : List String
  /-- Buffers of which the element without subscripts may be read, and nothing else. -/
  cells : List String
  /-- Buffers that may be read, written and passed on. -/
  buffers : List String
deriving Repr

namespace Vocabulary

/-- Whether an expression, looked at without its parts, uses these names only. -/
def admits (v : Vocabulary) : Expr → Bool
  | .var x => v.scalars.contains x
  | .load b is => v.buffers.contains b || v.cells.contains b && is.isEmpty
  | _ => true

end Vocabulary

/-- Whether an expression uses the names of a vocabulary only. -/
def Expr.within (v : Vocabulary) (e : Expr) : Bool := e.parts.all v.admits

namespace Stmt

/-- Whether an argument uses the names of a vocabulary only. -/
def argWithin (v : Vocabulary) : Arg → Bool
  | .buffer b => v.buffers.contains b
  | .value e => e.within v

mutual
/-- Whether a program takes only the names of a vocabulary from outside. -/
def within (v : Vocabulary) : Stmt → Bool
  | .decl _ n _ body => within { v with buffers := n :: v.buffers } body
  | .loop _ h body =>
    h.lower.within v && h.upper.within v && within { v with scalars := h.iter :: v.scalars } body
  | .guard _ c body => c.within v && within v body
  | .branch _ c yes no => c.within v && within v yes && within v no
  | .store _ b is e => v.buffers.contains b && is.all (Expr.within v) && e.within v
  | .call _ _ args => args.all (argWithin v)
  | .block _ stmts => withinAll v stmts
  | .hole _ => true
/-- Whether the statements of a list take only the names of a vocabulary from outside. -/
def withinAll (v : Vocabulary) : List Stmt → Bool
  | [] => true
  | t :: ts => within v t && withinAll v ts
end

end Stmt

end LoopNest

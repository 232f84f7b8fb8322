import LoopNest.Program.Walk

/-! # Canonical forms

  A canonical form keeps of a program what does not depend on the choice of its bound names, on its
  labels or on the nesting of its blocks.

  * `Referent` is what a name stands for: a loop or a declaration around it, counted from the inside,
    or something outside the program. Iterators and buffers are bound alike.
  * `Expr.canonical`, `Stmt.canonical` replace every name by what it stands for. A statement becomes
    a list, since blocks are dissolved.

  The bounds and assertions of a loop and the shape of a declaration lie outside of what is bound
  there. -/

namespace LoopNest

/-- What a name stands for. -/
inductive Referent where
  /-- A loop or a declaration, with the number of those between the name and it. -/
  | binder (distance : Nat)
  /-- Nothing in the program. -/
  | outside (name : String)
deriving DecidableEq, Repr, Inhabited

/-- What a name stands for inside loops and declarations that bind the given names, innermost
    first. -/
def Referent.of (scope : List String) (name : String) : Referent :=
  if name ∈ scope then binder (scope.idxOf name) else outside name

/-- The canonical form of an expression. -/
inductive CanonicalExpr where
  | int (value : Int)
  /-- A float constant by its bits. -/
  | float (bits : UInt64)
  | bool (value : Bool)
  | scalar (name : Referent)
  | load (buffer : Referent) (indices : List CanonicalExpr)
  | unary (op : UnaryOp) (operand : CanonicalExpr)
  | binary (op : BinaryOp) (lhs rhs : CanonicalExpr)
deriving Repr, Inhabited

/-- The canonical form of an argument. -/
inductive CanonicalArg where
  | buffer (name : Referent)
  | value (e : CanonicalExpr)
deriving Repr, Inhabited

/-- The canonical form of a statement other than a block. -/
inductive Canonical where
  | decl (shape : List CanonicalExpr) (elem : ElemType) (access : AccessClass) (space : MemSpace)
    (body : List Canonical)
  | loop (mode : Mode) (noDeps : List Referent) (lower upper : CanonicalExpr)
    (body : List Canonical)
  | guard (cond : CanonicalExpr) (body : List Canonical)
  | branch (cond : CanonicalExpr) (yes no : List Canonical)
  | store (buffer : Referent) (indices : List CanonicalExpr) (value : CanonicalExpr)
  | call (callee : String) (args : List CanonicalArg)
  | hole
deriving Repr, Inhabited

namespace Expr

mutual
/-- The canonical form of an expression below binders. -/
def canonical (scope : List String) : Expr → CanonicalExpr
  | .int v => .int v
  | .float v => .float v.toBits
  | .bool v => .bool v
  | .var x => .scalar (.of scope x)
  | .load b is => .load (.of scope b) (canonicalAll scope is)
  | .unary o e => .unary o (canonical scope e)
  | .binary o a b => .binary o (canonical scope a) (canonical scope b)
/-- The canonical forms of a list of expressions. -/
def canonicalAll (scope : List String) : List Expr → List CanonicalExpr
  | [] => []
  | e :: es => canonical scope e :: canonicalAll scope es
end

end Expr

/-- The canonical form of an argument below binders. -/
def Arg.canonical (scope : List String) : Arg → CanonicalArg
  | .buffer b => .buffer (.of scope b)
  | .value e => .value (e.canonical scope)

namespace Stmt

mutual
/-- The canonical form of a statement below binders. -/
def canonicalIn (scope : List String) : Stmt → List Canonical
  | .decl _ n b body =>
    [.decl (Expr.canonicalAll scope b.shape) b.elem b.access b.space (canonicalIn (n :: scope) body)]
  | .loop _ h body =>
    [.loop h.mode (h.noDeps.map (Referent.of scope)) (h.lower.canonical scope)
      (h.upper.canonical scope) (canonicalIn (h.iter :: scope) body)]
  | .guard _ c body => [.guard (c.canonical scope) (canonicalIn scope body)]
  | .branch _ c yes no =>
    [.branch (c.canonical scope) (canonicalIn scope yes) (canonicalIn scope no)]
  | .store _ b is v =>
    [.store (.of scope b) (Expr.canonicalAll scope is) (v.canonical scope)]
  | .call _ f args => [.call f (args.map (Arg.canonical scope))]
  | .block _ stmts => canonicalInAll scope stmts
  | .hole _ => [.hole]
/-- The canonical form of statements one after the other. -/
def canonicalInAll (scope : List String) : List Stmt → List Canonical
  | [] => []
  | t :: ts => canonicalIn scope t ++ canonicalInAll scope ts
end

/-- The canonical form of a program. -/
def canonical (t : Stmt) : List Canonical := t.canonicalIn []

end Stmt

end LoopNest

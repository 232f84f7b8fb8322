import LoopNest.Expr.Basic

/-! # Programs

  A program is a tree of statements: buffer declarations, loops, conditions, stores, calls and
  blocks. Every statement has a `Site`: a number that the analyses use to point at it, and
  optionally a label by which a schedule refers to it.

  * `Buffer` describes a declared buffer, `LoopHead` everything of a loop but its body.
  * `Stmt` is the tree. `Stmt.ind` is its induction principle.
  * `Stmt.hole` is a wildcard: it stands for any statement when two programs are matched. -/

namespace LoopNest

/-! ## Buffers -/

/-- How a buffer is visible outside the program. -/
inductive AccessClass where
  | input
  | output
  | inout
  /-- Local to the program. -/
  | cache
deriving DecidableEq, Repr, Inhabited

namespace AccessClass

def name : AccessClass → String
  | input => "input"
  | output => "output"
  | inout => "inout"
  | cache => "cache"

def all : List AccessClass := [input, output, inout, cache]

def ofText? (s : String) : Option AccessClass := all.find? (·.name == s)

/-- Whether statements may write the buffer. -/
def isWritable : AccessClass → Bool
  | input => false
  | _ => true

/-- Whether the buffer is visible outside the program. -/
def isVisible : AccessClass → Bool
  | cache => false
  | _ => true

end AccessClass

/-- Where a buffer lives. -/
inductive MemSpace where
  | cpu
  | gpuGlobal
  | gpuShared
  | gpuLocal
  | byValue
deriving DecidableEq, Repr, Inhabited

namespace MemSpace

def name : MemSpace → String
  | cpu => "cpu"
  | gpuGlobal => "gpu/global"
  | gpuShared => "gpu/shared"
  | gpuLocal => "gpu/local"
  | byValue => "byvalue"

def all : List MemSpace := [cpu, gpuGlobal, gpuShared, gpuLocal, byValue]

def ofText? (s : String) : Option MemSpace := all.find? (·.name == s)

def isGpu : MemSpace → Bool
  | gpuGlobal | gpuShared | gpuLocal => true
  | _ => false

end MemSpace

/-- What is known of a declared buffer. -/
structure Buffer where
  /-- The extent of each dimension. -/
  shape : List Expr
  elem : ElemType
  access : AccessClass
  space : MemSpace
deriving Repr, Inhabited

namespace Buffer

/-- The number of dimensions. -/
def rank (b : Buffer) : Nat := b.shape.length

/-- Whether two descriptions are the same. -/
def same (a b : Buffer) : Bool :=
  Expr.sameAll a.shape b.shape && a.elem == b.elem && a.access == b.access && a.space == b.space

end Buffer

/-! ## Statements -/

/-- How the iterations of a loop are run. -/
inductive Mode where
  | sequential
  /-- At the same time, by the means that the tag names. -/
  | parallel (tag : String)
deriving DecidableEq, Repr, Inhabited

/-- A loop without its body. The bounds are evaluated once, before the first iteration. -/
structure LoopHead where
  iter : String
  /-- The first value of the iterator. -/
  lower : Expr
  /-- The first value that is not reached. -/
  upper : Expr
  mode : Mode := .sequential
  /-- Buffers asserted to carry no dependence from one iteration to another. -/
  noDeps : List String := []
deriving Repr, Inhabited

namespace LoopHead

/-- The tag of a parallel loop. -/
def tag? (h : LoopHead) : Option String :=
  match h.mode with
  | .parallel tag => some tag
  | .sequential => none

def isParallel (h : LoopHead) : Bool := h.tag?.isSome

end LoopHead

/-- What is passed to a parameter. -/
inductive Arg where
  | buffer (name : String)
  | value (e : Expr)
deriving Repr, Inhabited

/-- Where a statement is found: its number in the program and its label. -/
structure Site where
  id : Nat
  label : Option String := none
deriving DecidableEq, Repr, Inhabited

/-- A statement. -/
inductive Stmt where
  /-- Declares a buffer that the body may use. -/
  | decl (site : Site) (name : String) (buffer : Buffer) (body : Stmt)
  | loop (site : Site) (head : LoopHead) (body : Stmt)
  /-- A condition without an alternative. -/
  | guard (site : Site) (cond : Expr) (body : Stmt)
  /-- A condition with an alternative. -/
  | branch (site : Site) (cond : Expr) (yes no : Stmt)
  /-- Writes one element of a buffer. -/
  | store (site : Site) (buffer : String) (indices : List Expr) (value : Expr)
  | call (site : Site) (callee : String) (args : List Arg)
  /-- Statements one after the other. -/
  | block (site : Site) (stmts : List Stmt)
  /-- Any one statement. -/
  | hole (site : Site)
deriving Repr, Inhabited

namespace Stmt

/-- Induction over statements, with one hypothesis for every statement of a block. -/
theorem ind {motive : Stmt → Prop}
    (decl : ∀ s n b body, motive body → motive (.decl s n b body))
    (loop : ∀ s h body, motive body → motive (.loop s h body))
    (guard : ∀ s c body, motive body → motive (.guard s c body))
    (branch : ∀ s c yes no, motive yes → motive no → motive (.branch s c yes no))
    (store : ∀ s b is v, motive (.store s b is v))
    (call : ∀ s f args, motive (.call s f args))
    (block : ∀ s stmts, (∀ t ∈ stmts, motive t) → motive (.block s stmts))
    (hole : ∀ s, motive (.hole s)) :
    ∀ t, motive t := by
  intro t
  refine @Stmt.rec motive (fun ts => ∀ u ∈ ts, motive u) decl loop guard branch store call block
    hole ?_ ?_ t
  · intro u h
    cases h
  · intro head tail hHead hTail u h
    rcases List.mem_cons.mp h with rfl | h
    · exact hHead
    · exact hTail u h

/-! ## One statement -/

def site : Stmt → Site
  | .decl s .. | .loop s .. | .guard s .. | .branch s .. | .store s .. | .call s .. | .block s ..
  | .hole s => s

/-- The same statement elsewhere. -/
def withSite (s : Site) : Stmt → Stmt
  | .decl _ n b body => .decl s n b body
  | .loop _ h body => .loop s h body
  | .guard _ c body => .guard s c body
  | .branch _ c yes no => .branch s c yes no
  | .store _ b is v => .store s b is v
  | .call _ f args => .call s f args
  | .block _ stmts => .block s stmts
  | .hole _ => .hole s

/-- The number of a statement. -/
def id (t : Stmt) : Nat := t.site.id

def label? (t : Stmt) : Option String := t.site.label

/-- The statements directly below, in the order in which they run. -/
def children : Stmt → List Stmt
  | .decl _ _ _ body | .loop _ _ body | .guard _ _ body => [body]
  | .branch _ _ yes no => [yes, no]
  | .block _ stmts => stmts
  | .store .. | .call .. | .hole _ => []

/-- The value arguments of a call. -/
def argValues (args : List Arg) : List Expr :=
  args.filterMap fun
    | .value e => some e
    | .buffer _ => none

/-- The expressions of the statement itself. -/
def exprs : Stmt → List Expr
  | .decl _ _ b _ => b.shape
  | .loop _ h _ => [h.lower, h.upper]
  | .guard _ c _ | .branch _ c _ _ => [c]
  | .store _ _ is v => is ++ [v]
  | .call _ _ args => argValues args
  | .block .. | .hole _ => []

/-- Applies a function to a value argument. -/
def mapArg (f : Expr → Expr) : Arg → Arg
  | .value e => .value (f e)
  | .buffer b => .buffer b

/-- Applies a function to the expressions of the statement itself. -/
def mapOwnExprs (f : Expr → Expr) : Stmt → Stmt
  | .decl s n b body => .decl s n { b with shape := b.shape.map f } body
  | .loop s h body => .loop s { h with lower := f h.lower, upper := f h.upper } body
  | .guard s c body => .guard s (f c) body
  | .branch s c yes no => .branch s (f c) yes no
  | .store s b is v => .store s b (is.map f) (f v)
  | .call s g args => .call s g (args.map (mapArg f))
  | t => t

/-- The kind of a statement as messages name it. -/
def kindName : Stmt → String
  | .decl .. => "VarDef"
  | .loop .. => "For"
  | .guard .. | .branch .. => "If"
  | .store .. => "Store"
  | .call .. => "Call"
  | .block .. => "Block"
  | .hole _ => "Any"

def isLoop : Stmt → Bool
  | .loop .. => true
  | _ => false

def isCall : Stmt → Bool
  | .call .. => true
  | _ => false

/-- The head of a loop. -/
def head? : Stmt → Option LoopHead
  | .loop _ h _ => some h
  | _ => none

/-- Whether the statement is a loop that runs in parallel. -/
def isParallelLoop (t : Stmt) : Bool := t.head?.any (·.isParallel)

/-- Whether the statement does nothing by its form alone. -/
def isEmptyBlock : Stmt → Bool
  | .block _ [] => true
  | _ => false

end Stmt

end LoopNest

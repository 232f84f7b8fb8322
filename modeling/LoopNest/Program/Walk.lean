import LoopNest.Expr.Rename
import LoopNest.Program.Basic

/-! # Walking through programs

  * `Stmt.nodes` lists a statement and everything below it in pre-order: parents before children,
    earlier statements before later ones.
  * `Stmt.bottomUp` changes every statement, children first; `Stmt.update` changes the one with a
    given number.
  * `Stmt.number` renumbers a tree in pre-order; a committed program is always numbered like that.
  * `Stmt.path?` finds the statements around one statement.
  * `Stmt.substitute`, `Stmt.rename` replace scalars and names throughout. -/

namespace LoopNest.Stmt

/-! ## Lists of nodes -/

mutual
/-- The statement and all statements below it, in pre-order. -/
def nodes : Stmt → List Stmt
  | .decl s n b body => .decl s n b body :: nodes body
  | .loop s h body => .loop s h body :: nodes body
  | .guard s c body => .guard s c body :: nodes body
  | .branch s c yes no => .branch s c yes no :: (nodes yes ++ nodes no)
  | .block s stmts => .block s stmts :: nodesAll stmts
  | t => [t]
/-- The nodes of every statement of a list. -/
def nodesAll : List Stmt → List Stmt
  | [] => []
  | t :: ts => nodes t ++ nodesAll ts
end

theorem nodesAll_eq_flatMap (ts : List Stmt) : nodesAll ts = ts.flatMap nodes := by
  induction ts with
  | nil => rfl
  | cons t ts ih => simp [nodesAll, ih]

/-- The numbers of all statements. -/
def ids (t : Stmt) : List Nat := t.nodes.map id

/-- The number of statements. -/
def size (t : Stmt) : Nat := t.nodes.length

/-- The statement with a given number. -/
def find? (t : Stmt) (id : Nat) : Option Stmt := t.nodes.find? (·.id == id)

/-- The first statement with a given label. -/
def labelled? (t : Stmt) (label : String) : Option Stmt :=
  t.nodes.find? (·.label? == some label)

/-- The labels in the tree. -/
def labels (t : Stmt) : List String := t.nodes.filterMap label?

/-- The loops of the tree. -/
def loops (t : Stmt) : List Stmt := t.nodes.filter isLoop

/-- The calls of the tree. -/
def calls (t : Stmt) : List Stmt := t.nodes.filter isCall

/-- Whether the tree holds the statement with a given number. -/
def holds (t : Stmt) (id : Nat) : Bool := t.ids.contains id

/-- The names that the statement itself introduces or refers to outside its expressions. -/
def ownNames : Stmt → List String
  | .decl _ n _ _ => [n]
  | .loop _ h _ => [h.iter]
  | .store _ b _ _ => [b]
  | .call _ f args => f :: args.filterMap fun
      | .buffer b => some b
      | .value _ => none
  | _ => []

/-- All names in the tree: iterators, buffers, scalars and callees. -/
def usedNames (t : Stmt) : List String :=
  t.nodes.flatMap fun u => u.ownNames ++ u.exprs.flatMap fun e => e.scalars ++ e.buffers

/-! ## Around a statement -/

mutual
/-- The statements around the one with number `id`, outermost first. -/
def path? (id : Nat) (t : Stmt) : Option (List Stmt) :=
  if t.id = id then some []
  else match t with
    | .decl s n b body => (path? id body).map (.decl s n b body :: ·)
    | .loop s h body => (path? id body).map (.loop s h body :: ·)
    | .guard s c body => (path? id body).map (.guard s c body :: ·)
    | .branch s c yes no => ((path? id yes) <|> (path? id no)).map (.branch s c yes no :: ·)
    | .block s stmts => (pathAll? id stmts).map (.block s stmts :: ·)
    | _ => none
/-- The statements of a list around the one with number `id`, outermost first. -/
def pathAll? (id : Nat) : List Stmt → Option (List Stmt)
  | [] => none
  | t :: ts => (path? id t) <|> (pathAll? id ts)
end

/-- The statements around the one with number `id`, innermost first; none when it is not there. -/
def around (t : Stmt) (id : Nat) : List Stmt := ((t.path? id).getD []).reverse

/-- The declaration of a buffer, if the statement is one. -/
def declares? (name : String) : Stmt → Option Buffer
  | .decl _ n b _ => if n == name then some b else none
  | _ => none

/-- The buffer that `name` refers to at the statement with number `id`. -/
def bufferAt? (t : Stmt) (name : String) (id : Nat) : Option Buffer :=
  (t.around id).findSome? (declares? name)

/-! ## Changing -/

mutual
/-- Applies `f` to every statement, children first. -/
def bottomUp (f : Stmt → Stmt) : Stmt → Stmt
  | .decl s n b body => f (.decl s n b (bottomUp f body))
  | .loop s h body => f (.loop s h (bottomUp f body))
  | .guard s c body => f (.guard s c (bottomUp f body))
  | .branch s c yes no => f (.branch s c (bottomUp f yes) (bottomUp f no))
  | .block s stmts => f (.block s (bottomUpAll f stmts))
  | t => f t
/-- Applies `f` throughout every statement of a list. -/
def bottomUpAll (f : Stmt → Stmt) : List Stmt → List Stmt
  | [] => []
  | t :: ts => bottomUp f t :: bottomUpAll f ts
end

theorem bottomUpAll_eq_map (f : Stmt → Stmt) (ts : List Stmt) :
    bottomUpAll f ts = ts.map (bottomUp f) := by
  induction ts with
  | nil => rfl
  | cons t ts ih => simp [bottomUpAll, ih]

/-- Applies `f` to the statement with number `id`. -/
def update (id : Nat) (f : Stmt → Stmt) (t : Stmt) : Stmt :=
  t.bottomUp fun u => if u.id = id then f u else u

/-- Applies `f` to every expression. -/
def mapExprs (f : Expr → Expr) (t : Stmt) : Stmt := t.bottomUp (mapOwnExprs f)

mutual
/-- Renumbers in pre-order from `n` on; also gives the first number not used. -/
def numberFrom (n : Nat) : Stmt → Stmt × Nat
  | .decl s name b body =>
    let (body, m) := numberFrom (n + 1) body
    (.decl { s with id := n } name b body, m)
  | .loop s h body =>
    let (body, m) := numberFrom (n + 1) body
    (.loop { s with id := n } h body, m)
  | .guard s c body =>
    let (body, m) := numberFrom (n + 1) body
    (.guard { s with id := n } c body, m)
  | .branch s c yes no =>
    let (yes, m) := numberFrom (n + 1) yes
    let (no, m) := numberFrom m no
    (.branch { s with id := n } c yes no, m)
  | .block s stmts =>
    let (stmts, m) := numberAllFrom (n + 1) stmts
    (.block { s with id := n } stmts, m)
  | .store s b is v => (.store { s with id := n } b is v, n + 1)
  | .call s f args => (.call { s with id := n } f args, n + 1)
  | .hole s => (.hole { s with id := n }, n + 1)
/-- Renumbers a list of statements one after the other. -/
def numberAllFrom (n : Nat) : List Stmt → List Stmt × Nat
  | [] => ([], n)
  | t :: ts =>
    let (t, m) := numberFrom n t
    let (ts, m) := numberAllFrom m ts
    (t :: ts, m)
end

/-- The tree numbered 0, 1, 2, … in pre-order. -/
def number (t : Stmt) : Stmt := (t.numberFrom 0).1

mutual
/-- A copy whose statements get the numbers from `n` on, children before parents. -/
def copyFrom (n : Nat) : Stmt → Stmt × Nat
  | .decl s name b body =>
    let (body, m) := copyFrom n body
    (.decl { s with id := m } name b body, m + 1)
  | .loop s h body =>
    let (body, m) := copyFrom n body
    (.loop { s with id := m } h body, m + 1)
  | .guard s c body =>
    let (body, m) := copyFrom n body
    (.guard { s with id := m } c body, m + 1)
  | .branch s c yes no =>
    let (yes, m) := copyFrom n yes
    let (no, m) := copyFrom m no
    (.branch { s with id := m } c yes no, m + 1)
  | .block s stmts =>
    let (stmts, m) := copyAllFrom n stmts
    (.block { s with id := m } stmts, m + 1)
  | .store s b is v => (.store { s with id := n } b is v, n + 1)
  | .call s f args => (.call { s with id := n } f args, n + 1)
  | .hole s => (.hole { s with id := n }, n + 1)
/-- Copies a list of statements one after the other. -/
def copyAllFrom (n : Nat) : List Stmt → List Stmt × Nat
  | [] => ([], n)
  | t :: ts =>
    let (t, m) := copyFrom n t
    let (ts, m) := copyAllFrom m ts
    (t :: ts, m)
end

/-! ## Names -/

mutual
/-- Replaces the scalar `name` by a value, except below loops whose iterator has that name. Bounds
    lie outside their loop. -/
def substitute (name : String) (value : Expr) : Stmt → Stmt
  | .decl s n b body =>
    .decl s n { b with shape := b.shape.map (Expr.substitute [(name, value)]) }
      (substitute name value body)
  | .loop s h body =>
    let h' := { h with
      lower := h.lower.substitute [(name, value)], upper := h.upper.substitute [(name, value)] }
    .loop s h' (if h.iter = name then body else substitute name value body)
  | .guard s c body => .guard s (c.substitute [(name, value)]) (substitute name value body)
  | .branch s c yes no =>
    .branch s (c.substitute [(name, value)]) (substitute name value yes) (substitute name value no)
  | .store s b is v =>
    .store s b (is.map (Expr.substitute [(name, value)])) (v.substitute [(name, value)])
  | .call s f args => .call s f (args.map (mapArg (Expr.substitute [(name, value)])))
  | .block s stmts => .block s (substituteAll name value stmts)
  | .hole s => .hole s
/-- Replaces a scalar in every statement of a list. -/
def substituteAll (name : String) (value : Expr) : List Stmt → List Stmt
  | [] => []
  | t :: ts => substitute name value t :: substituteAll name value ts
end

/-- Renames a buffer argument and the names in a value argument. -/
def renameArg (scalars buffers : Expr.Renaming) : Arg → Arg
  | .buffer b => .buffer (buffers.apply b)
  | .value e => .value (e.rename scalars buffers)

/-- Renames the names of the statement itself. -/
def renameOwn (scalars buffers : Expr.Renaming) : Stmt → Stmt
  | .decl s n b body =>
    .decl s (buffers.apply n) { b with shape := b.shape.map (Expr.rename scalars buffers) } body
  | .loop s h body =>
    .loop s { h with
      iter := scalars.apply h.iter
      lower := h.lower.rename scalars buffers
      upper := h.upper.rename scalars buffers
      noDeps := h.noDeps.map buffers.apply } body
  | .guard s c body => .guard s (c.rename scalars buffers) body
  | .branch s c yes no => .branch s (c.rename scalars buffers) yes no
  | .store s b is v =>
    .store s (buffers.apply b) (is.map (Expr.rename scalars buffers)) (v.rename scalars buffers)
  | .call s f args => .call s f (args.map (renameArg scalars buffers))
  | t => t

/-- Renames iterators, scalars and buffers throughout. -/
def rename (scalars buffers : Expr.Renaming) (t : Stmt) : Stmt :=
  t.bottomUp (renameOwn scalars buffers)

/-- Gives labels to the statements whose numbers are listed. -/
def relabel (labels : List (Nat × String)) (t : Stmt) : Stmt :=
  t.bottomUp fun u =>
    match labels.lookup u.id with
    | some l => u.withSite { u.site with label := some l }
    | none => u

end LoopNest.Stmt

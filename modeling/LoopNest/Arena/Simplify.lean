import LoopNest.Arena.Edit
import LoopNest.Program.Simplify

/-! # Simplifying node tables in place

  A table is simplified by the rules of `Stmt.simplify`, entry by entry from the root downwards.
  Entries that stay keep their places; those that are not needed any more stay behind as they were
  when they were dropped; blocks that have to be created get places behind the last one. An entry
  that is reached in several ways is simplified once for every way, starting from what the way
  before it has left. -/

namespace LoopNest.Arena

/-- The places that take the place of an entry in a block. -/
def dissolve (a : Arena) (id : Nat) : List Nat :=
  match a.label? id, a.kind id with
  | none, .block stmts => stmts
  | _, _ => [id]

/-- What remains of a block, given what remains of its statements. -/
def keepBlock (a : Arena) (id : Nat) (flat : List Nat) : Arena × Option Nat :=
  match a.label? id, flat with
  | none, [] => (a, none)
  | none, [only] => (a, some only)
  | _, _ => (a.setKind id (.block flat), some id)

/-- What remains of a declaration, given what remains of its body. -/
def keepDecl (a : Arena) (id : Nat) (n : String) (b : Buffer) : Option Nat → Arena × Option Nat
  | some body => (a.setKind id (.decl n b body), some id)
  | none =>
    if b.access = .cache then (a, none)
    else
      let (a, empty) := a.alloc ⟨none, .block []⟩
      (a.setKind id (.decl n b empty), some id)

/-- What remains of a condition, given what remains of its cases. -/
def keepCond (r : Expr.Ranges) (a : Arena) (id : Nat) (c : Expr) :
    Option Nat → Option Nat → Arena × Option Nat
  | none, none => (a, none)
  | some yes, no => (a.setKind id (.cond c yes no), some id)
  | none, some no => (a.setKind id (.cond (c.negation.simplify r) no none), some id)

/-- Simplifies what is reached from an entry in at most `height` steps, and gives the place of what
    remains of it. -/
def simplifyTo : (height : Nat) → Expr.Ranges → Arena → (id : Nat) → Arena × Option Nat
  | 0, _, a, id => (a, some id)
  | height + 1, r, a, id =>
    let a := a.editEntry (Stmt.mapOwnExprs (Expr.simplify r)) id
    match a.kind id with
    | .decl n b body =>
      let (a, kept) := simplifyTo height r a body
      a.keepDecl id n b kept
    | .loop h body =>
      match h.fate with
      | .gone => (a, none)
      | .dissolved => simplifyTo height r (a.substitute body h.iter h.lower) body
      | .kept =>
        match simplifyTo height ((h.iter, h.values r) :: r) a body with
        | (a, some body) => (a.setKind id (.loop h body), some id)
        | (a, none) => (a, none)
    | .cond c yes no =>
      if c.isBool true then simplifyTo height r a yes
      else if c.isBool false then
        match no with
        | some no => simplifyTo height r a no
        | none => (a, none)
      else
        let (a, yes) := simplifyTo height r a yes
        let (a, no) := match no with
          | some no => simplifyTo height r a no
          | none => (a, none)
        keepCond r a id c yes no
    | .block stmts =>
      let (a, flat) := stmts.foldl (fun (a, flat) s =>
        match simplifyTo height r a s with
        | (a, some kept) => (a, flat ++ a.dissolve kept)
        | (a, none) => (a, flat)) (a, [])
      a.keepBlock id flat
    | _ => (a, some id)

/-- Simplifies the tree of a table. Nothing at all becomes an empty block. -/
def simplify (a : Arena) : Arena :=
  match simplifyTo a.size [] a a.root with
  | (a, some root) => a.setRoot root
  | (a, none) =>
    let (a, root) := a.alloc ⟨none, .block []⟩
    a.setRoot root

end LoopNest.Arena

import LoopNest.Program.TreeError

/-! # Node tables

  Outside the library a program is a table of nodes that refer to each other by their place in the
  table, with one place named as the root.

  * `Arena.program?` reads a table as a program. It accepts exactly the tables whose part reachable
    from the root is a tree with different labels; nodes that are not reached are dropped.
  * `Stmt.toArena` writes a numbered program as a table.
  * `Arena.entry` is a single entry as a statement, `Arena.stmtAt` everything below it. -/

namespace LoopNest

/-- What a node is; children are places in the table. -/
inductive NodeKind where
  | decl (name : String) (buffer : Buffer) (body : Nat)
  | loop (head : LoopHead) (body : Nat)
  | cond (test : Expr) (yes : Nat) (no : Option Nat)
  | store (buffer : String) (indices : List Expr) (value : Expr)
  | call (callee : String) (args : List Arg)
  | block (stmts : List Nat)
  | hole
deriving Repr, Inhabited

/-- An entry of the table. -/
structure Node where
  label : Option String := none
  kind : NodeKind
deriving Repr, Inhabited

namespace NodeKind

/-- The places of the children, in the order in which they run. -/
def children : NodeKind → List Nat
  | decl _ _ body | loop _ body => [body]
  | cond _ yes no => yes :: no.toList
  | block stmts => stmts
  | store .. | call .. | hole => []

/-- Moves every child. -/
def mapChildren (f : Nat → Nat) : NodeKind → NodeKind
  | decl n b body => decl n b (f body)
  | loop h body => loop h (f body)
  | cond c yes no => cond c (f yes) (no.map f)
  | block stmts => block (stmts.map f)
  | k => k

/-- Rebuilds a statement whose children are known. A child that is missing is a hole. -/
def toStmt (site : Site) (child : Nat → Stmt) : NodeKind → Stmt
  | decl n b body => .decl site n b (child body)
  | loop h body => .loop site h (child body)
  | cond c yes none => .guard site c (child yes)
  | cond c yes (some no) => .branch site c (child yes) (child no)
  | store b is v => .store site b is v
  | call f args => .call site f args
  | block stmts => .block site (stmts.map child)
  | hole => .hole site

/-- The entry for a statement. -/
def ofStmt : Stmt → NodeKind
  | .decl _ n b body => decl n b body.id
  | .loop _ h body => loop h body.id
  | .guard _ c body => cond c body.id none
  | .branch _ c yes no => cond c yes.id (some no.id)
  | .store _ b is v => store b is v
  | .call _ f args => call f args
  | .block _ stmts => block (stmts.map Stmt.id)
  | .hole _ => hole

end NodeKind

/-- A statement as an entry of the table. -/
def Node.ofStmt (t : Stmt) : Node := ⟨t.label?, .ofStmt t⟩

/-- A table of nodes. -/
structure Arena where
  nodes : Array Node
  root : Nat
  /-- Where each label was found when the index was last built. -/
  index : List (String × Nat) := []
deriving Repr, Inhabited

namespace Arena

/-- The number of entries, reachable or not. -/
def size (a : Arena) : Nat := a.nodes.size

/-- What an entry is. There is nothing to say of places outside the table. -/
def kind (a : Arena) (id : Nat) : NodeKind := a.nodes[id]?.elim .hole Node.kind

/-- The children of an entry. -/
def children (a : Arena) (id : Nat) : List Nat := (a.kind id).children

/-- The label of an entry. -/
def label? (a : Arena) (id : Nat) : Option String := a.nodes[id]?.bind Node.label

/-- An entry as a statement whose children are only named by their places. -/
def entry (a : Arena) (id : Nat) : Stmt :=
  (a.kind id).toStmt ⟨id, a.label? id⟩ fun c => .hole ⟨c, none⟩

/-! ## Reading a table -/

/-- Looks for a reason why the entries on the stack, and all those below them, are not reached
    exactly once inside the table. Each step visits one entry for the first time, so there are at
    most as many steps as entries. -/
def faultFrom (a : Arena) : (fuel : Nat) → (seen stack : List Nat) → Option TreeError
  | 0, _, _ => none
  | _ + 1, _, [] => none
  | fuel + 1, seen, id :: stack =>
    if seen.contains id then some (.sharedNode id)
    else match (a.children id).find? (a.size ≤ ·) with
      | some child => some (.missingChild id child)
      | none => faultFrom a fuel (id :: seen) ((a.children id).reverse ++ stack)

/-- Why the reachable part of the table is no tree. -/
def fault? (a : Arena) : Option TreeError :=
  if a.size ≤ a.root then some (.missingRoot a.root a.size)
  else a.faultFrom (a.size + 1) [] [a.root]

/-- The statement at an entry, down to a given depth; deeper ones are holes. -/
def unfold (a : Arena) : (depth : Nat) → (id : Nat) → Stmt
  | 0, id => .hole ⟨id, none⟩
  | depth + 1, id =>
    match a.nodes[id]? with
    | some n => n.kind.toStmt ⟨id, n.label⟩ (unfold a depth)
    | none => .hole ⟨id, none⟩

/-- The statement at an entry. A tree in the table is no deeper than the table is long. -/
def stmtAt (a : Arena) (id : Nat) : Stmt := a.unfold a.size id

/-- The whole statement. -/
def tree (a : Arena) : Stmt := a.stmtAt a.root

/-- The program that a table holds. -/
def program? (a : Arena) : Except TreeError Stmt :=
  match a.fault? with
  | some e => .error e
  | none => a.tree.commit

/-! ## Writing a table -/

/-- Puts a node at a place, extending the table by wildcards as far as needed. -/
def put (a : Arena) (id : Nat) (n : Node) : Arena :=
  let padding := Array.replicate (id + 1 - a.size) (⟨none, .hole⟩ : Node)
  { a with nodes := (a.nodes ++ padding).setIfInBounds id n }

/-- Puts all nodes of a statement at their places. -/
def putAll (a : Arena) (t : Stmt) : Arena :=
  t.nodes.foldl (fun a u => a.put u.id (.ofStmt u)) a

end Arena

/-- The place of each label, in pre-order. -/
def Stmt.labelIndex (t : Stmt) : List (String × Nat) :=
  t.nodes.filterMap fun u => u.label?.map (·, u.id)

/-- The table of a program numbered in pre-order. -/
def Stmt.toArena (t : Stmt) : Arena :=
  { nodes := (t.nodes.map Node.ofStmt).toArray, root := t.id, index := t.labelIndex }

end LoopNest

import LoopNest.Arena.Basic

/-! # Editing node tables

  A table can be edited in place, entry by entry. Between edits it may hold entries that are not
  reached, and entries that are reached in several ways; its index of labels is only as recent as
  the last `Arena.reindex`.

  A change of everything below an entry goes along all ways that lead downwards: an entry that is
  reached in two ways is changed twice. -/

namespace LoopNest.Arena

/-! ## Looking around -/

/-- The places reached from an entry, in pre-order. -/
def walkFrom (a : Arena) (id : Nat) : List Nat := (a.stmtAt id).ids

/-- The places reached from the root, in pre-order. -/
def walk (a : Arena) : List Nat := a.walkFrom a.root

/-- The place from which a place is reached; the last one, if there are several. -/
def parent? (a : Arena) (id : Nat) : Option Nat :=
  a.walk.reverse.find? fun p => (a.children p).contains id

/-- The places above a place, innermost first, at most `fuel` of them. -/
def ancestorsFrom (a : Arena) : (fuel id : Nat) → List Nat
  | 0, _ => []
  | fuel + 1, id =>
    match a.parent? id with
    | some p => p :: ancestorsFrom a fuel p
    | none => []

/-- The places above a place, innermost first. -/
def ancestors (a : Arena) (id : Nat) : List Nat := a.ancestorsFrom a.size id

/-- The place that the index knows for a label. -/
def find? (a : Arena) (label : String) : Option Nat := a.index.lookup label

/-- The place of the declaration that a name refers to at a place. -/
def declaration? (a : Arena) (name : String) (id : Nat) : Option Nat :=
  (a.ancestors id).find? fun p => ((a.entry p).declares? name).isSome

/-- The buffer that a name refers to at a place. -/
def bufferAt? (a : Arena) (name : String) (id : Nat) : Option Buffer :=
  (a.ancestors id).findSome? fun p => (a.entry p).declares? name

/-! ## Editing in place -/

/-- Adds an entry; nothing refers to it yet. -/
def alloc (a : Arena) (n : Node) : Arena × Nat := ({ a with nodes := a.nodes.push n }, a.size)

/-- Names another root. -/
def setRoot (a : Arena) (id : Nat) : Arena := { a with root := id }

/-- Changes one entry. -/
def modify (a : Arena) (id : Nat) (f : Node → Node) : Arena :=
  { a with nodes := a.nodes.modify id f }

/-- Makes an entry something else under its label. -/
def setKind (a : Arena) (id : Nat) (kind : NodeKind) : Arena := a.modify id ({ · with kind })

/-- Lets the parent of `old` refer to `new` instead. Tells whether `old` was reached at all. -/
def replace (a : Arena) (old new : Nat) : Arena × Bool :=
  if old = a.root then (a.setRoot new, true)
  else match a.parent? old with
    | some p =>
      (a.modify p fun n => { n with kind := n.kind.mapChildren fun c => if c = old then new else c },
        true)
    | none => (a, false)

/-- Gives an entry another label, or none. -/
def setLabel (a : Arena) (id : Nat) (label : Option String) : Arena :=
  a.modify id fun n => { n with label }

/-- Adds a copy of everything below an entry, children before parents. -/
def deepCopy (a : Arena) (id : Nat) : Arena × Nat :=
  let copy := ((a.stmtAt id).copyFrom a.size).1
  (a.putAll copy, copy.id)

/-- Applies a function on statements to one entry. -/
def editEntry (a : Arena) (f : Stmt → Stmt) (id : Nat) : Arena :=
  a.setKind id (.ofStmt (f (a.entry id)))

/-- Applies a function to every expression below an entry. -/
def mapExprs (a : Arena) (id : Nat) (f : Expr → Expr) : Arena :=
  (a.walkFrom id).foldl (editEntry · (Stmt.mapOwnExprs f)) a

/-- Renames below an entry. -/
def rename (a : Arena) (id : Nat) (scalars buffers : Expr.Renaming) : Arena :=
  (a.walkFrom id).foldl (editEntry · (Stmt.renameOwn scalars buffers)) a

/-- Whether an entry is a loop whose iterator has a given name. -/
def rebinds (a : Arena) (name : String) (id : Nat) : Bool :=
  match a.kind id with
  | .loop h _ => h.iter == name
  | _ => false

/-- Replaces a scalar down to a given depth. -/
def substituteTo (name : String) (value : Expr) : (depth : Nat) → Arena → (id : Nat) → Arena
  | 0, a, _ => a
  | depth + 1, a, id =>
    let a := a.editEntry (Stmt.mapOwnExprs (Expr.substitute [(name, value)])) id
    if a.rebinds name id then a else (a.children id).foldl (substituteTo name value depth) a

/-- Replaces a scalar below an entry, except below loops whose iterator has its name. -/
def substitute (a : Arena) (id : Nat) (name : String) (value : Expr) : Arena :=
  substituteTo name value a.size a id

/-- Drops unreachable entries and puts the others in pre-order. -/
def compact (a : Arena) : Arena :=
  let order := a.walk.zipIdx
  let place (id : Nat) : Nat := (order.reverse.lookup id).getD 0
  let moved := order.map fun (id, k) =>
    -- an entry that is reached again has been moved away
    if a.walk.idxOf id = k then
      match a.nodes[id]? with
      | some n => { n with kind := n.kind.mapChildren place }
      | none => ⟨none, .hole⟩
    else ⟨none, .hole⟩
  { nodes := moved.toArray
    root := 0
    index := a.index.filterMap fun (l, id) => (order.reverse.lookup id).map (l, ·) }

/-- Builds the index of labels anew. Labels must be different from each other. -/
def reindex (a : Arena) : Except TreeError Arena :=
  match Stmt.repeated? [] a.tree.labels with
  | some l => .error (.duplicateLabel l)
  | none => .ok { a with index := a.tree.labelIndex }

end LoopNest.Arena

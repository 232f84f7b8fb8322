import LoopNest.Restructure.Outcome

/-! # Drafts

  A transformation that takes several steps works on a `Workpiece`, a program that changes between
  the steps. The statements it creates get numbers that no statement of the program ever had, so that
  what is reported between two steps can be told apart.

  A `Draft` is the plain workpiece, a tree with the first number that is free. -/

namespace LoopNest.Restructure

/-- What a step needs to know of a program in the middle of a transformation, and to do to it. -/
class Workpiece (α : Type) where
  /-- The program as it is. -/
  tree : α → Stmt
  /-- The first number that was never used. -/
  next : α → Nat
  /-- The statement with a given number. -/
  stmt? : α → (id : Nat) → Option Stmt
  /-- The buffer that a name refers to at a statement. -/
  bufferAt? : α → (name : String) → (id : Nat) → Option Buffer
  /-- Puts a statement in the place of the one numbered `old`. After that `next` is the first number
      that was never used. -/
  graft : α → (old : Nat) → Stmt → (next : Nat) → α

/-- A tree and the first number that was never used in it. -/
structure Draft where
  tree : Stmt
  next : Nat
deriving Repr, Inhabited

namespace Draft

/-- A committed program as a draft. -/
def of (t : Stmt) : Draft := ⟨t, t.size⟩

instance : Workpiece Draft where
  tree := Draft.tree
  next := Draft.next
  stmt? d id := d.tree.find? id
  bufferAt? d := d.tree.bufferAt?
  graft d old t next := ⟨d.tree.update old fun _ => t, next⟩

end Draft

end LoopNest.Restructure

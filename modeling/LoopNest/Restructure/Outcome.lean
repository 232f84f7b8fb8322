import LoopNest.Program.Walk
import LoopNest.Rejection

/-! # Outcomes of transformations

  A transformation takes a committed program and gives the new tree, or the cause for which it is
  refused. New trees need no particular numbers: they are numbered when they are committed. -/

namespace LoopNest

/-- The result of a transformation, or why there is none. -/
abbrev Outcome (α : Type) := Except Cause α

/-- What an outcome comes to is its result. -/
theorem Outcome.eq_ok_of_toOption {ε α : Type} {o : Except ε α} {a : α} (h : o.toOption = some a) :
    o = .ok a := by
  cases o with
  | error e => cases h
  | ok b => rw [Option.some.inj h]

/-- A result of two steps one after the other is a result of the second one. -/
theorem Outcome.bind_eq_ok {ε α β : Type} {o : Except ε α} {f : α → Except ε β} {r : β} :
    (o >>= f) = .ok r ↔ ∃ a, o = .ok a ∧ f a = .ok r := by
  cases o with
  | error c =>
    constructor
    · intro h
      cases h
    · rintro ⟨a, h, _⟩
      cases h
  | ok a =>
    constructor
    · exact fun h => ⟨a, rfl, h⟩
    · rintro ⟨b, h, hf⟩
      cases h
      exact hf

/-- Checks of all elements of a list succeed when each of them does. -/
theorem Outcome.forM_eq_ok {α : Type} {f : α → Outcome Unit} {xs : List α} :
    xs.forM f = .ok () ↔ ∀ x ∈ xs, f x = .ok () := by
  induction xs with
  | nil => exact ⟨fun _ x hx => absurd hx List.not_mem_nil, fun _ => rfl⟩
  | cons x xs ih =>
    rw [List.forM, Outcome.bind_eq_ok, List.forall_mem_cons, ← ih]
    constructor
    · rintro ⟨⟨⟩, hHead, hTail⟩
      exact ⟨hHead, hTail⟩
    · exact fun h => ⟨(), h⟩

/-- The outcome as the answer to a request. -/
def answering {α : Type} (r : Request) (o : Outcome α) : Except Rejection α :=
  o.mapError fun c => ⟨c, r⟩

/-- A site that gets its number when the tree is committed. -/
def Site.unnumbered (label : Option String := none) : Site := ⟨0, label⟩

namespace Stmt

/-- A loop under its label. -/
structure LabelledLoop where
  site : Site
  head : LoopHead
  body : Stmt
deriving Repr, Inhabited

/-- The loop as a statement. -/
def LabelledLoop.stmt (l : LabelledLoop) : Stmt := .loop l.site l.head l.body

/-- The loop with a given label. -/
def loopAt (t : Stmt) (label : String) : Outcome LabelledLoop :=
  match t.labelled? label with
  | some (.loop site head body) => .ok ⟨site, head, body⟩
  | some _ => .error (.notALoop label)
  | none => .error (.notFound label)

/-- One statement as it is, several as a block. -/
def sequence : List Stmt → Stmt
  | [t] => t
  | ts => .block .unnumbered ts

end Stmt

end LoopNest

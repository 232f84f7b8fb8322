import LoopNest.Arena.Basic

/-! # Routes through node tables

  A route goes down a table: it says at each place which child comes next. Two routes are different
  also when they lead to the same place, and when they do so by way of the same places.

  * `Arena.IsTree` is the condition under which a table holds a program, in terms of routes.
  * `Arena.Shows` is what a fault says of a table.
  * `Arena.turn?` is one turn of the search for a fault, `Arena.turns?` are several.
  * `Arena.Renumbers` says that a table is another one with its places moved. -/

namespace LoopNest.Arena

/-- The place that a route leads to. -/
def follow? (a : Arena) : (id : Nat) → (route : List Nat) → Option Nat
  | id, [] => some id
  | id, k :: route => (a.children id)[k]?.bind fun child => follow? a child route

/-- Whether some route leads from the root to a place. -/
def Reaches (a : Arena) (id : Nat) : Prop := ∃ route, a.follow? a.root route = some id

/-- What is reached from the root is a tree with different labels.

    * **inside**: routes do not leave the table;
    * **once**: every place is reached along one route only, so no place is the child of two others
      or twice a child of one, and no place is below itself;
    * **labels**: no two places that are reached carry the same label. -/
structure IsTree (a : Arena) : Prop where
  inside : ∀ id, a.Reaches id → id < a.size
  once : ∀ route route' id, a.follow? a.root route = some id → a.follow? a.root route' = some id →
    route = route'
  labels : ∀ id id' l, a.Reaches id → a.Reaches id' → a.label? id = some l → a.label? id' = some l →
    id = id'

/-- What a fault says of a table. -/
def Shows (a : Arena) : TreeError → Prop
  | .missingRoot root size => root = a.root ∧ size = a.size ∧ a.size ≤ a.root
  | .missingChild node child => a.Reaches node ∧ child ∈ a.children node ∧ a.size ≤ child
  | .sharedNode node => ∃ route route', route ≠ route' ∧ a.follow? a.root route = some node
    ∧ a.follow? a.root route' = some node
  | .duplicateLabel label => ∃ id id', id ≠ id' ∧ a.Reaches id ∧ a.Reaches id'
    ∧ a.label? id = some label ∧ a.label? id' = some label
  | .duplicateFunction _ => False

/-- What the search for a fault has seen and what is on its stack after one more turn; none when it
    has come to its end, with or without a fault. -/
def turn? (a : Arena) : List Nat × List Nat → Option (List Nat × List Nat)
  | (_, []) => none
  | (seen, id :: stack) =>
    if seen.contains id || (a.children id).any (a.size ≤ ·) then none
    else some (id :: seen, (a.children id).reverse ++ stack)

/-- The search after some turns. -/
def turns? (a : Arena) : (count : Nat) → Option (List Nat × List Nat)
  | 0 => some ([], [a.root])
  | count + 1 => (turns? a count).bind a.turn?

/-- A table holds the same tree as another one, with its places moved.

    * **routes**: the same routes lead to the places moved;
    * **nodes**: an entry stays as it is, but for the places of its children;
    * **all**: there are no entries that are not reached. -/
structure Renumbers (a : Arena) (place : Nat → Nat) (b : Arena) : Prop where
  routes : ∀ route, b.follow? b.root route = (a.follow? a.root route).map place
  nodes : ∀ id, a.Reaches id →
    b.nodes[place id]? = a.nodes[id]?.map fun n => { n with kind := n.kind.mapChildren place }
  all : ∀ k, k < b.size → ∃ id, a.Reaches id ∧ place id = k

end LoopNest.Arena

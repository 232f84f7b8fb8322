/-! # Fresh names

  Whatever introduces iterators, buffers or labels draws their names from a `NameSupply`. It
  remembers every name in use and hands out the wanted name itself when that is free, otherwise the
  wanted name with the smallest free number behind it (`i`, `i.1`, `i.2`, …). -/

namespace LoopNest

/-- The names that may not be handed out again. -/
structure NameSupply where
  used : List String
deriving Repr, Inhabited

namespace NameSupply

/-- Whether a name is in use. -/
def contains (s : NameSupply) (name : String) : Bool := s.used.contains name

/-- Puts a name in use without handing it out. -/
def reserve (s : NameSupply) (name : String) : NameSupply := ⟨name :: s.used⟩

/-- The `n`-th variant of a name. -/
def numbered (base : String) (n : Nat) : String := base ++ "." ++ toString n

/-- The first variant of `base` from number `n` on that is free, looking at `fuel` of them. -/
def firstFree (s : NameSupply) (base : String) : (fuel n : Nat) → String
  | 0, n => numbered base n
  | fuel + 1, n =>
    if s.contains (numbered base n) then firstFree s base fuel (n + 1) else numbered base n

/-- The name `base` would be handed out as. Among one more variants than there are names in use,
    one is free. -/
def choose (s : NameSupply) (base : String) : String :=
  if s.contains base then s.firstFree base s.used.length 1 else base

/-- Hands out a fresh name and puts it in use. -/
def fresh (s : NameSupply) (base : String) : String × NameSupply :=
  (s.choose base, s.reserve (s.choose base))

/-- Hands out fresh names for a list of wanted names, from left to right. -/
def freshAll (s : NameSupply) : List String → List String × NameSupply
  | [] => ([], s)
  | base :: rest =>
    let (name, s) := s.fresh base
    let (names, s) := s.freshAll rest
    (name :: names, s)

/-! ## What is in use afterwards -/

@[simp] theorem contains_iff {s : NameSupply} {name : String} :
    s.contains name = true ↔ name ∈ s.used := by
  simp [contains]

@[simp] theorem mem_used_reserve {s : NameSupply} {name other : String} :
    other ∈ (s.reserve name).used ↔ other = name ∨ other ∈ s.used := by
  simp [reserve]

@[simp] theorem fresh_fst (s : NameSupply) (base : String) : (s.fresh base).1 = s.choose base := rfl

@[simp] theorem fresh_snd (s : NameSupply) (base : String) :
    (s.fresh base).2 = s.reserve (s.choose base) := rfl

end NameSupply

/-- The different names of a list in the order of their characters. -/
def sortedNames (names : List String) : List String :=
  (names.mergeSort fun a b => a ≤ b).eraseDups

end LoopNest

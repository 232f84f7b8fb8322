import LoopNest.Proofs.FreshNames

/-! # Sequences of requests for names

  A supply is asked for fresh names and told of names that are in use elsewhere, in any order
  (`NameSupply.Request`). Bases may look like variants of one another: `i.1` is a variant of `i` and the
  base of `i.1.1`.

  * **One request**: the search for a free variant comes to its end (`NameSupply.Finds`), and what is
    handed out is the base itself or its first free variant (`NameSupply.suits_choose`).
  * **All requests**: after any of them, the names in use are those from the beginning and those that
    requests put in use (`NameSupply.used_serveAll`). So no name is handed out twice
    (`NameSupply.names_supplied`). -/

namespace LoopNest.NameSupply

/-! ## The search -/

/-- The search for a free variant from number `n` on, without any limit, comes to its end at a name. -/
inductive Finds (used : List String) (base : String) : Nat → String → Prop where
  | free {n : Nat} (h : numbered base n ∉ used) : Finds used base n (numbered base n)
  | taken {n : Nat} {name : String} (h : numbered base n ∈ used)
    (rest : Finds used base (n + 1) name) : Finds used base n name

/-- A search that ends at a free name has passed only names in use. -/
theorem finds_firstFree {s : NameSupply} {base : String} : ∀ {fuel n : Nat},
    s.firstFree base fuel n ∉ s.used → Finds s.used base n (s.firstFree base fuel n) := by
  intro fuel
  induction fuel with
  | zero => exact fun h => .free h
  | succ fuel ih =>
    intro n h
    rw [firstFree] at h ⊢
    split
    · rename_i hTaken
      rw [if_pos hTaken] at h
      exact .taken (contains_iff.mp hTaken) (ih h)
    · rename_i hFree
      exact .free fun hUsed => hFree (contains_iff.mpr hUsed)

/-- A search ends at the first free variant. -/
theorem Finds.first {used : List String} {base name : String} {n : Nat}
    (h : Finds used base n name) : ∃ k, n ≤ k ∧ name = numbered base k
      ∧ ∀ j, n ≤ j → j < k → numbered base j ∈ used := by
  induction h with
  | @free n _ => exact ⟨n, Nat.le_refl n, rfl, fun j hLow hHigh => absurd hHigh (by omega)⟩
  | @taken n name hUsed _ ih =>
    obtain ⟨k, hk, hName, hBefore⟩ := ih
    refine ⟨k, by omega, hName, fun j hLow hHigh => ?_⟩
    by_cases hj : j = n
    · exact hj ▸ hUsed
    · exact hBefore j (by omega) hHigh

/-! ## One request -/

/-- A name is the right one for a base, beside the names in use.

    * **unused**: it is none of them;
    * **wanted**: it is the base, if that is not in use;
    * **found**: otherwise the search for a free variant comes to its end at it;
    * **first**: it is the first variant that is not in use, and its number is no larger than the number
      of names in use. -/
structure Suits (used : List String) (base name : String) : Prop where
  unused : name ∉ used
  wanted : base ∉ used → name = base
  found : base ∈ used → Finds used base 1 name
  first : base ∈ used → ∃ n, 1 ≤ n ∧ n ≤ used.length ∧ name = numbered base n
    ∧ ∀ k, 1 ≤ k → k < n → numbered base k ∈ used

theorem numbered_ne (base : String) (n : Nat) : numbered base n ≠ base := by
  intro h
  have hLength := congrArg String.length h
  rw [numbered, String.length_append, String.length_append, show ".".length = 1 from rfl] at hLength
  omega

/-- When a base and its first variants are in use, there are at least as many names in use. -/
theorem succ_le_length_of_variants {used : List String} {base : String} (hBase : base ∈ used)
    {n : Nat} (h : ∀ k < n, numbered base (1 + k) ∈ used) : n + 1 ≤ used.length := by
  have hOthers : n ≤ (used.erase base).length := length_variants_le fun k hk =>
    (List.mem_erase_of_ne (numbered_ne base _)).mpr (h k hk)
  have hPos := List.length_pos_of_mem hBase
  rw [List.length_erase_of_mem hBase] at hOthers
  omega

/-- **Fresh names** are the right ones for their bases. -/
theorem suits_choose (s : NameSupply) (base : String) : Suits s.used base (s.choose base) := by
  have hUnused := choose_not_mem s base
  have hFound : base ∈ s.used → Finds s.used base 1 (s.choose base) := by
    intro hBase
    rw [choose, if_pos (contains_iff.mpr hBase)] at hUnused ⊢
    exact finds_firstFree hUnused
  refine ⟨hUnused, fun hBase => ?_, hFound, fun hBase => ?_⟩
  · exact if_neg fun hTaken => hBase (contains_iff.mp hTaken)
  · obtain ⟨n, hn, hName, hBefore⟩ := (hFound hBase).first
    refine ⟨n, hn, ?_, hName, hBefore⟩
    have hBound := succ_le_length_of_variants hBase (n := n - 1) fun k hk =>
      hBefore (1 + k) (by omega) (by omega)
    omega

theorem Finds.of_mem_iff {used used' : List String} {base name : String} {n : Nat}
    (hSame : ∀ x, x ∈ used ↔ x ∈ used') (h : Finds used base n name) : Finds used' base n name := by
  induction h with
  | free hFree => exact .free fun hUsed => hFree ((hSame _).mpr hUsed)
  | taken hUsed _ ih => exact .taken ((hSame _).mp hUsed) ih

/-- The order in which names came into use does not matter. -/
theorem Suits.perm {used used' : List String} {base name : String} (hPerm : used.Perm used')
    (h : Suits used base name) : Suits used' base name where
  unused hUsed := h.unused (hPerm.mem_iff.mpr hUsed)
  wanted hBase := h.wanted fun hUsed => hBase (hPerm.mem_iff.mp hUsed)
  found hBase := (h.found (hPerm.mem_iff.mpr hBase)).of_mem_iff fun _ => hPerm.mem_iff
  first hBase := by
    obtain ⟨n, hn, hBound, hName, hBefore⟩ := h.first (hPerm.mem_iff.mpr hBase)
    exact ⟨n, hn, hPerm.length_eq ▸ hBound, hName, fun k hLow hHigh =>
      hPerm.mem_iff.mp (hBefore k hLow hHigh)⟩

/-! ## All requests -/

/-- What a supply is asked: a fresh name for a base, or to put a name in use. -/
inductive Request where
  | fresh (base : String)
  | reserve (name : String)
deriving DecidableEq, Repr

/-- The name that a request puts in use, and the supply afterwards. The request for a fresh name is
    answered with this name. -/
def serve (s : NameSupply) : Request → String × NameSupply
  | .fresh base => s.fresh base
  | .reserve name => (name, s.reserve name)

/-- The names that requests put in use one after the other, and the supply after the last one. -/
def serveAll (s : NameSupply) : List Request → List String × NameSupply
  | [] => ([], s)
  | r :: rs =>
    let (name, s) := s.serve r
    let (names, s) := s.serveAll rs
    (name :: names, s)

theorem used_serve (s : NameSupply) (r : Request) :
    (s.serve r).2.used = (s.serve r).1 :: s.used := by
  cases r <;> rfl

/-- **Names in use** are those from the beginning and those that requests put in use. -/
theorem used_serveAll (rs : List Request) : ∀ s : NameSupply,
    (s.serveAll rs).2.used = (s.serveAll rs).1.reverse ++ s.used := by
  induction rs with
  | nil => exact fun _ => rfl
  | cons r rs ih =>
    intro s
    show ((s.serve r).2.serveAll rs).2.used = _
    rw [ih, used_serve]
    simp [serveAll]

theorem length_serveAll (rs : List Request) : ∀ s : NameSupply,
    (s.serveAll rs).1.length = rs.length := by
  induction rs with
  | nil => exact fun _ => rfl
  | cons r rs ih => exact fun s => congrArg (· + 1) (ih _)

/-- Later requests do not change the answers to earlier ones. -/
theorem serveAll_take (rs : List Request) : ∀ (s : NameSupply) (i : Nat),
    (s.serveAll (rs.take i)).1 = (s.serveAll rs).1.take i := by
  induction rs with
  | nil =>
    intro s i
    rw [List.take_nil]
    exact List.take_nil.symm
  | cons r rs ih =>
    intro s i
    cases i with
    | zero => rfl
    | succ i => exact congrArg ((s.serve r).1 :: ·) (ih (s.serve r).2 i)

/-- Each request is served by the supply that the requests before it have left. -/
theorem serveAll_getElem? (rs : List Request) : ∀ (s : NameSupply) (i : Nat),
    (s.serveAll rs).1[i]? = rs[i]?.map fun r => ((s.serveAll (rs.take i)).2.serve r).1 := by
  induction rs with
  | nil => exact fun _ _ => rfl
  | cons r rs ih =>
    intro s i
    cases i with
    | zero => rfl
    | succ i => exact ih (s.serve r).2 i

/-- **Fresh names are fresh**: whatever names are in use at first and whatever is requested, in use
    before each request are the names from the beginning and those that were handed out or put in use
    so far. Every request for a fresh name is answered, with the right name beside these: the base
    itself, or the first variant at which the search ends. -/
theorem names_supplied (used : List String) (rs : List Request) :
    let names := (serveAll ⟨used⟩ rs).1
    names.length = rs.length ∧ ∀ i,
      (∀ x, (serveAll ⟨used⟩ (rs.take i)).2.contains x = true ↔ x ∈ used ++ names.take i)
      ∧ (∀ name, rs[i]? = some (.reserve name) → names[i]? = some name)
      ∧ ∀ base, rs[i]? = some (.fresh base) →
          ∃ name, names[i]? = some name ∧ Suits (used ++ names.take i) base name := by
  intro names
  refine ⟨length_serveAll rs _, fun i => ?_⟩
  have hUsed : ((serveAll ⟨used⟩ (rs.take i)).2.used).Perm (used ++ names.take i) := by
    rw [used_serveAll, serveAll_take]
    exact (List.perm_append_comm).trans ((List.reverse_perm _).append_left used)
  refine ⟨fun x => contains_iff.trans hUsed.mem_iff, fun name hr => ?_, fun base hr => ?_⟩
  · rw [serveAll_getElem?, hr]
    rfl
  · refine ⟨_, (serveAll_getElem? rs _ i).trans (congrArg _ hr), ?_⟩
    exact (suits_choose _ base).perm hUsed

/-- Requests for a base and for its variants, one of which looks at a name put in use before. -/
def tangled : List Request :=
  [.fresh "i", .reserve "i.3", .fresh "i.1", .fresh "i", .fresh "i.1", .fresh "j"]

theorem names_supplied_tangled :
    let names := (serveAll ⟨["i", "i.1"]⟩ tangled).1
    names = ["i.2", "i.3", "i.1.1", "i.4", "i.1.2", "j"]
      ∧ Suits (["i", "i.1"] ++ ["i.2", "i.3", "i.1.1"]) "i" "i.4"
      ∧ ∀ x, (serveAll ⟨["i", "i.1"]⟩ (tangled.take 2)).2.contains x = true
          ↔ x ∈ ["i", "i.1"] ++ ["i.2", "i.3"] := by
  intro names
  have hNames : names = ["i.2", "i.3", "i.1.1", "i.4", "i.1.2", "j"] := by decide
  obtain ⟨_, hAll⟩ := names_supplied ["i", "i.1"] tangled
  obtain ⟨name, hName, hSuits⟩ := (hAll 3).2.2 "i" rfl
  obtain ⟨hContains, _⟩ := hAll 2
  rw [show (serveAll ⟨["i", "i.1"]⟩ tangled).1 = _ from hNames] at hName hSuits hContains
  obtain rfl : "i.4" = name := Option.some.inj hName
  exact ⟨hNames, hSuits, hContains⟩

end LoopNest.NameSupply

import LoopNest.Proofs.ParallelLoops

/-! # Analyses that refine more levels

  A vector that is refined on fewer levels ends in unknown entries where another one has known ones.
  What the known entries rule out the unknown ones do not, so an analysis of fewer levels finds at
  least as much:

  * **Vectors**: every vector is covered by one of the analysis that stops earlier.
  * **Dependences**: so is every dependence, turned around or not (`Dependence.Coarser`).
  * **Answers**: what stands against a request at more levels has something that stands against it at
    fewer (`Stmt.isSafe_mono`, `Stmt.reorderObstacle?_mono`, `Stmt.fissionObstacle?_mono`). -/

namespace LoopNest

/-! ## Entries that cover others -/

/-- Whether an entry says no more than another one. -/
def Direction.Covers (a b : Direction) : Prop := a = .star ∨ a = b

namespace Direction

theorem covers_refl (a : Direction) : Covers a a := .inr rfl

variable {a b : Direction} {c r : List Direction}

theorem Covers.reverse (h : Covers a b) : Covers a.reverse b.reverse := by
  rcases h with rfl | rfl
  · exact .inl rfl
  · exact .inr rfl

theorem Covers.eq_of_ne_star (h : Covers a b) (hKnown : a ≠ .star) : a = b :=
  h.resolve_left hKnown

theorem covers_refl_all (c : List Direction) : List.Forall₂ Covers c c :=
  List.forall₂_same.mpr fun a _ => covers_refl a

/-- The first entry that is not `eq` is the same when it is known. -/
theorem find?_of_covers (h : List.Forall₂ Covers c r)
    (hKnown : c.find? (· != .eq) ≠ some .star) :
    r.find? (· != .eq) = c.find? (· != .eq) := by
  induction h with
  | nil => rfl
  | @cons a b c r hEntry hRest ih =>
    by_cases hEq : a = .eq
    · obtain rfl := hEntry.eq_of_ne_star (by rw [hEq]; simp)
      subst hEq
      exact ih hKnown
    · rw [List.find?_cons_of_pos (by simpa using hEq)] at hKnown
      obtain rfl := hEntry.eq_of_ne_star fun hStar => hKnown (congrArg some hStar)
      rw [List.find?_cons_of_pos (by simpa using hEq), List.find?_cons_of_pos (by simpa using hEq)]

/-- A vector that does not point backwards covers only such vectors. -/
theorem forward_of_covers (h : List.Forall₂ Covers c r) (hForward : forward c = true) :
    forward r = true := by
  induction h with
  | nil => rfl
  | @cons a b c r hEntry hRest ih =>
    cases a with
    | lt =>
      obtain rfl := hEntry.eq_of_ne_star (by simp)
      rfl
    | eq =>
      obtain rfl := hEntry.eq_of_ne_star (by simp)
      exact ih hForward
    | gt => cases hForward
    | star => cases hForward

theorem covers_getD (h : List.Forall₂ Covers c r) (k : Nat) :
    Covers (c.getD k .star) (r.getD k .star) := by
  induction h generalizing k with
  | nil => exact covers_refl _
  | cons hEntry hRest ih =>
    cases k with
    | zero => exact hEntry
    | succ k => exact ih k

theorem covers_map_getD (h : List.Forall₂ Covers c r) (order : List Nat) :
    List.Forall₂ Covers (order.map fun k => c.getD k .star) (order.map fun k => r.getD k .star) := by
  rw [List.forall₂_map_left_iff, List.forall₂_map_right_iff, List.forall₂_same]
  exact fun k _ => covers_getD h k

end Direction

open Direction (Covers)

/-! ## Vectors -/

namespace Nest

variable {n : Nest} {ls : List Level} {k k' : Nat} {p : Pair}

theorem refine_levels (p : Pair) :
    ∀ (flags : List Bool) (fixed : List Direction),
      (⟨ls, k⟩ : Nest).refine p fixed flags = (⟨ls, k'⟩ : Nest).refine p fixed flags := by
  intro flags
  induction flags with
  | nil => exact fun _ => rfl
  | cons f rest ih =>
    intro fixed
    simp only [refine, ih]
    rfl

/-- Only a vector that may conflict is refined. -/
theorem mayConflict_of_mem_refine {fixed r : List Direction} {flags : List Bool}
    (h : r ∈ n.refine p fixed flags) : n.mayConflict p (n.padded p fixed) = true := by
  cases flags with
  | nil =>
    rw [refine] at h
    split at h
    · assumption
    · cases h
  | cons f flags =>
    rw [refine] at h
    split at h
    · assumption
    · cases h

/-- Unknown entries cover whatever they are refined to. -/
theorem padded_covers {fixed s : List Direction} (h : fixed.length + s.length ≤ p.common) :
    List.Forall₂ Covers (n.padded p fixed) (n.padded p (fixed ++ s)) := by
  have hStars : List.replicate (p.common - fixed.length) Direction.star
      = List.replicate s.length .star
        ++ List.replicate (p.common - (fixed ++ s).length) .star := by
    rw [← List.replicate_add, List.length_append]
    congr 1
    omega
  unfold padded
  rw [hStars, ← List.append_assoc]
  refine List.rel_append (List.rel_append (List.rel_append (Direction.covers_refl_all _) ?_)
    (Direction.covers_refl_all _)) (Direction.covers_refl_all _)
  rw [List.forall₂_iff_get]
  refine ⟨List.length_replicate, fun i _ _ => .inl ?_⟩
  rw [List.get_eq_getElem, List.getElem_replicate]

/-- Refinement that stops earlier reaches a vector that covers the one reached later. -/
theorem exists_covers_of_mem_refine {more : List Bool} {r : List Direction} :
    ∀ (flags : List Bool) (fixed : List Direction), (∀ e ∈ fixed, e ≠ .star) →
      fixed.length + (flags ++ more).length ≤ p.common → r ∈ n.refine p fixed (flags ++ more) →
        ∃ s, n.padded p s ∈ n.refine p fixed flags ∧ (∀ e ∈ s, e ≠ .star)
          ∧ List.Forall₂ Covers (n.padded p s) r := by
  intro flags
  induction flags with
  | nil =>
    intro fixed hKnown hLength hr
    obtain ⟨_, s, rfl, hTail, _⟩ := of_mem_refine _ _ hr
    refine ⟨fixed, ?_, hKnown, padded_covers (by rwa [hTail])⟩
    rw [refine, if_pos (mayConflict_of_mem_refine hr)]
    exact List.mem_singleton.mpr rfl
  | cons f flags ih =>
    intro fixed hKnown hLength hr
    have hTest := mayConflict_of_mem_refine hr
    rw [List.cons_append, refine, if_pos hTest] at hr
    obtain ⟨d, hd, hr⟩ := List.mem_flatMap.mp hr
    obtain ⟨s, hs, hEntries, hCovers⟩ := ih (fixed ++ [d]) (by
        intro e he
        rcases List.mem_append.mp he with he | he
        · exact hKnown e he
        · rw [List.mem_singleton.mp he]
          exact ne_star_of_mem_choices hd) (by
        simp only [List.length_append, List.length_cons, List.length_nil] at hLength ⊢
        omega) hr
    refine ⟨s, ?_, hEntries, hCovers⟩
    rw [refine, if_pos hTest]
    exact List.mem_flatMap.mpr ⟨d, hd, hs⟩

theorem length_forcedEqual_le (p : Pair) : (n.forcedEqual p).length ≤ p.common := by
  unfold forcedEqual
  rw [List.length_map, List.length_take]
  exact Nat.min_le_left _ _

/-- When the first entry other than `eq` of a vector is unknown, all others are as well. -/
def UnknownFrom (c : List Direction) : Prop :=
  c.find? (· != .eq) = some .star → ∀ e ∈ c, e = .eq ∨ e = .star

theorem unknownFrom_padded {s : List Direction} (hKnown : ∀ e ∈ s, e ≠ .star) :
    UnknownFrom (n.padded p s) := by
  intro hFind e he
  unfold padded at hFind he
  rw [List.append_assoc, List.find?_append] at hFind
  -- no refined entry comes first, so all of them are `eq`
  have hAll : s.find? (· != .eq) = none := by
    cases hFirst : s.find? (· != .eq) with
    | none => rfl
    | some d =>
      rw [hFirst, Option.some_or, Option.some.injEq] at hFind
      exact absurd hFind (hKnown d (List.mem_of_find?_eq_some hFirst))
  rw [List.find?_eq_none] at hAll
  rw [List.mem_append, List.mem_append] at he
  rcases he with (he | he) | he
  · exact .inl (by simpa using hAll e he)
  · exact .inr (List.eq_of_mem_replicate he)
  · exact .inl (List.eq_of_mem_replicate he)

/-- With fewer refined levels there is a vector that covers a given one. -/
theorem exists_covers_of_mem_vectors (hLevels : k ≤ k') {r : List Direction}
    (hr : r ∈ (⟨ls, k'⟩ : Nest).vectors p) :
    ∃ c ∈ (⟨ls, k⟩ : Nest).vectors p, List.Forall₂ Covers c r ∧ UnknownFrom c := by
  let flags := (⟨ls, k⟩ : Nest).forcedEqual p
  have hSplit : flags.take k ++ (flags.take k').drop k = flags.take k' := by
    conv_rhs => rw [← List.take_append_drop k (flags.take k'), List.take_take]
    rw [Nat.min_eq_left hLevels]
  have hLength : (flags.take k ++ (flags.take k').drop k).length ≤ p.common := by
    rw [hSplit, List.length_take]
    exact Nat.le_trans (Nat.min_le_right _ _) (length_forcedEqual_le p)
  have hr : r ∈ (⟨ls, k⟩ : Nest).refine p [] (flags.take k ++ (flags.take k').drop k) := by
    have hSame : (⟨ls, k⟩ : Nest).refine p [] (flags.take k')
        = (⟨ls, k'⟩ : Nest).refine p [] (flags.take k') := refine_levels p _ _
    rw [hSplit, hSame]
    exact hr
  obtain ⟨s, hs, hKnown, hCovers⟩ := exists_covers_of_mem_refine _ [] (by simp)
    (by rwa [List.length_nil, Nat.zero_add]) hr
  exact ⟨_, hs, hCovers, unknownFrom_padded hKnown⟩

end Nest

/-! ## Dependences -/

/-- A dependence says no more than another one.

    * **ends**: it leads from the same statement to the same one, unless its first entry other than
      `eq` is unknown. -/
structure Dependence.Coarser (d e : Dependence) : Prop where
  direction : List.Forall₂ Covers d.direction e.direction
  reduction : d.reduction = e.reduction
  ends : d.direction.find? (· != .eq) ≠ some .star → d.source = e.source ∧ d.target = e.target

namespace Dependence

variable {d e : Dependence}

theorem coarser_refl (d : Dependence) : d.Coarser d :=
  ⟨Direction.covers_refl_all _, rfl, fun _ => ⟨rfl, rfl⟩⟩

/-- What crosses iterations of a level does so in every coarser account of it. -/
theorem Coarser.isCarriedAt (h : d.Coarser e) {k : Nat} (hCarried : e.isCarriedAt k = true) :
    d.isCarriedAt k = true := by
  unfold Dependence.isCarriedAt at hCarried ⊢
  have hLength := h.direction.length_eq
  cases hEntry : e.direction[k]? with
  | none =>
    rw [hEntry] at hCarried
    cases hCarried
  | some b =>
    obtain ⟨hk, rfl⟩ := List.getElem?_eq_some_iff.mp hEntry
    rw [hEntry, Option.any_some, bne_iff_ne] at hCarried
    rw [List.getElem?_eq_getElem (by rwa [hLength]), Option.any_some, bne_iff_ne]
    intro hEq
    rcases h.direction.get (by rwa [hLength]) hk with hStar | hSame
    · rw [List.get_eq_getElem, hEq] at hStar
      cases hStar
    · exact hCarried (hSame.symm.trans hEq)

/-- A coarser account of what crosses iterations of the first level does not know how they compare,
    or has the same ends. -/
theorem Coarser.head_or_ends (h : d.Coarser e) (hCarried : e.isCarriedAt 0 = true) :
    d.direction.head? = some .star
      ∨ d.source = e.source ∧ d.target = e.target ∧ e.direction.head? ≠ some .star := by
  have hFirst := h.isCarriedAt hCarried
  have hCovers := h.direction
  unfold Dependence.isCarriedAt at hFirst
  cases hc : d.direction with
  | nil =>
    rw [hc] at hFirst
    cases hFirst
  | cons a c =>
    rw [hc] at hFirst hCovers
    obtain ⟨b, r, hEntry, _, hr⟩ := List.forall₂_cons_left_iff.mp hCovers
    by_cases hStar : a = .star
    · exact .inl (congrArg some hStar)
    · have hFind : d.direction.find? (· != .eq) ≠ some .star := by
        rw [hc, List.find?_cons_of_pos (by simpa using hFirst)]
        exact fun hSome => hStar (Option.some.inj hSome)
      refine .inr ⟨(h.ends hFind).1, (h.ends hFind).2, ?_⟩
      rw [hr, ← hEntry.eq_of_ne_star hStar]
      exact fun hSome => hStar (Option.some.inj hSome)

end Dependence

namespace Nest

variable {n : Nest} {ls : List Level} {k k' : Nat} {x y : Access}

theorem kindBetween_swap {a b : AccessKind} (h : (kindBetween a b).isSome = true) :
    (kindBetween b a).isSome = true := by
  revert h
  cases a <;> cases b <;> simp [kindBetween]

/-- Two vectors with the same first entry other than `eq` are read from the same access. -/
theorem oriented?_of_find? {c r direction : List Direction} {src tgt : Access}
    (hFirst : r.find? (· != .eq) = c.find? (· != .eq))
    (h : oriented? x y r = some (src, tgt, direction)) :
    oriented? x y c = some (src, tgt, c) ∧ direction = r
      ∨ oriented? x y c = some (src, tgt, c.map Direction.reverse)
        ∧ direction = r.map Direction.reverse := by
  unfold oriented? at h ⊢
  rw [hFirst] at h
  cases hc : c.find? (· != .eq) with
  | none =>
    rw [hc] at h
    dsimp only at h ⊢
    split at h
    · cases h
    · rename_i hSame
      cases h
      rw [if_neg hSame]
      exact .inl ⟨rfl, rfl⟩
  | some e =>
    rw [hc] at h
    cases e with
    | gt =>
      dsimp only at h ⊢
      split at h
      · cases h
      · rename_i hSame
        cases h
        rw [if_neg hSame]
        exact .inr ⟨rfl, rfl⟩
    | lt | eq | star =>
      cases h
      exact .inl ⟨rfl, rfl⟩

/-- A vector that covers another one stands for a coarser dependence. -/
theorem exists_coarser_of_covers {c r : List Direction} {e : Dependence}
    (hCovers : List.Forall₂ Covers c r) (hUnknown : UnknownFrom c)
    (he : n.dependence? x y r = some e) : ∃ d, n.dependence? x y c = some d ∧ d.Coarser e := by
  obtain ⟨src, tgt, direction, kind, hOriented, hKind, rfl⟩ := dependence?_eq_some.mp he
  by_cases hStar : c.find? (· != .eq) = some .star
  · -- the coarser vector keeps the order of the accesses whatever the other one does
    have hAsIs : oriented? x y c = some (x, y, c) := by
      unfold oriented?
      rw [hStar]
    have hEnds := oriented?_cases hOriented
    have hBetween : (kindBetween x.kind y.kind).isSome = true := by
      rcases hEnds with ⟨rfl, rfl, _⟩ | ⟨rfl, rfl, _⟩
      · rw [hKind]
        rfl
      · exact kindBetween_swap (by rw [hKind]; rfl)
    obtain ⟨kind', hKind'⟩ := Option.isSome_iff_exists.mp hBetween
    refine ⟨_, dependence?_eq_some.mpr ⟨x, y, c, kind', hAsIs, hKind', rfl⟩, ?_, rfl,
      fun h => absurd hStar h⟩
    rcases hEnds with ⟨_, _, rfl⟩ | ⟨_, _, rfl⟩
    · exact hCovers
    · -- what is known of the coarser vector is the same in both orders
      rw [List.forall₂_map_right_iff]
      refine ((List.forall₂_and_left _ _).mpr ⟨hUnknown hStar, hCovers⟩).imp ?_
      rintro a b ⟨rfl | rfl, hEntry⟩
      · exact hEntry.reverse
      · exact .inl rfl
  · rcases oriented?_of_find? (Direction.find?_of_covers hCovers hStar) hOriented with
      ⟨hSame, rfl⟩ | ⟨hSame, rfl⟩
    · exact ⟨_, dependence?_eq_some.mpr ⟨src, tgt, c, kind, hSame, hKind, rfl⟩, hCovers, rfl,
        fun _ => ⟨rfl, rfl⟩⟩
    · refine ⟨_, dependence?_eq_some.mpr ⟨src, tgt, _, kind, hSame, hKind, rfl⟩, ?_, rfl,
        fun _ => ⟨rfl, rfl⟩⟩
      rw [List.forall₂_map_left_iff, List.forall₂_map_right_iff]
      exact hCovers.imp fun _ _ hEntry => hEntry.reverse

theorem exists_coarser_between (hLevels : k ≤ k') {e : Dependence}
    (he : e ∈ (⟨ls, k'⟩ : Nest).between x y) :
    ∃ d ∈ (⟨ls, k⟩ : Nest).between x y, d.Coarser e := by
  obtain ⟨r, hr, he⟩ := List.mem_filterMap.mp he
  obtain ⟨c, hc, hCovers, hUnknown⟩ := exists_covers_of_mem_vectors hLevels hr
  obtain ⟨d, hd, hCoarser⟩ := exists_coarser_of_covers hCovers hUnknown he
  exact ⟨d, List.mem_filterMap.mpr ⟨c, hc, hd⟩, hCoarser⟩

theorem exists_coarser_among (hLevels : k ≤ k') {as : List Access} {e : Dependence}
    (he : e ∈ (⟨ls, k'⟩ : Nest).among as) : ∃ d ∈ (⟨ls, k⟩ : Nest).among as, d.Coarser e := by
  induction as with
  | nil => cases he
  | cons x rest ih =>
    simp only [among, List.mem_append, List.mem_flatMap] at he ⊢
    rcases he with ⟨y, hy, he⟩ | he
    · obtain ⟨d, hd, hCoarser⟩ := exists_coarser_between hLevels he
      exact ⟨d, .inl ⟨y, hy, hd⟩, hCoarser⟩
    · obtain ⟨d, hd, hCoarser⟩ := ih he
      exact ⟨d, .inr hd, hCoarser⟩

end Nest

/-- An analysis that refines fewer levels has a coarser account of every dependence. -/
theorem exists_coarser {k k' : Nat} (hLevels : k ≤ k') {scope : Stmt} {levels : List Level}
    {e : Dependence} (he : e ∈ dependences k' scope levels) :
    ∃ d ∈ dependences k scope levels, d.Coarser e := by
  rcases List.mem_append.mp he with he | he
  · -- what a call touches is not refined at all
    exact ⟨e, List.mem_append_left _ he, e.coarser_refl⟩
  · obtain ⟨d, hd, hCoarser⟩ := Nest.exists_coarser_among hLevels he
    exact ⟨d, List.mem_append_right _ hd, hCoarser⟩

/-! ## Answers -/

/-- A dependence that stands against running iterations at the same time. -/
def Dependence.Blocks (d : Dependence) : Prop := d.isCarriedAt 0 = true ∧ d.reduction = none

namespace Stmt

variable {k k' : Nat}

theorem isSafe_verdictOf {ds : List Dependence} :
    ∀ {found : List (String × ReduceOp)},
      (verdictOf found ds).isSafe = true ↔ ∀ d ∈ ds, ¬ d.Blocks := by
  induction ds with
  | nil => exact ⟨fun _ _ hd => absurd hd List.not_mem_nil, fun _ => rfl⟩
  | cons d ds ih =>
    intro found
    rw [verdictOf, List.forall_mem_cons]
    by_cases hCarried : d.isCarriedAt 0 = true
    · rw [hCarried]
      cases hReduction : d.reduction with
      | none =>
        have hBlocks : d.Blocks := ⟨hCarried, hReduction⟩
        simp [Verdict.isSafe, hBlocks]
      | some op =>
        have hFree : ¬ d.Blocks := by
          rintro ⟨_, hNone⟩
          rw [hReduction] at hNone
          cases hNone
        rw [if_neg (by simp)]
        dsimp only
        split <;> simp only [ih, hFree, not_false_eq_true, true_and]
    · have hFree : ¬ d.Blocks := fun h => hCarried h.1
      rw [if_pos (by simpa using hCarried), ih]
      simp [hFree]

/-- Iterations that may run at the same time may do so when more levels are refined. -/
theorem isSafe_mono (hLevels : k ≤ k') {lp : Stmt} (h : (lp.parallelVerdict k).isSafe = true) :
    (lp.parallelVerdict k').isSafe = true := by
  unfold parallelVerdict at h ⊢
  rw [isSafe_verdictOf] at h ⊢
  rintro e he ⟨hCarried, hReduction⟩
  obtain ⟨d, hd, hCoarser⟩ := exists_coarser hLevels he
  exact h d hd ⟨hCoarser.isCarriedAt hCarried, hCoarser.reduction.trans hReduction⟩

theorem safe_mono (hLevels : k ≤ k') {lp : Stmt} {rs : List (String × ReduceOp)}
    (h : lp.parallelVerdict k = .safe rs) : ∃ rs', lp.parallelVerdict k' = .safe rs' := by
  have hSafe : (lp.parallelVerdict k').isSafe = true := isSafe_mono hLevels (by rw [h]; rfl)
  cases hVerdict : lp.parallelVerdict k' with
  | safe rs' => exact ⟨rs', rfl⟩
  | blocked d =>
    rw [hVerdict] at hSafe
    cases hSafe

/-- An order of a nest that nothing stands against is not stood against when more levels are
    refined. -/
theorem reorderObstacle?_mono (hLevels : k ≤ k') {scope : Stmt} {levels : List Level}
    {order : List Nat} (h : scope.reorderObstacle? k levels order = none) :
    scope.reorderObstacle? k' levels order = none := by
  unfold reorderObstacle? at h ⊢
  rw [List.find?_eq_none] at h ⊢
  intro e he
  obtain ⟨d, hd, hCoarser⟩ := exists_coarser hLevels he
  have hHere := h d hd
  rw [hCoarser.reduction] at hHere
  -- an order that keeps the coarser vector forward keeps the other one forward
  simp only [Bool.and_eq_true, Bool.not_eq_true', Bool.not_eq_false, not_and] at hHere ⊢
  exact fun hPlain =>
    Direction.forward_of_covers (Direction.covers_map_getD hCoarser.direction order) (hHere hPlain)

/-- Statements that may be separated may be when more levels are refined. -/
theorem fissionObstacle?_mono (hLevels : k ≤ k') {lp : Stmt} {first second : List Stmt}
    (h : lp.fissionObstacle? k first second = none) :
    lp.fissionObstacle? k' first second = none := by
  unfold fissionObstacle? at h ⊢
  rw [List.find?_eq_none] at h ⊢
  intro e he hAgainst
  obtain ⟨d, hd, hCoarser⟩ := exists_coarser hLevels he
  apply h d hd
  simp only [Bool.and_eq_true, Bool.or_eq_true, beq_iff_eq] at hAgainst ⊢
  obtain ⟨⟨hPlain, hCarried⟩, hCross⟩ := hAgainst
  refine ⟨⟨by rw [hCoarser.reduction, hPlain], hCoarser.isCarriedAt hCarried⟩, ?_⟩
  rcases hCoarser.head_or_ends hCarried with hStar | ⟨hSource, hTarget, hKnown⟩
  · exact .inr hStar
  · rw [hSource, hTarget]
    exact hCross.imp_right fun hStar => absurd hStar hKnown

end Stmt

end LoopNest

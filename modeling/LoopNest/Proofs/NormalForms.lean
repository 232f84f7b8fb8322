import LoopNest.Proofs.ChainDependences
import LoopNest.Proofs.UndoneReorders

/-! # The normal form of a dependence

  Pairs of accesses are not ordered by time. Their vectors are enumerated from the access that stands
  first in the text, a vector that points backwards is turned around together with its ends, and an
  access is not paired with itself within one iteration. What comes out has a normal form
  (`Dependence.Normal`), on which every question about a loop relies:

  * **Vectors**: when all levels are refined, a vector has a known entry for each of them
    (`Nest.known_of_mem_vectors`).
  * **Orientation**: a vector that has been oriented points forwards, and when it stays within one
    iteration its ends are in the order of the text (`Nest.forward_of_oriented?`,
    `Nest.ends_of_oriented?`).
  * **The old order**: a vector in normal form does not stand against the order in which the loops
    are (`Stmt.dependences_in_normal_form`). -/

namespace LoopNest

/-- The normal form of a dependence between accesses in a list, over a number of levels.

    * **forward**: the first entry other than `eq` is `lt`;
    * **level**: the level is the place of that entry;
    * **independent**: there is no level when all entries are `eq`;
    * **ends**: the dependence has two accesses to its buffer as its ends and is of their kind, and
      within one iteration the source stands before the target. -/
structure Dependence.Normal (as : List Access) (levels : Nat) (d : Dependence) : Prop where
  length : d.direction.length = levels
  known : ∀ e ∈ d.direction, e ≠ .star
  forward : ∀ e, d.direction.find? (· != .eq) = some e → e = .lt
  level : ∀ k, d.level = some k ↔
    d.direction[k]? = some .lt ∧ ∀ j < k, d.direction[j]? = some .eq
  independent : d.isLoopIndependent = true ↔ ∀ e ∈ d.direction, e = .eq
  ends : ∃ (i j : Nat) (src tgt : Access), as[i]? = some src ∧ as[j]? = some tgt
    ∧ d.source = src.stmt ∧ d.target = tgt.stmt ∧ d.buffer = src.buffer ∧ d.buffer = tgt.buffer
    ∧ Nest.kindBetween src.kind tgt.kind = some d.kind ∧ (d.isLoopIndependent = true → i < j)

namespace Direction

/-- The place of the first entry other than `eq`, in a vector that points forwards. -/
theorem findIdx?_eq_some_iff {dirs : List Direction}
    (hForward : ∀ e, dirs.find? (· != .eq) = some e → e = .lt) {k : Nat} :
    dirs.findIdx? (· != .eq) = some k ↔ dirs[k]? = some .lt ∧ ∀ j < k, dirs[j]? = some .eq := by
  induction dirs generalizing k with
  | nil => simp
  | cons d dirs ih =>
    by_cases hd : d = .eq
    · subst hd
      rw [List.findIdx?_cons, if_neg (by decide)]
      have hRest := fun {k} => ih (k := k) (by rwa [List.find?_cons_of_neg (by decide)] at hForward)
      cases k with
      | zero => simp
      | succ k =>
        rw [Option.map_eq_some_iff]
        constructor
        · rintro ⟨i, hi, hik⟩
          obtain rfl := Nat.succ.inj hik
          obtain ⟨hLt, hEqs⟩ := hRest.mp hi
          refine ⟨hLt, fun j hj => ?_⟩
          cases j with
          | zero => rfl
          | succ j => exact hEqs j (by omega)
        · rintro ⟨hLt, hEqs⟩
          exact ⟨k, hRest.mpr ⟨hLt, fun j hj => hEqs (j + 1) (by omega)⟩, rfl⟩
    · have hFirst : (d != .eq) = true := by simpa using hd
      obtain rfl := hForward d (List.find?_cons_of_pos hFirst)
      rw [List.findIdx?_cons, if_pos hFirst]
      constructor
      · intro h
        cases h
        exact ⟨rfl, fun j hj => absurd hj (Nat.not_lt_zero j)⟩
      · rintro ⟨_, hEqs⟩
        cases k with
        | zero => rfl
        | succ k => cases hEqs 0 (Nat.succ_pos k)

/-- A vector that points forwards does so in the order in which it is written. -/
theorem forward_map_getD_range {dirs : List Direction}
    (hForward : ∀ e, dirs.find? (· != .eq) = some e → e = .lt) :
    forward ((List.range dirs.length).map fun k => dirs.getD k .star) = true := by
  have hSame : ((List.range dirs.length).map fun k => dirs.getD k .star) = dirs := by
    refine List.ext_getElem (by simp) fun k _ hk => ?_
    rw [List.getElem_map, List.getElem_range, List.getD_eq_getElem?_getD,
      List.getElem?_eq_getElem hk, Option.getD_some]
  rw [hSame]
  exact Restructure.forward_iff.mpr hForward

end Direction

namespace Nest

variable {n : Nest}

/-- **Vectors**: when all levels are refined, a vector has a known entry for each of them. -/
theorem known_of_mem_vectors (hRefined : n.levels.length ≤ n.maxLevels) {x y : Access}
    {dirs : List Direction} (h : dirs ∈ n.vectors ⟨x, y, n.commonLevels x y⟩) :
    dirs.length = n.levels.length ∧ ∀ e ∈ dirs, e ≠ .star := by
  have hCommon : n.commonLevels x y ≤ n.levels.length := (List.takeWhile_prefix _).length_le
  obtain ⟨_, s, rfl, hLength, hKnown⟩ := of_mem_refine _ [] h
  have hAll : s.length = n.commonLevels x y := by
    rw [hLength, List.length_take, forcedEqual, List.length_map, List.length_take]
    show min n.maxLevels (min (n.commonLevels x y) n.levels.length) = _
    omega
  -- no level around both accesses is left open
  rw [List.nil_append, padded, hAll, Nat.sub_self, List.replicate_zero, List.append_nil]
  constructor
  · rw [List.length_append, List.length_replicate, hAll]
    exact Nat.add_sub_cancel' hCommon
  · intro e he
    rcases List.mem_append.mp he with he | he
    · exact hKnown e he
    · rw [List.eq_of_mem_replicate he]
      exact Direction.noConfusion

variable {x y src tgt : Access} {dirs direction : List Direction}

/-- **Orientation**: an oriented vector of known entries points forwards. -/
theorem forward_of_oriented? (hKnown : ∀ e ∈ dirs, e ≠ .star)
    (h : oriented? x y dirs = some (src, tgt, direction)) :
    ∀ e, direction.find? (· != .eq) = some e → e = .lt := by
  intro e he
  cases hFind : dirs.find? (· != .eq) with
  | none =>
    rcases oriented?_cases h with ⟨_, _, rfl⟩ | ⟨_, _, rfl⟩
    · rw [hFind] at he
      cases he
    · rw [find?_reverse, hFind] at he
      cases he
  | some d =>
    rcases Restructure.lt_or_gt_of_find? hKnown hFind with rfl | rfl
    · unfold oriented? at h
      rw [hFind] at h
      cases h
      exact Option.some.inj (he.symm.trans hFind)
    · unfold oriented? at h
      rw [hFind] at h
      obtain ⟨_, h⟩ := Option.ite_none_left_eq_some.mp h
      cases h
      rw [find?_reverse, hFind] at he
      exact (Option.some.inj he).symm

/-- **Orientation**: a vector within one iteration has its ends as they were given, in two places. -/
theorem ends_of_oriented? (h : oriented? x y dirs = some (src, tgt, direction))
    (hSame : direction.find? (· != .eq) = none) :
    src = x ∧ tgt = y ∧ x.position ≠ y.position := by
  have hFind : dirs.find? (· != .eq) = none := by
    rcases oriented?_cases h with ⟨_, _, rfl⟩ | ⟨_, _, rfl⟩
    · exact hSame
    · rwa [find?_reverse, Option.map_eq_none_iff] at hSame
  unfold oriented? at h
  rw [hFind] at h
  obtain ⟨hPlaces, h⟩ := Option.ite_none_left_eq_some.mp h
  cases h
  exact ⟨rfl, rfl, by simpa using hPlaces⟩

/-- Dependences among accesses that are numbered by their places are in normal form. -/
theorem normal_of_mem_among (hRefined : n.levels.length ≤ n.maxLevels) {as : List Access}
    (hPlaces : ∀ (i : Nat) a, as[i]? = some a → a.position = i) {d : Dependence}
    (hd : d ∈ n.among as) : d.Normal as n.levels.length := by
  obtain ⟨same, x, y, hPair, hConflict, hd⟩ := exists_pair_of_mem_among hd
  obtain ⟨dirs, hDirs, hd⟩ := List.mem_filterMap.mp hd
  obtain ⟨src, tgt, direction, kind, hOriented, hKind, rfl⟩ := dependence?_eq_some.mp hd
  obtain ⟨hLength, hKnown⟩ := known_of_mem_vectors hRefined hDirs
  have hForward := forward_of_oriented? hKnown hOriented
  have hIndependent : (direction.findIdx? (· != .eq)).isNone = true
      ↔ ∀ e ∈ direction, e = .eq := by
    rw [Option.isNone_iff_eq_none, List.findIdx?_eq_none_iff]
    simp
  obtain ⟨i, j, hi, hj, hij, _⟩ := pairOf_iff.mp hPair
  have hBuffer := (conflicting_iff.mp hConflict).1
  refine ⟨?_, ?_, hForward, fun k => Direction.findIdx?_eq_some_iff hForward, hIndependent, ?_⟩
  · rcases oriented?_cases hOriented with ⟨_, _, rfl⟩ | ⟨_, _, rfl⟩
    · exact hLength
    · rwa [List.length_map]
  · rcases oriented?_cases hOriented with ⟨_, _, rfl⟩ | ⟨_, _, rfl⟩
    · exact hKnown
    · intro e he
      obtain ⟨f, hf, rfl⟩ := List.mem_map.mp he
      exact fun hStar => hKnown f hf (by rw [← Direction.reverse_reverse f, hStar]; rfl)
  · have hWithin : (direction.findIdx? (· != .eq)).isNone = true →
        src = x ∧ tgt = y ∧ x.position ≠ y.position := by
      intro hNone
      refine ends_of_oriented? hOriented (List.find?_eq_none.mpr fun e he => ?_)
      simp [hIndependent.mp hNone e he]
    rcases oriented?_cases hOriented with ⟨rfl, rfl, _⟩ | ⟨rfl, rfl, _⟩
    · refine ⟨i, j, src, tgt, hi, hj, rfl, rfl, rfl, hBuffer, hKind, fun hNone => ?_⟩
      have hApart := (hWithin hNone).2.2
      rw [hPlaces i src hi, hPlaces j tgt hj] at hApart
      exact Nat.lt_of_le_of_ne hij hApart
    · refine ⟨j, i, src, tgt, hj, hi, rfl, rfl, hBuffer, rfl, hKind, fun hNone => ?_⟩
      obtain ⟨rfl, _, hApart⟩ := hWithin hNone
      exact absurd rfl hApart

end Nest

namespace Stmt

/-- Accesses are numbered by their places. -/
theorem position_of_getElem?_accesses {t : Stmt} {i : Nat} {a : Access}
    (h : t.accesses[i]? = some a) : a.position = i := by
  unfold accesses at h
  rw [List.getElem?_map, List.getElem?_zipIdx, Option.map_map, Nat.zero_add] at h
  obtain ⟨b, _, rfl⟩ := Option.map_eq_some_iff.mp h
  rfl

/-- **Normal form**: when no loop of a chain is beyond the refined levels and its outermost loop has
    no calls, all dependences of the chain are in normal form, and nothing stands against the order in
    which the loops are. -/
theorem dependences_in_normal_form {outer : Stmt} {inner : List Stmt} {maxLevels : Nat}
    (hCalls : outer.calls = []) (hRefined : (outer :: inner).length ≤ maxLevels) :
    (∀ d ∈ chainDependences maxLevels (outer :: inner),
        d.Normal outer.accesses (outer :: inner).length)
      ∧ chainObstacle? maxLevels (List.range (outer :: inner).length) (outer :: inner) = none := by
  have hNormal : ∀ d ∈ chainDependences maxLevels (outer :: inner),
      d.Normal outer.accesses (outer :: inner).length := by
    intro d hd
    rw [chainDependences_eq_among hCalls] at hd
    have hLevels : (nestOf maxLevels (outer :: inner)).levels.length = (outer :: inner).length :=
      List.length_map _
    rw [← hLevels]
    exact Nest.normal_of_mem_among (hLevels ▸ hRefined)
      (fun _ _ => position_of_getElem?_accesses) hd
  refine ⟨hNormal, List.find?_eq_none.mpr fun d hd => ?_⟩
  have hForward := Direction.forward_map_getD_range (hNormal d hd).forward
  rw [(hNormal d hd).length] at hForward
  rw [hForward]
  simp

/-- Fills a row from the row before it, one element further on. -/
def skewedInner : Stmt :=
  .loop ⟨1, none⟩ { iter := "j", lower := .int 0, upper := .int 4 }
    (.store ⟨2, none⟩ "y" [.var "i", .var "j"]
      (.load "y" [.add (.var "i") (.int (-1)), .add (.var "j") (.int 1)]))

/-- Fills each row from the row before it. -/
def skewed : Stmt :=
  .loop ⟨0, none⟩ { iter := "i", lower := .int 1, upper := .int 4 } skewedInner

/-- The write is found as the second access, and comes first as the source. -/
theorem skewed_in_normal_form :
    chainDependences defaultLevels [skewed, skewedInner]
        = [⟨2, 2, .flow, [.lt, .gt], "y", none, some 0⟩]
      ∧ (∀ d ∈ chainDependences defaultLevels [skewed, skewedInner], d.Normal skewed.accesses 2)
      ∧ chainObstacle? defaultLevels [0, 1] [skewed, skewedInner] = none := by
  have hRefined : [skewed, skewedInner].length ≤ defaultLevels := by decide
  have hNormal := dependences_in_normal_form rfl hRefined
  exact ⟨by cbv, hNormal.1, hNormal.2⟩

end Stmt

end LoopNest

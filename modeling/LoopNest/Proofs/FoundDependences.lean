import LoopNest.Proofs.Encounters

/-! # Dependences that the analysis finds

  Two touches of one cell, not both reads, in different iterations of a level around both, are
  reported by the analysis (`Encounter.exists_joins`): there is a dependence between their
  statements whose vector is the comparison of their iterations (`Nest.directions`), as far as the
  levels are refined.

  The statement has two conditions on the encounter. One is `Encounter.near`; the other one is that
  levels on which the analysis only tries equal iterations have equal iterations
  (`Nest.Forced`). -/

namespace LoopNest

/-- The value of the iterator of the loop numbered `id`, zero outside that loop. -/
def Touch.valueIn (x : Touch) (id : Nat) : Int := (x.value? id).getD 0

/-- A touch whose access stands at a given place among all accesses. -/
def Touch.placedAt (x : Touch) (i : Nat) : Touch := { x with access.position := i }

namespace Nest

variable (n : Nest)

/-! ## The vector of two touches -/

/-- How the iterations of two touches compare on the levels around both. -/
def signs (x y : Touch) : List Direction :=
  (n.levels.take (n.common x y)).map fun l => .sign (x.valueIn l.id) (y.valueIn l.id)

/-- The vector of two touches, with the precision of the analysis. -/
def directions (x y : Touch) : List Direction :=
  n.padded (n.pair x y) ((n.signs x y).take n.maxLevels)

/-- On levels on which only equal iterations are tried the iterations are equal. -/
def Forced (x y : Touch) : Prop :=
  ∀ l ∈ n.levels.take (n.common x y),
    (l.noDeps.contains x.access.buffer
      || (declaredInside l x.access && declaredInside l y.access)) = true →
        x.valueIn l.id = y.valueIn l.id

/-- Two touches are in different iterations of a level around both. -/
def Differ (x y : Touch) : Prop :=
  ∃ l ∈ n.levels.take (n.common x y), x.valueIn l.id ≠ y.valueIn l.id

variable {n}

theorem common_le_length (x y : Touch) : n.common x y ≤ n.levels.length :=
  (List.takeWhile_prefix _).length_le

@[simp] theorem length_signs (x y : Touch) : (n.signs x y).length = n.common x y := by
  unfold signs
  rw [List.length_map, List.length_take, Nat.min_eq_left (common_le_length x y)]

theorem common_comm (x y : Touch) : n.common x y = n.common y x := by
  unfold common commonLevels
  congr 2
  funext l
  exact Bool.and_comm _ _

theorem map_reverse_signs (x y : Touch) : (n.signs x y).map .reverse = n.signs y x := by
  unfold signs
  rw [List.map_map, common_comm x y]
  apply List.map_congr_left
  intro l _
  exact Direction.reverse_sign _ _

/-- Exchanging two touches reverses their vector. -/
theorem map_reverse_directions (x y : Touch) :
    (n.directions x y).map .reverse = n.directions y x := by
  unfold directions padded pair
  simp only [List.map_append, List.map_take, List.map_replicate, map_reverse_signs,
    List.length_take, length_signs, common_comm x y]
  rfl

theorem Differ.symm {x y : Touch} (h : n.Differ x y) : n.Differ y x := by
  obtain ⟨l, hl, hne⟩ := h
  rw [common_comm] at hl
  exact ⟨l, hl, hne.symm⟩

theorem Forced.symm {x y : Touch} (h : n.Forced x y)
    (hBuffer : x.access.buffer = y.access.buffer) : n.Forced y x := by
  intro l hl hForced
  rw [common_comm] at hl
  rw [← hBuffer, Bool.and_comm] at hForced
  exact (h l hl hForced).symm

/-- An entry of a vector that starts with the signs of two touches is their sign or unknown. -/
theorem getD_padded {x y : Touch} {j k : Nat} (hk : k < n.common x y) :
    (n.padded (n.pair x y) ((n.signs x y).take j)).getD k .star
      = if k < j then (n.signs x y).getD k .star else .star := by
  unfold padded
  rw [List.getD_eq_getElem?_getD, List.getD_eq_getElem?_getD]
  by_cases hj : k < j
  · have hLength : k < ((n.signs x y).take j).length := by
      rw [List.length_take, length_signs]
      omega
    rw [if_pos hj, List.append_assoc, List.getElem?_append_left hLength,
      List.getElem?_take_of_lt hj]
  · have hLength : ((n.signs x y).take j).length ≤ k := by
      rw [List.length_take]
      omega
    have hStars : k - ((n.signs x y).take j).length
        < (n.pair x y).common - ((n.signs x y).take j).length := by
      show _ < n.common x y - _
      omega
    rw [if_neg hj, List.append_assoc, List.getElem?_append_right hLength,
      List.getElem?_append_left (by rwa [List.length_replicate]),
      List.getElem?_replicate_of_lt hStars, Option.getD_some]

theorem getD_signs {x y : Touch} {k : Nat} {l : Level} (hl : n.levels[k]? = some l)
    (hk : k < n.common x y) :
    (n.signs x y).getD k .star = .sign (x.valueIn l.id) (y.valueIn l.id) := by
  unfold signs
  rw [List.getD_eq_getElem?_getD, List.getElem?_map, List.getElem?_take_of_lt hk, hl]
  rfl

/-- The entries of a vector that starts with the signs of two touches allow their iterations. -/
theorem allows_padded (x y : Touch) {j : Nat} (hMax : j ≤ n.maxLevels) :
    Encounter.Allows n x y (n.padded (n.pair x y) ((n.signs x y).take j)) where
  entry k l u w hl hk hu hw := by
    rw [getD_padded hk]
    by_cases hj : k < j
    · rw [if_pos hj, getD_signs hl hk]
      unfold Touch.valueIn
      rw [hu, hw]
      exact Direction.admits_sign u w
    · rw [if_neg hj]
      trivial
  rest k hk hCommon := by
    rw [getD_padded hCommon, if_neg (by omega)]

theorem allows_directions (x y : Touch) : Encounter.Allows n x y (n.directions x y) :=
  allows_padded x y (Nat.le_refl n.maxLevels)

/-! ## Refinement -/

/-- Refinement reaches every vector that passes the test at each of its beginnings. -/
theorem mem_refine {p : Pair} {s : List Direction}
    (hTest : ∀ j, n.mayConflict p (n.padded p (s.take j)) = true) :
    ∀ (flags : List Bool) (j : Nat),
      (∀ i f, flags[i]? = some f → ∃ d, s[j + i]? = some d ∧ d ∈ choices f) →
        n.padded p (s.take (j + flags.length)) ∈ n.refine p (s.take j) flags := by
  intro flags
  induction flags with
  | nil =>
    intro j _
    rw [List.length_nil, Nat.add_zero, refine, if_pos (hTest j)]
    exact List.mem_singleton.mpr rfl
  | cons f flags ih =>
    intro j hChoices
    obtain ⟨d, hd, hChoice⟩ := hChoices 0 f rfl
    rw [Nat.add_zero] at hd
    have hNext : s.take j ++ [d] = s.take (j + 1) := by
      rw [List.take_add_one, hd]
      rfl
    have hRest := ih (j + 1) fun i g hg => by
      obtain ⟨d', hd', hChoice'⟩ := hChoices (i + 1) g (by rwa [List.getElem?_cons_succ])
      exact ⟨d', by rwa [Nat.add_assoc, Nat.add_comm 1 i], hChoice'⟩
    rw [refine, if_pos (hTest j)]
    apply List.mem_flatMap.mpr
    refine ⟨d, hChoice, ?_⟩
    rw [hNext, List.length_cons, Nat.add_comm flags.length 1, ← Nat.add_assoc]
    exact hRest

theorem sign_mem_choices {u w : Int} {f : Bool} (h : f = true → u = w) :
    Direction.sign u w ∈ choices f := by
  cases f with
  | true =>
    rw [Direction.sign_eq_iff.mpr (h rfl)]
    exact List.mem_singleton.mpr rfl
  | false =>
    have hStar := Direction.sign_ne_star u w
    cases hSign : Direction.sign u w with
    | star => exact absurd hSign hStar
    | lt => exact List.mem_cons_self
    | eq => simp [choices]
    | gt => simp [choices]

end Nest

/-- The vectors of a pair of accesses hold the vector of two touches of one cell. -/
theorem Encounter.directions_mem_vectors {n : Nest} {c : Conventions} {start : Env} {x y : Touch}
    {P Q : List Turn} (h : Encounter n c start x y P Q) (hCell : x.cell = y.cell)
    (hForced : n.Forced x y) : n.directions x y ∈ n.vectors (n.pair x y) := by
  have hTest : ∀ j, n.mayConflict (n.pair x y)
      (n.padded (n.pair x y) (((n.signs x y).take n.maxLevels).take j)) = true := by
    intro j
    rw [List.take_take]
    exact h.mayConflict hCell (Nest.allows_padded x y (Nat.min_le_right j n.maxLevels))
  have hLength : (n.forcedEqual (n.pair x y)).length = n.common x y := by
    unfold Nest.forcedEqual
    rw [List.length_map, List.length_take]
    exact Nat.min_eq_left (Nest.common_le_length x y)
  have hMem := Nest.mem_refine hTest ((n.forcedEqual (n.pair x y)).take n.maxLevels) 0 (by
    intro i f hf
    obtain ⟨hi, hf⟩ := List.getElem?_eq_some_iff.mp hf
    rw [List.getElem_take] at hf
    rw [List.length_take, hLength] at hi
    have hCommon : i < n.common x y := by omega
    have hLevel : i < n.levels.length := Nat.lt_of_lt_of_le hCommon (Nest.common_le_length x y)
    have hMem : n.levels[i] ∈ n.levels.take (n.common x y) :=
      List.mem_take_iff_getElem.mpr ⟨i, by omega, rfl⟩
    refine ⟨.sign (x.valueIn n.levels[i].id) (y.valueIn n.levels[i].id), ?_, ?_⟩
    · rw [Nat.zero_add, List.getElem?_take_of_lt (by omega)]
      unfold Nest.signs
      rw [List.getElem?_map, List.getElem?_take_of_lt hCommon, List.getElem?_eq_getElem hLevel]
      rfl
    · apply Nest.sign_mem_choices
      intro hTrue
      apply hForced _ hMem
      rw [← hTrue, ← hf]
      simp only [Nest.forcedEqual, List.getElem_map, List.getElem_take]
      rfl)
  rw [Nat.zero_add, List.length_take, hLength, List.take_zero, List.take_take] at hMem
  have hTake : (n.signs x y).take (min (min n.maxLevels (n.common x y)) n.maxLevels)
      = (n.signs x y).take n.maxLevels := by
    rw [← Nest.length_signs (n := n) x y, List.take_eq_take_min (i := n.maxLevels)]
    congr 1
    omega
  rw [hTake] at hMem
  exact hMem

/-! ## Dependences -/

/-- A dependence leads from one touch to another that does not come earlier.

    * **reduction**: when it is called a reduction, both accesses belong to one;
    * **onward**: the first level on which the iterations differ does not go backwards. -/
structure Dependence.Joins (n : Nest) (d : Dependence) (x y : Touch) : Prop where
  source : d.source = x.access.stmt
  target : d.target = y.access.stmt
  buffer : d.buffer = x.access.buffer
  direction : d.direction = n.directions x y
  reduction : ∀ op, d.reduction = some op →
    x.access.reduction = some op ∧ y.access.reduction = some op
  onward : (n.directions x y).find? (· != .eq) ≠ some .gt

namespace Nest

variable {n : Nest}

theorem reductionPair?_eq_some {a b : Access} {op : ReduceOp} (h : n.reductionPair? a b = some op) :
    a.reduction = some op ∧ b.reduction = some op := by
  unfold reductionPair? at h
  cases ha : a.reduction with
  | none =>
    rw [ha] at h
    cases h
  | some o =>
    rw [ha] at h
    simp only at h
    split at h
    · rename_i hBoth
      cases h
      simp only [Bool.and_eq_true, beq_iff_eq] at hBoth
      exact ⟨rfl, hBoth.1.1⟩
    · cases h

theorem kindBetween_isSome {k l : AccessKind} (h : k = .write ∨ l = .write) :
    ∃ d, kindBetween k l = some d := by
  rcases h with rfl | rfl
  · cases l <;> exact ⟨_, rfl⟩
  · cases k <;> exact ⟨_, rfl⟩

/-- A vector whose first entry other than `eq` is `lt` or unknown stands for a dependence from the
    first touch to the second one. -/
theorem exists_dependence_onward {x y : Touch} {e : Direction}
    (hWrite : x.access.kind = .write ∨ y.access.kind = .write)
    (hFind : (n.directions x y).find? (· != .eq) = some e) (he : e ≠ .gt) :
    ∃ d, n.dependence? x.access y.access (n.directions x y) = some d ∧ d.Joins n x y := by
  obtain ⟨kind, hKind⟩ := kindBetween_isSome hWrite
  have hSome : n.dependence? x.access y.access (n.directions x y) = some {
      source := x.access.stmt
      target := y.access.stmt
      kind
      direction := n.directions x y
      buffer := x.access.buffer
      reduction := n.reductionPair? x.access y.access
      level := (n.directions x y).findIdx? (· != .eq) } := by
    unfold dependence?
    rw [hFind]
    cases e with
    | gt => exact absurd rfl he
    | lt => simp [hKind]
    | eq => simp [hKind]
    | star => simp [hKind]
  refine ⟨_, hSome, rfl, rfl, rfl, rfl, fun op => reductionPair?_eq_some, ?_⟩
  rw [hFind]
  exact fun h => he (Option.some.inj h)

theorem find?_reverse (dirs : List Direction) :
    (dirs.map Direction.reverse).find? (· != .eq)
      = (dirs.find? (· != .eq)).map Direction.reverse := by
  rw [List.find?_map]
  congr 2
  funext d
  cases d <;> rfl

/-- Of accesses in different places a vector that points backwards stands for a dependence from the
    second touch to the first one. -/
theorem exists_dependence_backward {x y : Touch} (hBuffer : x.access.buffer = y.access.buffer)
    (hWrite : x.access.kind = .write ∨ y.access.kind = .write)
    (hFind : (n.directions x y).find? (· != .eq) = some .gt)
    (hPlace : x.access.position ≠ y.access.position) :
    ∃ d, n.dependence? x.access y.access (n.directions x y) = some d ∧ d.Joins n y x := by
  obtain ⟨kind, hKind⟩ := kindBetween_isSome hWrite.symm
  have hSame : (x.access.position == y.access.position) = false := beq_eq_false_iff_ne.mpr hPlace
  have hSome : n.dependence? x.access y.access (n.directions x y) = some {
      source := y.access.stmt
      target := x.access.stmt
      kind
      direction := (n.directions x y).map .reverse
      buffer := x.access.buffer
      reduction := n.reductionPair? x.access y.access
      level := ((n.directions x y).map Direction.reverse).findIdx? (· != .eq) } := by
    unfold dependence?
    rw [hFind]
    simp [hKind, hSame]
  refine ⟨_, hSome, rfl, rfl, hBuffer, map_reverse_directions x y,
    fun op hop => (reductionPair?_eq_some hop).symm, ?_⟩
  rw [← map_reverse_directions x y, find?_reverse, hFind]
  simp [Direction.reverse]

theorem common_le_length_directions (x y : Touch) : n.common x y ≤ (n.directions x y).length := by
  unfold directions padded
  rw [List.length_append, List.length_append, List.length_replicate, List.length_replicate]
  show _ ≤ _ + (n.common x y - _) + _
  omega

/-- The entry of a level around both touches is the comparison of their iterations or unknown. -/
theorem entry_directions {x y : Touch} {k : Nat} {l : Level} (hl : n.levels[k]? = some l)
    (hk : k < n.common x y) : ∃ e, (n.directions x y)[k]? = some e
      ∧ (e = .sign (x.valueIn l.id) (y.valueIn l.id) ∨ e = .star) := by
  have hLength : k < (n.directions x y).length :=
    Nat.lt_of_lt_of_le hk (common_le_length_directions x y)
  refine ⟨(n.directions x y)[k], List.getElem?_eq_getElem hLength, ?_⟩
  have hEntry : (n.directions x y).getD k .star = (n.directions x y)[k] := by
    rw [List.getD_eq_getElem?_getD, List.getElem?_eq_getElem hLength, Option.getD_some]
  rw [← hEntry]
  unfold directions
  rw [getD_padded hk]
  by_cases hMax : k < n.maxLevels
  · rw [if_pos hMax, getD_signs hl hk]
    exact Or.inl rfl
  · rw [if_neg hMax]
    exact Or.inr rfl

/-- The entry of a level on which the iterations differ is not `eq`. -/
theorem entry_ne_eq {x y : Touch} {k : Nat} {l : Level} (hl : n.levels[k]? = some l)
    (hk : k < n.common x y) (hne : x.valueIn l.id ≠ y.valueIn l.id) :
    ∃ e, (n.directions x y)[k]? = some e ∧ e ≠ .eq := by
  obtain ⟨e, he, hSign⟩ := entry_directions hl hk
  refine ⟨e, he, ?_⟩
  rcases hSign with rfl | rfl
  · exact fun hEq => hne (Direction.sign_eq_iff.mp hEq)
  · exact fun hEq => nomatch hEq

/-- Touches in different iterations have a vector with an entry other than `eq`. -/
theorem Differ.exists_find? {x y : Touch} (h : n.Differ x y) :
    ∃ e, (n.directions x y).find? (· != .eq) = some e := by
  obtain ⟨l, hl, hne⟩ := h
  obtain ⟨k, hk, rfl⟩ := List.mem_take_iff_getElem.mp hl
  obtain ⟨e, he, hNot⟩ := entry_ne_eq (List.getElem?_eq_getElem (by omega)) (by omega) hne
  apply Option.isSome_iff_exists.mp
  rw [List.find?_isSome]
  exact ⟨e, List.mem_of_getElem? he, bne_iff_ne.mpr hNot⟩

/-- Without assertions only levels around the declaration of a buffer are not refined, and there
    touches of one local buffer are in one iteration. -/
theorem forced_of_owned {c : Conventions} {start : Env} {x y : Touch} {P Q : List Turn}
    (h : Encounter n c start x y P Q) (hx : x.Owned) (hy : y.Owned) (hOwner : x.owner = y.owner)
    (hAssertions : ∀ l ∈ n.levels, l.noDeps.contains x.access.buffer = true →
      x.valueIn l.id = y.valueIn l.id) : n.Forced x y := by
  intro l hl hForced
  rcases Bool.or_eq_true_iff.mp hForced with hAsserted | hInside
  · exact hAssertions l (List.mem_of_mem_take hl) hAsserted
  · obtain ⟨hFirst, hSecond⟩ := Bool.and_eq_true_iff.mp hInside
    unfold Touch.valueIn
    rw [h.value?_eq_of_declaredInside hx hy hOwner hFirst hSecond]

/-! ## All pairs of accesses -/

/-- Every access is compared with itself and with all later ones. -/
theorem mem_among {as : List Access} {i j : Nat} {a b : Access} (hi : as[i]? = some a)
    (hj : as[j]? = some b) (hij : i ≤ j) (hConflict : conflicting a b = true) {d : Dependence}
    (hd : d ∈ n.between a b) : d ∈ n.among as := by
  induction as generalizing i j with
  | nil => cases hi
  | cons x rest ih =>
    rw [among]
    cases i with
    | zero =>
      cases hi
      apply List.mem_append_left
      apply List.mem_flatMap.mpr
      exact ⟨b, List.mem_filter.mpr ⟨List.mem_of_getElem? hj, hConflict⟩, hd⟩
    | succ i =>
      cases j with
      | zero => omega
      | succ j => exact List.mem_append_right _ (ih hi hj (by omega))

end Nest

theorem Stmt.exists_getElem?_accesses {t : Stmt} {x : Touch} (h : x.access ∈ t.accessesIn {}) :
    ∃ i : Nat, t.accesses[i]? = some (x.placedAt i).access := by
  obtain ⟨i, hi, hx⟩ := List.mem_iff_getElem.mp h
  refine ⟨i, ?_⟩
  unfold Stmt.accesses
  rw [List.getElem?_map, List.getElem?_zipIdx, List.getElem?_eq_getElem hi, hx, Nat.zero_add]
  rfl

/-! ## What no dependence says -/

namespace Nest

variable {n : Nest}

theorem ne_star_of_mem_choices {d : Direction} {f : Bool} (h : d ∈ choices f) : d ≠ .star := by
  rintro rfl
  cases f <;> simp [choices] at h

/-- A refined vector passes the test, and its refined entries are known. -/
theorem of_mem_refine {p : Pair} {r : List Direction} :
    ∀ (flags : List Bool) (fixed : List Direction), r ∈ n.refine p fixed flags →
      n.mayConflict p r = true ∧ ∃ s, r = n.padded p (fixed ++ s) ∧ s.length = flags.length
        ∧ ∀ e ∈ s, e ≠ .star := by
  intro flags
  induction flags with
  | nil =>
    intro fixed hr
    rw [refine] at hr
    split at hr
    · rename_i hTest
      rw [List.mem_singleton.mp hr]
      exact ⟨hTest, [], by rw [List.append_nil], rfl, fun e he => absurd he List.not_mem_nil⟩
    · cases hr
  | cons f flags ih =>
    intro fixed hr
    rw [refine] at hr
    split at hr
    · obtain ⟨d, hd, hr⟩ := List.mem_flatMap.mp hr
      obtain ⟨hTest, s, hs, hLength, hEntries⟩ := ih (fixed ++ [d]) hr
      refine ⟨hTest, d :: s, ?_, congrArg Nat.succ hLength, ?_⟩
      · rw [hs, List.append_assoc, List.singleton_append]
      · rw [List.forall_mem_cons]
        exact ⟨ne_star_of_mem_choices hd, hEntries⟩
    · cases hr

/-- On a refined level with a trip count of at most one every vector has the entry `eq`. -/
theorem entry_of_mem_vectors {a b : Access} {r : List Direction}
    (hr : r ∈ n.vectors ⟨a, b, n.commonLevels a b⟩) {k : Nat} {l : Level} {e : Int}
    (hl : n.levels[k]? = some l) (he : l.extent = some e) (hle : e ≤ 1) (hk : k < n.maxLevels) :
    r[k]? = some .eq := by
  have hCommonLe : n.commonLevels a b ≤ n.levels.length := (List.takeWhile_prefix _).length_le
  obtain ⟨hTest, s, rfl, hLength, hKnown⟩ := of_mem_refine _ [] hr
  rw [List.nil_append] at hTest ⊢
  have hFlags : s.length = min n.maxLevels (n.commonLevels a b) := by
    rw [hLength, List.length_take]
    unfold forcedEqual
    rw [List.length_map, List.length_take]
    show min n.maxLevels (min (n.commonLevels a b) n.levels.length) = _
    omega
  have hLevel := (List.getElem?_eq_some_iff.mp hl).1
  by_cases hCommon : k < n.commonLevels a b
  · have hInside : k < s.length := by omega
    have hEntry : (n.padded ⟨a, b, n.commonLevels a b⟩ s)[k]? = some s[k] := by
      unfold padded
      rw [List.append_assoc, List.getElem?_append_left hInside, List.getElem?_eq_getElem hInside]
    -- an entry `lt` or `gt` would need two different iterations
    have hRange : (n.distanceRange k).isEmpty = true := by
      unfold distanceRange
      rw [hl, Option.bind_some, he]
      show decide (e - 1 < 1) = true
      exact decide_eq_true (by omega)
    have hAdmits : n.admits k s[k] = true := by
      have hAll := (Bool.and_eq_true_iff.mp hTest).1
      rw [List.all_eq_true] at hAll
      apply hAll (s[k], k)
      rw [List.mem_iff_getElem?]
      refine ⟨k, ?_⟩
      rw [List.getElem?_zipIdx, List.getElem?_take_of_lt hCommon, hEntry, Nat.zero_add]
      rfl
    have hStar := hKnown s[k] (List.getElem_mem hInside)
    rw [hEntry]
    cases hDirection : s[k] with
    | lt =>
      rw [hDirection] at hAdmits
      simp [admits, hRange] at hAdmits
    | gt =>
      rw [hDirection] at hAdmits
      simp [admits, hRange] at hAdmits
    | eq => rfl
    | star => exact absurd hDirection hStar
  · have hFront : (s ++ List.replicate (n.commonLevels a b - s.length) Direction.star).length
        = n.commonLevels a b := by
      rw [List.length_append, List.length_replicate]
      omega
    unfold padded
    rw [List.getElem?_append_right (by rw [hFront]; omega), hFront]
    apply List.getElem?_replicate_of_lt
    show k - n.commonLevels a b < n.levels.length - n.commonLevels a b
    omega

theorem exists_of_mem_among {as : List Access} {d : Dependence} (h : d ∈ n.among as) :
    ∃ a b, d ∈ n.between a b := by
  induction as with
  | nil => cases h
  | cons a rest ih =>
    rw [among] at h
    rcases List.mem_append.mp h with h | h
    · obtain ⟨b, _, hd⟩ := List.mem_flatMap.mp h
      exact ⟨a, b, hd⟩
    · exact ih h

/-- The access that comes first under a vector, the other one, and the vector read in this order.
    There is none when an access would depend on itself within one iteration or backwards. -/
def oriented? (a b : Access) (dirs : List Direction) :
    Option (Access × Access × List Direction) :=
  let same := a.position == b.position
  match dirs.find? (· != .eq) with
  | some .gt => if same then none else some (b, a, dirs.map Direction.reverse)
  | none => if same then none else some (a, b, dirs)
  | some _ => some (a, b, dirs)

/-- What a dependence says, from its vector. -/
theorem dependence?_eq_some {a b : Access} {dirs : List Direction} {d : Dependence} :
    n.dependence? a b dirs = some d ↔ ∃ src tgt direction kind,
      oriented? a b dirs = some (src, tgt, direction) ∧ kindBetween src.kind tgt.kind = some kind
        ∧ d = ⟨src.stmt, tgt.stmt, kind, direction, a.buffer, n.reductionPair? a b,
            direction.findIdx? (· != .eq)⟩ := by
  have hBind : n.dependence? a b dirs = (oriented? a b dirs).bind fun o =>
      (kindBetween o.1.kind o.2.1.kind).bind fun kind =>
        some ⟨o.1.stmt, o.2.1.stmt, kind, o.2.2, a.buffer, n.reductionPair? a b,
          o.2.2.findIdx? (· != .eq)⟩ := by
    unfold dependence? oriented?
    cases hSame : a.position == b.position
    all_goals
      cases dirs.find? (· != .eq) with
      | none => rfl
      | some e => cases e <;> rfl
  rw [hBind, Option.bind_eq_some_iff]
  constructor
  · rintro ⟨⟨src, tgt, direction⟩, hOriented, h⟩
    obtain ⟨kind, hKind, h⟩ := Option.bind_eq_some_iff.mp h
    exact ⟨src, tgt, direction, kind, hOriented, hKind, (Option.some.inj h).symm⟩
  · rintro ⟨src, tgt, direction, kind, hOriented, hKind, rfl⟩
    exact ⟨_, hOriented, Option.bind_eq_some_iff.mpr ⟨kind, hKind, rfl⟩⟩

/-- The ends of a dependence are its accesses, with the vector as it is or turned around. -/
theorem oriented?_cases {a b src tgt : Access} {dirs direction : List Direction}
    (h : oriented? a b dirs = some (src, tgt, direction)) :
    (src = a ∧ tgt = b ∧ direction = dirs)
      ∨ (src = b ∧ tgt = a ∧ direction = dirs.map Direction.reverse) := by
  unfold oriented? at h
  dsimp only at h
  split at h
  · split at h
    · cases h
    · cases h
      exact .inr ⟨rfl, rfl, rfl⟩
  · split at h
    · cases h
    · cases h
      exact .inl ⟨rfl, rfl, rfl⟩
  · cases h
    exact .inl ⟨rfl, rfl, rfl⟩

theorem direction_of_dependence? {a b : Access} {dirs : List Direction} {d : Dependence}
    (h : n.dependence? a b dirs = some d) :
    d.direction = dirs ∨ d.direction = dirs.map Direction.reverse := by
  obtain ⟨src, tgt, direction, kind, hOriented, _, rfl⟩ := dependence?_eq_some.mp h
  rcases oriented?_cases hOriented with ⟨_, _, h⟩ | ⟨_, _, h⟩
  · exact .inl h
  · exact .inr h

/-- The buffer and the operator of a dependence are those of its accesses. -/
theorem of_dependence? {a b : Access} {dirs : List Direction} {d : Dependence}
    (h : n.dependence? a b dirs = some d) :
    d.buffer = a.buffer ∧ d.reduction = n.reductionPair? a b := by
  obtain ⟨src, tgt, direction, kind, _, _, rfl⟩ := dependence?_eq_some.mp h
  exact ⟨rfl, rfl⟩

/-- On a refined level with a trip count of at most one every dependence has the entry `eq`. -/
theorem entry_eq_of_extent_le_one {as : List Access} {d : Dependence} (hd : d ∈ n.among as)
    {k : Nat} {l : Level} {e : Int} (hl : n.levels[k]? = some l) (he : l.extent = some e)
    (hle : e ≤ 1) (hk : k < n.maxLevels) : d.direction[k]? = some .eq := by
  obtain ⟨a, b, hd⟩ := exists_of_mem_among hd
  obtain ⟨dirs, hDirs, hd⟩ := List.mem_filterMap.mp hd
  have hEntry := entry_of_mem_vectors hDirs hl he hle hk
  rcases direction_of_dependence? hd with h | h
  · rw [h, hEntry]
  · rw [h, List.getElem?_map, hEntry]
    rfl

end Nest

/-! ## What is found -/

namespace Encounter

variable {n : Nest} {c : Conventions} {start : Env} {x y : Touch} {P Q : List Turn}

/-- Touches of accesses of one program meet when the loops of the program have different numbers. -/
theorem of_placed {t : Stmt} (hIds : t.loopIds.Nodup) (hx : x.access ∈ t.accessesIn {})
    (hy : y.access ∈ t.accessesIn {}) (hFirst : x.Placed c start P) (hSecond : y.Placed c start Q)
    (hNear : ∀ k l e u w, k < n.maxLevels → n.levels[k]? = some l → l.extent = some e →
      x.value? l.id = some u → y.value? l.id = some w → u ≠ w → u - w < e ∧ w - u < e) :
    Encounter n c start x y P Q := by
  obtain ⟨p, hp⟩ := Stmt.exists_inner_of_mem_accessesIn t {} x.access hx
  obtain ⟨q, hq⟩ := Stmt.exists_inner_of_mem_accessesIn t {} y.access hy
  have hFork := Stmt.forked_of_mem_accessesIn t {} x.access y.access p q hIds hx hy hp.loops hq.loops
  have hpLoops : x.access.loops = p := hp.loops
  have hqLoops : y.access.loops = q := hq.loops
  refine ⟨hFirst, hSecond, ?_, ?_, ?_, hNear⟩
  · rw [hpLoops]
    exact hp.nodup hIds
  · rw [hqLoops]
    exact hq.nodup hIds
  · rw [hpLoops, hqLoops]
    exact hFork

/-- An encounter does not depend on the places of the accesses. -/
theorem placedAt (h : Encounter n c start x y P Q) (i j : Nat) :
    Encounter n c start (x.placedAt i) (y.placedAt j) P Q where
  first := ⟨h.first.loops, h.first.turn, h.first.inRange, h.first.cell⟩
  second := ⟨h.second.loops, h.second.turn, h.second.inRange, h.second.cell⟩
  uniqueFirst := h.uniqueFirst
  uniqueSecond := h.uniqueSecond
  forked := h.forked
  near := h.near

/-- What is found for touches at places is found for the touches. -/
theorem joins_of_placedAt {d : Dependence} {i j : Nat}
    (h : d.Joins n (x.placedAt i) (y.placedAt j)) : d.Joins n x y :=
  ⟨h.source, h.target, h.buffer, h.direction, h.reduction, h.onward⟩

/-- Touches whose accesses are compared in this order have a dependence. -/
theorem exists_joins_of_le (h : Encounter n c start x y P Q) (hMeets : x.Meets y)
    (hForced : n.Forced x y) (hDiffer : n.Differ x y) {t : Stmt} {i j : Nat}
    (hx : t.accesses[i]? = some (x.placedAt i).access)
    (hy : t.accesses[j]? = some (y.placedAt j).access) (hij : i ≤ j) :
    ∃ d ∈ n.among t.accesses, d.Joins n x y ∨ d.Joins n y x := by
  have hBuffer := beq_iff_eq.mpr hMeets.buffer
  have hConflict : ∀ {a b : Access}, a.buffer = b.buffer → (a.kind = .write ∨ b.kind = .write) →
      Nest.conflicting a b = true := by
    intro a b hSame hWrite
    unfold Nest.conflicting
    rcases hWrite with hWrite | hWrite <;> simp [hSame, hWrite]
  obtain ⟨e, he⟩ := hDiffer.exists_find?
  by_cases hGt : e = .gt
  · subst hGt
    by_cases hPlace : i = j
    · -- one access in two iterations: the touches are compared the other way round
      subst hPlace
      have hAccess : (x.placedAt i).access = (y.placedAt i).access := by
        rw [hx] at hy
        exact Option.some.inj hy
      have hBack : (n.directions (y.placedAt i) (x.placedAt i)).find? (· != .eq) = some .lt := by
        show (n.directions y x).find? (· != .eq) = some .lt
        rw [← Nest.map_reverse_directions x y, Nest.find?_reverse, he]
        rfl
      obtain ⟨d, hd, hJoins⟩ := Nest.exists_dependence_onward
        (x := y.placedAt i) (y := x.placedAt i) hMeets.write.symm hBack (by simp)
      have hVector := (h.placedAt i i).symm.directions_mem_vectors hMeets.cell.symm
        (hForced.symm hMeets.buffer)
      refine ⟨d, ?_, Or.inr (joins_of_placedAt hJoins)⟩
      exact Nest.mem_among hy hx (Nat.le_refl i) (hConflict hMeets.buffer.symm hMeets.write.symm)
        (List.mem_filterMap.mpr ⟨_, hVector, hd⟩)
    · obtain ⟨d, hd, hJoins⟩ := Nest.exists_dependence_backward
        (x := x.placedAt i) (y := y.placedAt j) hMeets.buffer hMeets.write he hPlace
      have hVector := (h.placedAt i j).directions_mem_vectors hMeets.cell hForced
      refine ⟨d, ?_, Or.inr (joins_of_placedAt hJoins)⟩
      exact Nest.mem_among hx hy hij (hConflict hMeets.buffer hMeets.write)
        (List.mem_filterMap.mpr ⟨_, hVector, hd⟩)
  · obtain ⟨d, hd, hJoins⟩ := Nest.exists_dependence_onward
      (x := x.placedAt i) (y := y.placedAt j) hMeets.write he hGt
    have hVector := (h.placedAt i j).directions_mem_vectors hMeets.cell hForced
    refine ⟨d, ?_, Or.inl (joins_of_placedAt hJoins)⟩
    exact Nest.mem_among hx hy hij (hConflict hMeets.buffer hMeets.write)
      (List.mem_filterMap.mpr ⟨_, hVector, hd⟩)

/-- **Dependences are found**: two touches of one cell, not both reads, that differ in the iteration
    of a level have a dependence. -/
theorem exists_joins (h : Encounter n c start x y P Q) (hMeets : x.Meets y)
    (hForced : n.Forced x y) (hDiffer : n.Differ x y) {t : Stmt} (hx : x.access ∈ t.accessesIn {})
    (hy : y.access ∈ t.accessesIn {}) :
    ∃ d ∈ n.among t.accesses, d.Joins n x y ∨ d.Joins n y x := by
  obtain ⟨i, hi⟩ := Stmt.exists_getElem?_accesses hx
  obtain ⟨j, hj⟩ := Stmt.exists_getElem?_accesses hy
  rcases Nat.le_total i j with hij | hji
  · exact h.exists_joins_of_le hMeets hForced hDiffer hi hj hij
  · obtain ⟨d, hd, hJoins⟩ := h.symm.exists_joins_of_le hMeets.symm
      (hForced.symm hMeets.buffer) hDiffer.symm hj hi hji
    exact ⟨d, hd, hJoins.symm⟩

end Encounter

end LoopNest

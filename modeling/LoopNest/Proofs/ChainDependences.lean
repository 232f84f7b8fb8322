import Mathlib.Data.List.Chain
import LoopNest.Dependence.Legality
import LoopNest.Proofs.FoundDependences

/-! # Dependences of a chain of loops

  Within one execution of the outermost loop of a chain, two touches of one cell, not both reads,
  that differ in the iteration of a loop of the chain are covered by a dependence that the analysis
  reports, whatever the bounds of the loops look like.

  One condition is needed. The analysis takes the constant trip count `n` of a loop for a bound on
  the distance of two of its iterations, which then is less than `n`. When the lower bound of the
  loop depends on loops around it, two iterations may lie further apart. The statement
  therefore is about touches whose iterations are `Near`.

  * `dependence_of_meets`: touches that are near are covered.
  * `entry_eq_of_extent_le_one`: with a trip count of at most one no dependence ever covers touches
    in different iterations, so the condition cannot be dropped. -/

namespace LoopNest

namespace Stmt

/-- Loops each of which lies inside the one before it. -/
structure Chain (chain : List Stmt) : Prop where
  loops : ∀ t ∈ chain, t.isLoop = true
  nested : chain.IsChain fun outer inner => inner ∈ outer.inside

theorem Chain.pairwise {chain : List Stmt} (h : Chain chain) :
    chain.Pairwise fun outer inner => inner ∈ outer.inside := by
  have : IsTrans Stmt fun outer inner => inner ∈ outer.inside :=
    ⟨fun _ _ _ hab hbc => inside_trans hbc hab⟩
  exact List.isChain_iff_pairwise.mp h.nested

/-- Whether no loop asserts anything about dependences. -/
def unasserted (t : Stmt) : Bool := t.everywhere fun u => u.head?.all (·.noDeps.isEmpty)

/-! ## Loops around an access -/

/-- An access inside a loop is inside the loops around that loop. -/
theorem outer_around :
    ∀ (t : Stmt) (s : Scope) (z : Access) (p : List Enclosing) (a b : Stmt), t.loopIds.Nodup →
      z ∈ t.accessesIn s → z.loops = s.loops ++ p → a ∈ t.nodes → a.isLoop = true → b ∈ a.inside →
        b.isLoop = true → b.id ∈ p.map (·.id) → a.id ∈ p.map (·.id) := by
  -- the access and the two loops are in one part of the statement, since a number occurs in one part
  have hApart : ∀ {u v : Stmt} {s : Scope} {z : Access} {p : List Enclosing} {a b : Stmt},
      (∀ i ∈ u.loopIds, ∀ j ∈ v.loopIds, i ≠ j) → z ∈ v.accessesIn s → z.loops = s.loops ++ p →
        a ∈ u.nodes → b ∈ a.inside → b.isLoop = true → b.id ∈ p.map (·.id) → False := by
    intro u v s z p a b hDisjoint hz hp ha hb hLoop hid
    obtain ⟨p', hInner⟩ := exists_inner_of_mem_accessesIn v s z hz
    rw [← List.append_cancel_left (hp.symm.trans hInner.loops)] at hInner
    obtain ⟨l, hl, hlId⟩ := List.mem_map.mp hid
    have hInU := mem_loopIds (mem_nodes_trans (mem_nodes_of_mem_inside hb) ha) hLoop
    exact hDisjoint b.id hInU l.id (hInner.ids l hl) hlId.symm
  have hHere : ∀ {s : Scope} {z : Access} {p : List Enclosing} {i : Nat}, z.loops = s.loops →
      z.loops = s.loops ++ p → i ∈ p.map (·.id) → False := by
    intro s z p i h hp hi
    rw [h] at hp
    rw [List.self_eq_append_right.mp hp] at hi
    cases hi
  refine Stmt.ind ?_ ?_ ?_ ?_ ?_ ?_ ?_ ?_
  · intro site n buffer body ih s z p a b hNodup hz hp ha hLoop hb hLoop' hid
    rw [accessesIn] at hz
    rw [loopIds_decl] at hNodup
    rw [nodes_decl] at ha
    rcases List.mem_cons.mp ha with rfl | ha
    · cases hLoop
    · exact ih _ z p a b hNodup hz hp ha hLoop hb hLoop' hid
  · intro site head body ih s z p a b hNodup hz hp ha hLoop hb hLoop' hid
    rw [loopIds_loop] at hNodup
    obtain ⟨hSite, hBody⟩ := List.nodup_cons.mp hNodup
    simp only [accessesIn, List.mem_append] at hz
    rcases hz with (hz | hz) | hz
    · exact absurd hid (hHere (Scope.loops_of_mem_reads hz) hp)
    · exact absurd hid (hHere (Scope.loops_of_mem_reads hz) hp)
    · obtain ⟨q, hq⟩ := exists_inner_of_mem_accessesIn body _ z hz
      have hpq : p = ⟨site.id, head⟩ :: q := by
        have h := hp.symm.trans hq.loops
        rw [List.append_assoc] at h
        exact List.append_cancel_left h
      subst hpq
      rw [nodes_loop] at ha
      rcases List.mem_cons.mp ha with rfl | ha
      · exact List.mem_cons_self
      · rw [List.map_cons] at hid ⊢
        rcases List.mem_cons.mp hid with hid | hid
        · have hInBody := mem_loopIds (mem_nodes_trans (mem_nodes_of_mem_inside hb) ha) hLoop'
          rw [hid] at hInBody
          exact absurd hInBody hSite
        · exact List.mem_cons_of_mem _ (ih _ z q a b hBody hz hq.loops ha hLoop hb hLoop' hid)
  · intro site e body ih s z p a b hNodup hz hp ha hLoop hb hLoop' hid
    rw [loopIds_guard] at hNodup
    rw [nodes_guard] at ha
    simp only [accessesIn, List.mem_append] at hz
    rcases List.mem_cons.mp ha with rfl | ha
    · cases hLoop
    · rcases hz with hz | hz
      · exact absurd hid (hHere (Scope.loops_of_mem_reads hz) hp)
      · exact ih s z p a b hNodup hz hp ha hLoop hb hLoop' hid
  · intro site e yes no ihYes ihNo s z p a b hNodup hz hp ha hLoop hb hLoop' hid
    rw [loopIds_branch] at hNodup
    obtain ⟨hYes, hNo, hDisjoint⟩ := List.nodup_append.mp hNodup
    rw [nodes_branch] at ha
    simp only [accessesIn, List.mem_append] at hz
    rcases List.mem_cons.mp ha with rfl | ha
    · cases hLoop
    · rcases hz with (hz | hz) | hz
      · exact absurd hid (hHere (Scope.loops_of_mem_reads hz) hp)
      · rcases List.mem_append.mp ha with ha | ha
        · exact ihYes s z p a b hYes hz hp ha hLoop hb hLoop' hid
        · exact (hApart (fun i hi j hj => (hDisjoint j hj i hi).symm) hz hp ha hb hLoop' hid).elim
      · rcases List.mem_append.mp ha with ha | ha
        · exact (hApart hDisjoint hz hp ha hb hLoop' hid).elim
        · exact ihNo s z p a b hNo hz hp ha hLoop hb hLoop' hid
  · intro site buffer is v s z p a b _ hz hp _ _ _ _ hid
    exact absurd hid (hHere (loops_of_mem_accessesIn_store hz) hp)
  · intro site f args s z p a b _ hz
    cases hz
  · intro site ts ih s z p a b hNodup hz hp ha hLoop hb hLoop' hid
    rw [loopIds_block] at hNodup
    obtain ⟨hEach, hDisjoint⟩ := List.nodup_flatMap.mp hNodup
    rw [accessesIn, accessesInAll_eq_flatMap] at hz
    obtain ⟨u, hu, hz⟩ := List.mem_flatMap.mp hz
    rw [nodes_block] at ha
    rcases List.mem_cons.mp ha with rfl | ha
    · cases hLoop
    · obtain ⟨v, hv, ha⟩ := List.mem_flatMap.mp ha
      obtain ⟨i, hi, rfl⟩ := List.mem_iff_getElem.mp hu
      obtain ⟨j, hj, rfl⟩ := List.mem_iff_getElem.mp hv
      by_cases hij : i = j
      · subst hij
        exact ih _ hu s z p a b (hEach _ hu) hz hp ha hLoop hb hLoop' hid
      · refine (hApart ?_ hz hp ha hb hLoop' hid).elim
        rcases Nat.lt_or_gt_of_ne hij with h | h
        · have hTwo := List.pairwise_iff_getElem.mp hDisjoint i j hi hj h
          exact fun k hk l hl hkl => hTwo (hkl ▸ hl) hk
        · have hTwo := List.pairwise_iff_getElem.mp hDisjoint j i hj hi h
          exact fun k hk l hl hkl => hTwo hk (hkl ▸ hl)
  · intro site s z p a b _ hz
    cases hz

/-! ## Coverage -/

/-- Two touches are near on a chain: two iterations of a refined loop with a constant trip count lie
    less than that count apart. -/
def Near (maxLevels : Nat) (chain : List Stmt) (x y : Touch) : Prop :=
  ∀ (k : Nat) (l : Stmt) (e u w : Int), k < maxLevels → chain[k]? = some l →
    l.level.extent = some e → x.value? l.id = some u → y.value? l.id = some w → u ≠ w →
      u - w < e ∧ w - u < e

/-- Two touches are in different iterations of a loop of a chain around both. -/
def Apart (chain : List Stmt) (x y : Touch) : Prop :=
  ∃ l ∈ chain, ∃ u w, x.value? l.id = some u ∧ y.value? l.id = some w ∧ u ≠ w

/-- A dependence leads from one touch to another, and its vector allows their iterations of each
    loop of a chain around both. -/
structure Covers (chain : List Stmt) (d : Dependence) (x y : Touch) : Prop where
  source : d.source = x.access.stmt
  target : d.target = y.access.stmt
  buffer : d.buffer = x.access.buffer
  direction : ∀ (k : Nat) (l : Stmt) (u w : Int), chain[k]? = some l → x.value? l.id = some u →
    y.value? l.id = some w → ∃ e, d.direction[k]? = some e ∧ e.Admits u w

/-- The chain as the analysis sees it. -/
def nestOf (maxLevels : Nat) (chain : List Stmt) : Nest := ⟨chain.map level, maxLevels⟩

@[simp] theorem level_id (t : Stmt) : t.level.id = t.id := by
  unfold level
  cases t.head? <;> rfl

theorem getElem?_levels (maxLevels : Nat) {k : Nat} {chain : List Stmt} {l : Stmt}
    (h : chain[k]? = some l) : (nestOf maxLevels chain).levels[k]? = some l.level := by
  show (chain.map level)[k]? = some l.level
  rw [List.getElem?_map, h]
  rfl

/-- A loop of a chain around an access has all earlier loops of the chain around it as well. -/
theorem Chain.around {chain : List Stmt} (hChain : Chain chain) {t : Stmt} (hIds : t.loopIds.Nodup)
    (hInside : ∀ l ∈ chain, l ∈ t.nodes) {z : Access} (hz : z ∈ t.accessesIn {}) {j k : Nat}
    {a b : Stmt} (hjk : j ≤ k) (ha : chain[j]? = some a) (hb : chain[k]? = some b)
    (hAround : b.id ∈ z.loops.map (·.id)) : a.id ∈ z.loops.map (·.id) := by
  obtain ⟨hj, rfl⟩ := List.getElem?_eq_some_iff.mp ha
  obtain ⟨hk, rfl⟩ := List.getElem?_eq_some_iff.mp hb
  by_cases hEq : j = k
  · subst hEq
    exact hAround
  · have hLt : j < k := by omega
    have hNested := List.pairwise_iff_getElem.mp hChain.pairwise j k hj hk hLt
    exact outer_around t {} z z.loops _ _ hIds hz rfl (hInside _ (List.getElem_mem hj))
      (hChain.loops _ (List.getElem_mem hj)) hNested (hChain.loops _ (List.getElem_mem hk)) hAround

/-- A loop around an access is where the touch has a value. -/
theorem mem_ids_of_value? {z : Touch} {id : Nat} {u : Int} (h : z.value? id = some u) :
    id ∈ z.access.loops.map (·.id) := by
  unfold Touch.value? at h
  obtain ⟨p, hp, _⟩ := Option.map_eq_some_iff.mp h
  have hMem := List.of_mem_zip (List.mem_of_find?_eq_some hp)
  have hid : p.1.id = id := by simpa using List.find?_some hp
  exact hid ▸ List.mem_map_of_mem hMem.1

/-- Levels around both of two touches come first in the chain. -/
theorem Chain.lt_common {chain : List Stmt} (hChain : Chain chain) {t : Stmt}
    (hIds : t.loopIds.Nodup) (hInside : ∀ l ∈ chain, l ∈ t.nodes) {x y : Touch}
    (hx : x.access ∈ t.accessesIn {}) (hy : y.access ∈ t.accessesIn {}) (maxLevels : Nat) {k : Nat}
    {l : Stmt} (hl : chain[k]? = some l) {u w : Int} (hu : x.value? l.id = some u)
    (hw : y.value? l.id = some w) : k < (nestOf maxLevels chain).common x y := by
  have hPrefix : ∀ j ≤ k, ∃ a, chain[j]? = some a ∧ a.id ∈ x.access.loops.map (·.id)
      ∧ a.id ∈ y.access.loops.map (·.id) := by
    intro j hj
    have hk := (List.getElem?_eq_some_iff.mp hl).1
    refine ⟨_, List.getElem?_eq_getElem (by omega), ?_, ?_⟩
    · exact hChain.around hIds hInside hx hj (List.getElem?_eq_getElem (by omega)) hl
        (mem_ids_of_value? hu)
    · exact hChain.around hIds hInside hy hj (List.getElem?_eq_getElem (by omega)) hl
        (mem_ids_of_value? hw)
  clear hl hu hw
  unfold Nest.common Nest.commonLevels nestOf
  clear hInside hChain
  induction chain generalizing k with
  | nil =>
    obtain ⟨a, ha, _⟩ := hPrefix 0 (Nat.zero_le k)
    cases ha
  | cons t chain ih =>
    obtain ⟨a, ha, hax, hay⟩ := hPrefix 0 (Nat.zero_le k)
    cases ha
    have hAround : ∀ z : Touch, t.id ∈ z.access.loops.map (·.id) →
        z.access.loops.any (·.id == t.level.id) = true := by
      intro z hz
      obtain ⟨l, hl, hid⟩ := List.mem_map.mp hz
      rw [level_id]
      exact List.any_eq_true.mpr ⟨l, hl, beq_iff_eq.mpr hid⟩
    rw [List.map_cons, List.takeWhile_cons_of_pos (by rw [hAround x hax, hAround y hay]; rfl)]
    cases k with
    | zero => exact Nat.zero_lt_succ _
    | succ k =>
      apply Nat.succ_lt_succ
      exact ih fun j hj => hPrefix (j + 1) (by omega)

theorem chainDependences_eq_among {maxLevels : Nat} {outer : Stmt} {inner : List Stmt}
    (hCalls : outer.calls = []) : chainDependences maxLevels (outer :: inner)
      = (nestOf maxLevels (outer :: inner)).among outer.accesses := by
  rw [chainDependences, dependences, hCalls]
  rfl

/-- A dependence that joins two touches covers them. -/
theorem covers_of_joins {chain : List Stmt} (hChain : Chain chain) {t : Stmt}
    (hIds : t.loopIds.Nodup) (hInside : ∀ l ∈ chain, l ∈ t.nodes) {x y : Touch}
    (hx : x.access ∈ t.accessesIn {}) (hy : y.access ∈ t.accessesIn {}) {maxLevels : Nat}
    {d : Dependence} (h : d.Joins (nestOf maxLevels chain) x y) : Covers chain d x y := by
  refine ⟨h.source, h.target, h.buffer, ?_⟩
  intro k l u w hl hu hw
  have hCommon := hChain.lt_common hIds hInside hx hy maxLevels hl hu hw
  have hAllows := (Nest.allows_directions (n := nestOf maxLevels chain) x y).entry k l.level u w
    (getElem?_levels _ hl) hCommon (by rwa [level_id]) (by rwa [level_id])
  have hLength : k < (Nest.directions (nestOf maxLevels chain) x y).length :=
    Nat.lt_of_lt_of_le hCommon (Nest.common_le_length_directions x y)
  rw [h.direction]
  refine ⟨_, List.getElem?_eq_getElem hLength, ?_⟩
  rw [List.getD_eq_getElem?_getD, List.getElem?_eq_getElem hLength, Option.getD_some] at hAllows
  exact hAllows

/-- The levels of a chain without assertions assert nothing. -/
theorem noDeps_of_unasserted {t u : Stmt} (h : t.unasserted = true) (hu : u ∈ t.nodes) :
    u.level.noDeps = [] := by
  have hNode := everywhere_iff.mp h u hu
  unfold level
  cases hHead : u.head? with
  | none => rfl
  | some head =>
    rw [hHead, Option.all_some, List.isEmpty_iff] at hNode
    exact hNode

/-- **Coverage**: touches of one cell, not both reads, that are in different iterations of a loop of
    the chain around both are covered by a dependence when they are near. When they are in different
    iterations of a refined level with a trip count of at most one, no dependence covers them. -/
theorem covered_of_near {t outer : Stmt} {inner : List Stmt} (hOuter : outer ∈ t.number.nodes)
    (hChain : Chain (outer :: inner)) (hCalls : outer.calls = [])
    (hUnasserted : outer.unasserted = true) (hLocals : outer.localsOnly = true) (maxLevels : Nat)
    (fresh : Memory) (env : Env) (m : Memory) {x y : Touch} (hx : x ∈ outer.touches fresh env m)
    (hy : y ∈ outer.touches fresh env m) (hMeets : x.Meets y)
    (hApart : Apart (outer :: inner) x y) :
    (Near maxLevels (outer :: inner) x y →
      ∃ d ∈ chainDependences maxLevels (outer :: inner),
        Covers (outer :: inner) d x y ∨ Covers (outer :: inner) d y x)
    ∧ ((∃ (k : Nat) (l : Stmt) (e u w : Int), k < maxLevels ∧ (outer :: inner)[k]? = some l
          ∧ l.level.extent = some e ∧ e ≤ 1 ∧ x.value? l.id = some u ∧ y.value? l.id = some w
          ∧ u ≠ w) →
      ∀ d ∈ chainDependences maxLevels (outer :: inner),
        ¬ Covers (outer :: inner) d x y ∧ ¬ Covers (outer :: inner) d y x) := by
  rw [chainDependences_eq_among hCalls]
  constructor
  · intro hNear
    -- the loops of the chain are loops of its outermost one, whose loops have different numbers
    have hIds : outer.loopIds.Nodup := nodup_loopIds (nodup_ids_of_mem (nodup_ids_number t) hOuter)
    have hInside : ∀ l ∈ outer :: inner, l ∈ outer.nodes := by
      intro l hl
      rcases List.mem_cons.mp hl with rfl | hl
      · exact self_mem_nodes l
      · exact mem_nodes_of_mem_inside ((List.pairwise_cons.mp hChain.pairwise).1 l hl)
    obtain ⟨hxMem, P, hP⟩ := placed_of_mem_touchesWith outer {} env [] m x (.start _ env) hx
    obtain ⟨hyMem, Q, hQ⟩ := placed_of_mem_touchesWith outer {} env [] m y (.start _ env) hy
    rw [List.nil_append] at hP hQ
    have hEncounter : Encounter (nestOf maxLevels (outer :: inner)) (.reference fresh) env x y P Q := by
      apply Encounter.of_placed hIds hxMem hyMem hP hQ
      intro k l e u w hk hl he hu hw hne
      have hl' : ((outer :: inner).map level)[k]? = some l := hl
      rw [List.getElem?_map] at hl'
      obtain ⟨loop, hLoop, rfl⟩ := Option.map_eq_some_iff.mp hl'
      rw [level_id] at hu hw
      exact hNear k loop e u w hk hLoop he hu hw hne
    have hForced : (nestOf maxLevels (outer :: inner)).Forced x y := by
      apply Nest.forced_of_owned hEncounter
      · exact owned_of_mem_touchesWith outer {} env m x hLocals Place.Owned.start rfl hx
      · exact owned_of_mem_touchesWith outer {} env m y hLocals Place.Owned.start rfl hy
      · exact hMeets.owner
      · intro l hl hAsserted
        obtain ⟨loop, hLoop, rfl⟩ := List.mem_map.mp hl
        rw [noDeps_of_unasserted hUnasserted (hInside loop hLoop)] at hAsserted
        cases hAsserted
    have hDiffer : (nestOf maxLevels (outer :: inner)).Differ x y := by
      obtain ⟨l, hl, u, w, hu, hw, hne⟩ := hApart
      obtain ⟨k, hk⟩ := List.mem_iff_getElem?.mp hl
      have hCommon := hChain.lt_common hIds hInside hxMem hyMem maxLevels hk hu hw
      have hLevel := getElem?_levels maxLevels hk
      refine ⟨l.level, ?_, ?_⟩
      · apply List.mem_of_getElem? (i := k)
        rw [List.getElem?_take_of_lt hCommon]
        exact hLevel
      · unfold Touch.valueIn
        rw [level_id, hu, hw]
        exact hne
    obtain ⟨d, hd, hJoins⟩ := hEncounter.exists_joins hMeets hForced hDiffer hxMem hyMem
    refine ⟨d, hd, ?_⟩
    rcases hJoins with hJoins | hJoins
    · exact Or.inl (covers_of_joins hChain hIds hInside hxMem hyMem hJoins)
    · exact Or.inr (covers_of_joins hChain hIds hInside hyMem hxMem hJoins)
  · rintro ⟨k, l, e, u, w, hk, hl, he, hle, hu, hw, hne⟩ d hd
    have hEntry := Nest.entry_eq_of_extent_le_one hd (getElem?_levels _ hl) he hle hk
    constructor
    · intro hCovers
      obtain ⟨f, hf, hAdmits⟩ := hCovers.direction k l u w hl hu hw
      rw [hEntry] at hf
      cases hf
      exact hne hAdmits
    · intro hCovers
      obtain ⟨f, hf, hAdmits⟩ := hCovers.direction k l w u hl hw hu
      rw [hEntry] at hf
      cases hf
      exact hne (Eq.symm hAdmits)

/-! ### Two nests -/

/-- A loop over `j` that writes one cell of `y` in each iteration. -/
def rowOf (lower upper cell : Expr) : Stmt :=
  .loop ⟨1, none⟩ { iter := "j", lower, upper } (.store ⟨2, none⟩ "y" [cell] (.int 1))

/-- A loop over `i` from 0 to 2 around another statement. -/
def twice (t : Stmt) : Stmt := .loop ⟨0, none⟩ { iter := "i", lower := .int 0, upper := .int 2 } t

/-- The write of `twice (rowOf lower upper cell)` in one iteration of both loops. -/
def writeIn (lower upper cell : Expr) (turn cells : List Int) : Touch where
  access :=
    { buffer := "y", indices := [cell], kind := .write, stmt := 2
      loops := [⟨0, { iter := "i", lower := .int 0, upper := .int 2 }⟩,
        ⟨1, { iter := "j", lower, upper }⟩]
      reduction := none, declDepth := none }
  cell := cells
  turn := turn
  owner := none

theorem chain_twice (lower upper cell : Expr) :
    Chain [twice (rowOf lower upper cell), rowOf lower upper cell] where
  loops := by
    intro t ht
    simp only [List.mem_cons, List.not_mem_nil, or_false] at ht
    rcases ht with rfl | rfl <;> rfl
  nested := by
    simp [twice, rowOf, inside, children]

/-- The inner loop of a square nest, which writes along its diagonals. -/
def diagonal : Stmt := rowOf (.int 0) (.int 2) (.add (.var "i") (.var "j"))

/-- The touch of `y[i + j]` in an iteration of the square nest. -/
def diagonalWrite (i j : Int) : Touch :=
  writeIn (.int 0) (.int 2) (.add (.var "i") (.var "j")) [i, j] [i + j]

theorem diagonal_covered : ∃ d ∈ chainDependences defaultLevels [twice diagonal, diagonal],
    Covers [twice diagonal, diagonal] d (diagonalWrite 0 1) (diagonalWrite 1 0)
      ∨ Covers [twice diagonal, diagonal] d (diagonalWrite 1 0) (diagonalWrite 0 1) := by
  have hFirst : ((twice diagonal).touches .blank (fun _ => 0) .blank)[1]?
      = some (diagonalWrite 0 1) := rfl
  have hSecond : ((twice diagonal).touches .blank (fun _ => 0) .blank)[2]?
      = some (diagonalWrite 1 0) := rfl
  have hOuter : (twice diagonal).level.extent = some 2 := by decide +kernel
  have hInner : diagonal.level.extent = some 2 := by decide +kernel
  have hOnly : twice diagonal ∈ (twice diagonal).number.nodes := self_mem_nodes (twice diagonal)
  refine (covered_of_near hOnly (chain_twice _ _ _) rfl rfl rfl defaultLevels
    .blank (fun _ => 0) .blank (List.mem_of_getElem? hFirst)
    (List.mem_of_getElem? hSecond) ⟨rfl, rfl, rfl, .inl rfl⟩
    ⟨_, List.mem_cons_self, 0, 1, rfl, rfl, by decide⟩).1 ?_
  intro k l e u w _ hl he hu hw _
  match k with
  | 0 =>
    cases hl
    have hExtent := hOuter.symm.trans he
    cases hExtent
    cases hu
    cases hw
    decide
  | 1 =>
    cases hl
    have hExtent := hInner.symm.trans he
    cases hExtent
    cases hu
    cases hw
    decide

/-- The inner loop of a slanted nest, which runs once, for the value of `i`. -/
def slanted : Stmt := rowOf (.var "i") (.add (.var "i") (.int 1)) (.int 0)

/-- The touch of `y[0]` in an iteration of the slanted nest. -/
def slantedWrite (i : Int) : Touch :=
  writeIn (.var "i") (.add (.var "i") (.int 1)) (.int 0) [i, i] [0]

/-- Two iterations of a loop that runs once are not near, and the analysis misses their dependence:
    both write `y[0]`, for different values of both iterators. -/
theorem slanted_not_covered :
    Chain [twice slanted, slanted] ∧ (twice slanted).number = twice slanted
      ∧ (twice slanted).calls = [] ∧ (twice slanted).unasserted = true
      ∧ (twice slanted).localsOnly = true
      ∧ slantedWrite 0 ∈ (twice slanted).touches .blank (fun _ => 0) .blank
      ∧ slantedWrite 1 ∈ (twice slanted).touches .blank (fun _ => 0) .blank
      ∧ (slantedWrite 0).Meets (slantedWrite 1)
      ∧ Apart [twice slanted, slanted] (slantedWrite 0) (slantedWrite 1)
      ∧ ∀ d ∈ chainDependences defaultLevels [twice slanted, slanted],
        ¬ Covers [twice slanted, slanted] d (slantedWrite 0) (slantedWrite 1)
          ∧ ¬ Covers [twice slanted, slanted] d (slantedWrite 1) (slantedWrite 0) := by
  have hFirst : ((twice slanted).touches .blank (fun _ => 0) .blank)[0]?
      = some (slantedWrite 0) := rfl
  have hSecond : ((twice slanted).touches .blank (fun _ => 0) .blank)[1]?
      = some (slantedWrite 1) := rfl
  refine ⟨chain_twice _ _ _, rfl, rfl, rfl, rfl, List.mem_of_getElem? hFirst,
    List.mem_of_getElem? hSecond, ⟨rfl, rfl, rfl, .inl rfl⟩,
    ⟨_, List.mem_cons_self, 0, 1, rfl, rfl, by decide⟩, ?_⟩
  intro d hd
  have hExtent : slanted.level.extent = some 1 := by decide +kernel
  have hEntry : d.direction[1]? = some .eq := by
    rw [chainDependences_eq_among rfl] at hd
    exact Nest.entry_eq_of_extent_le_one hd (getElem?_levels _ (l := slanted) rfl) hExtent
      (Int.le_refl 1) (by decide)
  constructor
  · intro hCovers
    obtain ⟨e, he, hAdmits⟩ := hCovers.direction 1 slanted 0 1 rfl rfl rfl
    rw [hEntry] at he
    cases he
    cases hAdmits
  · intro hCovers
    obtain ⟨e, he, hAdmits⟩ := hCovers.direction 1 slanted 1 0 rfl rfl rfl
    rw [hEntry] at he
    cases he
    cases hAdmits

end Stmt

end LoopNest

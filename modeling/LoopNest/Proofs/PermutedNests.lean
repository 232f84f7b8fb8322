import LoopNest.Dependence.Legality
import LoopNest.Proofs.FoundDependences
import LoopNest.Proofs.NestTurns
import LoopNest.Proofs.ParallelLoops

/-! # Permuting the loops of a nest

  When no dependence stands against another order of the loops of a perfect nest, the new order leaves
  the memory that the old one leaves (`Restructure.leaves_permuted`). Without assertions both orders
  leave one memory or none (`Restructure.change_permuted`).

  Two iterations change places only when they differ. If touches of theirs meet, the analysis finds a
  dependence between them, and that points backwards in the new order unless it belongs to a
  reduction (`Restructure.reduction_of_exchanged`). It looks for no dependences that a loop of the
  nest asserts away, so the assertions have to be true of all touches of the nest. -/

namespace LoopNest.Restructure

/-! ## Places in a nest -/

/-- The loops of a nest as they surround its body. -/
def enclosing (loops : List (Site × LoopHead)) : List Enclosing :=
  loops.map fun l => ⟨l.1.id, l.2⟩

/-- The place below loops in an environment. -/
def placeBelow (p : Place) (e : Env) (ls : List Enclosing) : Place :=
  ls.foldl (fun p l => p.enter l (e l.head.iter)) p

theorem placeBelow_scope (p : Place) (e : Env) (ls : List Enclosing) :
    (placeBelow p e ls).scope = { p.scope with loops := p.scope.loops ++ ls } := by
  induction ls generalizing p with
  | nil => simp [placeBelow]
  | cons l ls ih =>
    have hNext := ih (p.enter l (e l.head.iter))
    unfold placeBelow at hNext ⊢
    rw [List.foldl_cons, hNext]
    simp [Place.enter]

theorem placeBelow_makes (p : Place) (e : Env) (ls : List Enclosing) :
    (placeBelow p e ls).Makes = p.Makes := by
  induction ls generalizing p with
  | nil => rfl
  | cons l ls ih => exact (ih _).trans Place.makes_enter

theorem placeBelow_owned {p : Place} (h : p.Owned) (hLength : p.turn.length = p.scope.loops.length)
    (e : Env) (ls : List Enclosing) : (placeBelow p e ls).Owned
      ∧ (placeBelow p e ls).turn.length = (placeBelow p e ls).scope.loops.length := by
  induction ls generalizing p with
  | nil => exact ⟨h, hLength⟩
  | cons l ls ih =>
    apply ih (h.enter l _)
    simp [Place.enter, hLength]

/-- The accesses of the body are accesses of the nest. -/
theorem mem_accessesIn_nestOf {body : Stmt} {a : Access} :
    ∀ (loops : List (Site × LoopHead)) (s : Scope),
      a ∈ body.accessesIn { s with loops := s.loops ++ enclosing loops } →
        a ∈ (nestOf loops body).accessesIn s := by
  intro loops
  induction loops with
  | nil =>
    intro s h
    simpa [enclosing, nestOf] using h
  | cons l rest ih =>
    intro s h
    show a ∈ (Stmt.loop l.1 l.2 (nestOf rest body)).accessesIn s
    rw [Stmt.accessesIn]
    apply List.mem_append_right
    apply ih
    simpa [enclosing, List.append_assoc] using h

variable {c : Conventions} {writes names : List String} {start : Env} {first : Memory}

/-- An iteration of the nest is one of each of its loops. -/
theorem at_placeBelow (hFirst : first.Full) :
    ∀ (ls : List Enclosing) (p : Place) (env e : Env) (path : List Turn),
      (ls.map fun l => l.head.iter).Nodup →
      (∀ l ∈ ls, Fixed c writes names start first l.head) → (∀ l ∈ ls, l.head.iter ∈ names) →
      (∀ x, x ∉ names → env x = start x) → p.At c start env path →
      e ∈ turns (valuesAt c start first) env (ls.map (·.head)) →
        ∃ more, (placeBelow p e ls).At c start e (path ++ more)
          ∧ more.map (fun r => (r.loop, r.value)) = ls.map fun l => (l, e l.head.iter) := by
  have hStart : OffBuffers writes first first := ⟨hFirst, fun _ _ => rfl⟩
  intro ls
  induction ls with
  | nil =>
    intro p env e path _ _ _ _ hAt he
    obtain rfl : e = env := List.mem_singleton.mp he
    exact ⟨[], by simpa [placeBelow] using hAt, rfl⟩
  | cons l ls ih =>
    intro p env e path hIters hFixed hNames hEnv hAt he
    obtain ⟨hNot, hRest⟩ := List.nodup_cons.mp hIters
    obtain ⟨v, hv, he⟩ := List.mem_flatMap.mp he
    have hHere := hFixed l List.mem_cons_self
    have hValue : e l.head.iter = v := by
      have hIters' : ((ls.map (·.head)).map (·.iter)).Nodup := by
        rw [List.map_map]
        exact hRest
      rw [((mem_turns hIters').mp he).1, Env.set_self]
      rwa [List.map_map]
    have hEnter := hAt.enter (hHere.lower_eq hEnv hStart) (hHere.upper_eq hEnv hStart) hv
    have hOff : ∀ x, x ∉ names → env.set l.head.iter v x = start x := by
      intro x hx
      rw [Env.set_ne, hEnv x hx]
      rintro rfl
      exact hx (hNames l List.mem_cons_self)
    obtain ⟨more, hMore, hTurns⟩ := ih _ _ e _ hRest
      (fun l' hl' => hFixed l' (List.mem_cons_of_mem l hl'))
      (fun l' hl' => hNames l' (List.mem_cons_of_mem l hl')) hOff hEnter he
    refine ⟨⟨l, (l.head.lower.valueWith? c start first).getD 0, v⟩ :: more, ?_, ?_⟩
    · rw [List.append_assoc] at hMore
      show (placeBelow (p.enter l (e l.head.iter)) e ls).At c start e _
      rw [hValue]
      exact hMore
    · rw [List.map_cons, List.map_cons, hTurns, hValue]

/-! ## Vectors of iterations -/

section entries

variable {loops : List (Site × LoopHead)} {entry : Nat → Direction} {e e' : Env}

/-- A vector of two iterations that does not point backwards in some order of the loops: in that
    order the second iteration does not come first. -/
theorem not_precedes_of_forward
    (hEntry : ∀ (k : Nat) l, loops[k]? = some l →
      entry k = .sign (e l.2.iter) (e' l.2.iter) ∨ entry k = .star) :
    ∀ places : List Nat, (∀ k ∈ places, k < loops.length) →
      Direction.forward (places.map entry) = true →
        ¬ Precedes ((places.filterMap (loops[·]?)).map (·.2.iter)) e' e := by
  intro places
  induction places with
  | nil => exact fun _ _ h => h
  | cons k places ih =>
    intro hRange hForward
    obtain ⟨l, hl⟩ : ∃ l, loops[k]? = some l :=
      ⟨_, List.getElem?_eq_getElem (hRange k List.mem_cons_self)⟩
    rw [List.filterMap_cons_some hl, List.map_cons]
    rw [List.map_cons] at hForward
    have hAdmits := Direction.admits_sign (e l.2.iter) (e' l.2.iter)
    have hStar := Direction.sign_ne_star (e l.2.iter) (e' l.2.iter)
    rcases hEntry k l hl with hSign | hOpen
    · rw [hSign] at hForward
      cases hDirection : Direction.sign (e l.2.iter) (e' l.2.iter) with
      | lt =>
        rw [hDirection] at hAdmits
        have hLt : e l.2.iter < e' l.2.iter := hAdmits
        rintro (h | ⟨h, _⟩) <;> omega
      | eq =>
        rw [hDirection] at hAdmits hForward
        have hEq : e l.2.iter = e' l.2.iter := hAdmits
        rintro (h | ⟨_, h⟩)
        · omega
        · exact ih (fun k hk => hRange k (List.mem_cons_of_mem _ hk)) hForward h
      | gt =>
        rw [hDirection] at hForward
        cases hForward
      | star => exact absurd hDirection hStar
    · rw [hOpen] at hForward
      cases hForward

/-- The outermost loop in which two iterations differ. -/
theorem exists_of_precedes :
    ∀ loops : List (Site × LoopHead), Precedes (loops.map (·.2.iter)) e e' →
      ∃ (k : Nat) (l : Site × LoopHead), loops[k]? = some l ∧ e l.2.iter < e' l.2.iter
        ∧ ∀ (j : Nat) l', j < k → loops[j]? = some l' → e l'.2.iter = e' l'.2.iter := by
  intro loops
  induction loops with
  | nil => exact fun h => h.elim
  | cons l loops ih =>
    rintro (h | ⟨hEq, h⟩)
    · exact ⟨0, l, rfl, h, fun j _ hj => absurd hj (Nat.not_lt_zero j)⟩
    · obtain ⟨k, l', hl', hLess, hBefore⟩ := ih h
      refine ⟨k + 1, l', hl', hLess, ?_⟩
      intro j l'' hj hl''
      cases j with
      | zero =>
        cases hl''
        exact hEq
      | succ j => exact hBefore j l'' (by omega) hl''

theorem not_forward_of_star {ds : List Direction} (hAll : ∀ d ∈ ds, d = .eq ∨ d = .star)
    (hStar : .star ∈ ds) : Direction.forward ds = false := by
  induction ds with
  | nil => cases hStar
  | cons d ds ih =>
    rcases hAll d List.mem_cons_self with rfl | rfl
    · apply ih fun d hd => hAll d (List.mem_cons_of_mem _ hd)
      exact (List.mem_cons.mp hStar).resolve_left (by decide)
    · rfl

/-- A vector that leads from a later iteration to an earlier one and is not known to point backwards
    points forwards in no order of the loops. -/
theorem not_forward_of_precedes {maxLevels : Nat}
    (hEntry : ∀ (k : Nat) l, loops[k]? = some l →
      entry k = if k < maxLevels then .sign (e' l.2.iter) (e l.2.iter) else .star)
    (hOnward : ∀ k, k < loops.length → (∀ j, j < k → entry j = .eq) → entry k ≠ .gt)
    (hPrecedes : Precedes (loops.map (·.2.iter)) e e') {places : List Nat}
    (hPlaces : places.Perm (List.range loops.length)) :
    Direction.forward (places.map entry) = false := by
  obtain ⟨k, l, hl, hLess, hBefore⟩ := exists_of_precedes loops hPrecedes
  have hk : k < loops.length := (List.getElem?_eq_some_iff.mp hl).1
  have hEqual : ∀ j, j < k → j < maxLevels → entry j = .eq := by
    intro j hj hMax
    have hHere := List.getElem?_eq_getElem (l := loops) (i := j) (by omega)
    rw [hEntry j _ hHere, if_pos hMax, Direction.sign_eq_iff]
    exact (hBefore j _ hj hHere).symm
  have hOpen : ∀ j, j < loops.length → maxLevels ≤ j → entry j = .star := by
    intro j hj hMax
    rw [hEntry j _ (List.getElem?_eq_getElem hj), if_neg (by omega)]
  -- a refined level would make the vector point backwards
  have hMax : maxLevels ≤ k := by
    rcases Nat.lt_or_ge k maxLevels with hLt | hGe
    · have hGt : entry k = .gt := by
        have hNot : ¬ e' l.2.iter < e l.2.iter := by omega
        rw [hEntry k l hl, if_pos hLt, Direction.sign, if_neg hNot, if_pos hLess]
      exact absurd hGt (hOnward k hk fun j hj => hEqual j hj (by omega))
    · exact hGe
  apply not_forward_of_star
  · intro d hd
    obtain ⟨j, hj, rfl⟩ := List.mem_map.mp hd
    have hj : j < loops.length := List.mem_range.mp (hPlaces.subset hj)
    rcases Nat.lt_or_ge j maxLevels with hLt | hGe
    · exact .inl (hEqual j (by omega) hLt)
    · exact .inr (hOpen j hj hGe)
  · rw [← hOpen k hk hMax]
    exact List.mem_map_of_mem (hPlaces.symm.subset (List.mem_range.mpr hk))

end entries

/-! ## Touches in different iterations -/

section exchange

/-- A nest that runs through the same iterations in every order of its loops.

    * **full**: it starts in a memory without gaps;
    * **ids**, **iters**: its loops have different numbers, and those of the list different iterators;
    * **locals**: all buffers that the body declares are local;
    * **written**: `writes` has all buffers that the body writes;
    * **fixed**: the bounds of the loops have the values that they have at the start;
    * **named**: `names` has all iterators of the list. -/
structure Regular (c : Conventions) (writes names : List String) (start : Env) (first : Memory)
    (loops : List (Site × LoopHead)) (body : Stmt) : Prop where
  full : first.Full
  ids : (nestOf loops body).loopIds.Nodup
  iters : (loops.map (·.2.iter)).Nodup
  locals : body.localsOnly = true
  written : ∀ x, body.Writes x → x ∈ writes
  fixed : ∀ l ∈ loops, Fixed c writes names start first l.2
  named : ∀ l ∈ loops, l.2.iter ∈ names

variable {loops : List (Site × LoopHead)} {body : Stmt} {maxLevels : Nat}

/-- The nest as it is analysed. -/
def analysed (maxLevels : Nat) (loops : List (Site × LoopHead)) : Nest :=
  ⟨loops.map fun l => l.2.level l.1.id, maxLevels⟩

/-- Where touches of the body happen. -/
theorem placed_in_nest (h : Regular c writes names start first loops body)
    {e : Env} (he : e ∈ turns (valuesAt c start first) start (loops.map (·.2))) {m : Memory}
    {x : Touch} (hx : x ∈ body.touchesWith c (placeBelow {} e (enclosing loops)) e m) :
    x.access ∈ (nestOf loops body).accessesIn {} ∧ ∃ P, x.Placed c start P
      ∧ ∀ l ∈ loops, x.value? l.1.id = some (e l.2.iter) ∧ ∃ a ∈ x.access.loops, a.id = l.1.id := by
  have hHeads : (enclosing loops).map (·.head) = loops.map (·.2) := by simp [enclosing]
  have hEnclosing : ∀ a ∈ enclosing loops, ∃ l ∈ loops, a.head = l.2 := by
    intro a ha
    obtain ⟨l, hl, rfl⟩ := List.mem_map.mp ha
    exact ⟨l, hl, rfl⟩
  have hFixedHere : ∀ a ∈ enclosing loops, Fixed c writes names start first a.head := by
    intro a ha
    obtain ⟨l, hl, hHead⟩ := hEnclosing a ha
    exact hHead ▸ h.fixed l hl
  have hNamesHere : ∀ a ∈ enclosing loops, a.head.iter ∈ names := by
    intro a ha
    obtain ⟨l, hl, hHead⟩ := hEnclosing a ha
    exact hHead ▸ h.named l hl
  obtain ⟨path, hAt, hPath⟩ := at_placeBelow h.full (enclosing loops) {} start e []
    (by rw [enclosing, List.map_map]; exact h.iters) hFixedHere hNamesHere
    (fun _ _ => rfl) (Place.At.start c start) (by rwa [hHeads])
  obtain ⟨hAccess, more, hPlaced⟩ := Stmt.placed_of_mem_touchesWith body _ e _ m x hAt hx
  rw [placeBelow_scope] at hAccess
  have hMem := mem_accessesIn_nestOf loops {} hAccess
  refine ⟨hMem, _, hPlaced, ?_⟩
  obtain ⟨p, hp⟩ := Stmt.exists_inner_of_mem_accessesIn _ {} x.access hMem
  have hLoops : x.access.loops = p := hp.loops
  have hNodup := hp.nodup h.ids
  rw [← hLoops, ← hPlaced.loops, List.map_map] at hNodup
  intro l hl
  obtain ⟨r, hr, hTurn⟩ : ∃ r ∈ path, (r.loop, r.value) = (⟨l.1.id, l.2⟩, e l.2.iter) := by
    apply List.mem_map.mp
    rw [hPath]
    exact List.mem_map.mpr ⟨⟨l.1.id, l.2⟩, List.mem_map.mpr ⟨l, hl, rfl⟩, rfl⟩
  obtain ⟨hLoop, hValue⟩ := Prod.mk.inj hTurn
  have hrMem : r ∈ [] ++ path ++ more := by simp [hr]
  have hId : r.loop.id = l.1.id := by rw [hLoop]
  constructor
  · rw [hPlaced.value?, ← hId, turnOf?_of_mem hNodup hrMem, ← hValue]
    rfl
  · refine ⟨r.loop, ?_, hId⟩
    rw [← hPlaced.loops]
    exact List.mem_map_of_mem hrMem

/-- All levels of the nest are around two touches of the body. -/
theorem common_analysed {x y : Touch} (hx : ∀ l ∈ loops, ∃ a ∈ x.access.loops, a.id = l.1.id)
    (hy : ∀ l ∈ loops, ∃ a ∈ y.access.loops, a.id = l.1.id) :
    (analysed maxLevels loops).common x y = loops.length := by
  have hAround : ∀ z : Touch, (∀ l ∈ loops, ∃ a ∈ z.access.loops, a.id = l.1.id) →
      ∀ l ∈ loops, z.access.loops.any (·.id == (l.2.level l.1.id).id) = true := by
    intro z hz l hl
    obtain ⟨a, ha, hId⟩ := hz l hl
    exact List.any_eq_true.mpr ⟨a, ha, beq_iff_eq.mpr hId⟩
  have hAll : (analysed maxLevels loops).levels.takeWhile (fun l =>
      x.access.loops.any (·.id == l.id) && y.access.loops.any (·.id == l.id))
        = (analysed maxLevels loops).levels := by
    rw [List.takeWhile_eq_self_iff]
    intro l hl
    obtain ⟨l', hl', rfl⟩ := List.mem_map.mp hl
    rw [hAround x hx l' hl', hAround y hy l' hl']
    rfl
  unfold Nest.common Nest.commonLevels
  rw [hAll]
  exact List.length_map _

/-- The entries of the vector of two touches of the body. -/
theorem entry_analysed {x y : Touch} {e e' : Env}
    (hx : ∀ l ∈ loops, x.value? l.1.id = some (e l.2.iter) ∧ ∃ a ∈ x.access.loops, a.id = l.1.id)
    (hy : ∀ l ∈ loops, y.value? l.1.id = some (e' l.2.iter) ∧ ∃ a ∈ y.access.loops, a.id = l.1.id)
    {k : Nat} {l : Site × LoopHead} (hl : loops[k]? = some l) :
    ((analysed maxLevels loops).directions x y).getD k .star
      = if k < maxLevels then .sign (e l.2.iter) (e' l.2.iter) else .star := by
  have hCommon : k < (analysed maxLevels loops).common x y := by
    rw [common_analysed (fun l hl => (hx l hl).2) fun l hl => (hy l hl).2]
    exact (List.getElem?_eq_some_iff.mp hl).1
  have hLevel : (analysed maxLevels loops).levels[k]? = some (l.2.level l.1.id) := by
    unfold analysed
    rw [List.getElem?_map, hl]
    rfl
  have hMem := List.mem_of_getElem? hl
  unfold Nest.directions
  rw [Nest.getD_padded hCommon, Nest.getD_signs hLevel hCommon]
  unfold Touch.valueIn LoopHead.level
  rw [(hx l hMem).1, (hy l hMem).1]
  rfl

/-- An entry `gt` after entries `eq` is the first one other than `eq`. -/
theorem find?_eq_gt {ds : List Direction} {k : Nat} (hBefore : ∀ j, j < k → ds.getD j .star = .eq)
    (hHere : ds.getD k .star = .gt) : ds.find? (· != .eq) = some .gt := by
  have hEntry : ∀ (j : Nat) (d : Direction), ds.getD j .star = d → d ≠ .star →
      ∃ h : j < ds.length, ds[j] = d := by
    intro j d hd hStar
    rw [List.getD_eq_getElem?_getD] at hd
    cases hj : ds[j]? with
    | none =>
      rw [hj] at hd
      exact absurd hd.symm hStar
    | some d' =>
      rw [hj] at hd
      obtain ⟨hLength, hGet⟩ := List.getElem?_eq_some_iff.mp hj
      exact ⟨hLength, hGet.trans hd⟩
  obtain ⟨hLength, hGet⟩ := hEntry k .gt hHere (by decide)
  rw [List.find?_eq_some_iff_getElem]
  refine ⟨by decide, k, hLength, hGet, ?_⟩
  intro j hj
  obtain ⟨_, hEq⟩ := hEntry j .eq (hBefore j hj) (by decide)
  rw [hEq]
  decide

/-- **Iterations that change places**: touches in them that meet belong to reductions with one
    operator, when no dependence stands against the other order and no loop in which the iterations
    differ asserts that they do not meet. -/
theorem reduction_of_exchanged (h : Regular c writes names start first loops body)
    {places : List Nat} (hPlaces : places.Perm (List.range loops.length))
    (hObstacle : (nestOf loops body).reorderObstacle? maxLevels
      (loops.map fun l => l.2.level l.1.id) places = none) {e e' : Env}
    (he : e ∈ turns (valuesAt c start first) start (loops.map (·.2)))
    (he' : e' ∈ turns (valuesAt c start first) start (loops.map (·.2)))
    (hForth : Precedes (loops.map (·.2.iter)) e e')
    (hBack : Precedes ((places.filterMap (loops[·]?)).map (·.2.iter)) e' e) {x y : Touch}
    {before before' : Memory} (hx : x ∈ body.touchesWith c (placeBelow {} e (enclosing loops)) e before)
    (hy : y ∈ body.touchesWith c (placeBelow {} e' (enclosing loops)) e' before')
    (hAsserted : ∀ l ∈ loops, x.access.buffer ∈ l.2.noDeps → e l.2.iter = e' l.2.iter)
    (hMeets : x.Meets y) : ∃ op, x.access.reduction = some op ∧ y.access.reduction = some op := by
  obtain ⟨hxMem, P, hP, hxValues⟩ := placed_in_nest h he hx
  obtain ⟨hyMem, Q, hQ, hyValues⟩ := placed_in_nest h he' hy
  have hHeads : ((loops.map (·.2)).map (·.iter)).Nodup := by
    rw [List.map_map]
    exact h.iters
  have hRange : ∀ {e : Env}, e ∈ turns (valuesAt c start first) start (loops.map (·.2)) →
      ∀ l ∈ loops, e l.2.iter ∈ valuesAt c start first l.2 := fun he l hl =>
    ((mem_turns hHeads).mp he).2 l.2 (List.mem_map_of_mem hl)
  have hEncounter : Encounter (analysed maxLevels loops) c start x y P Q := by
    apply Encounter.of_placed h.ids hxMem hyMem hP hQ
    intro k l ext u w _ hl hExtent hu hw _
    unfold analysed at hl
    rw [List.getElem?_map] at hl
    obtain ⟨l, hLoop, rfl⟩ := Option.map_eq_some_iff.mp hl
    have hMem := List.mem_of_getElem? hLoop
    obtain rfl : e l.2.iter = u := Option.some.inj ((hxValues l hMem).1.symm.trans hu)
    obtain rfl : e' l.2.iter = w := Option.some.inj ((hyValues l hMem).1.symm.trans hw)
    obtain ⟨lower, hLower⟩ := Option.isSome_iff_exists.mp (h.fixed l hMem).lower
    obtain ⟨upper, hUpper⟩ := Option.isSome_iff_exists.mp (h.fixed l hMem).upper
    have hDistance := Expr.distance_of_constantDistance? hExtent hLower hUpper
    have hu := hRange he l hMem
    have hw := hRange he' l hMem
    unfold valuesAt at hu hw
    rw [hLower, hUpper, Option.getD_some, Option.getD_some, mem_counting] at hu hw
    omega
  have hAround : ∀ {z : Touch} {e : Env}, (∀ l ∈ loops, z.value? l.1.id = some (e l.2.iter)
      ∧ ∃ a ∈ z.access.loops, a.id = l.1.id) → ∀ l ∈ loops, ∃ a ∈ z.access.loops, a.id = l.1.id :=
    fun h l hl => (h l hl).2
  have hDiffer : (analysed maxLevels loops).Differ x y := by
    obtain ⟨k, l, hl, hLess, _⟩ := exists_of_precedes loops hForth
    have hMem := List.mem_of_getElem? hl
    refine ⟨l.2.level l.1.id, ?_, ?_⟩
    · rw [common_analysed (hAround hxValues) (hAround hyValues)]
      unfold analysed
      rw [List.take_of_length_le (by simp)]
      exact List.mem_map_of_mem hMem
    · unfold Touch.valueIn LoopHead.level
      rw [(hxValues l hMem).1, (hyValues l hMem).1]
      exact Int.ne_of_lt hLess
  have hForced : (analysed maxLevels loops).Forced x y := by
    obtain ⟨hOwned, hLength⟩ := placeBelow_owned Place.Owned.start rfl e (enclosing loops)
    obtain ⟨hOwned', hLength'⟩ := placeBelow_owned Place.Owned.start rfl e' (enclosing loops)
    apply Nest.forced_of_owned hEncounter
    · exact Stmt.owned_of_mem_touchesWith body _ e before x h.locals hOwned hLength hx
    · exact Stmt.owned_of_mem_touchesWith body _ e' before' y h.locals hOwned' hLength' hy
    · exact hMeets.owner
    · intro l hl hContains
      obtain ⟨l, hLoop, rfl⟩ := List.mem_map.mp hl
      have hSame := hAsserted l hLoop (List.contains_iff_mem.mp hContains)
      rw [Touch.valueIn, Touch.valueIn, LoopHead.level, (hxValues l hLoop).1, (hyValues l hLoop).1,
        hSame]
  obtain ⟨d, hd, hJoins⟩ := hEncounter.exists_joins hMeets hForced hDiffer hxMem hyMem
  have hAllowed := List.find?_eq_none.mp hObstacle d (List.mem_append_right _ hd)
  cases hReduction : d.reduction with
  | some op =>
    rcases hJoins with hJoins | hJoins
    · exact ⟨op, hJoins.reduction op hReduction⟩
    · exact ⟨op, (hJoins.reduction op hReduction).symm⟩
  | none =>
    -- otherwise the vector points forwards in the new order
    have hForward : Direction.forward (places.map fun k => d.direction.getD k .star) = true := by
      simpa [hReduction] using hAllowed
    rcases hJoins with hJoins | hJoins
    · refine absurd hBack (not_precedes_of_forward ?_ places ?_ hForward)
      · intro k l hl
        rw [hJoins.direction, entry_analysed hxValues hyValues hl]
        split
        · exact .inl rfl
        · exact .inr rfl
      · exact fun k hk => List.mem_range.mp (hPlaces.subset hk)
    · rw [not_forward_of_precedes (fun k l hl => by
          rw [hJoins.direction, entry_analysed hyValues hxValues hl]) ?_ hForth hPlaces] at hForward
      · cases hForward
      · intro k _ hBefore hGt
        rw [hJoins.direction] at hGt
        refine hJoins.onward (find?_eq_gt (fun j hj => ?_) hGt)
        rw [← hJoins.direction]
        exact hBefore j hj

/-- All places of a list, in their order, are the list. -/
theorem filterMap_range {α : Type} (xs : List α) :
    (List.range xs.length).filterMap (xs[·]?) = xs := by
  induction xs with
  | nil => rfl
  | cons x xs ih =>
    rw [List.length_cons, List.range_succ_eq_map, List.filterMap_cons, List.filterMap_map]
    show x :: (List.range xs.length).filterMap (xs[·]?) = x :: xs
    rw [ih]

/-- A list with its members in another order. -/
theorem permuted_perm {α : Type} {xs : List α} {places : List Nat}
    (hPlaces : places.Perm (List.range xs.length)) : (places.filterMap (xs[·]?)).Perm xs := by
  have h := hPlaces.filterMap (xs[·]?)
  rwa [filterMap_range] at h

/-- The change that an iteration of a nest makes, with what it touches. -/
def nestTurn (c : Conventions) (p : Place) (loops : List (Site × LoopHead)) (body : Stmt) (e : Env) :
    Change × Trace :=
  (body.change c e, body.touchesWith c (placeBelow p e (enclosing loops)) e)

/-- What the iterations touch is touched by the nest. -/
theorem inTurn_subset_touches (hWrites : ∀ x, body.Writes x → x ∈ writes) :
    ∀ (loops : List (Site × LoopHead)) (p : Place) (env : Env), (loops.map (·.2.iter)).Nodup →
      (∀ l ∈ loops, Fixed c writes names start first l.2) → (∀ l ∈ loops, l.2.iter ∈ names) →
      (∀ x, x ∉ names → env x = start x) → ∀ m, OffBuffers writes first m →
        Trace.inTurn ((turns (valuesAt c start first) env (loops.map (·.2))).map
          (nestTurn c p loops body)) m ⊆ (nestOf loops body).touchesWith c p env m := by
  intro loops
  induction loops with
  | nil =>
    intro p env _ _ _ _ m _
    show body.touchesWith c p env m ++ ((body.change c env m).elim [] fun _ => []) ⊆ _
    cases body.change c env m <;> simp [nestOf]
  | cons l rest ih =>
    intro p env hIters hFixed hNames hEnv m hm
    obtain ⟨s, h⟩ := l
    obtain ⟨hNot, hRest⟩ := List.nodup_cons.mp hIters
    have hHere : Fixed c writes names start first h := hFixed (s, h) List.mem_cons_self
    have hFixedRest : ∀ l ∈ rest, Fixed c writes names start first l.2 :=
      fun l hl => hFixed l (List.mem_cons_of_mem _ hl)
    have hNamesRest : ∀ l ∈ rest, l.2.iter ∈ names := fun l hl => hNames l (List.mem_cons_of_mem _ hl)
    have hEnvRest : ∀ v x, x ∉ names → env.set h.iter v x = start x := by
      intro v x hx
      rw [Env.set_ne, hEnv x hx]
      rintro rfl
      exact hx (hNames (s, h) List.mem_cons_self)
    -- an iteration of the nest is one of the nest inside, entered with the value of its loop
    have hInside : ∀ v, (turns (valuesAt c start first) (env.set h.iter v) (rest.map (·.2))).map
        (nestTurn c p ((s, h) :: rest) body)
          = (turns (valuesAt c start first) (env.set h.iter v) (rest.map (·.2))).map
            (nestTurn c (p.enter ⟨s.id, h⟩ v) rest body) := by
      intro v
      refine List.map_congr_left fun e he => ?_
      have hRestHeads : ((rest.map (·.2)).map (·.iter)).Nodup := by rwa [List.map_map]
      have hValue : e h.iter = v := by
        rw [((mem_turns hRestHeads).mp he).1, Env.set_self]
        rwa [List.map_map]
      rw [← hValue]
      rfl
    have hTurns : (turns (valuesAt c start first) env (((s, h) :: rest).map (·.2))).map
        (nestTurn c p ((s, h) :: rest) body) = (valuesAt c start first h).flatMap fun v =>
          (turns (valuesAt c start first) (env.set h.iter v) (rest.map (·.2))).map
            (nestTurn c (p.enter ⟨s.id, h⟩ v) rest body) := by
      rw [List.map_cons, turns, List.map_flatMap]
      exact List.flatMap_congr fun v _ => hInside v
    rw [hTurns, Trace.inTurn_flatMap]
    show _ ⊆ (Stmt.loop s h (nestOf rest body)).touchesWith c p env m
    simp only [Stmt.touchesWith, hHere.lower_eq hEnv hm, hHere.upper_eq hEnv hm]
    refine List.subset_append_of_subset_right _ (Trace.inTurn_subset ?_ ?_ ?_ hm)
    · intro v _ m' hm'
      rw [List.map_map]
      exact (eqOn_nest hWrites rest _ hFixedRest hNamesRest (hEnvRest v) m' hm').symm
    · exact fun v _ => keeps_nest hWrites rest _
    · intro v _ m' hm'
      exact ih _ _ hRest hFixedRest hNamesRest (hEnvRest v) m' hm'

/-- Two iterations come in one order in the nest, and in the other order when its loops take other
    places. -/
def ChangePlaces (loops : List (Site × LoopHead)) (places : List Nat) (e e' : Env) : Prop :=
  Precedes (loops.map (·.2.iter)) e e'
    ∧ Precedes ((places.filterMap (loops[·]?)).map (·.2.iter)) e' e

/-- **Iterations in another order**: they leave the same memory when those that change places do so
    because the loops take places that no dependence stands against. The assertions have to be true in
    the order that is run. -/
theorem exchange_turns (h : Regular c writes names start first loops body) {places : List Nat}
    (hPlaces : places.Perm (List.range loops.length))
    (hObstacle : (nestOf loops body).reorderObstacle? maxLevels
      (loops.map fun l => l.2.level l.1.id) places = none) {p q : List Env}
    (hp : p.Perm (turns (valuesAt c start first) start (loops.map (·.2)))) (hq : q.Perm p)
    (hExchange : ∀ e e', [e, e'].Sublist p → [e', e].Sublist q →
      ChangePlaces loops places e e' ∨ ChangePlaces loops places e' e)
    (hAsserted : ∀ l ∈ loops,
      Stmt.Truthful l.1.id l.2.noDeps (Trace.inTurn (p.map (nestTurn c {} loops body)) first))
    {m' : Memory}
    (hRun : Change.inTurn (p.map fun e => (nestTurn c {} loops body e).1) first = some m') :
    Change.inTurn (q.map fun e => (nestTurn c {} loops body e).1) first = some m' := by
  have hHeads : ((loops.map (·.2)).map (·.iter)).Nodup := by
    rw [List.map_map]
    exact h.iters
  have hNodup : p.Nodup :=
    hp.nodup_iff.mpr (nodup_turns hHeads fun _ _ => pairwise_counting _ _)
  have hLogged : ∀ e ∈ p, Logged (nestTurn c {} loops body e) ({} : Place).Makes := by
    intro e _
    rw [← placeBelow_makes {} e (enclosing loops)]
    exact Stmt.logged body _ _ h.locals
  apply exchange_tasks hq hNodup hLogged _ hRun
  rintro e e' hee' he'e x y s s' ⟨before, hx⟩ ⟨before', hy⟩ hxRun hyRun hMakes hMakes'
  have he := hp.subset (hee'.subset (List.mem_cons_self (a := e)))
  have he' := hp.subset (hee'.subset (List.mem_cons_of_mem e (List.mem_singleton_self e')))
  apply Step.independent_of_by hMakes.makes hMakes'.makes
  intro hBuffer hCell hWrite
  have hMeets : x.Meets y := by
    refine ⟨hBuffer, ?_, hCell, hWrite⟩
    rw [hMakes.ofPlace.owner, hMakes'.ofPlace.owner]
    rfl
  obtain ⟨_, _, _, hxValues⟩ := placed_in_nest h he hx
  obtain ⟨_, _, _, hyValues⟩ := placed_in_nest h he' hy
  have hSame : ∀ l ∈ loops, x.access.buffer ∈ l.2.noDeps → e l.2.iter = e' l.2.iter := by
    intro l hl hMem
    by_contra hne
    exact hAsserted l hl x hxRun y hyRun _ _ (hxValues l hl).1 (hyValues l hl).1 hne hMem hMeets
  rcases hExchange e e' hee' he'e with ⟨hForth, hBack⟩ | ⟨hForth, hBack⟩
  · exact reduction_of_exchanged h hPlaces hObstacle he he' hForth hBack hx hy hSame hMeets
  · obtain ⟨op, hOp, hOp'⟩ := reduction_of_exchanged h hPlaces hObstacle he' he hForth hBack hy hx
      (fun l hl hMem => (hSame l hl (hBuffer ▸ hMem)).symm) hMeets.symm
    exact ⟨op, hOp', hOp⟩

/-- Iterations that stand in one order in the nest and in the other one in the permuted nest. -/
theorem changePlaces_of_sublist (h : Regular c writes names start first loops body) {places : List Nat}
    (hPlaces : places.Perm (List.range loops.length)) {e e' : Env}
    (hForth : [e, e'].Sublist (turns (valuesAt c start first) start (loops.map (·.2))))
    (hBack : [e', e].Sublist (turns (valuesAt c start first) start
      ((places.filterMap (loops[·]?)).map (·.2)))) : ChangePlaces loops places e e' := by
  have hHeads : ((loops.map (·.2)).map (·.iter)).Nodup := by
    rw [List.map_map]
    exact h.iters
  have hHeads' : (((places.filterMap (loops[·]?)).map (·.2)).map (·.iter)).Nodup :=
    (((permuted_perm hPlaces).map _).map _).nodup_iff.mpr hHeads
  have hOld := (pairwise_turns hHeads fun _ _ => pairwise_counting _ _).sublist hForth
  have hNew := (pairwise_turns hHeads' fun _ _ => pairwise_counting _ _).sublist hBack
  rw [List.map_map] at hOld hNew
  exact ⟨List.pairwise_pair.mp hOld, List.pairwise_pair.mp hNew⟩

/-- The permuted nest runs through the same iterations. -/
theorem turns_permuted (h : Regular c writes names start first loops body) {places : List Nat}
    (hPlaces : places.Perm (List.range loops.length)) :
    (turns (valuesAt c start first) start ((places.filterMap (loops[·]?)).map (·.2))).Perm
      (turns (valuesAt c start first) start (loops.map (·.2))) := by
  refine turns_perm ((permuted_perm hPlaces).map (·.2)) ?_ fun _ _ => pairwise_counting _ _
  rw [List.map_map]
  exact h.iters

/-- The nest and the permuted one run their iterations one after the other. -/
theorem change_eq_inTurn (h : Regular c writes names start first loops body)
    {loops' : List (Site × LoopHead)} (hLoops : loops' ⊆ loops) :
    (nestOf loops' body).change c start first
      = Change.inTurn ((turns (valuesAt c start first) start (loops'.map (·.2))).map
          fun e => (nestTurn c {} loops body e).1) first :=
  eqOn_nest h.written loops' start (fun l hl => h.fixed l (hLoops hl))
    (fun l hl => h.named l (hLoops hl)) (fun _ _ => rfl) first ⟨h.full, fun _ _ => rfl⟩

/-- **Permuted nests**: a perfect nest leaves the same memory when its loops stand in another order
    that no dependence stands against, if its assertions are true. -/
theorem leaves_permuted (h : Regular c writes names start first loops body) {places : List Nat}
    (hPlaces : places.Perm (List.range loops.length))
    (hObstacle : (nestOf loops body).reorderObstacle? maxLevels
      (loops.map fun l => l.2.level l.1.id) places = none)
    (hAsserted : ∀ l ∈ loops,
      Stmt.Truthful l.1.id l.2.noDeps ((nestOf loops body).touchesWith c {} start first))
    {m' : Memory} (hRun : (nestOf loops body).change c start first = some m') :
    (nestOf (places.filterMap (loops[·]?)) body).change c start first = some m' := by
  rw [change_eq_inTurn h (List.Subset.refl _)] at hRun
  rw [change_eq_inTurn h (permuted_perm hPlaces).subset]
  refine exchange_turns h hPlaces hObstacle (.refl _) (turns_permuted h hPlaces)
    (fun e e' hForth hBack => .inl (changePlaces_of_sublist h hPlaces hForth hBack)) ?_ hRun
  exact fun l hl => (hAsserted l hl).mono (inTurn_subset_touches h.written loops {} start h.iters
    h.fixed h.named (fun _ _ => rfl) first ⟨h.full, fun _ _ => rfl⟩)

/-- **Permuted nests without assertions**: both orders leave one memory or none. -/
theorem change_permuted (h : Regular c writes names start first loops body)
    (hNoDeps : ∀ l ∈ loops, l.2.noDeps = []) {places : List Nat}
    (hPlaces : places.Perm (List.range loops.length))
    (hObstacle : (nestOf loops body).reorderObstacle? maxLevels
      (loops.map fun l => l.2.level l.1.id) places = none) :
    (nestOf loops body).change c start first
      = (nestOf (places.filterMap (loops[·]?)) body).change c start first := by
  have hAsserted : ∀ l ∈ loops, ∀ touches, Stmt.Truthful l.1.id l.2.noDeps touches := by
    intro l hl touches
    rw [hNoDeps l hl]
    exact Stmt.truthful_nil _ _
  apply Option.ext
  intro m'
  constructor
  · exact leaves_permuted h hPlaces hObstacle fun l hl => hAsserted l hl _
  · intro hRun
    rw [change_eq_inTurn h (permuted_perm hPlaces).subset] at hRun
    rw [change_eq_inTurn h (List.Subset.refl _)]
    exact exchange_turns h hPlaces hObstacle (turns_permuted h hPlaces) (turns_permuted h hPlaces).symm
      (fun e' e hBack hForth => .inr (changePlaces_of_sublist h hPlaces hForth hBack))
      (fun l hl => hAsserted l hl _) hRun

end exchange

end LoopNest.Restructure

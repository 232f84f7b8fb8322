import Mathlib.Data.List.Nodup
import Mathlib.Data.List.Induction
import Mathlib.Data.List.Pairwise
import Mathlib.Data.List.Perm.Subperm
import LoopNest.Arena.Route

/-! # Searching tables for faults

  Reading a table begins with a search that goes through everything below the root and stops at the
  first fault (`Arena.faultFrom`).

  * **Routes** (`Arena.follow?`): what holds of the root and goes over to children holds of all that
    is reached (`Arena.Reaches.induction`).
  * **Turns**: what one step does (`Arena.faultFrom_cons`). Every turn sees a place for the first
    time, so the search ends within as many turns as there are places, also on a table with cycles
    (`Arena.turns_end`), and it is not cut off (`Arena.faultFrom_eq_fault?`).
  * **Faults**: what the search reports is the case (`Arena.shows_of_fault?`). The step lemma is
    `Arena.Routed.turn`: the search comes to everything along a route of its own.

  Main statement: the search finds nothing exactly when all routes stay in the table and no two of
  them lead to the same place (`Arena.fault?_eq_none_iff`). -/

namespace LoopNest.Arena

variable {a : Arena} {id : Nat} {route : List Nat}

@[simp] theorem follow?_nil (a : Arena) (id : Nat) : a.follow? id [] = some id := rfl

@[simp] theorem follow?_cons (a : Arena) (id k : Nat) (route : List Nat) :
    a.follow? id (k :: route) = (a.children id)[k]?.bind fun child => a.follow? child route := rfl

theorem follow?_append (a : Arena) (id : Nat) (route route' : List Nat) :
    a.follow? id (route ++ route') = (a.follow? id route).bind fun c => a.follow? c route' := by
  induction route generalizing id with
  | nil => rfl
  | cons k route ih =>
    rw [List.cons_append, follow?_cons, follow?_cons, Option.bind_assoc]
    exact Option.bind_congr fun child _ => ih child

theorem follow?_snoc (a : Arena) (id k : Nat) (route : List Nat) :
    a.follow? id (route ++ [k]) = (a.follow? id route).bind fun c => (a.children c)[k]? := by
  rw [follow?_append]
  refine Option.bind_congr fun c _ => ?_
  rw [follow?_cons]
  cases (a.children c)[k]? <;> rfl

theorem Reaches.root (a : Arena) : a.Reaches a.root := ⟨[], rfl⟩

theorem Reaches.child (h : a.Reaches id) {c : Nat} (hc : c ∈ a.children id) : a.Reaches c := by
  obtain ⟨route, hRoute⟩ := h
  obtain ⟨k, hk⟩ := List.mem_iff_getElem?.mp hc
  exact ⟨route ++ [k], by rw [follow?_snoc, hRoute]; exact hk⟩

/-- What holds of the root and of every child of a place of which it holds, holds of all places that
    are reached. -/
theorem Reaches.induction {P : Nat → Prop} (hRoot : P a.root)
    (hChild : ∀ p c, P p → c ∈ a.children p → P c) (h : a.Reaches id) : P id := by
  obtain ⟨route, hRoute⟩ := h
  -- from the end of the route, because the premise speaks of the last step
  induction route using List.reverseRecOn generalizing id with
  | nil =>
    cases hRoute
    exact hRoot
  | append_singleton route k ih =>
    rw [follow?_snoc] at hRoute
    obtain ⟨p, hp, hc⟩ := Option.bind_eq_some_iff.mp hRoute
    exact hChild p id (ih hp) (List.mem_of_getElem? hc)

/-! ## Turns -/

/-- What a turn needs, and what it does. -/
theorem turn?_eq_some {seen stack : List Nat} {s : List Nat × List Nat} :
    a.turn? (seen, stack) = some s ↔ ∃ id rest, stack = id :: rest ∧ id ∉ seen
      ∧ (∀ c ∈ a.children id, c < a.size) ∧ s = (id :: seen, (a.children id).reverse ++ rest) := by
  cases stack with
  | nil => simp [turn?]
  | cons id rest =>
    simp only [turn?, List.contains_eq_mem, Bool.or_eq_true, decide_eq_true_eq, List.any_eq_true,
      Option.ite_none_left_eq_some, Option.some.injEq, not_or, not_exists, not_and, Nat.not_le]
    constructor
    · rintro ⟨⟨hNew, hInside⟩, rfl⟩
      exact ⟨id, rest, rfl, hNew, hInside, rfl⟩
    · rintro ⟨_, _, hStack, hNew, hInside, rfl⟩
      cases hStack
      exact ⟨⟨hNew, hInside⟩, rfl⟩

/-- **One step** of the search at a place, however many steps are left: the place was seen before, a
    child of it is missing, or the search goes on to its children. -/
theorem faultFrom_cons (a : Arena) (id : Nat) (seen rest : List Nat) :
    (id ∈ seen ∧ ∀ fuel, a.faultFrom (fuel + 1) seen (id :: rest) = some (.sharedNode id))
    ∨ (∃ c ∈ a.children id, a.size ≤ c
      ∧ ∀ fuel, a.faultFrom (fuel + 1) seen (id :: rest) = some (.missingChild id c))
    ∨ (id ∉ seen ∧ (∀ c ∈ a.children id, c < a.size) ∧ ∀ fuel,
      a.faultFrom (fuel + 1) seen (id :: rest)
        = a.faultFrom fuel (id :: seen) ((a.children id).reverse ++ rest)) := by
  by_cases hSeen : id ∈ seen
  · exact .inl ⟨hSeen, fun _ => if_pos (by simpa using hSeen)⟩
  · have hContains : seen.contains id = false := by simpa using hSeen
    simp only [faultFrom, hContains, Bool.false_eq_true, if_false]
    cases hFound : (a.children id).find? (a.size ≤ ·) with
    | some c =>
      have hOutside : a.size ≤ c := by simpa using List.find?_some hFound
      exact .inr (.inl ⟨c, List.mem_of_find?_eq_some hFound, hOutside, fun _ => rfl⟩)
    | none =>
      have hInside : ∀ c ∈ a.children id, c < a.size := fun c hc => by
        simpa using List.find?_eq_none.mp hFound c hc
      exact .inr (.inr ⟨hSeen, hInside, fun _ => rfl⟩)

/-- A turn takes one of the steps of the search. -/
theorem faultFrom_of_turn {seen stack seen' stack' : List Nat}
    (h : a.turn? (seen, stack) = some (seen', stack')) (fuel : Nat) :
    a.faultFrom (fuel + 1) seen stack = a.faultFrom fuel seen' stack' := by
  obtain ⟨id, rest, rfl, hNew, hInside, hNext⟩ := turn?_eq_some.mp h
  cases hNext
  rcases faultFrom_cons a id seen rest with ⟨hSeen, -⟩ | ⟨c, hc, hOutside, -⟩ | ⟨-, -, hStep⟩
  · exact absurd hSeen hNew
  · exact absurd (hInside c hc) (Nat.not_lt.mpr hOutside)
  · exact hStep fuel

/-- When there is no turn any more, the next step ends the search. -/
theorem faultFrom_of_end {seen stack : List Nat} (h : a.turn? (seen, stack) = none)
    (fuel fuel' : Nat) : a.faultFrom (fuel + 1) seen stack = a.faultFrom (fuel' + 1) seen stack := by
  cases stack with
  | nil => rfl
  | cons id rest =>
    rcases faultFrom_cons a id seen rest with ⟨-, hFault⟩ | ⟨c, -, -, hFault⟩ | ⟨hNew, hInside, -⟩
    · rw [hFault, hFault]
    · rw [hFault, hFault]
    · -- otherwise there would be a turn
      have hTurn := turn?_eq_some.mpr ⟨id, rest, rfl, hNew, hInside, rfl⟩
      rw [h] at hTurn
      cases hTurn

/-- Numbers below a bound that are different from each other are not more than the bound. -/
theorem length_le_of_nodup {xs : List Nat} {n : Nat} (h : xs.Nodup) (hBelow : ∀ x ∈ xs, x < n) :
    xs.length ≤ n := by
  have hSubset : xs ⊆ List.range n := fun x hx => List.mem_range.mpr (hBelow x hx)
  simpa using (List.subperm_of_subset h hSubset).length_le

/-- What every turn keeps, with one more place seen each time. -/
theorem seen_of_turns {n : Nat} {seen stack : List Nat} (hRoot : a.root < a.size)
    (h : a.turns? n = some (seen, stack)) :
    seen.length = n ∧ seen.Nodup ∧ (∀ i ∈ seen, i < a.size) ∧ ∀ i ∈ stack, i < a.size := by
  induction n generalizing seen stack with
  | zero =>
    cases h
    exact ⟨rfl, List.nodup_nil, by simp, by simpa using hRoot⟩
  | succ n ih =>
    rw [turns?] at h
    obtain ⟨⟨seen', stack'⟩, hBefore, hTurn⟩ := Option.bind_eq_some_iff.mp h
    obtain ⟨hLength, hNodup, hSeen, hStack⟩ := ih hBefore
    obtain ⟨id, rest, rfl, hNew, hInside, hNext⟩ := turn?_eq_some.mp hTurn
    cases hNext
    -- only the new place and its children are not in the state before
    refine ⟨by simp [hLength], List.nodup_cons.mpr ⟨hNew, hNodup⟩, fun i hi => ?_, fun i hi => ?_⟩
    · rcases List.mem_cons.mp hi with rfl | hi
      · exact hStack i List.mem_cons_self
      · exact hSeen i hi
    · rcases List.mem_append.mp hi with hi | hi
      · exact hInside i (List.mem_reverse.mp hi)
      · exact hStack i (List.mem_cons_of_mem _ hi)

/-- **The search comes to its end**: there are no more turns than places. -/
theorem turns_end (hRoot : a.root < a.size) :
    a.turns? (a.size + 1) = none := by
  cases h : a.turns? (a.size + 1) with
  | none => rfl
  | some s =>
    obtain ⟨seen, stack⟩ := s
    -- as many different places would have been seen
    obtain ⟨hLength, hNodup, hSeen, -⟩ := seen_of_turns hRoot h
    have hBound := length_le_of_nodup hNodup hSeen
    omega

/-- After some turns the search goes on with the steps that are left. -/
theorem faultFrom_of_turns {n : Nat} {seen stack : List Nat} (h : a.turns? n = some (seen, stack))
    (fuel : Nat) : a.faultFrom (n + fuel) [] [a.root] = a.faultFrom fuel seen stack := by
  induction n generalizing seen stack fuel with
  | zero =>
    cases h
    rw [Nat.zero_add]
  | succ n ih =>
    obtain ⟨⟨seen', stack'⟩, hBefore, hTurn⟩ := Option.bind_eq_some_iff.mp h
    rw [Nat.add_right_comm, Nat.add_assoc, ih hBefore, faultFrom_of_turn hTurn]

/-- There is a last turn. -/
theorem exists_last_turn (hRoot : a.root < a.size) :
    ∃ n seen stack, n ≤ a.size ∧ a.turns? n = some (seen, stack) ∧ a.turn? (seen, stack) = none := by
  by_contra hNever
  push Not at hNever
  have hAlways : ∀ n, n ≤ a.size + 1 → a.turns? n ≠ none := by
    intro n
    induction n with
    | zero => exact fun _ => Option.some_ne_none _
    | succ n ih =>
      intro hn
      obtain ⟨⟨seen, stack⟩, hBefore⟩ := Option.ne_none_iff_exists'.mp (ih (by omega))
      rw [turns?, hBefore]
      exact hNever n seen stack (by omega) hBefore
  exact hAlways (a.size + 1) (Nat.le_refl _) (turns_end hRoot)

/-- **Steps do not matter**: allowing the search more steps does not change what it finds. -/
theorem faultFrom_eq_fault? (hRoot : a.root < a.size) {fuel : Nat} (hFuel : a.size < fuel) :
    a.faultFrom fuel [] [a.root] = a.fault? := by
  obtain ⟨n, seen, stack, hn, hTurns, hEnd⟩ := exists_last_turn hRoot
  -- both searches make the same turns, and one step is enough for what comes after the last one
  have hAfter : ∀ fuel, a.size < fuel →
      a.faultFrom fuel [] [a.root] = a.faultFrom 1 seen stack := by
    intro fuel hFuel
    obtain ⟨more, rfl⟩ : ∃ more, fuel = n + (more + 1) := ⟨fuel - n - 1, by omega⟩
    rw [faultFrom_of_turns hTurns]
    exact faultFrom_of_end hEnd more 0
  rw [fault?, if_neg (Nat.not_le.mpr hRoot), hAfter fuel hFuel, hAfter _ (Nat.lt_succ_self _)]

/-! ## No fault -/

/-- The places that a search without a fault visits: each one once, every child, and nothing else
    than what was on the stack or is a child. -/
theorem exists_visited_of_faultFrom : ∀ {fuel : Nat} {seen stack : List Nat}, seen.Nodup →
    (∀ i ∈ seen, i < a.size) → (∀ i ∈ stack, i < a.size) → a.size < fuel + seen.length →
    a.faultFrom fuel seen stack = none →
    ∃ visited : List Nat, (seen ++ visited).Nodup
      ∧ (∀ id ∈ visited, ∀ c ∈ a.children id, c < a.size)
      ∧ visited.Perm (stack ++ visited.flatMap a.children) := by
  intro fuel
  induction fuel with
  | zero =>
    -- the search does not end here: it has not seen more places than there are
    intro seen stack hNodup hSeen _ hFuel
    have hBound := length_le_of_nodup hNodup hSeen
    omega
  | succ fuel ih =>
    intro seen stack hNodup hSeen hStack hFuel hNone
    cases stack with
    | nil => exact ⟨[], by simpa using hNodup, by simp, by simp⟩
    | cons id rest =>
      rcases faultFrom_cons a id seen rest with ⟨-, hFault⟩ | ⟨c, -, -, hFault⟩
        | ⟨hNew, hInside, hStep⟩
      · rw [hFault] at hNone
        cases hNone
      · rw [hFault] at hNone
        cases hNone
      · rw [hStep] at hNone
        obtain ⟨visited, hVisited, hClosed, hPerm⟩ := ih (List.nodup_cons.mpr ⟨hNew, hNodup⟩)
          (List.forall_mem_cons.mpr ⟨hStack id List.mem_cons_self, hSeen⟩)
          (fun i hi => (List.mem_append.mp hi).elim (fun hi => hInside i (List.mem_reverse.mp hi))
            fun hi => hStack i (List.mem_cons_of_mem _ hi))
          (by rw [List.length_cons]; omega) hNone
        refine ⟨id :: visited, (List.perm_middle.nodup_iff).mpr hVisited,
          List.forall_mem_cons.mpr ⟨hInside, hClosed⟩, ?_⟩
        -- the children that went to the stack are the children of the place just seen
        have hOrder : ((a.children id).reverse ++ rest ++ visited.flatMap a.children).Perm
            (rest ++ (a.children id ++ visited.flatMap a.children)) := by
          rw [← List.append_assoc rest]
          exact (((List.reverse_perm _).append_right rest).trans List.perm_append_comm).append_right _
        exact (hPerm.trans hOrder).cons id

/-! ## Faults -/

/-- The routes along which the search has come to what it has seen and to what is on its stack.

    * **leadDone**, **leadQueue**: they lead there;
    * **different**: no two of them are the same;
    * **free**: the search has not gone on from what is on the stack. -/
structure Routed (a : Arena) (seen stack : List Nat) (done queue : List (List Nat)) : Prop where
  leadDone : done.map (a.follow? a.root) = seen.map some
  leadQueue : queue.map (a.follow? a.root) = stack.map some
  different : (done ++ queue).Nodup
  free : ∀ q ∈ queue, ∀ r ∈ done ++ queue, q <+: r → r = q

theorem Routed.start (a : Arena) : Routed a [] [a.root] [] [[]] where
  leadDone := rfl
  leadQueue := rfl
  different := by simp
  free := by simp

/-- The routes that go on from a route to the children of the place where it leads, the last child
    first. -/
def onward (a : Arena) (q : List Nat) (id : Nat) : List (List Nat) :=
  ((List.range (a.children id).length).map fun k => q ++ [k]).reverse

theorem exists_of_mem_onward {q r : List Nat} (h : r ∈ a.onward q id) : ∃ k, r = q ++ [k] := by
  obtain ⟨k, -, rfl⟩ := List.mem_map.mp (List.mem_reverse.mp h)
  exact ⟨k, rfl⟩

theorem nodup_onward (q : List Nat) (id : Nat) : (a.onward q id).Nodup := by
  rw [onward, List.nodup_reverse]
  refine List.nodup_range.map fun k k' hEq => ?_
  simpa using hEq

theorem map_follow?_onward {q : List Nat} (h : a.follow? a.root q = some id) :
    (a.onward q id).map (a.follow? a.root) = (a.children id).reverse.map some := by
  rw [onward, List.map_reverse, List.map_reverse, List.map_map]
  congr 1
  refine List.ext_getElem (by simp) fun k hk _ => ?_
  simp only [List.length_map, List.length_range] at hk
  simp [follow?_snoc, h, hk]

/-- **A turn** goes on from the place on top of the stack along the routes to its children. -/
theorem Routed.turn {seen stack q : List Nat} {done queue : List (List Nat)}
    (h : Routed a seen (id :: stack) done (q :: queue)) :
    Routed a (id :: seen) ((a.children id).reverse ++ stack) (q :: done) (a.onward q id ++ queue) := by
  -- whether the place was seen before does not matter: routes are compared, not places
  obtain ⟨hDone, hQueue, hDifferent, hFree⟩ := h
  rw [List.map_cons, List.map_cons, List.cons.injEq] at hQueue
  obtain ⟨hSelf, hOthers⟩ := List.nodup_cons.mp (List.perm_middle.nodup_iff.mp hDifferent)
  have hKept : ∀ {r}, r ∈ q :: (done ++ queue) → r ∈ done ++ q :: queue :=
    fun hr => List.perm_middle.mem_iff.mpr hr
  -- a route that goes on from `q` is neither done nor queued
  have hNew : ∀ r ∈ a.onward q id, r ∉ q :: (done ++ queue) := by
    intro r hr hMem
    obtain ⟨k, rfl⟩ := exists_of_mem_onward hr
    have hSame := hFree q List.mem_cons_self _ (hKept hMem) (List.prefix_append q [k])
    simpa using congrArg List.length hSame
  have hSplit : ∀ {r}, r ∈ q :: done ++ (a.onward q id ++ queue) →
      r ∈ a.onward q id ∨ r ∈ q :: (done ++ queue) := by
    intro r hr
    simp only [List.cons_append, List.mem_cons, List.mem_append] at hr ⊢
    tauto
  refine ⟨by rw [List.map_cons, List.map_cons, hDone, hQueue.1], ?_, ?_, ?_⟩
  · rw [List.map_append, map_follow?_onward hQueue.1, hQueue.2, List.map_append]
  · have hPerm : (q :: done ++ (a.onward q id ++ queue)).Perm
        (a.onward q id ++ (q :: (done ++ queue))) := by
      rw [← List.append_assoc, ← List.cons_append, ← List.append_assoc]
      exact List.perm_append_comm.append_right queue
    rw [hPerm.nodup_iff, List.nodup_append']
    exact ⟨nodup_onward q id, List.nodup_cons.mpr ⟨hSelf, hOthers⟩, hNew⟩
  · intro r hr r' hr' hPrefix
    rcases List.mem_append.mp hr with hr | hr
    · -- what starts with a route that goes on from `q` is one of those
      obtain ⟨k, rfl⟩ := exists_of_mem_onward hr
      rcases hSplit hr' with hr' | hr'
      · obtain ⟨k', rfl⟩ := exists_of_mem_onward hr'
        exact (hPrefix.eq_of_length (by simp)).symm
      · obtain rfl := hFree q List.mem_cons_self r' (hKept hr')
          ((List.prefix_append q [k]).trans hPrefix)
        have hLength := hPrefix.length_le
        rw [List.length_append, List.length_singleton] at hLength
        omega
    · have hStill := hFree r (List.mem_cons_of_mem q hr)
      rcases hSplit hr' with hr' | hr'
      · obtain ⟨k, rfl⟩ := exists_of_mem_onward hr'
        rcases List.prefix_concat_iff.mp hPrefix with hEq | hPrefix
        · exact hEq.symm
        · obtain rfl := hStill q (hKept List.mem_cons_self) hPrefix
          exact absurd (List.mem_append_right done hr) hSelf
      · exact hStill r' (hKept hr') hPrefix

theorem exists_route {routes : List (List Nat)} {ids : List Nat}
    (h : routes.map (a.follow? a.root) = ids.map some) (hMem : id ∈ ids) :
    ∃ route ∈ routes, a.follow? a.root route = some id := by
  have hSome : some id ∈ routes.map (a.follow? a.root) := h ▸ List.mem_map_of_mem hMem
  obtain ⟨route, hRoute, hEq⟩ := List.mem_map.mp hSome
  exact ⟨route, hRoute, hEq⟩

/-- **Faults are true**: what the search finds is the case, and it does not look at labels. -/
theorem shows_of_faultFrom {e : TreeError} : ∀ {fuel : Nat} {seen stack : List Nat}
    {done queue : List (List Nat)}, Routed a seen stack done queue →
    a.faultFrom fuel seen stack = some e → a.Shows e ∧ ∀ l, e ≠ .duplicateLabel l := by
  intro fuel
  induction fuel with
  | zero =>
    intro seen stack done queue _ h
    cases h
  | succ fuel ih =>
    intro seen stack done queue hRouted h
    cases stack with
    | nil => cases h
    | cons id rest =>
      -- the place on top of the stack has a route
      obtain ⟨q, queue, rfl⟩ : ∃ q rest, queue = q :: rest := by
        cases queue with
        | nil => cases hRouted.leadQueue
        | cons q rest => exact ⟨q, rest, rfl⟩
      have hHere : a.follow? a.root q = some id := (List.cons.inj hRouted.leadQueue).1
      rcases faultFrom_cons a id seen rest with ⟨hSeen, hFault⟩ | ⟨c, hc, hOutside, hFault⟩
        | ⟨-, -, hStep⟩
      · -- the place was seen along another route
        rw [hFault] at h
        cases h
        obtain ⟨r, hr, hThere⟩ := exists_route hRouted.leadDone hSeen
        refine ⟨⟨q, r, ?_, hHere, hThere⟩, fun l => TreeError.noConfusion⟩
        -- and this is another one, because a route is not both done and queued
        rintro rfl
        exact (List.nodup_append'.mp hRouted.different).2.2 hr List.mem_cons_self
      · rw [hFault] at h
        cases h
        exact ⟨⟨⟨q, hHere⟩, hc, hOutside⟩, fun l => TreeError.noConfusion⟩
      · rw [hStep] at h
        exact ih hRouted.turn h

theorem shows_of_fault? {e : TreeError} (h : a.fault? = some e) :
    a.Shows e ∧ ∀ l, e ≠ .duplicateLabel l := by
  unfold fault? at h
  split at h
  · rename_i hRoot
    cases h
    exact ⟨⟨rfl, rfl, hRoot⟩, fun l => TreeError.noConfusion⟩
  · exact shows_of_faultFrom (.start a) h

/-! ## Trees -/

/-- Places without a fault: each one is visited once. -/
theorem exists_visited (h : a.fault? = none) : a.root < a.size ∧ ∃ visited : List Nat,
    visited.Nodup ∧ (∀ id ∈ visited, ∀ c ∈ a.children id, c < a.size)
      ∧ visited.Perm (a.root :: visited.flatMap a.children) := by
  unfold fault? at h
  split at h
  · cases h
  · rename_i hRoot
    have hRoot : a.root < a.size := Nat.lt_of_not_le hRoot
    exact ⟨hRoot, exists_visited_of_faultFrom List.nodup_nil (by simp) (by simpa using hRoot)
      (by simp) h⟩

/-- When every place is visited once, it is reached along one route. -/
theorem route_unique {visited : List Nat} (hNodup : visited.Nodup)
    (hPerm : visited.Perm (a.root :: visited.flatMap a.children)) : ∀ {route route' : List Nat},
    a.follow? a.root route = some id → a.follow? a.root route' = some id → route = route' := by
  obtain ⟨hOrphan, hChildren⟩ := List.nodup_cons.mp (hPerm.nodup hNodup)
  obtain ⟨hEach, hApart⟩ := List.nodup_flatMap.mp hChildren
  have hVisited : ∀ {p}, a.Reaches p → p ∈ visited := fun hp => by
    refine hp.induction (hPerm.symm.subset List.mem_cons_self) fun p c hp hc => ?_
    exact hPerm.symm.subset (List.mem_cons_of_mem _ (List.mem_flatMap.mpr ⟨p, hp, hc⟩))
  -- the root is no child
  have hNoChild : ∀ {route k}, a.follow? a.root (route ++ [k]) ≠ some a.root := by
    intro route k hRoute
    rw [follow?_snoc] at hRoute
    obtain ⟨p, hp, hc⟩ := Option.bind_eq_some_iff.mp hRoute
    exact hOrphan (List.mem_flatMap.mpr ⟨p, hVisited ⟨route, hp⟩, List.mem_of_getElem? hc⟩)
  -- both routes are taken back step by step, from the place where they meet
  intro route
  induction route using List.reverseRecOn generalizing id with
  | nil =>
    intro route' h h'
    cases h
    induction route' using List.reverseRecOn with
    | nil => rfl
    | append_singleton route' k _ => exact absurd h' hNoChild
  | append_singleton route k ih =>
    intro route' h h'
    induction route' using List.reverseRecOn with
    | nil =>
      cases h'
      exact absurd h hNoChild
    | append_singleton route' k' _ =>
      rw [follow?_snoc] at h h'
      obtain ⟨p, hp, hc⟩ := Option.bind_eq_some_iff.mp h
      obtain ⟨p', hp', hc'⟩ := Option.bind_eq_some_iff.mp h'
      -- two parents would share a child
      obtain rfl : p = p' := by
        by_contra hne
        have hSymm : Std.Symm (Function.onFun List.Disjoint a.children) :=
          ⟨fun _ _ h _ hx hy => h hy hx⟩
        exact hApart.forall (hVisited ⟨_, hp⟩) (hVisited ⟨_, hp'⟩) hne (List.mem_of_getElem? hc)
          (List.mem_of_getElem? hc')
      -- a parent would have it twice
      obtain rfl : k = k' := by
        obtain ⟨hk, hEq⟩ := List.getElem?_eq_some_iff.mp hc
        obtain ⟨hk', hEq'⟩ := List.getElem?_eq_some_iff.mp hc'
        exact (hEach p (hVisited ⟨_, hp⟩)).getElem_inj_iff.mp (hEq.trans hEq'.symm)
      rw [ih hp hp']

/-- **No fault**: the search finds nothing exactly when routes stay in the table and no two of them
    lead to the same place. -/
theorem fault?_eq_none_iff : a.fault? = none ↔ (∀ id, a.Reaches id → id < a.size)
    ∧ ∀ route route' id, a.follow? a.root route = some id → a.follow? a.root route' = some id →
      route = route' := by
  constructor
  · intro h
    obtain ⟨hRoot, visited, hNodup, hClosed, hPerm⟩ := exists_visited h
    -- what is reached was visited, so it is in the table
    refine ⟨fun id hId => ?_, fun route route' id => route_unique hNodup hPerm⟩
    have hBoth : id ∈ visited ∧ id < a.size := by
      refine hId.induction (P := fun id => id ∈ visited ∧ id < a.size)
        ⟨hPerm.symm.subset List.mem_cons_self, hRoot⟩ ?_
      rintro p c ⟨hp, -⟩ hc
      exact ⟨hPerm.symm.subset (List.mem_cons_of_mem _ (List.mem_flatMap.mpr ⟨p, hp, hc⟩)),
        hClosed p hp c hc⟩
    exact hBoth.2
  · rintro ⟨hInside, hOnce⟩
    cases h : a.fault? with
    | none => rfl
    | some e =>
      -- what the fault says is not the case
      obtain ⟨hShows, hNoLabel⟩ := shows_of_fault? h
      cases e with
      | missingRoot root size =>
        obtain ⟨-, -, hRoot⟩ := hShows
        exact absurd (hInside _ (.root a)) (Nat.not_lt.mpr hRoot)
      | missingChild node child =>
        obtain ⟨hNode, hChild, hOutside⟩ := hShows
        exact absurd (hInside _ (hNode.child hChild)) (Nat.not_lt.mpr hOutside)
      | sharedNode node =>
        obtain ⟨route, route', hNe, hRoute, hRoute'⟩ := hShows
        exact absurd (hOnce _ _ _ hRoute hRoute') hNe
      | duplicateLabel l => exact absurd rfl (hNoLabel l)
      | duplicateFunction f => exact hShows.elim

end LoopNest.Arena

import LoopNest.Proofs.CommittedPrograms
import LoopNest.Proofs.SearchedTables

/-! # Tables that are read

  A table is read as a program when it holds a tree with different labels. The program is numbered in
  pre-order and has a table of its own; this module compares the two tables by their routes.

  * **Statements along routes** (`Stmt.at?`): in pre-order the first of two routes leads to the
    smaller number (`Stmt.id_lt_of_route_lt`).
  * **Moved statements** (`Stmt.moved`): a program is numbered by moving every number to its position
    (`Stmt.numberFrom_eq_moved`).
  * **The tree of a table**: without a fault, its routes are those of the table and its statements
    are the entries (`Arena.at?_tree`, `Arena.entry_of_at?_tree`). It is not cut off, because a
    route in a tree is shorter than the table (`Arena.length_lt_of_follow?`).

  Main statement: what is accepted, and what is read then (`Arena.read_iff_isTree`). -/

namespace LoopNest

namespace Stmt

/-! ## Statements along routes -/

/-- The statement that a route leads to. -/
def at? : (t : Stmt) → (route : List Nat) → Option Stmt
  | t, [] => some t
  | t, k :: route => t.children[k]?.bind fun u => at? u route

variable {t u v : Stmt}

@[simp] theorem at?_nil (t : Stmt) : t.at? [] = some t := rfl

@[simp] theorem at?_cons (t : Stmt) (k : Nat) (route : List Nat) :
    t.at? (k :: route) = t.children[k]?.bind fun u => u.at? route := rfl

theorem mem_nodes_of_at? {route : List Nat} (h : t.at? route = some u) : u ∈ t.nodes := by
  induction route generalizing t with
  | nil =>
    cases h
    exact self_mem_nodes u
  | cons k route ih =>
    obtain ⟨c, hc, hu⟩ := Option.bind_eq_some_iff.mp h
    exact mem_nodes_of_child (List.mem_of_getElem? hc) (ih hu)

/-- A route leads to every statement. -/
theorem exists_at?_of_mem : ∀ t : Stmt, u ∈ t.nodes → ∃ route, t.at? route = some u := by
  refine children_ind fun t ih hu => ?_
  rw [nodes_eq_cons, List.mem_cons] at hu
  rcases hu with rfl | hu
  · exact ⟨[], rfl⟩
  · obtain ⟨c, hc, hu⟩ := List.mem_flatMap.mp hu
    obtain ⟨route, hRoute⟩ := ih c hc hu
    obtain ⟨k, hk⟩ := List.mem_iff_getElem?.mp hc
    exact ⟨k :: route, by rw [at?_cons, hk]; exact hRoute⟩

/-- When routes lead to different numbers, the numbers of all statements are different. -/
theorem nodup_ids_of_at? : ∀ t : Stmt,
    (∀ route route' u v, t.at? route = some u → t.at? route' = some v → u.id = v.id →
      route = route') → t.ids.Nodup := by
  refine children_ind fun t ih hRoutes => ?_
  -- routes to what is below a child start with its position
  have hBelow : ∀ {k c u}, t.children[k]? = some c → u ∈ c.nodes →
      ∃ route, t.at? (k :: route) = some u := by
    intro k c u hc hu
    obtain ⟨route, hRoute⟩ := exists_at?_of_mem c hu
    exact ⟨route, by rw [at?_cons, hc]; exact hRoute⟩
  rw [ids_eq_cons, List.nodup_cons, List.nodup_flatMap]
  refine ⟨fun hSelf => ?_, fun c hc => ih c hc fun route route' u v hu hv hId => ?_, ?_⟩
  · -- the statement itself is at the empty route
    obtain ⟨c, hc, hSelf⟩ := List.mem_flatMap.mp hSelf
    obtain ⟨u, hu, hId⟩ := List.mem_map.mp hSelf
    obtain ⟨k, hk⟩ := List.mem_iff_getElem?.mp hc
    obtain ⟨route, hRoute⟩ := hBelow hk hu
    cases hRoutes _ _ _ _ hRoute (at?_nil t) hId
  · obtain ⟨k, hk⟩ := List.mem_iff_getElem?.mp hc
    have hAt : ∀ route, t.at? (k :: route) = c.at? route := fun route => by rw [at?_cons, hk]; rfl
    exact (List.cons.inj (hRoutes _ _ _ _ ((hAt route).trans hu) ((hAt route').trans hv) hId)).2
  · -- what two children share has routes that start differently
    rw [List.pairwise_iff_getElem]
    intro j k hj hk hLess i hi hi'
    obtain ⟨u, hu, rfl⟩ := List.mem_map.mp hi
    obtain ⟨v, hv, hId⟩ := List.mem_map.mp hi'
    obtain ⟨route, hRoute⟩ := hBelow (List.getElem?_eq_getElem hj) hu
    obtain ⟨route', hRoute'⟩ := hBelow (List.getElem?_eq_getElem hk) hv
    have hSame := (List.cons.inj (hRoutes _ _ _ _ hRoute hRoute' hId.symm)).1
    omega

/-- In a program whose numbers grow in pre-order a route that comes first leads to a smaller number. -/
theorem id_lt_of_route_lt : ∀ {t : Stmt} {route route' : List Nat}, t.ids.Pairwise (· < ·) →
    t.at? route = some u → t.at? route' = some v → route < route' → u.id < v.id := by
  intro t route
  induction route generalizing t with
  | nil =>
    intro route' hIds hu hv hLess
    cases hu
    cases route' with
    | nil => exact absurd hLess (List.lt_irrefl _)
    | cons k route' =>
      -- a statement comes before all that is below it
      obtain ⟨c, hc, hv⟩ := Option.bind_eq_some_iff.mp hv
      rw [ids_eq_cons, List.pairwise_cons] at hIds
      exact hIds.1 _ (List.mem_flatMap.mpr ⟨c, List.mem_of_getElem? hc,
        List.mem_map_of_mem (mem_nodes_of_at? hv)⟩)
  | cons j route ih =>
    intro route' hIds hu hv hLess
    cases route' with
    | nil => exact absurd hLess (List.not_lt_nil _)
    | cons k route' =>
      obtain ⟨c, hc, hu⟩ := Option.bind_eq_some_iff.mp hu
      obtain ⟨d, hd, hv⟩ := Option.bind_eq_some_iff.mp hv
      rw [ids_eq_cons, List.pairwise_cons, List.pairwise_flatMap] at hIds
      obtain ⟨-, hEach, hAcross⟩ := hIds
      obtain ⟨hj, hEq⟩ := List.getElem?_eq_some_iff.mp hc
      obtain ⟨hk, hEq'⟩ := List.getElem?_eq_some_iff.mp hd
      rcases List.cons_lt_cons_iff.mp hLess with hLess | ⟨rfl, hRest⟩
      · -- all of the earlier child comes before all of the later one
        refine List.pairwise_iff_getElem.mp hAcross j k hj hk hLess _ ?_ _ ?_
        · rw [hEq]
          exact List.mem_map_of_mem (mem_nodes_of_at? hu)
        · rw [hEq']
          exact List.mem_map_of_mem (mem_nodes_of_at? hv)
      · obtain rfl := hEq.symm.trans hEq'
        exact ih (hEach c (List.mem_of_getElem? hc)) hu hv hRest

/-! ## Moved statements -/

/-- The program with other numbers. -/
def moved (place : Nat → Nat) (t : Stmt) : Stmt :=
  t.bottomUp fun u => u.withSite { u.site with id := place u.id }

section moved

variable (place : Nat → Nat) (t : Stmt)

theorem moved_eq : t.moved place
    = (t.mapChildren (moved place)).withSite { t.site with id := place t.id } := by
  unfold moved
  rw [bottomUp_eq]
  cases t <;> rfl

@[simp] theorem id_moved : (t.moved place).id = place t.id := by
  rw [moved_eq]
  cases t <;> rfl

@[simp] theorem label?_moved : (t.moved place).label? = t.label? := by
  rw [moved_eq]
  cases t <;> rfl

@[simp] theorem children_moved : (t.moved place).children = t.children.map (moved place) := by
  rw [moved_eq]
  cases t <;> rfl

theorem nodes_moved : ∀ t : Stmt, (t.moved place).nodes = t.nodes.map (moved place) := by
  refine children_ind fun t ih => ?_
  rw [nodes_eq_cons, nodes_eq_cons t, List.map_cons, inside, inside, children_moved,
    List.flatMap_map, List.map_flatMap, List.flatMap_congr ih]

/-- The entry of a moved statement refers to its children where they are now. -/
theorem ofStmt_moved : Node.ofStmt (t.moved place)
    = { Node.ofStmt t with kind := (NodeKind.ofStmt t).mapChildren place } := by
  rw [Node.ofStmt, label?_moved]
  congr 1
  rw [moved_eq]
  cases t <;> simp [mapChildren, withSite, NodeKind.ofStmt, NodeKind.mapChildren]

theorem at?_moved (route : List Nat) :
    (t.moved place).at? route = (t.at? route).map (moved place) := by
  induction route generalizing t with
  | nil => rfl
  | cons k route ih =>
    rw [at?_cons, at?_cons, children_moved, List.getElem?_map]
    cases t.children[k]? with
    | none => rfl
    | some c => exact ih c

end moved

theorem numberAllFrom_eq_moved {place : Nat → Nat} {ts : List Stmt}
    (ih : ∀ t ∈ ts, ∀ n, t.ids.map place = List.range' n t.size → (t.numberFrom n).1 = t.moved place)
    {n : Nat} (h : (ts.flatMap ids).map place = List.range' n (ts.flatMap nodes).length) :
    (numberAllFrom n ts).1 = ts.map (moved place) := by
  induction ts generalizing n with
  | nil => rfl
  | cons t ts ihList =>
    simp only [List.flatMap_cons, List.map_append, List.length_append] at h
    rw [← List.range'_append_1] at h
    obtain ⟨hHead, hTail⟩ := List.append_inj h (by simp [ids])
    show (t.numberFrom n).1 :: (numberAllFrom (t.numberFrom n).2 ts).1 = _
    have hRest := ihList (fun u hu => ih u (List.mem_cons_of_mem t hu)) hTail
    rw [(numberFrom_ids t n).2, ih t List.mem_cons_self n hHead]
    exact congrArg _ hRest

/-- Positions from `n` on: the statement itself comes first, then everything below it. -/
theorem map_ids_eq_range' {place : Nat → Nat} {t : Stmt} {n : Nat}
    (h : t.ids.map place = List.range' n t.size) : place t.id = n
      ∧ (t.children.flatMap ids).map place = List.range' (n + 1) (t.children.flatMap nodes).length := by
  rw [ids_eq_cons, size, nodes_eq_cons, List.map_cons, List.length_cons, List.range'_succ,
    List.cons.injEq] at h
  exact h

/-- **Numbering moves**: a program is numbered by moving every number to its position. -/
theorem numberFrom_eq_moved {place : Nat → Nat} : ∀ (t : Stmt) (n : Nat),
    t.ids.map place = List.range' n t.size → (t.numberFrom n).1 = t.moved place := by
  -- a case for each constructor: `numberFrom` counts on from child to child
  refine Stmt.ind ?_ ?_ ?_ ?_ ?_ ?_ ?_ ?_
  · intro s name b body ih n h
    obtain ⟨hSelf, hBelow⟩ := map_ids_eq_range' h
    have hBody := ih (n + 1) (by simpa [children, size] using hBelow)
    rw [moved_eq, hSelf]
    exact congrArg (Stmt.decl { s with id := n } name b) hBody
  · intro s head body ih n h
    obtain ⟨hSelf, hBelow⟩ := map_ids_eq_range' h
    have hBody := ih (n + 1) (by simpa [children, size] using hBelow)
    rw [moved_eq, hSelf]
    exact congrArg (Stmt.loop { s with id := n } head) hBody
  · intro s c body ih n h
    obtain ⟨hSelf, hBelow⟩ := map_ids_eq_range' h
    have hBody := ih (n + 1) (by simpa [children, size] using hBelow)
    rw [moved_eq, hSelf]
    exact congrArg (Stmt.guard { s with id := n } c) hBody
  · intro s c yes no ihYes ihNo n h
    obtain ⟨hSelf, hBelow⟩ := map_ids_eq_range' h
    -- the other case is numbered from where the first one ends
    have hBoth : yes.ids.map place ++ no.ids.map place
        = List.range' (n + 1) yes.size ++ List.range' (n + 1 + yes.size) no.size := by
      rw [List.range'_append_1]
      simpa [children, size] using hBelow
    obtain ⟨hFirst, hSecond⟩ := List.append_inj hBoth (by simp [ids, size])
    have hYes := ihYes (n + 1) hFirst
    have hNo := ihNo (n + 1 + yes.size) hSecond
    rw [moved_eq, hSelf]
    show Stmt.branch { s with id := n } c (yes.numberFrom (n + 1)).1
      (no.numberFrom (yes.numberFrom (n + 1)).2).1 = _
    rw [(numberFrom_ids yes (n + 1)).2, hYes, hNo]
    rfl
  · intro s b is e n h
    rw [moved_eq, (map_ids_eq_range' h).1]
    rfl
  · intro s f args n h
    rw [moved_eq, (map_ids_eq_range' h).1]
    rfl
  · intro s ts ih n h
    obtain ⟨hSelf, hBelow⟩ := map_ids_eq_range' h
    rw [moved_eq, hSelf]
    exact congrArg (Stmt.block { s with id := n }) (numberAllFrom_eq_moved ih hBelow)
  · intro s n h
    rw [moved_eq, (map_ids_eq_range' h).1]
    rfl

/-- The position of something among different things. -/
theorem map_idxOf {α : Type} [DecidableEq α] {ids : List α} (h : ids.Nodup) :
    ids.map ids.idxOf = List.range ids.length := by
  refine List.ext_getElem (by simp) fun k hk _ => ?_
  simp only [List.length_map] at hk
  simp [h.idxOf_getElem k hk]

theorem number_eq_moved {t : Stmt} (h : t.ids.Nodup) : t.number = t.moved t.ids.idxOf := by
  refine numberFrom_eq_moved t 0 ?_
  rw [map_idxOf h, List.range_eq_range', ids, List.length_map]
  rfl

theorem mapChildren_eq_self {f : Stmt → Stmt} {t : Stmt} (h : ∀ u ∈ t.children, f u = u) :
    t.mapChildren f = t := by
  cases t with
  | block s ts =>
    have hAll : ts.map f = ts := (List.map_congr_left h).trans (List.map_id' ts)
    rw [mapChildren, hAll]
  | branch s c yes no => rw [mapChildren, h yes (by simp [children]), h no (by simp [children])]
  | decl s n b body => rw [mapChildren, h body (by simp [children])]
  | loop s head body => rw [mapChildren, h body (by simp [children])]
  | guard s c body => rw [mapChildren, h body (by simp [children])]
  | _ => rfl

theorem moved_id : ∀ t : Stmt, t.moved (fun i => i) = t := by
  refine children_ind fun t ih => ?_
  rw [moved_eq, mapChildren_eq_self ih]
  cases t <;> rfl

/-- A program that is numbered already stays as it is. -/
theorem number_eq_self {t : Stmt} (h : t.ids = List.range t.size) : t.number = t := by
  have hPlaces : t.ids.map (fun i => i) = List.range' 0 t.size := by
    rw [List.map_id', h, List.range_eq_range']
  rw [number, numberFrom_eq_moved t 0 hPlaces, moved_id]

theorem Committed.number_eq {t : Stmt} (h : t.Committed) : t.number = t := number_eq_self h.ids

/-! ## Repeated labels -/

/-- What is said to be repeated is there, and was there before. -/
theorem split_of_repeated? {l : String} : ∀ {labels seen : List String},
    repeated? seen labels = some l → ∃ before after, labels = before ++ l :: after
      ∧ (l ∈ seen ∨ l ∈ before) := by
  intro labels
  induction labels with
  | nil => exact fun h => nomatch h
  | cons l' labels ih =>
    intro seen h
    rw [repeated?] at h
    split at h
    · rename_i hSeen
      cases h
      exact ⟨[], labels, rfl, .inl (by simpa using hSeen)⟩
    · obtain ⟨before, after, rfl, hMem⟩ := ih h
      refine ⟨l' :: before, after, rfl, ?_⟩
      rcases hMem with hMem | hMem
      · rcases List.mem_cons.mp hMem with rfl | hMem
        · exact .inr List.mem_cons_self
        · exact .inl hMem
      · exact .inr (List.mem_cons_of_mem l' hMem)

end Stmt

/-! ## Statements of a table -/

namespace NodeKind

@[simp] theorem site_toStmt (site : Site) (child : Nat → Stmt) (k : NodeKind) :
    (k.toStmt site child).site = site := by
  cases k with
  | cond c yes no => cases no <;> rfl
  | _ => rfl

@[simp] theorem children_toStmt (site : Site) (child : Nat → Stmt) (k : NodeKind) :
    (k.toStmt site child).children = k.children.map child := by
  cases k with
  | cond c yes no => cases no <;> rfl
  | _ => rfl

/-- A statement built from an entry has this entry, when its children are where the entry says. -/
theorem ofStmt_toStmt {site : Site} {child : Nat → Stmt} (h : ∀ c, (child c).id = c) (k : NodeKind) :
    NodeKind.ofStmt (k.toStmt site child) = k := by
  cases k with
  | cond c yes no => cases no <;> simp [toStmt, ofStmt, h]
  | block cs =>
    have hAll : (cs.map child).map Stmt.id = cs := by
      rw [List.map_map]
      exact (List.map_congr_left fun c _ => h c).trans (List.map_id' cs)
    exact congrArg NodeKind.block hAll
  | decl n b body => simp [toStmt, ofStmt, h]
  | loop head body => simp [toStmt, ofStmt, h]
  | _ => rfl

end NodeKind

namespace Arena

variable {a : Arena} {id : Nat}

@[simp] theorem id_unfold (a : Arena) (depth id : Nat) : (a.unfold depth id).id = id := by
  cases depth with
  | zero => rfl
  | succ depth =>
    rw [unfold, Stmt.id]
    split
    · rw [NodeKind.site_toStmt]
    · rfl

theorem children_unfold (a : Arena) (depth id : Nat) :
    (a.unfold (depth + 1) id).children = (a.children id).map (a.unfold depth) := by
  rw [unfold, children, kind]
  cases a.nodes[id]? with
  | none => rfl
  | some n => exact NodeKind.children_toStmt _ _ n.kind

/-- What is read at a place has the entry of the place. -/
theorem ofStmt_unfold {n : Node} (h : a.nodes[id]? = some n) (depth : Nat) :
    Node.ofStmt (a.unfold (depth + 1) id) = n := by
  rw [unfold, h, Node.ofStmt, Stmt.label?, NodeKind.site_toStmt,
    NodeKind.ofStmt_toStmt (id_unfold a depth)]

/-- Routes of what is read at a place are routes of the table. -/
theorem at?_unfold : ∀ (route : List Nat) (depth id : Nat), route.length ≤ depth →
    (a.unfold depth id).at? route = (a.follow? id route).map (a.unfold (depth - route.length)) := by
  intro route
  induction route with
  | nil => exact fun _ _ _ => rfl
  | cons k route ih =>
    intro depth id hLength
    obtain ⟨depth, rfl⟩ : ∃ d, depth = d + 1 := ⟨depth - 1, by simp at hLength; omega⟩
    rw [Stmt.at?_cons, children_unfold, List.getElem?_map, follow?_cons]
    cases (a.children id)[k]? with
    | none => rfl
    | some c =>
      have hRest := ih depth c (Nat.le_of_succ_le_succ hLength)
      rw [List.length_cons, Nat.add_sub_add_right]
      exact hRest

/-- Nothing is read below the depth. -/
theorem length_le_of_at?_unfold : ∀ {route : List Nat} {depth id : Nat} {u : Stmt},
    (a.unfold depth id).at? route = some u → route.length ≤ depth := by
  intro route
  induction route with
  | nil => exact fun _ => Nat.zero_le _
  | cons k route ih =>
    intro depth id u h
    cases depth with
    | zero => cases h
    | succ depth =>
      rw [Stmt.at?_cons, children_unfold, List.getElem?_map] at h
      cases hChild : (a.children id)[k]? with
      | none =>
        rw [hChild] at h
        cases h
      | some c =>
        rw [hChild] at h
        exact Nat.succ_le_succ (ih h)

/-! ## The tree of a table -/

/-- A route in a tree is shorter than the table is long: all places on its way are different. -/
theorem length_lt_of_follow? (hInside : ∀ id, a.Reaches id → id < a.size)
    (hOnce : ∀ route route' id, a.follow? a.root route = some id →
      a.follow? a.root route' = some id → route = route')
    {route : List Nat} (h : a.follow? a.root route = some id) : route.length < a.size := by
  -- the beginnings of the route lead to as many places, which are different and in the table
  have hWay : ∀ n, ∃ p, a.follow? a.root (route.take n) = some p := by
    intro n
    rw [← List.take_append_drop n route, follow?_append] at h
    obtain ⟨p, hp, -⟩ := Option.bind_eq_some_iff.mp h
    exact ⟨p, hp⟩
  choose way hWay using hWay
  have hDifferent : ((List.range (route.length + 1)).map way).Nodup := by
    refine List.Nodup.map_on (fun n hn n' hn' hEq => ?_) List.nodup_range
    have hSame := hOnce _ _ _ (hWay n) (hEq ▸ hWay n')
    rw [List.mem_range] at hn hn'
    have hLength := congrArg List.length hSame
    rw [List.length_take, List.length_take] at hLength
    omega
  have hBound := length_le_of_nodup hDifferent (n := a.size) fun p hp => by
    obtain ⟨n, -, rfl⟩ := List.mem_map.mp hp
    exact hInside _ ⟨_, hWay n⟩
  simpa using hBound

/-- **The tree**: in a table without a fault, routes of the tree are routes of the table. -/
theorem at?_tree (h : a.fault? = none) (route : List Nat) :
    a.tree.at? route = (a.follow? a.root route).map (a.unfold (a.size - route.length)) := by
  obtain ⟨hInside, hOnce⟩ := fault?_eq_none_iff.mp h
  rcases Nat.le_total route.length a.size with hLength | hLength
  · exact at?_unfold route a.size a.root hLength
  · -- a longer route leads nowhere, neither in the table nor in the tree
    cases hFollow : a.follow? a.root route with
    | some id =>
      have hShort := length_lt_of_follow? hInside hOnce hFollow
      omega
    | none =>
      cases hAt : a.tree.at? route with
      | none => rfl
      | some u =>
        have hExact : a.tree.at? route = _ :=
          at?_unfold route a.size a.root (length_le_of_at?_unfold (a := a) hAt)
        rw [hAt, hFollow] at hExact
        cases hExact

/-- What a route of the tree leads to has the entry of the place where the route leads. -/
theorem entry_of_at?_tree (h : a.fault? = none) {route : List Nat} {u : Stmt}
    (hAt : a.tree.at? route = some u) :
    a.follow? a.root route = some u.id ∧ a.nodes[u.id]? = some (Node.ofStmt u) := by
  obtain ⟨hInside, hOnce⟩ := fault?_eq_none_iff.mp h
  rw [at?_tree h] at hAt
  obtain ⟨id, hFollow, rfl⟩ := Option.map_eq_some_iff.mp hAt
  rw [id_unfold]
  refine ⟨hFollow, ?_⟩
  -- some depth is left there, so that the entry was read
  have hLength := length_lt_of_follow? hInside hOnce hFollow
  have hPlace : id < a.nodes.size := hInside id ⟨route, hFollow⟩
  have hNode : a.nodes[id]? = some a.nodes[id] := Array.getElem?_eq_getElem hPlace
  obtain ⟨depth, hDepth⟩ : ∃ d, a.size - route.length = d + 1 := ⟨a.size - route.length - 1, by omega⟩
  rw [hDepth, ofStmt_unfold hNode, hNode]

theorem entry_of_mem_tree (h : a.fault? = none) {u : Stmt} (hu : u ∈ a.tree.nodes) :
    a.Reaches u.id ∧ a.nodes[u.id]? = some (Node.ofStmt u) := by
  obtain ⟨route, hRoute⟩ := Stmt.exists_at?_of_mem _ hu
  obtain ⟨hFollow, hEntry⟩ := entry_of_at?_tree h hRoute
  exact ⟨⟨route, hFollow⟩, hEntry⟩

/-- Every place that is reached is in the tree. -/
theorem exists_of_reaches (h : a.fault? = none) (hId : a.Reaches id) :
    ∃ u ∈ a.tree.nodes, u.id = id := by
  obtain ⟨route, hRoute⟩ := hId
  have hAt := at?_tree h route
  rw [hRoute, Option.map_some] at hAt
  exact ⟨_, Stmt.mem_nodes_of_at? hAt, id_unfold a _ _⟩

theorem nodup_ids_tree (h : a.fault? = none) : a.tree.ids.Nodup := by
  refine Stmt.nodup_ids_of_at? _ fun route route' u v hu hv hId => ?_
  have hu := (entry_of_at?_tree h hu).1
  have hv := (entry_of_at?_tree h hv).1
  exact (fault?_eq_none_iff.mp h).2 _ _ _ hu (hId ▸ hv)

theorem label?_of_mem_tree (h : a.fault? = none) {u : Stmt} (hu : u ∈ a.tree.nodes) :
    a.label? u.id = u.label? := by
  rw [label?, (entry_of_mem_tree h hu).2]
  rfl

/-- Labels of the tree are different when those of the places reached are. -/
theorem nodup_labels_tree_iff (h : a.fault? = none) : a.tree.labels.Nodup ↔
    ∀ id id' l, a.Reaches id → a.Reaches id' → a.label? id = some l → a.label? id' = some l →
      id = id' := by
  constructor
  · intro hLabels id id' l hId hId' hl hl'
    obtain ⟨u, hu, rfl⟩ := exists_of_reaches h hId
    obtain ⟨v, hv, rfl⟩ := exists_of_reaches h hId'
    rw [label?_of_mem_tree h hu] at hl
    rw [label?_of_mem_tree h hv] at hl'
    rw [Stmt.eq_of_label? hLabels hu hv hl hl']
  · -- different statements of the tree are at different places
    intro hLabels
    have hNodes : a.tree.nodes.Nodup := List.Nodup.of_map _ (nodup_ids_tree h)
    refine List.pairwise_filterMap.mpr (hNodes.imp_of_mem fun {u v} hu hv hne l hl l' hl' hEq => ?_)
    subst hEq
    rw [← label?_of_mem_tree h hu] at hl
    rw [← label?_of_mem_tree h hv] at hl'
    refine hne (List.inj_on_of_nodup_map (nodup_ids_tree h) hu hv ?_)
    exact hLabels _ _ l (entry_of_mem_tree h hu).1 (entry_of_mem_tree h hv).1 hl hl'

/-! ## Reading -/

theorem program?_eq_ok {t : Stmt} : a.program? = .ok t ↔
    a.fault? = none ∧ a.tree.labels.Nodup ∧ t = a.tree.number := by
  unfold program?
  cases h : a.fault? with
  | none => simp [Stmt.commit_eq_ok]
  | some e => simp

/-- **Accepted tables** are trees with different labels. -/
theorem exists_program?_iff : (∃ t, a.program? = .ok t) ↔ a.IsTree := by
  constructor
  · rintro ⟨t, ht⟩
    obtain ⟨hFault, hLabels, -⟩ := program?_eq_ok.mp ht
    obtain ⟨hInside, hOnce⟩ := fault?_eq_none_iff.mp hFault
    exact ⟨hInside, hOnce, (nodup_labels_tree_iff hFault).mp hLabels⟩
  · intro h
    have hFault := fault?_eq_none_iff.mpr ⟨h.inside, h.once⟩
    exact ⟨_, program?_eq_ok.mpr ⟨hFault, (nodup_labels_tree_iff hFault).mpr h.labels, rfl⟩⟩

/-- Routes of the table of a numbered program are routes of the program. -/
theorem follow?_toArena {t : Stmt} (hIds : t.ids = List.range t.size) : ∀ (route : List Nat)
    {u : Stmt}, u ∈ t.nodes → t.toArena.follow? u.id route = (u.at? route).map Stmt.id := by
  intro route
  induction route with
  | nil => exact fun _ => rfl
  | cons k route ih =>
    intro u hu
    rw [follow?_cons, Stmt.at?_cons, Stmt.children_toArena hIds hu, List.getElem?_map]
    cases hChild : u.children[k]? with
    | none => rfl
    | some c =>
      have hc := List.mem_of_getElem? hChild
      exact ih (Stmt.mem_nodes_trans (Stmt.mem_nodes_of_child hc (Stmt.self_mem_nodes c)) hu)

/-- **The same tree**: what is read is the tree of the table, and every place is moved to its position
    in pre-order. -/
theorem renumbers_of_program? {t : Stmt} (ht : a.program? = .ok t) :
    a.Renumbers a.walk.idxOf t.toArena := by
  obtain ⟨hFault, hLabels, hNumber⟩ := program?_eq_ok.mp ht
  have hCommitted := Stmt.committed_of_program? ht
  have hMoved : t = a.tree.moved a.walk.idxOf :=
    hNumber.trans (Stmt.number_eq_moved (nodup_ids_tree hFault))
  have hNodes : t.nodes = a.tree.nodes.map (Stmt.moved a.walk.idxOf) := by
    rw [hMoved, Stmt.nodes_moved]
  refine ⟨fun route => ?_, fun id hId => ?_, fun k hk => ?_⟩
  · show t.toArena.follow? t.id route = _
    rw [follow?_toArena hCommitted.ids route (Stmt.self_mem_nodes t), hMoved, Stmt.at?_moved,
      at?_tree hFault]
    cases a.follow? a.root route with
    | none => rfl
    | some id => simp
  · obtain ⟨u, hu, rfl⟩ := exists_of_reaches hFault hId
    have hMem : u.moved a.walk.idxOf ∈ t.nodes := hNodes ▸ List.mem_map_of_mem hu
    have hEntry := Stmt.nodes_toArena hCommitted.ids hMem
    rw [Stmt.id_moved] at hEntry
    rw [hEntry, (entry_of_mem_tree hFault hu).2, Stmt.ofStmt_moved]
    rfl
  · rw [Stmt.size_toArena] at hk
    obtain ⟨w, hw, rfl⟩ := Stmt.exists_of_lt_size hCommitted.ids hk
    rw [hNodes] at hw
    obtain ⟨u, hu, rfl⟩ := List.mem_map.mp hw
    exact ⟨u.id, (entry_of_mem_tree hFault hu).1, by rw [Stmt.id_moved]⟩

/-- **Pre-order**: in the table of a committed program the first of two routes leads to the smaller
    place. -/
theorem lt_iff_route_lt {t : Stmt} (h : t.Committed) {route route' : List Nat} {i j : Nat}
    (hi : t.toArena.follow? t.id route = some i) (hj : t.toArena.follow? t.id route' = some j) :
    i < j ↔ route < route' := by
  have hGrow : t.ids.Pairwise (· < ·) := h.ids ▸ List.pairwise_lt_range
  rw [follow?_toArena h.ids _ (Stmt.self_mem_nodes t)] at hi hj
  obtain ⟨u, hu, rfl⟩ := Option.map_eq_some_iff.mp hi
  obtain ⟨v, hv, rfl⟩ := Option.map_eq_some_iff.mp hj
  constructor
  · -- routes are compared by a total order, so the other two cases are refuted
    intro hLess
    rcases lt_trichotomy route route' with hRoutes | rfl | hRoutes
    · exact hRoutes
    · rw [hu] at hv
      cases hv
      exact absurd hLess (Nat.lt_irrefl _)
    · exact absurd (Stmt.id_lt_of_route_lt hGrow hv hu hRoutes) (Nat.lt_asymm hLess)
  · exact Stmt.id_lt_of_route_lt hGrow hu hv

/-- **Reading again**: the table of a committed program is read as this program. -/
theorem program?_toArena {t : Stmt} (h : t.Committed) : t.toArena.program? = .ok t := by
  have hTree : t.toArena.tree = t := Stmt.tree_toArena h.ids
  refine program?_eq_ok.mpr ⟨fault?_eq_none_iff.mpr ⟨fun id hId => ?_, fun route route' id hi hj => ?_⟩,
    hTree.symm ▸ h.labels, by rw [hTree, h.number_eq]⟩
  · obtain ⟨route, hRoute⟩ := hId
    change t.toArena.follow? t.id route = some id at hRoute
    rw [follow?_toArena h.ids route (Stmt.self_mem_nodes t)] at hRoute
    obtain ⟨u, hu, rfl⟩ := Option.map_eq_some_iff.mp hRoute
    rw [Stmt.size_toArena, ← List.mem_range, ← h.ids]
    exact List.mem_map_of_mem (Stmt.mem_nodes_of_at? hu)
  · -- if one of two routes to a place came first, the place would be before itself
    have hOrder := lt_iff_route_lt h hi hj
    have hOrder' := lt_iff_route_lt h hj hi
    rcases lt_trichotomy route route' with hRoutes | hRoutes | hRoutes
    · exact absurd (hOrder.mpr hRoutes) (Nat.lt_irrefl _)
    · exact hRoutes
    · exact absurd (hOrder'.mpr hRoutes) (Nat.lt_irrefl _)

/-! ## Rejections -/

/-- **Rejections are true**: what is said of a table that is no program is the case. -/
theorem shows_of_program? {e : TreeError} (h : a.program? = .error e) : a.Shows e := by
  unfold program? at h
  cases hFault : a.fault? with
  | some e' =>
    rw [hFault] at h
    cases h
    exact (shows_of_fault? hFault).1
  | none =>
    rw [hFault] at h
    change a.tree.commit = .error e at h
    unfold Stmt.commit at h
    split at h
    · rename_i l hRepeated
      cases h
      obtain ⟨before, after, hSplit, hMem⟩ := Stmt.split_of_repeated? hRepeated
      have hMem : l ∈ before := hMem.resolve_left List.not_mem_nil
      -- the two places of the label in the list belong to two statements
      obtain ⟨first, last, hNodes, rfl, hLast⟩ := List.filterMap_eq_append_iff.mp hSplit
      obtain ⟨u, hu, hLabel⟩ := List.mem_filterMap.mp hMem
      obtain ⟨skipped, v, rest, rfl, -, hLabel', -⟩ := List.filterMap_eq_cons_iff.mp hLast
      have hv : v ∈ skipped ++ v :: rest := by simp
      have hMemU : u ∈ a.tree.nodes := hNodes ▸ List.mem_append_left _ hu
      have hMemV : v ∈ a.tree.nodes := hNodes ▸ List.mem_append_right _ hv
      have hIds := nodup_ids_tree hFault
      refine ⟨u.id, v.id, fun hSame => ?_, (entry_of_mem_tree hFault hMemU).1,
        (entry_of_mem_tree hFault hMemV).1, ?_, ?_⟩
      · rw [Stmt.ids, hNodes, List.map_append, List.nodup_append'] at hIds
        exact hIds.2.2 (List.mem_map_of_mem hu) (hSame ▸ List.mem_map_of_mem hv)
      · rw [label?_of_mem_tree hFault hMemU, hLabel]
      · rw [label?_of_mem_tree hFault hMemV, hLabel']
    · cases h

/-- **Reading a table**: take any table, also one with cycles.

    * The search for a fault ends within as many turns as there are places, and allowing it more
      steps changes nothing.
    * The table is accepted exactly when it holds a tree with different labels, and what is said when
      it is rejected is the case.
    * What is read from it is the same tree without the places that are not reached, numbered in
      pre-order, with an index that is exact; read once more it stays as it is. -/
theorem read_iff_isTree (a : Arena) :
    (a.root < a.size → a.turns? (a.size + 1) = none
      ∧ ∀ fuel, a.size < fuel → a.faultFrom fuel [] [a.root] = a.fault?)
    ∧ ((∃ t, a.program? = .ok t) ↔ a.IsTree)
    ∧ (∀ e, a.program? = .error e → a.Shows e)
    ∧ ∀ t, a.program? = .ok t →
        a.Renumbers a.walk.idxOf t.toArena
        ∧ t.toArena.Strict
        ∧ (∀ route route' i j, t.toArena.follow? t.toArena.root route = some i →
            t.toArena.follow? t.toArena.root route' = some j → (i < j ↔ route < route'))
        ∧ t.toArena.program? = .ok t := by
  refine ⟨fun hRoot => ⟨turns_end hRoot, fun fuel hFuel => faultFrom_eq_fault? hRoot hFuel⟩,
    exists_program?_iff, fun e h => shows_of_program? h, fun t ht => ?_⟩
  have hCommitted := Stmt.committed_of_program? ht
  exact ⟨renumbers_of_program? ht, hCommitted.strict,
    fun route route' i j hi hj => lt_iff_route_lt hCommitted hi hj, program?_toArena hCommitted⟩

/-- A loop that is its own body. -/
example : Arena.program? ⟨#[⟨some "L", .loop ⟨"i", .int 0, .int 2, .sequential, []⟩ 0⟩], 0, []⟩
    = .error (.sharedNode 0) := by rfl

end Arena

end LoopNest

import Mathlib.Data.List.Pairwise
import Mathlib.Data.List.Perm.Basic
import LoopNest.Arena.Edit
import LoopNest.Proofs.Updates

/-! # Tables of committed programs

  Outside the library a committed program is a table of nodes. Such a table holds the statements of
  the program in pre-order and nothing else, every one of them is the child of exactly one other one,
  the root aside, and a label leads to the statement that carries it (`Arena.Strict`).

  * **Reading back**: the table of a program that is numbered in pre-order holds that program
    (`Stmt.tree_toArena`).
  * **Parents**: every statement but the first is listed once among the children
    (`Stmt.children_perm`).

  Main statement: the table of a program that is numbered in pre-order and has different labels is
  strict (`Stmt.strict_toArena`). -/

namespace LoopNest

/-- A table that holds a program with the numbers 0, 1, 2, … in pre-order, and nothing else.

    * **root**, **walk**: exactly the places of the table are reached from place 0, in turn;
    * **orphan**, **parent**, **distinct**: the root has no parent, any other place has one, which
      refers to it once;
    * **labels**: labels are different;
    * **index**: a label leads to the place that carries it, and nowhere if there is none. -/
structure Arena.Strict (a : Arena) : Prop where
  root : a.root = 0
  walk : a.walk = List.range a.size
  orphan : ∀ p, a.root ∉ a.children p
  parent : ∀ id, id < a.size → id ≠ a.root → ∃! p, id ∈ a.children p
  distinct : ∀ p, (a.children p).Nodup
  labels : ∀ id id' l, a.label? id = some l → a.label? id' = some l → id = id'
  index : ∀ l id, a.find? l = some id ↔ a.label? id = some l

namespace Stmt

variable {t u : Stmt}

/-! ## Entries -/

/-- The statement at a place is the one with that number. -/
theorem nodes_toArena (hIds : t.ids = List.range t.size) (hu : u ∈ t.nodes) :
    t.toArena.nodes[u.id]? = some (Node.ofStmt u) := by
  obtain ⟨k, hk, hEq⟩ := List.getElem_of_mem hu
  have hSize : k < t.size := hk
  have hFound : t.nodes[k]? = some u := by rw [List.getElem?_eq_getElem hk, hEq]
  have hId : t.ids[k]? = some u.id := by rw [ids, List.getElem?_map, hFound, Option.map_some]
  rw [hIds, List.getElem?_range hSize, Option.some.injEq] at hId
  rw [← hId, toArena, List.getElem?_toArray, List.getElem?_map, hFound, Option.map_some]

theorem size_toArena (t : Stmt) : t.toArena.size = t.size := by
  simp [toArena, Arena.size, size]

/-- Places beyond the program hold nothing. -/
theorem nodes_toArena_of_le {id : Nat} (h : t.size ≤ id) : t.toArena.nodes[id]? = none := by
  rw [Array.getElem?_eq_none_iff]
  exact Nat.le_trans (Nat.le_of_eq (size_toArena t)) h

/-- Every place of the table belongs to a statement. -/
theorem exists_of_lt_size (hIds : t.ids = List.range t.size) {id : Nat} (h : id < t.size) :
    ∃ u ∈ t.nodes, u.id = id := by
  have hMem : id ∈ t.ids := by
    rw [hIds]
    exact List.mem_range.mpr h
  exact List.mem_map.mp hMem

theorem children_ofStmt (u : Stmt) : (NodeKind.ofStmt u).children = u.children.map Stmt.id := by
  cases u <;> rfl

theorem children_toArena (hIds : t.ids = List.range t.size) (hu : u ∈ t.nodes) :
    t.toArena.children u.id = u.children.map Stmt.id := by
  unfold Arena.children Arena.kind
  rw [nodes_toArena hIds hu, Option.elim_some, Node.ofStmt, children_ofStmt]

theorem label?_toArena (hIds : t.ids = List.range t.size) (hu : u ∈ t.nodes) :
    t.toArena.label? u.id = u.label? := by
  unfold Arena.label?
  rw [nodes_toArena hIds hu]
  rfl

/-- What is said of a place in a table concerns a statement, or a place beyond the program. -/
theorem place_cases (hIds : t.ids = List.range t.size) (p : Nat) :
    (∃ u ∈ t.nodes, u.id = p) ∨ t.toArena.children p = [] ∧ t.toArena.label? p = none := by
  rcases Nat.lt_or_ge p t.size with h | h
  · exact .inl (exists_of_lt_size hIds h)
  · refine .inr ⟨?_, ?_⟩
    · unfold Arena.children Arena.kind
      rw [nodes_toArena_of_le h]
      rfl
    · unfold Arena.label?
      rw [nodes_toArena_of_le h]
      rfl

/-! ## Reading back -/

/-- An entry with its own children read back. -/
theorem toStmt_ofStmt {child : Nat → Stmt} (u : Stmt) (h : ∀ c ∈ u.children, child c.id = c) :
    (NodeKind.ofStmt u).toStmt ⟨u.id, u.label?⟩ child = u := by
  cases u with
  | block s ts =>
    have hAll : (ts.map Stmt.id).map child = ts := by
      rw [List.map_map]
      exact (List.map_congr_left h).trans (List.map_id' ts)
    exact congrArg (Stmt.block s) hAll
  | branch s c yes no =>
    have hYes := h yes (by simp [children])
    have hNo := h no (by simp [children])
    show Stmt.branch s c (child yes.id) (child no.id) = _
    rw [hYes, hNo]
  | decl s n b body => exact congrArg (Stmt.decl s n b) (h body (by simp [children]))
  | loop s head body => exact congrArg (Stmt.loop s head) (h body (by simp [children]))
  | guard s c body => exact congrArg (Stmt.guard s c) (h body (by simp [children]))
  | store s b is v => rfl
  | call s f args => rfl
  | hole s => rfl

/-- A statement of the program is read back from its place. -/
theorem unfold_toArena (hIds : t.ids = List.range t.size) :
    ∀ (u : Stmt) (depth : Nat), u ∈ t.nodes → u.size ≤ depth → t.toArena.unfold depth u.id = u := by
  refine children_ind fun u ih depth hu hSize => ?_
  cases depth with
  | zero =>
    have hPos : u.nodes ≠ [] := List.ne_nil_of_mem (self_mem_nodes u)
    exact absurd (List.length_eq_zero_iff.mp (Nat.le_zero.mp hSize)) hPos
  | succ depth =>
    rw [Arena.unfold, nodes_toArena hIds hu]
    refine toStmt_ofStmt u fun c hc => ih c hc depth
      (mem_nodes_trans (mem_nodes_of_child hc (self_mem_nodes c)) hu) ?_
    -- a child is smaller
    have hChild : c.nodes.length ≤ u.inside.length :=
      (List.sublist_flatten_of_mem (List.mem_map_of_mem hc)).length_le
    have hParent : u.size = u.inside.length + 1 := by
      rw [size, nodes_eq_cons, List.length_cons]
    have hLength : c.size = c.nodes.length := rfl
    omega

/-- **Reading back**: the table of a numbered program holds that program. -/
theorem tree_toArena (hIds : t.ids = List.range t.size) : t.toArena.tree = t := by
  refine unfold_toArena hIds t _ (self_mem_nodes t) ?_
  exact Nat.le_of_eq (size_toArena t).symm

/-! ## Parents -/

/-- Every statement but the first is listed once as a child. -/
theorem children_perm : ∀ t : Stmt,
    (t.nodes.flatMap fun u => u.children.map Stmt.id).Perm (t.inside.map Stmt.id) := by
  refine children_ind fun t ih => ?_
  have hBelow : (t.children.flatMap fun c => c.nodes.flatMap fun u => u.children.map Stmt.id).Perm
      (t.children.flatMap fun c => c.inside.map Stmt.id) := List.Perm.flatMap_left _ ih
  have hEach : (t.children.flatMap fun c => c.id :: c.inside.map Stmt.id) = t.inside.map Stmt.id := by
    rw [inside, List.map_flatMap]
    refine List.flatMap_congr fun c _ => ?_
    rw [nodes_eq_cons c, List.map_cons]
  rw [nodes_eq_cons, List.flatMap_cons, ← hEach, inside, List.flatMap_assoc]
  exact (hBelow.append_left _).trans (List.map_append_flatMap_perm ..)

/-- In a numbered program the children of all statements are different, and none of them is the
    first statement. -/
theorem nodup_children (hIds : t.ids.Nodup) :
    (t.nodes.flatMap fun u => u.children.map Stmt.id).Nodup
      ∧ t.id ∉ t.nodes.flatMap fun u => u.children.map Stmt.id := by
  unfold ids at hIds
  rw [nodes_eq_cons, List.map_cons, List.nodup_cons] at hIds
  exact ⟨(children_perm t).symm.nodup hIds.2, fun hMem => hIds.1 ((children_perm t).subset hMem)⟩

/-! ## Labels -/

/-- Two statements of a program with different labels do not carry the same one. -/
theorem eq_of_label? (hLabels : t.labels.Nodup) {v : Stmt} (hu : u ∈ t.nodes) (hv : v ∈ t.nodes)
    {l : String} (hul : u.label? = some l) (hvl : v.label? = some l) : u = v := by
  by_contra hNe
  -- otherwise the label would be listed twice
  have hPairwise := List.pairwise_filterMap.mp hLabels
  have hSymm : Std.Symm fun x y : Stmt => ∀ b, x.label? = some b → ∀ b', y.label? = some b' → b ≠ b' :=
    ⟨fun x y h b hb b' hb' => (h b' hb' b hb).symm⟩
  exact hPairwise.forall hu hv hNe l hul l hvl rfl

theorem lookup_eq_some_of_mem {α : Type} {l : String} {a : α} :
    ∀ {index : List (String × α)}, (index.map (·.1)).Nodup → (l, a) ∈ index →
      index.lookup l = some a := by
  intro index
  induction index with
  | nil => exact fun _ h => nomatch h
  | cons p index ih =>
    obtain ⟨l', a'⟩ := p
    intro hNodup hMem
    obtain ⟨hNew, hNodup⟩ := List.nodup_cons.mp hNodup
    rw [List.lookup_cons]
    rcases List.mem_cons.mp hMem with hEq | hMem
    · cases hEq
      simp
    · have hNe : (l == l') = false :=
        beq_eq_false_iff_ne.mpr fun hEq => hNew (hEq ▸ List.mem_map_of_mem (f := (·.1)) hMem)
      rw [hNe]
      exact ih hNodup hMem

/-- The index of a program with different labels leads from a label to the number of the statement
    that carries it. -/
theorem lookup_labelIndex (hLabels : t.labels.Nodup) (l : String) (id : Nat) :
    t.labelIndex.lookup l = some id ↔ ∃ u ∈ t.nodes, u.label? = some l ∧ u.id = id := by
  have hMem : (l, id) ∈ t.labelIndex ↔ ∃ u ∈ t.nodes, u.label? = some l ∧ u.id = id := by
    simp only [labelIndex, List.mem_filterMap, Option.map_eq_some_iff, Prod.mk.injEq]
    constructor
    · rintro ⟨u, hu, _, hLabel, rfl, hId⟩
      exact ⟨u, hu, hLabel, hId⟩
    · rintro ⟨u, hu, hLabel, hId⟩
      exact ⟨u, hu, l, hLabel, rfl, hId⟩
  have hKeys : t.labelIndex.map (·.1) = t.labels := by
    unfold labelIndex labels
    rw [List.map_filterMap]
    congr 1
    funext u
    rw [Option.map_map]
    cases u.label? <;> rfl
  rw [← hMem]
  constructor
  · intro h
    obtain ⟨before, after, hEq, _⟩ := List.lookup_eq_some_iff.mp h
    simp [hEq]
  · exact lookup_eq_some_of_mem (hKeys.symm ▸ hLabels)

/-! ## The table -/

/-- **Strict tables**: the table of a program that is numbered in pre-order and has different labels
    is strict. -/
theorem strict_toArena (hIds : t.ids = List.range t.size) (hLabels : t.labels.Nodup) :
    t.toArena.Strict := by
  have hRoot : t.id = 0 := by
    have hHead := congrArg List.head? hIds
    rw [ids_eq_cons, List.head?_cons, List.head?_range] at hHead
    split at hHead <;> simp_all
  have hNodup : t.ids.Nodup := hIds ▸ List.nodup_range
  obtain ⟨hChildren, hOrphan⟩ := nodup_children hNodup
  rw [List.nodup_flatMap] at hChildren
  refine ⟨hRoot, ?walk, fun p => ?orphan, fun id hId hne => ?parent, fun p => ?distinct,
    fun id id' l h h' => ?labels, fun l id => ?index⟩
  case walk =>
    show t.toArena.tree.ids = _
    rw [tree_toArena hIds, hIds, size_toArena]
  case orphan =>
    rcases place_cases hIds p with ⟨u, hu, rfl⟩ | ⟨hNone, _⟩
    · rw [children_toArena hIds hu]
      exact fun hMem => hOrphan (List.mem_flatMap.mpr ⟨u, hu, hMem⟩)
    · rw [hNone]
      exact List.not_mem_nil
  case parent =>
    rw [size_toArena] at hId
    obtain ⟨u, hu, rfl⟩ := exists_of_lt_size hIds hId
    have hInside : u ∈ t.inside := by
      rw [nodes_eq_cons] at hu
      exact (List.mem_cons.mp hu).resolve_left fun hEq => hne (hEq ▸ rfl)
    have hListed := (children_perm t).symm.subset (List.mem_map_of_mem hInside)
    obtain ⟨p, hp, hChild⟩ := List.mem_flatMap.mp hListed
    refine ⟨p.id, ?_, fun q hq => ?_⟩
    · show u.id ∈ t.toArena.children p.id
      rw [children_toArena hIds hp]
      exact hChild
    · change u.id ∈ t.toArena.children q at hq
      rcases place_cases hIds q with ⟨v, hv, rfl⟩ | ⟨hNone, _⟩
      · -- two parents would share a child
        by_contra hOther
        rw [children_toArena hIds hv] at hq
        have hSymm : Std.Symm (Function.onFun List.Disjoint fun u : Stmt => u.children.map Stmt.id) :=
          ⟨fun _ _ h _ hx hy => h hy hx⟩
        exact hChildren.2.forall hv hp (fun hEq => hOther (hEq ▸ rfl)) hq hChild
      · rw [hNone] at hq
        exact absurd hq List.not_mem_nil
  case distinct =>
    rcases place_cases hIds p with ⟨u, hu, rfl⟩ | ⟨hNone, _⟩
    · rw [children_toArena hIds hu]
      exact hChildren.1 u hu
    · rw [hNone]
      exact List.nodup_nil
  case labels =>
    rcases place_cases hIds id with ⟨u, hu, rfl⟩ | ⟨_, hNone⟩
    · rcases place_cases hIds id' with ⟨v, hv, rfl⟩ | ⟨_, hNone⟩
      · rw [label?_toArena hIds hu] at h
        rw [label?_toArena hIds hv] at h'
        rw [eq_of_label? hLabels hu hv h h']
      · rw [hNone] at h'
        cases h'
    · rw [hNone] at h
      cases h
  case index =>
    show t.labelIndex.lookup l = some id ↔ _
    rw [lookup_labelIndex hLabels]
    constructor
    · rintro ⟨u, hu, hLabel, rfl⟩
      rw [label?_toArena hIds hu, hLabel]
    · intro h
      rcases place_cases hIds id with ⟨u, hu, rfl⟩ | ⟨_, hNone⟩
      · rw [label?_toArena hIds hu] at h
        exact ⟨u, hu, h, rfl⟩
      · rw [hNone] at h
        cases h

end Stmt

end LoopNest

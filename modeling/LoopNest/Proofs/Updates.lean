import Mathlib.Data.List.Nodup
import Mathlib.Data.List.Pairwise
import LoopNest.Proofs.Replacements

/-! # Statements beside an updated one

  An update puts something in the place of the statements with one number (`Stmt.update`). Here is
  what it does to statements with other numbers, whether or not the numbers of a program are
  different.

  * `Stmt.Separate t p q`: in `t`, nothing numbered `p` is above or below something numbered `q`.
  * What is apart from the update is found as before (`Stmt.find?_update`), and stays apart from what
    it was apart from (`Stmt.Separate.update`).
  * In a list of all statements nothing stands before a statement that it is below
    (`Stmt.pairwise_nodes`). -/

namespace LoopNest.Stmt

/-! ## Children -/

/-- Induction over statements by their children. -/
theorem children_ind {motive : Stmt → Prop}
    (step : ∀ t : Stmt, (∀ u ∈ t.children, motive u) → motive t) : ∀ t, motive t := by
  refine Stmt.ind ?_ ?_ ?_ ?_ ?_ ?_ ?_ ?_
  · intro s n b body ih
    exact step _ (by simpa [children] using ih)
  · intro s h body ih
    exact step _ (by simpa [children] using ih)
  · intro s c body ih
    exact step _ (by simpa [children] using ih)
  · intro s c yes no ihYes ihNo
    exact step _ (by simpa [children] using ⟨ihYes, ihNo⟩)
  · intro s b is v
    exact step _ (by simp [children])
  · intro s f args
    exact step _ (by simp [children])
  · intro s ts ih
    exact step _ ih
  · intro s
    exact step _ (by simp [children])

/-- The statement with other children. -/
def mapChildren (f : Stmt → Stmt) : Stmt → Stmt
  | .decl s n b body => .decl s n b (f body)
  | .loop s h body => .loop s h (f body)
  | .guard s c body => .guard s c (f body)
  | .branch s c yes no => .branch s c (f yes) (f no)
  | .block s ts => .block s (ts.map f)
  | t => t

@[simp] theorem id_mapChildren (f : Stmt → Stmt) (t : Stmt) : (t.mapChildren f).id = t.id := by
  cases t <;> rfl

@[simp] theorem children_mapChildren (f : Stmt → Stmt) (t : Stmt) :
    (t.mapChildren f).children = t.children.map f := by
  cases t <;> rfl

theorem bottomUp_eq (f : Stmt → Stmt) (t : Stmt) :
    t.bottomUp f = f (t.mapChildren (bottomUp f)) := by
  cases t <;> simp [bottomUp, mapChildren, bottomUpAll_eq_map]

theorem ids_eq_cons (t : Stmt) : t.ids = t.id :: t.children.flatMap ids := by
  unfold ids
  rw [nodes_eq_cons, List.map_cons, inside, List.map_flatMap]

theorem id_mem_ids (t : Stmt) : t.id ∈ t.ids := List.mem_map_of_mem (self_mem_nodes t)

/-- No statement is below two children when numbers are different. -/
theorem eq_of_common_child {t c d w : Stmt} (hIds : t.ids.Nodup) (hc : c ∈ t.children)
    (hd : d ∈ t.children) (hwc : w ∈ c.nodes) (hwd : w ∈ d.nodes) : c = d := by
  rw [ids_eq_cons, List.nodup_cons, List.nodup_flatMap] at hIds
  by_contra hne
  have hSymm : Std.Symm (Function.onFun List.Disjoint ids) := ⟨fun _ _ h _ hb ha => h ha hb⟩
  exact hIds.2.2.forall hc hd hne (List.mem_map_of_mem hwc) (List.mem_map_of_mem hwd)

theorem ids_subset {t u : Stmt} (hu : u ∈ t.nodes) {i : Nat} (hi : i ∈ u.ids) : i ∈ t.ids :=
  ((nodes_sublist t hu).map id).subset hi

theorem find?_eq (t : Stmt) (q : Nat) :
    t.find? q = if t.id = q then some t else t.children.findSome? (find? · q) := by
  unfold find?
  rw [nodes_eq_cons, inside, List.find?_cons, List.find?_flatMap]
  by_cases h : t.id = q
  · rw [if_pos h, beq_iff_eq.mpr h]
  · rw [if_neg h, beq_eq_false_iff_ne.mpr h]

theorem find?_eq_none {t : Stmt} {q : Nat} (h : q ∉ t.ids) : t.find? q = none := by
  unfold find?
  rw [List.find?_eq_none]
  intro u hu hEq
  exact h (List.mem_map.mpr ⟨u, hu, beq_iff_eq.mp hEq⟩)

theorem mem_of_find? {t u : Stmt} {q : Nat} (h : t.find? q = some u) : u ∈ t.nodes ∧ u.id = q :=
  ⟨List.mem_of_find?_eq_some h, beq_iff_eq.mp (List.find?_some (p := fun u : Stmt => u.id == q) h)⟩

/-- In a program with different numbers a statement is found by its number. -/
theorem find?_of_mem {t u : Stmt} (hIds : t.ids.Nodup) (hu : u ∈ t.nodes) :
    t.find? u.id = some u := by
  cases h : t.find? u.id with
  | none =>
    have hNone := List.find?_eq_none.mp h u hu
    simp at hNone
  | some v =>
    obtain ⟨hv, hId⟩ := mem_of_find? h
    rw [List.inj_on_of_nodup_map hIds hv hu hId]

/-! ## Updates -/

section update

variable {p q : Nat} {f : Stmt → Stmt} {w : Stmt}

theorem update_eq (t : Stmt) :
    t.update p f = if t.id = p then f (t.mapChildren (update p f))
      else t.mapChildren (update p f) := by
  have hEq := bottomUp_eq (fun u => if u.id = p then f u else u) t
  rwa [id_mapChildren] at hEq

theorem update_self {t : Stmt} (h : t.id = p) : t.update p (fun _ => w) = w := by
  rw [update_eq, if_pos h]

theorem id_update {t : Stmt} (h : t.id ≠ p) : (t.update p f).id = t.id := by
  rw [update_eq, if_neg h, id_mapChildren]

theorem children_update {t : Stmt} (h : t.id ≠ p) :
    (t.update p f).children = t.children.map (update p f) := by
  rw [update_eq, if_neg h, children_mapChildren]

/-- What is in an updated program is new, or an updated statement. -/
theorem mem_nodes_update {x : Stmt} :
    ∀ t : Stmt, x ∈ (t.update p fun _ => w).nodes →
      x ∈ w.nodes ∨ ∃ y ∈ t.nodes, y.id ≠ p ∧ x = y.update p fun _ => w := by
  refine children_ind fun t ih hx => ?_
  by_cases hp : t.id = p
  · rw [update_self hp] at hx
    exact .inl hx
  · rw [nodes_eq_cons, List.mem_cons] at hx
    rcases hx with hx | hx
    · exact .inr ⟨t, self_mem_nodes t, hp, hx⟩
    · rw [inside, children_update hp, List.flatMap_map] at hx
      obtain ⟨u, hu, hx⟩ := List.mem_flatMap.mp hx
      rcases ih u hu hx with hNew | ⟨y, hy, hne, hEq⟩
      · exact .inl hNew
      · exact .inr ⟨y, mem_nodes_of_child hu hy, hne, hEq⟩

theorem mem_ids_update {t : Stmt} {i : Nat} (h : i ∈ (t.update p fun _ => w).ids) :
    i ∈ w.ids ∨ i ∈ t.ids := by
  obtain ⟨x, hx, rfl⟩ := List.mem_map.mp h
  rcases mem_nodes_update t hx with hNew | ⟨y, hy, hne, rfl⟩
  · exact .inl (List.mem_map_of_mem hNew)
  · rw [id_update hne]
    exact .inr (List.mem_map_of_mem hy)

end update

/-! ## Statements apart -/

/-- Nothing numbered `p` is above or below something numbered `q`. -/
def Separate (t : Stmt) (p q : Nat) : Prop :=
  ∀ u ∈ t.nodes, (u.id = p → q ∉ u.ids) ∧ (u.id = q → p ∉ u.ids)

namespace Separate

variable {t w : Stmt} {p p' q : Nat}

theorem of_mem (h : t.Separate p q) {u : Stmt} (hu : u ∈ t.nodes) : u.Separate p q :=
  fun v hv => h v (mem_nodes_trans hv hu)

/-- Statements of a program with different numbers are apart when neither is below the other. -/
theorem of_nodup (hIds : t.ids.Nodup) {u v : Stmt} (hu : u ∈ t.nodes) (hv : v ∈ t.nodes)
    (huv : u ∉ v.nodes) (hvu : v ∉ u.nodes) : t.Separate u.id v.id := by
  have hSame : ∀ {x y : Stmt}, x ∈ t.nodes → y ∈ t.nodes → x.id = y.id → x = y :=
    fun hx hy hId => List.inj_on_of_nodup_map hIds hx hy hId
  intro x hx
  constructor
  · intro hId hMem
    obtain rfl := hSame hx hu hId
    obtain ⟨y, hy, hEq⟩ := List.mem_map.mp hMem
    exact hvu (hSame (mem_nodes_trans hy hx) hv hEq ▸ hy)
  · intro hId hMem
    obtain rfl := hSame hx hv hId
    obtain ⟨y, hy, hEq⟩ := List.mem_map.mp hMem
    exact huv (hSame (mem_nodes_trans hy hx) hu hEq ▸ hy)

/-- What is apart from an update stays apart from everything it was apart from. -/
theorem update (h : t.Separate p q) (h' : t.Separate p' q) (hNew : q ∉ w.ids) :
    (t.update p fun _ => w).Separate p' q := by
  intro x hx
  rcases mem_nodes_update t hx with hx | ⟨y, hy, hne, rfl⟩
  · have hNot : q ∉ x.ids := fun hMem => hNew (ids_subset hx hMem)
    exact ⟨fun _ => hNot, fun hId => absurd (hId ▸ id_mem_ids x) hNot⟩
  · obtain ⟨hBelow, hAbove⟩ := h' y hy
    rw [id_update hne]
    constructor
    · intro hId hMem
      rcases mem_ids_update hMem with hMem | hMem
      · exact hNew hMem
      · exact hBelow hId hMem
    · intro hId
      -- nothing below is updated
      rw [update_of_not_mem y ((h y hy).2 hId)]
      exact hAbove hId

end Separate

/-- What is apart from an update is found as before. -/
theorem find?_update {p q : Nat} {w : Stmt} (hNew : q ∉ w.ids) :
    ∀ t : Stmt, t.Separate p q → (t.update p fun _ => w).find? q = t.find? q := by
  refine children_ind fun t ih hSeparate => ?_
  obtain ⟨hBelow, hAbove⟩ := hSeparate t (self_mem_nodes t)
  by_cases hp : t.id = p
  · rw [update_self hp, find?_eq_none hNew, find?_eq_none (hBelow hp)]
  · by_cases hq : t.id = q
    · rw [update_of_not_mem t (hAbove hq)]
    · have hEach : (t.children.map fun u => (u.update p fun _ => w).find? q)
          = t.children.map (find? · q) := List.map_congr_left fun u hu =>
        ih u hu (hSeparate.of_mem (mem_nodes_of_child hu (self_mem_nodes u)))
      have hAll := congrArg (List.findSome? fun o => o) hEach
      rw [List.findSome?_map, List.findSome?_map] at hAll
      rw [find?_eq, find?_eq t, id_update hp, if_neg hq, if_neg hq, children_update hp,
        List.findSome?_map]
      exact hAll

/-! ## Order -/

/-- In the list of all statements nothing stands before a statement that it is below. -/
theorem pairwise_nodes :
    ∀ t : Stmt, t.ids.Nodup → t.nodes.Pairwise fun u v => u ∉ v.nodes := by
  refine children_ind fun t ih hIds => ?_
  rw [ids_eq_cons, List.nodup_cons, List.nodup_flatMap] at hIds
  obtain ⟨hSelf, hEach, hOthers⟩ := hIds
  rw [nodes_eq_cons, List.pairwise_cons]
  constructor
  · intro v hv hMem
    obtain ⟨u, hu, hv⟩ := List.mem_flatMap.mp hv
    exact hSelf (List.mem_flatMap.mpr ⟨u, hu, List.mem_map_of_mem (mem_nodes_trans hMem hv)⟩)
  · rw [inside, List.pairwise_flatMap]
    refine ⟨fun u hu => ih u hu (hEach u hu), hOthers.imp ?_⟩
    intro u u' hDisjoint x hx y hy hMem
    exact hDisjoint (List.mem_map_of_mem hx) (List.mem_map_of_mem (mem_nodes_trans hMem hy))

end LoopNest.Stmt

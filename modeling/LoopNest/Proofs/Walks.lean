import LoopNest.Program.Walk

/-! # The statements of a program

  `Stmt.nodes` lists the statements of a program. This module says what the list looks like for each
  kind of statement.

  * **Conditions on all statements**: `Stmt.everywhere` holds when a test succeeds on every
    statement; it goes down to the parts of a statement.
  * **Loops**: `Stmt.loopIds` lists the numbers of the loops.
  * **Numbers**: the statements of a numbered program have the numbers 0, 1, 2, … in pre-order
    (`Stmt.ids_number`). -/

namespace LoopNest.Stmt

/-! ## Nodes -/

@[simp] theorem nodes_decl (s : Site) (n : String) (b : Buffer) (body : Stmt) :
    (Stmt.decl s n b body).nodes = .decl s n b body :: body.nodes := rfl

@[simp] theorem nodes_loop (s : Site) (h : LoopHead) (body : Stmt) :
    (Stmt.loop s h body).nodes = .loop s h body :: body.nodes := rfl

@[simp] theorem nodes_guard (s : Site) (c : Expr) (body : Stmt) :
    (Stmt.guard s c body).nodes = .guard s c body :: body.nodes := rfl

@[simp] theorem nodes_branch (s : Site) (c : Expr) (yes no : Stmt) :
    (Stmt.branch s c yes no).nodes = .branch s c yes no :: (yes.nodes ++ no.nodes) := rfl

@[simp] theorem nodes_store (s : Site) (b : String) (is : List Expr) (v : Expr) :
    (Stmt.store s b is v).nodes = [.store s b is v] := rfl

@[simp] theorem nodes_call (s : Site) (f : String) (args : List Arg) :
    (Stmt.call s f args).nodes = [.call s f args] := rfl

@[simp] theorem nodes_block (s : Site) (ts : List Stmt) :
    (Stmt.block s ts).nodes = .block s ts :: ts.flatMap nodes :=
  congrArg _ (nodesAll_eq_flatMap ts)

@[simp] theorem nodes_hole (s : Site) : (Stmt.hole s).nodes = [.hole s] := rfl

theorem self_mem_nodes (t : Stmt) : t ∈ t.nodes := by
  cases t <;> simp

/-- The statements below a statement of a program stand in the list of the program. -/
theorem nodes_sublist {u : Stmt} :
    ∀ t : Stmt, u ∈ t.nodes → u.nodes.Sublist t.nodes := by
  refine Stmt.ind ?_ ?_ ?_ ?_ ?_ ?_ ?_ ?_
  · intro s n b body ih h
    rw [nodes_decl] at h
    rcases List.mem_cons.mp h with rfl | h
    · exact List.Sublist.refl _
    · exact nodes_decl s n b body ▸ (ih h).cons _
  · intro s head body ih h
    rw [nodes_loop] at h
    rcases List.mem_cons.mp h with rfl | h
    · exact List.Sublist.refl _
    · exact nodes_loop s head body ▸ (ih h).cons _
  · intro s e body ih h
    rw [nodes_guard] at h
    rcases List.mem_cons.mp h with rfl | h
    · exact List.Sublist.refl _
    · exact nodes_guard s e body ▸ (ih h).cons _
  · intro s e yes no ihYes ihNo h
    rw [nodes_branch] at h
    rcases List.mem_cons.mp h with rfl | h
    · exact List.Sublist.refl _
    · rw [nodes_branch]
      apply List.Sublist.cons
      rcases List.mem_append.mp h with h | h
      · exact (ihYes h).trans (List.sublist_append_left _ _)
      · exact (ihNo h).trans (List.sublist_append_right _ _)
  · intro s b is e h
    rw [nodes_store, List.mem_singleton] at h
    exact h ▸ List.Sublist.refl _
  · intro s f args h
    rw [nodes_call, List.mem_singleton] at h
    exact h ▸ List.Sublist.refl _
  · intro s ts ih h
    rw [nodes_block] at h
    rcases List.mem_cons.mp h with rfl | h
    · exact List.Sublist.refl _
    · obtain ⟨t, ht, h⟩ := List.mem_flatMap.mp h
      rw [nodes_block, List.flatMap_def]
      exact ((ih t ht h).trans (List.sublist_flatten_of_mem (List.mem_map_of_mem ht))).cons _
  · intro s h
    rw [nodes_hole, List.mem_singleton] at h
    exact h ▸ List.Sublist.refl _

/-- Statements below statements below a program are below the program. -/
theorem mem_nodes_trans {t u v : Stmt} (huv : u ∈ v.nodes) (hvt : v ∈ t.nodes) : u ∈ t.nodes :=
  (nodes_sublist t hvt).subset huv

/-- Statements of a program with different numbers have different numbers below them. -/
theorem nodup_ids_of_mem {t u : Stmt} (h : t.ids.Nodup) (hu : u ∈ t.nodes) : u.ids.Nodup :=
  ((nodes_sublist t hu).map id).nodup h

/-- The statements strictly below a statement. -/
def inside (t : Stmt) : List Stmt := t.children.flatMap nodes

theorem nodes_eq_cons (t : Stmt) : t.nodes = t :: t.inside := by
  cases t <;> simp [inside, children]

theorem filterMap_nodes {α : Type} (g : Stmt → Option α) (t : Stmt) :
    t.nodes.filterMap g
      = (g t).toList ++ t.children.flatMap fun u => u.nodes.filterMap g := by
  rw [nodes_eq_cons, List.filterMap_cons, inside, List.filterMap_flatMap]
  cases g t <;> rfl

theorem mem_nodes_of_mem_inside {t u : Stmt} (h : u ∈ t.inside) : u ∈ t.nodes :=
  nodes_eq_cons t ▸ List.mem_cons_of_mem t h

theorem mem_nodes_of_child {t u v : Stmt} (hu : u ∈ t.children) (hv : v ∈ u.nodes) :
    v ∈ t.nodes := mem_nodes_of_mem_inside (List.mem_flatMap.mpr ⟨u, hu, hv⟩)

theorem inside_trans {t u v : Stmt} (huv : u ∈ v.inside) (hvt : v ∈ t.inside) : u ∈ t.inside := by
  obtain ⟨child, hChild, hv⟩ := List.mem_flatMap.mp hvt
  exact List.mem_flatMap.mpr
    ⟨child, hChild, mem_nodes_trans (mem_nodes_of_mem_inside huv) hv⟩

/-! ## Conditions on all statements -/

/-- Whether a test succeeds on a statement and on all statements below it. -/
def everywhere (f : Stmt → Bool) (t : Stmt) : Bool := t.nodes.all f

theorem everywhere_iff {f : Stmt → Bool} {t : Stmt} :
    t.everywhere f = true ↔ ∀ u ∈ t.nodes, f u = true := by
  simp [everywhere]

theorem everywhere_of_mem {f : Stmt → Bool} {t u : Stmt} (h : t.everywhere f = true)
    (hu : u ∈ t.nodes) : u.everywhere f = true := by
  rw [everywhere_iff] at h ⊢
  exact fun v hv => h v (mem_nodes_trans hv hu)

section everywhere

variable {f : Stmt → Bool} {s : Site}

theorem everywhere_decl {n : String} {b : Buffer} {body : Stmt} :
    (Stmt.decl s n b body).everywhere f = true ↔
      f (.decl s n b body) = true ∧ body.everywhere f = true := by
  simp [everywhere]

theorem everywhere_loop {h : LoopHead} {body : Stmt} :
    (Stmt.loop s h body).everywhere f = true ↔
      f (.loop s h body) = true ∧ body.everywhere f = true := by
  simp [everywhere]

theorem everywhere_guard {e : Expr} {body : Stmt} :
    (Stmt.guard s e body).everywhere f = true ↔
      f (.guard s e body) = true ∧ body.everywhere f = true := by
  simp [everywhere]

theorem everywhere_branch {e : Expr} {yes no : Stmt} :
    (Stmt.branch s e yes no).everywhere f = true ↔
      f (.branch s e yes no) = true ∧ yes.everywhere f = true ∧ no.everywhere f = true := by
  simp [everywhere, List.all_append]

theorem everywhere_block {ts : List Stmt} :
    (Stmt.block s ts).everywhere f = true ↔
      f (.block s ts) = true ∧ ∀ t ∈ ts, t.everywhere f = true := by
  simp only [everywhere, nodes_block, List.all_cons, Bool.and_eq_true, List.all_eq_true,
    List.mem_flatMap, forall_exists_index, and_imp]
  constructor
  · exact fun h => ⟨h.1, fun t ht u hu => h.2 u t ht hu⟩
  · exact fun h => ⟨h.1, fun u t ht hu => h.2 t ht u hu⟩

end everywhere

/-- Whether a statement is no declaration of a visible buffer. -/
def isLocalDecl : Stmt → Bool
  | .decl _ _ b _ => b.access == .cache
  | _ => true

/-- Whether all declared buffers are local. -/
def localsOnly (t : Stmt) : Bool := t.everywhere isLocalDecl

theorem localsOnly_decl {s : Site} {n : String} {b : Buffer} {body : Stmt} :
    (Stmt.decl s n b body).localsOnly = true ↔ b.access = .cache ∧ body.localsOnly = true := by
  simp [localsOnly, everywhere_decl, isLocalDecl]

/-! ## Loops -/

/-- The numbers of the loops. -/
def loopIds (t : Stmt) : List Nat := t.loops.map id

theorem nodup_loopIds {t : Stmt} (h : t.ids.Nodup) : t.loopIds.Nodup :=
  (List.filter_sublist.map id).nodup h

theorem mem_loopIds {t u : Stmt} (hu : u ∈ t.nodes) (hLoop : u.isLoop = true) :
    u.id ∈ t.loopIds :=
  List.mem_map_of_mem (List.mem_filter.mpr ⟨hu, hLoop⟩)

@[simp] theorem loops_guard (s : Site) (c : Expr) (body : Stmt) :
    (Stmt.guard s c body).loops = body.loops := by
  rw [loops, nodes_guard, List.filter_cons_of_neg (by simp [isLoop])]
  rfl

@[simp] theorem loops_block (s : Site) (ts : List Stmt) :
    (Stmt.block s ts).loops = ts.flatMap loops := by
  rw [loops, nodes_block, List.filter_cons_of_neg (by simp [isLoop]), List.filter_flatMap]
  rfl

theorem mem_loops {t u : Stmt} : u ∈ t.loops ↔ u ∈ t.nodes ∧ u.isLoop = true := List.mem_filter

@[simp] theorem loopIds_decl (s : Site) (n : String) (b : Buffer) (body : Stmt) :
    (Stmt.decl s n b body).loopIds = body.loopIds := by
  simp [loopIds, loops, isLoop]

@[simp] theorem loopIds_loop (s : Site) (h : LoopHead) (body : Stmt) :
    (Stmt.loop s h body).loopIds = s.id :: body.loopIds := by
  rw [loopIds, loops, nodes_loop, List.filter_cons_of_pos rfl]
  rfl

@[simp] theorem loopIds_guard (s : Site) (c : Expr) (body : Stmt) :
    (Stmt.guard s c body).loopIds = body.loopIds := by
  simp [loopIds, loops, isLoop]

@[simp] theorem loopIds_branch (s : Site) (c : Expr) (yes no : Stmt) :
    (Stmt.branch s c yes no).loopIds = yes.loopIds ++ no.loopIds := by
  simp [loopIds, loops, isLoop]

@[simp] theorem loopIds_store (s : Site) (b : String) (is : List Expr) (v : Expr) :
    (Stmt.store s b is v).loopIds = [] := by
  simp [loopIds, loops, isLoop]

@[simp] theorem loopIds_call (s : Site) (f : String) (args : List Arg) :
    (Stmt.call s f args).loopIds = [] := by
  simp [loopIds, loops, isLoop]

@[simp] theorem loopIds_block (s : Site) (ts : List Stmt) :
    (Stmt.block s ts).loopIds = ts.flatMap loopIds := by
  rw [loopIds, loops, nodes_block, List.filter_cons_of_neg (by simp [isLoop]),
    List.filter_flatMap, List.map_flatMap]
  rfl

@[simp] theorem loopIds_hole (s : Site) : (Stmt.hole s).loopIds = [] := by
  simp [loopIds, loops, isLoop]

/-! ## Numbering -/

/-- Renumbering a list of statements gives their nodes numbers one after the other. -/
theorem numberAllFrom_of_forall {ts : List Stmt}
    (ih : ∀ t ∈ ts, ∀ n, (t.numberFrom n).1.ids = List.range' n t.size
      ∧ (t.numberFrom n).2 = n + t.size) (n : Nat) :
    (numberAllFrom n ts).1.flatMap ids = List.range' n (ts.flatMap nodes).length
      ∧ (numberAllFrom n ts).2 = n + (ts.flatMap nodes).length := by
  induction ts generalizing n with
  | nil => exact ⟨rfl, rfl⟩
  | cons t ts ihList =>
    obtain ⟨hIds, hNext⟩ := ih t List.mem_cons_self n
    obtain ⟨hTail, hLast⟩ := ihList (fun u hu => ih u (List.mem_cons_of_mem t hu))
      (t.numberFrom n).2
    rw [numberAllFrom]
    rw [hNext] at hTail hLast
    simp only [List.flatMap_cons, List.length_append]
    constructor
    · rw [hIds, hNext, hTail]
      exact List.range'_append_1
    · rw [hNext, hLast, Nat.add_assoc]
      rfl

/-- **Numbering**: renumbering from `n` on gives the statements the numbers from `n` on in
    pre-order. -/
theorem numberFrom_ids :
    ∀ (t : Stmt) (n : Nat), (t.numberFrom n).1.ids = List.range' n t.size
      ∧ (t.numberFrom n).2 = n + t.size := by
  refine Stmt.ind ?_ ?_ ?_ ?_ ?_ ?_ ?_ ?_
  · intro s name b body ih n
    obtain ⟨hIds, hNext⟩ := ih (n + 1)
    simp only [numberFrom, ids, size, nodes_decl, List.map_cons, List.length_cons,
      List.range'_succ] at hIds hNext ⊢
    exact ⟨by rw [hIds]; rfl, by rw [hNext]; omega⟩
  · intro s h body ih n
    obtain ⟨hIds, hNext⟩ := ih (n + 1)
    simp only [numberFrom, ids, size, nodes_loop, List.map_cons, List.length_cons,
      List.range'_succ] at hIds hNext ⊢
    exact ⟨by rw [hIds]; rfl, by rw [hNext]; omega⟩
  · intro s e body ih n
    obtain ⟨hIds, hNext⟩ := ih (n + 1)
    simp only [numberFrom, ids, size, nodes_guard, List.map_cons, List.length_cons,
      List.range'_succ] at hIds hNext ⊢
    exact ⟨by rw [hIds]; rfl, by rw [hNext]; omega⟩
  · intro s e yes no ihYes ihNo n
    obtain ⟨hYes, hBetween⟩ := ihYes (n + 1)
    obtain ⟨hNo, hNext⟩ := ihNo (n + 1 + yes.size)
    simp only [numberFrom, ids, size, nodes_branch, List.map_cons, List.length_cons,
      List.map_append, List.length_append, List.range'_succ] at hYes hBetween hNo hNext ⊢
    rw [hBetween, hYes, hNo, hNext]
    exact ⟨by rw [List.range'_append_1]; rfl, by omega⟩
  · intro s b is v n
    simp [numberFrom, ids, size, id, site]
  · intro s f args n
    simp [numberFrom, ids, size, id, site]
  · intro s ts ih n
    obtain ⟨hIds, hNext⟩ := numberAllFrom_of_forall ih (n + 1)
    simp only [numberFrom, ids, size, nodes_block, List.map_cons, List.length_cons,
      List.range'_succ, List.map_flatMap] at hIds hNext ⊢
    exact ⟨by rw [← hIds]; rfl, by rw [hNext]; omega⟩
  · intro s n
    simp [numberFrom, ids, size, id, site]

theorem ids_number (t : Stmt) : t.number.ids = List.range t.size := by
  rw [number, (numberFrom_ids t 0).1, List.range_eq_range']

theorem nodup_ids_number (t : Stmt) : t.number.ids.Nodup := by
  rw [ids_number]
  exact List.nodup_range

/-- The size of a numbered program is larger than its numbers. -/
theorem lt_size_number {t : Stmt} : ∀ i ∈ t.number.ids, i < t.number.size := by
  intro i hi
  have hSize := congrArg List.length (ids_number t)
  rw [ids, List.length_map, List.length_range] at hSize
  rw [ids_number, List.mem_range] at hi
  rwa [size, hSize]

end LoopNest.Stmt

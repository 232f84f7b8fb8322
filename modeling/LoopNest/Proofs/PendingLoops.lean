import LoopNest.Proofs.PureReductions

/-! # Loops that are still to come

  Lowering goes through the parallel loops of a program, inner loops first. The loops that are still
  to come are kept in a list (`Lower.Pending`), and so is what is declared around them
  (`Lower.Hosts`). A workspace of the next loop leaves the list as it is. -/

namespace LoopNest

namespace Stmt

section update

variable {t u x : Stmt} {p q : Nat}

/-- Old numbers are where they were. -/
theorem mem_ids_of_update (h : q ∈ (t.update p fun _ => u).ids) (hNew : q ∈ u.ids → q = p) :
    q ∈ t.ids := by
  by_cases hp : p ∈ t.ids
  · rcases mem_ids_update h with h | h
    · exact hNew h ▸ hp
    · exact h
  · rwa [update_of_not_mem t hp] at h

/-- What is around an old number is in the new statement, or was around it before. -/
theorem mem_around_update (hx : x ∈ (t.update p fun _ => u).nodes) (hq : q ∈ x.ids)
    (hNew : q ∈ u.ids → q = p) : (x ∈ u.nodes ∧ q = p)
      ∨ ∃ y ∈ t.nodes, y.id ≠ p ∧ x = (y.update p fun _ => u) ∧ q ∈ y.ids := by
  rcases mem_nodes_update t hx with hx | ⟨y, hy, hne, rfl⟩
  · exact .inl ⟨hx, hNew (ids_subset hx hq)⟩
  · exact .inr ⟨y, hy, hne, rfl, mem_ids_of_update hq hNew⟩

@[simp] theorem isParallelLoop_mapChildren (f : Stmt → Stmt) :
    (t.mapChildren f).isParallelLoop = t.isParallelLoop := by
  rw [isParallelLoop, head?_mapChildren, isParallelLoop]

/-- The old statement takes the place of the new one. -/
theorem Replaces.symm {v t' : Stmt} (h : Replaces u v t t') : Replaces v u t' t := by
  induction h with
  | here => exact .here
  | decl s n b _ ih => exact .decl s n b ih
  | loop s head _ ih => exact .loop s head ih
  | guard s e _ ih => exact .guard s e ih
  | yes s e no _ ih => exact .yes s e no ih
  | no s e yes _ ih => exact .no s e yes ih
  | block s before after _ ih => exact .block s before after ih

theorem isParallelLoop_update (h : t.id ≠ p) :
    (t.update p fun _ => u).isParallelLoop = t.isParallelLoop := by
  rw [update_eq, if_neg h, isParallelLoop_mapChildren]

end update

end Stmt

namespace Lower

open Restructure (Draft)
open Stmt (LabelledLoop)

/-! ## Loops that are still to come -/

/-- The numbers of parallel loops that are still to come.

    * **nodup**, **old**: they are different, and were used before;
    * **parallel**: they are numbers of parallel loops;
    * **around**: the parallel loops around them are still to come as well;
    * **inner**: none of these comes before. -/
structure Pending (next : Nat) (rest : List Nat) (t : Stmt) : Prop where
  nodup : rest.Nodup
  old : ∀ q ∈ rest, q < next
  parallel : ∀ q ∈ rest, ∀ x ∈ t.nodes, x.id = q → x.isParallelLoop = true
  around : ∀ q ∈ rest, ∀ x ∈ t.nodes, x.isParallelLoop = true → q ∈ x.ids → x.id ∈ rest
  inner : rest.Pairwise fun p q => ∀ x ∈ t.nodes, x.id = p → q ∉ x.ids

namespace Pending

variable {next next' p : Nat} {rest : List Nat} {t l u : Stmt}

/-- A loop that is done is around none of those that come after it. -/
theorem tail (h : Pending next (p :: rest) t) : Pending next rest t where
  nodup := h.nodup.of_cons
  old q hq := h.old q (List.mem_cons_of_mem p hq)
  parallel q hq := h.parallel q (List.mem_cons_of_mem p hq)
  around q hq x hx hParallel hMem := by
    rcases List.mem_cons.mp (h.around q (List.mem_cons_of_mem p hq) x hx hParallel hMem) with hId | hId
    · exact absurd hMem ((List.pairwise_cons.mp h.inner).1 q hq x hx hId)
    · exact hId
  inner := (List.pairwise_cons.mp h.inner).2

/-- What takes the place of the next loop has none of the other numbers. -/
theorem eq_of_mem_ids (h : Pending next (p :: rest) t) (hl : l ∈ t.nodes) (hId : l.id = p)
    (hIds : ∀ i ∈ u.ids, i ∈ l.ids ∨ next ≤ i) : ∀ q ∈ p :: rest, q ∈ u.ids → q = p := by
  intro q hq hMem
  rcases hIds q hMem with hMem | hNew
  · rcases List.mem_cons.mp hq with rfl | hRest
    · rfl
    · exact absurd hMem ((List.pairwise_cons.mp h.inner).1 q hRest l hl hId)
  · exact absurd (h.old q hq) (Nat.not_lt.mpr hNew)

/-- **The next loop is replaced**: the same loops are still to come, when the only parallel loop of
    the new statement with the number of the loop inside has this number. -/
theorem update (h : Pending next (p :: rest) t) (hNext : next ≤ next')
    (hNew : ∀ q ∈ p :: rest, q ∈ u.ids → q = p)
    (hu : ∀ x ∈ u.nodes, p ∈ x.ids → (x.isParallelLoop = true ↔ x.id = p)) :
    Pending next' (p :: rest) (t.update p fun _ => u) where
  nodup := h.nodup
  old q hq := Nat.lt_of_lt_of_le (h.old q hq) hNext
  parallel q hq x hx hId := by
    have hMem : q ∈ x.ids := hId ▸ Stmt.id_mem_ids x
    rcases Stmt.mem_around_update hx hMem (hNew q hq) with ⟨hOld, hEq⟩ | ⟨y, hy, hne, rfl, _⟩
    · exact (hu x hOld (hEq ▸ hMem)).mpr (hId.trans hEq)
    · rw [Stmt.isParallelLoop_update hne]
      rw [Stmt.id_update hne] at hId
      exact h.parallel q hq y hy hId
  around q hq x hx hParallel hMem := by
    rcases Stmt.mem_around_update hx hMem (hNew q hq) with ⟨hOld, hEq⟩ | ⟨y, hy, hne, rfl, hBelow⟩
    · rw [(hu x hOld (hEq ▸ hMem)).mp hParallel]
      exact List.mem_cons_self
    · rw [Stmt.isParallelLoop_update hne] at hParallel
      rw [Stmt.id_update hne]
      exact h.around q hq y hy hParallel hBelow
  inner := by
    obtain ⟨hNot, _⟩ := List.nodup_cons.mp h.nodup
    have hStep : ∀ p' q, q ∈ rest → (∀ x ∈ t.nodes, x.id = p' → q ∉ x.ids) →
        ∀ x ∈ (t.update p fun _ => u).nodes, x.id = p' → q ∉ x.ids := by
      intro p' q hq hOld x hx hId hMem
      rcases Stmt.mem_around_update hx hMem (hNew q (List.mem_cons_of_mem p hq)) with
        ⟨_, rfl⟩ | ⟨y, hy, hne, rfl, hBelow⟩
      · exact hNot hq
      · rw [Stmt.id_update hne] at hId
        exact hOld y hy hId hBelow
    obtain ⟨hFirst, hRest⟩ := List.pairwise_cons.mp h.inner
    refine List.pairwise_cons.mpr ⟨fun q hq => hStep p q hq (hFirst q hq), ?_⟩
    exact hRest.imp_of_mem fun _ hq => hStep _ _ hq

/-- At first all parallel loops are still to come. -/
theorem start (hIds : t.ids.Nodup) (hOld : ∀ i ∈ t.ids, i < next) :
    Pending next ((t.nodes.filter Stmt.isParallelLoop).map Stmt.id).reverse t where
  nodup := by
    rw [List.nodup_reverse]
    exact hIds.sublist (List.filter_sublist.map Stmt.id)
  old q hq := by
    obtain ⟨u, hu, rfl⟩ := List.mem_map.mp (List.mem_reverse.mp hq)
    exact hOld _ (List.mem_map_of_mem (List.mem_filter.mp hu).1)
  parallel q hq x hx hId := by
    obtain ⟨u, hu, rfl⟩ := List.mem_map.mp (List.mem_reverse.mp hq)
    obtain ⟨hu, hParallel⟩ := List.mem_filter.mp hu
    rwa [List.inj_on_of_nodup_map hIds hx hu hId]
  around q _ x hx hParallel _ := by
    rw [List.mem_reverse]
    exact List.mem_map_of_mem (List.mem_filter.mpr ⟨hx, hParallel⟩)
  inner := by
    rw [List.pairwise_reverse, List.pairwise_map]
    refine ((Stmt.pairwise_nodes t hIds).filter _).imp_of_mem ?_
    intro u v hu hv hNot x hx hId hMem
    obtain rfl := List.inj_on_of_nodup_map hIds hx (List.mem_filter.mp hv).1 hId
    exact hNot (Stmt.mem_nodes_of_id hIds (List.mem_filter.mp hu).1 hx hMem)

end Pending

/-- The buffers that are declared around a number have names of some kind. -/
def Hosts (P : String → Prop) (q : Nat) (t : Stmt) : Prop :=
  ∀ s n b body, .decl s n b body ∈ t.nodes → q ∈ body.ids → P n

theorem Hosts.update {P : String → Prop} {p q : Nat} {t u : Stmt} (h : Hosts P q t)
    (hNew : q ∈ u.ids → q = p) (hu : q = p → Hosts P q u) :
    Hosts P q (t.update p fun _ => u) := by
  intro s n b body hDecl hMem
  rcases Stmt.mem_around_update hDecl (by simp [hMem]) hNew with ⟨hDecl, hq⟩ | ⟨y, hy, hne, hEq, _⟩
  · exact hu hq s n b body hDecl hMem
  · rw [Stmt.update_eq, if_neg hne] at hEq
    obtain ⟨body', rfl, rfl⟩ := Stmt.decl_of_mapChildren hEq.symm
    exact h s n b body' hy (Stmt.mem_ids_of_update hMem hNew)

/-! ## Workspaces -/

namespace Placed

variable {used : List String} {next : Nat} {t : Stmt} {j : Job} {n : JobNames}

/-- The number of a loop is not inside it. -/
theorem id_not_mem_body (h : Placed used next t j) : j.loop.site.id ∉ j.loop.body.ids := by
  have hNodup := Stmt.nodup_ids_of_mem h.ids h.loop
  rw [LabelledLoop.stmt, Stmt.ids_loop] at hNodup
  exact (List.nodup_cons.mp hNodup).1

theorem id_not_mem_moved (h : Placed used next t j) : j.loop.site.id ∉ (j.moved n).ids := by
  have hIds : (j.moved n).ids = j.loop.body.ids := ids_redirect ..
  exact hIds ▸ h.id_not_mem_body

theorem filling_mem_stmt (space : MemSpace) : j.filling n next ∈ (j.stmt n space next).1.nodes := by
  rw [Job.stmt_eq]
  simp [Stmt.self_mem_nodes]

/-- In a workspace, the loop is the only parallel loop with its number inside. -/
theorem parallel_stmt (h : Placed used next t j) (space : MemSpace) :
    ∀ x ∈ (j.stmt n space next).1.nodes, j.loop.site.id ∈ x.ids →
      (x.isParallelLoop = true ↔ x.id = j.loop.site.id) := by
  intro x hx hMem
  constructor
  · intro hParallel
    rcases Job.mem_nodes_stmt hx with ⟨_, _, rfl⟩ | ⟨_, _, rfl⟩ | rfl | hFill | hMoved | rfl | hFold
    · cases hParallel
    · cases hParallel
    · rfl
    · rcases mem_nodes_fillNest hFill with rfl | ⟨_, _, _, _, rfl⟩
      · cases hParallel
      · cases hParallel
    · exact absurd (Stmt.ids_subset hMoved hMem) h.id_not_mem_moved
    · cases hParallel
    · rcases mem_nodes_fillNest hFold with rfl | ⟨_, _, _, _, rfl⟩
      · cases hParallel
      · cases hParallel
  · -- it is the loop, since numbers are different
    intro hId
    have hIds := (h.nodup_ids_stmt n space).1
    obtain rfl : x = j.filling n next :=
      List.inj_on_of_nodup_map hIds hx (filling_mem_stmt space) hId
    exact h.parallel

/-- In a workspace, the only declaration around the loop is that of the workspace. -/
theorem hosts_stmt (h : Placed used next t j) (space : MemSpace) :
    Hosts (· = n.space) j.loop.site.id (j.stmt n space next).1 := by
  intro s b buffer body hDecl hMem
  rcases Job.mem_nodes_stmt hDecl with ⟨_, _, hEq⟩ | ⟨_, _, hEq⟩ | hEq | hFill | hMoved | hEq | hFold
  · cases hEq
    rfl
  · cases hEq
  · cases hEq
  · exact absurd ⟨s, buffer, body, hFill⟩ (declares_fillNest b)
  · refine absurd (Stmt.ids_subset hMoved ?_) h.id_not_mem_moved
    simp [hMem]
  · cases hEq
  · exact absurd ⟨s, buffer, body, hFold⟩ (declares_fillNest b)

end Placed

/-- A state with one more workspace. -/
def State.withWorkspace (s : State Draft) (j : Job) (k : Nat) (space : MemSpace) : State Draft :=
  let n := j.names k s.supply
  let u := j.stmt n.1 space s.piece.next
  ⟨⟨s.piece.tree.update j.loop.site.id fun _ => u.1, u.2⟩, n.2, s.count + 1⟩

/-- What a reduction that can be moved consists of. -/
theorem Job.of_eq_ok {host : Option Buffer} {l : LabelledLoop} {b : String} {op : ReduceOp} {j : Job}
    (h : Job.of host l b op = .ok j) : j.loop = l ∧ j.buffer = b ∧ j.op = op ∧ host = some j.host
      ∧ j.op.neutral? j.host.elem = some j.neutral
      ∧ j.loop.body.nodes.any (assigns j.buffer j.op) = false := by
  unfold Job.of at h
  split at h
  · cases h
  · split at h
    · cases h
    · rename_i hNeutral
      split at h
      · cases h
      · rename_i hPlain
        cases h
        exact ⟨rfl, rfl, rfl, rfl, hNeutral, by simpa using hPlain⟩

/-! ## The next loop -/

section moving

variable {own before seen : List String} {s : State Draft}

/-- What is known of the next loop while its reductions are moved, for the names that were in use
    before.

    * **hosts**: the declarations around the loop are checked or new;
    * **reduces**: it still has the reductions into buffers that have no workspace yet. -/
structure Moving (own before : List String) (p : Nat) (seen : List String)
    (reductions : List (String × ReduceOp)) (t : Stmt) : Prop where
  hosts : Hosts (fun n => n ∈ own ∨ n ∉ before) p t
  reduces : ∀ s head body, .loop s head body ∈ t.nodes → s.id = p →
    ∀ r ∈ reductions, r.1 ∉ seen → body.ReducesInto r.1 r.2

/-- A workspace leaves the reductions into other buffers. -/
theorem Moving.withWorkspace {r : String × ReduceOp}
    {reductions : List (String × ReduceOp)} {j : Job}
    (h : Moving own before j.loop.site.id seen (r :: reductions) s.piece.tree)
    (hPlaced : Placed s.supply.used s.piece.next s.piece.tree j) {k : Nat} {space : MemSpace}
    (hIds : (s.withWorkspace j k space).piece.tree.ids.Nodup)
    (hNew : (j.names k s.supply).1.space ∉ before) :
    Moving own before j.loop.site.id (j.buffer :: seen) reductions
      (s.withWorkspace j k space).piece.tree where
  hosts := by
    refine h.hosts.update (fun _ => rfl) fun _ s n b body hDecl hMem => ?_
    rw [hPlaced.hosts_stmt space s n b body hDecl hMem]
    exact .inr hNew
  reduces site head body hLoop hId r' hr' hSeen := by
    obtain ⟨hne, hSeen⟩ := not_or.mp (mt List.mem_cons.mpr hSeen)
    -- the loop is the one that fills rows
    have hReplaces := Stmt.replaces_update
      (v := (j.stmt (j.names k s.supply).1 space s.piece.next).1) s.piece.tree hPlaced.ids
      hPlaced.loop
    have hFilling : j.filling (j.names k s.supply).1 s.piece.next
        ∈ (s.withWorkspace j k space).piece.tree.nodes :=
      Stmt.mem_nodes_trans (Placed.filling_mem_stmt space) hReplaces.symm.mem
    have hSame := List.inj_on_of_nodup_map hIds hLoop hFilling hId
    cases hSame
    have hOld : j.loop.body.ReducesInto r'.1 r'.2 :=
      h.reduces _ _ _ hPlaced.loop rfl r' (List.mem_cons_of_mem r hr') hSeen
    have hMoved : (j.moved (j.names k s.supply).1).ReducesInto r'.1 r'.2 :=
      reducesInto_redirect_of hne hOld
    exact hMoved.of_mem (by simp [Stmt.self_mem_nodes])

/-- The body of a safe loop has the reductions of the verdict. -/
theorem reducesInto_body_of_verdict {l : LabelledLoop} {maxLevels : Nat}
    {rs : List (String × ReduceOp)} (hSafe : l.stmt.parallelVerdict maxLevels = .safe rs) :
    ∀ r ∈ rs, l.body.ReducesInto r.1 r.2 := by
  intro r hr
  obtain ⟨site, is, v, rhs, hStore, hReduction⟩ := Stmt.reducesInto_of_verdict hSafe hr
  exact ⟨site, is, v, rhs, by simpa [LabelledLoop.stmt] using hStore, hReduction⟩

/-- A loop is found by its number. -/
theorem loopNumbered?_of_mem {l : LabelledLoop} (hIds : s.piece.tree.ids.Nodup)
    (hl : l.stmt ∈ s.piece.tree.nodes) : loopNumbered? s.piece l.site.id = some l := by
  have hFound : Restructure.Workpiece.stmt? s.piece l.site.id = some l.stmt :=
    Stmt.find?_of_mem hIds hl
  rw [loopNumbered?, hFound]
  rfl

end moving

end Lower

end LoopNest

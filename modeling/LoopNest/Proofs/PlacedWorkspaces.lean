import LoopNest.Proofs.BuiltExprs
import LoopNest.Proofs.FreshNames
import LoopNest.Proofs.TidyPrograms
import LoopNest.Proofs.Workspaces

/-! # Workspaces around loops

  Lowering puts a workspace around a parallel loop below the declaration of a buffer
  (`Lower.Placed`). The statements of the workspace are known (`Lower.Job.mem_nodes_stmt`), and so is
  what they bind, declare, write and use: what the loop did before, and new names and numbers. -/

namespace LoopNest

/-- Neutral elements are numbers. -/
theorem ReduceOp.constant_of_neutral? {op : ReduceOp} {elem : ElemType} {e : Expr}
    (h : op.neutral? elem = some e) : (∃ v, e = .int v) ∨ ∃ v, e = .float v := by
  unfold neutral? at h
  split at h
  · exact .inl ⟨_, (Option.some.inj h).symm⟩
  · exact .inl ⟨_, (Option.some.inj h).symm⟩
  · exact .inr ⟨_, (Option.some.inj h).symm⟩
  · exact .inr ⟨_, (Option.some.inj h).symm⟩
  · cases h

/-- Names mean one thing when they do below a statement, and nothing below it introduces what it
    uses. -/
theorem Stmt.CleanNames.of_children {t : Stmt}
    (hScalars : ∀ x, t.OwnScalar x → ∀ w ∈ t.children, ¬ w.Binds x)
    (hBuffers : ∀ b, t.OwnBuffer b → ∀ w ∈ t.children, ¬ w.Declares b)
    (hBounds : ∀ h ∈ t.head?, h.iter ∉ h.lower.scalars ++ h.upper.scalars)
    (hChildren : ∀ w ∈ t.children, w.CleanNames) : t.CleanNames where
  scalars u hu x hx := by
    rw [nodes_eq_cons, List.mem_cons] at hu
    rcases hu with rfl | hu
    · exact hScalars x hx
    · obtain ⟨w, hw, hu⟩ := List.mem_flatMap.mp hu
      exact (hChildren w hw).scalars u hu x hx
  buffers u hu b hb := by
    rw [nodes_eq_cons, List.mem_cons] at hu
    rcases hu with rfl | hu
    · exact hBuffers b hb
    · obtain ⟨w, hw, hu⟩ := List.mem_flatMap.mp hu
      exact (hChildren w hw).buffers u hu b hb
  bounds s head body hLoop := by
    rw [nodes_eq_cons, List.mem_cons] at hLoop
    rcases hLoop with rfl | hLoop
    · exact hBounds head rfl
    · obtain ⟨w, hw, hLoop⟩ := List.mem_flatMap.mp hLoop
      exact (hChildren w hw).bounds s head body hLoop

namespace Lower

open Stmt (LabelledLoop)

/-! ## Nests -/

section nests

variable {next : Nat} {b : String} {is : List Expr} {v : Expr}

/-- A nest consists of a store and of one loop for every axis. -/
theorem mem_nodes_loopsAround {t x : Stmt} {axes : List (String × Expr)}
    (h : x ∈ (loopsAround next t axes).1.nodes) : x ∈ t.nodes ∨ ∃ axis ∈ axes, ∃ s body,
      x = .loop s { iter := axis.1, lower := .int 0, upper := axis.2 } body := by
  induction axes with
  | nil => exact .inl h
  | cons axis axes ih =>
    rw [loopsAround, Stmt.nodes_loop, List.mem_cons] at h
    rcases h with rfl | h
    · exact .inr ⟨axis, List.mem_cons_self, _, _, rfl⟩
    · rcases ih h with h | ⟨axis', h', hLoop⟩
      · exact .inl h
      · exact .inr ⟨axis', List.mem_cons_of_mem axis h', hLoop⟩

theorem mem_nodes_fillNest {x : Stmt} {axes : List (String × Expr)}
    (h : x ∈ (fillNest next axes b is v).1.nodes) : x = .store ⟨next, none⟩ b is v
      ∨ ∃ axis ∈ axes, ∃ s body,
        x = .loop s { iter := axis.1, lower := .int 0, upper := axis.2 } body := by
  rcases mem_nodes_loopsAround h with h | h
  · exact .inl (by simpa using h)
  · exact .inr h

variable {axes : List (String × Expr)}

theorem binds_fillNest {x : String} (h : (fillNest next axes b is v).1.Binds x) :
    x ∈ axes.map Prod.fst := by
  obtain ⟨s, head, body, hLoop, rfl⟩ := h
  rcases mem_nodes_fillNest hLoop with hEq | ⟨axis, hAxis, _, _, hEq⟩
  · cases hEq
  · cases hEq
    exact List.mem_map_of_mem hAxis

theorem declares_fillNest (b' : String) : ¬ (fillNest next axes b is v).1.Declares b' := by
  rintro ⟨s, buffer, body, hDecl⟩
  rcases mem_nodes_fillNest hDecl with hEq | ⟨_, _, _, _, hEq⟩
  · cases hEq
  · cases hEq

theorem localsOnly_fillNest : (fillNest next axes b is v).1.localsOnly = true := by
  refine Stmt.everywhere_iff.mpr fun x hx => ?_
  rcases mem_nodes_fillNest hx with rfl | ⟨_, _, _, _, rfl⟩
  · rfl
  · rfl

theorem mem_usedNames_fillNest {x : String} (h : x ∈ (fillNest next axes b is v).1.usedNames) :
    x = b ∨ x ∈ axes.map Prod.fst ∨ (∃ axis ∈ axes, x ∈ axis.2.scalars ∨ x ∈ axis.2.buffers)
      ∨ ∃ e ∈ is ++ [v], x ∈ e.scalars ∨ x ∈ e.buffers := by
  obtain ⟨u, hu, hName⟩ := Stmt.mem_usedNames.mp h
  rcases mem_nodes_fillNest hu with rfl | ⟨axis, hAxis, _, _, rfl⟩
  · rcases hName with hName | hName
    · exact .inl (by simpa [Stmt.ownNames] using hName)
    · exact .inr (.inr (.inr hName))
  · rcases hName with hName | ⟨e, he, hName⟩
    · obtain rfl : x = axis.1 := by simpa [Stmt.ownNames] using hName
      exact .inr (.inl (List.mem_map_of_mem hAxis))
    · rcases List.mem_cons.mp he with rfl | he
      · simp at hName
      · obtain rfl := List.mem_singleton.mp he
        exact .inr (.inr (.inl ⟨axis, hAxis, hName⟩))

/-- The iterators of a nest mean one thing when they are different and no extent uses them. -/
theorem cleanNames_fillNest (hIters : (axes.map Prod.fst).Nodup)
    (hExtents : ∀ axis ∈ axes, ∀ x ∈ axis.2.scalars, x ∉ axes.map Prod.fst) :
    (fillNest next axes b is v).1.CleanNames := by
  induction axes with
  | nil =>
    exact .of_children (fun _ _ _ h => by cases h) (fun _ _ _ h => by cases h) (fun _ h => by cases h)
      (fun _ h => by cases h)
  | cons axis axes ih =>
    obtain ⟨hIter, hRest⟩ := List.nodup_cons.mp hIters
    have hBody := ih hRest fun axis' h' x hx hMem =>
      hExtents axis' (List.mem_cons_of_mem axis h') x hx (List.mem_cons_of_mem axis.1 hMem)
    have hEq : (fillNest next (axis :: axes) b is v).1
        = .loop ⟨(fillNest next axes b is v).2, none⟩
            { iter := axis.1, lower := .int 0, upper := axis.2 } (fillNest next axes b is v).1 := rfl
    rw [hEq]
    have hHere := hExtents axis List.mem_cons_self
    refine .of_children (fun x hx w hw hBinds => ?_) (fun b' _ w hw => ?_) (fun head hHead hMem => ?_)
      (fun w hw => ?_)
    · obtain rfl := List.mem_singleton.mp hw
      have hMem := binds_fillNest hBinds
      rcases hx with ⟨e, he, hx⟩ | ⟨head, hHead, rfl⟩
      · rcases List.mem_cons.mp he with rfl | he
        · cases hx
        · obtain rfl := List.mem_singleton.mp he
          exact hHere x hx (List.mem_cons_of_mem axis.1 hMem)
      · cases hHead
        exact hIter hMem
    · obtain rfl := List.mem_singleton.mp hw
      exact declares_fillNest b'
    · cases hHead
      rcases List.mem_append.mp hMem with hMem | hMem
      · cases hMem
      · exact hHere axis.1 hMem List.mem_cons_self
    · obtain rfl := List.mem_singleton.mp hw
      exact hBody

/-- The numbers of a nest are different, from the first free one on. -/
theorem nodup_ids_fillNest : (fillNest next axes b is v).1.ids.Nodup
    ∧ ∀ i ∈ (fillNest next axes b is v).1.ids, next ≤ i ∧ i < (fillNest next axes b is v).2 := by
  induction axes with
  | nil => simp [fillNest, loopsAround]
  | cons axis axes ih =>
    obtain ⟨hNodup, hIds⟩ := ih
    have hEq : (fillNest next (axis :: axes) b is v)
        = (.loop ⟨(fillNest next axes b is v).2, none⟩
            { iter := axis.1, lower := .int 0, upper := axis.2 } (fillNest next axes b is v).1,
          (fillNest next axes b is v).2 + 1) := rfl
    have hNext : next ≤ (fillNest next axes b is v).2 := ids_fillNest.1
    rw [hEq, Stmt.ids_loop, List.nodup_cons]
    refine ⟨⟨fun hMem => Nat.lt_irrefl _ (hIds _ hMem).2, hNodup⟩, fun i hi => ?_⟩
    rcases List.mem_cons.mp hi with rfl | hi
    · exact ⟨hNext, Nat.lt_succ_self _⟩
    · exact ⟨(hIds i hi).1, Nat.lt_succ_of_lt (hIds i hi).2⟩

end nests

/-! ## Moved programs -/

section moved

variable {y ws : String} {op : ReduceOp} {row : Expr} {t : Stmt}

/-- What is no store of the buffer is the same statement with moved children. -/
theorem redirect_eq_mapChildren (h : ∀ s is v, t ≠ .store s y is v) :
    redirect y ws op row t = t.mapChildren (redirect y ws op row) := by
  cases t with
  | store s b is v =>
    refine redirect_other _ _ (fun hb => ?_) is v
    exact h s is v (hb ▸ rfl)
  | block s ts => exact redirect_block y ws op row s ts
  | _ => rfl

/-- The statements of a moved program: those from before with moved children, and reductions. -/
theorem mem_nodes_redirect {x : Stmt} (hx : x ∈ (redirect y ws op row t).nodes) :
    (∃ u ∈ t.nodes, x = u.mapChildren (redirect y ws op row)
      ∧ ∀ s is v, u = .store s y is v → Expr.reduction? y is v = none)
    ∨ ∃ s is v op' rhs, .store s y is v ∈ t.nodes ∧ Expr.reduction? y is v = some (op', rhs)
      ∧ x = .store s ws (row :: is) (op.combine (.load ws (row :: is)) rhs) := by
  rw [nodes_redirect] at hx
  obtain ⟨u, hu, rfl⟩ := List.mem_map.mp hx
  by_cases hStore : ∃ s is v, u = .store s y is v
  · obtain ⟨s, is, v, rfl⟩ := hStore
    cases hReduction : Expr.reduction? y is v with
    | none =>
      refine .inl ⟨_, hu, ?_, fun s' is' v' hEq => ?_⟩
      · rw [redirect_store, redirectStore, if_pos (beq_self_eq_true y), hReduction]
        rfl
      · cases hEq
        exact hReduction
    | some r => exact .inr ⟨s, is, v, r.1, r.2, hu, hReduction, redirect_reduction ws row hReduction⟩
  · have hNot : ∀ s is v, u ≠ .store s y is v := fun s is v hEq => hStore ⟨s, is, v, hEq⟩
    exact .inl ⟨u, hu, redirect_eq_mapChildren hNot, fun s is v hEq => absurd hEq (hNot s is v)⟩

theorem binds_redirect {x : String} (hBinds : (redirect y ws op row t).Binds x) : t.Binds x := by
  obtain ⟨s, head, body, hLoop, hIter⟩ := hBinds
  rcases mem_nodes_redirect hLoop with ⟨u, hu, hEq, _⟩ | ⟨_, _, _, _, _, _, _, hEq⟩
  · obtain ⟨body', rfl, _⟩ := Stmt.loop_of_mapChildren hEq.symm
    exact ⟨s, head, body', hu, hIter⟩
  · cases hEq

theorem declares_redirect {b : String} (hDeclares : (redirect y ws op row t).Declares b) : t.Declares b := by
  obtain ⟨s, buffer, body, hDecl⟩ := hDeclares
  rcases mem_nodes_redirect hDecl with ⟨u, hu, hEq, _⟩ | ⟨_, _, _, _, _, _, _, hEq⟩
  · obtain ⟨body', rfl, _⟩ := Stmt.decl_of_mapChildren hEq.symm
    exact ⟨s, buffer, body', hu⟩
  · cases hEq

theorem localsOnly_redirect (hLocals : t.localsOnly = true) :
    (redirect y ws op row t).localsOnly = true := by
  refine Stmt.everywhere_iff.mpr fun x hx => ?_
  rcases mem_nodes_redirect hx with ⟨u, hu, rfl, _⟩ | ⟨_, _, _, _, _, _, _, rfl⟩
  · have hOld := Stmt.everywhere_iff.mp hLocals u hu
    cases u <;> exact hOld
  · rfl

theorem cleanNames_redirect (hNames : t.CleanNames) :
    (redirect y ws op row t).CleanNames := by
  -- the children of an old statement with moved children are moved
  have hChild : ∀ {u w : Stmt}, w ∈ (u.mapChildren (redirect y ws op row)).children →
      ∃ w' ∈ u.children, w = redirect y ws op row w' := by
    intro u w hw
    rw [Stmt.children_mapChildren] at hw
    obtain ⟨w', hw', rfl⟩ := List.mem_map.mp hw
    exact ⟨w', hw', rfl⟩
  refine ⟨fun x hx a ha w hw => ?_, fun x hx b hb w hw => ?_, fun s head body hLoop => ?_⟩
  · rcases mem_nodes_redirect hx with ⟨u, hu, rfl, _⟩ | ⟨_, _, _, _, _, _, _, rfl⟩
    · obtain ⟨w, hw', rfl⟩ := hChild hw
      intro hBinds
      exact hNames.scalars u hu a (by simpa [Stmt.OwnScalar] using ha) w hw'
        (binds_redirect hBinds)
    · cases hw
  · rcases mem_nodes_redirect hx with ⟨u, hu, rfl, _⟩ | ⟨_, _, _, _, _, _, _, rfl⟩
    · obtain ⟨w, hw', rfl⟩ := hChild hw
      intro hDeclares
      refine hNames.buffers u hu b ?_ w hw' (declares_redirect hDeclares)
      rcases hb with ⟨e, he, hMem⟩ | ⟨s, buffer, body, hEq⟩
      · exact .inl ⟨e, by simpa using he, hMem⟩
      · obtain ⟨body', rfl, _⟩ := Stmt.decl_of_mapChildren hEq
        exact .inr ⟨s, buffer, body', rfl⟩
    · cases hw
  · rcases mem_nodes_redirect hLoop with ⟨u, hu, hEq, _⟩ | ⟨_, _, _, _, _, _, _, hEq⟩
    · obtain ⟨body', rfl, _⟩ := Stmt.loop_of_mapChildren hEq.symm
      exact hNames.bounds s head body' hu
    · cases hEq

/-- The names of a moved program are old, or those of the workspace and the row. -/
theorem mem_usedNames_redirect {x : String} (hx : x ∈ (redirect y ws op row t).usedNames) :
    x ∈ t.usedNames ∨ x = ws ∨ x ∈ row.scalars ∨ x ∈ row.buffers := by
  obtain ⟨u, hu, hName⟩ := Stmt.mem_usedNames.mp hx
  rcases mem_nodes_redirect hu with ⟨w, hw, rfl, _⟩ | ⟨s, is, v, _, rhs, hStore, hReduction, rfl⟩
  · rw [Stmt.ownNames_mapChildren, Stmt.exprs_mapChildren] at hName
    exact .inl (Stmt.mem_usedNames.mpr ⟨w, hw, hName⟩)
  · -- the operand is a part of the old value
    have hOld : ∀ e ∈ is ++ [v], x ∈ e.scalars ∨ x ∈ e.buffers → x ∈ t.usedNames :=
      fun e he hx => Stmt.mem_usedNames.mpr ⟨_, hStore, .inr ⟨e, he, hx⟩⟩
    have hRhs : x ∈ rhs.scalars ∨ x ∈ rhs.buffers → x ∈ v.scalars ∨ x ∈ v.buffers := by
      have hParts := (Expr.of_reduction? hReduction).2.1
      rintro (hx | hx)
      · exact .inl (Expr.mem_scalars.mpr (hParts _ (Expr.mem_scalars.mp hx)))
      · obtain ⟨js, hPart⟩ := Expr.mem_buffers.mp hx
        exact .inr (Expr.mem_buffers.mpr ⟨js, hParts _ hPart⟩)
    have hCells : ∀ e ∈ row :: is, x ∈ e.scalars ∨ x ∈ e.buffers →
        x ∈ t.usedNames ∨ x = ws ∨ x ∈ row.scalars ∨ x ∈ row.buffers := by
      intro e he hMem
      rcases List.mem_cons.mp he with rfl | he
      · exact .inr (.inr hMem)
      · exact .inl (hOld e (List.mem_append_left _ he) hMem)
    rcases hName with hName | ⟨e, he, hName⟩
    · exact .inr (.inl (by simpa [Stmt.ownNames] using hName))
    · rcases List.mem_append.mp he with he | he
      · exact hCells e he hName
      · obtain rfl := List.mem_singleton.mp he
        simp only [ReduceOp.combine, Expr.scalars_binary, Expr.scalars_load, Expr.buffers_binary,
          Expr.buffers_load, List.mem_append, List.mem_cons, List.mem_flatMap] at hName
        rcases hName with (⟨e, he, hx⟩ | hx) | ((rfl | ⟨e, he, hx⟩) | hx)
        · exact hCells e (List.mem_cons.mpr he) (.inl hx)
        · exact .inl (hOld v (by simp) (hRhs (.inl hx)))
        · exact .inr (.inl rfl)
        · exact hCells e (List.mem_cons.mpr he) (.inr hx)
        · exact .inl (hOld v (by simp) (hRhs (.inr hx)))

end moved

/-! ## Workspaces in tidy programs -/

/-- The statements of a workspace. -/
theorem Job.mem_nodes_stmt {j : Job} {n : JobNames} {space : MemSpace} {next : Nat} {x : Stmt}
    (hx : x ∈ (j.stmt n space next).1.nodes) :
    (∃ s body, x = .decl s n.space ⟨j.rows :: j.host.shape, j.host.elem, .cache, space⟩ body)
      ∨ (∃ s ts, x = .block s ts) ∨ x = j.filling n next ∨ x ∈ (j.fill n next).1.nodes
      ∨ x ∈ (j.moved n).nodes ∨ x = j.combining n ((j.fill n next).2 + 1)
      ∨ x ∈ (j.fold n ((j.fill n next).2 + 1)).1.nodes := by
  rw [stmt_eq] at hx
  simp only [Stmt.nodes_decl, Stmt.nodes_block, List.mem_cons, List.flatMap_cons, List.flatMap_nil,
    List.append_nil, List.mem_append] at hx
  rcases hx with rfl | rfl | hx | hx
  · exact .inl ⟨_, _, rfl⟩
  · exact .inr (.inl ⟨_, _, rfl⟩)
  · simp only [filling, Stmt.nodes_loop, Stmt.nodes_block, List.mem_cons, List.flatMap_cons,
      List.flatMap_nil, List.append_nil, List.mem_append] at hx
    rcases hx with rfl | rfl | hx | hx
    · exact .inr (.inr (.inl rfl))
    · exact .inr (.inl ⟨_, _, rfl⟩)
    · exact .inr (.inr (.inr (.inl hx)))
    · exact .inr (.inr (.inr (.inr (.inl hx))))
  · simp only [combining, Stmt.nodes_loop, List.mem_cons] at hx
    rcases hx with rfl | hx
    · exact .inr (.inr (.inr (.inr (.inr (.inl rfl)))))
    · exact .inr (.inr (.inr (.inr (.inr (.inr hx)))))

/-- The numbers of a workspace are different when those of its loop are. -/
theorem Job.nodup_ids_stmt {j : Job} {next : Nat} (hNodup : j.loop.stmt.ids.Nodup)
    (hOld : ∀ i ∈ j.loop.stmt.ids, i < next) (n : JobNames) (space : MemSpace) :
    (j.stmt n space next).1.ids.Nodup
      ∧ ∀ i ∈ (j.stmt n space next).1.ids, i < (j.stmt n space next).2 := by
  have hLoop : j.loop.stmt.ids = j.loop.site.id :: j.loop.body.ids := Stmt.ids_loop ..
  rw [hLoop, List.nodup_cons] at hNodup
  rw [hLoop] at hOld
  have hMoved : (j.moved n).ids = j.loop.body.ids := ids_redirect ..
  obtain ⟨hFill, hFillIds⟩ : (j.fill n next).1.ids.Nodup
      ∧ ∀ i ∈ (j.fill n next).1.ids, next ≤ i ∧ i < (j.fill n next).2 := nodup_ids_fillNest
  have hFillNext : next ≤ (j.fill n next).2 := ids_fillNest.1
  rw [Job.stmt_eq]
  dsimp only
  generalize hLater : (j.fill n next).2 + 1 = later
  obtain ⟨hFold, hFoldIds⟩ : (j.fold n later).1.ids.Nodup
      ∧ ∀ i ∈ (j.fold n later).1.ids, later ≤ i ∧ i < (j.fold n later).2 := nodup_ids_fillNest
  have hFoldNext : later ≤ (j.fold n later).2 := ids_fillNest.1
  have hBody : ∀ i ∈ j.loop.body.ids, i < next := fun i hi => hOld i (List.mem_cons_of_mem _ hi)
  have hSite := hOld _ List.mem_cons_self
  -- the loop with its fillings, then the loop that combines
  have hFilling : (j.filling n next).ids.Nodup ∧ ∀ i ∈ (j.filling n next).ids, i < later := by
    have hIds : (j.filling n next).ids
        = j.loop.site.id :: (j.fill n next).2 :: ((j.fill n next).1.ids ++ j.loop.body.ids) := by
      rw [← hMoved]
      simp [Job.filling]
    rw [hIds]
    simp only [List.nodup_cons, List.nodup_append, List.mem_cons, List.mem_append, not_or]
    refine ⟨⟨⟨by omega, fun hi => ?_, hNodup.1⟩, ⟨fun hi => ?_, fun hi => ?_⟩, hFill, hNodup.2,
      fun i hi k hk hEq => ?_⟩, fun i hi => ?_⟩
    · have := hFillIds _ hi
      omega
    · have := hFillIds _ hi
      omega
    · have := hBody _ hi
      omega
    · have := hFillIds i hi
      have := hBody k hk
      omega
    · rcases hi with rfl | rfl | hi | hi
      · omega
      · omega
      · have := hFillIds i hi
        omega
      · have := hBody i hi
        omega
  have hCombining : (j.combining n later).ids.Nodup
      ∧ ∀ i ∈ (j.combining n later).ids, later ≤ i ∧ i ≤ (j.fold n later).2 := by
    rw [Job.combining, Stmt.ids_loop, List.nodup_cons]
    refine ⟨⟨fun hi => Nat.lt_irrefl _ (hFoldIds _ hi).2, hFold⟩, fun i hi => ?_⟩
    rcases List.mem_cons.mp hi with rfl | hi
    · exact ⟨hFoldNext, Nat.le_refl _⟩
    · exact ⟨(hFoldIds i hi).1, Nat.le_of_lt (hFoldIds i hi).2⟩
  simp only [Stmt.ids_decl, Stmt.ids_block, List.flatMap_cons, List.flatMap_nil, List.append_nil,
    List.nodup_cons, List.nodup_append, List.mem_cons, List.mem_append, not_or]
  refine ⟨⟨⟨by omega, fun hi => ?_, fun hi => ?_⟩, ⟨fun hi => ?_, fun hi => ?_⟩, hFilling.1,
    hCombining.1, fun i hi k hk hEq => ?_⟩, fun i hi => ?_⟩
  · have := hFilling.2 _ hi
    omega
  · have := hCombining.2 _ hi
    omega
  · have := hFilling.2 _ hi
    omega
  · have := hCombining.2 _ hi
    omega
  · have := hFilling.2 i hi
    have := hCombining.2 k hk
    omega
  · rcases hi with rfl | rfl | hi | hi
    · omega
    · omega
    · have := hFilling.2 i hi
      omega
    · have := hCombining.2 i hi
      omega

/-- A loop and the declaration of the buffer for which it gets a workspace, in a program with these
    names and with smaller numbers.

    * **ids**, **old**, **names**: the numbers are different, and names and numbers are in use;
    * **loop**: it is a loop of the program;
    * **host**, **neutral**: the buffer is declared around the loop, with a neutral element. -/
structure Hosted (used : List String) (next : Nat) (t : Stmt) (j : Job) : Prop where
  ids : t.ids.Nodup
  old : ∀ i ∈ t.ids, i < next
  names : ∀ x ∈ t.usedNames, x ∈ used
  loop : j.loop.stmt ∈ t.nodes
  host : ∃ s body, .decl s j.buffer j.host body ∈ t.nodes ∧ j.loop.site.id ∈ body.ids
  neutral : j.op.neutral? j.host.elem = some j.neutral

/-- A parallel loop for which a workspace is made. -/
structure Placed (used : List String) (next : Nat) (t : Stmt) (j : Job) : Prop
    extends Hosted used next t j where
  parallel : j.loop.head.isParallel = true

section rows

variable {j : Job}

theorem Placed.mem_scalars_row {x : String} (hx : x ∈ j.row.scalars) :
    x = j.loop.head.iter ∨ x ∈ j.loop.head.lower.scalars := by
  rcases Expr.mem_scalars_minus hx with hx | hx
  · exact .inl (by simpa using hx)
  · exact .inr hx

theorem Placed.mem_buffers_row {b : String} (hb : b ∈ j.row.buffers) : b ∈ j.loop.head.lower.buffers := by
  rcases Expr.mem_buffers_minus hb with hb | hb
  · cases hb
  · exact hb

theorem Placed.exists_bound_of_scalars_rows {x : String} (hx : x ∈ j.rows.scalars) :
    ∃ e ∈ [j.loop.head.lower, j.loop.head.upper], x ∈ e.scalars := by
  rcases Expr.mem_scalars_minus hx with hx | hx
  · exact ⟨_, by simp, hx⟩
  · exact ⟨_, by simp, hx⟩

theorem Placed.exists_bound_of_buffers_rows {b : String} (hb : b ∈ j.rows.buffers) :
    ∃ e ∈ [j.loop.head.lower, j.loop.head.upper], b ∈ e.buffers := by
  rcases Expr.mem_buffers_minus hb with hb | hb
  · exact ⟨_, by simp, hb⟩
  · exact ⟨_, by simp, hb⟩

end rows

namespace Hosted

variable {used : List String} {next : Nat} {t : Stmt} {j : Job} {n : JobNames} {s' : NameSupply}

theorem body_mem (h : Hosted used next t j) : j.loop.body ∈ t.nodes :=
  Stmt.mem_nodes_trans (by simp [LabelledLoop.stmt, Stmt.self_mem_nodes]) h.loop

/-- The names in the bounds are in use. -/
theorem used_of_bound (h : Hosted used next t j) {e : Expr}
    (he : e ∈ [j.loop.head.lower, j.loop.head.upper]) {x : String}
    (hx : x ∈ e.scalars ∨ x ∈ e.buffers) : x ∈ used :=
  h.names x (Stmt.mem_usedNames.mpr ⟨_, h.loop, .inr ⟨e, he, hx⟩⟩)

theorem iter_used (h : Hosted used next t j) : j.loop.head.iter ∈ used :=
  h.names _ (Stmt.mem_usedNames.mpr ⟨_, h.loop, .inl (by simp [LabelledLoop.stmt, Stmt.ownNames])⟩)

theorem row_used (h : Hosted used next t j) {x : String}
    (hx : x ∈ j.row.scalars ∨ x ∈ j.row.buffers) : x ∈ used := by
  rcases hx with hx | hx
  · rcases Placed.mem_scalars_row hx with rfl | hx
    · exact h.iter_used
    · exact h.used_of_bound (by simp) (.inl hx)
  · exact h.used_of_bound (by simp) (.inr (Placed.mem_buffers_row hx))

/-- The names in the shape are in use. -/
theorem used_of_shape (h : Hosted used next t j) {e : Expr} (he : e ∈ j.host.shape) {x : String}
    (hx : x ∈ e.scalars ∨ x ∈ e.buffers) : x ∈ used := by
  obtain ⟨s, body, hDecl, _⟩ := h.host
  exact h.names x (Stmt.mem_usedNames.mpr ⟨_, hDecl, .inr ⟨e, he, hx⟩⟩)

/-- The loop is below the declaration. -/
theorem loop_below (h : Hosted used next t j) :
    ∃ s body, .decl s j.buffer j.host body ∈ t.nodes ∧ j.loop.stmt ∈ body.nodes := by
  obtain ⟨s, body, hDecl, hId⟩ := h.host
  refine ⟨s, body, hDecl, Stmt.mem_nodes_of_id h.ids h.loop ?_ hId⟩
  exact Stmt.mem_nodes_trans (by simp [Stmt.self_mem_nodes]) hDecl

/-- All names of a workspace are in use or drawn. -/
theorem used_stmt (h : Hosted used next t j)
    (hLength : n.fillIters.length = j.host.shape.length ∧ n.foldIters.length = j.host.shape.length)
    (space : MemSpace) {x : String}
    (hx : x ∈ (j.stmt n space next).1.usedNames) : x ∈ n.all ∨ x ∈ used := by
  have hShape : ∀ e ∈ j.host.shape, x ∈ e.scalars ∨ x ∈ e.buffers → x ∈ n.all ∨ x ∈ used :=
    fun e he hx => .inr (h.used_of_shape he hx)
  have hRows : x ∈ j.rows.scalars ∨ x ∈ j.rows.buffers → x ∈ n.all ∨ x ∈ used := by
    rintro (hx | hx)
    · obtain ⟨e, he, hx⟩ := Placed.exists_bound_of_scalars_rows hx
      exact .inr (h.used_of_bound he (.inl hx))
    · obtain ⟨e, he, hx⟩ := Placed.exists_bound_of_buffers_rows hx
      exact .inr (h.used_of_bound he (.inr hx))
  have hVars : ∀ iters : List String, iters ⊆ n.all → ∀ e ∈ iters.map Expr.var,
      x ∈ e.scalars ∨ x ∈ e.buffers → x ∈ n.all ∨ x ∈ used := by
    intro iters hIters e he hx
    obtain ⟨iter, hIter, rfl⟩ := List.mem_map.mp he
    rcases hx with hx | hx
    · obtain rfl : x = iter := by simpa using hx
      exact .inl (hIters hIter)
    · cases hx
  have hFillIters : n.fillIters ⊆ n.all := fun y hy => by simp [JobNames.all, hy]
  have hFoldIters : n.foldIters ⊆ n.all := fun y hy => by simp [JobNames.all, hy]
  have hSpace : n.space ∈ n.all := List.mem_cons_self
  have hBuffer : j.buffer ∈ used :=
    h.host.elim fun _ hHost => hHost.elim fun _ hDecl =>
      h.names _ (Stmt.mem_usedNames.mpr ⟨_, hDecl.1, .inl (by simp [Stmt.ownNames])⟩)
  -- the statements that fill and combine have names of axes, extents and cells
  have hAxes : ∀ iters : List String, iters.length = j.host.shape.length → iters ⊆ n.all →
      (x ∈ (iters.zip j.host.shape).map Prod.fst → x ∈ n.all ∨ x ∈ used)
        ∧ ((∃ axis ∈ iters.zip j.host.shape, x ∈ axis.2.scalars ∨ x ∈ axis.2.buffers) →
          x ∈ n.all ∨ x ∈ used) := by
    intro iters hLength hIters
    constructor
    · intro hMem
      rw [List.map_fst_zip (Nat.le_of_eq hLength)] at hMem
      exact .inl (hIters hMem)
    · rintro ⟨axis, hAxis, hx⟩
      exact hShape axis.2 (List.of_mem_zip hAxis).2 hx
  have hNeutral : ¬ (x ∈ j.neutral.scalars ∨ x ∈ j.neutral.buffers) := by
    rcases ReduceOp.constant_of_neutral? h.neutral with ⟨v, hEq⟩ | ⟨v, hEq⟩ <;> simp [hEq]
  obtain ⟨u, hu, hName⟩ := Stmt.mem_usedNames.mp hx
  have hIn : ∀ {w : Stmt}, u ∈ w.nodes → x ∈ w.usedNames := fun hw =>
    Stmt.mem_usedNames.mpr ⟨u, hw, hName⟩
  rcases Job.mem_nodes_stmt hu with ⟨_, _, rfl⟩ | ⟨_, _, rfl⟩ | rfl | hFill | hMoved | rfl | hFold
  · rcases hName with hName | ⟨e, he, hName⟩
    · obtain rfl : x = n.space := by simpa [Stmt.ownNames] using hName
      exact .inl hSpace
    · rcases List.mem_cons.mp he with rfl | he
      · exact hRows hName
      · exact hShape e he hName
  · rcases hName with hName | ⟨e, he, hName⟩
    · cases hName
    · cases he
  · rcases hName with hName | ⟨e, he, hName⟩
    · obtain rfl : x = j.loop.head.iter := by simpa [Job.filling, Stmt.ownNames] using hName
      exact .inr h.iter_used
    · exact .inr (h.used_of_bound he hName)
  · rcases mem_usedNames_fillNest (hIn hFill) with rfl | hx | hx | ⟨e, he, hx⟩
    · exact .inl hSpace
    · exact (hAxes _ hLength.1 hFillIters).1 hx
    · exact (hAxes _ hLength.1 hFillIters).2 hx
    · rcases List.mem_append.mp he with he | he
      · rcases List.mem_cons.mp he with rfl | he
        · exact .inr (h.row_used hx)
        · exact hVars _ hFillIters e he hx
      · obtain rfl := List.mem_singleton.mp he
        exact absurd hx hNeutral
  · rcases mem_usedNames_redirect (hIn hMoved) with hx | rfl | hx
    · exact .inr (h.names x (Stmt.usedNames_subset h.body_mem hx))
    · exact .inl hSpace
    · exact .inr (h.row_used hx)
  · rcases hName with hName | ⟨e, he, hName⟩
    · obtain rfl : x = n.rowIter := by simpa [Job.combining, Stmt.ownNames] using hName
      exact .inl (by simp [JobNames.all])
    · rcases List.mem_cons.mp he with rfl | he
      · simp at hName
      · obtain rfl := List.mem_singleton.mp he
        exact hRows hName
  · have hCells : ∀ e ∈ Expr.var n.rowIter :: n.foldIters.map Expr.var,
        x ∈ e.scalars ∨ x ∈ e.buffers → x ∈ n.all ∨ x ∈ used := by
      intro e he hx
      refine hVars (n.rowIter :: n.foldIters) (fun y hy => ?_) e he hx
      exact List.mem_cons_of_mem _ (List.mem_append_right _ hy)
    rcases mem_usedNames_fillNest (hIn hFold) with rfl | hx | hx | ⟨e, he, hx⟩
    · exact .inr hBuffer
    · exact (hAxes _ hLength.2 hFoldIters).1 hx
    · exact (hAxes _ hLength.2 hFoldIters).2 hx
    · rcases List.mem_append.mp he with he | he
      · exact hCells e (List.mem_cons_of_mem _ he) hx
      · obtain rfl := List.mem_singleton.mp he
        simp only [ReduceOp.combine, Expr.scalars_binary, Expr.scalars_load, Expr.buffers_binary,
          Expr.buffers_load, List.mem_append, List.mem_cons, List.mem_flatMap] at hx
        rcases hx with (⟨e, he, hx⟩ | ⟨e, he, hx⟩)
          | (rfl | ⟨e, he, hx⟩) | (rfl | ⟨e, he, hx⟩)
        · exact hCells e (List.mem_cons_of_mem _ he) (.inl hx)
        · exact hCells e (List.mem_cons.mpr he) (.inl hx)
        · exact .inr hBuffer
        · exact hCells e (List.mem_cons_of_mem _ he) (.inr hx)
        · exact .inl hSpace
        · exact hCells e (List.mem_cons.mpr he) (.inr hx)

end Hosted

namespace Placed

variable {used : List String} {next : Nat} {t : Stmt} {j : Job} {n : JobNames} {s' : NameSupply}

section names

variable (h : Placed used next t j) (hn : NameSupply.Draws ⟨used⟩ n.all s')
  (hLength : n.fillIters.length = j.host.shape.length ∧ n.foldIters.length = j.host.shape.length)

include hn in
theorem not_used {x : String} (hx : x ∈ n.all) : x ∉ used := hn.fresh x hx

include h hn in
theorem space_not_used : n.space ∉ used ∧ ¬ j.loop.body.Reads n.space
    ∧ ¬ j.loop.body.Writes n.space ∧ ¬ j.loop.body.Declares n.space := by
  have hSpace : n.space ∉ used := not_used hn List.mem_cons_self
  have hBody : ∀ x ∈ j.loop.body.usedNames, x ∈ used := fun x hx =>
    h.names x (Stmt.usedNames_subset h.body_mem hx)
  exact ⟨hSpace, fun hReads => hSpace (hBody _ hReads.mem_usedNames),
    fun hWrites => hSpace (hBody _ hWrites.mem_usedNames),
    fun hDeclares => hSpace (hBody _ hDeclares.mem_usedNames)⟩

/-- What is written inside a workspace. -/
theorem writes_stmt {space : MemSpace} {b : String}
    (hWrites : (j.stmt n space next).1.Writes b) :
    b = n.space ∨ b = j.buffer ∨ j.loop.body.Writes b := by
  obtain ⟨s, is, v, hStore⟩ := hWrites
  rcases Job.mem_nodes_stmt hStore with ⟨_, _, hEq⟩ | ⟨_, _, hEq⟩ | hEq | hFill | hMoved | hEq | hFold
  · cases hEq
  · cases hEq
  · cases hEq
  · exact .inl ((writes_loopsAround _ _).mp ⟨s, is, v, hFill⟩)
  · rcases mem_nodes_redirect hMoved with ⟨u, hu, hEq, _⟩ | ⟨_, _, _, _, _, _, _, hEq⟩
    · obtain rfl := Stmt.store_of_mapChildren hEq.symm
      exact .inr (.inr ⟨s, is, v, hu⟩)
    · cases hEq
      exact .inl rfl
  · cases hEq
  · exact .inr (.inl ((writes_loopsAround _ _).mp ⟨s, is, v, hFold⟩))

include hn hLength in
/-- What is bound inside a workspace. -/
theorem binds_stmt {space : MemSpace} {x : String} (hBinds : (j.stmt n space next).1.Binds x) :
    j.loop.stmt.Binds x ∨ x ∉ used := by
  have hBody : j.loop.body ∈ j.loop.stmt.nodes := by simp [LabelledLoop.stmt, Stmt.self_mem_nodes]
  obtain ⟨s, head, body, hLoop, rfl⟩ := hBinds
  rcases Job.mem_nodes_stmt hLoop with ⟨_, _, hEq⟩ | ⟨_, _, hEq⟩ | hEq | hFill | hMoved | hEq | hFold
  · cases hEq
  · cases hEq
  · cases hEq
    exact .inl ⟨_, _, _, Stmt.self_mem_nodes _, rfl⟩
  · have hMem := binds_fillNest ⟨s, head, body, hFill, rfl⟩
    rw [List.map_fst_zip (Nat.le_of_eq hLength.1)] at hMem
    exact .inr (not_used hn (by simp [JobNames.all, hMem]))
  · exact .inl ((binds_redirect ⟨s, head, body, hMoved, rfl⟩).of_mem hBody)
  · cases hEq
    exact .inr (not_used hn (by simp [JobNames.all]))
  · have hMem := binds_fillNest ⟨s, head, body, hFold, rfl⟩
    rw [List.map_fst_zip (Nat.le_of_eq hLength.2)] at hMem
    exact .inr (not_used hn (by simp [JobNames.all, hMem]))

include hn in
/-- What is declared inside a workspace. -/
theorem declares_stmt {space : MemSpace} {b : String}
    (hDeclares : (j.stmt n space next).1.Declares b) : j.loop.stmt.Declares b ∨ b ∉ used := by
  have hBody : j.loop.body ∈ j.loop.stmt.nodes := by simp [LabelledLoop.stmt, Stmt.self_mem_nodes]
  obtain ⟨s, buffer, body, hDecl⟩ := hDeclares
  rcases Job.mem_nodes_stmt hDecl with ⟨_, _, hEq⟩ | ⟨_, _, hEq⟩ | hEq | hFill | hMoved | hEq | hFold
  · cases hEq
    exact .inr (not_used hn List.mem_cons_self)
  · cases hEq
  · cases hEq
  · exact absurd ⟨s, buffer, body, hFill⟩ (declares_fillNest b)
  · exact .inl ((declares_redirect ⟨s, buffer, body, hMoved⟩).of_mem hBody)
  · cases hEq
  · exact absurd ⟨s, buffer, body, hFold⟩ (declares_fillNest b)

/-- The numbers of a workspace are different. -/
theorem nodup_ids_stmt (h : Placed used next t j) (n : JobNames) (space : MemSpace) :
    (j.stmt n space next).1.ids.Nodup
      ∧ ∀ i ∈ (j.stmt n space next).1.ids, i < (j.stmt n space next).2 :=
  Job.nodup_ids_stmt (Stmt.nodup_ids_of_mem h.ids h.loop)
    (fun i hi => h.old i (Stmt.ids_subset h.loop hi)) n space

end names

end Placed

end Lower

end LoopNest

import LoopNest.Proofs.PlacedWorkspaces

/-! # Trees with workspaces

  Lowering puts a workspace around a parallel loop of a tidy program (`Lower.Ready`). The names and
  numbers that it draws are new, so the workspace is what the runs of the loop ask for
  (`Lower.Ready.fits`), it introduces only what is new (`Lower.Ready.inherits`), and the program
  stays tidy (`Lower.Ready.tidy_stmt`). -/

namespace LoopNest.Lower

open Stmt (LabelledLoop)

/-- What lowering knows of a loop for whose reductions it makes a workspace.

    * **tidy**: the program is tidy;
    * **reduces**, **writes**: the body uses the buffer in reductions only, and there are some;
    * **owned**, **known**: the declaration of the buffer is checked, as those of no new names. -/
structure Ready (own used : List String) (next : Nat) (t : Stmt) (j : Job) : Prop
    extends Placed used next t j where
  tidy : t.Tidy own used next
  reduces : j.loop.body.OnlyReduces j.buffer j.op
  writes : j.loop.body.Writes j.buffer
  owned : j.buffer ∈ own
  known : own ⊆ used

namespace Ready

variable {own used : List String} {next : Nat} {t : Stmt} {j : Job} {n : JobNames} {s' : NameSupply}

theorem steady (h : Ready own used next t j) :
    ∀ e ∈ [j.loop.head.lower, j.loop.head.upper],
      j.loop.body.Still e ∧ j.loop.head.iter ∉ e.scalars :=
  h.tidy.steady _ _ _ h.loop h.parallel

/-- The loop does not declare the buffer again. -/
theorem not_declares (h : Ready own used next t j) : ¬ j.loop.stmt.Declares j.buffer := by
  obtain ⟨s, body, hDecl, hBelow⟩ := h.loop_below
  intro hDeclares
  exact (h.tidy.names.of_mem hDecl).not_declares (hDeclares.of_mem hBelow)

/-- The shape means the same everywhere in the loop. -/
theorem not_binds_shape (h : Ready own used next t j) {e : Expr} (he : e ∈ j.host.shape) {x : String}
    (hx : x ∈ e.scalars) : ¬ j.loop.stmt.Binds x := by
  obtain ⟨s, body, hDecl, hBelow⟩ := h.loop_below
  intro hBinds
  exact (h.tidy.names.of_mem hDecl).not_binds_shape he hx (hBinds.of_mem hBelow)

theorem shape_buffers (h : Ready own used next t j) {e : Expr} (he : e ∈ j.host.shape) :
    e.buffers = [] := by
  obtain ⟨s, body, hDecl, _⟩ := h.host
  exact h.tidy.shapes s _ _ body hDecl h.owned e he

section names

variable (h : Ready own used next t j) (hn : NameSupply.Draws ⟨used⟩ n.all s')
  (hLength : n.fillIters.length = j.host.shape.length ∧ n.foldIters.length = j.host.shape.length)

include h hn in
theorem movable : Movable j.buffer n.space j.op j.row j.loop.body := by
  obtain ⟨hSpace, hReads, hWrites, hDeclares⟩ := h.space_not_used hn
  have hLower := (h.steady j.loop.head.lower (by simp)).1
  refine ⟨h.reduces, fun hDeclares => ?_, ⟨fun x hx => ?_, fun b hb => ?_, fun b hb => ?_⟩, hReads,
    hWrites, hDeclares, fun hMem => ?_, fun hEq => ?_⟩
  · exact h.not_declares (hDeclares.of_mem (by simp [LabelledLoop.stmt, Stmt.self_mem_nodes]))
  · rcases Placed.mem_scalars_row hx with rfl | hx
    · exact h.tidy.names.scalars _ h.loop _ (.inr ⟨j.loop.head, rfl, rfl⟩) j.loop.body
        (by simp [LabelledLoop.stmt, Stmt.children])
    · exact hLower.scalars x hx
  · exact hLower.declares b (Placed.mem_buffers_row hb)
  · exact hLower.writes b (Placed.mem_buffers_row hb)
  · exact hSpace (h.row_used (.inr hMem))
  · exact hWrites (hEq ▸ h.writes)

include h hn in
theorem bounds {e : Expr} (he : e ∈ [j.loop.head.lower, j.loop.head.upper]) :
    e.reads j.buffer = false ∧ e.reads n.space = false := by
  constructor
  · by_contra hReads
    exact (h.steady e he).1.writes _ (Expr.reads_iff.mp (by simpa using hReads)) h.writes
  · by_contra hReads
    have hMem : n.space ∈ e.buffers := Expr.reads_iff.mp (by simpa using hReads)
    exact (h.space_not_used hn).1 (h.used_of_bound he (.inr hMem))

include h hn hLength in
/-- **Fresh names fit**: the workspace is what the runs of the loop ask for. -/
theorem fits : j.Fits own n := by
  have hNodup : (n.fillIters ++ n.rowIter :: n.foldIters).Nodup := hn.nodup.of_cons
  obtain ⟨hFill, hFold, _⟩ := List.nodup_append.mp hNodup
  refine ⟨h.movable hn, h.steady, fun e he => h.bounds hn he, h.neutral, hLength, hFill, hFold,
    fun e he x hx => ⟨fun hMem => ?_, fun hMem => ?_⟩, fun x hx hMem => ?_, fun hOwned => ?_⟩
  · exact Placed.not_used hn (by simp [JobNames.all, hMem]) (h.used_of_shape he (.inl hx))
  · exact Placed.not_used hn (List.mem_cons_of_mem _ (List.mem_append_right _ hMem))
      (h.used_of_shape he (.inl hx))
  · exact Placed.not_used hn (by simp [JobNames.all, hMem]) (h.row_used (.inl hx))
  · exact (h.space_not_used hn).1 (h.known hOwned)

include h hn hLength in
/-- **Workspaces introduce what is new**. -/
theorem inherits (space : MemSpace) :
    Stmt.Inherits used next j.loop.stmt (j.stmt n space next).1 := by
  have hBody : j.loop.body ∈ j.loop.stmt.nodes := by simp [LabelledLoop.stmt, Stmt.self_mem_nodes]
  refine ⟨(j.ids_stmt n space next).2, fun x hBinds => Placed.binds_stmt hn hLength hBinds,
    fun b hDeclares => Placed.declares_stmt hn hDeclares, fun b hWrites => ?_,
    Stmt.everywhere_iff.mpr fun x hx => ?_⟩
  · rcases Placed.writes_stmt hWrites with rfl | rfl | hWrites
    · exact .inr (h.space_not_used hn).1
    · exact .inl (h.writes.of_mem hBody)
    · exact .inl (hWrites.of_mem hBody)
  · rcases Job.mem_nodes_stmt hx with ⟨_, _, rfl⟩ | ⟨_, _, rfl⟩ | rfl | hFill | hMoved | rfl | hFold
    · rfl
    · rfl
    · rfl
    · exact Stmt.everywhere_iff.mp localsOnly_fillNest x hFill
    · have hLocals : (j.moved n).localsOnly = true :=
        localsOnly_redirect (h.tidy.locals _ _ _ h.loop)
      exact Stmt.everywhere_iff.mp hLocals x hMoved
    · rfl
    · exact Stmt.everywhere_iff.mp localsOnly_fillNest x hFold

/-- The bounds mean the same everywhere in the loop. -/
theorem not_binds_bound (h : Ready own used next t j) {e : Expr}
    (he : e ∈ [j.loop.head.lower, j.loop.head.upper]) {x : String} (hx : x ∈ e.scalars) :
    ¬ j.loop.stmt.Binds x := by
  obtain ⟨hStill, hIter⟩ := h.steady e he
  rintro ⟨s, head, body, hLoop, rfl⟩
  rw [LabelledLoop.stmt, Stmt.nodes_loop, List.mem_cons] at hLoop
  rcases hLoop with hEq | hLoop
  · cases hEq
    exact hIter hx
  · exact hStill.scalars _ hx ⟨s, head, body, hLoop, rfl⟩

theorem not_declares_bound (h : Ready own used next t j) {e : Expr}
    (he : e ∈ [j.loop.head.lower, j.loop.head.upper]) {b : String} (hb : b ∈ e.buffers) :
    ¬ j.loop.stmt.Declares b := by
  rintro ⟨s, buffer, body, hDecl⟩
  rw [LabelledLoop.stmt, Stmt.nodes_loop, List.mem_cons] at hDecl
  rcases hDecl with hEq | hDecl
  · cases hEq
  · exact (h.steady e he).1.declares b hb ⟨s, buffer, body, hDecl⟩

include hLength in
theorem mem_fillIters_of_binds {x : String} (hBinds : (j.fill n next).1.Binds x) :
    x ∈ n.fillIters := by
  have hMem := binds_fillNest hBinds
  rwa [List.map_fst_zip (Nat.le_of_eq hLength.1)] at hMem

include hLength in
theorem mem_foldIters_of_binds {x : String} (hBinds : (j.fold n next).1.Binds x) :
    x ∈ n.foldIters := by
  have hMem := binds_fillNest hBinds
  rwa [List.map_fst_zip (Nat.le_of_eq hLength.2)] at hMem

/-- The loop that fills rows declares what it declared before. -/
theorem declares_filling {b : String}
    (hDeclares : (j.filling n next).Declares b) : j.loop.body.Declares b := by
  obtain ⟨s, buffer, body, hDecl⟩ := hDeclares
  simp only [Job.filling, Stmt.nodes_loop, Stmt.nodes_block, List.flatMap_cons, List.flatMap_nil,
    List.append_nil, List.mem_cons, List.mem_append, reduceCtorEq, false_or] at hDecl
  rcases hDecl with hDecl | hDecl
  · exact absurd ⟨_, _, _, hDecl⟩ (declares_fillNest b)
  · exact declares_redirect ⟨_, _, _, hDecl⟩

/-- The loop that combines rows declares nothing. -/
theorem not_declares_combining (b : String) : ¬ (j.combining n next).Declares b := by
  rintro ⟨s, buffer, body, hDecl⟩
  simp only [Job.combining, Stmt.nodes_loop, List.mem_cons, reduceCtorEq, false_or] at hDecl
  exact declares_fillNest b ⟨_, _, _, hDecl⟩

include h hn hLength in
theorem cleanNames_filling : (j.filling n next).CleanNames := by
  have hBody : j.loop.body ∈ j.loop.stmt.children := by simp [LabelledLoop.stmt, Stmt.children]
  have hFits := h.fits hn hLength
  have hFill : (j.fill n next).1.CleanNames := by
    refine cleanNames_fillNest ?_ fun axis hAxis x hx hMem => ?_
    · rw [List.map_fst_zip (Nat.le_of_eq hLength.1)]
      exact hFits.fill
    · rw [List.map_fst_zip (Nat.le_of_eq hLength.1)] at hMem
      exact (hFits.shape axis.2 (List.of_mem_zip hAxis).2 x hx).1 hMem
  have hMoved : (j.moved n).CleanNames :=
    cleanNames_redirect (h.tidy.names.of_mem h.body_mem)
  have hBlock : (Stmt.block ⟨(j.fill n next).2, none⟩
      [(j.fill n next).1, j.moved n]).CleanNames := by
    refine .of_children (fun x hx => ?_) (fun b hb => ?_) (fun head hHead => by cases hHead)
      (fun w hw => ?_)
    · rcases hx with ⟨e, he, _⟩ | ⟨head, hHead, _⟩
      · cases he
      · cases hHead
    · rcases hb with ⟨e, he, _⟩ | ⟨_, _, _, hEq⟩
      · cases he
      · cases hEq
    · simp only [Stmt.children, List.mem_cons, List.not_mem_nil, or_false] at hw
      rcases hw with rfl | rfl
      · exact hFill
      · exact hMoved
  refine .of_children (fun x hx w hw hBinds => ?_) (fun b hb w hw hDeclares => ?_)
    (fun head hHead => ?_) (fun w hw => ?_)
  · obtain rfl := List.mem_singleton.mp hw
    have hOwn : j.loop.stmt.OwnScalar x := hx
    have hUsed : x ∈ used := by
      rcases hOwn with ⟨e, he, hx⟩ | ⟨head, hHead, rfl⟩
      · exact h.used_of_bound he (.inl hx)
      · cases hHead
        exact h.iter_used
    obtain ⟨s, head, body, hLoop, rfl⟩ := hBinds
    simp only [Stmt.nodes_block, List.flatMap_cons, List.flatMap_nil, List.append_nil,
      List.mem_cons, List.mem_append, reduceCtorEq, false_or] at hLoop
    rcases hLoop with hLoop | hLoop
    · have hMem := mem_fillIters_of_binds hLength ⟨_, _, _, hLoop, rfl⟩
      exact Placed.not_used hn (by simp [JobNames.all, hMem]) hUsed
    · exact h.tidy.names.scalars _ h.loop _ hOwn _ hBody
        (binds_redirect ⟨_, _, _, hLoop, rfl⟩)
  · have hOwn : j.loop.stmt.OwnBuffer b := by
      rcases hb with hb | ⟨_, _, _, hEq⟩
      · exact .inl hb
      · cases hEq
    have hFilling : (j.filling n next).Declares b :=
      hDeclares.of_mem (Stmt.mem_nodes_of_child hw (Stmt.self_mem_nodes w))
    exact h.tidy.names.buffers _ h.loop b hOwn _ hBody (declares_filling hFilling)
  · cases hHead
    exact h.tidy.names.bounds _ _ _ h.loop
  · obtain rfl := List.mem_singleton.mp hw
    exact hBlock

include h hn hLength in
theorem cleanNames_combining (later : Nat) : (j.combining n later).CleanNames := by
  have hFits := h.fits hn hLength
  obtain ⟨hRowIter, hIters⟩ := List.nodup_cons.mp hFits.fold
  have hFold : (j.fold n later).1.CleanNames := by
    refine cleanNames_fillNest ?_ fun axis hAxis x hx hMem => ?_
    · rwa [List.map_fst_zip (Nat.le_of_eq hLength.2)]
    · rw [List.map_fst_zip (Nat.le_of_eq hLength.2)] at hMem
      exact (hFits.shape axis.2 (List.of_mem_zip hAxis).2 x hx).2 (List.mem_cons_of_mem _ hMem)
  -- the numbers of rows use no new name
  have hRows : ∀ x ∈ j.rows.scalars, x ∉ n.rowIter :: n.foldIters := by
    intro x hx hMem
    obtain ⟨e, he, hx⟩ := Placed.exists_bound_of_scalars_rows hx
    exact Placed.not_used hn (List.mem_cons_of_mem _ (List.mem_append_right _ hMem))
      (h.used_of_bound he (.inl hx))
  refine .of_children (fun x hx w hw hBinds => ?_) (fun b _ w hw => ?_) (fun head hHead hMem => ?_)
    (fun w hw => ?_)
  · obtain rfl := List.mem_singleton.mp hw
    have hMem := mem_foldIters_of_binds hLength hBinds
    rcases hx with ⟨e, he, hx⟩ | ⟨head, hHead, rfl⟩
    · rcases List.mem_cons.mp he with rfl | he
      · cases hx
      · obtain rfl := List.mem_singleton.mp he
        exact hRows x hx (List.mem_cons_of_mem _ hMem)
    · cases hHead
      exact hRowIter hMem
  · obtain rfl := List.mem_singleton.mp hw
    exact declares_fillNest b
  · cases hHead
    exact hRows n.rowIter (by simpa using hMem) List.mem_cons_self
  · obtain rfl := List.mem_singleton.mp hw
    exact hFold

include h hn hLength in
/-- Names mean one thing inside a workspace. -/
theorem cleanNames_stmt (space : MemSpace) : (j.stmt n space next).1.CleanNames := by
  have hInherits := h.inherits hn hLength space
  -- what the bounds use is not introduced in the loop, so that the rows are counted as before
  have hBounds : ∀ e ∈ [j.loop.head.lower, j.loop.head.upper],
      (∀ x ∈ e.scalars, ¬ (j.stmt n space next).1.Binds x)
        ∧ ∀ b ∈ e.buffers, ¬ (j.stmt n space next).1.Declares b := by
    intro e he
    refine ⟨fun x hx hBinds => ?_, fun b hb hDeclares => ?_⟩
    · rcases hInherits.binds x hBinds with hOld | hFresh
      · exact h.not_binds_bound he hx hOld
      · exact hFresh (h.used_of_bound he (.inl hx))
    · rcases hInherits.declares b hDeclares with hOld | hFresh
      · exact h.not_declares_bound he hb hOld
      · exact hFresh (h.used_of_bound he (.inr hb))
  have hBody : ∀ s later, (Stmt.block s [j.filling n next, j.combining n later]).CleanNames := by
    intro s later
    refine .of_children (fun x hx => ?_) (fun b hb => ?_) (fun head hHead => by cases hHead)
      (fun w hw => ?_)
    · rcases hx with ⟨e, he, _⟩ | ⟨head, hHead, _⟩
      · cases he
      · cases hHead
    · rcases hb with ⟨e, he, _⟩ | ⟨_, _, _, hEq⟩
      · cases he
      · cases hEq
    · simp only [Stmt.children, List.mem_cons, List.not_mem_nil, or_false] at hw
      rcases hw with rfl | rfl
      · exact h.cleanNames_filling hn hLength
      · exact h.cleanNames_combining hn hLength later
  have hDeclares : ∀ {s : Site} {later : Nat} {b : String},
      (Stmt.block s [j.filling n next, j.combining n later]).Declares b →
        j.loop.body.Declares b := by
    rintro s later b ⟨_, buffer, inner, hDecl⟩
    simp only [Stmt.nodes_block, List.flatMap_cons, List.flatMap_nil, List.append_nil,
      List.mem_cons, List.mem_append, reduceCtorEq, false_or] at hDecl
    rcases hDecl with hDecl | hDecl
    · exact declares_filling ⟨_, _, _, hDecl⟩
    · exact absurd ⟨_, _, _, hDecl⟩ (not_declares_combining b)
  have hBelow : ∀ w ∈ (j.stmt n space next).1.children, w ∈ (j.stmt n space next).1.nodes :=
    fun w hw => Stmt.mem_nodes_of_child hw (Stmt.self_mem_nodes w)
  refine .of_children (fun x hx w hw hBinds => ?_) (fun b hb w hw hDecl => ?_)
    (fun head hHead => by cases hHead) (fun w hw => ?_)
  · rcases hx with ⟨e, he, hx⟩ | ⟨head, hHead, _⟩
    · rcases List.mem_cons.mp he with rfl | he
      · obtain ⟨e, he, hx⟩ := Placed.exists_bound_of_scalars_rows hx
        exact (hBounds e he).1 x hx (hBinds.of_mem (hBelow w hw))
      · rcases hInherits.binds x (hBinds.of_mem (hBelow w hw)) with hOld | hFresh
        · exact h.not_binds_shape he hx hOld
        · exact hFresh (h.used_of_shape he (.inl hx))
    · cases hHead
  · rcases hb with ⟨e, he, hb⟩ | ⟨_, _, _, hEq⟩
    · rcases List.mem_cons.mp he with rfl | he
      · obtain ⟨e, he, hb⟩ := Placed.exists_bound_of_buffers_rows hb
        exact (hBounds e he).2 b hb (hDecl.of_mem (hBelow w hw))
      · rw [h.shape_buffers he] at hb
        cases hb
    · cases hEq
      obtain rfl := List.mem_singleton.mp hw
      exact (h.space_not_used hn).2.2.2 (hDeclares hDecl)
  · obtain rfl := List.mem_singleton.mp hw
    exact hBody _ _

include h hn hLength in
/-- **Workspaces keep programs tidy**. -/
theorem tidy_stmt (space : MemSpace) :
    (j.stmt n space next).1.Tidy own s'.used (j.stmt n space next).2 := by
  obtain ⟨hIds, hOld⟩ := h.nodup_ids_stmt n space
  have hInherits := h.inherits hn hLength space
  refine ⟨hIds, hOld, fun x hx => (hn.used x).mpr (h.toPlaced.used_stmt hLength space hx),
    h.cleanNames_stmt hn hLength space, fun s head body hLoop => ?_, fun s head body hLoop => ?_,
    fun s head body hLoop hParallel e he b hb hWrites => ?_, fun s b buffer body hDecl hOwned => ?_⟩
  · rcases Job.mem_nodes_stmt hLoop with ⟨_, _, hEq⟩ | ⟨_, _, hEq⟩ | hEq | hFill | hMoved | hEq | hFold
    · cases hEq
    · cases hEq
    · cases hEq
      exact h.tidy.noDeps _ _ _ h.loop
    · rcases mem_nodes_fillNest hFill with hEq | ⟨_, _, _, _, hEq⟩
      · cases hEq
      · cases hEq
        rfl
    · rcases mem_nodes_redirect hMoved with ⟨u, hu, hEq, _⟩ | ⟨_, _, _, _, _, _, _, hEq⟩
      · obtain ⟨body', rfl, _⟩ := Stmt.loop_of_mapChildren hEq.symm
        exact h.tidy.noDeps s head body' (Stmt.mem_nodes_trans hu h.body_mem)
      · cases hEq
    · cases hEq
      rfl
    · rcases mem_nodes_fillNest hFold with hEq | ⟨_, _, _, _, hEq⟩
      · cases hEq
      · cases hEq
        rfl
  · refine Stmt.everywhere_iff.mpr fun x hx => Stmt.everywhere_iff.mp hInherits.locals x ?_
    refine Stmt.mem_nodes_trans ?_ hLoop
    rw [Stmt.nodes_loop]
    exact List.mem_cons_of_mem _ hx
  · rcases Job.mem_nodes_stmt hLoop with ⟨_, _, hEq⟩ | ⟨_, _, hEq⟩ | hEq | hFill | hMoved | hEq | hFold
    · cases hEq
    · cases hEq
    · -- what is written in the workspace is new or was written in the loop
      have hOldLoop := h.tidy.bounds _ _ _ h.loop h.parallel
      have hInside : (j.stmt n space next).1.Writes b := by
        refine hWrites.of_mem (Stmt.mem_nodes_trans ?_ hLoop)
        rw [Stmt.nodes_loop]
        exact List.mem_cons_of_mem _ (Stmt.self_mem_nodes body)
      cases hEq
      rcases Placed.writes_stmt hInside with rfl | rfl | hWrites
      · exact (h.space_not_used hn).1 (h.used_of_bound he (.inr hb))
      · exact hOldLoop e he _ hb h.writes
      · exact hOldLoop e he b hb hWrites
    · rcases mem_nodes_fillNest hFill with hEq | ⟨_, _, _, _, hEq⟩
      · cases hEq
      · cases hEq
        cases hParallel
    · rcases mem_nodes_redirect hMoved with ⟨u, hu, hEq, _⟩ | ⟨_, _, _, _, _, _, _, hEq⟩
      · obtain ⟨body', rfl, rfl⟩ := Stmt.loop_of_mapChildren hEq.symm
        have hMem := Stmt.mem_nodes_trans hu h.body_mem
        have hOldLoop := h.tidy.bounds s head body' hMem hParallel e he b hb
        have hBelow : body' ∈ j.loop.body.nodes :=
          Stmt.mem_nodes_trans (by simp [Stmt.self_mem_nodes]) hu
        rcases writes_of_redirect (h.reduces.of_mem hBelow) hWrites with ⟨_, hWrites⟩ | ⟨rfl, _⟩
        · exact hOldLoop hWrites
        · refine (h.space_not_used hn).1 (h.tidy.used _ (Stmt.mem_usedNames.mpr ⟨_, hMem, .inr ?_⟩))
          exact ⟨e, he, .inr hb⟩
      · cases hEq
    · cases hEq
      cases hParallel
    · rcases mem_nodes_fillNest hFold with hEq | ⟨_, _, _, _, hEq⟩
      · cases hEq
      · cases hEq
        cases hParallel
  · rcases Job.mem_nodes_stmt hDecl with ⟨_, _, hEq⟩ | ⟨_, _, hEq⟩ | hEq | hFill | hMoved | hEq | hFold
    · cases hEq
      exact absurd (h.known hOwned) (h.space_not_used hn).1
    · cases hEq
    · cases hEq
    · exact absurd ⟨_, _, _, hFill⟩ (declares_fillNest b)
    · rcases mem_nodes_redirect hMoved with ⟨u, hu, hEq, _⟩ | ⟨_, _, _, _, _, _, _, hEq⟩
      · obtain ⟨body', rfl, _⟩ := Stmt.decl_of_mapChildren hEq.symm
        exact h.tidy.shapes s b buffer body' (Stmt.mem_nodes_trans hu h.body_mem) hOwned
      · cases hEq
    · cases hEq
    · exact absurd ⟨_, _, _, hFold⟩ (declares_fillNest b)

end names

end Ready

end Lower

end LoopNest

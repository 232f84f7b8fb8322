import LoopNest.Proofs.LoweredTrees

/-! # Orders around workspaces

  While the loops of a program are lowered one after the other, the iterations of those that were
  lowered already are apart (`Stmt.Unordered`). The next loop joins them when its verdict is safe
  (`Stmt.Unordered.imp`), and its workspace keeps iterations apart, in it (`Lower.Ready.unordered_stmt`)
  and around it (`Stmt.Replaces.unordered`). -/

namespace LoopNest

namespace Stmt

variable {c : Conventions} {used used' : List String} {rest rest' : List Nat}

/-- Iterations are apart when those of every loop are that is not still to come. -/
theorem unordered_of_apart :
    ∀ (t : Stmt) (known : List Expr),
      (∀ s h body known, .loop s h body ∈ t.nodes → h.isParallel = true → s.id ∉ rest →
        TurnsApart c used known h body) → Unordered c used rest known t := by
  refine Stmt.ind ?_ ?_ ?_ ?_ ?_ ?_ ?_ ?_
  · intro s n b body ih known h
    exact ih known fun s' head body' known hLoop => h s' head body' known (by simp [hLoop])
  · intro s head body ih known h
    have hBelow := fun known => ih known fun s' head' body' known hLoop =>
      h s' head' body' known (by simp [hLoop])
    rw [Unordered]
    split
    · rename_i hParallel
      exact ⟨h s head body known (self_mem_nodes _) hParallel, hBelow _⟩
    · exact hBelow known
  · intro s e body ih known h
    exact ih known fun s' head body' known hLoop => h s' head body' known (by simp [hLoop])
  · intro s e yes no ihYes ihNo known h
    exact ⟨ihYes known fun s' head body' known hLoop => h s' head body' known (by simp [hLoop]),
      ihNo known fun s' head body' known hLoop => h s' head body' known (by simp [hLoop])⟩
  · exact fun _ _ _ _ _ _ => trivial
  · exact fun _ _ _ _ _ => trivial
  · intro s ts ih known h
    rw [unordered_block]
    intro t ht
    refine ih t ht known fun s' head body' known hLoop => h s' head body' known ?_
    rw [nodes_block]
    exact List.mem_cons_of_mem _ (List.mem_flatMap.mpr ⟨t, ht, hLoop⟩)
  · exact fun _ _ _ => trivial

/-- Iterations are apart when those of every loop were that is not still to come, and those of the
    loops that have just come are. -/
theorem Unordered.imp :
    ∀ (t : Stmt) (known : List Expr),
      (∀ s h body known, .loop s h body ∈ t.nodes → h.isParallel = true → s.id ∉ rest' →
        (s.id ∉ rest → TurnsApart c used known h body) → TurnsApart c used' known h body) →
      Unordered c used rest known t → Unordered c used' rest' known t := by
  refine Stmt.ind ?_ ?_ ?_ ?_ ?_ ?_ ?_ ?_
  · intro s n b body ih known h hUnordered
    exact ih known (fun s' head body' known hLoop => h s' head body' known (by simp [hLoop])) hUnordered
  · intro s head body ih known h hUnordered
    have hBelow := fun known => ih known fun s' head' body' known hLoop =>
      h s' head' body' known (by simp [hLoop])
    rw [Unordered] at hUnordered ⊢
    split
    · rename_i hParallel
      rw [if_pos hParallel] at hUnordered
      exact ⟨fun hNot => h s head body known (self_mem_nodes _) hParallel hNot hUnordered.1,
        hBelow _ hUnordered.2⟩
    · rename_i hParallel
      rw [if_neg hParallel] at hUnordered
      exact hBelow known hUnordered
  · intro s e body ih known h hUnordered
    exact ih known (fun s' head body' known hLoop => h s' head body' known (by simp [hLoop])) hUnordered
  · intro s e yes no ihYes ihNo known h hUnordered
    exact ⟨ihYes known (fun s' head body' known hLoop => h s' head body' known (by simp [hLoop]))
        hUnordered.1,
      ihNo known (fun s' head body' known hLoop => h s' head body' known (by simp [hLoop]))
        hUnordered.2⟩
  · exact fun _ _ _ _ _ _ _ => trivial
  · exact fun _ _ _ _ _ _ => trivial
  · intro s ts ih known h hUnordered
    rw [unordered_block] at hUnordered ⊢
    intro t ht
    refine ih t ht known (fun s' head body' known hLoop => h s' head body' known ?_) (hUnordered t ht)
    rw [nodes_block]
    exact List.mem_cons_of_mem _ (List.mem_flatMap.mpr ⟨t, ht, hLoop⟩)
  · exact fun _ _ _ _ => trivial

theorem Unordered.mono (hUsed : used ⊆ used') {t : Stmt} {known : List Expr}
    (h : Unordered c used rest known t) : Unordered c used' rest known t :=
  imp t known (fun _ _ _ _ _ _ hNot hApart => (hApart hNot).mono hUsed) h

/-- What is known of a program around one of its statements: the parallel loops around it are still
    to come, the bounds of parallel loops are settled before the first iteration, and the buffers
    that are read are in use. -/
structure Surrounds (used : List String) (rest : List Nat) (u t : Stmt) : Prop where
  loops : ∀ s head body, .loop s head body ∈ t.nodes → head.isParallel = true → u ∈ body.nodes →
    s.id ∈ rest
  steady : t.SteadyLoops
  reads : ∀ b, t.Reads b → b ∈ used

theorem Surrounds.of_mem {u t w : Stmt} (hw : w ∈ t.nodes) (h : Surrounds used rest u t) :
    Surrounds used rest u w where
  loops s head body hLoop := h.loops s head body (mem_nodes_trans hLoop hw)
  steady := h.steady.of_mem hw
  reads b hReads := h.reads b (hReads.of_mem hw)

/-- **Around a replaced statement**: iterations stay apart when the parallel loops around the
    statement are still to come. -/
theorem Replaces.unordered {u v t t' : Stmt} (h : Replaces u v t t') (hUsed : used ⊆ used')
    (hHole : ∀ known, (∀ e ∈ known, u.Still e ∧ e.buffers ⊆ used) → Unordered c used rest known u →
      Unordered c used' rest known v) :
    ∀ known, Surrounds used rest u t → (∀ e ∈ known, t.Still e ∧ e.buffers ⊆ used) →
      Unordered c used rest known t → Unordered c used' rest known t' := by
  have hKeep : ∀ {w w' : Stmt} {known : List Expr}, w ∈ w'.nodes →
      (∀ e ∈ known, w'.Still e ∧ e.buffers ⊆ used) → ∀ e ∈ known, w.Still e ∧ e.buffers ⊆ used :=
    fun hw hKnown e he => ⟨(hKnown e he).1.of_mem hw, (hKnown e he).2⟩
  induction h with
  | here =>
    intro known _ hKnown hUnordered
    exact hHole known hKnown hUnordered
  | @decl body _ s n b _ ih =>
    intro known hAround hKnown hUnordered
    have hMem : body ∈ (Stmt.decl s n b body).nodes := by simp [self_mem_nodes]
    exact ih known (hAround.of_mem hMem) (hKeep hMem hKnown) hUnordered
  | @loop body _ s head hReplaces ih =>
    intro known hAround hKnown hUnordered
    have hMem : body ∈ (Stmt.loop s head body).nodes := by simp [self_mem_nodes]
    rw [Unordered] at hUnordered ⊢
    split
    · rename_i hParallel
      rw [if_pos hParallel] at hUnordered
      have hHere := hAround.loops s head body (self_mem_nodes _) hParallel hReplaces.mem
      refine ⟨fun hNot => absurd hHere hNot, ih _ (hAround.of_mem hMem) ?_ hUnordered.2⟩
      -- the bounds are settled before the first iteration
      have hBounds : ∀ e ∈ [head.lower, head.upper], body.Still e ∧ e.buffers ⊆ used := by
        intro e he
        refine ⟨(hAround.steady s head body (self_mem_nodes _) hParallel e he).1, fun b hb => ?_⟩
        exact hAround.reads b ⟨_, self_mem_nodes _, e, he, Expr.reads_iff.mpr hb⟩
      intro e he
      rcases List.mem_cons.mp he with rfl | he
      · exact hBounds _ (by simp)
      · rcases List.mem_cons.mp he with rfl | he
        · exact hBounds _ (by simp)
        · exact hKeep hMem hKnown e he
    · rename_i hParallel
      rw [if_neg hParallel] at hUnordered
      exact ih known (hAround.of_mem hMem) (hKeep hMem hKnown) hUnordered
  | @guard body _ s e _ ih =>
    intro known hAround hKnown hUnordered
    have hMem : body ∈ (Stmt.guard s e body).nodes := by simp [self_mem_nodes]
    exact ih known (hAround.of_mem hMem) (hKeep hMem hKnown) hUnordered
  | @yes yes _ s e no _ ih =>
    intro known hAround hKnown hUnordered
    have hMem : yes ∈ (Stmt.branch s e yes no).nodes := by simp [self_mem_nodes]
    exact ⟨ih known (hAround.of_mem hMem) (hKeep hMem hKnown) hUnordered.1, hUnordered.2.mono hUsed⟩
  | @no no _ s e yes _ ih =>
    intro known hAround hKnown hUnordered
    have hMem : no ∈ (Stmt.branch s e yes no).nodes := by simp [self_mem_nodes]
    exact ⟨hUnordered.1.mono hUsed, ih known (hAround.of_mem hMem) (hKeep hMem hKnown) hUnordered.2⟩
  | @block x _ s before after _ ih =>
    intro known hAround hKnown hUnordered
    rw [unordered_block] at hUnordered ⊢
    have hMem : x ∈ (Stmt.block s (before ++ x :: after)).nodes := by simp [self_mem_nodes]
    intro w hw
    rcases List.mem_append.mp hw with hw | hw
    · exact (hUnordered w (List.mem_append_left _ hw)).mono hUsed
    · rcases List.mem_cons.mp hw with rfl | hw
      · exact ih known (hAround.of_mem hMem) (hKeep hMem hKnown) (hUnordered x (by simp))
      · exact (hUnordered w (by simp [hw])).mono hUsed

end Stmt

namespace Lower

open Stmt (LabelledLoop)

namespace Ready

variable {c : Conventions} {own used : List String} {rest : List Nat} {next : Nat} {t : Stmt} {j : Job}
  {n : JobNames} {s' : NameSupply}

/-- **Inside a workspace**: iterations are apart when those of the loop and of the loops in it are. -/
theorem unordered_stmt (h : Ready own used next t j) (hn : NameSupply.Draws ⟨used⟩ n.all s')
    (hLength : n.fillIters.length = j.host.shape.length
      ∧ n.foldIters.length = j.host.shape.length) (space : MemSpace) (hRest : j.loop.site.id ∉ rest)
    {known : List Expr} (hKnown : ∀ e ∈ known, j.loop.stmt.Still e ∧ e.buffers ⊆ used)
    (hUnordered : j.loop.stmt.Unordered c used rest known) :
    (j.stmt n space next).1.Unordered c s'.used rest known := by
  have hSpace := (h.space_not_used hn).1
  have hDrawn : n.space :: used ⊆ s'.used := by
    intro x hx
    refine (hn.used x).mpr ?_
    rcases List.mem_cons.mp hx with rfl | hx
    · exact .inl List.mem_cons_self
    · exact .inr hx
  have hRowUsed : j.row.buffers ⊆ used := fun b hb => h.row_used (.inr hb)
  have hFits := h.fits hn hLength
  rw [LabelledLoop.stmt, Stmt.Unordered, if_pos h.parallel] at hUnordered
  obtain ⟨hApart, hBody⟩ := hUnordered
  -- neither the buffer nor the workspace is read by the bounds around the loop
  have hUnread : ∀ e ∈ known, e.reads j.buffer = false ∧ e.reads n.space = false := by
    intro e he
    obtain ⟨hStill, hBuffers⟩ := hKnown e he
    constructor
    · by_contra hReads
      refine hStill.writes _ (Expr.reads_iff.mp (by simpa using hReads)) (h.writes.of_mem ?_)
      simp [LabelledLoop.stmt, Stmt.self_mem_nodes]
    · by_contra hReads
      exact hSpace (hBuffers (Expr.reads_iff.mp (by simpa using hReads)))
  have hRowKnown : RowKnown c j.buffer n.space j.row
      (j.loop.head.lower :: j.loop.head.upper :: known) := by
    have hAll : ∀ e ∈ j.loop.head.lower :: j.loop.head.upper :: known,
        e.reads j.buffer = false ∧ e.reads n.space = false := by
      intro e he
      rcases List.mem_cons.mp he with rfl | he
      · exact h.bounds hn (by simp)
      · rcases List.mem_cons.mp he with rfl | he
        · exact h.bounds hn (by simp)
        · exact hUnread e he
    refine ⟨fun env m hm => ?_, fun e he => (hAll e he).1, fun e he => (hAll e he).2⟩
    obtain ⟨lower, hLower⟩ := Option.isSome_iff_exists.mp (hm j.loop.head.lower (by simp))
    have hIter : (Expr.var j.loop.head.iter).valueWith? c env m = some (env j.loop.head.iter) := by
      rw [Expr.valueWith?]
    exact Option.isSome_iff_exists.mpr ⟨_, Expr.valueWith?_minus hIter hLower⟩
  have hNest : ∀ {axes : List (String × Expr)} {next' : Nat} {b : String} {is : List Expr} {v : Expr}
      {known : List Expr}, (fillNest next' axes b is v).1.Unordered c s'.used rest known := by
    intro axes next' b is v known
    refine Stmt.unordered_of_apart _ _ fun s head body known hLoop hParallel => ?_
    rcases mem_nodes_fillNest hLoop with hEq | ⟨_, _, _, _, hEq⟩
    · cases hEq
    · cases hEq
      cases hParallel
  have hMoved : (j.moved n).Unordered c s'.used rest
      (j.loop.head.lower :: j.loop.head.upper :: known) :=
    (unordered_redirect hSpace hRowUsed _ _ (h.movable hn) hRowKnown hBody).mono hDrawn
  have hFilling : ∀ site, Stmt.TurnsApart c s'.used known j.loop.head
      (.block site [(j.fill n next).1, j.moved n]) := by
    intro site
    refine (apart_filling site (h.movable hn) hSpace hRowUsed hUnread
      (fun e he => h.bounds hn he) (fun env v m lower hLower => ?_) (fun i hi => ?_) ?_
      (fun axis hAxis => ?_) next (hApart hRest)).mono hDrawn
    · exact Job.value_row (hFits.still _ (by simp)).2 hLower v
    · obtain ⟨iter, _, rfl⟩ := List.mem_map.mp hi
      rfl
    · rcases ReduceOp.constant_of_neutral? h.neutral with ⟨v, hEq⟩ | ⟨v, hEq⟩
      · rw [hEq]
        rfl
      · rw [hEq]
        rfl
    · obtain ⟨hIter, hShape⟩ := List.of_mem_zip hAxis
      exact ⟨fun hMem => hFits.row _ hMem hIter, h.shape_buffers hShape⟩
  rw [Job.stmt_eq]
  dsimp only
  rw [Stmt.Unordered]
  refine Stmt.unordered_block.mpr fun w hw => ?_
  simp only [List.mem_cons, List.not_mem_nil, or_false] at hw
  rcases hw with rfl | rfl
  · rw [Job.filling, Stmt.Unordered, if_pos h.parallel]
    refine ⟨fun _ => hFilling _, Stmt.unordered_block.mpr fun w hw => ?_⟩
    simp only [List.mem_cons, List.not_mem_nil, or_false] at hw
    rcases hw with rfl | rfl
    · exact hNest
    · exact hMoved
  · exact hNest

end Ready

end Lower

end LoopNest

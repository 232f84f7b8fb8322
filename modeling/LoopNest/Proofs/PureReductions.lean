import LoopNest.Proofs.LoweredTrees

/-! # Pure reductions

  A verdict that allows to run the iterations of a loop at the same time lists reductions. Each of
  them is there: some store of the loop reduces into the buffer (`Stmt.reducesInto_of_verdict`). The
  verdict does not say that the loop does nothing else with the buffer.

  In a program with pure reductions it does nothing else (`Stmt.PureReductions`). Workspaces leave
  reductions pure (`Lower.Ready.pure_update`): the store that combines rows reduces into the buffer as
  the loop did. -/

namespace LoopNest

theorem Expr.reads_eq_false_iff {e : Expr} {b : String} : e.reads b = false ↔ b ∉ e.buffers := by
  rw [← Expr.reads_iff, Bool.not_eq_true]

namespace Stmt

/-- Some store reduces into the buffer by the operator. -/
def ReducesInto (t : Stmt) (b : String) (op : ReduceOp) : Prop :=
  ∃ s is v rhs, .store s b is v ∈ t.nodes ∧ Expr.reduction? b is v = some (op, rhs)

/-- When a parallel loop reduces into one of some buffers that it does not declare itself, it uses
    the buffer in reductions by one operator only. -/
def PureReductions (names : List String) (t : Stmt) : Prop :=
  ∀ s h body, .loop s h body ∈ t.nodes → h.isParallel = true →
    ∀ b ∈ names, ¬ body.Declares b → ∀ op, body.ReducesInto b op → body.OnlyReduces b op

section reductions

variable {t u : Stmt} {b : String} {op : ReduceOp}

theorem ReducesInto.of_mem (hu : u ∈ t.nodes) (h : u.ReducesInto b op) : t.ReducesInto b op := by
  obtain ⟨s, is, v, rhs, hStore, hReduction⟩ := h
  exact ⟨s, is, v, rhs, mem_nodes_trans hStore hu, hReduction⟩

theorem ReducesInto.writes (h : t.ReducesInto b op) : t.Writes b := by
  obtain ⟨s, is, v, _, hStore, _⟩ := h
  exact ⟨s, is, v, hStore⟩

/-- A buffer that is only reduced into is reduced into by every store. -/
theorem OnlyReduces.reduction (h : t.OnlyReduces b op) {s : Site} {is : List Expr} {v : Expr}
    (hStore : .store s b is v ∈ t.nodes) : ∃ rhs, Expr.reduction? b is v = some (op, rhs) := by
  rcases h _ hStore with ⟨_, _, _, rhs, hEq, hReduction, _⟩ | ⟨_, hNot⟩
  · cases hEq
    exact ⟨rhs, hReduction⟩
  · exact absurd rfl (hNot s is v)

theorem OnlyReduces.reducesInto (h : t.OnlyReduces b op) (hWrites : t.Writes b) :
    t.ReducesInto b op := by
  obtain ⟨s, is, v, hStore⟩ := hWrites
  obtain ⟨rhs, hReduction⟩ := h.reduction hStore
  exact ⟨s, is, v, rhs, hStore, hReduction⟩

/-- There is one operator. -/
theorem OnlyReduces.op_eq (h : t.OnlyReduces b op) {op' : ReduceOp} (h' : t.ReducesInto b op') :
    op' = op := by
  obtain ⟨s, is, v, rhs, hStore, hReduction⟩ := h'
  obtain ⟨rhs', hOther⟩ := h.reduction hStore
  rw [hReduction] at hOther
  exact congrArg Prod.fst (Option.some.inj hOther)

/-! ## Reductions of a verdict -/

/-- Accesses of a reduction come from a store that reduces. -/
theorem reducesInto_of_access (t : Stmt) (s : Scope) (a : Access) (h : a ∈ t.accessesIn s)
    (op : ReduceOp) (hOp : a.reduction = some op) : t.ReducesInto a.buffer op := by
  obtain ⟨u, s', hStands, hMade⟩ := exists_maker t s a h
  obtain ⟨site, is, v, rhs, rfl, hReduction⟩ := hMade.reduction op hOp
  exact ⟨site, is, v, rhs, hStands.mem, hReduction⟩

end reductions

/-- The reductions of a verdict are those of dependences. -/
theorem exists_dependence_of_verdictOf {r : String × ReduceOp} {ds : List Dependence} :
    ∀ {found rs : List (String × ReduceOp)}, verdictOf found ds = .safe rs → r ∈ rs →
      r ∈ found ∨ ∃ d ∈ ds, d.reduction = some r.2 ∧ d.buffer = r.1 := by
  induction ds with
  | nil =>
    intro found rs h hr
    cases h
    exact .inl hr
  | cons d ds ih =>
    intro found rs h hr
    have hRest : ∀ {found'}, verdictOf found' ds = .safe rs →
        r ∈ found' ∨ ∃ d' ∈ d :: ds, d'.reduction = some r.2 ∧ d'.buffer = r.1 := by
      intro found' h
      rcases ih h hr with hr | ⟨d', hd', hReduction⟩
      · exact .inl hr
      · exact .inr ⟨d', List.mem_cons_of_mem d hd', hReduction⟩
    rw [verdictOf] at h
    split at h
    · exact hRest h
    · split at h
      · cases h
      · rename_i op hOp
        split at h
        · exact hRest h
        · rcases hRest h with hr | hLater
          · rcases List.mem_append.mp hr with hr | hr
            · exact .inl hr
            · obtain rfl := List.mem_singleton.mp hr
              exact .inr ⟨d, List.mem_cons_self, hOp, rfl⟩
          · exact .inr hLater

end Stmt

namespace Nest

/-- The operator and the buffer of a dependence are those of an access. -/
theorem exists_access_of_among {n : Nest} {as : List Access} {d : Dependence} {op : ReduceOp}
    (hd : d ∈ n.among as) (hOp : d.reduction = some op) :
    ∃ x ∈ as, x.buffer = d.buffer ∧ x.reduction = some op := by
  induction as with
  | nil => cases hd
  | cons x rest ih =>
    rw [among, List.mem_append] at hd
    rcases hd with hd | hd
    · obtain ⟨y, _, hd⟩ := List.mem_flatMap.mp hd
      obtain ⟨dirs, _, hSome⟩ := List.mem_filterMap.mp hd
      obtain ⟨hBuffer, hReduction⟩ := of_dependence? hSome
      rw [hReduction] at hOp
      refine ⟨x, List.mem_cons_self, hBuffer.symm, ?_⟩
      unfold reductionPair? at hOp
      split at hOp
      · rename_i hReduction
        split at hOp
        · rw [hReduction, hOp]
        · cases hOp
      · cases hOp
    · obtain ⟨y, hy, hSame⟩ := ih hd
      exact ⟨y, List.mem_cons_of_mem x hy, hSame⟩

end Nest

namespace Stmt

/-- **Reductions of a verdict**: the loop has a store for each of them. -/
theorem reducesInto_of_verdict {lp : Stmt} {k : Nat} {rs : List (String × ReduceOp)}
    (h : lp.parallelVerdict k = .safe rs) {r : String × ReduceOp} (hr : r ∈ rs) :
    lp.ReducesInto r.1 r.2 := by
  rcases exists_dependence_of_verdictOf h hr with hr | ⟨d, hd, hOp, hBuffer⟩
  · cases hr
  · rcases List.mem_append.mp hd with hd | hd
    · -- calls reduce into nothing
      obtain ⟨t, _, hSome⟩ := List.mem_filterMap.mp hd
      unfold callDependence at hSome
      split at hSome
      · cases hSome
        cases hOp
      · cases hSome
    · obtain ⟨x, hx, hSame, hReduction⟩ := Nest.exists_access_of_among hd hOp
      obtain ⟨⟨a, k⟩, ha, rfl⟩ := List.mem_map.mp hx
      rw [← hBuffer, ← hSame]
      exact reducesInto_of_access lp {} a (List.fst_mem_of_mem_zipIdx ha) r.2 hReduction

/-! ## Pure programs -/

section update

variable {names : List String} {t l u : Stmt} {p : Nat} {b : String} {op : ReduceOp}

/-- What is declared stays declared. -/
theorem Declares.update :
    ∀ t : Stmt, (∀ x ∈ t.nodes, x.id = p → x.Declares b → u.Declares b) → t.Declares b →
      (t.update p fun _ => u).Declares b := by
  refine children_ind fun t ih hPlace hDeclares => ?_
  by_cases hp : t.id = p
  · rw [update_self hp]
    exact hPlace t (self_mem_nodes t) hp hDeclares
  · obtain ⟨s, buffer, body, hDecl⟩ := hDeclares
    rw [nodes_eq_cons, List.mem_cons] at hDecl
    rcases hDecl with rfl | hDecl
    · exact ⟨s, buffer, body.update p fun _ => u, by
        rw [update_eq, if_neg hp]
        exact self_mem_nodes _⟩
    · obtain ⟨w, hw, hDecl⟩ := List.mem_flatMap.mp hDecl
      have hBelow := ih w hw (fun x hx => hPlace x (mem_nodes_of_child hw hx)) ⟨s, buffer, body, hDecl⟩
      refine hBelow.of_mem (mem_nodes_of_child ?_ (self_mem_nodes _))
      rw [children_update hp]
      exact List.mem_map_of_mem hw

theorem reducesInto_update (h : (t.update p fun _ => u).ReducesInto b op) :
    t.ReducesInto b op ∨ p ∈ t.ids ∧ u.ReducesInto b op := by
  have hIff : ∀ w : Stmt, w.ReducesInto b op ↔ ∃ y ∈ w.nodes, ∃ s is v rhs, y = .store s b is v
      ∧ Expr.reduction? b is v = some (op, rhs) := by
    intro w
    constructor
    · rintro ⟨s, is, v, rhs, hStore, hReduction⟩
      exact ⟨_, hStore, s, is, v, rhs, rfl, hReduction⟩
    · rintro ⟨_, hStore, s, is, v, rhs, rfl, hReduction⟩
      exact ⟨s, is, v, rhs, hStore, hReduction⟩
  rw [hIff] at h
  rw [hIff, hIff]
  refine exists_mem_update (fun w f hw => ?_) h
  obtain ⟨s, is, v, rhs, hEq, hReduction⟩ := hw
  exact ⟨s, is, v, rhs, store_of_mapChildren hEq, hReduction⟩

/-- What a statement does to a buffer itself does not depend on its children. -/
theorem onlyReduces_mapChildren {f : Stmt → Stmt} {x : Stmt}
    (h : x.IsReduction b op ∨ (∀ e ∈ x.exprs, e.reads b = false) ∧ ∀ s is v, x ≠ .store s b is v) :
    (x.mapChildren f).IsReduction b op
      ∨ (∀ e ∈ (x.mapChildren f).exprs, e.reads b = false)
        ∧ ∀ s is v, x.mapChildren f ≠ .store s b is v := by
  rcases h with ⟨s, is, v, rhs, rfl, hReduction⟩ | ⟨hReads, hNot⟩
  · exact .inl ⟨s, is, v, rhs, rfl, hReduction⟩
  · refine .inr ⟨fun e he => hReads e (by simpa using he), fun s is v hEq => ?_⟩
    exact hNot s is v (store_of_mapChildren hEq)

theorem OnlyReduces.update (h : t.OnlyReduces b op) (hu : p ∈ t.ids → u.OnlyReduces b op) :
    (t.update p fun _ => u).OnlyReduces b op := by
  by_cases hp : p ∈ t.ids
  · intro x hx
    rcases mem_nodes_update t hx with hx | ⟨y, hy, hne, rfl⟩
    · exact hu hp x hx
    · rw [update_eq, if_neg hne]
      exact onlyReduces_mapChildren (h y hy)
  · rwa [update_of_not_mem t hp]

/-- **Updates**: reductions stay pure when the new statement declares what the old one declared,
    reduces into nothing else and uses buffers in the same way. -/
theorem PureReductions.update (h : t.PureReductions names) (hIds : t.ids.Nodup) (hl : l ∈ t.nodes)
    (hu : u.PureReductions names) (hDeclares : ∀ b, l.Declares b → u.Declares b)
    (hInto : ∀ b ∈ names, ∀ op, u.ReducesInto b op → l.ReducesInto b op)
    (hOnly : ∀ b ∈ names, ∀ op, l.OnlyReduces b op → u.OnlyReduces b op) :
    (t.update l.id fun _ => u).PureReductions names := by
  intro s head body hLoop hParallel b hb hNot op hReduces
  rcases mem_nodes_update t hLoop with hLoop | ⟨y, hy, hne, hEq⟩
  · exact hu s head body hLoop hParallel b hb hNot op hReduces
  · rw [update_eq, if_neg hne] at hEq
    obtain ⟨body, rfl, rfl⟩ := loop_of_mapChildren hEq.symm
    have hBody : body ∈ t.nodes := mem_nodes_trans (by simp [self_mem_nodes]) hy
    have hBelow : l.id ∈ body.ids → l ∈ body.nodes := mem_nodes_of_id hIds hl hBody
    have hOld : body.OnlyReduces b op := by
      refine h s head body hy hParallel b hb (fun hDecl => hNot (hDecl.update body ?_)) op ?_
      · intro x hx hId hDecl
        rw [List.inj_on_of_nodup_map hIds (mem_nodes_trans hx hBody) hl hId] at hDecl
        exact hDeclares b hDecl
      · rcases reducesInto_update hReduces with hOld | ⟨hMem, hNew⟩
        · exact hOld
        · exact (hInto b hb op hNew).of_mem (hBelow hMem)
    exact hOld.update fun hMem => hOnly b hb op (hOld.of_mem (hBelow hMem))

end update

end Stmt

namespace ReduceOp

/-- A store of something combined by an operator reduces by this operator, if at all. -/
theorem eq_of_reduction?_combine {op op' : ReduceOp} {b : String} {is : List Expr}
    {acc value rhs : Expr} (h : Expr.reduction? b is (op.combine acc value) = some (op', rhs)) :
    op' = op := by
  simp only [combine, Expr.reduction?, ofBinary?_toBinary, Option.bind_eq_bind,
    Option.bind_some] at h
  split at h
  · exact (congrArg Prod.fst (Option.some.inj h)).symm
  · split at h
    · exact (congrArg Prod.fst (Option.some.inj h)).symm
    · cases h

/-- A store that combines its cell with something else is a reduction. -/
theorem reduction?_combine {op : ReduceOp} {b : String} {is : List Expr} {value : Expr}
    (hSame : Expr.sameAll is is = true) (hValue : value.reads b = false) :
    Expr.reduction? b is (op.combine (.load b is) value) = some (op, value) := by
  simp [combine, Expr.reduction?, Expr.isCell, hSame, hValue]

end ReduceOp

theorem Expr.sameAll_vars (xs : List String) :
    Expr.sameAll (xs.map .var) (xs.map .var) = true := by
  induction xs with
  | nil => rfl
  | cons x xs ih => simp [Expr.sameAll, Expr.same, ih]

namespace Lower

open Stmt (LabelledLoop)

/-! ## Moved programs -/

section moved

variable {y ws b : String} {op op' : ReduceOp} {row : Expr} {t : Stmt}

theorem declares_redirect_of (h : t.Declares b) : (redirect y ws op row t).Declares b := by
  obtain ⟨s, buffer, body, hDecl⟩ := h
  refine ⟨s, buffer, redirect y ws op row body, ?_⟩
  rw [nodes_redirect]
  exact List.mem_map_of_mem hDecl

/-- A moved program reduces into the workspace, and into what the program reduces into. -/
theorem reducesInto_redirect (h : t.OnlyReduces y op) (hb : b ≠ ws)
    (hReduces : (redirect y ws op row t).ReducesInto b op') : t.ReducesInto b op' := by
  obtain ⟨s, is, v, rhs, hStore, hReduction⟩ := hReduces
  rcases store_of_redirect h hStore with ⟨_, hStore⟩ | ⟨hEq, _⟩
  · exact ⟨s, is, v, rhs, hStore, hReduction⟩
  · exact absurd hEq hb

/-- A moved program reduces into the other buffers as before. -/
theorem reducesInto_redirect_of (hb : b ≠ y) (h : t.ReducesInto b op') :
    (redirect y ws op row t).ReducesInto b op' := by
  obtain ⟨s, is, v, rhs, hStore, hReduction⟩ := h
  refine ⟨s, is, v, rhs, ?_, hReduction⟩
  rw [nodes_redirect]
  exact List.mem_map.mpr ⟨_, hStore, redirect_other _ _ hb is v⟩

/-- A moved program uses the other buffers in reductions only when the program does. -/
theorem onlyReduces_redirect (h : t.OnlyReduces y op) (hOnly : t.OnlyReduces b op') (hb : b ≠ ws)
    (hRow : row.reads b = false) : (redirect y ws op row t).OnlyReduces b op' := by
  intro x hx
  rcases mem_nodes_redirect hx with ⟨u, hu, rfl, _⟩ | ⟨s, is, v, _, rhs, hStore, hReduction, rfl⟩
  · exact Stmt.onlyReduces_mapChildren (hOnly u hu)
  · -- neither the cell nor the operand reads the buffer
    obtain ⟨hRhs, hParts, _⟩ := Expr.of_reduction? hReduction
    have hFree : (∀ i ∈ is, i.reads b = false) ∧ rhs.reads b = false := by
      by_cases hEq : b = y
      · obtain ⟨_, _, _, _, hSame, _, hIs⟩ := (h _ hStore).resolve_right fun hOther =>
          hOther.2 s is v rfl
        cases hSame
        exact hEq ▸ ⟨hIs, hRhs⟩
      · rcases hOnly _ hStore with ⟨_, _, _, _, hSame, _⟩ | ⟨hReads, _⟩
        · cases hSame
          exact absurd rfl hEq
        · refine ⟨fun i hi => hReads i (List.mem_append_left _ hi), ?_⟩
          have hValue := hReads v (List.mem_append_right _ List.mem_cons_self)
          rw [Expr.reads_eq_false_iff] at hValue ⊢
          intro hMem
          obtain ⟨js, hPart⟩ := Expr.mem_buffers.mp hMem
          exact hValue (Expr.mem_buffers.mpr ⟨js, hParts _ hPart⟩)
    have hCell : ∀ e ∈ row :: is, e.reads b = false := by
      intro e he
      rcases List.mem_cons.mp he with rfl | he
      · exact hRow
      · exact hFree.1 e he
    refine .inr ⟨fun e he => ?_, fun s' is' v' hEq => ?_⟩
    · rcases List.mem_append.mp he with he | he
      · exact hCell e he
      · obtain rfl := List.mem_singleton.mp he
        simp only [Expr.reads_eq_false_iff] at hCell hFree ⊢
        simp only [ReduceOp.combine, Expr.buffers_binary, Expr.buffers_load, List.mem_append,
          List.mem_cons, List.mem_flatMap, not_or, not_exists, not_and]
        exact ⟨⟨hb, fun e he => hCell e (List.mem_cons.mpr he)⟩, hFree.2⟩
    · cases hEq
      exact hb rfl

/-- A nest uses no buffer but that of its store, when its axes use none. -/
theorem onlyReduces_fillNest {next : Nat} {axes : List (String × Expr)} {is : List Expr} {v : Expr}
    (hAxes : ∀ axis ∈ axes, axis.2.buffers = [])
    (hStore : (Stmt.store ⟨next, none⟩ ws is v).IsReduction b op'
      ∨ (∀ e ∈ is ++ [v], e.reads b = false) ∧ b ≠ ws) :
    (fillNest next axes ws is v).1.OnlyReduces b op' := by
  intro x hx
  rcases mem_nodes_fillNest hx with rfl | ⟨axis, hAxis, s, body, rfl⟩
  · rcases hStore with hReduction | ⟨hReads, hb⟩
    · exact .inl hReduction
    · refine .inr ⟨hReads, fun s is v hEq => ?_⟩
      cases hEq
      exact hb rfl
  · refine .inr ⟨fun e he => ?_, fun _ _ _ hEq => by cases hEq⟩
    rw [Expr.reads_eq_false_iff]
    rcases List.mem_cons.mp he with rfl | he
    · exact List.not_mem_nil
    · obtain rfl := List.mem_singleton.mp he
      rw [hAxes axis hAxis]
      exact List.not_mem_nil

end moved

/-! ## Workspaces -/

namespace Ready

variable {own used : List String} {next : Nat} {t : Stmt} {j : Job} {n : JobNames} {s' : NameSupply}
  {b : String} {op : ReduceOp}

variable (h : Ready own used next t j) (hn : NameSupply.Draws ⟨used⟩ n.all s')

include h hn in
theorem ne_space (hb : b ∈ own) : b ≠ n.space := by
  rintro rfl
  exact (h.space_not_used hn).1 (h.known hb)

/-- A row reads what the lower bound reads. -/
theorem row_reads (hLower : j.loop.head.lower.reads b = false) : j.row.reads b = false := by
  rw [Expr.reads_eq_false_iff] at hLower ⊢
  exact fun hMem => hLower (Placed.mem_buffers_row hMem)

/-- A row reads nothing that the loop writes. -/
theorem row_reads_of_writes (h : Ready own used next t j) (hWrites : j.loop.body.Writes b) :
    j.row.reads b = false := by
  refine row_reads ?_
  rw [Expr.reads_eq_false_iff]
  exact fun hMem => (h.steady _ (by simp)).1.writes b hMem hWrites

theorem moved_mem_stmt (space : MemSpace) : j.moved n ∈ (j.stmt n space next).1.nodes := by
  rw [Job.stmt_eq]
  simp [Job.filling, Stmt.self_mem_nodes]

/-- A workspace declares what the loop declares. -/
theorem declares_stmt (space : MemSpace) (hDeclares : j.loop.stmt.Declares b) :
    (j.stmt n space next).1.Declares b := by
  obtain ⟨s, buffer, body, hDecl⟩ := hDeclares
  rw [LabelledLoop.stmt, Stmt.nodes_loop, List.mem_cons] at hDecl
  rcases hDecl with hEq | hDecl
  · cases hEq
  · exact (declares_redirect_of ⟨s, buffer, body, hDecl⟩).of_mem (moved_mem_stmt space)

include h hn in
/-- The loop that fills rows reduces into the old buffers as before, but for that of the
    workspace. -/
theorem reducesInto_filling (hb : b ∈ own) {s : Site}
    (hReduces : (Stmt.block s [(j.fill n next).1, j.moved n]).ReducesInto b op) :
    j.loop.body.ReducesInto b op := by
  obtain ⟨s, is, v, rhs, hStore, hReduction⟩ := hReduces
  simp only [Stmt.nodes_block, List.flatMap_cons, List.flatMap_nil, List.append_nil,
    List.mem_cons, List.mem_append, reduceCtorEq, false_or] at hStore
  rcases hStore with hStore | hStore
  · rcases mem_nodes_fillNest hStore with hEq | ⟨_, _, _, _, hEq⟩
    · cases hEq
      exact absurd rfl (h.ne_space hn hb)
    · cases hEq
  · exact reducesInto_redirect h.reduces (h.ne_space hn hb) ⟨s, is, v, rhs, hStore, hReduction⟩

include h hn in
/-- **Workspaces reduce** into the old buffers as the loop did. -/
theorem reducesInto_stmt (space : MemSpace) (hb : b ∈ own)
    (hReduces : (j.stmt n space next).1.ReducesInto b op) : j.loop.stmt.ReducesInto b op := by
  have hBody : j.loop.body ∈ j.loop.stmt.nodes := by simp [LabelledLoop.stmt, Stmt.self_mem_nodes]
  obtain ⟨s, is, v, rhs, hStore, hReduction⟩ := hReduces
  rcases Job.mem_nodes_stmt hStore with ⟨_, _, hEq⟩ | ⟨_, _, hEq⟩ | hEq | hFill | hMoved | hEq | hFold
  · cases hEq
  · cases hEq
  · cases hEq
  · rcases mem_nodes_fillNest hFill with hEq | ⟨_, _, _, _, hEq⟩
    · cases hEq
      exact absurd rfl (h.ne_space hn hb)
    · cases hEq
  · have hReduces : (j.moved n).ReducesInto b op := ⟨s, is, v, rhs, hMoved, hReduction⟩
    exact (reducesInto_redirect h.reduces (h.ne_space hn hb) hReduces).of_mem hBody
  · cases hEq
  · -- the rows are combined by the operator of the loop
    rcases mem_nodes_fillNest hFold with hEq | ⟨_, _, _, _, hEq⟩
    · cases hEq
      rw [ReduceOp.eq_of_reduction?_combine hReduction]
      exact (h.reduces.reducesInto h.writes).of_mem hBody
    · cases hEq

/-- The nest that fills a row uses no old buffer. -/
theorem onlyReduces_fill (h : Ready own used next t j) (hb : b ≠ n.space)
    (hRow : j.row.reads b = false) : (j.fill n next).1.OnlyReduces b op := by
  refine onlyReduces_fillNest (fun axis hAxis => ?_) (.inr ⟨fun e he => ?_, hb⟩)
  · exact h.shape_buffers (List.of_mem_zip hAxis).2
  · rcases List.mem_append.mp he with he | he
    · rcases List.mem_cons.mp he with rfl | he
      · exact hRow
      · obtain ⟨iter, _, rfl⟩ := List.mem_map.mp he
        rfl
    · obtain rfl := List.mem_singleton.mp he
      rcases ReduceOp.constant_of_neutral? h.neutral with ⟨v, hEq⟩ | ⟨v, hEq⟩
      · rw [hEq]
        rfl
      · rw [hEq]
        rfl

/-- The nest that combines a row uses the buffer in a reduction, and no other old buffer. -/
theorem onlyReduces_fold (h : Ready own used next t j) (hb : b ≠ n.space)
    (hOp : b = j.buffer → op = j.op) (later : Nat) : (j.fold n later).1.OnlyReduces b op := by
  have hVars : ∀ {e : Expr} {xs : List String}, e ∈ xs.map Expr.var → e.buffers = [] := by
    intro e xs he
    obtain ⟨x, _, rfl⟩ := List.mem_map.mp he
    rfl
  have hCell : ∀ (b' : String) (xs : List String), b ≠ b' →
      (Expr.load b' (xs.map .var)).reads b = false := by
    intro b' xs hne
    rw [Expr.reads_eq_false_iff, Expr.buffers_load, List.mem_cons, List.mem_flatMap]
    rintro (hEq | ⟨e, he, hMem⟩)
    · exact hne hEq
    · rw [hVars he] at hMem
      cases hMem
  have hSpace : (Expr.load n.space (.var n.rowIter :: n.foldIters.map .var)).reads b = false :=
    hCell n.space (n.rowIter :: n.foldIters) hb
  refine onlyReduces_fillNest (fun axis hAxis => h.shape_buffers (List.of_mem_zip hAxis).2) ?_
  by_cases hEq : b = j.buffer
  · have hReduction : Expr.reduction? b (n.foldIters.map .var) (j.op.combine
        (.load b (n.foldIters.map .var)) (.load n.space (.var n.rowIter :: n.foldIters.map .var)))
          = some (j.op, _) := ReduceOp.reduction?_combine (Expr.sameAll_vars n.foldIters) hSpace
    rw [hEq] at hReduction
    rw [hEq, hOp hEq]
    refine .inl ⟨_, _, _, _, rfl, hReduction, fun i hi => ?_⟩
    rw [Expr.reads_eq_false_iff, hVars hi]
    exact List.not_mem_nil
  · refine .inr ⟨fun e he => ?_, hEq⟩
    rcases List.mem_append.mp he with he | he
    · rw [Expr.reads_eq_false_iff, hVars he]
      exact List.not_mem_nil
    · obtain rfl := List.mem_singleton.mp he
      have hBuffer := hCell j.buffer n.foldIters hEq
      rw [Expr.reads_eq_false_iff] at hBuffer hSpace ⊢
      rw [ReduceOp.combine, Expr.buffers_binary, List.mem_append]
      rintro (hMem | hMem)
      · exact hBuffer hMem
      · exact hSpace hMem

include h hn in
/-- An iteration with a workspace uses the old buffers in reductions only when the iteration did. -/
theorem onlyReduces_filling (hb : b ∈ own) (hOnly : j.loop.body.OnlyReduces b op)
    (hRow : j.row.reads b = false) {s : Site} :
    (Stmt.block s [(j.fill n next).1, j.moved n]).OnlyReduces b op := by
  intro x hx
  simp only [Stmt.nodes_block, List.flatMap_cons, List.flatMap_nil, List.append_nil,
    List.mem_cons, List.mem_append] at hx
  rcases hx with rfl | hx | hx
  · exact .inr ⟨fun _ he => (by cases he), fun _ _ _ hEq => by cases hEq⟩
  · exact h.onlyReduces_fill (h.ne_space hn hb) hRow x hx
  · exact onlyReduces_redirect h.reduces hOnly (h.ne_space hn hb) hRow x hx

include h hn in
/-- **Workspaces use** the old buffers in reductions only when the loop did. -/
theorem onlyReduces_stmt (space : MemSpace) (hb : b ∈ own) (hOnly : j.loop.stmt.OnlyReduces b op) :
    (j.stmt n space next).1.OnlyReduces b op := by
  have hBounds : ∀ e ∈ [j.loop.head.lower, j.loop.head.upper], e.reads b = false :=
    hOnly.reads_eq_false fun _ _ _ hEq => by cases hEq
  have hBody : j.loop.body.OnlyReduces b op :=
    hOnly.of_mem (by simp [LabelledLoop.stmt, Stmt.self_mem_nodes])
  have hRow : j.row.reads b = false := row_reads (hBounds _ (by simp))
  have hRows : j.rows.reads b = false := by
    rw [Expr.reads_eq_false_iff]
    intro hMem
    obtain ⟨e, he, hMem⟩ := Placed.exists_bound_of_buffers_rows hMem
    exact Expr.reads_eq_false_iff.mp (hBounds e he) hMem
  have hSpace := h.ne_space hn hb
  intro x hx
  rcases Job.mem_nodes_stmt hx with ⟨_, _, rfl⟩ | ⟨_, _, rfl⟩ | rfl | hFill | hMoved | rfl | hFold
  · refine .inr ⟨fun e he => ?_, fun _ _ _ hEq => by cases hEq⟩
    rcases List.mem_cons.mp he with rfl | he
    · exact hRows
    · rw [Expr.reads_eq_false_iff, h.shape_buffers he]
      exact List.not_mem_nil
  · exact .inr ⟨fun _ he => (by cases he), fun _ _ _ hEq => by cases hEq⟩
  · exact .inr ⟨hBounds, fun _ _ _ hEq => by cases hEq⟩
  · exact h.onlyReduces_fill hSpace hRow x hFill
  · exact onlyReduces_redirect h.reduces hBody hSpace hRow x hMoved
  · refine .inr ⟨fun e he => ?_, fun _ _ _ hEq => by cases hEq⟩
    rcases List.mem_cons.mp he with rfl | he
    · rfl
    · obtain rfl := List.mem_singleton.mp he
      exact hRows
  · refine h.onlyReduces_fold hSpace ?_ _ x hFold
    rintro rfl
    exact (hBody.op_eq (h.reduces.reducesInto h.writes)).symm

include h hn in
/-- Reductions are pure inside a workspace. -/
theorem pure_stmt (space : MemSpace) (hPure : t.PureReductions own) :
    (j.stmt n space next).1.PureReductions own := by
  intro s head body hLoop hParallel b hb hNot op hReduces
  rcases Job.mem_nodes_stmt hLoop with ⟨_, _, hEq⟩ | ⟨_, _, hEq⟩ | hEq | hFill | hMoved | hEq | hFold
  · cases hEq
  · cases hEq
  · cases hEq
    have hOld := h.reducesInto_filling hn hb hReduces
    refine h.onlyReduces_filling hn hb ?_ (h.row_reads_of_writes hOld.writes)
    refine hPure _ _ _ h.loop h.parallel b hb (fun hDeclares => hNot ?_) op hOld
    have hMoved : (j.moved n).Declares b := declares_redirect_of hDeclares
    exact hMoved.of_mem (by simp [Stmt.self_mem_nodes])
  · rcases mem_nodes_fillNest hFill with hEq | ⟨_, _, _, _, hEq⟩
    · cases hEq
    · cases hEq
      cases hParallel
  · rcases mem_nodes_redirect hMoved with ⟨u, hu, hEq, _⟩ | ⟨_, _, _, _, _, _, _, hEq⟩
    · obtain ⟨body, rfl, rfl⟩ := Stmt.loop_of_mapChildren hEq.symm
      have hBelow : body ∈ j.loop.body.nodes :=
        Stmt.mem_nodes_trans (by simp [Stmt.self_mem_nodes]) hu
      have hMem := Stmt.mem_nodes_trans hu h.body_mem
      have hOnly := h.reduces.of_mem hBelow
      have hOld := reducesInto_redirect hOnly (h.ne_space hn hb) hReduces
      refine onlyReduces_redirect hOnly ?_ (h.ne_space hn hb)
        (h.row_reads_of_writes (hOld.writes.of_mem hBelow))
      exact hPure s head body hMem hParallel b hb
        (fun hDeclares => hNot (declares_redirect_of hDeclares)) op hOld
    · cases hEq
  · cases hEq
    cases hParallel
  · rcases mem_nodes_fillNest hFold with hEq | ⟨_, _, _, _, hEq⟩
    · cases hEq
    · cases hEq
      cases hParallel

include h hn in
/-- **Workspaces leave reductions pure**. -/
theorem pure_update (space : MemSpace) (hPure : t.PureReductions own) :
    (t.update j.loop.site.id fun _ => (j.stmt n space next).1).PureReductions own :=
  hPure.update h.tidy.ids h.loop (h.pure_stmt hn space hPure) (fun _ => declares_stmt space)
    (fun _ hb _ => h.reducesInto_stmt hn space hb) (fun _ hb _ => h.onlyReduces_stmt hn space hb)

end Ready

end Lower

end LoopNest

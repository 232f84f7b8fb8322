import LoopNest.Proofs.PureReductions
import LoopNest.Proofs.SeparateRows

/-! # Programs that a workspace is put into

  When a loop gets a workspace, the statements around it and those inside it are no longer the same,
  but each of them comes from an old one (`Lower.Evolves`). Every statement of the new program is an
  old one with evolved children, or one that the workspace adds (`Lower.Evolves.node`). What a
  program needs so that the analysis can tell rows apart (`Stmt.Separable`) follows from this
  inversion: a workspace keeps it (`Lower.Evolves.separable`). -/

namespace LoopNest

namespace Stmt

/-- Two statements around a third one lie one inside the other. -/
theorem nested_of_common {u v w : Stmt} :
    ∀ t : Stmt, t.ids.Nodup → u ∈ t.nodes → v ∈ t.nodes → w ∈ u.nodes → w ∈ v.nodes →
      u ∈ v.nodes ∨ v ∈ u.nodes := by
  refine children_ind fun t ih hIds hu hv hwu hwv => ?_
  have hInside : ∀ {x : Stmt}, x ∈ t.nodes → x = t ∨ ∃ c ∈ t.children, x ∈ c.nodes := by
    intro x hx
    rw [nodes_eq_cons, List.mem_cons] at hx
    exact hx.imp_right List.mem_flatMap.mp
  rcases hInside hu with rfl | ⟨c, hc, huc⟩
  · exact .inr hv
  rcases hInside hv with rfl | ⟨d, hd, hvd⟩
  · exact .inl hu
  -- both lie in the same child, since numbers are different
  obtain rfl := eq_of_common_child hIds hc hd (mem_nodes_trans hwu huc) (mem_nodes_trans hwv hvd)
  exact ih c hc (nodup_ids_of_mem hIds (mem_nodes_of_child hc (self_mem_nodes c))) huc hvd hwu hwv

/-- What a program needs so that the analysis can tell the rows of workspaces apart, for buffers with
    some names: when a parallel loop reduces into a buffer that is declared around it, the buffer is
    not declared again below the declaration, and the loop keeps rows. -/
def Separable (names : List String) (t : Stmt) : Prop :=
  ∀ s b buffer inner, .decl s b buffer inner ∈ t.nodes → b ∈ names →
    ∀ l : LabelledLoop, l.stmt ∈ inner.nodes → l.head.isParallel = true →
      (∃ op, l.body.ReducesInto b op) → ¬ inner.Declares b ∧ l.KeepsRows b buffer

end Stmt

namespace Lower

open Stmt (LabelledLoop)

/-! ## Old and new statements -/

section evolves

variable (j : Job) (n : JobNames) (space : MemSpace) (next : Nat) (t : Stmt)

/-- A statement of a program before and after a loop in it gets a workspace.

    * **update**: it is around the loop, or beside it;
    * **moved**: it is inside the loop, and its reductions are moved;
    * **body**: it is the body of the loop, and fills a row first. -/
inductive Evolves : Stmt → Stmt → Prop where
  | update {x : Stmt} : x ∈ t.nodes →
      Evolves x (x.update j.loop.site.id fun _ => (j.stmt n space next).1)
  | moved {x : Stmt} : x ∈ j.loop.body.nodes →
      Evolves x (redirect j.buffer n.space j.op j.row x)
  | body (site : Site) : Evolves j.loop.body (.block site [(j.fill n next).1, j.moved n])

/-- What a workspace adds to a statement: its declaration, blocks, sequential loops with new
    iterators, stores to it, and stores of the combined rows when the loop lies in the statement. -/
inductive Job.Adds (used : List String) (old : Stmt) : Stmt → Prop where
  | decl {s : Site} {buffer : Buffer} {body : Stmt} : Adds used old (.decl s n.space buffer body)
  | block {s : Site} {ts : List Stmt} : Adds used old (.block s ts)
  | loop {s : Site} {h : LoopHead} {body : Stmt} : h.iter ∉ used → h.isParallel = false →
      Adds used old (.loop s h body)
  | row {s : Site} {is : List Expr} {v : Expr} : Adds used old (.store s n.space is v)
  | cell {s : Site} {is : List Expr} {v : Expr} : j.loop.stmt ∈ old.nodes →
      is.length = j.host.shape.length → Adds used old (.store s j.buffer is v)

end evolves

namespace Evolves

variable {used : List String} {next : Nat} {t old new x : Stmt} {j : Job} {n : JobNames}
  {s' : NameSupply} {space : MemSpace}

section node

variable (h : Placed used next t j) (hn : NameSupply.Draws ⟨used⟩ n.all s')
  (hLength : n.fillIters.length = j.host.shape.length ∧ n.foldIters.length = j.host.shape.length)

include hn hLength in
/-- What fills rows is added. -/
theorem adds_fill (hx : x ∈ (j.fill n next).1.nodes) : j.Adds n used old x := by
  rcases mem_nodes_fillNest hx with rfl | ⟨axis, hAxis, _, _, rfl⟩
  · exact .row
  · refine .loop (Placed.not_used hn ?_) rfl
    have hMem : axis.1 ∈ n.fillIters :=
      List.map_fst_zip (Nat.le_of_eq hLength.1) ▸ List.mem_map_of_mem hAxis
    simp [JobNames.all, hMem]

include hn hLength in
/-- What combines rows is added. -/
theorem adds_fold {later : Nat} (hLoop : j.loop.stmt ∈ old.nodes)
    (hx : x ∈ (j.fold n later).1.nodes) : j.Adds n used old x := by
  rcases mem_nodes_fillNest hx with rfl | ⟨axis, hAxis, _, _, rfl⟩
  · exact .cell hLoop (by rw [List.length_map, hLength.2])
  · refine .loop (Placed.not_used hn ?_) rfl
    have hMem : axis.1 ∈ n.foldIters :=
      List.map_fst_zip (Nat.le_of_eq hLength.2) ▸ List.mem_map_of_mem hAxis
    simp [JobNames.all, hMem]

/-- A statement of the moved body is an old one with moved children, or a store to a row. -/
theorem node_moved {u : Stmt} (hu : u ∈ j.loop.body.nodes)
    (hx : x ∈ (redirect j.buffer n.space j.op j.row u).nodes) :
    (∃ y ∈ u.nodes, ∃ f, x = y.mapChildren f ∧ ∀ w ∈ y.children, Evolves j n space next t w (f w))
      ∨ j.Adds n used old x := by
  rcases mem_nodes_redirect hx with ⟨y, hy, rfl, _⟩ | ⟨_, _, _, _, _, _, _, rfl⟩
  · refine .inl ⟨y, hy, _, rfl, fun w hw => .moved ?_⟩
    exact Stmt.mem_nodes_trans (Stmt.mem_nodes_of_child hw (Stmt.self_mem_nodes w))
      (Stmt.mem_nodes_trans hy hu)
  · exact .inr .row

include h hn hLength in
/-- **Inversion**: a statement of the new program is an old one with evolved children, or an added
    one. -/
theorem node (hEvolves : Evolves j n space next t old new) (hx : x ∈ new.nodes) :
    (∃ y ∈ old.nodes, ∃ f, x = y.mapChildren f
      ∧ ∀ w ∈ y.children, Evolves j n space next t w (f w)) ∨ j.Adds n used old x := by
  cases hEvolves with
  | moved hu => exact node_moved hu hx
  | body site =>
    simp only [Stmt.nodes_block, List.mem_cons, List.flatMap_cons, List.flatMap_nil,
      List.append_nil, List.mem_append] at hx
    rcases hx with rfl | hFill | hMoved
    · exact .inr .block
    · exact .inr (adds_fill hn hLength hFill)
    · exact node_moved (Stmt.self_mem_nodes _) hMoved
  | update hOld =>
    have hChild : ∀ y ∈ old.nodes, ∀ w ∈ y.children,
        Evolves j n space next t w (w.update j.loop.site.id fun _ => (j.stmt n space next).1) :=
      fun y hy w hw => .update (Stmt.mem_nodes_trans
        (Stmt.mem_nodes_of_child hw (Stmt.self_mem_nodes w)) (Stmt.mem_nodes_trans hy hOld))
    have hBeside : ∀ y ∈ old.nodes, y.id ≠ j.loop.site.id →
        x = (y.update j.loop.site.id fun _ => (j.stmt n space next).1) →
        ∃ y ∈ old.nodes, ∃ f, x = y.mapChildren f
          ∧ ∀ w ∈ y.children, Evolves j n space next t w (f w) := by
      intro y hy hne hEq
      rw [Stmt.update_eq, if_neg hne] at hEq
      exact ⟨y, hy, _, hEq, hChild y hy⟩
    by_cases hMem : j.loop.site.id ∈ old.ids
    · have hLoop : j.loop.stmt ∈ old.nodes := Stmt.mem_nodes_of_id h.ids h.loop hOld hMem
      have hBody : j.loop.body ∈ old.nodes :=
        Stmt.mem_nodes_trans (by simp [LabelledLoop.stmt, Stmt.self_mem_nodes]) hLoop
      rcases Stmt.mem_nodes_update old hx with hx | ⟨y, hy, hne, hEq⟩
      · rcases Job.mem_nodes_stmt hx with
          ⟨_, _, rfl⟩ | ⟨_, _, rfl⟩ | rfl | hFill | hMoved | rfl | hFold
        · exact .inr .decl
        · exact .inr .block
        · refine .inl ⟨_, hLoop, fun _ => .block ⟨(j.fill n next).2, none⟩
            [(j.fill n next).1, j.moved n], rfl, fun w hw => ?_⟩
          obtain rfl : w = j.loop.body := by simpa [LabelledLoop.stmt, Stmt.children] using hw
          exact .body _
        · exact .inr (adds_fill hn hLength hFill)
        · rcases node_moved (Stmt.self_mem_nodes _) hMoved with ⟨y, hy, hRest⟩ | hAdds
          · exact .inl ⟨y, Stmt.mem_nodes_trans hy hBody, hRest⟩
          · exact .inr hAdds
        · exact .inr (.loop (Placed.not_used hn (by simp [JobNames.all])) rfl)
        · exact .inr (adds_fold hn hLength hLoop hFold)
      · exact .inl (hBeside y hy hne hEq)
    · -- nothing is replaced
      have hSame := hx
      rw [Stmt.update_of_not_mem old hMem] at hSame
      have hNot : j.loop.site.id ∉ x.ids := fun hId => hMem (Stmt.ids_subset hSame hId)
      refine .inl (hBeside x hSame (fun hEq => hNot (hEq ▸ Stmt.id_mem_ids x)) ?_)
      exact (Stmt.update_of_not_mem x hNot).symm

/-! ## What evolved statements consist of -/

include h hn hLength

/-- Parallel loops were there before. -/
theorem loop {s : Site} {head : LoopHead} {body : Stmt} (hEvolves : Evolves j n space next t old new)
    (hLoop : .loop s head body ∈ new.nodes) (hParallel : head.isParallel = true) :
    ∃ body', .loop s head body' ∈ old.nodes ∧ Evolves j n space next t body' body := by
  rcases hEvolves.node h hn hLength hLoop with ⟨y, hy, f, hEq, hBelow⟩ | hAdds
  · obtain ⟨body', rfl, rfl⟩ := Stmt.loop_of_mapChildren hEq.symm
    exact ⟨body', hy, hBelow body' (by simp [Stmt.children])⟩
  · cases hAdds with
    | loop _ hNot => cases hNot.symm.trans hParallel

/-- Declarations of names that are in use were there before. -/
theorem decl {s : Site} {b : String} {buffer : Buffer} {body : Stmt}
    (hEvolves : Evolves j n space next t old new) (hDecl : .decl s b buffer body ∈ new.nodes)
    (hb : b ∈ used) :
    ∃ body', .decl s b buffer body' ∈ old.nodes ∧ Evolves j n space next t body' body := by
  rcases hEvolves.node h hn hLength hDecl with ⟨y, hy, f, hEq, hBelow⟩ | hAdds
  · obtain ⟨body', rfl, rfl⟩ := Stmt.decl_of_mapChildren hEq.symm
    exact ⟨body', hy, hBelow body' (by simp [Stmt.children])⟩
  · cases hAdds with
    | decl => exact absurd hb (Placed.not_used hn List.mem_cons_self)

theorem declares {b : String} (hEvolves : Evolves j n space next t old new)
    (hDeclares : new.Declares b) (hb : b ∈ used) : old.Declares b := by
  obtain ⟨s, buffer, body, hDecl⟩ := hDeclares
  obtain ⟨body', hOld, _⟩ := hEvolves.decl h hn hLength hDecl hb
  exact ⟨s, buffer, body', hOld⟩

theorem binds {a : String} (hEvolves : Evolves j n space next t old new) (hBinds : new.Binds a)
    (ha : a ∈ used) : old.Binds a := by
  obtain ⟨s, head, body, hLoop, rfl⟩ := hBinds
  rcases hEvolves.node h hn hLength hLoop with ⟨y, hy, f, hEq, _⟩ | hAdds
  · obtain ⟨body', rfl, _⟩ := Stmt.loop_of_mapChildren hEq.symm
    exact ⟨s, head, body', hy, rfl⟩
  · cases hAdds with
    | loop hIter _ => exact absurd ha hIter

/-- Stores to buffers that are in use were there before, or combine rows. -/
theorem store {s : Site} {b : String} {is : List Expr} {v : Expr}
    (hEvolves : Evolves j n space next t old new) (hStore : .store s b is v ∈ new.nodes)
    (hb : b ∈ used) : .store s b is v ∈ old.nodes
      ∨ b = j.buffer ∧ is.length = j.host.shape.length ∧ j.loop.stmt ∈ old.nodes := by
  rcases hEvolves.node h hn hLength hStore with ⟨y, hy, f, hEq, _⟩ | hAdds
  · obtain rfl := Stmt.store_of_mapChildren hEq.symm
    exact .inl hy
  · cases hAdds with
    | row => exact absurd hb (Placed.not_used hn List.mem_cons_self)
    | cell hLoop hRank => exact .inr ⟨rfl, hRank, hLoop⟩

variable (hReduces : j.loop.body.ReducesInto j.buffer j.op)

include hReduces

theorem reducesInto {b : String} {op : ReduceOp} (hEvolves : Evolves j n space next t old new)
    (hb : b ∈ used) (hNew : new.ReducesInto b op) : ∃ op', old.ReducesInto b op' := by
  obtain ⟨s, is, v, rhs, hStore, hReduction⟩ := hNew
  rcases hEvolves.store h hn hLength hStore hb with hOld | ⟨rfl, _, hLoop⟩
  · exact ⟨op, s, is, v, rhs, hOld, hReduction⟩
  · refine ⟨j.op, hReduces.of_mem (Stmt.mem_nodes_trans ?_ hLoop)⟩
    simp [LabelledLoop.stmt, Stmt.self_mem_nodes]

theorem writes {b : String} (hEvolves : Evolves j n space next t old new) (hb : b ∈ used)
    (hNew : new.Writes b) : old.Writes b := by
  obtain ⟨s, is, v, hStore⟩ := hNew
  rcases hEvolves.store h hn hLength hStore hb with hOld | ⟨rfl, _, hLoop⟩
  · exact ⟨s, is, v, hOld⟩
  · refine hReduces.writes.of_mem (Stmt.mem_nodes_trans ?_ hLoop)
    simp [LabelledLoop.stmt, Stmt.self_mem_nodes]

/-- A loop whose body evolves still keeps rows, for buffers with as many dimensions as the reduced one
    if it is this buffer. -/
theorem keepsRows {l : LabelledLoop} {b : String} {buffer : Buffer} {body : Stmt}
    (hEvolves : Evolves j n space next t l.body body) (hl : l.stmt ∈ t.nodes) (hb : b ∈ used)
    (hShape : ∀ e ∈ buffer.shape, ∀ c ∈ e.buffers, c ∈ used)
    (hRank : b = j.buffer → j.loop.stmt ∈ l.body.nodes →
      buffer.shape.length = j.host.shape.length)
    (hKeeps : l.KeepsRows b buffer) :
    (⟨l.site, l.head, body⟩ : LabelledLoop).KeepsRows b buffer where
  rowed := hKeeps.rowed
  steady x hx hBinds := by
    refine hKeeps.steady x hx (hEvolves.binds h hn hLength hBinds (h.names x ?_))
    refine Stmt.mem_usedNames.mpr ⟨_, hl, ?_⟩
    rcases List.mem_cons.mp hx with rfl | hx
    · exact .inl (by simp [LabelledLoop.stmt, Stmt.ownNames])
    · exact .inr ⟨l.head.lower, by simp [LabelledLoop.stmt, Stmt.exprs], .inl hx⟩
  rank s is v r hStore hReduction := by
    rcases hEvolves.store h hn hLength hStore hb with hOld | ⟨rfl, hLen, hLoop⟩
    · exact hKeeps.rank s is v r hOld hReduction
    · exact hLen.trans (hRank rfl hLoop).symm
  shape e he c hc hWrites :=
    hKeeps.shape e he c hc (hEvolves.writes h hn hLength hReduces (hShape e he c hc) hWrites)
  noDeps s head inner hLoop hParallel := by
    obtain ⟨inner', hOld, _⟩ := hEvolves.loop h hn hLength hLoop hParallel
    exact hKeeps.noDeps s head inner' hOld hParallel

/-- **A workspace keeps programs separable**. -/
theorem separable {names : List String} (hEvolves : Evolves j n space next t t new)
    (hKnown : names ⊆ used) (hSeparable : t.Separable names) : new.Separable names := by
  intro s b buffer inner hDecl hb l hl hParallel hInto
  obtain ⟨op, hInto⟩ := hInto
  obtain ⟨inner', hOld, hInner⟩ := hEvolves.decl h hn hLength hDecl (hKnown hb)
  obtain ⟨body', hLoop, hBody⟩ := hInner.loop h hn hLength hl hParallel
  have hOldInto := hBody.reducesInto h hn hLength hReduces (hKnown hb) hInto
  have hInside : ∀ {s : Site} {b : String} {buffer : Buffer} {u : Stmt},
      u ∈ (Stmt.decl s b buffer u).nodes := by
    simp [Stmt.self_mem_nodes]
  have hMem : Stmt.loop l.site l.head body' ∈ t.nodes :=
    Stmt.mem_nodes_trans hLoop (Stmt.mem_nodes_trans hInside hOld)
  obtain ⟨hOnce, hKeeps⟩ := hSeparable s b buffer inner' hOld hb ⟨l.site, l.head, body'⟩ hLoop
    hParallel hOldInto
  refine ⟨fun hDeclares => hOnce (hInner.declares h hn hLength hDeclares (hKnown hb)), ?_⟩
  refine keepsRows h hn hLength hReduces (l := ⟨l.site, l.head, body'⟩) hBody hMem (hKnown hb)
    (fun e he c hc => ?_) (fun hEq hBelow => ?_) hKeeps
  · exact h.names c (Stmt.mem_usedNames.mpr ⟨_, hOld, .inr ⟨e, he, .inr hc⟩⟩)
  · -- the buffer is declared only once around the loop
    subst hEq
    obtain ⟨site, body, hHost, hHere⟩ := h.loop_below
    have hAround : j.loop.stmt ∈ inner'.nodes :=
      Stmt.mem_nodes_trans hBelow (Stmt.mem_nodes_trans (by simp [Stmt.self_mem_nodes]) hLoop)
    obtain ⟨hHostOnce, _⟩ := hSeparable site _ _ body hHost hb j.loop hHere h.parallel ⟨_, hReduces⟩
    rcases Stmt.nested_of_common t h.ids hOld hHost (Stmt.mem_nodes_trans hAround hInside)
      (Stmt.mem_nodes_trans hHere hInside) with hMem | hMem
    · rw [Stmt.nodes_decl, List.mem_cons] at hMem
      cases hMem.resolve_right fun hMem => hHostOnce ⟨_, _, _, hMem⟩
      rfl
    · rw [Stmt.nodes_decl, List.mem_cons] at hMem
      cases hMem.resolve_right fun hMem => hOnce ⟨_, _, _, hMem⟩
      rfl

end node

end Evolves

end Lower

end LoopNest

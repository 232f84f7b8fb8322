import LoopNest.Proofs.MirroredAccesses
import LoopNest.Proofs.PendingLoops
import LoopNest.Proofs.RowForms

/-! # Loops with rows of their own

  When lowering puts a workspace around a loop, every access to the workspace inside the loop is one
  to the row of its iteration (`Lower.Placed.onRow`). Rows keep iterations apart, so the loop no
  longer carries the reduced buffer, does not carry the workspace, and carries nothing else that it
  did not carry before (`Lower.Placed.carries_filling`). This needs that the analysis can tell rows
  apart (`Lower.Job.Apart`). -/

namespace LoopNest

/-- Expressions with an affine form read no buffer. -/
theorem Expr.buffers_of_linear? {κ : Type} [Ord κ] {r : String → Option (Affine.Form κ)} :
    ∀ (e : Expr) {f : Affine.Form κ}, e.linear? r = some f → e.buffers = [] := by
  refine Expr.ind ?_ ?_ ?_ ?_ ?_ ?_ ?_
  · exact fun _ _ _ => rfl
  · exact fun _ _ _ => rfl
  · exact fun _ _ _ => rfl
  · exact fun _ _ _ => rfl
  · intro b is _ f h
    cases h
  · intro op e ih f h
    cases op with
    | not => cases h
    | neg =>
      obtain ⟨g, hg, _⟩ := Option.bind_eq_some_iff.mp h
      rw [buffers_unary]
      exact ih hg
  · intro op a b iha ihb f h
    obtain ⟨g, hg, h⟩ := Option.bind_eq_some_iff.mp h
    obtain ⟨g', hg', _⟩ := Option.bind_eq_some_iff.mp h
    rw [buffers_binary, iha hg, ihb hg', List.append_nil]

namespace Enclosing.Rowed

/-- Rows read no buffer. -/
theorem buffers {l : Enclosing} (h : l.Rowed) : l.row.buffers = [] := by
  obtain ⟨f, hf⟩ := Option.isSome_iff_exists.mp h.affine
  exact Expr.buffers_of_linear? _ hf

end Enclosing.Rowed

/-- The loop as it stands around accesses. -/
def Stmt.LabelledLoop.around (l : Stmt.LabelledLoop) : Enclosing := ⟨l.site.id, l.head⟩

/-- What lets the analysis tell the rows of a workspace apart when a loop reduces into a buffer.

    * **rowed**, **steady**: it sees rows as forms, with the same meaning everywhere in the loop;
    * **rank**: the reductions have as many subscripts as the buffer has dimensions;
    * **shape**: the loop does not write what the extents of the buffer read;
    * **noDeps**: parallel loops inside assert nothing of the buffer. -/
structure Stmt.LabelledLoop.KeepsRows (l : Stmt.LabelledLoop) (b : String) (buffer : Buffer) :
    Prop where
  rowed : l.around.Rowed
  steady : ∀ x ∈ l.head.iter :: l.head.lower.scalars, ¬ l.body.Binds x
  rank : ∀ s is v r, .store s b is v ∈ l.body.nodes → Expr.reduction? b is v = some r →
    is.length = buffer.shape.length
  shape : ∀ e ∈ buffer.shape, ∀ c ∈ e.buffers, ¬ l.body.Writes c
  noDeps : ∀ s h body, .loop s h body ∈ l.body.nodes → h.isParallel = true → b ∉ h.noDeps

namespace Lower

open Stmt (LabelledLoop)

/-- A workspace whose rows the analysis can tell apart.

    * **rows**: the loop lets it do so;
    * **declares**, **plain**: the buffer comes from outside, and the loop stores to it in no other
      way. -/
structure Job.Apart (j : Job) : Prop where
  rows : j.loop.KeepsRows j.buffer j.host
  declares : ¬ j.loop.body.Declares j.buffer
  plain : j.loop.body.nodes.any (assigns j.buffer j.op) = false

theorem Job.Apart.buffers_row {j : Job} (h : j.Apart) : j.row.buffers = [] := h.rows.rowed.buffers

namespace Placed

variable {used : List String} {next : Nat} {t u : Stmt} {j : Job} {n : JobNames} {s' : NameSupply}

section rows

variable (h : Placed used next t j) (hApart : j.Apart) (hn : NameSupply.Draws ⟨used⟩ n.all s')
  (hLength : n.fillIters.length = j.host.shape.length ∧ n.foldIters.length = j.host.shape.length)

include h hn in
/-- The body does not use the workspace. -/
theorem space_not_used_body : n.space ∉ j.loop.body.usedNames := fun hMem =>
  not_used hn List.mem_cons_self (h.names _ (Stmt.usedNames_subset h.body_mem hMem))

include h hApart hn in
/-- The expressions of what fills rows read what the extents of the buffer read. -/
theorem buffers_fill (hu : u ∈ (j.fill n next).1.nodes) {e : Expr} (he : e ∈ u.exprs) {b : String}
    (hb : b ∈ e.buffers) : b ≠ n.space ∧ ∃ e ∈ j.host.shape, b ∈ e.buffers := by
  rcases mem_nodes_fillNest hu with rfl | ⟨axis, hAxis, _, _, rfl⟩
  · rcases List.mem_append.mp he with he | he
    · rcases List.mem_cons.mp he with rfl | he
      · rw [hApart.buffers_row] at hb
        cases hb
      · obtain ⟨_, _, rfl⟩ := List.mem_map.mp he
        cases hb
    · obtain rfl := List.mem_singleton.mp he
      rcases ReduceOp.constant_of_neutral? h.neutral with ⟨v, hEq⟩ | ⟨v, hEq⟩ <;>
        (rw [hEq] at hb; cases hb)
  · rcases List.mem_cons.mp he with rfl | he
    · cases hb
    · obtain rfl := List.mem_singleton.mp he
      have hShape := (List.of_mem_zip hAxis).2
      refine ⟨?_, _, hShape, hb⟩
      rintro rfl
      exact not_used hn List.mem_cons_self (h.used_of_shape hShape (.inr hb))

include h hApart hn hLength in
/-- Cells of the workspace in what fills rows. -/
theorem cell_of_fill (hu : u ∈ (j.fill n next).1.nodes) {is : List Expr}
    (hAccesses : u.Accesses n.space is) :
    ∃ js, is = j.row :: js ∧ js.length = j.host.shape.length := by
  rcases hAccesses with ⟨e, he, hPart⟩ | ⟨site, v, rfl⟩
  · exact absurd rfl (h.buffers_fill hApart hn hu he (Expr.mem_buffers.mpr ⟨_, hPart⟩)).1
  · rcases mem_nodes_fillNest hu with hEq | ⟨_, _, _, _, hEq⟩
    · injection hEq with _ _ hIs _
      exact ⟨_, hIs, by rw [List.length_map, hLength.1]⟩
    · cases hEq

include h hApart hn in
/-- Cells of the workspace in the moved body. -/
theorem cell_of_moved (hu : u ∈ (j.moved n).nodes) {is : List Expr}
    (hAccesses : u.Accesses n.space is) :
    ∃ js, is = j.row :: js ∧ js.length = j.host.shape.length := by
  have hFresh := h.space_not_used_body hn
  rcases mem_nodes_redirect hu with ⟨w, hw, rfl, _⟩ | ⟨s, js, v, op', rhs, hStore, hRed, rfl⟩
  · -- what is no reduction does not use the workspace
    exact absurd (hAccesses.of_mapChildren.mem_usedNames hw) hFresh
  · have hLen := hApart.rows.rank s js v _ hStore hRed
    have hRow : j.row.buffers = [] := hApart.buffers_row
    have hOld : ∀ e ∈ js ++ [v], n.space ∉ e.buffers := fun e he hMem => hFresh
      (Stmt.mem_usedNames.mpr ⟨_, hStore, .inr ⟨e, he, .inr hMem⟩⟩)
    have hCell : ∀ e ∈ j.row :: js, ∀ ks, Expr.load n.space ks ∉ e.parts := by
      intro e he ks hPart
      have hMem := Expr.mem_buffers.mpr ⟨ks, hPart⟩
      rcases List.mem_cons.mp he with rfl | he
      · rw [hRow] at hMem
        cases hMem
      · exact hOld e (List.mem_append_left _ he) hMem
    rcases hAccesses with ⟨e, he, hPart⟩ | ⟨site, v', hEq⟩
    · rcases List.mem_append.mp he with he | he
      · exact absurd hPart (hCell e he is)
      · obtain rfl := List.mem_singleton.mp he
        rw [ReduceOp.combine, Expr.parts, List.mem_cons, List.mem_append, Expr.parts, List.mem_cons]
          at hPart
        rcases hPart with hEq | (hEq | hPart) | hPart
        · cases hEq
        · injection hEq with _ hIs
          exact ⟨js, hIs, hLen⟩
        · obtain ⟨e, he, hBelow⟩ := Expr.mem_partsAll.mp hPart
          exact absurd hBelow (hCell e he is)
        · have hPart := (Expr.of_reduction? hRed).2.1 _ hPart
          exact absurd (Expr.mem_buffers.mpr ⟨_, hPart⟩) (hOld v (by simp))
    · injection hEq with _ _ hIs _
      exact ⟨js, hIs.symm, hLen⟩

include h hApart hn hLength in
/-- The loops inside leave the row of an iteration alone. -/
theorem leaves {site : Site} {more : List Enclosing}
    (hMore : ∀ k ∈ more, ∃ s body,
      .loop s k.head body ∈ (Stmt.block site [(j.fill n next).1, j.moved n]).nodes ∧ s.id = k.id) :
    j.loop.around.Leaves more := by
  intro k hk
  obtain ⟨s, body, hLoop, hId⟩ := hMore k hk
  simp only [Stmt.nodes_block, List.mem_cons, reduceCtorEq, List.flatMap_cons, List.flatMap_nil,
    List.append_nil, List.mem_append, false_or] at hLoop
  have hLower : ∀ x ∈ j.loop.head.lower.scalars, x ∈ used := fun x hx =>
    h.used_of_bound (by simp) (.inl hx)
  rcases hLoop with hFill | hMoved
  · -- iterators and numbers are new
    have hIter : k.head.iter ∉ used := by
      have hMem := binds_fillNest ⟨_, _, _, hFill, rfl⟩
      rw [List.map_fst_zip (Nat.le_of_eq hLength.1)] at hMem
      exact not_used hn (by simp [JobNames.all, hMem])
    refine ⟨fun hEq => ?_, fun hEq => hIter (hEq ▸ h.iter_used), fun hMem => hIter (hLower _ hMem)⟩
    have hNew := (nodup_ids_fillNest.2 _ (Stmt.ids_subset hFill (Stmt.id_mem_ids _))).1
    have hOld := h.old _ (Stmt.ids_subset h.loop (Stmt.id_mem_ids _))
    exact absurd (hId.trans hEq) (Nat.ne_of_gt (Nat.lt_of_lt_of_le hOld hNew))
  · have hBinds : j.loop.body.Binds k.head.iter := binds_redirect ⟨_, _, _, hMoved, rfl⟩
    refine ⟨fun hEq => h.id_not_mem_moved (n := n) ?_, fun hEq => ?_, fun hMem => ?_⟩
    · rw [show j.loop.site.id = s.id from (hId.trans hEq).symm]
      exact Stmt.ids_subset hMoved (Stmt.id_mem_ids _)
    · exact hApart.rows.steady _ List.mem_cons_self (hEq ▸ hBinds)
    · exact hApart.rows.steady _ (List.mem_cons_of_mem _ hMem) hBinds

include h hApart hn hLength in
/-- **Accesses to the workspace** in the loop are accesses to the row of the iteration. -/
theorem onRow (site : Site) {a : Access}
    (ha : a ∈ (Stmt.block site [(j.fill n next).1, j.moved n]).accessesIn ⟨[j.loop.around], []⟩)
    (hSpace : a.buffer = n.space) :
    a.OnRow j.loop.around ∧ a.indices.length = j.host.shape.length + 1 := by
  obtain ⟨u, s', hStands, hMade⟩ := Stmt.exists_maker _ _ a ha
  have hAccesses : u.Accesses n.space a.indices := hSpace ▸ hMade.accesses
  obtain ⟨js, hIs, hLen⟩ : ∃ js, a.indices = j.row :: js ∧ js.length = j.host.shape.length := by
    have hMem := hStands.mem
    simp only [Stmt.nodes_block, List.mem_cons, List.flatMap_cons, List.flatMap_nil,
      List.append_nil, List.mem_append] at hMem
    rcases hMem with rfl | hFill | hMoved
    · rcases hAccesses with ⟨_, he, _⟩ | ⟨_, _, hEq⟩
      · cases he
      · cases hEq
    · exact h.cell_of_fill hApart hn hLength hFill hAccesses
    · exact h.cell_of_moved hApart hn hMoved hAccesses
  obtain ⟨more, hLoops, hMore⟩ := hStands.loops
  refine ⟨⟨⟨js, hIs⟩, more, hMade.loops.trans hLoops, h.leaves hApart hn hLength hMore⟩, ?_⟩
  rw [hIs, List.length_cons, hLen]

include h hApart hn in
/-- Apart from the workspace, filling rows reads what the extents of the buffer read. -/
theorem mem_accesses_fill {s : Scope} {a : Access} (ha : a ∈ (j.fill n next).1.accessesIn s)
    (hne : a.buffer ≠ n.space) : a.kind = .read ∧ ∃ e ∈ j.host.shape, a.buffer ∈ e.buffers := by
  obtain ⟨u, s', hStands, hMade⟩ := Stmt.exists_maker _ _ a ha
  cases hKind : a.kind with
  | read =>
    obtain ⟨e, he, hPart⟩ := hMade.read hKind
    exact ⟨rfl, (h.buffers_fill hApart hn hStands.mem he (Expr.mem_buffers.mpr ⟨_, hPart⟩)).2⟩
  | write =>
    obtain ⟨site, v, rfl⟩ := hMade.write hKind
    rcases mem_nodes_fillNest hStands.mem with hEq | ⟨_, _, _, _, hEq⟩
    · injection hEq with _ hb _ _
      exact absurd hb hne
    · cases hEq

include hApart in
/-- Apart from the workspace, the moved body writes what the body wrote, without the buffer. -/
theorem mem_writes_moved {s : Scope} {a : Access} (ha : a ∈ (j.moved n).accessesIn s)
    (hKind : a.kind = .write) (hne : a.buffer ≠ n.space) :
    a.buffer ≠ j.buffer ∧ j.loop.body.Writes a.buffer := by
  obtain ⟨u, s', hStands, hMade⟩ := Stmt.exists_maker _ _ a ha
  obtain ⟨site, v, rfl⟩ := hMade.write hKind
  rcases mem_nodes_redirect hStands.mem with ⟨w, hw, hEq, hNone⟩ | ⟨_, _, _, _, _, _, _, hEq⟩
  · obtain rfl := Stmt.store_of_mapChildren hEq.symm
    refine ⟨fun hb => ?_, site, _, v, hw⟩
    rw [hb] at hw hNone
    -- such a store would assign to the buffer
    have hAssigns := List.any_eq_false.mp hApart.plain _ hw
    rw [assigns, hNone site _ v rfl, beq_self_eq_true] at hAssigns
    exact hAssigns rfl
  · injection hEq with _ hb _ _
    exact absurd hb hne

omit hLength in
/-- Workspaces call nothing. -/
theorem calls_filling (hCalls : j.loop.stmt.calls = []) : (j.filling n next).calls = [] := by
  have hBody : j.loop.body.calls = [] := by
    rw [Stmt.calls, List.filter_eq_nil_iff] at hCalls ⊢
    exact fun x hx => hCalls x (by simp [LabelledLoop.stmt, hx])
  have hMoved : (j.moved n).calls = [] := calls_redirect hBody
  have hFill : (j.fill n next).1.calls = [] := by
    rw [Stmt.calls, List.filter_eq_nil_iff]
    intro x hx
    rcases mem_nodes_fillNest hx with rfl | ⟨_, _, _, _, rfl⟩ <;> exact Bool.false_ne_true
  unfold Stmt.calls at hMoved hFill ⊢
  rw [Job.filling, Stmt.nodes_loop, Stmt.nodes_block, List.flatMap_cons, List.flatMap_cons,
    List.flatMap_nil, List.append_nil]
  simp [Stmt.isCall, hMoved, hFill]

include h hApart hn hLength in
/-- **The loop that fills rows** carries neither the buffer nor the workspace, and nothing that it
    did not carry before. -/
theorem carries_filling (hCalls : j.loop.stmt.calls = []) {b : String}
    (hCarries : (j.filling n next).Carries b) : b ≠ j.buffer ∧ j.loop.stmt.Carries b := by
  have hFresh := h.space_not_used_body hn
  have hNewCalls : (j.filling n next).calls = [] := calls_filling hCalls
  obtain ⟨same, x', z', hPair, hConflict, rfl, hCrosses⟩ := (Stmt.carries_iff hNewCalls).mp hCarries
  obtain ⟨hBuffer, hWrite⟩ := Nest.conflicting_iff.mp hConflict
  -- the bounds do not read the workspace
  let bounds := ({} : Scope).reads j.loop.site.id none j.loop.head.lower
    ++ ({} : Scope).reads j.loop.site.id none j.loop.head.upper
  have hBounds : ∀ x ∈ bounds, x.buffer ≠ n.space ∧ x.kind = .read := by
    intro x hx
    obtain ⟨e, he, hx⟩ : ∃ e ∈ [j.loop.head.lower, j.loop.head.upper],
        x ∈ ({} : Scope).reads j.loop.site.id none e := by
      rcases List.mem_append.mp hx with hx | hx
      · exact ⟨_, by simp, hx⟩
      · exact ⟨_, by simp, hx⟩
    obtain ⟨b, js, hPart, rfl⟩ := Scope.mem_reads.mp hx
    refine ⟨?_, rfl⟩
    rintro rfl
    exact not_used hn List.mem_cons_self
      (h.used_of_bound he (.inr (Expr.mem_buffers.mpr ⟨js, hPart⟩)))
  let s : Scope := ⟨[j.loop.around], []⟩
  let fill := (j.fill n next).1.accessesIn s
  let moved := (j.moved n).accessesIn s
  have hNew : (j.filling n next).accessesIn {} = bounds ++ (fill ++ moved) := by
    show bounds ++ (fill ++ (moved ++ [])) = _
    rw [List.append_nil]
  have hOld : j.loop.stmt.accessesIn {} = bounds ++ j.loop.body.accessesIn s := rfl
  rw [hNew] at hPair
  obtain ⟨hx', hz'⟩ := hPair.mem
  have hParts : ∀ a ∈ bounds ++ (fill ++ moved), a ∈ bounds ∨ a ∈ fill ∨ a ∈ moved := by
    intro a ha
    simpa using ha
  by_cases hSpace : x'.buffer = n.space
  · -- both are accesses to the row of their iteration
    have hRow : ∀ a ∈ bounds ++ (fill ++ moved), a.buffer = n.space →
        a.OnRow j.loop.around ∧ a.indices.length = j.host.shape.length + 1 := by
      intro a ha hEq
      rcases List.mem_append.mp ha with hBound | hBlock
      · exact absurd hEq (hBounds a hBound).1
      · refine h.onRow hApart hn hLength ⟨(j.fill n next).2, none⟩ ?_ hEq
        show a ∈ fill ++ (moved ++ [])
        rwa [List.append_nil]
    obtain ⟨hFirst, hLen⟩ := hRow x' hx' hSpace
    obtain ⟨hSecond, hLen'⟩ := hRow z' hz' (hBuffer.symm.trans hSpace)
    exact absurd hCrosses
      (Nest.not_crosses_of_rows hApart.rows.rowed hFirst hSecond (hLen.trans hLen'.symm) same)
  · -- writes are those of the body, and do not meet what is read to fill rows
    have hMoved : ∀ a ∈ bounds ++ (fill ++ moved), a.kind = .write → a.buffer ≠ n.space →
        a.buffer ≠ j.buffer ∧ j.loop.body.Writes a.buffer := by
      intro a ha hKind hne
      rcases hParts a ha with hBound | hFill | hMoved
      · exact absurd ((hBounds a hBound).2.symm.trans hKind) (by decide)
      · exact absurd ((h.mem_accesses_fill hApart hn hFill hne).1.symm.trans hKind) (by decide)
      · exact mem_writes_moved hApart hMoved hKind hne
    have hNotFill : ∀ a c, a ∈ fill → c ∈ bounds ++ (fill ++ moved) → c.kind = .write →
        a.buffer = c.buffer → c.buffer ≠ n.space → False := by
      intro a c ha hc hKind hEq hne
      obtain ⟨e, he, hb⟩ := (h.mem_accesses_fill hApart hn ha (hEq ▸ hne)).2
      exact hApart.rows.shape e he _ hb (hEq ▸ (hMoved c hc hKind hne).2)
    have hSpace' : z'.buffer ≠ n.space := fun hEq => hSpace (hBuffer.trans hEq)
    have hxFill : x' ∉ fill := fun hx => by
      rcases hWrite with hKind | hKind
      · exact hNotFill x' x' hx hx' hKind rfl hSpace
      · exact hNotFill x' z' hx hz' hKind hBuffer hSpace'
    have hzFill : z' ∉ fill := fun hz => by
      rcases hWrite with hKind | hKind
      · exact hNotFill z' x' hz hx' hKind hBuffer.symm hSpace
      · exact hNotFill z' z' hz hz' hKind rfl hSpace'
    have hKept : PairOf (bounds ++ moved) same x' z' := hPair.drop_middle hxFill hzFill
    have hMirrors : Mirrors (Access.MovedFrom j.buffer n.space j.row) (bounds ++ moved)
        (bounds ++ j.loop.body.accessesIn s) :=
      .append (.refl fun a ha => movedFrom_self (hBounds a ha).1)
        (mirrors_redirect hApart.buffers_row _ s hApart.declares hFresh rfl rfl)
    obtain ⟨x, z, hOldPair, hx, hz⟩ := hMirrors.pairOf hKept hConflict
    obtain ⟨hOldConflict, hOldCrosses⟩ :=
      crosses_of_movedFrom hx hz hConflict (fun hEq => absurd hEq hSpace) hCrosses
    have hSame : x.buffer = x'.buffer := by
      rcases hx with ⟨hEq, _⟩ | ⟨hEq, _⟩
      · exact hEq.symm
      · exact absurd hEq hSpace
    refine ⟨?_, (Stmt.carries_iff hCalls).mpr
      ⟨same, x, z, hOld ▸ hOldPair, hOldConflict, hSame, hOldCrosses⟩⟩
    rcases hWrite with hKind | hKind
    · exact (hMoved x' hx' hKind hSpace).1
    · exact hBuffer ▸ (hMoved z' hz' hKind hSpace').1

end rows

end Placed

end Lower

end LoopNest

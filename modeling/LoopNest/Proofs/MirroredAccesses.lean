import LoopNest.Proofs.CrossingPairs
import LoopNest.Proofs.PlacedWorkspaces

/-! # Accesses of moved reductions

  A program whose reductions are moved to a row accesses what it did before, and the row where it
  accessed the reduced buffer (`Access.MovedFrom`). The order stays (`Lower.mirrors_redirect`). So a
  loop that carried nothing carries nothing afterwards (`Lower.not_carries_redirect`). -/

namespace LoopNest

/-- A reduction reads its cell. -/
theorem Expr.exists_cell_of_reduction? {b : String} {is : List Expr} {v rhs : Expr} {op : ReduceOp}
    (h : reduction? b is v = some (op, rhs)) : ∃ js, .load b js ∈ v.parts ∧ sameAll js is = true := by
  have hCell : ∀ e : Expr, e.isCell b is = true → ∃ js, e = .load b js ∧ sameAll js is = true := by
    intro e he
    cases e with
    | load b' js =>
      simp only [isCell, Bool.and_eq_true, beq_iff_eq] at he
      exact ⟨js, by rw [he.1], he.2⟩
    | _ => cases he
  cases v with
  | binary o lhs right =>
    simp only [reduction?, Option.bind_eq_bind, Option.bind_eq_some_iff] at h
    obtain ⟨_, _, h⟩ := h
    split at h
    · rename_i hLeft
      obtain ⟨js, rfl, hSame⟩ := hCell lhs (Bool.and_eq_true_iff.mp hLeft).1
      exact ⟨js, mem_parts_left (self_mem_parts _), hSame⟩
    · split at h
      · rename_i hRight
        obtain ⟨js, rfl, hSame⟩ := hCell right (Bool.and_eq_true_iff.mp hRight).1
        exact ⟨js, mem_parts_right (self_mem_parts _), hSame⟩
      · cases h
  | _ => cases h

theorem Expr.SameForm.symm {x y : Expr} (h : x.SameForm y) : y.SameForm x := fun r => (h r).symm

/-- A statement itself reads or writes a cell of a buffer with these subscripts. -/
def Stmt.Accesses (u : Stmt) (b : String) (is : List Expr) : Prop :=
  (∃ e ∈ u.exprs, .load b is ∈ e.parts) ∨ ∃ site v, u = .store site b is v

theorem Access.MadeBy.accesses {a : Access} {u : Stmt} {s : Scope} (h : a.MadeBy u s) :
    u.Accesses a.buffer a.indices := by
  cases hKind : a.kind with
  | read => exact .inl (h.read hKind)
  | write => exact .inr (h.write hKind)

theorem Stmt.Accesses.mem_usedNames {t u : Stmt} {b : String} {is : List Expr} (h : u.Accesses b is)
    (hu : u ∈ t.nodes) : b ∈ t.usedNames := by
  refine Stmt.mem_usedNames.mpr ⟨u, hu, ?_⟩
  rcases h with ⟨e, he, hPart⟩ | ⟨site, v, rfl⟩
  · exact .inr ⟨e, he, .inr (Expr.mem_buffers.mpr ⟨_, hPart⟩)⟩
  · exact .inl (by simp [ownNames])

/-- Other children do not change what a statement itself accesses. -/
theorem Stmt.Accesses.of_mapChildren {u : Stmt} {f : Stmt → Stmt} {b : String} {is : List Expr}
    (h : (u.mapChildren f).Accesses b is) : u.Accesses b is := by
  rcases h with ⟨e, he, hPart⟩ | ⟨site, v, hEq⟩
  · exact .inl ⟨e, by rwa [exprs_mapChildren] at he, hPart⟩
  · exact .inr ⟨site, v, store_of_mapChildren hEq⟩

/-- The access of a moved program that takes the place of an old one: to the same buffer, or to the
    row of the workspace instead of the reduced buffer. -/
def Access.MovedFrom (y ws : String) (row : Expr) (x' x : Access) : Prop :=
  (x'.buffer = x.buffer ∧ x'.buffer ≠ ws ∧ x'.Sharpens [] x)
    ∨ (x'.buffer = ws ∧ x.buffer = y ∧ x'.Sharpens [row] x)

namespace Lower

variable {y ws : String} {op : ReduceOp} {row : Expr}

/-- An access to a buffer that is not new comes from the same access before. -/
theorem movedFrom_self {a : Access} (h : a.buffer ≠ ws) : a.MovedFrom y ws row a :=
  .inl ⟨rfl, h, .of_eq rfl rfl rfl rfl⟩

/-- The accesses of a store that takes the place of a reduction: it reads and writes the row where
    the reduction read and wrote its cell. -/
theorem mirrors_reduction {s : Scope} {site : Site} {is : List Expr} {v rhs : Expr} {op' : ReduceOp}
    (hReduction : Expr.reduction? y is v = some (op', rhs)) (hRow : row.buffers = [])
    (hFresh : ws ∉ (Stmt.store site y is v).usedNames) (hy : s.decls.lookup y = none)
    (hws : s.decls.lookup ws = none) :
    Mirrors (Access.MovedFrom y ws row)
      ((Stmt.store site ws (row :: is) (op.combine (.load ws (row :: is)) rhs)).accessesIn s)
      ((Stmt.store site y is v).accessesIn s) := by
  have hForms : List.Forall₂ Expr.SameForm is is := List.forall₂_same.mpr fun e _ => .refl e
  have hNoRow : ∀ b js, Expr.load b js ∉ row.parts := fun b js hPart => by
    have hMem := Expr.mem_buffers.mpr ⟨js, hPart⟩
    rw [hRow] at hMem
    cases hMem
  -- what is read as before
  have hKept : ∀ {r r' : Option ReduceOp} {e : Expr} {b : String} {js : List Expr}, e ∈ is ++ [v] →
      Expr.load b js ∈ e.parts →
      (s.access .read site.id r' b js).MovedFrom y ws row (s.access .read site.id r b js) := by
    intro r r' e b js he hPart
    refine .inl ⟨rfl, fun hEq => hFresh (Stmt.mem_usedNames.mpr ⟨_, Stmt.self_mem_nodes _, .inr ?_⟩),
      .of_eq rfl rfl rfl rfl⟩
    exact ⟨e, he, .inr (Expr.mem_buffers.mpr ⟨js, hEq ▸ hPart⟩)⟩
  have hSubscripts : ∀ x' ∈ (row :: is).flatMap (s.reads site.id none),
      ∃ x ∈ is.flatMap (s.reads site.id none), x'.MovedFrom y ws row x := by
    intro x' hx'
    obtain ⟨e, he, hx'⟩ := List.mem_flatMap.mp hx'
    have hx := hx'
    obtain ⟨b, js, hPart, rfl⟩ := Scope.mem_reads.mp hx'
    rcases List.mem_cons.mp he with rfl | he
    · exact absurd hPart (hNoRow b js)
    · exact ⟨_, List.mem_flatMap.mpr ⟨e, he, hx⟩, hKept (List.mem_append_left _ he) hPart⟩
  unfold Stmt.accessesIn
  refine .append (.of_reads ?_ ?_) (.of_single ?_)
  · intro x' hx'
    rcases List.mem_append.mp hx' with hx' | hx'
    · obtain ⟨e, _, hx'⟩ := List.mem_flatMap.mp hx'
      obtain ⟨_, _, _, rfl⟩ := Scope.mem_reads.mp hx'
      rfl
    · obtain ⟨_, _, _, rfl⟩ := Scope.mem_reads.mp hx'
      rfl
  · intro x' hx'
    rcases List.mem_append.mp hx' with hx' | hx'
    · obtain ⟨x, hx, hR⟩ := hSubscripts x' hx'
      exact ⟨x, List.mem_append_left _ hx, hR⟩
    · obtain ⟨b, js, hPart, rfl⟩ := Scope.mem_reads.mp hx'
      rw [ReduceOp.combine, Expr.parts, List.mem_cons, List.mem_append, Expr.parts, List.mem_cons]
        at hPart
      rcases hPart with hEq | (hEq | hPart) | hPart
      · cases hEq
      · -- the row instead of the cell
        cases hEq
        obtain ⟨ks, hCell, hSame⟩ := Expr.exists_cell_of_reduction? hReduction
        refine ⟨_, List.mem_append_right _ (Scope.mem_reads.mpr ⟨y, ks, hCell, rfl⟩), .inr ⟨rfl, rfl, ?_⟩⟩
        refine ⟨rfl, rfl, hws.trans hy.symm, is, rfl, ?_⟩
        exact (Expr.sameForms_of_sameAll hSame).flip.imp fun _ _ h => Expr.SameForm.symm h
      · obtain ⟨e, he, hBelow⟩ := Expr.mem_partsAll.mp hPart
        rcases List.mem_cons.mp he with rfl | he
        · exact absurd hBelow (hNoRow b js)
        · have hOld : s.access .read site.id none b js ∈ is.flatMap (s.reads site.id none) :=
            List.mem_flatMap.mpr ⟨e, he, Scope.mem_reads.mpr ⟨b, js, hBelow, rfl⟩⟩
          exact ⟨_, List.mem_append_left _ hOld, hKept (List.mem_append_left _ he) hBelow⟩
      · have hOld := (Expr.of_reduction? hReduction).2.1 _ hPart
        exact ⟨_, List.mem_append_right _ (Scope.mem_reads.mpr ⟨b, js, hOld, rfl⟩),
          hKept (List.mem_append_right _ (List.mem_singleton_self v)) hOld⟩
  · exact .inr ⟨rfl, rfl, rfl, rfl, hws.trans hy.symm, is, rfl, hForms⟩

/-- **Moved programs are mirrored**: they access what they did before, with the row instead of the
    buffer that is declared outside. -/
theorem mirrors_redirect (hRow : row.buffers = []) : ∀ (t : Stmt) (s : Scope), ¬ t.Declares y →
    ws ∉ t.usedNames → s.decls.lookup y = none → s.decls.lookup ws = none →
      Mirrors (Access.MovedFrom y ws row) ((redirect y ws op row t).accessesIn s)
        (t.accessesIn s) := by
  -- the reads of an expression are the same, and do not concern the workspace
  have hReads : ∀ {t : Stmt} {s : Scope} {e : Expr} {stmt : Nat}, e ∈ t.exprs → ws ∉ t.usedNames →
      Mirrors (Access.MovedFrom y ws row) (s.reads stmt none e) (s.reads stmt none e) := by
    intro t s e stmt he hFresh
    refine .refl fun x hx => movedFrom_self ?_
    obtain ⟨b, js, hPart, rfl⟩ := Scope.mem_reads.mp hx
    rintro rfl
    exact hFresh (Stmt.mem_usedNames.mpr ⟨t, Stmt.self_mem_nodes t, .inr ⟨e, he, .inr
      (Expr.mem_buffers.mpr ⟨js, hPart⟩)⟩⟩)
  have hBelow : ∀ {t u : Stmt}, u ∈ t.nodes → ¬ t.Declares y → ws ∉ t.usedNames →
      ¬ u.Declares y ∧ ws ∉ u.usedNames := fun hu hDeclares hFresh =>
    ⟨fun h => hDeclares (h.of_mem hu), fun h => hFresh (Stmt.usedNames_subset hu h)⟩
  refine Stmt.ind ?_ ?_ ?_ ?_ ?_ ?_ ?_ ?_
  · intro site n b body ih s hDeclares hFresh hy hws
    obtain ⟨hBody, hUsed⟩ := hBelow (u := body) (by simp [Stmt.self_mem_nodes]) hDeclares hFresh
    have hne : y ≠ n ∧ ws ≠ n := by
      constructor
      · rintro rfl
        exact hDeclares ⟨site, b, body, Stmt.self_mem_nodes _⟩
      · rintro rfl
        exact hFresh (Stmt.mem_usedNames.mpr ⟨_, Stmt.self_mem_nodes _, .inl (by simp [Stmt.ownNames])⟩)
    refine ih _ hBody hUsed ?_ ?_
    · rwa [List.lookup_cons, beq_eq_false_iff_ne.mpr hne.1]
    · rwa [List.lookup_cons, beq_eq_false_iff_ne.mpr hne.2]
  · intro site h body ih s hDeclares hFresh hy hws
    obtain ⟨hBody, hUsed⟩ := hBelow (u := body) (by simp [Stmt.self_mem_nodes]) hDeclares hFresh
    have hBounds : ∀ e ∈ [h.lower, h.upper], e ∈ (Stmt.loop site h body).exprs := by
      simp [Stmt.exprs]
    exact .append (.append (hReads (hBounds _ (by simp)) hFresh) (hReads (hBounds _ (by simp)) hFresh))
      (ih _ hBody hUsed hy hws)
  · intro site e body ih s hDeclares hFresh hy hws
    obtain ⟨hBody, hUsed⟩ := hBelow (u := body) (by simp [Stmt.self_mem_nodes]) hDeclares hFresh
    exact .append (hReads (t := .guard site e body) (by simp [Stmt.exprs]) hFresh)
      (ih _ hBody hUsed hy hws)
  · intro site e yes no ihYes ihNo s hDeclares hFresh hy hws
    obtain ⟨hYes, hYesUsed⟩ := hBelow (u := yes) (by simp [Stmt.self_mem_nodes]) hDeclares hFresh
    obtain ⟨hNo, hNoUsed⟩ := hBelow (u := no) (by simp [Stmt.self_mem_nodes]) hDeclares hFresh
    exact .append (.append (hReads (t := .branch site e yes no) (by simp [Stmt.exprs]) hFresh)
      (ihYes _ hYes hYesUsed hy hws)) (ihNo _ hNo hNoUsed hy hws)
  · intro site b is v s _ hFresh hy hws
    by_cases hReduction : ∃ op' rhs, b = y ∧ Expr.reduction? b is v = some (op', rhs)
    · obtain ⟨op', rhs, rfl, hReduction⟩ := hReduction
      rw [redirect_reduction ws row hReduction]
      exact mirrors_reduction hReduction hRow hFresh hy hws
    · have hSame : redirect y ws op row (.store site b is v) = .store site b is v := by
        by_cases hb : b = y
        · subst hb
          cases hNone : Expr.reduction? b is v with
          | some r => exact absurd ⟨r.1, r.2, rfl, hNone⟩ hReduction
          | none => rw [redirect_store, redirectStore, if_pos (beq_self_eq_true b), hNone]
        · exact redirect_other _ _ hb is v
      rw [hSame]
      refine .refl fun x hx => movedFrom_self ?_
      rintro rfl
      obtain ⟨u, s', hStands, hMade⟩ := Stmt.exists_maker _ s x hx
      exact hFresh (hMade.accesses.mem_usedNames hStands.mem)
  · exact fun _ _ _ _ _ _ _ _ => .refl fun _ hx => by cases hx
  · intro site ts ih s hDeclares hFresh hy hws
    rw [redirect_block, Stmt.accessesIn, Stmt.accessesIn, Stmt.accessesInAll_eq_flatMap,
      Stmt.accessesInAll_eq_flatMap, List.flatMap_map]
    refine .flatMap fun t ht => ?_
    obtain ⟨hPart, hUsed⟩ := hBelow (u := t) (Stmt.mem_nodes_of_child ht (Stmt.self_mem_nodes t))
      hDeclares hFresh
    exact ih t ht s hPart hUsed hy hws
  · exact fun _ _ _ _ _ _ => .refl fun _ hx => by cases hx

/-! ## What loops carry -/

section carried

variable {n : Nest} {same : Bool} {x x' z z' : Access}

/-- A pair that crosses iterations after the move does so before, when no level asserts anything of
    the buffer that makes way for the row. -/
theorem crosses_of_movedFrom (hx : x'.MovedFrom y ws row x) (hz : z'.MovedFrom y ws row z)
    (hConflict : Nest.conflicting x' z' = true)
    (hFree : x'.buffer = ws → ∀ l ∈ n.levels, y ∉ l.noDeps) (h : n.Crosses same x' z') :
    Nest.conflicting x z = true ∧ n.Crosses same x z := by
  obtain ⟨hBuffer, hWrite⟩ := Nest.conflicting_iff.mp hConflict
  have hOld : ∀ {front : List Expr}, x'.Sharpens front x → z'.Sharpens front z →
      x.buffer = z.buffer → Nest.conflicting x z = true := fun hx hz hEq =>
    Nest.conflicting_iff.mpr ⟨hEq, by rwa [← hx.kind, ← hz.kind]⟩
  rcases hx with ⟨hSame, hne, hx⟩ | ⟨hx', hxOld, hx⟩
  · rcases hz with ⟨hSame', _, hz⟩ | ⟨hz', _, _⟩
    · refine ⟨hOld hx hz (hSame.symm.trans (hBuffer.trans hSame')), ?_⟩
      exact Nest.crosses_of_sharpens hx hz (fun l _ hAsserted => hSame ▸ hAsserted) h
    · exact absurd (hBuffer.trans hz') hne
  · rcases hz with ⟨_, hne, _⟩ | ⟨_, hzOld, hz⟩
    · exact absurd (hBuffer.symm.trans hx') hne
    · refine ⟨hOld hx hz (hxOld.trans hzOld.symm), ?_⟩
      refine Nest.crosses_of_sharpens hx hz (fun l hl hAsserted => ?_) h
      rw [hxOld, List.contains_iff_mem] at hAsserted
      exact absurd hAsserted (hFree hx' l hl)

end carried

theorem calls_redirect {t : Stmt} (h : t.calls = []) : (redirect y ws op row t).calls = [] := by
  rw [Stmt.calls, List.filter_eq_nil_iff] at h ⊢
  intro x hx
  rcases mem_nodes_redirect hx with ⟨u, hu, rfl, _⟩ | ⟨_, _, _, _, _, _, _, rfl⟩
  · have hOld := h u hu
    cases u <;> exact hOld
  · exact Bool.false_ne_true

end Lower

/-- A loop without calls that carries nothing. -/
structure Stmt.Quiet (lp : Stmt) : Prop where
  calls : lp.calls = []
  carries : ∀ b, ¬ lp.Carries b

namespace Lower

/-- **Quiet loops stay quiet** when reductions around them are moved, unless they assert something of
    the buffer. -/
theorem quiet_redirect {site : Site} {h : LoopHead} {body : Stmt} (hRow : row.buffers = [])
    (hDeclares : ¬ body.Declares y) (hFresh : ws ∉ (Stmt.loop site h body).usedNames)
    (hNoDeps : y ∉ h.noDeps) (hQuiet : (Stmt.loop site h body).Quiet) :
    (Stmt.loop site h (redirect y ws op row body)).Quiet := by
  have hCalls : (redirect y ws op row (.loop site h body)).calls = [] := calls_redirect hQuiet.calls
  have hNot : ¬ (Stmt.loop site h body).Declares y := by
    rintro ⟨s, buffer, inner, hDecl⟩
    rw [Stmt.nodes_loop, List.mem_cons] at hDecl
    rcases hDecl with hEq | hDecl
    · cases hEq
    · exact hDeclares ⟨s, buffer, inner, hDecl⟩
  refine ⟨hCalls, fun b hCarries => ?_⟩
  obtain ⟨same, x', z', hPair, hConflict, rfl, hCrosses⟩ := (Stmt.carries_iff hCalls).mp hCarries
  obtain ⟨x, z, hOld, hx, hz⟩ :=
    (mirrors_redirect hRow _ {} hNot hFresh rfl rfl).pairOf hPair hConflict
  have hFree : ∀ l ∈ [(Stmt.loop site h body).level], y ∉ l.noDeps := by
    intro l hl
    rw [List.mem_singleton.mp hl]
    exact hNoDeps
  obtain ⟨hConflict, hCrosses⟩ := crosses_of_movedFrom hx hz hConflict (fun _ => hFree) hCrosses
  exact hQuiet.carries x.buffer
    ((Stmt.carries_iff hQuiet.calls).mpr ⟨same, x, z, hOld, hConflict, rfl, hCrosses⟩)

end Lower

end LoopNest

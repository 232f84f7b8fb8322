import LoopNest.Proofs.Touches
import LoopNest.Proofs.Walks

/-! # The statements that make accesses

  Every access below a statement is made by one of the statements there, at the place where that one
  stands: inside some loops and below some declarations (`Stmt.exists_maker`). What an access is
  follows from what its maker is (`Access.MadeBy`), so that facts about accesses need no induction
  over programs of their own. -/

namespace LoopNest

/-- What an access says of the statement that makes it.

    * **read**, **write**: it is a part of an expression of the statement, or the store itself;
    * **reduction**: it belongs to a reduction when the statement is one into its buffer. -/
structure Access.MadeBy (a : Access) (u : Stmt) (s : Scope) : Prop where
  stmt : a.stmt = u.id
  loops : a.loops = s.loops
  depth : a.declDepth = s.decls.lookup a.buffer
  read : a.kind = .read → ∃ e ∈ u.exprs, .load a.buffer a.indices ∈ e.parts
  write : a.kind = .write → ∃ site v, u = .store site a.buffer a.indices v
  reduction : ∀ op, a.reduction = some op →
    ∃ site is v rhs, u = .store site a.buffer is v ∧ Expr.reduction? a.buffer is v = some (op, rhs)

/-- A statement stands at a place below another one: `s` is the scope of the upper one.

    * **loops**: the loops around are loops of the upper one;
    * **decls**: what the upper one does not declare is declared where it was. -/
structure Stmt.Stands (t : Stmt) (s : Scope) (u : Stmt) (s' : Scope) : Prop where
  mem : u ∈ t.nodes
  loops : ∃ more, s'.loops = s.loops ++ more
    ∧ ∀ k ∈ more, ∃ site body, .loop site k.head body ∈ t.nodes ∧ site.id = k.id
  decls : ∀ b, (¬ ∃ site buffer body, Stmt.decl site b buffer body ∈ t.nodes) →
    s'.decls.lookup b = s.decls.lookup b

namespace Stmt

variable {t u v : Stmt} {s s' : Scope} {a : Access}

theorem Stands.refl (t : Stmt) (s : Scope) : t.Stands s t s :=
  ⟨self_mem_nodes t, ⟨[], (List.append_nil _).symm, fun _ hk => by cases hk⟩, fun _ _ => rfl⟩

/-- What stands below a part in the same scope stands below the whole. -/
theorem Stands.of_mem (hu : u ∈ t.nodes) (h : u.Stands s v s') : t.Stands s v s' := by
  obtain ⟨more, hLoops, hMore⟩ := h.loops
  refine ⟨mem_nodes_trans h.mem hu, ⟨more, hLoops, fun k hk => ?_⟩, fun b hNot => h.decls b ?_⟩
  · obtain ⟨site, body, hLoop, hId⟩ := hMore k hk
    exact ⟨site, body, mem_nodes_trans hLoop hu, hId⟩
  · rintro ⟨site, buffer, body, hDecl⟩
    exact hNot ⟨site, buffer, body, mem_nodes_trans hDecl hu⟩

theorem Stands.decl {site : Site} {n : String} {b : Buffer} {body : Stmt}
    (h : body.Stands { s with decls := (n, s.loops.length) :: s.decls } v s') :
    (Stmt.decl site n b body).Stands s v s' := by
  have hBelow := h.of_mem (t := .decl site n b body) (by simp [self_mem_nodes])
  refine ⟨hBelow.mem, hBelow.loops, fun c hNot => (hBelow.decls c hNot).trans ?_⟩
  have hne : c ≠ n := by
    rintro rfl
    exact hNot ⟨site, b, body, self_mem_nodes _⟩
  rw [List.lookup_cons, beq_eq_false_iff_ne.mpr hne]

theorem Stands.loop {site : Site} {h : LoopHead} {body : Stmt}
    (hBody : body.Stands { s with loops := s.loops ++ [⟨site.id, h⟩] } v s') :
    (Stmt.loop site h body).Stands s v s' := by
  have hBelow := hBody.of_mem (t := .loop site h body) (by simp [self_mem_nodes])
  obtain ⟨more, hLoops, hMore⟩ := hBelow.loops
  refine ⟨hBelow.mem, ⟨⟨site.id, h⟩ :: more, ?_, fun k hk => ?_⟩, hBelow.decls⟩
  · rw [hLoops, List.append_assoc, List.singleton_append]
  · rcases List.mem_cons.mp hk with rfl | hk
    · exact ⟨site, body, self_mem_nodes _, rfl⟩
    · exact hMore k hk

/-- The reads of an expression of a statement. -/
theorem madeBy_of_reads {e : Expr} (he : e ∈ t.exprs) (h : a ∈ s.reads t.id none e) :
    a.MadeBy t s := by
  obtain ⟨b, is, hPart, rfl⟩ := Scope.mem_reads.mp h
  exact ⟨rfl, rfl, rfl, fun _ => ⟨e, he, hPart⟩, fun hKind => (by cases hKind),
    fun op hOp => (by cases hOp)⟩

/-- The accesses of a store. -/
theorem madeBy_store {site : Site} {b : String} {is : List Expr} {e : Expr}
    (h : a ∈ (Stmt.store site b is e).accessesIn s) : a.MadeBy (.store site b is e) s := by
  have hReduction : ∀ {op : ReduceOp}, (Expr.reduction? b is e).map (·.1) = some op →
      ∃ rhs, Expr.reduction? b is e = some (op, rhs) := by
    intro op hSome
    obtain ⟨⟨op', rhs⟩, hReduction, rfl⟩ := Option.map_eq_some_iff.mp hSome
    exact ⟨rhs, hReduction⟩
  simp only [accessesIn, List.mem_append, List.mem_flatMap, List.mem_singleton] at h
  rcases h with (⟨i, hi, h⟩ | h) | rfl
  · exact madeBy_of_reads (t := .store site b is e) (by simp [exprs, hi]) h
  · -- a read of the value belongs to the reduction when it is a read of its buffer
    obtain ⟨b', is', hPart, rfl⟩ := Scope.mem_reads.mp h
    refine ⟨rfl, rfl, rfl, fun _ => ⟨e, by simp [exprs], hPart⟩, fun hKind => (by cases hKind),
      fun op hOp => ?_⟩
    obtain ⟨⟨name, op'⟩, hSome, hName⟩ := Option.bind_eq_some_iff.mp hOp
    obtain ⟨op'', hSome, hEq⟩ := Option.map_eq_some_iff.mp hSome
    cases hEq
    dsimp only at hName
    split at hName
    · rename_i hBuffer
      cases hName
      obtain rfl : b = b' := by simpa using hBuffer
      obtain ⟨rhs, hReduction⟩ := hReduction hSome
      exact ⟨site, is, e, rhs, rfl, hReduction⟩
    · cases hName
  · refine ⟨rfl, rfl, rfl, fun hKind => (by cases hKind), fun _ => ⟨site, e, rfl⟩, fun op hOp => ?_⟩
    obtain ⟨rhs, hReduction⟩ := hReduction hOp
    exact ⟨site, is, e, rhs, rfl, hReduction⟩

/-- **Makers**: every access below a statement is made by a statement that stands there. -/
theorem exists_maker :
    ∀ (t : Stmt) (s : Scope) (a : Access), a ∈ t.accessesIn s →
      ∃ u s', t.Stands s u s' ∧ a.MadeBy u s' := by
  have hHere : ∀ {t : Stmt} {s : Scope} {e : Expr} {a : Access}, e ∈ t.exprs →
      a ∈ s.reads t.id none e → ∃ u s', t.Stands s u s' ∧ a.MadeBy u s' :=
    fun he h => ⟨_, _, .refl _ _, madeBy_of_reads he h⟩
  refine Stmt.ind ?_ ?_ ?_ ?_ ?_ ?_ ?_ ?_
  · intro site n b body ih s a h
    obtain ⟨u, s', hStands, hMade⟩ := ih _ a h
    exact ⟨u, s', hStands.decl, hMade⟩
  · intro site head body ih s a h
    rw [accessesIn, List.mem_append, List.mem_append] at h
    rcases h with (h | h) | h
    · exact hHere (t := .loop site head body) (by simp [exprs]) h
    · exact hHere (t := .loop site head body) (by simp [exprs]) h
    · obtain ⟨u, s', hStands, hMade⟩ := ih _ a h
      exact ⟨u, s', hStands.loop, hMade⟩
  · intro site e body ih s a h
    rw [accessesIn, List.mem_append] at h
    rcases h with h | h
    · exact hHere (t := .guard site e body) (by simp [exprs]) h
    · obtain ⟨u, s', hStands, hMade⟩ := ih _ a h
      exact ⟨u, s', hStands.of_mem (by simp [self_mem_nodes]), hMade⟩
  · intro site e yes no ihYes ihNo s a h
    rw [accessesIn, List.mem_append, List.mem_append] at h
    rcases h with (h | h) | h
    · exact hHere (t := .branch site e yes no) (by simp [exprs]) h
    · obtain ⟨u, s', hStands, hMade⟩ := ihYes _ a h
      exact ⟨u, s', hStands.of_mem (by simp [self_mem_nodes]), hMade⟩
    · obtain ⟨u, s', hStands, hMade⟩ := ihNo _ a h
      exact ⟨u, s', hStands.of_mem (by simp [self_mem_nodes]), hMade⟩
  · exact fun site b is v s a h => ⟨_, _, .refl _ _, madeBy_store h⟩
  · intro site f args s a h
    cases h
  · intro site ts ih s a h
    rw [accessesIn, accessesInAll_eq_flatMap] at h
    obtain ⟨t, ht, h⟩ := List.mem_flatMap.mp h
    obtain ⟨u, s', hStands, hMade⟩ := ih t ht _ a h
    refine ⟨u, s', hStands.of_mem ?_, hMade⟩
    rw [nodes_block]
    exact List.mem_cons_of_mem _ (List.mem_flatMap.mpr ⟨t, ht, self_mem_nodes t⟩)
  · intro site s a h
    cases h

end Stmt

end LoopNest

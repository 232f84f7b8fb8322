import LoopNest.Proofs.Replacements

/-! # Expressions in the place of scalars

  A program in which an expression takes the place of a scalar runs like the program with the value
  of the expression as that of the scalar (`Stmt.runBy_substitute`). The expression has to keep its
  value wherever the program reads the scalar, so no loop of the program may set a scalar of it.

  `Stmt.runBy` is the run with a given reading of expressions; with that of the reference it is
  `Stmt.run`, writes included. -/

namespace LoopNest

theorem Env.set_set (env : Env) (x : String) (v w : Int) : (env.set x v).set x w = env.set x w := by
  funext y
  by_cases hy : y = x
  · rw [hy, Env.set_self, Env.set_self]
  · rw [Env.set_ne hy, Env.set_ne hy, Env.set_ne hy]

theorem Env.set_comm (env : Env) {x y : String} (h : x ≠ y) (v w : Int) :
    (env.set x v).set y w = (env.set y w).set x v := by
  funext z
  by_cases hx : z = x
  · rw [hx, Env.set_ne h, Env.set_self, Env.set_self]
  · by_cases hy : z = y
    · rw [hy, Env.set_self, Env.set_ne (Ne.symm h), Env.set_self]
    · rw [Env.set_ne hy, Env.set_ne hx, Env.set_ne hx, Env.set_ne hy]

namespace Action

theorem inTurn_skips {α : Type} (xs : List α) : inTurn (xs.map fun _ => skip) = skip := by
  induction xs with
  | nil => rfl
  | cons x xs ih => rw [List.map_cons, inTurn_cons, ih, skip_seq]

theorem inTurn_flatMap {α : Type} (f : α → List Action) (xs : List α) :
    inTurn (xs.flatMap f) = inTurn (xs.map fun x => inTurn (f x)) := by
  induction xs with
  | nil => rfl
  | cons x xs ih => rw [List.flatMap_cons, inTurn_append, ih, List.map_cons, inTurn_cons]

end Action

namespace Stmt

/-! ## Scalars that loops set -/

theorem binds_decl {s : Site} {n : String} {b : Buffer} {body : Stmt} {x : String} :
    (Stmt.decl s n b body).Binds x ↔ body.Binds x := by
  simp [Binds]

theorem binds_loop {s : Site} {h : LoopHead} {body : Stmt} {x : String} :
    (Stmt.loop s h body).Binds x ↔ h.iter = x ∨ body.Binds x := by
  constructor
  · rintro ⟨s', h', body', hMem, hIter⟩
    rw [nodes_loop, List.mem_cons] at hMem
    rcases hMem with hEq | hMem
    · cases hEq
      exact .inl hIter
    · exact .inr ⟨s', h', body', hMem, hIter⟩
  · rintro (hIter | hBelow)
    · exact ⟨s, h, body, self_mem_nodes _, hIter⟩
    · exact hBelow.of_mem (by simp [self_mem_nodes])

theorem binds_guard {s : Site} {c : Expr} {body : Stmt} {x : String} :
    (Stmt.guard s c body).Binds x ↔ body.Binds x := by
  simp [Binds]

theorem binds_branch {s : Site} {c : Expr} {yes no : Stmt} {x : String} :
    (Stmt.branch s c yes no).Binds x ↔ yes.Binds x ∨ no.Binds x := by
  constructor
  · rintro ⟨s', h', body', hMem, hIter⟩
    rw [nodes_branch, List.mem_cons, List.mem_append] at hMem
    rcases hMem with hEq | hMem | hMem
    · cases hEq
    · exact .inl ⟨s', h', body', hMem, hIter⟩
    · exact .inr ⟨s', h', body', hMem, hIter⟩
  · rintro (hYes | hNo)
    · exact hYes.of_mem (by simp [self_mem_nodes])
    · exact hNo.of_mem (by simp [self_mem_nodes])

theorem binds_block {s : Site} {ts : List Stmt} {x : String} :
    (Stmt.block s ts).Binds x ↔ ∃ t ∈ ts, t.Binds x := by
  constructor
  · rintro ⟨s', h', body', hMem, hIter⟩
    rw [nodes_block, List.mem_cons, List.mem_flatMap] at hMem
    rcases hMem with hEq | ⟨t, ht, hMem⟩
    · cases hEq
    · exact ⟨t, ht, s', h', body', hMem, hIter⟩
  · rintro ⟨t, ht, hBelow⟩
    exact hBelow.of_mem (by
      rw [nodes_block]
      exact List.mem_cons_of_mem _ (List.mem_flatMap.mpr ⟨t, ht, self_mem_nodes t⟩))

/-! ## Runs with other values -/

mutual
/-- What a program does when its expressions have the values that `value` gives. -/
def runBy (value : Env → Memory → Expr → Option Int) (fresh : Memory) (env : Env) : Stmt → Action
  | .decl _ n b body =>
    if b.access = .cache then (runBy value fresh env body).withLocal n (fresh n)
    else runBy value fresh env body
  | .loop _ h body => fun m => do
    let lower ← value env m h.lower
    let upper ← value env m h.upper
    Action.inTurn ((counting lower upper).map fun v => runBy value fresh (env.set h.iter v) body) m
  | .guard _ c body => fun m => do
    if (← value env m c) = 0 then Action.skip m else runBy value fresh env body m
  | .branch _ c yes no => fun m => do
    if (← value env m c) = 0 then runBy value fresh env no m else runBy value fresh env yes m
  | .store _ b is v => fun m => do
    let indices ← is.mapM (value env m)
    let stored ← value env m v
    return (m.put b indices stored, [⟨b, indices, stored⟩])
  | .block _ stmts => runAllBy value fresh env stmts
  | .call .. | .hole _ => .stuck
/-- What statements do one after the other. -/
def runAllBy (value : Env → Memory → Expr → Option Int) (fresh : Memory) (env : Env) :
    List Stmt → Action
  | [] => .skip
  | t :: ts => (runBy value fresh env t).seq (runAllBy value fresh env ts)
end

variable {value : Env → Memory → Expr → Option Int} {fresh : Memory} {env : Env} {m : Memory}
  {out : Memory × List Write}

theorem runAllBy_eq_inTurn (ts : List Stmt) :
    runAllBy value fresh env ts = Action.inTurn (ts.map (runBy value fresh env)) := by
  induction ts with
  | nil => rfl
  | cons t ts ih => simp [runAllBy, ih]

/-- With the values of the reference it is the reference run. -/
theorem runBy_value? (fresh : Memory) :
    ∀ (t : Stmt) (env : Env), t.runBy Expr.value? fresh env = t.run fresh env := by
  refine Stmt.ind ?_ ?_ ?_ ?_ ?_ ?_ ?_ ?_
  · intro s n b body ih env
    rw [runBy, run, ih]
  · intro s h body ih env
    simp only [runBy, run, ih]
  · intro s c body ih env
    simp only [runBy, run, ih]
  · intro s c yes no ihYes ihNo env
    simp only [runBy, run, ihYes, ihNo]
  · intro s b is v env
    simp only [runBy, run, Expr.values?_eq_mapM]
  · exact fun _ _ _ _ => rfl
  · intro s ts ih env
    rw [runBy, run, runAllBy_eq_inTurn, runAll_eq_inTurn]
    congr 1
    exact List.map_congr_left fun t ht => ih t ht env
  · exact fun _ _ => rfl

/-! ## Replaced scalars -/

section substitute

variable {x : String} {w : Expr}

/-- The scalars of an expression in which a scalar is replaced. -/
theorem mem_scalars_substitute {y : String} :
    ∀ e : Expr, y ∈ (e.substitute [(x, w)]).scalars → y ∈ e.scalars ∨ y ∈ w.scalars := by
  refine Expr.ind ?_ ?_ ?_ ?_ ?_ ?_ ?_
  · exact fun _ h => .inl h
  · exact fun _ h => .inl h
  · exact fun _ h => .inl h
  · intro z h
    by_cases hz : z = x
    · subst hz
      exact .inr (by simpa [Expr.substitute] using h)
    · refine .inl ?_
      have hLookup : List.lookup z [(x, w)] = none := by
        rw [List.lookup_cons, beq_eq_false_iff_ne.mpr hz]
        rfl
      simpa [Expr.substitute, hLookup] using h
  · intro b is ih h
    rw [Expr.substitute, Expr.substituteAll_eq_map, Expr.scalars_load, List.flatMap_map] at h
    obtain ⟨i, hi, h⟩ := List.mem_flatMap.mp h
    rw [Expr.scalars_load]
    exact (ih i hi h).imp_left fun h => List.mem_flatMap.mpr ⟨i, hi, h⟩
  · intro op e ih h
    rw [Expr.substitute, Expr.scalars_unary] at h
    rw [Expr.scalars_unary]
    exact ih h
  · intro op a b iha ihb h
    rw [Expr.substitute, Expr.scalars_binary, List.mem_append] at h
    rw [Expr.scalars_binary, List.mem_append]
    rcases h with h | h
    · exact (iha h).imp_left .inl
    · exact (ihb h).imp_left .inr

theorem substituteAll_eq_map (ts : List Stmt) :
    substituteAll x w ts = ts.map (substitute x w) := by
  induction ts with
  | nil => rfl
  | cons t ts ih => simp [substituteAll, ih]

/-- Replacing a scalar sets no other scalars. -/
theorem binds_substitute {y : String} :
    ∀ t : Stmt, (t.substitute x w).Binds y → t.Binds y := by
  refine Stmt.ind ?_ ?_ ?_ ?_ ?_ ?_ ?_ ?_
  · intro s n b body ih h
    rw [substitute, binds_decl] at h
    exact binds_decl.mpr (ih h)
  · intro s head body ih h
    rw [substitute, binds_loop] at h
    apply binds_loop.mpr
    refine h.imp_right fun h => ?_
    split at h
    · exact h
    · exact ih h
  · intro s c body ih h
    rw [substitute, binds_guard] at h
    exact binds_guard.mpr (ih h)
  · intro s c yes no ihYes ihNo h
    rw [substitute, binds_branch] at h
    exact binds_branch.mpr (h.imp ihYes ihNo)
  · intro s b is v h
    rw [substitute] at h
    simp [Binds] at h
  · intro s f args h
    rw [substitute] at h
    simp [Binds] at h
  · intro s ts ih h
    rw [substitute, substituteAll_eq_map, binds_block] at h
    obtain ⟨t', ht', h⟩ := h
    obtain ⟨t, ht, rfl⟩ := List.mem_map.mp ht'
    exact binds_block.mpr ⟨t, ht, ih t ht h⟩
  · exact fun s h => h

/-- **Replaced iterators**: a program with an expression in the place of a scalar runs like the
    program with the value of the expression as that of the scalar. The expression has to keep its
    value wherever the program reads the scalar. -/
theorem runBy_substitute {v : Int} (hValue : ∀ {env m}, value env m w = some v →
      ∀ e : Expr, value env m (e.substitute [(x, w)]) = value (env.set x v) m e) (fresh : Memory) :
    ∀ (t : Stmt) (env : Env), (∀ y ∈ w.scalars, ¬ t.Binds y) →
      (∀ env' m, (∀ y ∈ w.scalars, env' y = env y) → value env' m w = some v) →
      (t.substitute x w).runBy value fresh env = t.runBy value fresh (env.set x v) := by
  have hHere : ∀ {env : Env},
      (∀ env' m, (∀ y ∈ w.scalars, env' y = env y) → value env' m w = some v) →
      ∀ m (e : Expr), value env m (e.substitute [(x, w)]) = value (env.set x v) m e :=
    fun hw m e => hValue (hw _ m fun _ _ => rfl) e
  refine Stmt.ind ?_ ?_ ?_ ?_ ?_ ?_ ?_ ?_
  · intro s n b body ih env hFree hw
    rw [substitute, runBy, runBy, ih env (fun y hy hBinds => hFree y hy (binds_decl.mpr hBinds)) hw]
  · intro s head body ih env hFree hw
    have hBody : ∀ u : Int,
        (if head.iter = x then body else body.substitute x w).runBy value fresh
            (env.set head.iter u)
          = body.runBy value fresh ((env.set x v).set head.iter u) := by
      intro u
      by_cases hIter : head.iter = x
      · -- the loop sets the scalar itself, so its old value does not matter
        rw [if_pos hIter, hIter, Env.set_set]
      · rw [if_neg hIter, Env.set_comm env (Ne.symm hIter)]
        apply ih _ fun y hy hBinds => hFree y hy (binds_loop.mpr (.inr hBinds))
        intro env' m hSame
        apply hw env' m
        intro y hy
        have hy' : y ≠ head.iter := by
          rintro rfl
          exact hFree _ hy (binds_loop.mpr (.inl rfl))
        rw [hSame y hy, Env.set_ne hy']
    funext m
    rw [substitute]
    simp only [runBy, hHere hw, hBody]
  · intro s c body ih env hFree hw
    funext m
    rw [substitute]
    simp only [runBy, hHere hw,
      ih env (fun y hy hBinds => hFree y hy (binds_guard.mpr hBinds)) hw]
  · intro s c yes no ihYes ihNo env hFree hw
    funext m
    rw [substitute]
    simp only [runBy, hHere hw,
      ihYes env (fun y hy hBinds => hFree y hy (binds_branch.mpr (.inl hBinds))) hw,
      ihNo env (fun y hy hBinds => hFree y hy (binds_branch.mpr (.inr hBinds))) hw]
  · intro s b is u env _ hw
    funext m
    have hSubscripts : (is.map (Expr.substitute [(x, w)])).mapM (value env m)
        = is.mapM (value (env.set x v) m) :=
      Expr.mapM_map_congr fun e _ => hHere hw m e
    rw [substitute]
    simp only [runBy, hHere hw, hSubscripts]
  · exact fun s f args env _ _ => rfl
  · intro s ts ih env hFree hw
    rw [substitute, runBy, runBy, runAllBy_eq_inTurn, runAllBy_eq_inTurn, substituteAll_eq_map,
      List.map_map]
    congr 1
    apply List.map_congr_left
    intro t ht
    exact ih t ht env (fun y hy hBinds => hFree y hy (binds_block.mpr ⟨t, ht, hBinds⟩)) hw
  · exact fun s env _ _ => rfl

end substitute

end Stmt

end LoopNest

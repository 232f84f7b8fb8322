import LoopNest.Proofs.RenamedSplits
import LoopNest.Proofs.SimplifiedPrograms

/-! # Splits commute

  The loops of two splits may lie in each other. Then one order splits the inner loop first and puts the
  old outer iterator into the loops that it has got, and the other order puts it into the inner loop and
  splits that. Both come to the same, whatever the bounds of the inner loop mention.

  * **Replaced scalars** may be replaced in either order, if what is put in for the one is put into what
    is put in for the other (`Stmt.substitute_comm`).
  * **Parts of a split**: sums, differences and quotients are built alike from expressions in which a
    scalar has been replaced, because no constant comes or goes (`Expr.int?_substitute`). So a loop is
    split alike before and after (`Restructure.substitute_splitLoop`).
  * **Splits** of two loops commute when their new names are new (`Stmt.splitAt_comm`). -/

namespace LoopNest

/-! ## Replaced scalars -/

namespace Expr

section

variable {x y : String} {v w : Expr}

theorem substitute_var_self : (Expr.var x).substitute [(x, v)] = v := by
  simp [substitute]

theorem substitute_var_ne (h : y ≠ x) : (Expr.var y).substitute [(x, v)] = .var y := by
  simp [substitute, List.lookup_cons, beq_eq_false_iff_ne.mpr h]

theorem substitute_comm (hxy : x ≠ y) (hv : y ∉ v.scalars) : ∀ e : Expr,
    (e.substitute [(y, w)]).substitute [(x, v)]
      = (e.substitute [(x, v)]).substitute [(y, w.substitute [(x, v)])] := by
  refine Expr.ind ?int ?float ?bool ?var ?load ?unary ?binary
  case int => exact fun _ => rfl
  case float => exact fun _ => rfl
  case bool => exact fun _ => rfl
  case var =>
    intro z
    by_cases hzy : z = y
    · subst hzy
      rw [substitute_var_self, substitute_var_ne (Ne.symm hxy), substitute_var_self]
    · by_cases hzx : z = x
      · subst hzx
        rw [substitute_var_ne hzy, substitute_var_self, substitute_eq_self hv]
      · rw [substitute_var_ne hzy, substitute_var_ne hzx, substitute_var_ne hzy]
  case load =>
    intro b is ih
    simp only [substitute, substituteAll_eq_map, List.map_map, load.injEq, true_and]
    exact List.map_congr_left ih
  case unary => exact fun op e ih => by simp only [substitute, ih]
  case binary => exact fun op a b iha ihb => by simp only [substitute, iha, ihb]

/-! ## Built expressions -/

/-- No constant comes or goes when something else than a constant is put in. -/
theorem int?_substitute (hv : v.int? = none) (e : Expr) : (e.substitute [(x, v)]).int? = e.int? := by
  cases e with
  | var y =>
    by_cases hy : y = x
    · rw [hy, substitute_var_self, hv]
      rfl
    · rw [substitute_var_ne hy]
  | _ => rfl

/-- A sum with a sum is no constant. -/
theorem int?_plus_add (a b c : Expr) : (a.plus (b.add c)).int? = none := by
  rcases plus_cases a (b.add c) with ⟨hEq, _⟩ | ⟨_, hZero⟩ | hEq | ⟨_, _, _, hInt, _⟩
  · rw [hEq]
    rfl
  · cases hZero
  · rw [hEq]
    rfl
  · cases hInt

theorem substitute_plus (hv : v.int? = none) (a b : Expr) :
    (a.plus b).substitute [(x, v)] = (a.substitute [(x, v)]).plus (b.substitute [(x, v)]) := by
  unfold plus
  rw [int?_substitute hv, int?_substitute hv]
  cases a.int? with
  | none =>
    cases b.int? with
    | none => rfl
    | some n => dsimp only; split <;> rfl
  | some m =>
    cases b.int? with
    | none => dsimp only; split <;> rfl
    | some n =>
      dsimp only
      cases Word.add? m n with
      | none => dsimp only [Option.elim]; split <;> [rfl; split <;> rfl]
      | some _ => rfl

theorem substitute_minus (hv : v.int? = none) (a b : Expr) :
    (a.minus b).substitute [(x, v)] = (a.substitute [(x, v)]).minus (b.substitute [(x, v)]) := by
  unfold minus
  rw [int?_substitute hv, int?_substitute hv]
  cases a.int? with
  | none =>
    cases b.int? with
    | none => rfl
    | some n => dsimp only; split <;> rfl
  | some m =>
    cases b.int? with
    | none => rfl
    | some n =>
      dsimp only
      cases Word.sub? m n with
      | none => dsimp only [Option.elim]; split <;> rfl
      | some _ => rfl

theorem substitute_ceilQuot (hv : v.int? = none) (a b : Expr) :
    (a.ceilQuot b).substitute [(x, v)] = (a.substitute [(x, v)]).ceilQuot (b.substitute [(x, v)]) := by
  unfold ceilQuot
  rw [int?_substitute hv, int?_substitute hv]
  cases a.int? with
  | none =>
    cases b.int? with
    | none => rfl
    | some n => dsimp only; split <;> rfl
  | some m =>
    cases b.int? with
    | none => rfl
    | some n => dsimp only; split <;> rfl

end

end Expr

namespace Stmt

variable {x y : String} {v w : Expr}

/-- **Replaced scalars**: which of two scalars is replaced first makes no difference, if no loop binds
    the one and what is put in for it does not mention the other. -/
theorem substitute_comm (hxy : x ≠ y) (hv : y ∉ v.scalars) : ∀ t : Stmt, ¬ t.Binds x →
    (t.substitute y w).substitute x v = (t.substitute x v).substitute y (w.substitute [(x, v)]) := by
  have hAll : ∀ es : List Expr, (es.map (Expr.substitute [(y, w)])).map (Expr.substitute [(x, v)])
      = (es.map (Expr.substitute [(x, v)])).map (Expr.substitute [(y, w.substitute [(x, v)])]) := by
    intro es
    rw [List.map_map, List.map_map]
    exact List.map_congr_left fun e _ => Expr.substitute_comm hxy hv e
  refine Stmt.ind ?decl ?loop ?guard ?branch ?store ?call ?block ?hole
  case decl =>
    intro s n b body ih hx
    simp only [substitute, hAll, ih fun h => hx (binds_decl.mpr h)]
  case loop =>
    intro s h body ih hx
    rw [binds_loop, not_or] at hx
    simp only [substitute, Expr.substitute_comm hxy hv, if_neg hx.1, loop.injEq, true_and]
    -- a loop that binds the other scalar keeps it
    by_cases hy : h.iter = y
    · rw [if_pos hy, if_pos hy]
    · rw [if_neg hy, if_neg hy, ih hx.2]
  case guard =>
    intro s c body ih hx
    simp only [substitute, Expr.substitute_comm hxy hv, ih fun h => hx (binds_guard.mpr h)]
  case branch =>
    intro s c yes no ihYes ihNo hx
    rw [binds_branch, not_or] at hx
    simp only [substitute, Expr.substitute_comm hxy hv, ihYes hx.1, ihNo hx.2]
  case store =>
    intro s b is e hx
    simp only [substitute, hAll, Expr.substitute_comm hxy hv]
  case call =>
    intro s f args hx
    simp only [substitute, List.map_map, call.injEq, true_and]
    refine List.map_congr_left fun a _ => ?_
    cases a with
    | buffer b => rfl
    | value e => exact congrArg Arg.value (Expr.substitute_comm hxy hv e)
  case block =>
    intro s ts ih hx
    simp only [substitute, substituteAll_eq_map, List.map_map, block.injEq, true_and]
    exact List.map_congr_left fun t ht => ih t ht fun h => hx (binds_block.mpr ⟨t, ht, h⟩)
  case hole => exact fun s _ => rfl

end Stmt

/-! ## One loop -/

namespace Restructure

open Stmt (LabelledLoop)

/-- The labels of the new loops. -/
def SplitNames.labels (names : SplitNames) : List String := [names.outerLabel, names.innerLabel]

/-- A loop with a scalar replaced in its bounds and its body. -/
def replaced (x : String) (v : Expr) (l : LabelledLoop) : LabelledLoop where
  site := l.site
  head := { l.head with
    lower := l.head.lower.substitute [(x, v)], upper := l.head.upper.substitute [(x, v)] }
  body := l.body.substitute x v

section

variable {x : String} {v : Expr} {l : LabelledLoop} {r : SplitBy} {k : Int} {names : SplitNames}

theorem extent_replaced (hv : v.int? = none) :
    (replaced x v l).head.upper.minus (replaced x v l).head.lower
      = (l.head.upper.minus l.head.lower).substitute [(x, v)] :=
  (Expr.substitute_minus hv _ _).symm

theorem newCounts_replaced (hCount : r.count = .int k) (hv : v.int? = none) :
    newCounts (replaced x v l) r
      = ((newCounts l r).1.substitute [(x, v)], (newCounts l r).2.substitute [(x, v)]) := by
  unfold newCounts
  rw [extent_replaced hv]
  cases r with
  | factor c =>
    obtain rfl : c = .int k := hCount
    simp only [SplitBy.tripCounts, Expr.substitute_ceilQuot hv]
    rfl
  | parts c =>
    obtain rfl : c = .int k := hCount
    simp only [SplitBy.tripCounts, Expr.substitute_ceilQuot hv]
    rfl

theorem oldIterator_replaced (hCount : r.count = .int k) (hv : v.int? = none)
    (hx : x ∉ names.iters) :
    oldIterator (replaced x v l) r names = (oldIterator l r names).substitute [(x, v)] := by
  have hNe : ∀ y ∈ names.iters, y ≠ x := by
    rintro y hy rfl
    exact hx hy
  have hOuter : (Expr.var names.outerIter).substitute [(x, v)] = .var names.outerIter :=
    Expr.substitute_var_ne (hNe _ (by simp [SplitNames.iters]))
  have hInner : (Expr.var names.innerIter).substitute [(x, v)] = .var names.innerIter :=
    Expr.substitute_var_ne (hNe _ (by simp [SplitNames.iters]))
  have hRest : ((Expr.var names.innerIter).add ((newCounts l r).2.mul (.var names.outerIter))).substitute
      [(x, v)] = (Expr.var names.innerIter).add
        (((newCounts l r).2.substitute [(x, v)]).mul (.var names.outerIter)) := by
    show ((Expr.var names.innerIter).substitute [(x, v)]).add
      (((newCounts l r).2.substitute [(x, v)]).mul ((Expr.var names.outerIter).substitute [(x, v)])) = _
    rw [hOuter, hInner]
  unfold oldIterator
  rw [Expr.substitute_plus hv, newCounts_replaced hCount hv, hRest]
  rfl

theorem divides_replaced (hv : v.int? = none) (count : Expr) :
    divides count ((replaced x v l).head.upper.minus (replaced x v l).head.lower)
      = divides count (l.head.upper.minus l.head.lower) := by
  unfold divides
  rw [extent_replaced hv, Expr.int?_substitute hv]

/-- **Parts of a split**: a scalar may be replaced in a loop or in the loops that it is split into. -/
theorem substitute_splitLoop (hCount : r.count = .int k) (hv : v.int? = none) (hx : x ∉ names.iters)
    (hBody : ¬ l.body.Binds x) (hIter : x ≠ l.head.iter) (hApart : l.head.iter ∉ v.scalars) :
    (splitLoop l r names).substitute x v = splitLoop (replaced x v l) r names := by
  have hNe : ∀ y ∈ names.iters, y ≠ x := by
    rintro y hy rfl
    exact hx hy
  have hNewBody : (newBody l r names).substitute x v = newBody (replaced x v l) r names := by
    have hReplaced : (l.body.substitute l.head.iter (oldIterator l r names)).substitute x v
        = (replaced x v l).body.substitute l.head.iter (oldIterator (replaced x v l) r names) := by
      rw [oldIterator_replaced hCount hv hx]
      exact Stmt.substitute_comm hIter hApart l.body hBody
    unfold newBody
    rw [divides_replaced hv]
    dsimp only
    split
    · exact hReplaced
    · rw [Stmt.substitute, hReplaced, oldIterator_replaced hCount hv hx]
      rfl
  rw [splitLoop_eq, splitLoop_eq, newInner, newInner, newCounts_replaced hCount hv, Stmt.substitute,
    if_neg (hNe _ (by simp [SplitNames.iters])), Stmt.substitute,
    if_neg (hNe _ (by simp [SplitNames.iters])), hNewBody]
  rfl

end

end Restructure

/-! ## Programs -/

namespace Stmt

open Restructure

section

variable {x : String} {v : Expr} {r : SplitBy} {k : Int} {names : SplitNames}

/-- A scalar may be replaced before or after a split. -/
theorem substitute_splitAt (hCount : r.count = .int k) (hv : v.int? = none) (hx : x ∉ names.iters)
    (label : String) : ∀ t : Stmt, ¬ t.Binds x → (∀ y ∈ v.scalars, ¬ t.Binds y) →
      (t.splitAt label r names).substitute x v = (t.substitute x v).splitAt label r names := by
  refine Stmt.ind ?decl ?loop ?guard ?branch ?store ?call ?block ?hole
  case decl =>
    intro s n b body ih hBinds hFree
    rw [splitAt_decl, substitute, substitute, splitAt_decl, ih (fun h => hBinds (binds_decl.mpr h))
      fun y hy h => hFree y hy (binds_decl.mpr h)]
  case loop =>
    intro s h body ih hBinds hFree
    rw [binds_loop, not_or] at hBinds
    by_cases hs : s.label = some label
    · have hApart : h.iter ∉ v.scalars := fun hy => hFree _ hy (binds_loop.mpr (.inl rfl))
      rw [splitAt_loop_of_label r names hs, substitute, splitAt_loop_of_label r names hs,
        if_neg hBinds.1]
      exact substitute_splitLoop (l := ⟨s, h, body⟩) hCount hv hx hBinds.2 (Ne.symm hBinds.1) hApart
    · rw [splitAt_loop_of_ne r names hs, substitute, substitute, splitAt_loop_of_ne r names hs,
        if_neg hBinds.1, if_neg hBinds.1, ih hBinds.2 fun y hy h => hFree y hy (binds_loop.mpr (.inr h))]
  case guard =>
    intro s c body ih hBinds hFree
    rw [splitAt_guard, substitute, substitute, splitAt_guard, ih (fun h => hBinds (binds_guard.mpr h))
      fun y hy h => hFree y hy (binds_guard.mpr h)]
  case branch =>
    intro s c yes no ihYes ihNo hBinds hFree
    rw [binds_branch, not_or] at hBinds
    rw [splitAt_branch, substitute, substitute, splitAt_branch,
      ihYes hBinds.1 fun y hy h => hFree y hy (binds_branch.mpr (.inl h)),
      ihNo hBinds.2 fun y hy h => hFree y hy (binds_branch.mpr (.inr h))]
  case store => exact fun s b is e _ _ => rfl
  case call => exact fun s f args _ _ => rfl
  case block =>
    intro s ts ih hBinds hFree
    simp only [splitAt_block, substitute, substituteAll_eq_map, List.map_map, block.injEq, true_and]
    exact List.map_congr_left fun t ht => ih t ht (fun h => hBinds (binds_block.mpr ⟨t, ht, h⟩))
      fun y hy h => hFree y hy (binds_block.mpr ⟨t, ht, h⟩)
  case hole => exact fun s _ _ => rfl

end

section

variable {label : String} {r r' : SplitBy} {k k' : Int} {names names' : SplitNames} {l : LabelledLoop}

/-- In the loops of a split another loop is split as in the old loop. -/
theorem splitAt_splitLoop (hCount : r.count = .int k) (hCount' : r'.count = .int k')
    (hUnshadowed : l.stmt.Unshadowed) (hApart : l.stmt.NestsApart)
    (hFree : l.stmt.FreeOf names.iters) (hFree' : l.stmt.FreeOf names'.iters)
    (hLabel : label ∉ names.labels) :
    (splitLoop l r names).splitAt label r' names'
      = splitLoop { l with body := l.body.splitAt label r' names' } r names := by
  have hLabels : ∀ y ∈ names.labels, (Site.unnumbered (some y)).label ≠ some label := by
    rintro y hy hEq
    exact hLabel (Option.some.inj hEq ▸ hy)
  -- nothing that the old iterator is put together from is bound in the body
  have hOld : ∀ y ∈ (oldIterator l r names).scalars, ¬ l.body.Binds y := by
    intro y hy hBinds
    obtain ⟨d, hd, hy⟩ := (oldIterator_madeOf l r names).1 y hy
    have hUsed : y ∉ names.iters := hFree y (List.mem_append_left _
      (hBinds.of_mem (t := l.stmt) (by simp [LabelledLoop.stmt, self_mem_nodes])).mem_usedNames)
    rw [hCount] at hd
    simp only [governing, List.mem_cons, List.not_mem_nil, or_false] at hd
    rcases hd with rfl | rfl | rfl | rfl | rfl
    · exact hUsed (by simp_all [SplitNames.iters])
    · exact hUsed (by simp_all [SplitNames.iters])
    · exact hUnshadowed l.site l.head l.body (self_mem_nodes _) _ (by simp) y hy hBinds
    · exact hUnshadowed l.site l.head l.body (self_mem_nodes _) _ (by simp) y hy hBinds
    · cases hy
  have hIter : l.head.iter ∉ names'.iters := hFree'.own (by simp [LabelledLoop.stmt, ownNames])
  have hNewBody : (newBody l r names).splitAt label r' names'
      = newBody { l with body := l.body.splitAt label r' names' } r names := by
    have hInt : (oldIterator l r names).int? = none := Expr.int?_plus_add _ _ _
    have hReplaced := substitute_splitAt hCount' hInt hIter label l.body
      (hApart l.site l.head l.body (self_mem_nodes _)) hOld
    unfold newBody
    dsimp only
    split
    · exact hReplaced.symm
    · rw [splitAt_guard, ← hReplaced]
      rfl
  rw [splitLoop_eq, splitLoop_eq, newInner, newInner,
    splitAt_loop_of_ne r' names' (hLabels _ (by simp [SplitNames.labels])),
    splitAt_loop_of_ne r' names' (hLabels _ (by simp [SplitNames.labels])), hNewBody]
  rfl

/-- **Splits commute**: two loops may be split in either order when the new names are new. -/
theorem splitAt_comm {label' : String} (hCount : r.count = .int k) (hCount' : r'.count = .int k')
    (hne : label ≠ label') (hLabels : label' ∉ names.labels) (hLabels' : label ∉ names'.labels) :
    ∀ t : Stmt, t.Unshadowed → t.NestsApart → t.FreeOf names.iters → t.FreeOf names'.iters →
      (t.splitAt label r names).splitAt label' r' names'
        = (t.splitAt label' r' names').splitAt label r names := by
  refine Stmt.ind ?decl ?loop ?guard ?branch ?store ?call ?block ?hole
  case decl =>
    intro s n b body ih hUnshadowed hApart hFree hFree'
    have hBody : body ∈ (Stmt.decl s n b body).nodes := by simp [self_mem_nodes]
    simp only [splitAt_decl, ih (hUnshadowed.of_mem hBody) (hApart.of_mem hBody) (hFree.of_mem hBody)
      (hFree'.of_mem hBody)]
  case loop =>
    intro s h body ih hUnshadowed hApart hFree hFree'
    have hBody : body ∈ (Stmt.loop s h body).nodes := by simp [self_mem_nodes]
    by_cases hs : s.label = some label
    · have hOther : s.label ≠ some label' := fun h' => hne (Option.some.inj (hs.symm.trans h'))
      rw [splitAt_loop_of_label r names hs, splitAt_loop_of_ne r' names' hOther,
        splitAt_loop_of_label r names hs]
      exact splitAt_splitLoop (l := ⟨s, h, body⟩) hCount hCount' hUnshadowed hApart hFree hFree' hLabels
    · by_cases hs' : s.label = some label'
      · rw [splitAt_loop_of_ne r names hs, splitAt_loop_of_label r' names' hs',
          splitAt_loop_of_label r' names' hs']
        exact (splitAt_splitLoop (l := ⟨s, h, body⟩) hCount' hCount hUnshadowed hApart hFree' hFree
          hLabels').symm
      · rw [splitAt_loop_of_ne r names hs, splitAt_loop_of_ne r' names' hs',
          splitAt_loop_of_ne r' names' hs', splitAt_loop_of_ne r names hs,
          ih (hUnshadowed.of_mem hBody) (hApart.of_mem hBody) (hFree.of_mem hBody)
            (hFree'.of_mem hBody)]
  case guard =>
    intro s c body ih hUnshadowed hApart hFree hFree'
    have hBody : body ∈ (Stmt.guard s c body).nodes := by simp [self_mem_nodes]
    simp only [splitAt_guard, ih (hUnshadowed.of_mem hBody) (hApart.of_mem hBody) (hFree.of_mem hBody)
      (hFree'.of_mem hBody)]
  case branch =>
    intro s c yes no ihYes ihNo hUnshadowed hApart hFree hFree'
    have hYes : yes ∈ (Stmt.branch s c yes no).nodes := by simp [self_mem_nodes]
    have hNo : no ∈ (Stmt.branch s c yes no).nodes := by simp [self_mem_nodes]
    simp only [splitAt_branch, ihYes (hUnshadowed.of_mem hYes) (hApart.of_mem hYes) (hFree.of_mem hYes)
      (hFree'.of_mem hYes), ihNo (hUnshadowed.of_mem hNo) (hApart.of_mem hNo) (hFree.of_mem hNo)
      (hFree'.of_mem hNo)]
  case store => exact fun s b is e _ _ _ _ => rfl
  case call => exact fun s f args _ _ _ _ => rfl
  case block =>
    intro s ts ih hUnshadowed hApart hFree hFree'
    simp only [splitAt_block, List.map_map, block.injEq, true_and]
    refine List.map_congr_left fun t ht => ?_
    have hMem : t ∈ (Stmt.block s ts).nodes := mem_nodes_of_child ht (self_mem_nodes t)
    exact ih t ht (hUnshadowed.of_mem hMem) (hApart.of_mem hMem) (hFree.of_mem hMem)
      (hFree'.of_mem hMem)
  case hole => exact fun s _ _ _ _ => rfl

end

end Stmt

end LoopNest

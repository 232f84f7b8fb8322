import LoopNest.Proofs.Touches
import LoopNest.Proofs.Walks

/-! # What a program leaves alone

  * **Relations**: `Stmt.related_of_change` carries a relation between memories from single stores to
    whole runs. No element loses its content in a run (`Stmt.full_of_change`), and a run keeps
    the buffers that no statement writes (`Stmt.keeps_of_change`).
  * **Scalars**: a run depends on the scalars in its expressions only (`Stmt.change_congr`).
  * **More is known**: a run that leaves a memory leaves a larger one when it starts from a larger
    one (`Stmt.change_within`). -/

namespace LoopNest

/-- All elements of all local buffers have contents at first. -/
def Conventions.Full (c : Conventions) : Prop := ∀ l, (c.fresh l).Full

namespace Stmt

/-! ## Relations between memories -/

/-- **From stores to runs**: a relation that holds of single stores and passes through blocks and
    declarations relates the memories before and after a run. -/
theorem related_of_change {c : Conventions} {R : Memory → Memory → Prop} (hRefl : ∀ m, R m m)
    (hTrans : ∀ m m' m'', R m m' → R m' m'' → R m m'') :
    ∀ (t : Stmt) (env : Env),
      (∀ s b is v, .store s b is v ∈ t.nodes → ∀ m cell w, R m (m.put b cell w)) →
      (∀ s n b body, .decl s n b body ∈ t.nodes → ∀ m after,
        R (m.exchange n (c.fresh s.label n)) after → R m (after.exchange n (m n))) →
      ∀ m m', t.change c env m = some m' → R m m' := by
  have hTurns : ∀ as : List Change, (∀ a ∈ as, ∀ m m', a m = some m' → R m m') →
      ∀ m m', Change.inTurn as m = some m' → R m m' := by
    intro as
    induction as with
    | nil =>
      intro _ m m' h
      cases h
      exact hRefl m
    | cons a as ih =>
      intro hEach m m' h
      obtain ⟨between, hHead, hTail⟩ := Change.seq_eq_some.mp h
      exact hTrans _ _ _ (hEach a List.mem_cons_self _ _ hHead)
        (ih (fun a' ha' => hEach a' (List.mem_cons_of_mem a ha')) _ _ hTail)
  refine Stmt.ind ?_ ?_ ?_ ?_ ?_ ?_ ?_ ?_
  · intro s n b body ih env hStore hDecl m m' h
    have hBody := ih env (fun s b is v hu => hStore s b is v (by simp [hu]))
      (fun s n b body hu => hDecl s n b body (by simp [hu]))
    rw [change_decl] at h
    split at h
    · obtain ⟨after, hAfter, rfl⟩ := Change.withLocal_eq_some.mp h
      exact hDecl s n b body (self_mem_nodes _) m after (hBody _ _ hAfter)
    · exact hBody _ _ h
  · intro s head body ih env hStore hDecl m m' h
    rw [change_loop] at h
    obtain ⟨lower, _, h⟩ := Option.bind_eq_some_iff.mp h
    obtain ⟨upper, _, h⟩ := Option.bind_eq_some_iff.mp h
    refine hTurns _ ?_ m m' h
    intro a ha
    obtain ⟨v, _, rfl⟩ := List.mem_map.mp ha
    exact ih _ (fun s b is v hu => hStore s b is v (by simp [hu]))
      (fun s n b body hu => hDecl s n b body (by simp [hu]))
  · intro s e body ih env hStore hDecl m m' h
    rw [change_guard] at h
    obtain ⟨v, _, h⟩ := Option.bind_eq_some_iff.mp h
    split at h
    · cases h
      exact hRefl m
    · exact ih env (fun s b is v hu => hStore s b is v (by simp [hu]))
        (fun s n b body hu => hDecl s n b body (by simp [hu])) m m' h
  · intro s e yes no ihYes ihNo env hStore hDecl m m' h
    rw [change_branch] at h
    obtain ⟨v, _, h⟩ := Option.bind_eq_some_iff.mp h
    split at h
    · exact ihNo env (fun s b is v hu => hStore s b is v (by simp [hu]))
        (fun s n b body hu => hDecl s n b body (by simp [hu])) m m' h
    · exact ihYes env (fun s b is v hu => hStore s b is v (by simp [hu]))
        (fun s n b body hu => hDecl s n b body (by simp [hu])) m m' h
  · intro s b is v env hStore _ m m' h
    rw [change_store] at h
    obtain ⟨cell, _, h⟩ := Option.bind_eq_some_iff.mp h
    obtain ⟨w, _, rfl⟩ := Option.map_eq_some_iff.mp h
    exact hStore s b is v (self_mem_nodes _) m cell w
  · intro s f args env _ _ m m' h
    rw [change_call] at h
    cases h
  · intro s ts ih env hStore hDecl m m' h
    rw [change_block] at h
    refine hTurns _ ?_ m m' h
    intro a ha
    obtain ⟨t, ht, rfl⟩ := List.mem_map.mp ha
    have hMem : ∀ u ∈ t.nodes, u ∈ (Stmt.block s ts).nodes := by
      intro u hu
      rw [nodes_block]
      exact List.mem_cons_of_mem _ (List.mem_flatMap.mpr ⟨t, ht, hu⟩)
    exact ih t ht env (fun s b is v hu => hStore s b is v (hMem _ hu))
      (fun s n b body hu => hDecl s n b body (hMem _ hu))
  · intro s env _ _ m m' h
    rw [change_hole] at h
    cases h

/-- Runs from memories without gaps leave memories without gaps: no element loses its content. -/
theorem full_of_change {c : Conventions} {t : Stmt} {env : Env} {m m' : Memory} (hm : m.Full)
    (h : t.change c env m = some m') : m'.Full := by
  have hKept : ∀ b cell, (m b cell).isSome → (m' b cell).isSome := by
    refine related_of_change (R := fun m m' => ∀ b cell, (m b cell).isSome → (m' b cell).isSome)
      (fun _ _ _ hCell => hCell) (fun _ _ _ hFirst hSecond b cell hCell =>
        hSecond b cell (hFirst b cell hCell)) t env ?_ ?_ m m' h
    · intro s b is v _ m cell w b' cell' hCell
      unfold Memory.put
      split
      · rfl
      · exact hCell
    · intro s n b body _ m after hAfter b' cell' hCell
      by_cases hb : b' = n
      · rwa [hb, Memory.exchange_self, ← hb]
      · rw [Memory.exchange_ne hb]
        apply hAfter
        rwa [Memory.exchange_ne hb]
  exact fun b cell => hKept b cell (hm b cell)

/-- The buffers that the statements of a program write. -/
def Writes (t : Stmt) (b : String) : Prop := ∃ s is v, Stmt.store s b is v ∈ t.nodes

/-- Every write of a program is among its accesses. -/
theorem exists_access_of_writes {b : String} :
    ∀ (t : Stmt) (s : Scope), t.Writes b →
      ∃ a ∈ t.accessesIn s, a.kind = .write ∧ a.buffer = b := by
  refine Stmt.ind ?_ ?_ ?_ ?_ ?_ ?_ ?_ ?_
  · rintro site n buffer body ih s ⟨s', is, v, h⟩
    rw [accessesIn]
    exact ih _ ⟨s', is, v, by simpa using h⟩
  · rintro site head body ih s ⟨s', is, v, h⟩
    obtain ⟨a, ha, hWrite⟩ := ih { s with loops := s.loops ++ [⟨site.id, head⟩] }
      ⟨s', is, v, by simpa using h⟩
    exact ⟨a, List.mem_append_right _ ha, hWrite⟩
  · rintro site e body ih s ⟨s', is, v, h⟩
    obtain ⟨a, ha, hWrite⟩ := ih s ⟨s', is, v, by simpa using h⟩
    exact ⟨a, List.mem_append_right _ ha, hWrite⟩
  · rintro site e yes no ihYes ihNo s ⟨s', is, v, h⟩
    rw [nodes_branch, List.mem_cons] at h
    rcases h with h | h
    · cases h
    · rcases List.mem_append.mp h with h | h
      · obtain ⟨a, ha, hWrite⟩ := ihYes s ⟨s', is, v, h⟩
        exact ⟨a, List.mem_append_left _ (List.mem_append_right _ ha), hWrite⟩
      · obtain ⟨a, ha, hWrite⟩ := ihNo s ⟨s', is, v, h⟩
        exact ⟨a, List.mem_append_right _ ha, hWrite⟩
  · rintro site b' is v s ⟨s', is', v', h⟩
    rw [nodes_store, List.mem_singleton] at h
    cases h
    exact ⟨_, List.mem_append_right _ (List.mem_singleton.mpr rfl), rfl, rfl⟩
  · rintro site f args s ⟨s', is, v, h⟩
    simp at h
  · rintro site ts ih s ⟨s', is, v, h⟩
    rw [nodes_block, List.mem_cons] at h
    rcases h with h | h
    · cases h
    · obtain ⟨t, ht, h⟩ := List.mem_flatMap.mp h
      obtain ⟨a, ha, hWrite⟩ := ih t ht s ⟨s', is, v, h⟩
      refine ⟨a, ?_, hWrite⟩
      rw [accessesIn, accessesInAll_eq_flatMap]
      exact List.mem_flatMap.mpr ⟨t, ht, ha⟩
  · rintro site s ⟨s', is, v, h⟩
    simp at h

/-- The written buffers of a program are listed. -/
theorem mem_written {t : Stmt} {b : String} (h : t.Writes b) : b ∈ t.written := by
  obtain ⟨a, ha, hWrite, rfl⟩ := exists_access_of_writes t {} h
  obtain ⟨i, hi, hGet⟩ := List.mem_iff_getElem.mp ha
  unfold written sortedNames
  rw [List.mem_eraseDups, List.mem_mergeSort]
  refine List.mem_map.mpr ⟨{ a with position := i }, ?_, rfl⟩
  refine List.mem_filter.mpr ⟨List.mem_map.mpr ⟨(a, i), ?_, rfl⟩, by simp [hWrite]⟩
  exact List.mem_zipIdx_iff_getElem?.mpr (by rw [List.getElem?_eq_getElem hi, hGet])

/-- A run keeps the buffers that it does not write. -/
theorem keeps_of_change {c : Conventions} {t : Stmt} {env : Env} {m m' : Memory}
    (h : t.change c env m = some m') {b : String} (hb : ¬ t.Writes b) : m' b = m b := by
  apply related_of_change (R := fun m m' => m' b = m b) (fun _ => rfl)
    (fun _ _ _ hFirst hSecond => hSecond.trans hFirst) t env ?_ ?_ m m' h
  · intro s b' is v hStore m cell w
    apply Memory.put_ne_buffer
    rintro rfl
    exact hb ⟨s, is, v, hStore⟩
  · intro s n b' body _ m after hAfter
    by_cases hn : b = n
    · rw [hn, Memory.exchange_self]
    · rw [Memory.exchange_ne hn, hAfter, Memory.exchange_ne hn]

/-! ## Scalars -/

/-- The scalars in the expressions of a program. -/
def Uses (t : Stmt) (x : String) : Prop := ∃ u ∈ t.nodes, ∃ e ∈ u.exprs, x ∈ e.scalars

theorem Uses.of_mem {t u : Stmt} (hu : u ∈ t.nodes) {x : String} (h : u.Uses x) : t.Uses x := by
  obtain ⟨v, hv, hUse⟩ := h
  exact ⟨v, mem_nodes_trans hv hu, hUse⟩

/-- What a statement uses directly. -/
theorem Uses.of_expr {t : Stmt} {e : Expr} (he : e ∈ t.exprs) {x : String} (hx : x ∈ e.scalars) :
    t.Uses x := ⟨t, self_mem_nodes t, e, he, hx⟩

/-- **Scalars**: a run is the same for all values of scalars that the program does not use. -/
theorem runWith_congr {c : Conventions} :
    ∀ (t : Stmt) (env env' : Env), (∀ x, t.Uses x → env' x = env x) →
      t.runWith c env' = t.runWith c env := by
  have hValue : ∀ {t : Stmt} {env env' : Env} {e : Expr} (m : Memory), e ∈ t.exprs →
      (∀ x, t.Uses x → env' x = env x) → e.valueWith? c env' m = e.valueWith? c env m :=
    fun m he h => Expr.valueWith?_congr_names (fun x hx => h x (.of_expr he hx)) fun _ _ => rfl
  refine Stmt.ind ?_ ?_ ?_ ?_ ?_ ?_ ?_ ?_
  · intro s n b body ih env env' h
    rw [runWith, runWith, ih env env' fun x hx => h x (hx.of_mem (by simp [self_mem_nodes]))]
  · intro s head body ih env env' h
    have hBody : ∀ v : Int, body.runWith c (env'.set head.iter v)
        = body.runWith c (env.set head.iter v) := by
      intro v
      apply ih
      intro x hx
      by_cases hIter : x = head.iter
      · rw [hIter, Env.set_self, Env.set_self]
      · rw [Env.set_ne hIter, Env.set_ne hIter]
        exact h x (hx.of_mem (by simp [self_mem_nodes]))
    funext m
    simp only [runWith, hValue (e := head.lower) m (by simp [exprs]) h,
      hValue (e := head.upper) m (by simp [exprs]) h, hBody]
  · intro s e body ih env env' h
    funext m
    simp only [runWith, hValue (e := e) m (by simp [exprs]) h,
      ih env env' fun x hx => h x (hx.of_mem (by simp [self_mem_nodes]))]
  · intro s e yes no ihYes ihNo env env' h
    funext m
    simp only [runWith, hValue (e := e) m (by simp [exprs]) h,
      ihYes env env' fun x hx => h x (hx.of_mem (by simp [self_mem_nodes])),
      ihNo env env' fun x hx => h x (hx.of_mem (by simp [self_mem_nodes]))]
  · intro s b is v env env' h
    have hIndices : ∀ m, Expr.valuesWith? c env' m is = Expr.valuesWith? c env m is :=
      fun m => Expr.valuesWith?_congr fun e he => hValue m (by simp [exprs, he]) h
    funext m
    simp only [runWith, hIndices, hValue (e := v) m (by simp [exprs]) h]
  · exact fun _ _ _ _ _ _ => rfl
  · intro s ts ih env env' h
    rw [runWith, runWith, runAllWith_eq_inTurn, runAllWith_eq_inTurn]
    congr 1
    apply List.map_congr_left
    intro t ht
    refine ih t ht env env' fun x hx => h x (hx.of_mem ?_)
    rw [nodes_block]
    exact List.mem_cons_of_mem _ (List.mem_flatMap.mpr ⟨t, ht, self_mem_nodes t⟩)
  · exact fun _ _ _ _ => rfl

theorem change_congr {c : Conventions} (t : Stmt) (env env' : Env)
    (h : ∀ x, t.Uses x → env' x = env x) : t.change c env' = t.change c env :=
  congrArg Action.change (runWith_congr t env env' h)

theorem run_congr {fresh : Memory} (t : Stmt) (env env' : Env) (h : ∀ x, t.Uses x → env' x = env x) :
    t.run fresh env' = t.run fresh env := by
  rw [← runWith_reference, ← runWith_reference, runWith_congr t env env' h]

/-- Setting a scalar that a program does not use changes nothing. -/
theorem change_set {c : Conventions} {t : Stmt} {x : String} (hx : ¬ t.Uses x) (env : Env)
    (v : Int) : t.change c (env.set x v) = t.change c env := by
  apply change_congr
  intro y hy
  apply Env.set_ne
  rintro rfl
  exact hx hy

end Stmt

/-! ## Larger memories -/

namespace Memory.Extends

variable {m m' : Memory}

theorem put (h : m'.Extends m) (b : String) (cell : List Int) (w : Int) :
    (m'.put b cell w).Extends (m.put b cell w) := by
  intro b' cell' v hv
  unfold Memory.put at hv ⊢
  split at hv
  · rename_i hHere
    rwa [if_pos hHere]
  · rename_i hElse
    rw [if_neg hElse]
    exact h b' cell' v hv

theorem exchange (h : m'.Extends m) (n : String) {cells cells' : Cells}
    (hCells : ∀ cell v, cells cell = some v → cells' cell = some v) :
    (m'.exchange n cells').Extends (m.exchange n cells) := by
  intro b cell v hv
  unfold Memory.exchange at hv ⊢
  split at hv
  · rename_i hHere
    rw [if_pos hHere]
    exact hCells cell v hv
  · rename_i hElse
    rw [if_neg hElse]
    exact h b cell v hv

end Memory.Extends

namespace Change

/-- From larger memories a change leaves larger memories than another one. -/
def Within (a a' : Change) : Prop :=
  ∀ m m' M, a m = some m' → M.Extends m → ∃ M', a' M = some M' ∧ M'.Extends m'

theorem skip_within : skip.Within skip := by
  intro m m' M h hM
  cases h
  exact ⟨M, rfl, hM⟩

theorem Within.seq {a a' b b' : Change} (ha : a.Within a') (hb : b.Within b') :
    (a.seq b).Within (a'.seq b') := by
  intro m m' M h hM
  obtain ⟨between, hHead, hTail⟩ := seq_eq_some.mp h
  obtain ⟨Between, hHead', hBetween⟩ := ha m between M hHead hM
  obtain ⟨M', hTail', hM'⟩ := hb between m' Between hTail hBetween
  exact ⟨M', seq_eq_some.mpr ⟨Between, hHead', hTail'⟩, hM'⟩

theorem Within.inTurn {α : Type} {f f' : α → Change} {xs : List α}
    (h : ∀ x ∈ xs, (f x).Within (f' x)) : (inTurn (xs.map f)).Within (inTurn (xs.map f')) := by
  induction xs with
  | nil => exact skip_within
  | cons x xs ih =>
    exact (h x List.mem_cons_self).seq (ih fun y hy => h y (List.mem_cons_of_mem x hy))

theorem Within.withLocal {a a' : Change} (ha : a.Within a') (n : String) {cells cells' : Cells}
    (hCells : ∀ cell v, cells cell = some v → cells' cell = some v) :
    (a.withLocal n cells).Within (a'.withLocal n cells') := by
  intro m m' M h hM
  obtain ⟨after, hAfter, rfl⟩ := withLocal_eq_some.mp h
  obtain ⟨After, hAfter', hExtends⟩ := ha _ after _ hAfter (hM.exchange n hCells)
  exact ⟨_, withLocal_eq_some.mpr ⟨After, hAfter', rfl⟩, hExtends.exchange n (hM n)⟩

end Change

/-- **More is known**: conventions and memories that extend others give runs that extend theirs. -/
theorem Stmt.change_within {c c' : Conventions} (hc : c'.Extends c) :
    ∀ (t : Stmt) (env : Env), (t.change c env).Within (t.change c' env) := by
  refine Stmt.ind ?_ ?_ ?_ ?_ ?_ ?_ ?_ ?_
  · intro s n b body ih env
    rw [change_decl, change_decl]
    split
    · exact (ih env).withLocal n (hc.fresh s.label n)
    · exact ih env
  · intro s head body ih env m m' M h hM
    rw [change_loop] at h
    obtain ⟨lower, hLower, h⟩ := Option.bind_eq_some_iff.mp h
    obtain ⟨upper, hUpper, h⟩ := Option.bind_eq_some_iff.mp h
    rw [change_loop, Expr.valueWith?_mono hc hM _ _ hLower, Option.bind_some,
      Expr.valueWith?_mono hc hM _ _ hUpper, Option.bind_some]
    exact Change.Within.inTurn (fun v _ => ih (env.set head.iter v)) m m' M h hM
  · intro s e body ih env m m' M h hM
    rw [change_guard] at h
    obtain ⟨v, hv, h⟩ := Option.bind_eq_some_iff.mp h
    rw [change_guard, Expr.valueWith?_mono hc hM _ _ hv, Option.bind_some]
    by_cases hZero : v = 0
    · rw [if_pos hZero] at h ⊢
      cases h
      exact ⟨M, rfl, hM⟩
    · rw [if_neg hZero] at h ⊢
      exact ih env m m' M h hM
  · intro s e yes no ihYes ihNo env m m' M h hM
    rw [change_branch] at h
    obtain ⟨v, hv, h⟩ := Option.bind_eq_some_iff.mp h
    rw [change_branch, Expr.valueWith?_mono hc hM _ _ hv, Option.bind_some]
    by_cases hZero : v = 0
    · rw [if_pos hZero] at h ⊢
      exact ihNo env m m' M h hM
    · rw [if_neg hZero] at h ⊢
      exact ihYes env m m' M h hM
  · intro s b is v env m m' M h hM
    rw [change_store] at h
    obtain ⟨cell, hCell, h⟩ := Option.bind_eq_some_iff.mp h
    obtain ⟨w, hw, rfl⟩ := Option.map_eq_some_iff.mp h
    rw [change_store, Expr.valuesWith?_mono hc hM hCell, Option.bind_some,
      Expr.valueWith?_mono hc hM _ _ hw]
    exact ⟨_, rfl, hM.put b cell w⟩
  · intro s f args env m m' M h _
    rw [change_call] at h
    cases h
  · intro s ts ih env
    rw [change_block, change_block]
    exact Change.Within.inTurn fun t ht => ih t ht env
  · intro s env m m' M h _
    rw [change_hole] at h
    cases h

/-- A run from a full memory is the same under all conventions that extend its own. -/
theorem Stmt.change_of_extends {c c' : Conventions} (hc : c'.Extends c) {t : Stmt} {env : Env}
    {m m' : Memory} (hm : m.Full) (h : t.change c env m = some m') : t.change c' env m = some m' := by
  obtain ⟨M, hM, hMore⟩ := change_within hc t env m m' m h (.refl m)
  rw [hM, hMore.eq_of_full (full_of_change hm h)]

end LoopNest

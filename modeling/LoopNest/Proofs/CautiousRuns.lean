import LoopNest.Proofs.ExpandedCalls
import LoopNest.Semantics.Cautious

/-! # Cautious runs and runs

  Where a cautious run has an answer a program has one as well. It leaves at least what the cautious run
  leaves, and exactly that in all buffers that it does not declare (`Stmt.follows_cautious`): nothing
  that it reads depends on what declared buffers held before. -/

namespace LoopNest

/-! ## Memories with more contents -/

/-- An empty buffer has no contents to find elsewhere. -/
theorem Memory.blank_le {n : String} (cells : Cells) (cell : List Int) (v : Int)
    (h : Memory.blank n cell = some v) : cells cell = some v := by cases h

/-- The second memory has at least the contents of the first one, and the same in some buffers. -/
structure Memory.Ahead (same : String → Prop) (m m' : Memory) : Prop where
  more : m'.Extends m
  equal : ∀ b, same b → m' b = m b

namespace Memory.Ahead

variable {same : String → Prop} {m m' : Memory}

theorem refl (m : Memory) : m.Ahead same m := ⟨.refl m, fun _ _ => rfl⟩

theorem put (h : m.Ahead same m') (b : String) (is : List Int) (v : Int) :
    (m.put b is v).Ahead same (m'.put b is v) := by
  refine ⟨h.more.put b is v, fun c hc => ?_⟩
  funext js
  unfold Memory.put
  rw [h.equal c hc]

theorem exchange (h : m.Ahead same m') {n : String} (hn : ¬ same n) {cells cells' : Cells}
    (hCells : ∀ cell v, cells cell = some v → cells' cell = some v) :
    (m.exchange n cells).Ahead same (m'.exchange n cells') := by
  refine ⟨h.more.exchange n hCells, fun b hb => ?_⟩
  have hNe : b ≠ n := fun hEq => hn (hEq ▸ hb)
  rw [exchange_ne hNe, exchange_ne hNe, h.equal b hb]

/-- Less is known when a buffer is taken for empty. -/
theorem blanked (h : m.Ahead same m') {n : String} (hn : ¬ same n) :
    (m.exchange n (Memory.blank n)).Ahead same m' := by
  have hBoth : (m.exchange n (Memory.blank n)).Ahead same (m'.exchange n (m' n)) :=
    h.exchange hn (Memory.blank_le _)
  rwa [exchange_same] at hBoth

theorem values? (h : m.Ahead same m') {env : Env} {es : List Expr} {vs : List Int}
    (hValues : Expr.values? env m es = some vs) : Expr.values? env m' es = some vs := by
  rw [← Expr.valuesWith?_reference .blank] at hValues ⊢
  exact Expr.valuesWith?_mono ⟨fun _ => .refl _, fun _ h => h⟩ h.more hValues

end Memory.Ahead

namespace Stmt

/-- What a program does not declare is not declared in a part of it. -/
theorem undeclared_child {same : String → Prop} {t u : Stmt} (h : ∀ n, same n → .buffer n ∉ t.binders)
    (hu : u ∈ t.children) : ∀ n, same n → .buffer n ∉ u.binders :=
  fun n hn hMem => h n hn (binders_subset_child hu hMem)

theorem cautiousAll_eq_foldlM (env : Env) (ts : List Stmt) (m : Memory) :
    cautiousAll env ts m = ts.foldlM (fun m t => cautious env t m) m := by
  induction ts generalizing m with
  | nil => rfl
  | cons t ts ih =>
    rw [cautiousAll, List.foldlM_cons, Option.bind_eq_bind]
    exact Option.bind_congr fun between _ => ih between

/-- **Runs follow cautious runs**: a program leaves what a cautious run leaves, if that has an answer,
    and possibly more in the buffers that it declares. -/
theorem follows_cautious {same : String → Prop} (fresh : Memory) : ∀ (t : Stmt) (env : Env),
    (∀ n, same n → .buffer n ∉ t.binders) →
    Transition.Follows (Memory.Ahead same) (t.cautious env) (t.change (.reference fresh) env) := by
  have hValue : ∀ {env : Env} (e : Expr) (m M : Memory), m.Ahead same M → ∀ v,
      e.value? env m = some v → e.value? env M = some v := fun e m M hm v h => Expr.value?_mono hm.more h
  refine Stmt.ind ?decl ?loop ?guard ?branch ?store ?call ?block ?hole
  case decl =>
    intro s n b body ih env hSame m M after hm hRun
    have hn : ¬ same n := fun h => hSame n h (mem_binders_of_binder? rfl)
    have hBody := ih env (undeclared_child hSame (by simp [children]))
    rw [cautious] at hRun
    obtain ⟨inner, hInner, hAfter⟩ := Option.bind_eq_some_iff.mp hRun
    cases hAfter
    rw [change_decl]
    by_cases hLocal : b.access = .cache
    · rw [if_pos hLocal, if_pos hLocal]
      have hEnter : (m.exchange n (Memory.blank n)).Ahead same (M.exchange n (fresh n)) :=
        hm.exchange hn (Memory.blank_le _)
      obtain ⟨Inner, hInner', hIn⟩ := hBody _ _ inner hEnter hInner
      exact ⟨_, Change.withLocal_eq_some.mpr ⟨Inner, hInner', rfl⟩, hIn.exchange hn (hm.more n)⟩
    · -- the buffer keeps what it holds, of which the cautious run knows nothing
      rw [if_neg hLocal, if_neg hLocal]
      obtain ⟨Inner, hInner', hIn⟩ := hBody _ M inner (hm.blanked hn) hInner
      exact ⟨Inner, hInner', hIn.blanked hn⟩
  case loop =>
    intro s head body ih env hSame
    have hRun : (Stmt.loop s head body).change (.reference fresh) env = fun m =>
        head.lower.value? env m >>= fun lower => head.upper.value? env m >>= fun upper =>
          (counting lower upper).foldlM
            (fun m v => body.change (.reference fresh) (env.set head.iter v) m) m := by
      funext m
      simp only [change_loop, Expr.valueWith?_reference, inTurn_map_eq_foldlM, Option.bind_eq_bind]
    rw [hRun]
    refine .given (hValue head.lower) fun lower => .given (hValue head.upper) fun upper => ?_
    exact .foldlM fun v _ => ih (env.set head.iter v) (undeclared_child hSame (by simp [children]))
  case guard =>
    intro s c body ih env hSame
    have hRun : (Stmt.guard s c body).change (.reference fresh) env = fun m =>
        c.value? env m >>= fun v => if v = 0 then some m else body.change (.reference fresh) env m := by
      funext m
      rw [change_guard, Expr.valueWith?_reference, Option.bind_eq_bind]
    rw [hRun]
    refine .given (a := fun v m => if v = 0 then _ else _) (hValue c) fun v => ?_
    split
    · exact .idle
    · exact ih env (undeclared_child hSame (by simp [children]))
  case branch =>
    intro s c yes no ihYes ihNo env hSame
    have hRun : (Stmt.branch s c yes no).change (.reference fresh) env = fun m =>
        c.value? env m >>= fun v => if v = 0 then no.change (.reference fresh) env m
          else yes.change (.reference fresh) env m := by
      funext m
      rw [change_branch, Expr.valueWith?_reference, Option.bind_eq_bind]
    rw [hRun]
    refine .given (a := fun v m => if v = 0 then _ else _) (hValue c) fun v => ?_
    split
    · exact ihNo env (undeclared_child hSame (by simp [children]))
    · exact ihYes env (undeclared_child hSame (by simp [children]))
  case store =>
    intro s b is v env _ m M after hm hRun
    rw [cautious] at hRun
    obtain ⟨indices, hIndices, hRun⟩ := Option.bind_eq_some_iff.mp hRun
    obtain ⟨value, hStored, hAfter⟩ := Option.bind_eq_some_iff.mp hRun
    cases hAfter
    rw [change_store, Expr.valuesWith?_reference, Expr.valueWith?_reference, hm.values? hIndices,
      hValue v m M hm value hStored]
    exact ⟨_, rfl, hm.put b indices value⟩
  case call => exact fun s f args env _ m M after _ hRun => by cases hRun
  case block =>
    intro s ts ih env hSame m M after hm hRun
    rw [cautious, cautiousAll_eq_foldlM] at hRun
    rw [change_block, inTurn_map_eq_foldlM]
    refine Transition.Follows.foldlM (fun t ht => ?_) m M after hm hRun
    exact ih t ht env (undeclared_child hSame (by simpa [children] using ht))
  case hole => exact fun s env _ m M after _ hRun => by cases hRun

end Stmt

end LoopNest

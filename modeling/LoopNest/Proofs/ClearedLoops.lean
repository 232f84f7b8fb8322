import LoopNest.Proofs.AnyOrders
import LoopNest.Proofs.CommittedPrograms

/-! # Programs whose parallel loops are cleared

  A schedule may check after every command that each loop that runs in parallel may do so. Then the
  order of the iterations does not matter any more:

  * **One loop**: the iterations of a cleared loop leave one memory in all orders
    (`Stmt.Cleared.exchange`).
  * **All orders**: what a cleared program may leave in any order is what it leaves in increasing
    order (`Stmt.change_of_mayLeave`), and where it may stick it has no run
    (`Stmt.change_of_mayStick`). So it settles on the memory of its run
    (`Stmt.settles_of_cleared`).
  * **Schedules**: what the check finds of a committed program (`Schedule.safe_of_commit`). -/

namespace LoopNest

/-! ## Effects of changes -/

/-- An effect allows at most the memory that a change leaves. -/
def Effect.AtMost (e : Effect) (a : Change) : Prop := ∀ m m', e m m' → a m = some m'

namespace Effect.AtMost

theorem skip : Effect.skip.AtMost Change.skip := by
  rintro m m' rfl
  rfl

theorem stuck (a : Change) : Effect.stuck.AtMost a := fun _ _ hNone => hNone.elim

theorem seq {d e : Effect} {a b : Change} (hd : d.AtMost a) (he : e.AtMost b) :
    (d.seq e).AtMost (a.seq b) := by
  rintro m m' ⟨between, hFirst, hSecond⟩
  exact Change.seq_eq_some.mpr ⟨between, hd _ _ hFirst, he _ _ hSecond⟩

theorem inTurn {α : Type} {f : α → Effect} {g : α → Change} {xs : List α}
    (h : ∀ x ∈ xs, (f x).AtMost (g x)) : (Effect.inTurn (xs.map f)).AtMost (.inTurn (xs.map g)) := by
  induction xs with
  | nil => exact skip
  | cons x xs ih =>
    exact (h x List.mem_cons_self).seq (ih fun y hy => h y (List.mem_cons_of_mem x hy))

theorem withLocal {n : String} {cells : Cells} {e : Effect} {a : Change} (h : e.AtMost a) :
    (e.withLocal n cells).AtMost (a.withLocal n cells) := by
  rintro m m' ⟨after, hAfter, rfl⟩
  exact Change.withLocal_eq_some.mpr ⟨after, h _ _ hAfter, rfl⟩

end Effect.AtMost

/-- Changes one after the other fail when one of them fails where those before it lead. -/
theorem Change.inTurn_eq_none {before after : List Change} {a : Change} {m between : Memory}
    (hBefore : inTurn before m = some between) (hHere : a between = none) :
    inTurn (before ++ a :: after) m = none := by
  rw [inTurn_append, inTurn_cons, seq, hBefore, Option.bind_some, seq, hHere, Option.bind_none]

namespace Stmt

/-- Every loop of a program that runs in parallel may do so, has no assertions, and declares only
    local buffers inside. -/
structure Cleared (maxLevels : Nat) (t : Stmt) : Prop where
  ids : t.ids.Nodup
  noDeps : ∀ s h body, Stmt.loop s h body ∈ t.nodes → h.noDeps = []
  locals : ∀ s h body, Stmt.loop s h body ∈ t.nodes → body.localsOnly = true
  safe : ∀ s h body, Stmt.loop s h body ∈ t.nodes → h.isParallel = true →
    ∃ rs, (Stmt.loop s h body).parallelVerdict maxLevels = .safe rs

namespace Cleared

variable {maxLevels : Nat} {t u : Stmt}

theorem of_mem (h : t.Cleared maxLevels) (hu : u ∈ t.nodes) : u.Cleared maxLevels where
  ids := nodup_ids_of_mem h.ids hu
  noDeps s head body hLoop := h.noDeps s head body (mem_nodes_trans hLoop hu)
  locals s head body hLoop := h.locals s head body (mem_nodes_trans hLoop hu)
  safe s head body hLoop := h.safe s head body (mem_nodes_trans hLoop hu)

theorem child (h : t.Cleared maxLevels) (hu : u ∈ t.children) : u.Cleared maxLevels :=
  h.of_mem (mem_nodes_of_child hu (self_mem_nodes u))

/-- **One loop**: when the iterations of a cleared loop leave a memory in an order that the loop may
    take, they leave it in increasing order, and the other way around. -/
theorem exchange {s : Site} {h : LoopHead} {body : Stmt}
    (hCleared : (Stmt.loop s h body).Cleared maxLevels) {c : Conventions} {env : Env}
    {m m' : Memory} {lower upper : Int} (hLower : h.lower.valueWith? c env m = some lower)
    (hUpper : h.upper.valueWith? c env m = some upper) {order : List Int}
    (hOrder : h.MayOrder lower upper order) :
    Change.inTurn (order.map fun v => body.change c (env.set h.iter v)) m = some m' ↔
      Change.inTurn ((counting lower upper).map fun v => body.change c (env.set h.iter v)) m
        = some m' := by
  unfold LoopHead.MayOrder at hOrder
  split at hOrder
  · rename_i hParallel
    have hMem : Stmt.loop s h body ∈ (Stmt.loop s h body).nodes := self_mem_nodes _
    obtain ⟨rs, hSafe⟩ := hCleared.safe s h body hMem hParallel
    have hTruthful : ∀ touches, Truthful s.id h.noDeps touches := by
      rw [hCleared.noDeps s h body hMem]
      exact truthful_nil s.id
    have hSame : (counting lower upper).Perm (counting lower upper) := .refl _
    have hIds := nodup_loopIds hCleared.ids
    have hLocals := hCleared.locals s h body hMem
    exact ⟨exchange_iterations hIds hLocals hSafe hLower hUpper hOrder hSame (hTruthful _),
      exchange_iterations hIds hLocals hSafe hLower hUpper hSame hOrder (hTruthful _)⟩
  · rw [hOrder]

end Cleared

variable {maxLevels : Nat} {fresh : Memory}

/-- **Any order**: what a cleared program may leave is what it leaves in increasing order. -/
theorem change_of_mayLeave : ∀ (t : Stmt) (env : Env), t.Cleared maxLevels →
    (t.MayLeave fresh env).AtMost (t.change (.reference fresh) env) := by
  refine Stmt.ind ?decl ?loop ?guard ?branch ?store ?call ?block ?hole
  case decl =>
    intro s n b body ih env hCleared
    have hBody := ih env (hCleared.child (by simp [children]))
    rw [change_decl]
    unfold MayLeave
    split
    · exact hBody.withLocal
    · exact hBody
  case loop =>
    intro s h body ih env hCleared m m' hLeave
    obtain ⟨lower, upper, order, hLower, hUpper, hOrder, hTurns⟩ := hLeave
    rw [← Expr.valueWith?_reference fresh] at hLower hUpper
    have hBody := fun v => ih (env.set h.iter v) (hCleared.child (by simp [children]))
    rw [change_loop, hLower, hUpper, Option.bind_some, Option.bind_some,
      ← hCleared.exchange hLower hUpper hOrder]
    exact Effect.AtMost.inTurn (fun v _ => hBody v) m m' hTurns
  case guard =>
    intro s e body ih env hCleared m m' hLeave
    obtain ⟨v, hv, hLeave⟩ := hLeave
    rw [change_guard, Expr.valueWith?_reference, hv, Option.bind_some]
    split at hLeave
    · rename_i hZero
      rw [if_pos hZero, hLeave]
    · rename_i hZero
      rw [if_neg hZero]
      exact ih env (hCleared.child (by simp [children])) m m' hLeave
  case branch =>
    intro s e yes no ihYes ihNo env hCleared m m' hLeave
    obtain ⟨v, hv, hLeave⟩ := hLeave
    rw [change_branch, Expr.valueWith?_reference, hv, Option.bind_some]
    split at hLeave
    · rename_i hZero
      rw [if_pos hZero]
      exact ihNo env (hCleared.child (by simp [children])) m m' hLeave
    · rename_i hZero
      rw [if_neg hZero]
      exact ihYes env (hCleared.child (by simp [children])) m m' hLeave
  case store =>
    rintro s b is v env _ m m' ⟨cell, w, hCell, hw, rfl⟩
    rw [change_store, Expr.valuesWith?_reference, Expr.valueWith?_reference, hCell, hw]
    rfl
  case call => exact fun s f args env _ => .stuck _
  case block =>
    intro s ts ih env hCleared
    rw [MayLeave, mayLeaveAll_eq_inTurn, change_block]
    exact .inTurn fun t ht => ih t ht env (hCleared.child ht)
  case hole => exact fun s env _ => .stuck _

/-- **Sticking**: where a cleared program may stick in some order, it has no run. -/
theorem change_of_mayStick : ∀ (t : Stmt) (env : Env) (m : Memory), t.Cleared maxLevels →
    t.MayStick fresh env m → t.change (.reference fresh) env m = none := by
  refine Stmt.ind ?decl ?loop ?guard ?branch ?store ?call ?block ?hole
  case decl =>
    intro s n b body ih env m hCleared hStick
    have hBody := fun m => ih env m (hCleared.child (by simp [children]))
    rw [change_decl]
    unfold MayStick at hStick
    split
    · rename_i hCache
      rw [if_pos hCache] at hStick
      rw [Change.withLocal, Conventions.reference_fresh, hBody _ hStick, Option.map_none]
    · rename_i hVisible
      rw [if_neg hVisible] at hStick
      exact hBody m hStick
  case loop =>
    intro s h body ih env m hCleared hStick
    rw [change_loop, Expr.valueWith?_reference, Expr.valueWith?_reference]
    rcases hStick with hNone | hNone |
      ⟨lower, upper, before, v, after, between, hLower, hUpper, hOrder, hBefore, hStick⟩
    · rw [hNone, Option.bind_none]
    · rw [hNone]
      cases h.lower.value? env m <;> rfl
    · rw [hLower, hUpper, Option.bind_some, Option.bind_some, ← Option.not_isSome_iff_eq_none]
      intro hSome
      obtain ⟨m', hRun⟩ := Option.isSome_iff_exists.mp hSome
      have hBody := hCleared.child (u := body) (by simp [children])
      rw [← Expr.valueWith?_reference fresh] at hLower hUpper
      -- this order would leave a memory as well, but it fails
      have hHere := (hCleared.exchange hLower hUpper hOrder).mpr hRun
      rw [List.map_append, List.map_cons, Change.inTurn_eq_none
        (Effect.AtMost.inTurn (fun w _ => change_of_mayLeave body (env.set h.iter w) hBody) _ _ hBefore)
        (ih _ _ hBody hStick)] at hHere
      cases hHere
  case guard =>
    intro s e body ih env m hCleared hStick
    rw [change_guard, Expr.valueWith?_reference]
    rcases hStick with hNone | ⟨v, hv, hZero, hStick⟩
    · rw [hNone, Option.bind_none]
    · rw [hv, Option.bind_some, if_neg hZero]
      exact ih env m (hCleared.child (by simp [children])) hStick
  case branch =>
    intro s e yes no ihYes ihNo env m hCleared hStick
    rw [change_branch, Expr.valueWith?_reference]
    rcases hStick with hNone | ⟨v, hv, hStick⟩
    · rw [hNone, Option.bind_none]
    · rw [hv, Option.bind_some]
      split at hStick
      · rename_i hZero
        rw [if_pos hZero]
        exact ihNo env m (hCleared.child (by simp [children])) hStick
      · rename_i hZero
        rw [if_neg hZero]
        exact ihYes env m (hCleared.child (by simp [children])) hStick
  case store =>
    intro s b is v env m _ hStick
    rw [change_store, Expr.valuesWith?_reference, Expr.valueWith?_reference]
    rcases hStick with hNone | hNone
    · rw [hNone, Option.bind_none]
    · rw [hNone]
      cases Expr.values? env m is <;> rfl
  case call =>
    intro s f args env m _ _
    rw [change_call]
    rfl
  case block =>
    intro s ts ih env m hCleared hStick
    obtain ⟨before, t, after, between, rfl, hBefore, hStick⟩ := exists_of_mayStickAll hStick
    have hEach := fun u (hu : u ∈ before ++ t :: after) => hCleared.child (u := u) hu
    have ht : t ∈ before ++ t :: after := by simp
    rw [change_block, List.map_append, List.map_cons]
    exact Change.inTurn_eq_none (Effect.AtMost.inTurn (fun u hu =>
      change_of_mayLeave u env (hEach u (List.mem_append_left _ hu))) _ _ hBefore)
      (ih t ht env between (hEach t ht) hStick)
  case hole =>
    intro s env m _ _
    rw [change_hole]
    rfl

/-- **All orders**: a cleared program settles on the memory that its run leaves. -/
theorem settles_of_cleared {t : Stmt} (hCleared : t.Cleared maxLevels) {env : Env} {m m' : Memory}
    (hRun : t.change (.reference fresh) env m = some m') : t.Settles fresh env m m' := by
  refine ⟨fun after => ⟨fun hLeave => ?_, ?_⟩, fun hStick => ?_⟩
  · have hAfter := change_of_mayLeave t env hCleared m after hLeave
    exact Option.some.inj (hAfter.symm.trans hRun)
  · rintro rfl
    rw [change_reference] at hRun
    obtain ⟨⟨last, ws⟩, hHere, rfl⟩ := Option.map_eq_some_iff.mp hRun
    exact mayLeave_of_run hHere
  · rw [change_of_mayStick t env m hCleared hStick] at hRun
    cases hRun

end Stmt

namespace Schedule

/-- The check of the loops that run in parallel. -/
theorem recheckLoops_eq_ok {maxLevels : Nat} {loops : List Stmt} :
    recheckLoops maxLevels loops = .ok () ↔ ∀ lp ∈ loops, lp.isParallelLoop = true →
      ∃ rs, lp.parallelVerdict maxLevels = .safe rs := by
  induction loops with
  | nil => simp [recheckLoops]
  | cons lp rest ih =>
    rw [recheckLoops, List.forall_mem_cons, ← ih]
    cases hParallel : lp.isParallelLoop with
    | false => simp
    | true => cases lp.parallelVerdict maxLevels <;> simp

/-- A schedule that checks its loops again commits only programs whose parallel loops may run in
    parallel. -/
theorem safe_of_commit {config : ScheduleConfig} (hRecheck : config.recheck = true) {t t' : Stmt}
    (h : commit config t = .ok t') {s : Site} {head : LoopHead} {body : Stmt}
    (hLoop : Stmt.loop s head body ∈ t'.nodes) (hParallel : head.isParallel = true) :
    ∃ rs, (Stmt.loop s head body).parallelVerdict config.maxLevels = .safe rs := by
  obtain ⟨_, _, hChecked⟩ := commit_cases h
  exact recheckLoops_eq_ok.mp (hChecked hRecheck) _ (List.mem_filter.mpr ⟨hLoop, rfl⟩) hParallel

end Schedule

end LoopNest

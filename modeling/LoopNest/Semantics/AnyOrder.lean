import LoopNest.Semantics.Run

/-! # Running parallel loops in any order

  `Stmt.run` runs every loop in increasing order. A parallel loop may go through its iterations in
  any order, and in another one each time it is reached. `Stmt.MayLeave` relates the memory before
  a program to all memories that it may leave.

  Main statement: the memory after `Stmt.run` is one of them (`mayLeave_of_run`). -/

namespace LoopNest

/-- Relates the memory before to the memories afterwards. -/
abbrev Effect := Memory → Memory → Prop

/-! ## Effects -/

namespace Effect

/-- Leaves the memory as it is. -/
def skip : Effect := fun m m' => m' = m

/-- Leaves no memory at all. -/
def stuck : Effect := fun _ _ => False

/-- One effect after the other. -/
def seq (a b : Effect) : Effect := fun m m' => ∃ between, a m between ∧ b between m'

/-- Effects in the order of a list. -/
def inTurn (effects : List Effect) : Effect := effects.foldr seq skip

/-- An effect on a buffer of its own, with the given cells at first, that hides another one of that
    name. -/
def withLocal (buffer : String) (cells : Cells) (a : Effect) : Effect := fun m m' =>
  ∃ after, a (m.exchange buffer cells) after ∧ m' = after.exchange buffer (m buffer)

@[simp] theorem inTurn_nil : inTurn [] = skip := rfl

@[simp] theorem inTurn_cons (a : Effect) (as : List Effect) :
    inTurn (a :: as) = a.seq (inTurn as) := rfl

end Effect

/-- An action is within an effect when the effect allows every memory that the action leaves. -/
def Action.Within (a : Action) (e : Effect) : Prop := ∀ m m' ws, a m = some (m', ws) → e m m'

namespace Action

theorem skip_within : skip.Within .skip := by
  intro m m' ws h
  simp only [skip, Option.some.injEq, Prod.mk.injEq] at h
  exact h.1.symm

theorem stuck_within (e : Effect) : stuck.Within e := by
  intro m m' ws h
  simp [stuck] at h

theorem seq_within {a b : Action} {e f : Effect} (ha : a.Within e) (hb : b.Within f) :
    (a.seq b).Within (e.seq f) := by
  intro m m' ws h
  simp only [seq, Option.bind_eq_bind, Option.bind_eq_some_iff] at h
  obtain ⟨⟨between, before⟩, hBefore, ⟨last, after⟩, hAfter, hResult⟩ := h
  cases hResult
  exact ⟨between, ha _ _ _ hBefore, hb _ _ _ hAfter⟩

theorem inTurn_within {α : Type} {f : α → Action} {g : α → Effect} {xs : List α}
    (h : ∀ x ∈ xs, (f x).Within (g x)) : (inTurn (xs.map f)).Within (.inTurn (xs.map g)) := by
  induction xs with
  | nil => exact skip_within
  | cons x xs ih =>
    exact seq_within (h x List.mem_cons_self) (ih fun y hy => h y (List.mem_cons_of_mem x hy))

theorem withLocal_within {buffer : String} {cells : Cells} {a : Action} {e : Effect}
    (h : a.Within e) : (a.withLocal buffer cells).Within (e.withLocal buffer cells) := by
  intro m m' ws hRun
  simp only [withLocal, Option.bind_eq_bind, Option.bind_eq_some_iff] at hRun
  obtain ⟨⟨after, writes⟩, hBody, hResult⟩ := hRun
  cases hResult
  exact ⟨after, h _ _ _ hBody, rfl⟩

end Action

/-! ## Programs -/

/-- Whether a loop may go through its iterations in an order. -/
def LoopHead.MayOrder (h : LoopHead) (lower upper : Int) (order : List Int) : Prop :=
  if h.isParallel then order.Perm (counting lower upper) else order = counting lower upper

/-- Every loop may go through its iterations in increasing order. -/
theorem LoopHead.mayOrder_counting (h : LoopHead) (lower upper : Int) :
    h.MayOrder lower upper (counting lower upper) := by
  unfold MayOrder
  split
  · exact List.Perm.refl _
  · rfl

namespace Stmt

mutual
/-- The memories that a program may leave. -/
def MayLeave (fresh : Memory) (env : Env) : Stmt → Effect
  | .decl _ n b body =>
    if b.access = .cache then (MayLeave fresh env body).withLocal n (fresh n)
    else MayLeave fresh env body
  | .loop _ h body => fun m m' => ∃ lower upper order,
    h.lower.value? env m = some lower ∧ h.upper.value? env m = some upper ∧
    h.MayOrder lower upper order ∧
    Effect.inTurn (order.map fun v => MayLeave fresh (env.set h.iter v) body) m m'
  | .guard _ c body => fun m m' => ∃ v, c.value? env m = some v ∧
    if v = 0 then m' = m else MayLeave fresh env body m m'
  | .branch _ c yes no => fun m m' => ∃ v, c.value? env m = some v ∧
    if v = 0 then MayLeave fresh env no m m' else MayLeave fresh env yes m m'
  | .store _ b is v => fun m m' => ∃ indices value,
    Expr.values? env m is = some indices ∧ v.value? env m = some value ∧
    m' = m.put b indices value
  | .block _ stmts => MayLeaveAll fresh env stmts
  | .call .. | .hole _ => .stuck
/-- The memories that statements may leave one after the other. -/
def MayLeaveAll (fresh : Memory) (env : Env) : List Stmt → Effect
  | [] => .skip
  | t :: ts => (MayLeave fresh env t).seq (MayLeaveAll fresh env ts)
end

theorem mayLeaveAll_eq_inTurn (fresh : Memory) (env : Env) (ts : List Stmt) :
    MayLeaveAll fresh env ts = Effect.inTurn (ts.map (MayLeave fresh env)) := by
  induction ts with
  | nil => rfl
  | cons t ts ih => simp [MayLeaveAll, ih]

theorem run_within (fresh : Memory) :
    ∀ (t : Stmt) (env : Env), (t.run fresh env).Within (t.MayLeave fresh env) := by
  refine Stmt.ind ?_ ?_ ?_ ?_ ?_ ?_ ?_ ?_
  · intro s n b body ih env
    unfold run MayLeave
    split
    · exact Action.withLocal_within (ih env)
    · exact ih env
  · intro s h body ih env m m' ws hRun
    simp only [run, Option.bind_eq_bind, Option.bind_eq_some_iff] at hRun
    obtain ⟨lower, hLower, upper, hUpper, hBody⟩ := hRun
    refine ⟨lower, upper, counting lower upper, hLower, hUpper, h.mayOrder_counting _ _, ?_⟩
    exact Action.inTurn_within (fun v _ => ih (env.set h.iter v)) _ _ _ hBody
  · intro s c body ih env m m' ws hRun
    simp only [run, Option.bind_eq_bind, Option.bind_eq_some_iff] at hRun
    obtain ⟨v, hCond, hBody⟩ := hRun
    refine ⟨v, hCond, ?_⟩
    split at hBody
    · rename_i hZero
      rw [if_pos hZero]
      exact Action.skip_within _ _ _ hBody
    · rename_i hZero
      rw [if_neg hZero]
      exact ih env _ _ _ hBody
  · intro s c yes no ihYes ihNo env m m' ws hRun
    simp only [run, Option.bind_eq_bind, Option.bind_eq_some_iff] at hRun
    obtain ⟨v, hCond, hBody⟩ := hRun
    refine ⟨v, hCond, ?_⟩
    split at hBody
    · rename_i hZero
      rw [if_pos hZero]
      exact ihNo env _ _ _ hBody
    · rename_i hZero
      rw [if_neg hZero]
      exact ihYes env _ _ _ hBody
  · intro s b is v env m m' ws hRun
    simp only [run, Option.bind_eq_bind, Option.bind_eq_some_iff] at hRun
    obtain ⟨indices, hIndices, value, hValue, hResult⟩ := hRun
    cases hResult
    exact ⟨indices, value, hIndices, hValue, rfl⟩
  · intro s f args env
    exact Action.stuck_within _
  · intro s stmts ih env
    unfold run MayLeave
    rw [runAll_eq_inTurn, mayLeaveAll_eq_inTurn]
    exact Action.inTurn_within fun t ht => ih t ht env
  · intro s env
    exact Action.stuck_within _

/-- The memory that running in increasing order leaves is one that the program may leave. -/
theorem mayLeave_of_run {t : Stmt} {fresh : Memory} {env : Env} {m m' : Memory} {ws : List Write}
    (h : t.run fresh env m = some (m', ws)) : t.MayLeave fresh env m m' :=
  run_within fresh t env m m' ws h

end Stmt

end LoopNest

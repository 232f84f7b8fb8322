import LoopNest.Proofs.Replacements

/-! # Where a run enters a statement

  `Stmt.Enters fresh u t env m env' m'` says that running `t` from `env` and `m` comes to the statement
  `u` with the environment `env'` and the memory `m'`: the loops around it have got that far, and the
  conditions around it hold.

  Main statements: when a statement and what takes its place run alike wherever they are entered, the
  whole programs make the same writes (`Stmt.Replaces.run_eq`). When what takes the place leaves what
  the statement leaves wherever it is entered, the new program leaves what the old one leaves
  (`Stmt.Replaces.leaves_of_enters`). -/

namespace LoopNest

namespace Action

/-- Actions in the order of a list are the same when each is the same on the memory it gets. -/
theorem inTurn_congr {α : Type} {f g : α → Action} {xs : List α} {m : Memory}
    (h : ∀ before x after between w, xs = before ++ x :: after →
      inTurn (before.map f) m = some (between, w) → g x between = f x between) :
    inTurn (xs.map g) m = inTurn (xs.map f) m := by
  induction xs generalizing m with
  | nil => rfl
  | cons x xs ih =>
    have hHead : g x m = f x m := h [] x xs m [] rfl rfl
    rw [List.map_cons, List.map_cons, inTurn_cons, inTurn_cons]
    unfold seq
    rw [hHead]
    cases hRun : f x m with
    | none => rfl
    | some r =>
      have hTail : inTurn (xs.map g) r.1 = inTurn (xs.map f) r.1 := by
        apply ih
        intro before y after between w hSplit hBefore
        apply h (x :: before) y after between (r.2 ++ w) (by rw [hSplit, List.cons_append])
        rw [List.map_cons, inTurn_cons]
        simp only [seq, hRun, hBefore, Option.bind_eq_bind, Option.bind_some]
        rfl
      simp only [hTail, Option.bind_eq_bind, Option.bind_some]

/-- A memory that is left by the changes of actions is left by the actions. -/
theorem exists_writes {α : Type} {f : α → Action} {xs : List α} {m m' : Memory}
    (h : Change.inTurn (xs.map fun x => (f x).change) m = some m') :
    ∃ w, inTurn (xs.map f) m = some (m', w) := by
  have hChange := congrFun (change_inTurn (xs.map f)) m
  rw [List.map_map] at hChange
  obtain ⟨⟨after, w⟩, hRun, hAfter⟩ := Option.map_eq_some_iff.mp (hChange.trans h)
  obtain rfl : after = m' := hAfter
  exact ⟨w, hRun⟩

end Action

/-- Changes in the order of a list leave the same memory when each leaves the same one after those
    before it. -/
theorem Change.inTurn_leaves {α : Type} {f g : α → Change} {xs : List α} {m m' : Memory}
    (h : ∀ before x after between next, xs = before ++ x :: after →
      inTurn (before.map f) m = some between → f x between = some next → g x between = some next)
    (hRun : inTurn (xs.map f) m = some m') : inTurn (xs.map g) m = some m' := by
  induction xs generalizing m with
  | nil => exact hRun
  | cons x xs ih =>
    obtain ⟨next, hHead, hTail⟩ := seq_eq_some.mp hRun
    refine seq_eq_some.mpr ⟨next, h [] x xs m next rfl rfl hHead, ih ?_ hTail⟩
    intro before y after between last hSplit hBefore hLast
    refine h (x :: before) y after between last (by rw [hSplit, List.cons_append]) ?_ hLast
    exact seq_eq_some.mpr ⟨next, hHead, hBefore⟩

namespace Stmt

/-- The memory in which the body of a declaration starts. -/
def entryMemory (fresh : Memory) (n : String) (b : Buffer) (m : Memory) : Memory :=
  if b.access = .cache then m.exchange n (fresh n) else m

/-- Running a program comes to the statement `u`. -/
inductive Enters (fresh : Memory) (u : Stmt) : Stmt → Env → Memory → Env → Memory → Prop where
  | here {env : Env} {m : Memory} : Enters fresh u u env m env m
  | decl {s : Site} {n : String} {b : Buffer} {body : Stmt} {env env' : Env} {m m' : Memory}
    (h : Enters fresh u body env (entryMemory fresh n b m) env' m') :
    Enters fresh u (.decl s n b body) env m env' m'
  | loop {s : Site} {head : LoopHead} {body : Stmt} {env env' : Env} {m between m' : Memory}
    {lower upper v : Int} {before after : List Int} {w : List Write}
    (hLower : head.lower.value? env m = some lower) (hUpper : head.upper.value? env m = some upper)
    (hTurns : counting lower upper = before ++ v :: after)
    (hBefore : Action.inTurn (before.map fun x => body.run fresh (env.set head.iter x)) m
      = some (between, w))
    (h : Enters fresh u body (env.set head.iter v) between env' m') :
    Enters fresh u (.loop s head body) env m env' m'
  | guard {s : Site} {c : Expr} {body : Stmt} {env env' : Env} {m m' : Memory} {x : Int}
    (hCond : c.value? env m = some x) (hTrue : x ≠ 0) (h : Enters fresh u body env m env' m') :
    Enters fresh u (.guard s c body) env m env' m'
  | yes {s : Site} {c : Expr} {yes no : Stmt} {env env' : Env} {m m' : Memory} {x : Int}
    (hCond : c.value? env m = some x) (hTrue : x ≠ 0) (h : Enters fresh u yes env m env' m') :
    Enters fresh u (.branch s c yes no) env m env' m'
  | no {s : Site} {c : Expr} {yes no : Stmt} {env env' : Env} {m m' : Memory}
    (hCond : c.value? env m = some 0) (h : Enters fresh u no env m env' m') :
    Enters fresh u (.branch s c yes no) env m env' m'
  | block {s : Site} {before after : List Stmt} {t : Stmt} {env env' : Env} {m between m' : Memory}
    {w : List Write}
    (hBefore : Action.inTurn (before.map (run fresh env)) m = some (between, w))
    (h : Enters fresh u t env between env' m') :
    Enters fresh u (.block s (before ++ t :: after)) env m env' m'

/-- A statement is entered with the values that the scalars have outside, but for those that loops
    around it set. -/
theorem Enters.reaches {fresh : Memory} {u t : Stmt} {env env' : Env} {m m' : Memory}
    (h : Enters fresh u t env m env' m') : t.Reaches env env' := by
  induction h with
  | here => exact .refl _ _
  | decl _ ih => exact ih.of_mem (by simp [self_mem_nodes])
  | loop _ _ _ _ _ ih => exact ih.of_loop
  | guard _ _ _ ih => exact ih.of_mem (by simp [self_mem_nodes])
  | yes _ _ _ ih => exact ih.of_mem (by simp [self_mem_nodes])
  | no _ _ ih => exact ih.of_mem (by simp [self_mem_nodes])
  | block _ _ ih => exact ih.of_mem (by simp [self_mem_nodes])

/-- What is entered is part of the program. -/
theorem Enters.mem {fresh : Memory} {u t : Stmt} {env env' : Env} {m m' : Memory}
    (h : Enters fresh u t env m env' m') : u ∈ t.nodes := by
  induction h with
  | here => exact self_mem_nodes _
  | decl _ ih => simp [ih]
  | loop _ _ _ _ _ ih => simp [ih]
  | guard _ _ _ ih => simp [ih]
  | yes _ _ _ ih => simp [ih]
  | no _ _ ih => simp [ih]
  | block _ _ ih => simp [ih]

/-- A program is entered at its start, the statements in it may be entered later. -/
theorem Enters.here_or_inside {fresh : Memory} {u t : Stmt} {env env' : Env} {m m' : Memory}
    (h : Enters fresh u t env m env' m') : (env' = env ∧ m' = m) ∨ u ∈ t.inside := by
  cases h with
  | here => exact .inl ⟨rfl, rfl⟩
  | decl h => exact .inr (by simpa [inside, children] using h.mem)
  | loop _ _ _ _ h => exact .inr (by simpa [inside, children] using h.mem)
  | guard _ _ h => exact .inr (by simpa [inside, children] using h.mem)
  | yes _ _ h => exact .inr (by simpa [inside, children] using .inl h.mem)
  | no _ h => exact .inr (by simpa [inside, children] using .inr h.mem)
  | block _ h =>
    have hMem := h.mem
    exact .inr (by simp [inside, children, hMem])

/-- An expression that reads no buffer and no scalar that a loop sets has the same value wherever a
    statement is entered. -/
theorem Enters.value?_eq {fresh : Memory} {u t : Stmt} {env env' : Env} {m m' : Memory}
    (h : Enters fresh u t env m env' m') {e : Expr} (hLoads : e.buffers = [])
    (hUnset : ∀ x ∈ e.scalars, ¬ t.Binds x) : e.value? env' m' = e.value? env m := by
  rw [← Expr.valueWith?_reference .blank, ← Expr.valueWith?_reference .blank]
  apply Expr.valueWith?_congr_names
  · exact fun x hx => h.reaches x (hUnset x hx)
  · rw [hLoads]
    exact fun b hb => absurd hb List.not_mem_nil

variable {fresh : Memory} {u v t t' : Stmt}

theorem run_decl (s : Site) (n : String) (b : Buffer) (body : Stmt) (env : Env) (m : Memory) :
    (Stmt.decl s n b body).run fresh env m
      = (body.run fresh env (entryMemory fresh n b m)).map fun r =>
          (if b.access = .cache then r.1.exchange n (m n) else r.1, r.2) := by
  rw [run]
  unfold entryMemory
  split
  · unfold Action.withLocal
    cases body.run fresh env (m.exchange n (fresh n)) <;> rfl
  · cases body.run fresh env m <;> rfl

/-- **Replaced statements**: a program makes the same writes as before when the new statement runs
    like the old one wherever the old one is entered. -/
theorem Replaces.run_eq (h : Replaces u v t t') :
    ∀ env m, (∀ env' m', Enters fresh u t env m env' m' → v.run fresh env' m' = u.run fresh env' m') →
      t'.run fresh env m = t.run fresh env m := by
  induction h with
  | here => exact fun env m hSame => hSame env m .here
  | decl s n b _ ih =>
    intro env m hSame
    rw [run_decl, run_decl, ih env _ fun env' m' hEnters => hSame env' m' hEnters.decl]
  | loop s head _ ih =>
    intro env m hSame
    simp only [run]
    cases hLower : head.lower.value? env m with
    | none => rfl
    | some lower =>
      cases hUpper : head.upper.value? env m with
      | none => rfl
      | some upper =>
        simp only [Option.bind_eq_bind, Option.bind_some]
        apply Action.inTurn_congr
        intro before x after between w hTurns hBefore
        exact ih _ between fun env' m' hEnters =>
          hSame env' m' (.loop hLower hUpper hTurns hBefore hEnters)
  | guard s e _ ih =>
    intro env m hSame
    simp only [run]
    cases hCond : e.value? env m with
    | none => rfl
    | some x =>
      simp only [Option.bind_eq_bind, Option.bind_some]
      split
      · rfl
      · rename_i hTrue
        exact ih env m fun env' m' hEnters => hSame env' m' (.guard hCond hTrue hEnters)
  | yes s e no _ ih =>
    intro env m hSame
    simp only [run]
    cases hCond : e.value? env m with
    | none => rfl
    | some x =>
      simp only [Option.bind_eq_bind, Option.bind_some]
      split
      · rfl
      · rename_i hTrue
        exact ih env m fun env' m' hEnters => hSame env' m' (.yes hCond hTrue hEnters)
  | no s e yes _ ih =>
    intro env m hSame
    simp only [run]
    cases hCond : e.value? env m with
    | none => rfl
    | some x =>
      simp only [Option.bind_eq_bind, Option.bind_some]
      split
      · rename_i hFalse
        exact ih env m fun env' m' hEnters => hSame env' m' (.no (hFalse ▸ hCond) hEnters)
      · rfl
  | block s before after _ ih =>
    intro env m hSame
    simp only [run, runAll_eq_inTurn, List.map_append, List.map_cons, Action.inTurn_append,
      Action.inTurn_cons]
    unfold Action.seq
    cases hBefore : Action.inTurn (before.map (run fresh env)) m with
    | none => rfl
    | some r =>
      simp only [Option.bind_eq_bind, Option.bind_some]
      rw [ih env r.1 fun env' m' hEnters => hSame env' m' (.block hBefore hEnters)]

/-- No element loses its content when programs run one after the other. -/
theorem full_of_changes {α : Type} {c : Conventions} {f : α → Stmt} {e : α → Env} {xs : List α}
    {m m' : Memory} (hm : m.Full)
    (hRun : Change.inTurn (xs.map fun x => (f x).change c (e x)) m = some m') : m'.Full := by
  refine Change.Keeps.inTurn (fun a ha => ?_) m m' hm hRun
  obtain ⟨x, _, rfl⟩ := List.mem_map.mp ha
  exact keeps_full c (f x) (e x)

/-- **Memories of replaced statements**: a program that leaves a memory still leaves it when the new
    statement leaves what the old one leaves wherever that is entered. Divisions by zero may have a value
    in the new program. -/
theorem Replaces.leaves_of_enters (h : Replaces u v t t') (hFresh : fresh.Full) {q : Option Int} :
    ∀ env m m', m.Full → (∀ env' at_ after, Enters fresh u t env m env' at_ → at_.Full →
      u.change (.reference fresh) env' at_ = some after →
        v.change ⟨fun _ => fresh, q⟩ env' at_ = some after) →
      t.change (.reference fresh) env m = some m' →
        t'.change ⟨fun _ => fresh, q⟩ env m = some m' := by
  have hExtends : Conventions.Extends ⟨fun _ => fresh, q⟩ (.reference fresh) :=
    Conventions.extends_reference fun _ => .refl fresh
  have hValue : ∀ {e : Expr} {env : Env} {m : Memory} {x : Int},
      e.valueWith? (.reference fresh) env m = some x →
        e.valueWith? ⟨fun _ => fresh, q⟩ env m = some x :=
    fun hx => Expr.valueWith?_mono hExtends (.refl _) _ _ hx
  induction h with
  | here => exact fun env m m' hm hSame hRun => hSame env m m' .here hm hRun
  | decl s n b _ ih =>
    intro env m m' hm hSame hRun
    rw [change_decl] at hRun ⊢
    by_cases hCache : b.access = .cache
    · rw [if_pos hCache] at hRun ⊢
      obtain ⟨after, hAfter, rfl⟩ := Change.withLocal_eq_some.mp hRun
      refine Change.withLocal_eq_some.mpr ⟨after, ih env _ after (hm.exchange n (hFresh n)) ?_ hAfter,
        rfl⟩
      intro env' at_ after' hEnters
      refine hSame env' at_ after' (.decl ?_)
      rwa [entryMemory, if_pos hCache]
    · rw [if_neg hCache] at hRun ⊢
      refine ih env m m' hm (fun env' at_ after' hEnters => hSame env' at_ after' (.decl ?_)) hRun
      rwa [entryMemory, if_neg hCache]
  | loop s head _ ih =>
    intro env m m' hm hSame hRun
    rw [change_loop] at hRun
    obtain ⟨lower, hLower, hRun⟩ := Option.bind_eq_some_iff.mp hRun
    obtain ⟨upper, hUpper, hRun⟩ := Option.bind_eq_some_iff.mp hRun
    rw [change_loop, hValue hLower, Option.bind_some, hValue hUpper, Option.bind_some]
    rw [Expr.valueWith?_reference] at hLower hUpper
    refine Change.inTurn_leaves (fun before x after between next hTurns hBefore hNext => ?_) hRun
    have hFull : between.Full := full_of_changes hm hBefore
    obtain ⟨w, hWrites⟩ := Action.exists_writes hBefore
    simp only [runWith_reference] at hWrites
    exact ih _ between next hFull (fun env' at_ after' hEnters =>
      hSame env' at_ after' (.loop hLower hUpper hTurns hWrites hEnters)) hNext
  | guard s e _ ih =>
    intro env m m' hm hSame hRun
    rw [change_guard] at hRun
    obtain ⟨x, hCond, hRun⟩ := Option.bind_eq_some_iff.mp hRun
    rw [change_guard, hValue hCond, Option.bind_some]
    rw [Expr.valueWith?_reference] at hCond
    split at hRun
    · rw [if_pos ‹x = 0›]
      exact hRun
    · rename_i hTrue
      rw [if_neg hTrue]
      exact ih env m m' hm (fun env' at_ after' hEnters =>
        hSame env' at_ after' (.guard hCond hTrue hEnters)) hRun
  | yes s e no _ ih =>
    intro env m m' hm hSame hRun
    rw [change_branch] at hRun
    obtain ⟨x, hCond, hRun⟩ := Option.bind_eq_some_iff.mp hRun
    rw [change_branch, hValue hCond, Option.bind_some]
    rw [Expr.valueWith?_reference] at hCond
    split at hRun
    · rw [if_pos ‹x = 0›]
      exact change_of_extends hExtends hm hRun
    · rename_i hTrue
      rw [if_neg hTrue]
      exact ih env m m' hm (fun env' at_ after' hEnters =>
        hSame env' at_ after' (.yes hCond hTrue hEnters)) hRun
  | no s e yes _ ih =>
    intro env m m' hm hSame hRun
    rw [change_branch] at hRun
    obtain ⟨x, hCond, hRun⟩ := Option.bind_eq_some_iff.mp hRun
    rw [change_branch, hValue hCond, Option.bind_some]
    rw [Expr.valueWith?_reference] at hCond
    split at hRun
    · rename_i hFalse
      rw [if_pos hFalse]
      exact ih env m m' hm (fun env' at_ after' hEnters =>
        hSame env' at_ after' (.no (hFalse ▸ hCond) hEnters)) hRun
    · rw [if_neg ‹¬x = 0›]
      exact change_of_extends hExtends hm hRun
  | block s before after _ ih =>
    intro env m m' hm hSame hRun
    rw [change_block, List.map_append, List.map_cons, Change.inTurn_append, Change.inTurn_cons] at hRun ⊢
    obtain ⟨between, hBefore, hRun⟩ := Change.seq_eq_some.mp hRun
    obtain ⟨next, hHere, hAfter⟩ := Change.seq_eq_some.mp hRun
    have hEach : ∀ {ts : List Stmt} {m m' : Memory}, m.Full →
        Change.inTurn (ts.map fun t => t.change (.reference fresh) env) m = some m' →
          Change.inTurn (ts.map fun t => t.change ⟨fun _ => fresh, q⟩ env) m = some m' := by
      intro ts m m' hm hts
      refine Change.inTurn_leaves (fun first x last at_ after' _ hFirst => ?_) hts
      exact change_of_extends hExtends (full_of_changes hm hFirst)
    have hBetween : between.Full := full_of_changes hm hBefore
    obtain ⟨w, hWrites⟩ := Action.exists_writes hBefore
    rw [funext fun t => runWith_reference fresh t env] at hWrites
    have hNext := ih env between next hBetween (fun env' at_ after' hEnters =>
      hSame env' at_ after' (.block hWrites hEnters)) hHere
    exact Change.seq_eq_some.mpr ⟨between, hEach hm hBefore,
      Change.seq_eq_some.mpr ⟨next, hNext, hEach (full_of_change hBetween hHere) hAfter⟩⟩

end Stmt

end LoopNest

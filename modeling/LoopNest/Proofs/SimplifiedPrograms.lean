import LoopNest.Program.Simplify
import LoopNest.Proofs.ReplacedScalars
import LoopNest.Proofs.SimplifiedExprs

/-! # Runs of simplified programs

  A simplified program makes the same writes as the program.

  * **Truth values**: `Stmt.runBy Expr.logicalValue?` is the run that stops when a logical operator
    is applied to another number than 0 and 1. A program is logical on a memory when that makes no
    difference (`Stmt.Logical`).
  * **Loops with one iteration** give way to their body with the iterator replaced by the lower
    bound. That is right when no loop in the body sets a scalar of the bounds (`Stmt.Unshadowed`,
    `Stmt.runBy_substitute`).
  * **Programs**: by induction on the height that simplification still goes down
    (`Stmt.simplifyTo_extends`), with the ranges of the iterators around a statement as invariant. -/

namespace LoopNest

/-! ## Actions that go further -/

namespace Action

/-- Where the first action has a result the second one has the same. -/
def ExtendedBy (a b : Action) : Prop := ∀ m r, a m = some r → b m = some r

variable {a b a' b' : Action}

theorem ExtendedBy.refl (a : Action) : a.ExtendedBy a := fun _ _ h => h

theorem stuck_extendedBy (a : Action) : stuck.ExtendedBy a := fun _ _ h => nomatch h

theorem ExtendedBy.seq (ha : a.ExtendedBy a') (hb : b.ExtendedBy b') :
    (a.seq b).ExtendedBy (a'.seq b') := by
  intro m r h
  simp only [Action.seq, Option.bind_eq_bind, Option.bind_eq_some_iff] at h ⊢
  obtain ⟨s, hs, t, ht, hr⟩ := h
  exact ⟨s, ha _ _ hs, t, hb _ _ ht, hr⟩

theorem ExtendedBy.inTurn {α : Type} {f g : α → Action} {xs : List α}
    (h : ∀ x ∈ xs, (f x).ExtendedBy (g x)) :
    (Action.inTurn (xs.map f)).ExtendedBy (Action.inTurn (xs.map g)) := by
  induction xs with
  | nil => exact .refl _
  | cons x xs ih =>
    exact (h x List.mem_cons_self).seq (ih fun y hy => h y (List.mem_cons_of_mem x hy))

theorem ExtendedBy.withLocal (h : a.ExtendedBy b) (n : String) (cells : Cells) :
    (a.withLocal n cells).ExtendedBy (b.withLocal n cells) := by
  intro m r hRun
  simp only [Action.withLocal, Option.bind_eq_bind, Option.bind_eq_some_iff] at hRun ⊢
  obtain ⟨s, hs, hr⟩ := hRun
  exact ⟨s, h _ _ hs, hr⟩

theorem withLocal_skip (n : String) (cells : Cells) : skip.withLocal n cells = skip := by
  funext m
  show some ((m.exchange n cells).exchange n (m n), []) = some (m, [])
  rw [Memory.exchange_exchange, Memory.exchange_same]

end Action

namespace Stmt

/-! ## Runs with truth values -/

variable {value : Env → Memory → Expr → Option Int} {fresh : Memory} {env : Env} {m : Memory}
  {out : Memory × List Write}

/-- Applying logical operators to 0 and 1 only makes no difference to a run. -/
def Logical (fresh : Memory) (env : Env) (t : Stmt) (m : Memory) : Prop :=
  t.runBy Expr.logicalValue? fresh env m = t.run fresh env m

theorem runBy_loop_eq_some {s : Site} {h : LoopHead} {body : Stmt} :
    (Stmt.loop s h body).runBy value fresh env m = some out ↔
      ∃ lower upper, value env m h.lower = some lower ∧ value env m h.upper = some upper
        ∧ Action.inTurn ((counting lower upper).map fun v =>
            runBy value fresh (env.set h.iter v) body) m = some out := by
  simp only [runBy, Option.bind_eq_bind, Option.bind_eq_some_iff]
  constructor
  · rintro ⟨l, hl, u, hu, hRun⟩
    exact ⟨l, u, hl, hu, hRun⟩
  · rintro ⟨l, u, hl, hu, hRun⟩
    exact ⟨l, hl, u, hu, hRun⟩

theorem run_loop_eq_some {s : Site} {h : LoopHead} {body : Stmt} :
    (Stmt.loop s h body).run fresh env m = some out ↔
      ∃ lower upper, h.lower.value? env m = some lower ∧ h.upper.value? env m = some upper
        ∧ Action.inTurn ((counting lower upper).map fun v => run fresh (env.set h.iter v) body) m
          = some out := by
  simp only [← runBy_value?, runBy_loop_eq_some]

theorem runBy_guard_eq_some {s : Site} {c : Expr} {body : Stmt} :
    (Stmt.guard s c body).runBy value fresh env m = some out ↔
      ∃ v, value env m c = some v
        ∧ (if v = 0 then Action.skip m else body.runBy value fresh env m) = some out := by
  simp only [runBy, Option.bind_eq_bind, Option.bind_eq_some_iff]

theorem run_guard_eq_some {s : Site} {c : Expr} {body : Stmt} :
    (Stmt.guard s c body).run fresh env m = some out ↔
      ∃ v, c.value? env m = some v
        ∧ (if v = 0 then Action.skip m else body.run fresh env m) = some out := by
  simp only [← runBy_value?, runBy_guard_eq_some]

theorem runBy_branch_eq_some {s : Site} {c : Expr} {yes no : Stmt} :
    (Stmt.branch s c yes no).runBy value fresh env m = some out ↔
      ∃ v, value env m c = some v ∧ (if v = 0 then no.runBy value fresh env m
        else yes.runBy value fresh env m) = some out := by
  simp only [runBy, Option.bind_eq_bind, Option.bind_eq_some_iff]

theorem run_branch_eq_some {s : Site} {c : Expr} {yes no : Stmt} :
    (Stmt.branch s c yes no).run fresh env m = some out ↔
      ∃ v, c.value? env m = some v
        ∧ (if v = 0 then no.run fresh env m else yes.run fresh env m) = some out := by
  simp only [← runBy_value?, runBy_branch_eq_some]

/-- A run goes as far as the one that stops at other numbers than truth values. -/
theorem runBy_extendedBy (fresh : Memory)
    (hValue : ∀ env m e v, value env m e = some v → e.value? env m = some v) :
    ∀ (t : Stmt) (env : Env), (t.runBy value fresh env).ExtendedBy (t.run fresh env) := by
  refine Stmt.ind ?_ ?_ ?_ ?_ ?_ ?_ ?_ ?_
  · intro s n b body ih env
    rw [runBy, run]
    split
    · exact (ih env).withLocal n (fresh n)
    · exact ih env
  · intro s h body ih env m r hRun
    obtain ⟨lower, upper, hLower, hUpper, hTurns⟩ := runBy_loop_eq_some.mp hRun
    exact (run_loop_eq_some (s := s)).mpr ⟨lower, upper, hValue _ _ _ _ hLower, hValue _ _ _ _ hUpper,
      Action.ExtendedBy.inTurn (fun v _ => ih (env.set h.iter v)) _ _ hTurns⟩
  · intro s c body ih env m r hRun
    obtain ⟨v, hCond, hBody⟩ := runBy_guard_eq_some.mp hRun
    refine run_guard_eq_some.mpr ⟨v, hValue _ _ _ _ hCond, ?_⟩
    split
    · rwa [if_pos ‹_›] at hBody
    · rw [if_neg ‹_›] at hBody
      exact ih env _ _ hBody
  · intro s c yes no ihYes ihNo env m r hRun
    obtain ⟨v, hCond, hBody⟩ := runBy_branch_eq_some.mp hRun
    refine run_branch_eq_some.mpr ⟨v, hValue _ _ _ _ hCond, ?_⟩
    split
    · rw [if_pos ‹_›] at hBody
      exact ihNo env _ _ hBody
    · rw [if_neg ‹_›] at hBody
      exact ihYes env _ _ hBody
  · intro s b is v env m r hRun
    have hIndices : ∀ (is : List Expr) (cell : List Int), is.mapM (value env m) = some cell →
        Expr.values? env m is = some cell := by
      intro is
      induction is with
      | nil => exact fun _ h => h
      | cons i is ih =>
        intro cell h
        simp only [List.mapM_cons, Expr.values?, Option.bind_eq_bind, Option.bind_eq_some_iff] at h ⊢
        obtain ⟨w, hw, ws, hws, hCell⟩ := h
        exact ⟨w, hValue _ _ _ _ hw, ws, ih ws hws, hCell⟩
    simp only [runBy, run, Option.bind_eq_bind, Option.bind_eq_some_iff] at hRun ⊢
    obtain ⟨cell, hCell, w, hw, hr⟩ := hRun
    exact ⟨cell, hIndices is cell hCell, w, hValue _ _ _ _ hw, hr⟩
  · exact fun s f args env => Action.stuck_extendedBy _
  · intro s ts ih env
    rw [runBy, run, runAllBy_eq_inTurn, runAll_eq_inTurn]
    exact Action.ExtendedBy.inTurn fun t ht => ih t ht env
  · exact fun s env => Action.stuck_extendedBy _

/-! ## Bounds that keep their values -/

/-- No loop in the body of a loop sets a scalar that the bounds of the loop mention. -/
def Unshadowed (t : Stmt) : Prop :=
  ∀ s h body, Stmt.loop s h body ∈ t.nodes → ∀ e ∈ [h.lower, h.upper], ∀ x ∈ e.scalars,
    ¬ body.Binds x

theorem Unshadowed.of_mem {t u : Stmt} (h : t.Unshadowed) (hu : u ∈ t.nodes) : u.Unshadowed :=
  fun s head body hLoop => h s head body (mem_nodes_trans hLoop hu)

theorem unshadowed_loop {s : Site} {h : LoopHead} {body : Stmt} :
    (Stmt.loop s h body).Unshadowed ↔
      (∀ e ∈ [h.lower, h.upper], ∀ x ∈ e.scalars, ¬ body.Binds x) ∧ body.Unshadowed := by
  constructor
  · intro hLoop
    exact ⟨hLoop s h body (self_mem_nodes _), hLoop.of_mem (by simp [self_mem_nodes])⟩
  · rintro ⟨hHere, hBelow⟩ s' h' body' hMem
    rw [nodes_loop, List.mem_cons] at hMem
    rcases hMem with hEq | hMem
    · cases hEq
      exact hHere
    · exact hBelow s' h' body' hMem

theorem unshadowed_block {s : Site} {ts : List Stmt} :
    (Stmt.block s ts).Unshadowed ↔ ∀ t ∈ ts, t.Unshadowed := by
  constructor
  · intro hBlock t ht
    apply hBlock.of_mem
    rw [nodes_block]
    exact List.mem_cons_of_mem _ (List.mem_flatMap.mpr ⟨t, ht, self_mem_nodes t⟩)
  · intro hEach s' h' body' hMem
    rw [nodes_block, List.mem_cons, List.mem_flatMap] at hMem
    rcases hMem with hEq | ⟨t, ht, hMem⟩
    · cases hEq
    · exact hEach t ht s' h' body' hMem

theorem unshadowed_branch {s : Site} {c : Expr} {yes no : Stmt} :
    (Stmt.branch s c yes no).Unshadowed ↔ yes.Unshadowed ∧ no.Unshadowed := by
  constructor
  · intro hBranch
    exact ⟨hBranch.of_mem (by simp [self_mem_nodes]), hBranch.of_mem (by simp [self_mem_nodes])⟩
  · rintro ⟨hYes, hNo⟩ s' h' body' hMem
    rw [nodes_branch, List.mem_cons, List.mem_append] at hMem
    rcases hMem with hEq | hMem | hMem
    · cases hEq
    · exact hYes s' h' body' hMem
    · exact hNo s' h' body' hMem

theorem unshadowed_decl {s : Site} {n : String} {b : Buffer} {body : Stmt} :
    (Stmt.decl s n b body).Unshadowed ↔ body.Unshadowed := by
  simp [Unshadowed]

theorem unshadowed_guard {s : Site} {c : Expr} {body : Stmt} :
    (Stmt.guard s c body).Unshadowed ↔ body.Unshadowed := by
  simp [Unshadowed]

/-! ## Replaced iterators -/

section substitute

variable {x : String} {w : Expr}

/-- Bounds stay unshadowed when what is put in mentions no scalar that the program sets. -/
theorem Unshadowed.substitute :
    ∀ t : Stmt, t.Unshadowed → (∀ y ∈ w.scalars, ¬ t.Binds y) → (t.substitute x w).Unshadowed := by
  refine Stmt.ind ?_ ?_ ?_ ?_ ?_ ?_ ?_ ?_
  · intro s n b body ih h hw
    rw [Stmt.substitute, unshadowed_decl]
    exact ih (unshadowed_decl.mp h) fun y hy hBinds => hw y hy (binds_decl.mpr hBinds)
  · intro s head body ih h hw
    obtain ⟨hHere, hBelow⟩ := unshadowed_loop.mp h
    have hBody : ∀ y ∈ w.scalars, ¬ body.Binds y := fun y hy hBinds =>
      hw y hy (binds_loop.mpr (.inr hBinds))
    rw [Stmt.substitute, unshadowed_loop]
    constructor
    · intro e he y hy hBinds
      have hOld : body.Binds y := by
        split at hBinds
        · exact hBinds
        · exact binds_substitute body hBinds
      -- a scalar of a new bound is one of the old bound or of what was put in
      have hBound : ∀ e' ∈ [head.lower, head.upper], y ∉ (e'.substitute [(x, w)]).scalars := by
        intro e' he' hMem
        rcases mem_scalars_substitute e' hMem with hMem | hMem
        · exact hHere e' he' y hMem hOld
        · exact hBody y hMem hOld
      rcases List.mem_cons.mp he with rfl | he
      · exact hBound head.lower (by simp) hy
      · obtain rfl := List.mem_singleton.mp he
        exact hBound head.upper (by simp) hy
    · split
      · exact hBelow
      · exact ih hBelow hBody
  · intro s c body ih h hw
    rw [Stmt.substitute, unshadowed_guard]
    exact ih (unshadowed_guard.mp h) fun y hy hBinds => hw y hy (binds_guard.mpr hBinds)
  · intro s c yes no ihYes ihNo h hw
    obtain ⟨hYes, hNo⟩ := unshadowed_branch.mp h
    rw [Stmt.substitute, unshadowed_branch]
    exact ⟨ihYes hYes fun y hy hBinds => hw y hy (binds_branch.mpr (.inl hBinds)),
      ihNo hNo fun y hy hBinds => hw y hy (binds_branch.mpr (.inr hBinds))⟩
  · intro s b is v _ _
    rw [Stmt.substitute]
    simp [Unshadowed]
  · intro s f args _ _
    rw [Stmt.substitute]
    simp [Unshadowed]
  · intro s ts ih h hw
    rw [Stmt.substitute, substituteAll_eq_map, unshadowed_block]
    intro t' ht'
    obtain ⟨t, ht, rfl⟩ := List.mem_map.mp ht'
    exact ih t ht (unshadowed_block.mp h t ht) fun y hy hBinds =>
      hw y hy (binds_block.mpr ⟨t, ht, hBinds⟩)
  · exact fun s h _ => h

end substitute

/-! ## What remains -/

/-- What is left of a statement runs, if anything is. -/
def runRest (fresh : Memory) (env : Env) : Option Stmt → Action
  | none => .skip
  | some t => t.run fresh env

@[simp] theorem runRest_none (fresh : Memory) (env : Env) : runRest fresh env none = .skip := rfl

@[simp] theorem runRest_some (fresh : Memory) (env : Env) (t : Stmt) :
    runRest fresh env (some t) = t.run fresh env := rfl

theorem run_dissolve (fresh : Memory) (env : Env) (t : Stmt) :
    Action.inTurn (t.dissolve.map (run fresh env)) = t.run fresh env := by
  unfold dissolve
  split
  · rw [List.map_singleton, Action.inTurn_cons, Action.inTurn_nil, Action.seq_skip]
  · rw [run, runAll_eq_inTurn]
  · rw [List.map_singleton, Action.inTurn_cons, Action.inTurn_nil, Action.seq_skip]

/-- What remains of a block runs like its statements one after the other. -/
theorem run_simplifiedBlock (fresh : Memory) (env : Env) (s : Site) (ts : List Stmt) :
    runRest fresh env (simplifiedBlock s ts) = Action.inTurn (ts.map (run fresh env)) := by
  have hFlat : Action.inTurn ((ts.flatMap dissolve).map (run fresh env))
      = Action.inTurn (ts.map (run fresh env)) := by
    rw [List.map_flatMap, Action.inTurn_flatMap]
    congr 1
    exact List.map_congr_left fun t _ => run_dissolve fresh env t
  rw [← hFlat]
  unfold simplifiedBlock
  dsimp only
  split
  · rename_i hNone
    rw [hNone]
    rfl
  · rename_i hOne
    rw [hOne, List.map_singleton, Action.inTurn_cons, Action.inTurn_nil, Action.seq_skip]
    rfl
  · rw [runRest_some, run, runAll_eq_inTurn]

/-- What remains of a declaration, whose body may be replaced by what remains of it. -/
theorem run_simplifiedDecl (fresh : Memory) (env : Env) (next : Nat) (s : Site) (n : String)
    (b : Buffer) (rest : Option Stmt) : runRest fresh env (simplifiedDecl next s n b rest)
      = if b.access = .cache then (runRest fresh env rest).withLocal n (fresh n)
        else runRest fresh env rest := by
  cases rest with
  | some body => rw [simplifiedDecl, runRest_some, run, runRest_some]
  | none =>
    rw [simplifiedDecl, runRest_none, Action.withLocal_skip]
    by_cases hCache : b.access = .cache
    · rw [if_pos hCache, if_pos hCache, runRest_none]
    · -- a visible buffer stays declared around an empty block
      rw [if_neg hCache, if_neg hCache, runRest_some, run, if_neg hCache, run]
      rfl

section rest

variable {r : Expr.Ranges} {c : Expr} {v : Int} {yes no : Option Stmt}

/-- What remains of a condition with an alternative runs what remains of one case. -/
theorem run_simplifiedBranch (hr : r.Hold env) (s : Site) (hc : c.logicalValue? env m = some v)
    (hOut : (if v = 0 then runRest fresh env no m else runRest fresh env yes m) = some out) :
    runRest fresh env (simplifiedBranch r s c yes no) m = some out := by
  have hValue := Expr.value?_of_logicalValue? hc
  cases yes with
  | none =>
    cases no with
    | none => rwa [ite_self] at hOut
    | some no =>
      obtain ⟨u, hu, hZero⟩ := Expr.value?_simplify_negation hr hc
      refine (run_guard_eq_some (s := s)).mpr ⟨u, hu, ?_⟩
      by_cases hv : v = 0
      · have hNot : u ≠ 0 := fun h => hZero.mp h hv
        rw [if_pos hv] at hOut
        rwa [if_neg hNot]
      · rw [if_neg hv] at hOut
        rwa [if_pos (hZero.mpr hv)]
  | some yes =>
    cases no with
    | none => exact (run_guard_eq_some (s := s)).mpr ⟨v, hValue, hOut⟩
    | some no => exact (run_branch_eq_some (s := s)).mpr ⟨v, hValue, hOut⟩

end rest

/-! ## Loops -/

section loop

variable {r : Expr.Ranges} {h : LoopHead} {lower upper v : Int}

/-- The values of an iterator lie in the interval that is known of it. -/
theorem mem_values (hr : r.Hold env) (hLower : h.lower.value? env m = some lower)
    (hUpper : h.upper.value? env m = some upper) (hv : v ∈ counting lower upper) :
    (h.values r).Mem v := by
  obtain ⟨hAbove, hBelow⟩ := mem_counting.mp hv
  constructor
  · intro l hl
    obtain ⟨d, hd, hl⟩ := Option.bind_eq_some_iff.mp hl
    have hLe := (Expr.Ranges.mem_of_range? hr hd hLower).lo l hl
    omega
  · intro u hu
    obtain ⟨w, hw, hu⟩ := Option.bind_eq_some_iff.mp hu
    obtain ⟨d, hd, hw⟩ := Option.bind_eq_some_iff.mp hw
    have hLe := (Expr.Ranges.mem_of_range? hr hd hUpper).hi w hw
    have hLast := (Word.sub?_eq_some.mp hu).2
    omega

theorem distance_of_extent? {n : Int} (hExtent : h.extent? = some n)
    (hLower : h.lower.value? env m = some lower) (hUpper : h.upper.value? env m = some upper) :
    upper - lower = n := by
  rw [← Expr.valueWith?_reference .blank] at hLower hUpper
  exact Expr.distance_of_constantDistance? hExtent hLower hUpper

theorem counting_of_le (h : upper ≤ lower) : counting lower upper = [] := by
  apply List.eq_nil_iff_forall_not_mem.mpr
  intro v hv
  have hRange := mem_counting.mp hv
  omega

/-- A loop that is dropped has no iterations. -/
theorem counting_of_gone (hFate : h.fate = .gone) (hLower : h.lower.value? env m = some lower)
    (hUpper : h.upper.value? env m = some upper) : counting lower upper = [] := by
  unfold LoopHead.fate at hFate
  cases hExtent : h.extent? with
  | none =>
    rw [hExtent] at hFate
    cases hFate
  | some n =>
    have hDistance := distance_of_extent? hExtent hLower hUpper
    rw [hExtent] at hFate
    dsimp only at hFate
    split at hFate
    · exact counting_of_le (by omega)
    · split at hFate <;> cases hFate

/-- A loop that gives way to its body has one iteration, and its bounds are affine. -/
theorem of_dissolved (hFate : h.fate = .dissolved) (hLower : h.lower.value? env m = some lower)
    (hUpper : h.upper.value? env m = some upper) :
    counting lower upper = [lower] ∧ ∃ f, h.lower.symbolic? = some f := by
  unfold LoopHead.fate at hFate
  cases hExtent : h.extent? with
  | none =>
    rw [hExtent] at hFate
    cases hFate
  | some n =>
    have hDistance := distance_of_extent? hExtent hLower hUpper
    rw [hExtent] at hFate
    dsimp only at hFate
    split at hFate
    · cases hFate
    · split at hFate
      · rename_i hOne
        obtain ⟨hOne, _⟩ := hOne
        refine ⟨?_, ?_⟩
        · rw [counting_cons (by omega), counting_of_le (by omega)]
        · obtain ⟨f, hf, _⟩ := Option.bind_eq_some_iff.mp hExtent
          exact ⟨f, hf⟩
      · cases hFate

end loop

/-! ## Programs -/

/-- A loop, when what remains of lower statements runs as far as they do. -/
theorem loop_extends (fresh : Memory) (next : Nat) {height : Nat} {r : Expr.Ranges} {env : Env}
    (ih : ∀ (r : Expr.Ranges) (t : Stmt) (env : Env), r.Hold env → t.Unshadowed →
      (t.runBy Expr.logicalValue? fresh env).ExtendedBy
        (runRest fresh env (simplifyTo next height r t)))
    (hr : r.Hold env) {h : LoopHead} {body : Stmt} (s : Site)
    (hClear : (Stmt.loop s h body).Unshadowed) :
    ((Stmt.loop s h body).runBy Expr.logicalValue? fresh env).ExtendedBy
      (runRest fresh env (simplifyTo next (height + 1) r (.loop s h body))) := by
  intro m out hRun
  obtain ⟨lower, upper, hLower, hUpper, hTurns⟩ := runBy_loop_eq_some.mp hRun
  obtain ⟨hBounds, hBody⟩ := unshadowed_loop.mp hClear
  let h' : LoopHead := { h with lower := h.lower.simplify r, upper := h.upper.simplify r }
  have hLower' : h'.lower.logicalValue? env m = some lower :=
    Expr.logicalValue?_simplify hr h.lower lower hLower
  have hUpper' : h'.upper.logicalValue? env m = some upper :=
    Expr.logicalValue?_simplify hr h.upper upper hUpper
  have hLowerValue := Expr.value?_of_logicalValue? hLower'
  have hUpperValue := Expr.value?_of_logicalValue? hUpper'
  cases hFate : h'.fate with
  | gone =>
    have hLeft : simplifyTo next (height + 1) r (.loop s h body) = none := by
      simp only [simplifyTo, mapOwnExprs, hFate, h']
    rw [counting_of_gone hFate hLowerValue hUpperValue] at hTurns
    rw [hLeft]
    exact hTurns
  | dissolved =>
    have hLeft : simplifyTo next (height + 1) r (.loop s h body)
        = simplifyTo next height r (body.substitute h'.iter h'.lower) := by
      simp only [simplifyTo, mapOwnExprs, hFate, h']
    obtain ⟨hOne, f, hf⟩ := of_dissolved hFate hLowerValue hUpperValue
    rw [hOne, List.map_singleton, Action.inTurn_cons, Action.inTurn_nil, Action.seq_skip] at hTurns
    -- simplifying brings in no scalars, so nothing in the body sets one of the new bound
    have hFree : ∀ y ∈ h'.lower.scalars, ¬ body.Binds y := fun y hy =>
      hBounds h.lower (by simp) y (Expr.scalars_simplify r y h.lower hy)
    have hSteady : ∀ env' m', (∀ y ∈ h'.lower.scalars, env' y = env y) →
        h'.lower.logicalValue? env' m' = some lower := by
      intro env' m' hAgree
      have hHere : h'.lower.value? env' m = h'.lower.value? env m := by
        rw [← Expr.valueWith?_reference .blank, ← Expr.valueWith?_reference .blank]
        exact Expr.valueWith?_congr_names hAgree fun _ _ => rfl
      -- an affine bound reads no buffer, so its value is the same in every memory
      rw [Expr.value?_of_symbolic? hf, hLowerValue] at hHere
      rw [Expr.logicalValue?_of_symbolic? env' m' _ f hf, hHere]
    have hSame := runBy_substitute (x := h.iter) Expr.logicalValue?_substitute fresh body env hFree
      hSteady
    rw [hLeft]
    apply ih r _ env hr (Unshadowed.substitute body hBody hFree)
    rw [hSame]
    exact hTurns
  | kept =>
    have hLeft : simplifyTo next (height + 1) r (.loop s h body)
        = (simplifyTo next height ((h'.iter, h'.values r) :: r) body).map (.loop s h') := by
      simp only [simplifyTo, mapOwnExprs, hFate, h']
    rw [hLeft]
    have hRest : Action.inTurn ((counting lower upper).map fun v =>
        runRest fresh (env.set h.iter v) (simplifyTo next height ((h'.iter, h'.values r) :: r) body))
          m = some out := by
      refine Action.ExtendedBy.inTurn (fun v hv => ?_) m out hTurns
      exact ih _ body _ (hr.cons h.iter (mem_values hr hLowerValue hUpperValue hv)) hBody
    cases hBelow : simplifyTo next height ((h'.iter, h'.values r) :: r) body with
    | none =>
      rw [hBelow] at hRest
      simp only [runRest_none, Action.inTurn_skips] at hRest
      exact hRest
    | some body' =>
      rw [hBelow] at hRest
      exact (run_loop_eq_some (s := s)).mpr ⟨lower, upper, hLowerValue, hUpperValue, hRest⟩

/-- **What remains runs further**: by induction on the height. -/
theorem simplifyTo_extends (fresh : Memory) (next : Nat) :
    ∀ (height : Nat) (r : Expr.Ranges) (t : Stmt) (env : Env), r.Hold env → t.Unshadowed →
      (t.runBy Expr.logicalValue? fresh env).ExtendedBy
        (runRest fresh env (simplifyTo next height r t)) := by
  intro height
  induction height with
  | zero =>
    intro r t env _ _
    exact runBy_extendedBy fresh (fun _ _ _ _ => Expr.value?_of_logicalValue?) t env
  | succ height ih =>
    intro r t env hr hClear
    cases t with
    | decl s n b body =>
      have hBody := ih r body env hr (unshadowed_decl.mp hClear)
      show Action.ExtendedBy _ (runRest fresh env (simplifiedDecl next s n _
        (simplifyTo next height r body)))
      rw [run_simplifiedDecl, runBy]
      split
      · exact hBody.withLocal n (fresh n)
      · exact hBody
    | loop s h body => exact loop_extends fresh next (fun r t env => ih r t env) hr s hClear
    | guard s c body =>
      intro m out hRun
      obtain ⟨v, hCond, hOut⟩ := runBy_guard_eq_some.mp hRun
      have hBody := ih r body env hr (unshadowed_guard.mp hClear)
      have hSimple := Expr.logicalValue?_simplify hr c v hCond
      show runRest fresh env (if (c.simplify r).isBool true then simplifyTo next height r body
        else if (c.simplify r).isBool false then none
        else (simplifyTo next height r body).map (.guard s (c.simplify r))) m = some out
      split
      · rename_i hTrue
        rw [Expr.value_of_isBool hTrue hSimple, if_neg (by decide)] at hOut
        exact hBody m out hOut
      · split
        · rename_i hFalse
          rw [Expr.value_of_isBool hFalse hSimple, if_pos (by decide)] at hOut
          exact hOut
        · have hRest : (if v = 0 then Action.skip m
              else runRest fresh env (simplifyTo next height r body) m) = some out := by
            split
            · rwa [if_pos ‹_›] at hOut
            · rw [if_neg ‹_›] at hOut
              exact hBody m out hOut
          cases hLeft : simplifyTo next height r body with
          | none => rwa [hLeft, runRest_none, ite_self] at hRest
          | some body' =>
            rw [hLeft] at hRest
            exact (run_guard_eq_some (s := s)).mpr ⟨v, Expr.value?_of_logicalValue? hSimple, hRest⟩
    | branch s c yes no =>
      intro m out hRun
      obtain ⟨v, hCond, hOut⟩ := runBy_branch_eq_some.mp hRun
      obtain ⟨hYes, hNo⟩ := unshadowed_branch.mp hClear
      have hSimple := Expr.logicalValue?_simplify hr c v hCond
      have hRest : (if v = 0 then runRest fresh env (simplifyTo next height r no) m
          else runRest fresh env (simplifyTo next height r yes) m) = some out := by
        split
        · rw [if_pos ‹_›] at hOut
          exact ih r no env hr hNo m out hOut
        · rw [if_neg ‹_›] at hOut
          exact ih r yes env hr hYes m out hOut
      show runRest fresh env (if (c.simplify r).isBool true then simplifyTo next height r yes
        else if (c.simplify r).isBool false then simplifyTo next height r no
        else simplifiedBranch r s (c.simplify r) (simplifyTo next height r yes)
          (simplifyTo next height r no)) m = some out
      split
      · rename_i hTrue
        rwa [Expr.value_of_isBool hTrue hSimple, if_neg (by decide)] at hRest
      · split
        · rename_i hFalse
          rwa [Expr.value_of_isBool hFalse hSimple, if_pos (by decide)] at hRest
        · exact run_simplifiedBranch hr s hSimple hRest
    | store s b is v =>
      intro m out hRun
      simp only [runBy, Option.bind_eq_bind, Option.bind_eq_some_iff] at hRun
      obtain ⟨cell, hCell, w, hw, hOut⟩ := hRun
      have hIndices := (Expr.mapM_logicalValue?.mp (Expr.mapM_logicalValue?_simplify hr hCell)).2
      have hStored := Expr.value?_of_logicalValue? (Expr.logicalValue?_simplify hr v w hw)
      show (Stmt.store s b (is.map (Expr.simplify r)) (v.simplify r)).run fresh env m = some out
      simp only [run, hIndices, hStored]
      exact hOut
    | call s f args => exact Action.stuck_extendedBy _
    | block s ts =>
      show Action.ExtendedBy _ (runRest fresh env (simplifiedBlock s
        (ts.filterMap (simplifyTo next height r))))
      have hRests : Action.inTurn ((ts.filterMap (simplifyTo next height r)).map (run fresh env))
          = Action.inTurn (ts.map fun t => runRest fresh env (simplifyTo next height r t)) := by
        induction ts with
        | nil => rfl
        | cons t ts ihTail =>
          have hTail := ihTail (unshadowed_block.mpr fun u hu =>
            unshadowed_block.mp hClear u (List.mem_cons_of_mem t hu))
          cases hLeft : simplifyTo next height r t with
          | none =>
            rw [List.filterMap_cons_none hLeft, hTail, List.map_cons, hLeft, runRest_none,
              Action.inTurn_cons, Action.skip_seq]
          | some t' =>
            rw [List.filterMap_cons_some hLeft, List.map_cons, List.map_cons, hLeft, runRest_some,
              Action.inTurn_cons, Action.inTurn_cons, hTail]
      rw [run_simplifiedBlock, hRests, runBy, runAllBy_eq_inTurn]
      exact Action.ExtendedBy.inTurn fun t ht =>
        ih r t env hr (unshadowed_block.mp hClear t ht)
    | hole s => exact Action.stuck_extendedBy _

/-- **Simplification keeps meaning**: where a program has a run, the simplified program has the same
    one: it makes the same writes in the same order. -/
theorem simplify_preserves {t : Stmt} (hClear : t.Unshadowed) {fresh : Memory} {env : Env}
    {m : Memory} {out : Memory × List Write} (hRun : t.run fresh env m = some out)
    (hLogical : t.Logical fresh env m) (next : Nat) :
    (t.simplify next).run fresh env m = some out := by
  have hRest : runRest fresh env (simplifyTo next t.size [] t) m = some out :=
    simplifyTo_extends fresh next t.size [] t env (Expr.Ranges.hold_nil env) hClear m out
      (hLogical.trans hRun)
  unfold simplify
  cases hLeft : simplifyTo next t.size [] t with
  | none => rwa [hLeft] at hRest
  | some t' => rwa [hLeft] at hRest

/-- A store below a loop with one iteration and a condition that always holds. -/
def wrapped : Stmt :=
  .loop ⟨0, none⟩ { iter := "i", lower := .int 0, upper := .var "n" }
    (.loop ⟨1, none⟩ { iter := "j", lower := .var "i", upper := .add (.var "i") (.int 1) }
      (.guard ⟨2, none⟩ (.binary .ge (.var "i") (.int 0))
        (.store ⟨3, none⟩ "y" [.var "j"] (.int 7))))

/-- The store in the outer loop. -/
def unwrapped : Stmt :=
  .loop ⟨0, none⟩ { iter := "i", lower := .int 0, upper := .var "n" }
    (.store ⟨3, none⟩ "y" [.var "i"] (.int 7))

theorem wrapped_preserved :
    wrapped.simplify 4 = unwrapped
      ∧ (wrapped.simplify 4).run .blank (fun _ => 2) .blank
        = wrapped.run .blank (fun _ => 2) .blank := by
  have hClear : wrapped.Unshadowed := by
    have hStore : (Stmt.store ⟨3, none⟩ "y" [.var "j"] (.int 7)).Unshadowed := by
      intro s h body hMem
      cases List.mem_singleton.mp hMem
    have hFree : ∀ x, ¬ (Stmt.store ⟨3, none⟩ "y" [.var "j"] (.int 7)).Binds x := by
      rintro x ⟨s, h, body, hMem, _⟩
      cases List.mem_singleton.mp hMem
    simp [wrapped, unshadowed_loop, unshadowed_guard, binds_loop, binds_guard, hStore, hFree,
      Expr.scalars, Expr.parts, Expr.scalar?]
  exact ⟨rfl, simplify_preserves hClear rfl rfl 4⟩

end Stmt

end LoopNest

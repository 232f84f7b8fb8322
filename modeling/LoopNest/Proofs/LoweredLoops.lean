import LoopNest.Lower.Pipeline
import LoopNest.Proofs.RefinedLevels
import LoopNest.Proofs.Updates

/-! # Lowering loops that may run in parallel

  Lowering checks every parallel loop again before it moves reductions to workspaces, inner loops
  before the loops around them. An outer loop is checked with the workspaces of the inner ones, so it
  can be refused although all iterations may run at the same time in the program as it was.

  * Verdicts with more refined levels are not worse (`Stmt.isSafe_succ`).
  * A workspace leaves the loops that are apart from its loop as they are
    (`Lower.Untouched.graft`), so these are checked as they were.
  * When loops that carry reductions are not inside parallel loops, the lowering of a program with
    safe loops is not refused because of a dependence (`Lower.lower_failsWith`). -/

namespace LoopNest

/-! ## Causes of failure -/

/-- When there is no result, the cause is of some kind. -/
def FailsWith {ε α : Type} (P : ε → Prop) (o : Except ε α) : Prop := ∀ c, o = .error c → P c

namespace FailsWith

variable {ε α β : Type} {P : ε → Prop}

theorem ok (a : α) : FailsWith P (.ok a) := fun _ h => nomatch h

theorem bind {o : Except ε α} {f : α → Except ε β} (ho : FailsWith P o)
    (hf : ∀ a, o = .ok a → FailsWith P (f a)) : FailsWith P (o >>= f) := by
  cases o with
  | error c =>
    intro c' h
    cases h
    exact ho c rfl
  | ok a => exact hf a rfl

theorem forM {f : α → Except ε Unit} {xs : List α} (hf : ∀ x, FailsWith P (f x)) :
    FailsWith P (xs.forM f) := by
  induction xs with
  | nil => exact .ok ()
  | cons x xs ih => exact (hf x).bind fun _ _ => ih

/-- What is asked for fails as its outcome does. -/
theorem answering {P : Rejection → Prop} {r : Request} {o : Outcome α}
    (ho : FailsWith (fun c => P ⟨c, r⟩) o) : FailsWith P (answering r o) := by
  cases o with
  | error c =>
    intro c' h
    cases h
    exact ho c rfl
  | ok a => exact .ok a

end FailsWith

/-! ## Verdicts with other levels -/

namespace Nest

variable {l : Level} {k k' : Nat}

/-- One level is refined wholly or not at all. -/
theorem vectors_alone (p : Pair) (h : p.common ≤ 1) :
    (⟨[l], k + 1⟩ : Nest).vectors p = (⟨[l], k' + 1⟩ : Nest).vectors p := by
  have hLength : ((⟨[l], k⟩ : Nest).forcedEqual p).length ≤ 1 :=
    Nat.le_trans (length_forcedEqual_le p) h
  have hTake : ∀ j, ((⟨[l], k⟩ : Nest).forcedEqual p).take (j + 1)
      = (⟨[l], k⟩ : Nest).forcedEqual p := fun j =>
    List.take_of_length_le (Nat.le_trans hLength (Nat.le_add_left 1 j))
  calc (⟨[l], k + 1⟩ : Nest).vectors p
      = (⟨[l], k + 1⟩ : Nest).refine p [] ((⟨[l], k⟩ : Nest).forcedEqual p) :=
        congrArg _ (hTake k)
    _ = (⟨[l], k' + 1⟩ : Nest).refine p [] ((⟨[l], k⟩ : Nest).forcedEqual p) :=
        refine_levels p _ _
    _ = (⟨[l], k' + 1⟩ : Nest).vectors p := congrArg _ (hTake k').symm

theorem among_alone (as : List Access) :
    (⟨[l], k + 1⟩ : Nest).among as = (⟨[l], k' + 1⟩ : Nest).among as := by
  induction as with
  | nil => rfl
  | cons x rest ih =>
    rw [among, among, ih]
    congr 1
    refine List.flatMap_congr fun y _ => ?_
    exact congrArg (List.filterMap _) (vectors_alone _ (List.takeWhile_prefix _).length_le)

end Nest

/-- When the iterations of a loop may run at the same time, they may when any number of levels but
    none is refined. -/
theorem Stmt.isSafe_succ {lp : Stmt} {k : Nat} (h : (lp.parallelVerdict k).isSafe = true)
    (k' : Nat) : (lp.parallelVerdict (k' + 1)).isSafe = true := by
  cases k with
  | zero => exact isSafe_mono (Nat.zero_le _) h
  | succ k =>
    have hSame : lp.carriedDependences (k' + 1) = lp.carriedDependences (k + 1) :=
      congrArg _ (Nest.among_alone lp.accesses)
    unfold parallelVerdict at h ⊢
    rwa [hSame]

namespace Lower

open Restructure (Draft)
open Stmt (LabelledLoop)

/-! ## Numbers in workspaces -/

theorem ids_loopsAround (next : Nat) (t : Stmt) (axes : List (String × Expr)) :
    next ≤ (loopsAround next t axes).2
      ∧ ∀ i ∈ (loopsAround next t axes).1.ids, i ∈ t.ids ∨ next ≤ i := by
  induction axes with
  | nil => exact ⟨Nat.le_refl _, fun i hi => .inl hi⟩
  | cons axis rest ih =>
    obtain ⟨hNext, hIds⟩ := ih
    rw [loopsAround]
    refine ⟨Nat.le_succ_of_le hNext, fun i hi => ?_⟩
    rw [Stmt.ids_eq_cons, List.mem_cons] at hi
    rcases hi with rfl | hi
    · exact .inr hNext
    · exact hIds i (by simpa [Stmt.children] using hi)

theorem ids_fillNest {next : Nat} {axes : List (String × Expr)} {b : String} {is : List Expr}
    {v : Expr} : next ≤ (fillNest next axes b is v).2
      ∧ ∀ i ∈ (fillNest next axes b is v).1.ids, next ≤ i := by
  obtain ⟨hNext, hIds⟩ := ids_loopsAround (next + 1) (.store ⟨next, none⟩ b is v) axes
  refine ⟨Nat.le_of_succ_le hNext, fun i hi => ?_⟩
  rcases hIds i hi with hi | hi
  · simp [Stmt.ids, Stmt.id, Stmt.site] at hi
    omega
  · omega

theorem id_redirectStore (b space : String) (op : ReduceOp) (row : Expr) (t : Stmt) :
    (redirectStore b space op row t).id = t.id := by
  unfold redirectStore
  split
  · split
    · split <;> rfl
    · rfl
  · rfl

theorem children_redirectStore (b space : String) (op : ReduceOp) (row : Expr) (t : Stmt) :
    (redirectStore b space op row t).children = t.children := by
  unfold redirectStore
  split
  · split
    · split <;> rfl
    · rfl
  · rfl

/-- Redirected stores keep their numbers. -/
theorem ids_redirect (b space : String) (op : ReduceOp) (row : Expr) :
    ∀ t : Stmt, (t.bottomUp (redirectStore b space op row)).ids = t.ids := by
  refine Stmt.children_ind fun t ih => ?_
  rw [Stmt.bottomUp_eq, Stmt.ids_eq_cons, Stmt.ids_eq_cons t, id_redirectStore,
    children_redirectStore, Stmt.id_mapChildren, Stmt.children_mapChildren, List.flatMap_map]
  exact congrArg _ (List.flatMap_congr ih)

/-! ## The parts of a workspace -/

namespace Job

variable (j : Job) (n : JobNames)

/-- The row of an iteration. -/
def row : Expr := (Expr.var j.loop.head.iter).minus j.loop.head.lower

/-- How many rows there are. -/
def rows : Expr := j.loop.head.upper.minus j.loop.head.lower

/-- The body with its reductions moved to the row. -/
def moved : Stmt := j.loop.body.bottomUp (redirectStore j.buffer n.space j.op j.row)

/-- The loops that fill a row. -/
def fill (next : Nat) : Stmt × Nat :=
  fillNest next (n.fillIters.zip j.host.shape) n.space (j.row :: n.fillIters.map .var) j.neutral

/-- The loops that combine a row with the buffer. -/
def fold (next : Nat) : Stmt × Nat :=
  let cells := n.foldIters.map Expr.var
  fillNest next (n.foldIters.zip j.host.shape) j.buffer cells
    (j.op.combine (.load j.buffer cells) (.load n.space (.var n.rowIter :: cells)))

/-- The loop that fills its row in every iteration. -/
def filling (next : Nat) : Stmt :=
  .loop j.loop.site j.loop.head (.block ⟨(j.fill n next).2, none⟩ [(j.fill n next).1, j.moved n])

/-- The loop that combines all rows. -/
def combining (next : Nat) : Stmt :=
  .loop ⟨(j.fold n next).2, none⟩ { iter := n.rowIter, lower := .int 0, upper := j.rows }
    (j.fold n next).1

theorem stmt_eq (space : MemSpace) (next : Nat) :
    j.stmt n space next =
      let later := (j.fill n next).2 + 1
      let last := (j.fold n later).2
      (.decl ⟨last + 2, none⟩ n.space ⟨j.rows :: j.host.shape, j.host.elem, .cache, space⟩
        (.block ⟨last + 1, none⟩ [j.filling n next, j.combining n later]), last + 3) := rfl

/-- **Numbers of a workspace**: what is not in the loop is new. -/
theorem ids_stmt (space : MemSpace) (next : Nat) :
    next ≤ (j.stmt n space next).2
      ∧ ∀ i ∈ (j.stmt n space next).1.ids, i ∈ j.loop.stmt.ids ∨ next ≤ i := by
  obtain ⟨hFill, hFillIds⟩ : next ≤ (j.fill n next).2 ∧ ∀ i ∈ (j.fill n next).1.ids, next ≤ i :=
    ids_fillNest
  rw [stmt_eq]
  dsimp only
  generalize hLater : (j.fill n next).2 + 1 = later
  obtain ⟨hFold, hFoldIds⟩ : later ≤ (j.fold n later).2 ∧ ∀ i ∈ (j.fold n later).1.ids, later ≤ i :=
    ids_fillNest
  refine ⟨by omega, fun i hi => ?_⟩
  have hLoop : ∀ i ∈ (j.filling n next).ids, i ∈ j.loop.stmt.ids ∨ next ≤ i := by
    intro i hi
    have hMoved : (j.moved n).ids = j.loop.body.ids := ids_redirect ..
    simp only [filling, Stmt.ids_eq_cons (.loop ..), Stmt.ids_eq_cons (.block ..), Stmt.children,
      List.flatMap_cons, List.flatMap_nil, List.append_nil, List.mem_cons, List.mem_append,
      hMoved] at hi
    rw [LabelledLoop.stmt, Stmt.ids_eq_cons, List.mem_cons]
    rcases hi with rfl | rfl | hi | hi
    · exact .inl (.inl rfl)
    · exact .inr hFill
    · exact .inr (hFillIds i hi)
    · exact .inl (.inr (by simpa [Stmt.children] using hi))
  have hCombining : ∀ i ∈ (j.combining n later).ids, later ≤ i := by
    intro i hi
    simp only [combining, Stmt.ids_eq_cons (.loop ..), Stmt.children, List.flatMap_cons,
      List.flatMap_nil, List.append_nil, List.mem_cons] at hi
    rcases hi with rfl | hi
    · exact hFold
    · exact hFoldIds i hi
  simp only [Stmt.ids_eq_cons (.decl ..), Stmt.ids_eq_cons (.block ..), Stmt.children,
    List.flatMap_cons, List.flatMap_nil, List.append_nil, List.mem_cons, List.mem_append] at hi
  rcases hi with rfl | rfl | hi | hi
  · exact .inr (show next ≤ _ + 2 by omega)
  · exact .inr (show next ≤ _ + 1 by omega)
  · exact hLoop i hi
  · exact .inr (by have := hCombining i hi; omega)

end Job

/-! ## Loops that are left alone -/

/-- A loop for whose reductions lowering makes workspaces. -/
def Reduces (lp : Stmt) : Prop := lp.parallelVerdict defaultLevels ≠ .safe []

/-- What a lowering has left of a program when the loops numbered in a list are still to come.

    * **found**: these loops are as they were;
    * **old**: their numbers were used from the beginning;
    * **apart**: loops that carry reductions lie apart from the loops that come after them. -/
structure Untouched (t : Stmt) (rest : List Nat) (d : Draft) : Prop where
  found : ∀ q ∈ rest, d.tree.find? q = t.find? q
  old : ∀ q ∈ rest, q < d.next
  apart : rest.Pairwise fun p q => (∃ lp, t.find? p = some lp ∧ Reduces lp) → d.tree.Separate p q

section untouched

variable {t : Stmt} {p : Nat} {rest : List Nat} {d : Draft}

/-- **Workspaces are made beside**: what is put in the place of a statement leaves the loops alone
    that lie apart from it, and these stay apart. -/
theorem Untouched.graft (h : Untouched t rest d) (hSeparate : ∀ q ∈ rest, d.tree.Separate p q) {u : Stmt}
    {next : Nat} (hNext : d.next ≤ next) {lp : Stmt} (hLoop : d.tree.find? p = some lp)
    (hIds : ∀ i ∈ u.ids, i ∈ lp.ids ∨ d.next ≤ i) :
    Untouched t rest ⟨d.tree.update p fun _ => u, next⟩
      ∧ ∀ q ∈ rest, (d.tree.update p fun _ => u).Separate p q := by
  have hNew : ∀ q ∈ rest, q ∉ u.ids := by
    intro q hq hMem
    obtain ⟨hMemLoop, hId⟩ := Stmt.mem_of_find? hLoop
    have hOld := h.old q hq
    rcases hIds q hMem with hBelow | hLarge
    · exact ((hSeparate q hq) lp hMemLoop).1 hId hBelow
    · omega
  refine ⟨⟨fun q hq => ?_, fun q hq => ?_, ?_⟩, fun q hq => ?_⟩
  · rw [← h.found q hq]
    exact Stmt.find?_update (hNew q hq) d.tree (hSeparate q hq)
  · exact Nat.lt_of_lt_of_le (h.old q hq) hNext
  · apply h.apart.imp_of_mem
    intro p' q _ hq hOther hReduces
    exact (hSeparate q hq).update (hOther hReduces) (hNew q hq)
  · exact (hSeparate q hq).update (hSeparate q hq) (hNew q hq)

/-- A cause other than a dependence. -/
def Undisputed (c : Cause) : Prop := c.kind ≠ .unsolvableDependency

theorem loopNumbered?_eq_some {d : Draft} {id : Nat} {l : LabelledLoop}
    (h : loopNumbered? d id = some l) : d.tree.find? id = some l.stmt := by
  unfold loopNumbered? at h
  split at h
  · rename_i hFound
    cases h
    exact hFound
  · cases h

theorem Job.of_failsWith (host : Option Buffer) (l : LabelledLoop) (b : String) (op : ReduceOp) :
    FailsWith Undisputed (Job.of host l b op) := by
  unfold Job.of
  intro c h
  split at h
  · cases h
    simp [Undisputed, Cause.kind]
  · split at h
    · cases h
      simp [Undisputed, Cause.kind]
    · split at h
      · cases h
        simp [Undisputed, Cause.kind]
      · cases h

theorem Job.loop_of {host : Option Buffer} {l : LabelledLoop} {b : String} {op : ReduceOp} {j : Job}
    (h : Job.of host l b op = .ok j) : j.loop = l := by
  unfold Job.of at h
  split at h
  · cases h
  · split at h
    · cases h
    · split at h
      · cases h
      · cases h
        rfl

/-- Moving the reductions of one loop leaves the others alone. -/
theorem moveReductions_untouched (space : MemSpace) :
    ∀ (reductions : List (String × ReduceOp)) (seen : List String) (k : Nat) (s : State Draft),
      Untouched t rest s.piece → (∀ q ∈ rest, s.piece.tree.Separate p q) →
        FailsWith Undisputed (moveReductions space p seen k s reductions)
          ∧ ∀ s', moveReductions space p seen k s reductions = .ok s' →
            Untouched t rest s'.piece := by
  intro reductions
  induction reductions with
  | nil =>
    intro seen k s h _
    refine ⟨.ok s, fun s' hEq => ?_⟩
    cases hEq
    exact h
  | cons r reductions ih =>
    intro seen k s h hSeparate
    obtain ⟨b, op⟩ := r
    rw [moveReductions]
    split
    · exact ih seen k s h hSeparate
    · cases hLoop : loopNumbered? s.piece p with
      | none =>
        refine ⟨.ok s, fun s' hEq => ?_⟩
        cases hEq
        exact h
      | some l =>
        dsimp only
        -- one workspace, then those for the other buffers
        have hStep : ∀ j, Job.of (Restructure.Workpiece.bufferAt? s.piece b p) l b op = .ok j →
            let n := j.names k s.supply
            let u := j.stmt n.1 space s.piece.next
            Untouched t rest (Restructure.Workpiece.graft s.piece p u.1 u.2)
              ∧ ∀ q ∈ rest, (Restructure.Workpiece.graft s.piece p u.1 u.2).tree.Separate p q := by
          intro j hJob
          obtain ⟨hNext, hIds⟩ := j.ids_stmt (j.names k s.supply).1 space s.piece.next
          rw [Job.loop_of hJob] at hIds
          exact h.graft hSeparate hNext (loopNumbered?_eq_some hLoop) hIds
        constructor
        · refine (Job.of_failsWith _ _ _ _).bind fun j hJob => ?_
          obtain ⟨hNow, hThen⟩ := hStep j hJob
          exact (ih _ _ ⟨_, _, _⟩ hNow hThen).1
        · intro s' hEq
          obtain ⟨j, hJob, hEq⟩ := Outcome.bind_eq_ok.mp hEq
          obtain ⟨hNow, hThen⟩ := hStep j hJob
          exact (ih _ _ ⟨_, _, _⟩ hNow hThen).2 s' hEq

end untouched

/-! ## Programs with safe loops -/

theorem Untouched.tail {t : Stmt} {p : Nat} {rest : List Nat} {d : Draft}
    (h : Untouched t (p :: rest) d) : Untouched t rest d where
  found q hq := h.found q (List.mem_cons_of_mem p hq)
  old q hq := h.old q (List.mem_cons_of_mem p hq)
  apart := (List.pairwise_cons.mp h.apart).2

/-- **One loop**: lowering a loop that is as it was is not refused because of a dependence when the
    loop was safe, and leaves alone the loops that come after it. -/
theorem lowerLoop_untouched {t : Stmt} {p : Nat} {rest : List Nat} {s : State Draft}
    (h : Untouched t (p :: rest) s.piece)
    (hSafe : ∀ lp, t.find? p = some lp → (lp.parallelVerdict defaultLevels).isSafe = true)
    (target : Target) (move : Bool) :
    FailsWith Undisputed (lowerLoop target move s p)
      ∧ ∀ s', lowerLoop target move s p = .ok s' → Untouched t rest s'.piece := by
  have hStay : FailsWith Undisputed (.ok s : Outcome (State Draft))
      ∧ ∀ s', (.ok s : Outcome (State Draft)) = .ok s' → Untouched t rest s'.piece := by
    refine ⟨.ok s, fun s' hEq => ?_⟩
    cases hEq
    exact h.tail
  unfold lowerLoop
  cases hLoop : loopNumbered? s.piece p with
  | none => exact hStay
  | some l =>
    have hFound : t.find? p = some l.stmt := by
      rw [← h.found p List.mem_cons_self]
      exact loopNumbered?_eq_some hLoop
    have hVerdict := hSafe l.stmt hFound
    dsimp only
    cases hReductions : l.stmt.parallelVerdict defaultLevels with
    | blocked e =>
      rw [hReductions] at hVerdict
      cases hVerdict
    | safe reductions =>
      dsimp only
      split
      · cases reductions with
        | nil => exact hStay
        | cons r reductions =>
          have hReduces : Reduces l.stmt := by
            unfold Reduces
            rw [hReductions]
            exact fun hEq => nomatch hEq
          exact moveReductions_untouched target.space _ [] 0 s h.tail fun q hq =>
            (List.pairwise_cons.mp h.apart).1 q hq ⟨l.stmt, hFound, hReduces⟩
      · exact hStay

/-- **All loops**: by induction on the loops that are still to come. -/
theorem foldlM_lowerLoop_failsWith {t : Stmt} (target : Target) (move : Bool) :
    ∀ (rest : List Nat) (s : State Draft), Untouched t rest s.piece →
      (∀ p ∈ rest, ∀ lp, t.find? p = some lp → (lp.parallelVerdict defaultLevels).isSafe = true) →
        FailsWith Undisputed (rest.foldlM (lowerLoop target move) s) := by
  intro rest
  induction rest with
  | nil => exact fun s _ _ => .ok s
  | cons p rest ih =>
    intro s h hSafe
    obtain ⟨hFails, hNext⟩ := lowerLoop_untouched h (hSafe p List.mem_cons_self) target move
    rw [List.foldlM_cons]
    exact hFails.bind fun s' hEq =>
      ih s' (hNext s' hEq) fun q hq => hSafe q (List.mem_cons_of_mem p hq)

/-- Loops that carry reductions are not inside parallel loops. -/
def Unnested (t : Stmt) : Prop :=
  ∀ outer ∈ t.nodes, outer.isParallelLoop = true → ∀ inner ∈ outer.inside,
    inner.isParallelLoop = true → ¬ Reduces inner

/-- Nothing of a program has been touched at the beginning. -/
theorem untouched_number {t : Stmt} (h : Unnested t.number) :
    Untouched t.number ((t.number.nodes.filter Stmt.isParallelLoop).map Stmt.id).reverse
      (.of t.number) := by
  have hIds := Stmt.nodup_ids_number t
  refine ⟨fun _ _ => rfl, fun q hq => ?_, ?_⟩
  · obtain ⟨u, hu, rfl⟩ := List.mem_map.mp (List.mem_reverse.mp hq)
    exact Stmt.lt_size_number _ (List.mem_map_of_mem (List.mem_filter.mp hu).1)
  · rw [List.pairwise_reverse, List.pairwise_map]
    refine ((Stmt.pairwise_nodes t.number hIds).filter _).imp_of_mem ?_
    intro u v hu hv hNot hReduces
    obtain ⟨huMem, huParallel⟩ := List.mem_filter.mp hu
    obtain ⟨hvMem, hvParallel⟩ := List.mem_filter.mp hv
    obtain ⟨lp, hFound, hReduces⟩ := hReduces
    rw [Stmt.find?_of_mem hIds hvMem, Option.some.injEq] at hFound
    subst hFound
    refine .of_nodup hIds hvMem huMem (fun hBelow => ?_) hNot
    rw [Stmt.nodes_eq_cons, List.mem_cons] at hBelow
    rcases hBelow with rfl | hBelow
    · exact hNot (Stmt.self_mem_nodes v)
    · exact h u huMem huParallel v hBelow hvParallel hReduces

/-- **Safe loops are lowered**: when the iterations of every parallel loop may run at the same time
    and loops that carry reductions are not inside parallel loops, a program without calls is not
    refused because of a dependence. -/
theorem lower_failsWith {t : Stmt} (hCalls : t.number.calls = [])
    (hSafe : ∀ lp ∈ t.number.nodes, lp.isParallelLoop = true →
      ∃ maxLevels, (lp.parallelVerdict maxLevels).isSafe = true)
    (hUnnested : Unnested t.number) (target : Target) (registry : Registry) (steps : Steps) :
    FailsWith (fun r => r.kind ≠ .unsolvableDependency) (lower target registry steps t.number) := by
  have hExpand : Restructure.expandAll registry (Draft.of t.number) = .ok (.of t.number, 0) := by
    unfold Restructure.expandAll
    rw [show Restructure.Workpiece.tree (Draft.of t.number) = t.number from rfl, hCalls]
    rfl
  have hTags : ∀ u, FailsWith Undisputed (checkTag target u) := by
    intro u c hc
    unfold checkTag at hc
    split at hc
    · cases hc
    · split at hc
      · cases hc
      · split at hc
        · cases hc
        · cases hc
          simp [Undisputed, Cause.kind]
  have hReductions : FailsWith Undisputed (lowerReductions target steps.workspaces
      (Draft.of t.number)) := by
    refine FailsWith.bind (foldlM_lowerLoop_failsWith target _ _ _ (untouched_number hUnnested) ?_)
      fun s _ => .ok _
    intro p hp lp hFound
    obtain ⟨u, hu, rfl⟩ := List.mem_map.mp (List.mem_reverse.mp hp)
    obtain ⟨hMem, hParallel⟩ := List.mem_filter.mp hu
    rw [Stmt.find?_of_mem (Stmt.nodup_ids_number t) hMem, Option.some.injEq] at hFound
    subst hFound
    obtain ⟨maxLevels, hVerdict⟩ := hSafe u hMem hParallel
    exact Stmt.isSafe_succ hVerdict 7
  unfold lower
  dsimp only
  rw [hExpand]
  split
  all_goals
    -- the calls are expanded already
    refine FailsWith.bind (.ok (Draft.of t.number)) fun d hd => ?_
    cases hd
    refine (FailsWith.answering (.forM hTags)).bind fun _ _ => ?_
    refine (FailsWith.answering hReductions).bind fun r _ => ?_
    split
    · exact .ok _
    · intro r hr
      cases hr
      simp [Rejection.kind, Cause.kind]

/-- The head of a parallel loop from 0 on. -/
def parallelHead (iter : String) (upper : Int) : LoopHead :=
  { iter, lower := .int 0, upper := .int upper, mode := .parallel "openmp" }

/-- A declaration of a vector. -/
def vector (id : Nat) (name : String) (access : AccessClass) (body : Stmt) : Stmt :=
  .decl ⟨id, none⟩ name ⟨[.int 4], .int32, access, .cpu⟩ body

/-- The sums of the rows of a table, each computed by a parallel loop. -/
def rowSums (label iter : String) (id : Nat) : Stmt :=
  .loop ⟨id, some label⟩ (parallelHead iter 8)
    (.store ⟨id + 1, none⟩ "y" [.var "i"]
      (.add (.load "y" [.var "i"]) (.load "x" [.var "i", .var iter])))

/-- Two parallel loops that carry reductions, one after the other in a sequential loop. -/
def sumsInTurn : Stmt :=
  vector 0 "y" .inout
    (.loop ⟨1, some "L1"⟩ { iter := "i", lower := .int 0, upper := .int 4 }
      (.block ⟨2, none⟩ [rowSums "L2" "j" 3, rowSums "L3" "k" 5]))

theorem sumsInTurn_lowered :
    (sumsInTurn.number.nodes.filter Stmt.isParallelLoop).map (Stmt.parallelVerdict defaultLevels)
        = [.safe [("y", .add)], .safe [("y", .add)]]
      ∧ FailsWith (fun r => r.kind ≠ .unsolvableDependency)
          (lower .cpu {} {} sumsInTurn.number) := by
  have hSafe : ∀ lp ∈ sumsInTurn.number.nodes, lp.isParallelLoop = true →
      (lp.parallelVerdict defaultLevels).isSafe = true := by decide +kernel
  have hUnnested : Unnested sumsInTurn.number := by
    have hNone : ∀ outer ∈ sumsInTurn.number.nodes, outer.isParallelLoop = true →
        ∀ inner ∈ outer.inside, ¬ inner.isParallelLoop = true := by decide +kernel
    exact fun outer hOuter hParallel inner hInner h =>
      absurd h (hNone outer hOuter hParallel inner hInner)
  exact ⟨by decide +kernel, lower_failsWith rfl (fun lp hMem hParallel =>
    ⟨defaultLevels, hSafe lp hMem hParallel⟩) hUnnested .cpu {} {}⟩

/-- A parallel loop that computes the sum of a row with a parallel loop and then stores it once
    more. -/
def nestedSums : Stmt :=
  vector 0 "y" .inout (vector 1 "z" .output
    (.loop ⟨2, some "L1"⟩ (parallelHead "i" 4)
      (.block ⟨3, none⟩ [rowSums "L2" "j" 4, .store ⟨6, none⟩ "z" [.var "i"] (.load "y" [.var "i"])])))

/-- The inner loop carries a reduction, and lowering refuses the outer one: the loop that combines the
    rows of the workspace runs over all of `y` in every iteration of the outer loop, which reads
    `y[i]`. -/
theorem nestedSums_refused :
    nestedSums.number.calls = []
      ∧ (nestedSums.number.nodes.filter Stmt.isParallelLoop).map
          (Stmt.parallelVerdict defaultLevels) = [.safe [], .safe [("y", .add)]]
      ∧ nestedSums.number.loops.forM (checkTag .cpu) = .ok ()
      ∧ ((nestedSums.number.bufferAt? "y" 4).map Buffer.elem) = some .int32
      ∧ (∀ u ∈ nestedSums.number.nodes, assigns "y" .add u = false)
      ∧ ∃ r, lower .cpu {} {} nestedSums.number = .error r ∧ r.kind = .unsolvableDependency := by
  have hRefused : (match lower .cpu {} {} nestedSums.number with
      | .error r => r.kind == .unsolvableDependency
      | .ok _ => false) = true := by decide +kernel
  refine ⟨rfl, by decide +kernel, rfl, by decide +kernel, by decide +kernel, ?_⟩
  cases hLower : lower .cpu {} {} nestedSums.number with
  | ok t =>
    rw [hLower] at hRefused
    cases hRefused
  | error r =>
    rw [hLower] at hRefused
    exact ⟨r, rfl, by simpa using hRefused⟩

end Lower

end LoopNest

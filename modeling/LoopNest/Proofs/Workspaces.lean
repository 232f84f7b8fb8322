import LoopNest.Proofs.CollectingRows

/-! # Loops with a workspace

  A loop nest over a shape does its statement for every cell of the shape
  (`Lower.staysWithin_loopsAround`). So one nest fills a row of a workspace, and another one combines
  a row with the buffer.

  The loop with its workspace leaves the memory that the loop leaves
  (`Lower.Job.staysWithin_stmt`). Iteration by iteration, the row has collected the operands that the
  iteration combines with the buffer, and the buffer gets them when the row is combined with it
  (`Lower.exists_phases`). -/

namespace LoopNest

/-! ## Cells of a shape -/

/-- The cells of a shape, in the order in which a loop nest comes to them. -/
def cellsOf : List Int → List (List Int)
  | [] => [[]]
  | n :: ns => (counting 0 n).flatMap fun i => (cellsOf ns).map (i :: ·)

theorem mem_cellsOf {ns : List Int} :
    ∀ {cell : List Int}, cell ∈ cellsOf ns ↔ List.Forall₂ (fun i n => 0 ≤ i ∧ i < n) cell ns := by
  induction ns with
  | nil => simp [cellsOf]
  | cons n ns ih =>
    intro cell
    simp only [cellsOf, List.mem_flatMap, List.mem_map, mem_counting]
    constructor
    · rintro ⟨i, hi, rest, hRest, rfl⟩
      exact .cons hi (ih.mp hRest)
    · intro h
      cases h with
      | cons hi hRest => exact ⟨_, hi, _, ih.mpr hRest, rfl⟩

theorem length_of_mem_cellsOf {ns cell : List Int} (h : cell ∈ cellsOf ns) :
    cell.length = ns.length := (mem_cellsOf.mp h).length_eq

theorem nodup_cellsOf (ns : List Int) : (cellsOf ns).Nodup := by
  induction ns with
  | nil => simp [cellsOf]
  | cons n ns ih =>
    rw [cellsOf, List.nodup_flatMap]
    refine ⟨fun i _ => ih.map fun _ _ h => (List.cons_eq_cons.mp h).2, nodup_counting.imp ?_⟩
    intro i j hne cell hi hj
    obtain ⟨_, _, rfl⟩ := List.mem_map.mp hi
    obtain ⟨_, _, hEq⟩ := List.mem_map.mp hj
    exact hne (List.cons_eq_cons.mp hEq).1.symm

theorem Expr.length_of_valuesWith? {c : Conventions} {env : Env} {m : Memory} {es : List Expr} :
    ∀ {vs : List Int}, Expr.valuesWith? c env m es = some vs → vs.length = es.length := by
  induction es with
  | nil =>
    intro vs h
    rw [← Option.some.inj h]
    rfl
  | cons e es ih =>
    intro vs h
    simp only [Expr.valuesWith?, Option.bind_eq_bind, Option.bind_eq_some_iff, Option.pure_def,
      Option.some.injEq] at h
    obtain ⟨v, _, rest, hRest, rfl⟩ := h
    rw [List.length_cons, List.length_cons, ih hRest]

/-- The environment with the values of several scalars. -/
def Env.setAll : Env → List String → List Int → Env
  | env, x :: xs, v :: vs => Env.setAll (env.set x v) xs vs
  | env, _, _ => env

namespace Env

theorem setAll_of_not_mem {x : String} :
    ∀ (xs : List String) (vs : List Int) (env : Env), x ∉ xs → env.setAll xs vs x = env x := by
  intro xs
  induction xs with
  | nil => exact fun _ _ _ => rfl
  | cons y xs ih =>
    intro vs env hx
    rw [List.mem_cons, not_or] at hx
    cases vs with
    | nil => rfl
    | cons v vs => rw [setAll, ih vs _ hx.2, set_ne hx.1]

/-- Scalars that are set have these values. -/
theorem values_setAll {c : Conventions} {m : Memory} :
    ∀ (xs : List String) (vs : List Int) (env : Env), xs.Nodup → xs.length = vs.length →
      Expr.valuesWith? c (env.setAll xs vs) m (xs.map .var) = some vs := by
  intro xs
  induction xs with
  | nil =>
    intro vs env _ hLength
    rw [List.eq_nil_of_length_eq_zero hLength.symm]
    rfl
  | cons x xs ih =>
    intro vs env hNodup hLength
    obtain ⟨hx, hRest⟩ := List.nodup_cons.mp hNodup
    cases vs with
    | nil => cases hLength
    | cons v vs =>
      rw [List.map_cons, Expr.valuesWith?, setAll, ih vs _ hRest (Nat.succ.inj hLength),
        Expr.valueWith?, setAll_of_not_mem xs vs _ hx, set_self]
      rfl

end Env

/-! ## Effects in turn -/

namespace Effect

theorem inTurn_flatMap {α : Type} {f : α → List Effect} {xs : List α} {m m' : Memory}
    (h : inTurn (xs.flatMap f) m m') : inTurn (xs.map fun x => inTurn (f x)) m m' := by
  induction xs generalizing m with
  | nil => exact h
  | cons x xs ih =>
    rw [List.flatMap_cons, Stmt.inTurn_append] at h
    obtain ⟨between, hHead, hTail⟩ := h
    exact ⟨between, hHead, ih hTail⟩

/-- **Different cells**: when every effect puts a number into a cell of its own, and does not depend
    on the other cells of the buffer, all these numbers are there afterwards. -/
theorem exists_puts {α : Type} {b : String} {f : α → List Int} {w : α → Int} {E : α → Effect}
    {xs : List α} (hCells : (xs.map f).Nodup) {m : Memory}
    (h : ∀ x ∈ xs, ∀ z : Memory, (∀ b', b' ≠ b → z b' = m b') → z b (f x) = m b (f x) →
      E x z (z.put b (f x) (w x))) :
    ∃ m', inTurn (xs.map E) m m' ∧ (∀ b', b' ≠ b → m' b' = m b')
      ∧ (∀ x ∈ xs, m' b (f x) = some (w x)) ∧ ∀ cell, cell ∉ xs.map f → m' b cell = m b cell := by
  induction xs generalizing m with
  | nil => exact ⟨m, rfl, fun _ _ => rfl, by simp, fun _ _ => rfl⟩
  | cons x xs ih =>
    rw [List.map_cons, List.nodup_cons] at hCells
    obtain ⟨hNew, hRest⟩ := hCells
    obtain ⟨m', hRun, hBeside, hThere, hOther⟩ := ih hRest (m := m.put b (f x) (w x)) (by
      intro x' hx' z hz hCell
      refine h x' (List.mem_cons_of_mem x hx') z (fun b' hb' => ?_) ?_
      · rw [hz b' hb', Memory.put_ne_buffer hb']
      · rw [hCell, Memory.put_ne_indices]
        intro hEq
        exact hNew (hEq ▸ List.mem_map_of_mem hx'))
    refine ⟨m', ⟨_, h x List.mem_cons_self m (fun _ _ => rfl) rfl, hRun⟩, fun b' hb' => ?_,
      fun x' hx' => ?_, fun cell hCell => ?_⟩
    · rw [hBeside b' hb', Memory.put_ne_buffer hb']
    · rcases List.mem_cons.mp hx' with rfl | hx'
      · rw [hOther _ hNew, Memory.put_self]
      · exact hThere x' hx'
    · rw [List.map_cons, List.mem_cons, not_or] at hCell
      rw [hOther cell hCell.2, Memory.put_ne_indices hCell.1]

end Effect

namespace Lower

open Stmt (LabelledLoop)

variable {own : List String} {c : Conventions} {limits : Limits} {env : Env}

/-! ## Nests over a shape -/

/-- Iterators that run over a shape.

    * **values**: the shape has extents;
    * **fresh**: the iterators are different, and not used by the shape. -/
structure Spans (c : Conventions) (env : Env) (iters : List String) (shape : List Expr)
    (extents : List Int) : Prop where
  values : Expr.valuesWith? c env .blank shape = some extents
  length : iters.length = shape.length
  nodup : iters.Nodup
  fresh : ∀ e ∈ shape, ∀ x ∈ e.scalars, x ∉ iters

namespace Spans

variable {iters : List String} {shape : List Expr} {extents : List Int}

/-- Other scalars do not matter. -/
theorem set (h : Spans c env iters shape extents) {x : String}
    (hx : ∀ e ∈ shape, x ∉ e.scalars) (v : Int) : Spans c (env.set x v) iters shape extents where
  values := by
    rw [← h.values]
    refine Expr.valuesWith?_congr fun e he => ?_
    refine Expr.valueWith?_congr_names (fun x' hx' => Env.set_ne ?_) fun _ _ => rfl
    rintro rfl
    exact hx e he hx'
  length := h.length
  nodup := h.nodup
  fresh := h.fresh

/-- Without the first axis. -/
theorem tail {iter : String} {e : Expr} {n : Int}
    (h : Spans c env (iter :: iters) (e :: shape) (n :: extents)) :
    e.valueWith? c env .blank = some n ∧ ∀ v, Spans c (env.set iter v) iters shape extents := by
  have hValues := h.values
  simp only [Expr.valuesWith?, Option.bind_eq_bind, Option.bind_eq_some_iff, Option.pure_def,
    Option.some.injEq, List.cons.injEq] at hValues
  obtain ⟨n', hHead, ns, hTail, rfl, rfl⟩ := hValues
  have hRest : Spans c env iters shape ns := ⟨hTail, Nat.succ.inj h.length, h.nodup.of_cons,
    fun e' he' x hx hMem =>
      h.fresh e' (List.mem_cons_of_mem e he') x hx (List.mem_cons_of_mem iter hMem)⟩
  refine ⟨hHead, hRest.set fun e' he' hx => ?_⟩
  exact h.fresh e' (List.mem_cons_of_mem e he') iter hx List.mem_cons_self

theorem length_extents (h : Spans c env iters shape extents) : iters.length = extents.length :=
  h.length.trans (Expr.length_of_valuesWith? h.values).symm

end Spans

/-- **Nests**: a loop nest over a shape does its statement for every cell. -/
theorem staysWithin_loopsAround (t : Stmt) (next : Nat) :
    ∀ {iters : List String} {shape : List Expr} {extents : List Int} {env : Env} {m m' : Memory},
      Spans c env iters shape extents →
        Effect.inTurn ((cellsOf extents).map fun cell =>
          t.StaysWithin own c limits (env.setAll iters cell)) m m' →
        (loopsAround next t (iters.zip shape)).1.StaysWithin own c limits env m m' := by
  intro iters
  induction iters with
  | nil =>
    intro shape extents env m m' hSpans hRun
    obtain rfl : shape = [] := List.eq_nil_of_length_eq_zero hSpans.length.symm
    obtain rfl : extents = [] := (Option.some.inj hSpans.values).symm
    obtain ⟨last, hRun, hEnd⟩ := hRun
    obtain rfl : m' = last := hEnd
    exact hRun
  | cons iter iters ih =>
    intro shape extents env m m' hSpans hRun
    obtain ⟨e, shape, rfl⟩ := List.exists_cons_of_length_pos
      (show 0 < shape.length by rw [← hSpans.length]; exact Nat.succ_pos _)
    obtain ⟨n, extents, rfl⟩ := List.exists_cons_of_length_pos
      (show 0 < extents.length by rw [← hSpans.length_extents]; exact Nat.succ_pos _)
    obtain ⟨hExtent, hRest⟩ := hSpans.tail
    rw [List.zip_cons_cons, loopsAround, Stmt.StaysWithin]
    refine ⟨0, n, rfl, ?_, ?_⟩
    · exact Expr.valueWith?_mono ⟨fun _ => .refl _, fun _ h => h⟩ (fun _ _ _ h => by cases h) _ _ hExtent
    · rw [cellsOf, List.map_flatMap] at hRun
      have hTurns := Effect.inTurn_flatMap hRun
      refine (Stmt.inTurn_imp (P := fun _ => True) (fun v _ z z' _ hz => ?_) trivial hTurns).2
      rw [List.map_map] at hz
      exact ⟨trivial, ih (hRest v) hz⟩

/-- A nest that stores a number in a cell of its own each time. -/
theorem exists_fillNest (own : List String) (limits : Limits) {iters : List String}
    {shape : List Expr} {extents : List Int} (hSpans : Spans c env iters shape extents) (next : Nat)
    (b : String) (is : List Expr) (value : Expr) {f : List Int → List Int} (hf : f.Injective)
    (w : List Int → Int) (m : Memory)
    (h : ∀ cell ∈ cellsOf extents, ∀ z : Memory, (∀ b', b' ≠ b → z b' = m b') →
      z b (f cell) = m b (f cell) →
        Expr.valuesWith? c (env.setAll iters cell) z is = some (f cell)
          ∧ value.valueWith? c (env.setAll iters cell) z = some (w cell)
          ∧ limits.Admit b (f cell) (w cell)) :
    ∃ m', (fillNest next (iters.zip shape) b is value).1.StaysWithin own c limits env m m'
      ∧ (∀ b', b' ≠ b → m' b' = m b') ∧ (∀ cell ∈ cellsOf extents, m' b (f cell) = some (w cell))
      ∧ ∀ k, (∀ cell ∈ cellsOf extents, k ≠ f cell) → m' b k = m b k := by
  have hStore : ∀ cell ∈ cellsOf extents, ∀ z : Memory, (∀ b', b' ≠ b → z b' = m b') →
      z b (f cell) = m b (f cell) →
        (Stmt.store ⟨next, none⟩ b is value).StaysWithin own c limits (env.setAll iters cell) z
          (z.put b (f cell) (w cell)) := by
    intro cell hCell z hz hSame
    obtain ⟨hIndices, hValue, hAdmit⟩ := h cell hCell z hz hSame
    rw [Stmt.StaysWithin]
    exact ⟨f cell, w cell, hIndices, hValue, hAdmit, rfl⟩
  obtain ⟨m', hRun, hBeside, hThere, hOther⟩ :=
    Effect.exists_puts ((nodup_cellsOf extents).map hf) hStore
  refine ⟨m', staysWithin_loopsAround _ _ hSpans hRun, hBeside, hThere, fun k hk => hOther k ?_⟩
  intro hMem
  obtain ⟨cell, hCell, hEq⟩ := List.mem_map.mp hMem
  exact hk cell hCell hEq.symm

/-! ## Two passes -/

/-- **Two passes**: one pass leaves what the iterations leave beside two buffers, and rows of the
    second buffer. When a row takes the first buffer from what it was before an iteration to what it
    was afterwards, a second pass over the rows takes it through all iterations. -/
theorem exists_passes {y ws : String} {l : Limit} (lower : Int) (P : Memory → Prop)
    {E F C : Int → Effect} (hne : ws ≠ y)
    (hEach : ∀ v M M', P M → E v M M' → P M' ∧ ∃ W : Cells,
      (∀ z, M.SameApart y ws z → ∃ z', F v z z' ∧ M'.SameApart y ws z' ∧ z' y = z y
        ∧ (∀ cell, l.Contains cell → z' ws ((v - lower) :: cell) = W cell)
        ∧ ∀ k : List Int, k.head? ≠ some (v - lower) → z' ws k = z ws k)
      ∧ ∀ w : Memory, w y = M y → (∀ cell, l.Contains cell → w ws ((v - lower) :: cell) = W cell) →
        C v w (w.exchange y (M' y)))
    {vs : List Int} (hNodup : vs.Nodup) :
    ∀ {M M' : Memory}, P M → Effect.inTurn (vs.map E) M M' → P M' ∧
      ∀ z, M.SameApart y ws z → ∃ z', Effect.inTurn (vs.map F) z z' ∧ M'.SameApart y ws z'
        ∧ z' y = z y
        ∧ (∀ k : List Int, (∀ v ∈ vs, k.head? ≠ some (v - lower)) → z' ws k = z ws k)
        ∧ ∀ w : Memory, w y = M y → (∀ v ∈ vs, ∀ cell, l.Contains cell →
            w ws ((v - lower) :: cell) = z' ws ((v - lower) :: cell)) →
          Effect.inTurn (vs.map C) w (w.exchange y (M' y)) := by
  induction vs with
  | nil =>
    intro M M' hM hRun
    obtain rfl : M' = M := hRun
    refine ⟨hM, fun z hSame => ⟨z, rfl, hSame, rfl, fun _ _ => rfl, fun w hw _ => ?_⟩⟩
    show w.exchange y (M' y) = w
    rw [← hw, Memory.exchange_same]
  | cons v vs ih =>
    intro M M' hM hRun
    obtain ⟨hNew, hRest⟩ := List.nodup_cons.mp hNodup
    obtain ⟨between, hHead, hTail⟩ := hRun
    obtain ⟨hBetween, W, hFirst, hSecond⟩ := hEach v M between hM hHead
    obtain ⟨hLast, hPasses⟩ := ih hRest hBetween hTail
    refine ⟨hLast, fun z hSame => ?_⟩
    obtain ⟨z₁, hRun₁, hSame₁, hBuffer₁, hRow₁, hRows₁⟩ := hFirst z hSame
    obtain ⟨z', hRun', hSame', hBuffer', hRows', hBack⟩ := hPasses z₁ hSame₁
    refine ⟨z', ⟨z₁, hRun₁, hRun'⟩, hSame', hBuffer'.trans hBuffer₁, fun k hk => ?_,
      fun w hw hRow => ?_⟩
    · rw [hRows' k fun v' hv' => hk v' (List.mem_cons_of_mem v hv'), hRows₁ k (hk v (by simp))]
    · -- the later iterations have left the row alone
      have hKept : ∀ cell, z' ws ((v - lower) :: cell) = z₁ ws ((v - lower) :: cell) := by
        intro cell
        refine hRows' _ fun v' hv' hEq => ?_
        rw [List.head?_cons, Option.some.injEq] at hEq
        obtain rfl : v = v' := by omega
        exact hNew hv'
      refine ⟨w.exchange y (between y), hSecond w hw fun cell hCell => ?_, ?_⟩
      · rw [hRow v List.mem_cons_self cell hCell, hKept, hRow₁ cell hCell]
      · have hMore := hBack (w.exchange y (between y)) (Memory.exchange_self ..)
        rw [Memory.exchange_exchange] at hMore
        refine hMore fun v' hv' cell hCell => ?_
        rw [Memory.exchange_ne hne]
        exact hRow v' (List.mem_cons_of_mem v hv') cell hCell

/-! ## Jobs -/

namespace Job

/-- What lowering makes sure of before it makes a workspace.

    * **movable**: the reductions of the body can be moved to the row;
    * **still**, **bounds**: the bounds are settled before the first iteration, and read neither the
      buffer nor the workspace;
    * **neutral**: the rows are filled with the neutral element;
    * **fill**, **fold**, **length**: there is a new iterator for every axis, once for filling and
      once for combining a row;
    * **shape**, **rowIter**: neither the shape nor the row uses the new iterators;
    * **owned**: the declaration of the workspace is not checked. -/
structure Fits (own : List String) (j : Job) (n : JobNames) : Prop where
  movable : Movable j.buffer n.space j.op j.row j.loop.body
  still : ∀ e ∈ [j.loop.head.lower, j.loop.head.upper],
    j.loop.body.Still e ∧ j.loop.head.iter ∉ e.scalars
  bounds : ∀ e ∈ [j.loop.head.lower, j.loop.head.upper],
    e.reads j.buffer = false ∧ e.reads n.space = false
  neutral : j.op.neutral? j.host.elem = some j.neutral
  length : n.fillIters.length = j.host.shape.length ∧ n.foldIters.length = j.host.shape.length
  fill : n.fillIters.Nodup
  fold : (n.rowIter :: n.foldIters).Nodup
  shape : ∀ e ∈ j.host.shape, ∀ x ∈ e.scalars,
    x ∉ n.fillIters ∧ x ∉ n.rowIter :: n.foldIters
  row : ∀ x ∈ j.row.scalars, x ∉ n.fillIters
  owned : n.space ∉ own

variable {j : Job} {n : JobNames} {l : Limit}

/-- The row of an iteration. -/
theorem value_row {m : Memory} {lower : Int} (hIter : j.loop.head.iter ∉ j.loop.head.lower.scalars)
    (hLower : j.loop.head.lower.valueWith? c env m = some lower) (v : Int) :
    j.row.valueWith? c (env.set j.loop.head.iter v) m = some (v - lower) := by
  refine Expr.valueWith?_minus ?_ ?_
  · rw [Expr.valueWith?, Env.set_self]
  · rw [← hLower]
    refine Expr.valueWith?_congr_names (fun x hx => Env.set_ne ?_) fun _ _ => rfl
    rintro rfl
    exact hIter hx

/-- **Filling**: a row gets the neutral element in all cells. -/
theorem exists_fill (h : j.Fits own n) (hSpans : Spans c env n.fillIters j.host.shape l.extents)
    (hws : limits n.space = none) {e : Int} (hNeutral : j.neutral = .int e) {z : Memory} {r : Int}
    (hRow : j.row.valueWith? c env z = some r) (next : Nat) :
    ∃ z', (j.fill n next).1.StaysWithin own c limits env z z' ∧ (∀ b, b ≠ n.space → z' b = z b)
      ∧ (∀ cell, l.Contains cell → z' n.space (r :: cell) = some e)
      ∧ ∀ k : List Int, k.head? ≠ some r → z' n.space k = z n.space k := by
  have hStore : ∀ cell ∈ cellsOf l.extents, ∀ z' : Memory, (∀ b, b ≠ n.space → z' b = z b) →
      z' n.space (r :: cell) = z n.space (r :: cell) →
        Expr.valuesWith? c (env.setAll n.fillIters cell) z' (j.row :: n.fillIters.map .var)
            = some (r :: cell)
          ∧ j.neutral.valueWith? c (env.setAll n.fillIters cell) z' = some e
          ∧ limits.Admit n.space (r :: cell) e := by
    intro cell hCell z' hz _
    have hRow' : j.row.valueWith? c (env.setAll n.fillIters cell) z' = some r := by
      rw [← hRow]
      refine Expr.valueWith?_congr_names (fun x hx => ?_) fun b hb => hz b ?_
      · exact Env.setAll_of_not_mem _ _ _ (h.row x hx)
      · rintro rfl
        exact h.movable.freshRow hb
    refine ⟨?_, hNeutral ▸ rfl, fun l' hl' => ?_⟩
    · rw [Expr.valuesWith?, hRow', Env.values_setAll _ _ _ h.fill
        (hSpans.length_extents.trans (length_of_mem_cellsOf hCell).symm)]
      rfl
    · rw [hws] at hl'
      cases hl'
  obtain ⟨z', hRun, hBeside, hThere, hOther⟩ := exists_fillNest own limits hSpans next n.space
    (j.row :: n.fillIters.map .var) j.neutral (fun _ _ hEq => (List.cons_eq_cons.mp hEq).2)
    (fun _ => e) z hStore
  refine ⟨z', hRun, hBeside, fun cell hCell => hThere cell (mem_cellsOf.mpr hCell), fun k hk => ?_⟩
  refine hOther k fun cell _ hEq => hk ?_
  rw [hEq]
  rfl

/-- **Combining**: the cells of the buffer are combined with those of a row. -/
theorem staysWithin_fold (h : j.Fits own n) (hSpans : Spans c env n.foldIters j.host.shape l.extents)
    (hl : limits j.buffer = some l) {w : Memory} {target : Cells}
    (hIn : ∀ cell, l.Contains cell → ∃ x u, w j.buffer cell = some x
      ∧ w n.space (env n.rowIter :: cell) = some u ∧ target cell = some (j.op.value x u)
      ∧ l.InRange (j.op.value x u))
    (hOut : ∀ cell, ¬ l.Contains cell → target cell = w j.buffer cell) (next : Nat) :
    (j.fold n next).1.StaysWithin own c limits env w (w.exchange j.buffer target) := by
  obtain ⟨hRowIter, hFold⟩ := List.nodup_cons.mp h.fold
  have hne : n.space ≠ j.buffer := h.movable.ne
  have hStore : ∀ cell ∈ cellsOf l.extents, ∀ z : Memory, (∀ b, b ≠ j.buffer → z b = w b) →
      z j.buffer cell = w j.buffer cell →
        Expr.valuesWith? c (env.setAll n.foldIters cell) z (n.foldIters.map .var) = some cell
          ∧ Expr.valueWith? c (env.setAll n.foldIters cell) z
              (j.op.combine (.load j.buffer (n.foldIters.map .var))
                (.load n.space (.var n.rowIter :: n.foldIters.map .var)))
            = some ((target cell).getD 0)
          ∧ limits.Admit j.buffer cell ((target cell).getD 0) := by
    intro cell hCell z hz hSame
    obtain ⟨x, u, hx, hu, hTarget, hRange⟩ := hIn cell (mem_cellsOf.mp hCell)
    have hCells : Expr.valuesWith? c (env.setAll n.foldIters cell) z (n.foldIters.map .var)
        = some cell := Env.values_setAll _ _ _ hFold
      (hSpans.length_extents.trans (length_of_mem_cellsOf hCell).symm)
    have hRow : Expr.valueWith? c (env.setAll n.foldIters cell) z (.var n.rowIter)
        = some (env n.rowIter) := by
      rw [Expr.valueWith?, Env.setAll_of_not_mem _ _ _ hRowIter]
    have hBuffer : Expr.valueWith? c (env.setAll n.foldIters cell) z
        (.load j.buffer (n.foldIters.map .var)) = some x := by
      rw [Expr.valueWith?, hCells]
      exact hSame.trans hx
    have hSpace : Expr.valueWith? c (env.setAll n.foldIters cell) z
        (.load n.space (.var n.rowIter :: n.foldIters.map .var)) = some u := by
      rw [Expr.valueWith?, Expr.valuesWith?, hRow, hCells, ← hu, ← hz n.space hne]
      rfl
    rw [hTarget]
    refine ⟨hCells, ?_, fun l' hl' => ?_⟩
    · rw [ReduceOp.combine, Expr.valueWith?, hBuffer, hSpace]
      exact j.op.valueWith?_toBinary c x u
    · obtain rfl : l = l' := Option.some.inj (hl.symm.trans hl')
      exact ⟨mem_cellsOf.mp hCell, hRange⟩
  obtain ⟨w', hRun, hBeside, hThere, hOther⟩ := exists_fillNest own limits hSpans next j.buffer
    (n.foldIters.map .var) (j.op.combine (.load j.buffer (n.foldIters.map .var))
      (.load n.space (.var n.rowIter :: n.foldIters.map .var))) Function.injective_id
    (fun cell => (target cell).getD 0) w hStore
  have hResult : w' = w.exchange j.buffer target := by
    funext b
    by_cases hb : b = j.buffer
    · rw [hb, Memory.exchange_self]
      funext cell
      by_cases hCell : l.Contains cell
      · obtain ⟨x, u, _, _, hTarget, _⟩ := hIn cell hCell
        have hValue := hThere cell (mem_cellsOf.mpr hCell)
        rw [hTarget] at hValue ⊢
        exact hValue
      · rw [hOut cell hCell]
        refine hOther cell fun k hk hEq => hCell ?_
        rw [hEq]
        exact mem_cellsOf.mp hk
    · rw [Memory.exchange_ne hb, hBeside b hb]
  exact hResult ▸ hRun

/-- The rows of a loop are counted from 0 on. -/
theorem counting_rows (lower upper : Int) :
    counting 0 (upper - lower) = (counting lower upper).map (· - lower) := by
  unfold counting
  rw [List.map_map, Int.sub_zero]
  refine List.map_congr_left fun k _ => ?_
  rw [Function.comp_apply]
  omega

/-- What an iteration with a workspace does, and what combining its row does. -/
theorem exists_passes_iteration (h : j.Fits own n) (hBody : j.loop.body.CleanNames)
    (hNew : j.loop.body.Undeclared limits) (hl : limits j.buffer = some l)
    (hws : limits n.space = none) {e : Int} (hNeutral : j.neutral = .int e)
    (hValue : ∀ x, l.InRange x → j.op.value x e = x)
    (hFill : ∀ v, Spans c (env.set j.loop.head.iter v) n.fillIters j.host.shape l.extents)
    (hFold : ∀ v, Spans c (env.set n.rowIter v) n.foldIters j.host.shape l.extents)
    {lower : Int} (next next' : Nat) {v : Int} {M M' : Memory} (hM : limits.Hold M)
    (hLower : j.loop.head.lower.valueWith? c env M = some lower)
    (hRun : j.loop.body.StaysWithin own c limits (env.set j.loop.head.iter v) M M') :
    ∃ W : Cells,
      (∀ z, M.SameApart j.buffer n.space z → ∃ z',
        (Stmt.block ⟨(j.fill n next).2, none⟩ [(j.fill n next).1, j.moved n]).StaysWithin own c limits
          (env.set j.loop.head.iter v) z z'
        ∧ M'.SameApart j.buffer n.space z' ∧ z' j.buffer = z j.buffer
        ∧ (∀ cell, l.Contains cell → z' n.space ((v - lower) :: cell) = W cell)
        ∧ ∀ k : List Int, k.head? ≠ some (v - lower) → z' n.space k = z n.space k)
      ∧ ∀ w : Memory, w j.buffer = M j.buffer →
        (∀ cell, l.Contains cell → w n.space ((v - lower) :: cell) = W cell) →
          (j.fold n next').1.StaysWithin own c limits (env.set n.rowIter (v - lower)) w
            (w.exchange j.buffer (M' j.buffer)) := by
  have hne : n.space ≠ j.buffer := h.movable.ne
  have hM' := Stmt.hold_of_staysWithin _ limits _ M M' hBody hNew hM hRun
  obtain ⟨us, hUs, hBuffer, hGathers⟩ :=
    gathers_redirect own j.loop.body h.movable limits _ hl hws M M' hRun
  refine ⟨fun cell => some ((us.at_ cell).foldl j.op.value e), fun z hSame => ?_, fun w hw hRow => ?_⟩
  · have hRowAt : ∀ z, M.SameApart j.buffer n.space z →
        j.row.valueWith? c (env.set j.loop.head.iter v) z = some (v - lower) := by
      intro z hSame
      obtain ⟨hy, hws'⟩ := h.bounds _ List.mem_cons_self
      exact value_row (h.still _ List.mem_cons_self).2
        ((value_of_sameApart hSame hy hws' env).trans hLower) v
    obtain ⟨z₁, hRun₁, hBeside₁, hThere₁, hOther₁⟩ :=
      exists_fill h (hFill v) hws hNeutral (hRowAt z hSame) next
    have hSame₁ : M.SameApart j.buffer n.space z₁ := fun b hb hb' =>
      (hBeside₁ b hb').trans (hSame b hb hb')
    obtain ⟨z₂, hRun₂, hGathered, _⟩ := hGathers z₁ _ hSame₁ (hRowAt z₁ hSame₁) (fun cell hCell => by
      rw [Memory.row, hThere₁ cell hCell]
      rfl)
    refine ⟨z₂, ?_, hGathered.same, ?_, fun cell hCell => ?_, fun k hk => ?_⟩
    · rw [Stmt.staysWithin_block]
      exact ⟨z₁, hRun₁, z₂, hRun₂, rfl⟩
    · exact hGathered.buffer.trans (hBeside₁ _ (Ne.symm hne))
    · have hRow := congrFun hGathered.row cell
      rw [ReduceOp.collect, Memory.row, Memory.row, hThere₁ cell hCell, Option.map_some] at hRow
      exact hRow
    · rw [hGathered.rows k hk, hOther₁ k hk]
  · -- combining the row does to the buffer what the iteration has done to it
    refine staysWithin_fold h (hFold (v - lower)) hl (fun cell hCell => ?_) (fun cell hCell => ?_)
      next'
    · obtain ⟨x, hx, hRange⟩ := hM _ l hl cell hCell
      obtain ⟨x', hx', hRange'⟩ := hM' _ l hl cell hCell
      have hLast : M' j.buffer cell = some (j.op.value x ((us.at_ cell).foldl j.op.value e)) := by
        rw [hBuffer, ReduceOp.collect, hx, Option.map_some, ReduceOp.value_foldl _ (hValue x hRange)]
      refine ⟨x, _, hw ▸ hx, ?_, hLast, ?_⟩
      · rw [Env.set_self]
        exact hRow cell hCell
      · obtain rfl : x' = _ := Option.some.inj (hx'.symm.trans hLast)
        exact hRange'
    · rw [hBuffer, hw]
      refine ReduceOp.collect_eq _ (fun u hu hEq => hCell ?_) _
      rw [← hEq]
      exact hUs u hu

/-- **Workspaces**: the loop with its workspace leaves the memory that the loop leaves, and it stays
    inside the limits. -/
theorem staysWithin_stmt (h : j.Fits own n) (hNames : j.loop.stmt.CleanNames) (space : MemSpace)
    (next : Nat) {m m' : Memory} (hNew : j.loop.stmt.Undeclared limits) (hm : limits.Hold m)
    (hRefers : Stmt.Refers own c limits env j.buffer (some j.host) j.loop.stmt)
    (hRun : j.loop.stmt.StaysWithin own c limits env m m') :
    (j.stmt n space next).1.StaysWithin own c limits env m m' := by
  have hne : n.space ≠ j.buffer := h.movable.ne
  have hMem : j.loop.body ∈ j.loop.stmt.nodes := by simp [LabelledLoop.stmt, Stmt.self_mem_nodes]
  have hBody := hNames.of_mem hMem
  obtain ⟨l, hl, hLimit⟩ := hRefers.limit _ rfl
  have hws := hRefers.owned _ h.owned
  obtain ⟨extents, hExtents, hLimit⟩ := Option.bind_eq_some_iff.mp hLimit
  obtain ⟨range, hRange, rfl⟩ := Option.map_eq_some_iff.mp hLimit
  obtain ⟨e, hNeutral, hValue⟩ := j.op.neutral_of_range hRange h.neutral
  have hFill : ∀ v, Spans c (env.set j.loop.head.iter v) n.fillIters j.host.shape extents := by
    refine fun v => Spans.set ⟨hExtents, h.length.1, h.fill, fun e he x hx =>
      (h.shape e he x hx).1⟩ (fun e he hx => ?_) v
    exact hRefers.still _ rfl e he _ hx ⟨_, _, _, Stmt.self_mem_nodes _, rfl⟩
  have hFold : ∀ v, Spans c (env.set n.rowIter v) n.foldIters j.host.shape extents := by
    refine fun v => Spans.set ⟨hExtents, h.length.2, (List.nodup_cons.mp h.fold).2, fun e he x hx hIn =>
      (h.shape e he x hx).2 (List.mem_cons_of_mem _ hIn)⟩ (fun e he hx => ?_) v
    exact (h.shape e he _ hx).2 List.mem_cons_self
  have hWrites : ¬ j.loop.stmt.Writes n.space := by
    rintro ⟨s, is, v, hStore⟩
    exact h.movable.freshWrites ⟨s, is, v, by simpa [LabelledLoop.stmt] using hStore⟩
  have hKeeps := Stmt.keeps_of_change (Stmt.change_of_staysWithin _ _ _ _ _ hRun) hWrites
  rw [LabelledLoop.stmt, Stmt.StaysWithin] at hRun
  obtain ⟨lower, upper, hLower, hUpper, hTurns⟩ := hRun
  -- every iteration finds the bounds as they were
  have hStillLower := h.still j.loop.head.lower (by simp)
  have hStillUpper := h.still j.loop.head.upper (by simp)
  generalize hLater : (j.fill n next).2 + 1 = later
  obtain ⟨⟨hLast, hLower', hUpper'⟩, hPasses⟩ := exists_passes lower
    (fun M => limits.Hold M ∧ j.loop.head.lower.valueWith? c env M = some lower
      ∧ j.loop.head.upper.valueWith? c env M = some upper) hne
    (fun v M M' hM hRun => by
      have hChange := Stmt.change_of_staysWithin _ _ _ _ _ hRun
      refine ⟨⟨Stmt.hold_of_staysWithin _ _ _ _ _ hBody (hNew.of_mem hMem) hM.1 hRun, ?_, ?_⟩, ?_⟩
      · rw [hStillLower.1.value_of_change hChange]
        exact hM.2.1
      · rw [hStillUpper.1.value_of_change hChange]
        exact hM.2.2
      · exact exists_passes_iteration h hBody (hNew.of_mem hMem) hl hws hNeutral
          (fun x hx => hValue x hx.1 hx.2) hFill hFold next later hM.1 hM.2.1 hRun)
    nodup_counting ⟨hm, hLower, hUpper⟩ hTurns
  have hBound : ∀ {M z : Memory}, M.SameApart j.buffer n.space z →
      ∀ e ∈ [j.loop.head.lower, j.loop.head.upper], e.valueWith? c env z = e.valueWith? c env M :=
    fun hSame e he => value_of_sameApart hSame (h.bounds e he).1 (h.bounds e he).2 env
  have hStart : m.SameApart j.buffer n.space (m.exchange n.space (c.fresh none n.space)) :=
    fun b _ hb => Memory.exchange_ne hb
  obtain ⟨z, hFilling, hSame, hBuffer, _, hBack⟩ := hPasses _ hStart
  rw [Memory.exchange_ne (Ne.symm hne)] at hBuffer
  have hRows : j.rows.valueWith? c env z = some (upper - lower) :=
    Expr.valueWith?_minus ((hBound hSame _ (by simp)).trans hUpper')
      ((hBound hSame _ (by simp)).trans hLower')
  have hCombining := hBack z hBuffer fun _ _ _ _ => rfl
  rw [stmt_eq, hLater, Stmt.StaysWithin]
  refine ⟨limits, ?_⟩
  rw [if_pos rfl, Limits.Enter, if_neg h.owned]
  refine ⟨rfl, z.exchange j.buffer (m' j.buffer), ?_, ?_⟩
  · rw [Stmt.staysWithin_block]
    refine ⟨z, ?_, _, ?_, rfl⟩
    · rw [filling, Stmt.StaysWithin]
      exact ⟨lower, upper, (hBound hStart _ (by simp)).trans hLower,
        (hBound hStart _ (by simp)).trans hUpper, hFilling⟩
    · rw [combining, Stmt.StaysWithin]
      refine ⟨0, upper - lower, rfl, hRows, ?_⟩
      rw [counting_rows, List.map_map]
      exact hCombining
  · funext b
    by_cases hb : b = n.space
    · rw [hb, Memory.exchange_self, hKeeps]
    · rw [Memory.exchange_ne hb]
      by_cases hb' : b = j.buffer
      · rw [hb', Memory.exchange_self]
      · rw [Memory.exchange_ne hb', hSame b hb' hb]

end Job

end Lower

end LoopNest

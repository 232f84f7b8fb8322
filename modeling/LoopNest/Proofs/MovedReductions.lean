import LoopNest.Proofs.AnyOrders
import LoopNest.Proofs.LoweredLoops
import LoopNest.Proofs.Rows

/-! # Reductions moved to a row

  Lowering sends the reductions of an iteration to a row of a workspace. A run of the new body looks
  like a run of the old one for which the row takes the place of the reduced buffer
  (`Lower.change_redirect`).

  Logs follow the same way, step by step (`Lower.logsTo_redirect`). So iterations that were apart
  are apart afterwards, those of the loops in the body (`Lower.unordered_redirect`) and those of the
  loop itself, which have different rows (`Lower.apart_filling`). -/

namespace LoopNest

namespace Stmt

/-- A store that combines a cell of `y` with something by `op`, and reads `y` nowhere else. -/
def IsReduction (u : Stmt) (y : String) (op : ReduceOp) : Prop :=
  ∃ s is v rhs, u = .store s y is v ∧ Expr.reduction? y is v = some (op, rhs)
    ∧ ∀ i ∈ is, i.reads y = false

/-- A program reads and writes `y` only in reductions by `op`. -/
def OnlyReduces (t : Stmt) (y : String) (op : ReduceOp) : Prop :=
  ∀ u ∈ t.nodes, u.IsReduction y op
    ∨ ((∀ e ∈ u.exprs, e.reads y = false) ∧ ∀ s is v, u ≠ .store s y is v)

theorem OnlyReduces.of_mem {t u : Stmt} {y : String} {op : ReduceOp} (hu : u ∈ t.nodes)
    (h : t.OnlyReduces y op) : u.OnlyReduces y op := fun w hw => h w (mem_nodes_trans hw hu)

/-- A statement that is no store does not read `y` in its expressions. -/
theorem OnlyReduces.reads_eq_false {t : Stmt} {y : String} {op : ReduceOp} (h : t.OnlyReduces y op)
    (hNot : ∀ s is v, t ≠ .store s y is v) : ∀ e ∈ t.exprs, e.reads y = false := by
  rcases h t (self_mem_nodes t) with hReduction | hReads
  · obtain ⟨s, is, v, _, hEq, _⟩ := hReduction
    exact absurd hEq (hNot s is v)
  · exact hReads.1

end Stmt

namespace Lower

/-! ## Programs whose reductions are moved -/

/-- Sends the reductions of a program to a row. -/
def redirect (y ws : String) (op : ReduceOp) (row : Expr) (t : Stmt) : Stmt :=
  t.bottomUp (redirectStore y ws op row)

section redirect

variable (y ws : String) (op : ReduceOp) (row : Expr) (s : Site)

@[simp] theorem redirect_decl (n : String) (b : Buffer) (body : Stmt) :
    redirect y ws op row (.decl s n b body) = .decl s n b (redirect y ws op row body) := rfl

@[simp] theorem redirect_loop (h : LoopHead) (body : Stmt) :
    redirect y ws op row (.loop s h body) = .loop s h (redirect y ws op row body) := rfl

@[simp] theorem redirect_guard (e : Expr) (body : Stmt) :
    redirect y ws op row (.guard s e body) = .guard s e (redirect y ws op row body) := rfl

@[simp] theorem redirect_branch (e : Expr) (yes no : Stmt) :
    redirect y ws op row (.branch s e yes no)
      = .branch s e (redirect y ws op row yes) (redirect y ws op row no) := rfl

@[simp] theorem redirect_call (f : String) (args : List Arg) :
    redirect y ws op row (.call s f args) = .call s f args := rfl

@[simp] theorem redirect_hole : redirect y ws op row (.hole s) = .hole s := rfl

@[simp] theorem redirect_block (ts : List Stmt) :
    redirect y ws op row (.block s ts) = .block s (ts.map (redirect y ws op row)) := by
  unfold redirect
  rw [Stmt.bottomUp, Stmt.bottomUpAll_eq_map]
  rfl

theorem redirect_store (b : String) (is : List Expr) (v : Expr) :
    redirect y ws op row (.store s b is v) = redirectStore y ws op row (.store s b is v) := rfl

variable {y op s}

/-- A reduction is sent to the row. -/
theorem redirect_reduction {is : List Expr} {v rhs : Expr} {op' : ReduceOp}
    (h : Expr.reduction? y is v = some (op', rhs)) : redirect y ws op row (.store s y is v)
      = .store s ws (row :: is) (op.combine (.load ws (row :: is)) rhs) := by
  rw [redirect_store, redirectStore, if_pos (beq_self_eq_true y), h]

/-- A store to another buffer stays. -/
theorem redirect_other {b : String} (hb : b ≠ y) (is : List Expr) (v : Expr) :
    redirect y ws op row (.store s b is v) = .store s b is v := by
  rw [redirect_store, redirectStore, if_neg (by simpa using hb)]

end redirect

/-- What makes it possible to move the reductions of a program to a row.

    * **reduces**: the buffer is only reduced into, and not declared inside;
    * **still**: the row is the same everywhere inside;
    * **fresh**: the workspace is not used, also not by the row. -/
structure Movable (y ws : String) (op : ReduceOp) (row : Expr) (t : Stmt) : Prop where
  reduces : t.OnlyReduces y op
  declares : ¬ t.Declares y
  still : t.Still row
  freshReads : ¬ t.Reads ws
  freshWrites : ¬ t.Writes ws
  freshDeclares : ¬ t.Declares ws
  freshRow : ws ∉ row.buffers
  ne : ws ≠ y

variable {y ws : String} {op : ReduceOp} {row : Expr} {c : Conventions}

namespace Movable

theorem of_mem {t u : Stmt} (hu : u ∈ t.nodes) (h : Movable y ws op row t) :
    Movable y ws op row u where
  reduces := h.reduces.of_mem hu
  declares hDeclares := h.declares (hDeclares.of_mem hu)
  still := h.still.of_mem hu
  freshReads hReads := h.freshReads (hReads.of_mem hu)
  freshWrites hWrites := h.freshWrites (hWrites.of_mem hu)
  freshDeclares hDeclares := h.freshDeclares (hDeclares.of_mem hu)
  freshRow := h.freshRow
  ne := h.ne

variable {t : Stmt}

/-- A run of the old program does nothing to the workspace. -/
theorem blank (h : Movable y ws op row t) (env : Env) : (t.change c env).Blank ws := by
  intro m m' hm hRun
  rw [Stmt.keeps_of_change hRun h.freshWrites]
  exact hm

/-- Expressions that read neither the buffer nor the workspace have the values that are seen from
    the row. -/
theorem value_fromRow {e : Expr} (hy : e.reads y = false) (hws : e.reads ws = false) (env : Env)
    (m : Memory) (r : Int) : e.valueWith? c env (m.fromRow y ws r) = e.valueWith? c env m := by
  refine Expr.valueWith?_congr_names (fun _ _ => rfl) fun b hb => Memory.fromRow_other ?_ ?_
  · rintro rfl
    rw [Expr.reads_iff.mpr hb] at hy
    cases hy
  · rintro rfl
    rw [Expr.reads_iff.mpr hb] at hws
    cases hws

/-- The workspace is not read. -/
theorem reads_space (h : Movable y ws op row t) {e : Expr} (he : e ∈ t.exprs) :
    e.reads ws = false := by
  by_contra hReads
  exact h.freshReads ⟨t, Stmt.self_mem_nodes t, e, he, by simpa using hReads⟩

/-- The expressions of a statement that is no store of the buffer. -/
theorem value_expr (h : Movable y ws op row t) (hNot : ∀ s is v, t ≠ .store s y is v) {e : Expr}
    (he : e ∈ t.exprs) (env : Env) (m : Memory) (r : Int) :
    e.valueWith? c env (m.fromRow y ws r) = e.valueWith? c env m :=
  value_fromRow (h.reduces.reads_eq_false hNot e he) (h.reads_space he) env m r

end Movable

/-- The statements of a moved program. -/
theorem nodes_redirect :
    ∀ t : Stmt, (redirect y ws op row t).nodes = t.nodes.map (redirect y ws op row) := by
  refine Stmt.children_ind fun t ih => ?_
  have hChildren : (redirect y ws op row t).children = t.children.map (redirect y ws op row) := by
    unfold redirect
    rw [Stmt.bottomUp_eq, children_redirectStore, Stmt.children_mapChildren]
  rw [Stmt.nodes_eq_cons, Stmt.nodes_eq_cons t, List.map_cons, Stmt.inside, Stmt.inside, hChildren,
    List.flatMap_map, List.map_flatMap, List.flatMap_congr ih]

/-- The stores of a moved program: those of other buffers, and one for each reduction. -/
theorem store_of_redirect {t : Stmt} (h : t.OnlyReduces y op) {s : Site} {b : String}
    {is : List Expr} {v : Expr} (hStore : Stmt.store s b is v ∈ (redirect y ws op row t).nodes) :
    (b ≠ y ∧ Stmt.store s b is v ∈ t.nodes)
      ∨ (b = ws ∧ ∃ js w rhs, Stmt.store s y js w ∈ t.nodes ∧ is = row :: js
        ∧ v = op.combine (.load ws (row :: js)) rhs ∧ Expr.reduction? y js w = some (op, rhs)
        ∧ ∀ i ∈ js, i.reads y = false) := by
  rw [nodes_redirect] at hStore
  obtain ⟨u, hu, hEq⟩ := List.mem_map.mp hStore
  cases u with
  | store s' b' js w =>
    by_cases hb : b' = y
    · subst hb
      rcases h _ hu with hReduction | hOther
      · obtain ⟨s'', js', w', rhs, hSame, hReduction, hReads⟩ := hReduction
        cases hSame
        rw [redirect_reduction _ _ hReduction] at hEq
        cases hEq
        exact .inr ⟨rfl, js, w, rhs, hu, rfl, rfl, hReduction, hReads⟩
      · exact absurd rfl (hOther.2 s' js w)
    · rw [redirect_other _ _ hb] at hEq
      cases hEq
      exact .inl ⟨hb, hu⟩
  | decl _ _ _ _ => cases hEq
  | loop _ _ _ => cases hEq
  | guard _ _ _ => cases hEq
  | branch _ _ _ _ => cases hEq
  | call _ _ _ => cases hEq
  | block _ _ =>
    rw [redirect_block] at hEq
    cases hEq
  | hole _ => cases hEq

/-- What a moved program writes. -/
theorem writes_of_redirect {t : Stmt} (h : t.OnlyReduces y op) {b : String}
    (hWrites : (redirect y ws op row t).Writes b) : (b ≠ y ∧ t.Writes b) ∨ (b = ws ∧ t.Writes y) := by
  obtain ⟨s, is, v, hStore⟩ := hWrites
  rcases store_of_redirect h hStore with ⟨hb, hOther⟩ | ⟨hb, js, w, _, hReduction, _⟩
  · exact .inl ⟨hb, s, is, v, hOther⟩
  · exact .inr ⟨hb, s, js, w, hReduction⟩

/-- A moved program keeps the value of the row. -/
theorem Movable.keeps_row {t : Stmt} (h : Movable y ws op row t) (env env' : Env) (r : Int) :
    ((redirect y ws op row t).change c env').Keeps fun m => row.valueWith? c env m = some r := by
  intro m m' hm hRun
  have hSame : row.valueWith? c env m' = row.valueWith? c env m := by
    refine Expr.valueWith?_congr_names (fun _ _ => rfl) fun b hb => ?_
    refine Stmt.keeps_of_change hRun fun hWrites => ?_
    rcases writes_of_redirect h.reduces hWrites with ⟨_, hWrites⟩ | ⟨rfl, _⟩
    · exact h.still.writes b hb hWrites
    · exact h.freshRow hb
  exact hSame.trans hm

/-- A reduction on a row. -/
theorem change_redirect_reduction {is : List Expr} {v rhs : Expr}
    (hReduction : Expr.reduction? y is v = some (op, rhs)) (hReads : ∀ i ∈ is, i.reads y = false)
    {s : Site} (h : Movable y ws op row (.store s y is v)) {env : Env} {m : Memory} {r : Int}
    (hRow : row.valueWith? c env m = some r) :
    (redirect y ws op row (.store s y is v)).change c env m
      = ((Stmt.store s y is v).change c env).onRow y ws r m := by
  have hRhs : rhs.reads ws = false := by
    by_contra hNot
    obtain ⟨is', hPart⟩ := Expr.mem_buffers.mp (Expr.reads_iff.mp (by simpa using hNot))
    have hValue : v.reads ws = false := h.reads_space (by simp [Stmt.exprs])
    rw [Expr.reads_iff.mpr (Expr.mem_buffers.mpr ⟨is', (Expr.of_reduction? hReduction).2.1 _ hPart⟩)]
      at hValue
    cases hValue
  have hIndices : Expr.valuesWith? c env (m.fromRow y ws r) is = Expr.valuesWith? c env m is :=
    Expr.valuesWith?_congr fun i hi =>
      Movable.value_fromRow (hReads i hi) (h.reads_space (by simp [Stmt.exprs, hi])) env m r
  have hOperand : rhs.valueWith? c env (m.fromRow y ws r) = rhs.valueWith? c env m :=
    Movable.value_fromRow (Expr.of_reduction? hReduction).1 hRhs env m r
  have hCells : Expr.valuesWith? c env m (row :: is)
      = (Expr.valuesWith? c env m is).map (r :: ·) := by
    rw [Expr.valuesWith?, hRow]
    cases Expr.valuesWith? c env m is <;> rfl
  unfold Change.onRow
  rw [redirect_reduction _ _ hReduction, Stmt.change_store, Stmt.change_store_reduction hReduction,
    hCells]
  dsimp only
  rw [hIndices, hOperand]
  cases hCell : Expr.valuesWith? c env m is with
  | none => rfl
  | some cell =>
    have hLoad : Expr.valueWith? c env m (.load ws (row :: is)) = m ws (r :: cell) := by
      rw [Expr.valueWith?, hCells, hCell]
      rfl
    rw [Option.map_some, Option.bind_some, Option.bind_some, ReduceOp.combine, Expr.valueWith?, hLoad]
    show (((m ws (r :: cell)).bind fun old => (rhs.valueWith? c env m).bind fun x =>
        op.toBinary.valueWith? c old x).map fun value => m.put ws (r :: cell) value)
      = ((rhs.valueWith? c env m).bind fun x =>
        ((m.fromRow y ws r y cell).map fun old => some (op.value old x)).map
          ((m.fromRow y ws r).place y cell)).map (m.toRow y ws r)
    rw [Memory.fromRow_buffer]
    cases rhs.valueWith? c env m with
    | none => cases m ws (r :: cell) <;> rfl
    | some x => cases m ws (r :: cell) with
      | none => rfl
      | some old =>
        rw [Option.bind_some, Option.bind_some, ReduceOp.valueWith?_toBinary]
        show some (m.put ws (r :: cell) (op.value old x))
          = some (m.toRow y ws r ((m.fromRow y ws r).place y cell (some (op.value old x))))
        rw [Memory.toRow_place h.ne, Memory.toRow_fromRow h.ne]
        rfl

/-- A store to another buffer on a row. -/
theorem change_redirect_other {s : Site} {b : String} {is : List Expr} {v : Expr}
    (h : Movable y ws op row (.store s b is v)) (hb : b ≠ y) (env : Env) (m : Memory) (r : Int) :
    (redirect y ws op row (.store s b is v)).change c env m
      = ((Stmt.store s b is v).change c env).onRow y ws r m := by
  have hNot : ∀ s' is' v', Stmt.store s b is v ≠ .store s' y is' v' := by
    intro s' is' v' hEq
    cases hEq
    exact hb rfl
  have hws : b ≠ ws := by
    rintro rfl
    exact h.freshWrites ⟨s, is, v, Stmt.self_mem_nodes _⟩
  have hIndices : Expr.valuesWith? c env (m.fromRow y ws r) is = Expr.valuesWith? c env m is :=
    Expr.valuesWith?_congr fun i hi => h.value_expr hNot (by simp [Stmt.exprs, hi]) env m r
  unfold Change.onRow
  rw [redirect_other _ _ hb, Stmt.change_store, Stmt.change_store, hIndices,
    h.value_expr hNot (by simp [Stmt.exprs])]
  cases Expr.valuesWith? c env m is with
  | none => rfl
  | some cell =>
    cases v.valueWith? c env m with
    | none => rfl
    | some w =>
      show some (m.put b cell w) = some (m.toRow y ws r ((m.fromRow y ws r).place b cell (some w)))
      rw [Memory.toRow_place_other hb hws, Memory.toRow_fromRow h.ne]
      rfl

/-- **Moved programs**: where the row has a value, a program whose reductions are moved to it does
    what the program does when the row takes the place of the buffer. -/
theorem change_redirect :
    ∀ (t : Stmt), Movable y ws op row t → ∀ (env : Env) (m : Memory) (r : Int),
      row.valueWith? c env m = some r →
        (redirect y ws op row t).change c env m = (t.change c env).onRow y ws r m := by
  have hNoStore : ∀ {t : Stmt}, (∀ s b is v, t ≠ .store s b is v) →
      ∀ s is v, t ≠ .store s y is v := fun h s is v => h s y is v
  refine Stmt.ind ?_ ?_ ?_ ?_ ?_ ?_ ?_ ?_
  · intro s n b body ih h env m r hRow
    have hBody := h.of_mem (u := body) (by simp [Stmt.self_mem_nodes])
    have hy : n ≠ y := by
      rintro rfl
      exact h.declares ⟨s, b, body, Stmt.self_mem_nodes _⟩
    have hws : n ≠ ws := by
      rintro rfl
      exact h.freshDeclares ⟨s, b, body, Stmt.self_mem_nodes _⟩
    rw [redirect_decl, Stmt.change_decl, Stmt.change_decl]
    split
    · unfold Change.withLocal Change.onRow
      rw [ih hBody env _ r ((h.still.value_exchange env m _).trans hRow)]
      unfold Change.onRow
      rw [Memory.exchange_fromRow hy hws, Option.map_map, Option.map_map,
        Memory.fromRow_other hy hws]
      congr 1
      funext after
      exact Memory.exchange_toRow hy hws _ _
    · exact ih hBody env m r hRow
  · intro s head body ih h env m r hRow
    have hBody := h.of_mem (u := body) (by simp [Stmt.self_mem_nodes])
    have hNot := hNoStore (t := .loop s head body) (fun _ _ _ _ hEq => by cases hEq)
    have hBound : ∀ e ∈ [head.lower, head.upper],
        e.valueWith? c env (m.fromRow y ws r) = e.valueWith? c env m := fun e he =>
      h.value_expr hNot he env m r
    unfold Change.onRow
    rw [redirect_loop, Stmt.change_loop, Stmt.change_loop, hBound _ (by simp), hBound _ (by simp)]
    cases head.lower.valueWith? c env m with
    | none => rfl
    | some lower =>
      cases head.upper.valueWith? c env m with
      | none => rfl
      | some upper =>
        refine Change.inTurn_onRow h.ne (P := fun m => row.valueWith? c env m = some r)
          (fun v _ m hm => ?_) (fun v _ => hBody.keeps_row env _ r) (fun v _ => hBody.blank _) m hRow
        exact ih hBody _ m r ((h.still.value_set env v m).trans hm)
  · intro s e body ih h env m r hRow
    have hBody := h.of_mem (u := body) (by simp [Stmt.self_mem_nodes])
    have hNot := hNoStore (t := .guard s e body) (fun _ _ _ _ hEq => by cases hEq)
    unfold Change.onRow
    rw [redirect_guard, Stmt.change_guard, Stmt.change_guard,
      h.value_expr hNot (by simp [Stmt.exprs])]
    cases e.valueWith? c env m with
    | none => rfl
    | some v =>
      by_cases hZero : v = 0
      · simp [hZero, Memory.toRow_fromRow h.ne]
      · simpa [hZero, Change.onRow] using ih hBody env m r hRow
  · intro s e yes no ihYes ihNo h env m r hRow
    have hYes := h.of_mem (u := yes) (by simp [Stmt.self_mem_nodes])
    have hNo := h.of_mem (u := no) (by simp [Stmt.self_mem_nodes])
    have hNot := hNoStore (t := .branch s e yes no) (fun _ _ _ _ hEq => by cases hEq)
    unfold Change.onRow
    rw [redirect_branch, Stmt.change_branch, Stmt.change_branch,
      h.value_expr hNot (by simp [Stmt.exprs])]
    cases e.valueWith? c env m with
    | none => rfl
    | some v =>
      by_cases hZero : v = 0
      · simpa [hZero, Change.onRow] using ihNo hNo env m r hRow
      · simpa [hZero, Change.onRow] using ihYes hYes env m r hRow
  · intro s b is v h env m r hRow
    rcases h.reduces _ (Stmt.self_mem_nodes _) with hReduction | hOther
    · obtain ⟨s', is', v', rhs, hEq, hReduction, hReads⟩ := hReduction
      cases hEq
      exact change_redirect_reduction hReduction hReads h hRow
    · refine change_redirect_other h ?_ env m r
      rintro rfl
      exact hOther.2 s is v rfl
  · intro s f args _ env m r _
    rw [redirect_call, Stmt.change_call]
    rfl
  · intro s ts ih h env m r hRow
    have hEach : ∀ t ∈ ts, Movable y ws op row t := by
      intro t ht
      refine h.of_mem ?_
      rw [Stmt.nodes_block]
      exact List.mem_cons_of_mem _ (List.mem_flatMap.mpr ⟨t, ht, Stmt.self_mem_nodes t⟩)
    rw [redirect_block, Stmt.change_block, Stmt.change_block, List.map_map]
    exact Change.inTurn_onRow h.ne (P := fun m => row.valueWith? c env m = some r)
      (fun t ht m hm => ih t ht (hEach t ht) env m r hm) (fun t ht => (hEach t ht).keeps_row env _ r)
      (fun t ht => (hEach t ht).blank env) m hRow
  · intro s _ env m r _
    rw [redirect_hole, Stmt.change_hole]
    rfl

/-! ## Logs of moved programs -/

/-- Reads of an expression are on its buffers. -/
theorem mem_buffers_of_mem_finds {e : Expr} {env : Env} {m : Memory} {s : Step}
    (h : s ∈ Step.finds m (e.cells c env m)) :
    ∃ b cell v, s = .read b cell v ∧ b ∈ e.buffers := by
  obtain ⟨b, cell, v, hCell, rfl⟩ := Step.mem_finds h
  obtain ⟨is, hPart, _⟩ := Expr.mem_cells.mp hCell
  exact ⟨b, cell, v, rfl, Expr.mem_buffers.mpr ⟨is, hPart⟩⟩

/-- **Logs of moved programs**: the row is evaluated, and the steps are made on it. -/
theorem logsTo_redirect {t : Stmt} (h : Movable y ws op row t) {env : Env} {m after : Memory}
    {r : Int} (hRow : row.valueWith? c env m = some r) {steps : List Step}
    (hLog : (t.change c env).LogsTo (m.fromRow y ws r) steps after)
    (hFresh : ∀ s ∈ steps, s.buffer ≠ ws) :
    ((redirect y ws op row t).change c env).LogsTo m
      (Step.finds m (row.cells c env m) ++ steps.map (Step.toRow y ws r))
      (m.toRow y ws r after) where
  here := by
    rw [Step.replay_append, Step.replay_toRow h.ne hFresh]
    refine Change.seq_eq_some.mpr ⟨m, Step.replay_finds m _, ?_⟩
    unfold Change.onRow
    rw [hLog.here]
    rfl
  again other other' hOther := by
    rw [Step.replay_append, Step.replay_toRow h.ne hFresh] at hOther
    obtain ⟨between, hReads, hSteps⟩ := Change.seq_eq_some.mp hOther
    -- where the reads are possible, the row is the same one
    obtain ⟨rfl, hSame⟩ := Expr.value_of_replay_finds hRow hReads
    obtain ⟨last, hLast, rfl⟩ := Option.map_eq_some_iff.mp hSteps
    rw [change_redirect t h env _ r hSame]
    unfold Change.onRow
    rw [hLog.again _ _ hLast]
    rfl

/-! ## Moved iterations -/

variable {used : List String}

/-- What a program can do can be done on a row by the moved program. -/
theorem mayMake_toRow {t : Stmt} (h : Movable y ws op row t) {s : Step}
    (hs : t.MayMake used s) (r : Int) :
    (redirect y ws op row t).MayMake (ws :: used) (s.toRow y ws r) := by
  have hWrites : ∀ b, b ≠ y → t.Writes b → (redirect y ws op row t).Writes b := by
    rintro b hb ⟨s', is, v, hStore⟩
    refine ⟨s', is, v, ?_⟩
    rw [nodes_redirect]
    exact List.mem_map.mpr ⟨_, hStore, redirect_other _ _ hb is v⟩
  have hMoved : t.Writes y → (redirect y ws op row t).Writes ws := by
    rintro ⟨s', is, v, hStore⟩
    rcases h.reduces _ hStore with ⟨s'', is', v', rhs, hEq, hReduction, _⟩ | hOther
    · cases hEq
      refine ⟨s', row :: is, op.combine (.load ws (row :: is)) rhs, ?_⟩
      rw [nodes_redirect]
      exact List.mem_map.mpr ⟨_, hStore, redirect_reduction _ _ hReduction⟩
    · exact absurd rfl (hOther.2 s' is v)
  by_cases hy : s.buffer = y
  · rw [Step.toRow_of_eq hy]
    cases s with
    | read b cell v => exact List.mem_cons_self
    | write b cell v => exact hMoved (hy ▸ hs)
    | update b cell op' v => exact hMoved (hy ▸ hs)
  · rw [Step.toRow_of_ne hy]
    cases s with
    | read b cell v => exact List.mem_cons_of_mem ws hs
    | write b cell v => exact hWrites b hy hs
    | update b cell op' v => exact hWrites b hy hs

/-- Steps of a program are not on the workspace. -/
theorem buffer_ne_space {t : Stmt} (h : Movable y ws op row t) (hUsed : ws ∉ used) {s : Step}
    (hs : t.MayMake used s) : s.buffer ≠ ws := by
  rintro rfl
  cases s with
  | read b cell v => exact hUsed hs
  | write b cell v => exact h.freshWrites hs
  | update b cell op' v => exact h.freshWrites hs

/-- Reads of the row are independent of what a program does. -/
theorem independent_row {t : Stmt} (h : Movable y ws op row t) {s : Step} (hs : t.MayMake used s)
    (r : Int) {b : String} (hb : b ∈ row.buffers) (cell : List Int) (v : Int) :
    (Step.read b cell v).Independent (s.toRow y ws r) := by
  have hRow : b ≠ ws := by
    rintro rfl
    exact h.freshRow hb
  by_cases hy : s.buffer = y
  · rw [Step.toRow_of_eq hy]
    intro hBuffer
    rw [Step.buffer_at_] at hBuffer
    exact absurd hBuffer hRow
  · rw [Step.toRow_of_ne hy]
    cases s with
    | read b' cell' v' => exact Step.independent_read b b' cell cell' v v'
    | write b' cell' v' =>
      intro hBuffer
      obtain rfl : b = b' := hBuffer
      exact absurd hs (h.still.writes b hb)
    | update b' cell' op' v' =>
      intro hBuffer
      obtain rfl : b = b' := hBuffer
      exact absurd hs (h.still.writes b hb)

/-- What is asked of the expressions that are known to have values.

    * **value**: the row has a value where they have;
    * **buffer**, **space**: they read neither the buffer nor the workspace. -/
structure RowKnown (c : Conventions) (y ws : String) (row : Expr) (known : List Expr) : Prop where
  value : ∀ env m, Stmt.Known c env known m → (row.valueWith? c env m).isSome
  buffer : ∀ e ∈ known, e.reads y = false
  space : ∀ e ∈ known, e.reads ws = false

theorem RowKnown.fromRow {known : List Expr} (h : RowKnown c y ws row known) {env : Env} {m : Memory}
    (hm : Stmt.Known c env known m) (r : Int) : Stmt.Known c env known (m.fromRow y ws r) := by
  intro e he
  rw [Movable.value_fromRow (h.buffer e he) (h.space e he)]
  exact hm e he

/-- **Inner loops**: when reductions are moved to a row, the iterations of a loop stay apart. -/
theorem apart_redirect {s : Site} {head : LoopHead} {body : Stmt} {known : List Expr}
    (h : Movable y ws op row (.loop s head body)) (hKnown : RowKnown c y ws row known)
    (hUsed : ws ∉ used) (hRowUsed : row.buffers ⊆ used) (hApart : Stmt.TurnsApart c used known head body) :
    Stmt.TurnsApart c (ws :: used) known head (redirect y ws op row body) := by
  have hBody := h.of_mem (u := body) (by simp [Stmt.self_mem_nodes])
  have hBound : ∀ e ∈ [head.lower, head.upper], ∀ env m r,
      e.valueWith? c env (Memory.fromRow m y ws r) = e.valueWith? c env m := fun e he env m r =>
    h.value_expr (fun _ _ _ hEq => by cases hEq) he env m r
  intro env at_ lower upper hLower hUpper
  obtain ⟨S, hS⟩ := hApart env at_ lower upper hLower hUpper
  refine ⟨fun v step => (∃ b cell w, b ∈ row.buffers ∧ step = .read b cell w)
    ∨ ∃ r s, S v s ∧ step = s.toRow y ws r, ?_, ?_, ?_⟩
  · intro v hv m m' hm hLower hUpper hRun
    obtain ⟨r, hRow⟩ := Option.isSome_iff_exists.mp (hKnown.value env m hm)
    have hRowSet := (h.still.value_set env v m).trans hRow
    rw [change_redirect body hBody _ m r hRowSet] at hRun
    obtain ⟨after, hAfter, rfl⟩ := Option.map_eq_some_iff.mp hRun
    obtain ⟨steps, hLog, hMade⟩ := hS.logged v hv _ after (hKnown.fromRow hm r)
      ((hBound _ (by simp) env m r).trans hLower) ((hBound _ (by simp) env m r).trans hUpper) hAfter
    refine ⟨_, logsTo_redirect hBody hRowSet hLog fun step hStep =>
      buffer_ne_space hBody hUsed (hS.made v step (hMade step hStep)), ?_⟩
    intro step hStep
    rcases List.mem_append.mp hStep with hStep | hStep
    · obtain ⟨b, cell, w, rfl, hb⟩ := mem_buffers_of_mem_finds hStep
      exact .inl ⟨b, cell, w, hb, rfl⟩
    · obtain ⟨s', hs', rfl⟩ := List.mem_map.mp hStep
      exact .inr ⟨r, s', hMade s' hs', rfl⟩
  · rintro v step (⟨b, cell, w, hb, rfl⟩ | ⟨r, s', hs', rfl⟩)
    · exact List.mem_cons_of_mem ws (hRowUsed hb)
    · exact mayMake_toRow hBody (hS.made v s' hs') r
  · intro v hv w hw hne step step' hStep hStep'
    rcases hStep with ⟨b, cell, x, hb, rfl⟩ | ⟨r, s', hs', rfl⟩
    · rcases hStep' with ⟨b', cell', x', _, rfl⟩ | ⟨r', s'', hs'', rfl⟩
      · exact Step.independent_read b b' cell cell' x x'
      · exact independent_row hBody (hS.made w s'' hs'') r' hb cell x
    · rcases hStep' with ⟨b', cell', x', hb', rfl⟩ | ⟨r', s'', hs'', rfl⟩
      · exact (independent_row hBody (hS.made v s' hs') r hb' cell' x').symm
      · exact (hS.independent v hv w hw hne s' s'' hs' hs'').toRow
          (buffer_ne_space hBody hUsed (hS.made v s' hs'))
          (buffer_ne_space hBody hUsed (hS.made w s'' hs'')) r r'

/-- **All inner loops**: by induction on the program. -/
theorem unordered_redirect {rest : List Nat} (hUsed : ws ∉ used) (hRowUsed : row.buffers ⊆ used) :
    ∀ (t : Stmt) (known : List Expr), Movable y ws op row t → RowKnown c y ws row known →
      Stmt.Unordered c used rest known t →
        Stmt.Unordered c (ws :: used) rest known (redirect y ws op row t) := by
  refine Stmt.ind ?_ ?_ ?_ ?_ ?_ ?_ ?_ ?_
  · intro s n b body ih known h hKnown hUnordered
    exact ih known (h.of_mem (by simp [Stmt.self_mem_nodes])) hKnown hUnordered
  · intro s head body ih known h hKnown hUnordered
    have hBody := h.of_mem (u := body) (by simp [Stmt.self_mem_nodes])
    rw [Stmt.Unordered] at hUnordered
    rw [redirect_loop, Stmt.Unordered]
    split
    · rename_i hParallel
      rw [if_pos hParallel] at hUnordered
      refine ⟨fun hId => apart_redirect h hKnown hUsed hRowUsed (hUnordered.1 hId), ?_⟩
      -- inside, the bounds are known as well
      have hBuffer := h.reduces.reads_eq_false (fun _ _ _ hEq => by cases hEq)
      refine ih _ hBody ⟨fun env m hm => ?_, ?_, ?_⟩ hUnordered.2
      · exact hKnown.value env m fun e he => hm e (by simp [he])
      · intro e he
        rcases List.mem_cons.mp he with rfl | he
        · exact hBuffer _ (by simp [Stmt.exprs])
        · rcases List.mem_cons.mp he with rfl | he
          · exact hBuffer _ (by simp [Stmt.exprs])
          · exact hKnown.buffer e he
      · intro e he
        rcases List.mem_cons.mp he with rfl | he
        · exact h.reads_space (by simp [Stmt.exprs])
        · rcases List.mem_cons.mp he with rfl | he
          · exact h.reads_space (by simp [Stmt.exprs])
          · exact hKnown.space e he
    · rename_i hParallel
      rw [if_neg hParallel] at hUnordered
      exact ih known hBody hKnown hUnordered
  · intro s e body ih known h hKnown hUnordered
    exact ih known (h.of_mem (by simp [Stmt.self_mem_nodes])) hKnown hUnordered
  · intro s e yes no ihYes ihNo known h hKnown hUnordered
    exact ⟨ihYes known (h.of_mem (by simp [Stmt.self_mem_nodes])) hKnown hUnordered.1,
      ihNo known (h.of_mem (by simp [Stmt.self_mem_nodes])) hKnown hUnordered.2⟩
  · intro s b is v known _ _ _
    unfold redirect redirectStore Stmt.bottomUp
    dsimp only
    split
    · split <;> trivial
    · trivial
  · intro s f args known _ _ _
    trivial
  · intro s ts ih known h hKnown hUnordered
    rw [Stmt.unordered_block] at hUnordered
    rw [redirect_block, Stmt.unordered_block]
    intro u hu
    obtain ⟨t, ht, rfl⟩ := List.mem_map.mp hu
    refine ih t ht known (h.of_mem ?_) hKnown (hUnordered t ht)
    rw [Stmt.nodes_block]
    exact List.mem_cons_of_mem _ (List.mem_flatMap.mpr ⟨t, ht, Stmt.self_mem_nodes t⟩)
  · intro s known _ _ _
    trivial

/-! ## The filling of a row -/

/-- Steps that evaluate the row and write to it. -/
def Fills (ws : String) (row : Expr) (r : Int) (s : Step) : Prop :=
  (∃ b cell v, b ∈ row.buffers ∧ s = .read b cell v) ∨ ∃ cell v, s = .write ws (r :: cell) v

/-- The memories that differ in the workspace only. -/
def SameBeside (ws : String) (base m : Memory) : Prop := ∀ b, b ≠ ws → m b = base b

theorem SameBeside.value {base m : Memory} (h : SameBeside ws base m) {e : Expr}
    (he : ws ∉ e.buffers) (env : Env) : e.valueWith? c env m = e.valueWith? c env base := by
  refine Expr.valueWith?_congr_names (fun _ _ => rfl) fun b hb => h b ?_
  rintro rfl
  exact he hb

/-- Expressions that read nothing are evaluated without a step. -/
theorem finds_of_buffers_eq_nil {e : Expr} (h : e.buffers = []) (env : Env) (m : Memory) :
    Step.finds m (e.cells c env m) = [] := by
  by_contra hNot
  obtain ⟨s, hs⟩ := List.exists_mem_of_ne_nil _ hNot
  obtain ⟨b, _, _, _, hb⟩ := mem_buffers_of_mem_finds hs
  rw [h] at hb
  cases hb

theorem makes_inTurn {P : Memory → Prop} {S : Step → Prop} {as : List Change}
    (h : ∀ a ∈ as, a.Makes P S) : (Change.inTurn as).Makes P S := by
  induction as with
  | nil =>
    intro m m' hm hRun
    obtain rfl : m = m' := Option.some.inj hRun
    exact ⟨hm, [], .skip m, fun _ hs => by cases hs⟩
  | cons a as ih =>
    intro m m' hm hRun
    obtain ⟨between, hHead, hTail⟩ := Change.seq_eq_some.mp hRun
    obtain ⟨hBetween, steps, hSteps, hMade⟩ := h a List.mem_cons_self m between hm hHead
    obtain ⟨hLast, more, hMore, hMade'⟩ :=
      ih (fun a' ha' => h a' (List.mem_cons_of_mem a ha')) between m' hBetween hTail
    refine ⟨hLast, steps ++ more, hSteps.seq hMore, fun s hs => ?_⟩
    rcases List.mem_append.mp hs with hs | hs
    · exact hMade s hs
    · exact hMade' s hs

/-- **Fillings** evaluate the row and write to it. By induction on the loops around the store. -/
theorem makes_fill {base : Memory} {r : Int} (hws : ws ∉ row.buffers) {is : List Expr}
    (hIndices : ∀ i ∈ is, i.buffers = []) {v : Expr} (hValue : v.buffers = []) (s : Site)
    (axes : List (String × Expr)) :
    (∀ axis ∈ axes, axis.1 ∉ row.scalars ∧ axis.2.buffers = []) → ∀ (next : Nat) (env : Env),
      row.valueWith? c env base = some r →
        ((loopsAround next (.store s ws (row :: is) v) axes).1.change c env).Makes
          (SameBeside ws base) (Fills ws row r) := by
  induction axes with
  | nil =>
    intro _ next env hRow m m' hm hRun
    rw [loopsAround, Stmt.change_store_plain] at hRun ⊢
    dsimp only at hRun
    obtain ⟨cells, hCells, hRun⟩ := Option.bind_eq_some_iff.mp hRun
    obtain ⟨w, hw, hWrite⟩ := Option.bind_eq_some_iff.mp hRun
    have hHead : ∃ cell, cells = r :: cell := by
      have hParts := hCells
      simp only [Expr.valuesWith?, hm.value hws, hRow, Option.bind_eq_bind, Option.bind_some,
        Option.bind_eq_some_iff] at hParts
      obtain ⟨rest, _, hEq⟩ := hParts
      exact ⟨rest, (Option.some.inj hEq).symm⟩
    obtain ⟨cell, rfl⟩ := hHead
    refine ⟨fun b hb => ?_, _, Change.LogsTo.evaluateAll hCells
      (Change.LogsTo.evaluate hw (.step hWrite)), fun step hStep => ?_⟩
    · obtain ⟨x, _, rfl⟩ := Step.change_eq_some.mp hWrite
      exact (Memory.place_ne_buffer m hb _ x).trans (hm b hb)
    · rw [finds_of_buffers_eq_nil hValue, List.nil_append] at hStep
      rcases List.mem_append.mp hStep with hStep | hStep
      · obtain ⟨b, k, x, hCell, rfl⟩ := Step.mem_finds hStep
        obtain ⟨i, hi, hCell⟩ := List.mem_flatMap.mp hCell
        obtain ⟨js, hPart, _⟩ := Expr.mem_cells.mp hCell
        have hb : b ∈ i.buffers := Expr.mem_buffers.mpr ⟨js, hPart⟩
        rcases List.mem_cons.mp hi with rfl | hi
        · exact .inl ⟨b, k, x, hb, rfl⟩
        · rw [hIndices i hi] at hb
          cases hb
      · exact .inr ⟨cell, w, List.mem_singleton.mp hStep⟩
  | cons axis axes ih =>
    intro hAxes next env hRow m m' hm hRun
    obtain ⟨hIter, hExtent⟩ := hAxes axis List.mem_cons_self
    have hLoop : (loopsAround next (.store s ws (row :: is) v) (axis :: axes)).1.change c env
        = fun m => (Expr.valueWith? c env m (.int 0)).bind fun lower =>
          (axis.2.valueWith? c env m).bind fun upper =>
            Change.inTurn ((counting lower upper).map fun v' =>
              (loopsAround next (.store s ws (row :: is) v) axes).1.change c
                (env.set axis.1 v')) m := by
      funext m
      exact Stmt.change_loop c env _ _ _ m
    rw [hLoop] at hRun ⊢
    dsimp only at hRun
    obtain ⟨lower, hLower, hRun⟩ := Option.bind_eq_some_iff.mp hRun
    obtain ⟨upper, hUpper, hRun⟩ := Option.bind_eq_some_iff.mp hRun
    have hTurns := makes_inTurn (P := SameBeside ws base) (S := Fills ws row r) (fun a ha => by
      obtain ⟨v', _, rfl⟩ := List.mem_map.mp ha
      refine ih (fun axis' h' => hAxes axis' (List.mem_cons_of_mem axis h')) next
        (env.set axis.1 v') ?_
      rw [← hRow]
      refine Expr.valueWith?_congr_names (fun x hx => Env.set_ne ?_) fun _ _ => rfl
      rintro rfl
      exact hIter hx) m m' hm hRun
    obtain ⟨hLast, steps, hSteps, hMade⟩ := hTurns
    refine ⟨hLast, _, Change.LogsTo.evaluate hLower (Change.LogsTo.evaluate hUpper hSteps), ?_⟩
    rw [finds_of_buffers_eq_nil rfl, finds_of_buffers_eq_nil hExtent]
    exact hMade

/-! ## The loop itself -/

theorem writes_loopsAround {s : Site} {b : String} {is : List Expr} {v : Expr} {b' : String} :
    ∀ (axes : List (String × Expr)) (next : Nat),
      (loopsAround next (.store s b is v) axes).1.Writes b' ↔ b' = b := by
  intro axes next
  induction axes with
  | nil =>
    rw [loopsAround]
    constructor
    · rintro ⟨s', is', v', h⟩
      rw [Stmt.nodes_store, List.mem_singleton] at h
      cases h
      rfl
    · rintro rfl
      exact ⟨s, is, v, Stmt.self_mem_nodes _⟩
  | cons axis axes ih =>
    rw [← ih, loopsAround]
    constructor
    · rintro ⟨s', is', v', h⟩
      exact ⟨s', is', v', by simpa using h⟩
    · exact fun h => h.of_mem (by simp [Stmt.self_mem_nodes])

/-- **The loop of a workspace**: an iteration that fills its row and reduces into it is apart from
    the others, which have other rows. -/
theorem apart_filling {head : LoopHead} {body : Stmt} {known : List Expr} (site : Site)
    (h : Movable y ws op row body) (hUsed : ws ∉ used) (hRowUsed : row.buffers ⊆ used)
    (hKnown : ∀ e ∈ known, e.reads y = false ∧ e.reads ws = false)
    (hBounds : ∀ e ∈ [head.lower, head.upper], e.reads y = false ∧ e.reads ws = false)
    (hRow : ∀ env v m lower, head.lower.valueWith? c env m = some lower →
      row.valueWith? c (env.set head.iter v) m = some (v - lower))
    {is : List Expr} (hIndices : ∀ i ∈ is, i.buffers = []) {value : Expr}
    (hValue : value.buffers = []) {axes : List (String × Expr)}
    (hAxes : ∀ axis ∈ axes, axis.1 ∉ row.scalars ∧ axis.2.buffers = []) (next : Nat)
    (hApart : Stmt.TurnsApart c used known head body) :
    Stmt.TurnsApart c (ws :: used) known head
      (.block site [(fillNest next axes ws (row :: is) value).1, redirect y ws op row body]) := by
  let fill := (fillNest next axes ws (row :: is) value).1
  have hSeen : ∀ e : Expr, e.reads y = false ∧ e.reads ws = false → ∀ env m m' r,
      SameBeside ws m m' →
        e.valueWith? c env (Memory.fromRow m' y ws r) = e.valueWith? c env m := by
    intro e he env m m' r hSame
    rw [Movable.value_fromRow he.1 he.2]
    refine hSame.value (fun hMem => ?_) env
    rw [Expr.reads_iff.mpr hMem] at he
    cases he.2
  intro env at_ lower upper hLower hUpper
  obtain ⟨S, hS⟩ := hApart env at_ lower upper hLower hUpper
  refine ⟨fun v step => Fills ws row (v - lower) step
    ∨ ∃ s, S v s ∧ step = s.toRow y ws (v - lower), ?_, ?_, ?_⟩
  · intro v hv m m' hm hLower hUpper hRun
    have hRowHere := hRow env v m lower hLower
    rw [Stmt.change_block] at hRun
    obtain ⟨filled, hFill, hRun⟩ := Change.seq_eq_some.mp hRun
    obtain ⟨last, hMoved, hEnd⟩ := Change.seq_eq_some.mp hRun
    obtain rfl : last = m' := Option.some.inj hEnd
    obtain ⟨hSame, steps, hSteps, hMade⟩ := makes_fill h.freshRow hIndices hValue _ axes hAxes
      (next + 1) (env.set head.iter v) hRowHere m filled (fun _ _ => rfl) hFill
    have hRowThen : row.valueWith? c (env.set head.iter v) filled = some (v - lower) :=
      (hSame.value h.freshRow _).trans hRowHere
    rw [change_redirect body h _ filled _ hRowThen] at hMoved
    obtain ⟨after, hAfter, rfl⟩ := Option.map_eq_some_iff.mp hMoved
    obtain ⟨more, hLog, hMore⟩ := hS.logged v hv _ after
      (fun e he => by
        rw [hSeen e (hKnown e he) env m filled _ hSame]
        exact hm e he)
      ((hSeen _ (hBounds _ (by simp)) env m filled _ hSame).trans hLower)
      ((hSeen _ (hBounds _ (by simp)) env m filled _ hSame).trans hUpper) hAfter
    have hThen := logsTo_redirect h hRowThen hLog fun step hStep =>
      buffer_ne_space h hUsed (hS.made v step (hMore step hStep))
    refine ⟨steps ++ ((Step.finds filled (row.cells c (env.set head.iter v) filled)
      ++ more.map (Step.toRow y ws (v - lower))) ++ []), ?_, ?_⟩
    · rw [Stmt.change_block]
      exact hSteps.seq (hThen.seq (.skip _))
    · intro step hStep
      rw [List.append_nil] at hStep
      rcases List.mem_append.mp hStep with hStep | hStep
      · exact .inl (hMade step hStep)
      · rcases List.mem_append.mp hStep with hStep | hStep
        · obtain ⟨b, cell, x, rfl, hb⟩ := mem_buffers_of_mem_finds hStep
          exact .inl (.inl ⟨b, cell, x, hb, rfl⟩)
        · obtain ⟨s, hs, rfl⟩ := List.mem_map.mp hStep
          exact .inr ⟨s, hMore s hs, rfl⟩
  · have hWrites : ∀ {u : Stmt} {b : String}, u ∈ [fill, redirect y ws op row body] →
        u.Writes b → (Stmt.block site [fill, redirect y ws op row body]).Writes b := by
      intro u b hu hWrites
      refine hWrites.of_mem ?_
      rw [Stmt.nodes_block]
      exact List.mem_cons_of_mem _ (List.mem_flatMap.mpr ⟨u, hu, Stmt.self_mem_nodes u⟩)
    rintro v step ((⟨b, cell, x, hb, rfl⟩ | ⟨cell, x, rfl⟩) | ⟨s, hs, rfl⟩)
    · exact List.mem_cons_of_mem ws (hRowUsed hb)
    · exact hWrites List.mem_cons_self ((writes_loopsAround axes (next + 1)).mpr rfl)
    · have hMake := mayMake_toRow h (hS.made v s hs) (v - lower)
      generalize s.toRow y ws (v - lower) = step at hMake
      cases step with
      | read b cell x => exact hMake
      | write b cell x => exact hWrites (by simp) hMake
      | update b cell op' x => exact hWrites (by simp) hMake
  · intro v hv w hw hne step step' hStep hStep'
    have hRows : v - lower ≠ w - lower := by omega
    -- a write to one row and a step of the body on another one
    have hWrite : ∀ {v w : Int}, v - lower ≠ w - lower → ∀ cell x s, body.MayMake used s →
        (Step.write ws ((v - lower) :: cell) x).Independent (s.toRow y ws (w - lower)) := by
      intro v w hRows cell x s hs
      by_cases hy : s.buffer = y
      · rw [Step.toRow_of_eq hy]
        intro _ hCell
        rw [Step.cell_at_] at hCell
        exact absurd (List.cons_eq_cons.mp hCell).1 hRows
      · rw [Step.toRow_of_ne hy]
        intro hBuffer
        exact absurd hBuffer.symm (buffer_ne_space h hUsed hs)
    have hRead : ∀ {b : String}, b ∈ row.buffers → ∀ cell x cell' x',
        (Step.read b cell x).Independent (.write ws cell' x') := by
      intro b hb cell x cell' x' hBuffer
      obtain rfl : b = ws := hBuffer
      exact absurd hb h.freshRow
    rcases hStep with (⟨b, cell, x, hb, rfl⟩ | ⟨cell, x, rfl⟩) | ⟨s, hs, rfl⟩
    · rcases hStep' with (⟨b', cell', x', hb', rfl⟩ | ⟨cell', x', rfl⟩) | ⟨s', hs', rfl⟩
      · exact Step.independent_read b b' cell cell' x x'
      · exact hRead hb cell x _ x'
      · exact independent_row h (hS.made w s' hs') _ hb cell x
    · rcases hStep' with (⟨b', cell', x', hb', rfl⟩ | ⟨cell', x', rfl⟩) | ⟨s', hs', rfl⟩
      · exact (hRead hb' cell' x' _ x).symm
      · intro _ hCell
        exact absurd (List.cons_eq_cons.mp hCell).1 hRows
      · exact hWrite hRows cell x s' (hS.made w s' hs')
    · rcases hStep' with (⟨b', cell', x', hb', rfl⟩ | ⟨cell', x', rfl⟩) | ⟨s', hs', rfl⟩
      · exact (independent_row h (hS.made v s hs) _ hb' cell' x').symm
      · exact (hWrite hRows.symm cell' x' s (hS.made v s hs)).symm
      · exact (hS.independent v hv w hw hne s s' hs hs').toRow
          (buffer_ne_space h hUsed (hS.made v s hs)) (buffer_ne_space h hUsed (hS.made w s' hs')) _ _

end Lower

end LoopNest

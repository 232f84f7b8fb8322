import LoopNest.Proofs.MovedReductions
import LoopNest.Proofs.TypedRuns

/-! # Rows that collect

  The reductions of a program combine the cells of a buffer with operands. When they are moved to a
  row, the row collects the operands (`Lower.gathers_redirect`), and everything else is done as
  before.

  Operands that were combined with a neutral element first can be combined with the cell afterwards
  (`ReduceOp.value_foldl`). -/

namespace LoopNest

/-! ## Operands -/

/-- Operands with the cells that they are combined with, in order. -/
abbrev Operands := List (List Int × Int)

/-- The operands for one cell. -/
def Operands.at_ (us : Operands) (cell : List Int) : List Int :=
  us.filterMap fun u => if u.1 = cell then some u.2 else none

namespace Operands

@[simp] theorem at_nil (cell : List Int) : at_ [] cell = [] := rfl

@[simp] theorem at_append (us vs : Operands) (cell : List Int) :
    at_ (us ++ vs) cell = us.at_ cell ++ vs.at_ cell := List.filterMap_append ..

theorem at_eq_nil {us : Operands} {cell : List Int} (h : ∀ u ∈ us, u.1 ≠ cell) :
    us.at_ cell = [] := by
  unfold at_
  rw [List.filterMap_eq_nil_iff]
  intro u hu
  rw [if_neg (h u hu)]

end Operands

namespace ReduceOp

/-- The cells of a buffer after some operands have been combined with them. -/
def collect (op : ReduceOp) (us : Operands) (cells : Cells) : Cells := fun cell =>
  (cells cell).map fun x => (us.at_ cell).foldl op.value x

variable (op : ReduceOp)

@[simp] theorem collect_nil (cells : Cells) : op.collect [] cells = cells := by
  funext cell
  simp [collect]

theorem collect_append (us vs : Operands) (cells : Cells) :
    op.collect (us ++ vs) cells = op.collect vs (op.collect us cells) := by
  funext cell
  unfold collect
  rw [Operands.at_append, Option.map_map]
  congr 1
  funext x
  exact List.foldl_append

/-- One operand changes one cell. -/
theorem collect_single {cells : Cells} {cell : List Int} {old : Int} (h : cells cell = some old)
    (x : Int) (k : List Int) : op.collect [(cell, x)] cells k
      = if k = cell then some (op.value old x) else cells k := by
  unfold collect Operands.at_
  by_cases hk : k = cell
  · simp [hk, h]
  · simp [hk, Ne.symm hk]

theorem collect_eq {us : Operands} {cell : List Int} (h : ∀ u ∈ us, u.1 ≠ cell) (cells : Cells) :
    op.collect us cells cell = cells cell := by
  unfold collect
  rw [Operands.at_eq_nil h]
  simp

theorem value_assoc (x r s : Int) : op.value (op.value x r) s = op.value x (op.value r s) := by
  cases op
  · exact Int.add_assoc x r s
  · exact Int.mul_assoc x r s
  · exact Int.min_assoc x r s
  · exact Int.max_assoc x r s

/-- **Combining late**: operands may be combined with a neutral element first. -/
theorem value_foldl {x e : Int} (h : op.value x e = x) (us : List Int) :
    op.value x (us.foldl op.value e) = us.foldl op.value x := by
  have hGeneral : ∀ (us : List Int) (a : Int),
      op.value x (us.foldl op.value a) = us.foldl op.value (op.value x a) := by
    intro us
    induction us with
    | nil => exact fun _ => rfl
    | cons u us ih =>
      intro a
      rw [List.foldl_cons, List.foldl_cons, ih, value_assoc]
  rw [hGeneral, h]

/-- The neutral element of an integer type is neutral for the numbers of the type. -/
theorem neutral_of_range {elem : ElemType} {least greatest : Int}
    (hRange : elem.range? = some (least, greatest)) {neutral : Expr}
    (hNeutral : op.neutral? elem = some neutral) :
    ∃ e, neutral = .int e ∧ ∀ x, least ≤ x → x ≤ greatest → op.value x e = x := by
  have hValue : ∀ x, least ≤ x → x ≤ greatest →
      op.value x (op.neutralInt least greatest) = x := by
    intro x hLeast hGreatest
    cases op
    · exact Int.add_zero x
    · exact Int.mul_one x
    · exact Int.min_eq_left hGreatest
    · exact Int.max_eq_left hLeast
  refine ⟨op.neutralInt least greatest, ?_, hValue⟩
  cases elem
  all_goals
    cases hRange
    try exact (Option.some.inj hNeutral).symm

end ReduceOp

namespace Memory

/-- A row of a buffer. -/
def row (m : Memory) (ws : String) (r : Int) : Cells := fun cell => m ws (r :: cell)

/-- Two memories differ at most in two buffers. -/
def SameApart (y ws : String) (m z : Memory) : Prop := ∀ b, b ≠ y → b ≠ ws → z b = m b

end Memory

namespace Lower

/-! ## Rows that collect -/

variable {y ws : String} {op : ReduceOp} {row : Expr} {l : Limit} {own : List String}
  {c : Conventions}

/-- What is left of `z` when a row collects operands. Beside the buffer and the workspace it is as
    in `m'`. -/
structure Gathered (y ws : String) (op : ReduceOp) (us : Operands) (r : Int) (m' z z' : Memory) :
    Prop where
  same : m'.SameApart y ws z'
  buffer : z' y = z y
  row : z'.row ws r = op.collect us (z.row ws r)
  rows : ∀ cell : List Int, cell.head? ≠ some r → z' ws cell = z ws cell

theorem Gathered.trans {us vs : Operands} {r : Int} {m m' z z' z'' : Memory}
    (h : Gathered y ws op us r m z z') (h' : Gathered y ws op vs r m' z' z'') :
    Gathered y ws op (us ++ vs) r m' z z'' where
  same := h'.same
  buffer := h'.buffer.trans h.buffer
  row := by rw [h'.row, h.row, ReduceOp.collect_append]
  rows cell hCell := (h'.rows cell hCell).trans (h.rows cell hCell)

/-- Whether all cells of a shape have a content. -/
def Filled (l : Limit) (cells : Cells) : Prop := ∀ cell, l.Contains cell → (cells cell).isSome

/-- The first effect combines operands with cells of the buffer. The second one does the same beside
    the buffer, and a row collects the operands. -/
def Gathers (c : Conventions) (y ws : String) (op : ReduceOp) (row : Expr) (l : Limit) (env : Env)
    (first second : Effect) : Prop :=
  ∀ m m', first m m' → ∃ us : Operands, (∀ u ∈ us, l.Contains u.1) ∧ m' y = op.collect us (m y)
    ∧ ∀ z r, m.SameApart y ws z → row.valueWith? c env z = some r → Filled l (z.row ws r) →
      ∃ z', second z z' ∧ Gathered y ws op us r m' z z' ∧ row.valueWith? c env z' = some r

theorem Filled.collect {cells : Cells} (h : Filled l cells) (us : Operands) :
    Filled l (op.collect us cells) := by
  intro cell hCell
  unfold ReduceOp.collect
  rw [Option.isSome_map]
  exact h cell hCell

namespace Gathers

/-- Nothing is collected where nothing happens. -/
theorem skip {env : Env} : Gathers c y ws op row l env .skip .skip := by
  intro m m' hSkip
  obtain rfl : m' = m := hSkip
  refine ⟨[], by simp, (op.collect_nil _).symm, fun z r hSame hRow _ => ?_⟩
  exact ⟨z, rfl, ⟨hSame, rfl, (op.collect_nil _).symm, fun _ _ => rfl⟩, hRow⟩

theorem seq {env : Env} {a a' b b' : Effect} (ha : Gathers c y ws op row l env a a')
    (hb : Gathers c y ws op row l env b b') :
    Gathers c y ws op row l env (a.seq b) (a'.seq b') := by
  intro m m' hRun
  obtain ⟨between, hHead, hTail⟩ := hRun
  obtain ⟨us, hUs, hBetween, hFirst⟩ := ha m between hHead
  obtain ⟨vs, hVs, hLast, hSecond⟩ := hb between m' hTail
  refine ⟨us ++ vs, fun u hu => ?_, ?_, fun z r hSame hRow hFilled => ?_⟩
  · rcases List.mem_append.mp hu with hu | hu
    · exact hUs u hu
    · exact hVs u hu
  · rw [hLast, hBetween, ReduceOp.collect_append]
  · obtain ⟨z', hRun, hGathered, hRow'⟩ := hFirst z r hSame hRow hFilled
    have hFilled' : Filled l (z'.row ws r) := by
      rw [hGathered.row]
      exact hFilled.collect us
    obtain ⟨z'', hRun', hGathered', hRow''⟩ := hSecond z' r hGathered.same hRow' hFilled'
    exact ⟨z'', ⟨z', hRun, hRun'⟩, hGathered.trans hGathered', hRow''⟩

theorem inTurn {α : Type} {env : Env} {f g : α → Effect} {xs : List α}
    (h : ∀ x ∈ xs, Gathers c y ws op row l env (f x) (g x)) :
    Gathers c y ws op row l env (.inTurn (xs.map f)) (.inTurn (xs.map g)) := by
  induction xs with
  | nil => exact skip
  | cons x xs ih =>
    exact (h x List.mem_cons_self).seq (ih fun x' hx' => h x' (List.mem_cons_of_mem x hx'))

/-- Only the value of the row counts. -/
theorem congr_env {env env' : Env} {a b : Effect}
    (hRow : ∀ m, row.valueWith? c env' m = row.valueWith? c env m)
    (h : Gathers c y ws op row l env' a b) : Gathers c y ws op row l env a b := by
  intro m m' hRun
  obtain ⟨us, hUs, hBuffer, hEach⟩ := h m m' hRun
  refine ⟨us, hUs, hBuffer, fun z r hSame hRowHere hFilled => ?_⟩
  obtain ⟨z', hRun', hGathered, hRow'⟩ := hEach z r hSame ((hRow z).trans hRowHere) hFilled
  exact ⟨z', hRun', hGathered, (hRow z').symm.trans hRow'⟩

end Gathers

/-- What reads neither the buffer nor the workspace has one value on memories that differ there. -/
theorem value_of_sameApart {m z : Memory} (h : m.SameApart y ws z) {e : Expr}
    (hy : e.reads y = false) (hws : e.reads ws = false) (env : Env) :
    e.valueWith? c env z = e.valueWith? c env m := by
  refine Expr.valueWith?_congr_names (fun _ _ => rfl) fun b hb => h b ?_ ?_
  · rintro rfl
    rw [Expr.reads_iff.mpr hb] at hy
    cases hy
  · rintro rfl
    rw [Expr.reads_iff.mpr hb] at hws
    cases hws

section

variable {limits : Limits} {env : Env}

/-- The expressions of a statement that is no store of the buffer. -/
theorem Movable.value_sameApart {t : Stmt} (h : Movable y ws op row t)
    (hNot : ∀ s is v, t ≠ .store s y is v) {e : Expr} (he : e ∈ t.exprs) {m z : Memory}
    (hSame : m.SameApart y ws z) : e.valueWith? c env z = e.valueWith? c env m :=
  value_of_sameApart hSame (h.reduces.reads_eq_false hNot e he) (h.reads_space he) env

/-- A reduction that is moved to a row. -/
theorem gathers_reduction {s : Site} {is : List Expr} {v rhs : Expr}
    (hReduction : Expr.reduction? y is v = some (op, rhs)) (hReads : ∀ i ∈ is, i.reads y = false)
    (h : Movable y ws op row (.store s y is v)) (hl : limits y = some l) (hws : limits ws = none) :
    Gathers c y ws op row l env ((Stmt.store s y is v).StaysWithin own c limits env)
      ((redirect y ws op row (.store s y is v)).StaysWithin own c limits env) := by
  have hRhs : rhs.reads ws = false := by
    by_contra hNot
    obtain ⟨is', hPart⟩ := Expr.mem_buffers.mp (Expr.reads_iff.mp (by simpa using hNot))
    have hValue : v.reads ws = false := h.reads_space (by simp [Stmt.exprs])
    rw [Expr.reads_iff.mpr (Expr.mem_buffers.mpr ⟨is', (Expr.of_reduction? hReduction).2.1 _ hPart⟩)]
      at hValue
    cases hValue
  intro m m' hRun
  rw [Stmt.StaysWithin] at hRun
  obtain ⟨cell, value, hCell, hValue, hAdmit, rfl⟩ := hRun
  rw [(Expr.of_reduction? hReduction).2.2, hCell, Option.bind_some] at hValue
  obtain ⟨old, hOld, hValue⟩ := Option.bind_eq_some_iff.mp hValue
  obtain ⟨x, hx, rfl⟩ := Option.map_eq_some_iff.mp hValue
  have hContains : l.Contains cell := (hAdmit l hl).1
  refine ⟨[(cell, x)], fun u hu => ?_, ?_, fun z r hSame hRow hFilled => ?_⟩
  · obtain rfl := List.mem_singleton.mp hu
    exact hContains
  · funext k
    rw [ReduceOp.collect_single op hOld]
    by_cases hk : k = cell
    · rw [hk, if_pos rfl, Memory.put_self]
    · rw [if_neg hk, Memory.put_ne_indices hk]
  · -- the row has a content in the cell, which is combined with the same operand
    obtain ⟨held, hHeld⟩ := Option.isSome_iff_exists.mp (hFilled cell hContains)
    have hIndices : Expr.valuesWith? c env z is = some cell := by
      rw [← hCell]
      exact Expr.valuesWith?_congr fun i hi =>
        value_of_sameApart hSame (hReads i hi) (h.reads_space (by simp [Stmt.exprs, hi])) env
    have hOperand : rhs.valueWith? c env z = some x := by
      rw [← hx]
      exact value_of_sameApart hSame (Expr.of_reduction? hReduction).1 hRhs env
    have hCells : Expr.valuesWith? c env z (row :: is) = some (r :: cell) := by
      rw [Expr.valuesWith?, hRow, hIndices]
      rfl
    have hLoad : Expr.valueWith? c env z (.load ws (row :: is)) = some held := by
      rw [Expr.valueWith?, hCells]
      exact hHeld
    refine ⟨z.put ws (r :: cell) (op.value held x), ?_, ⟨fun b hb hb' => ?_, ?_, ?_, ?_⟩, ?_⟩
    · rw [redirect_reduction _ _ hReduction, Stmt.StaysWithin]
      refine ⟨r :: cell, op.value held x, hCells, ?_, fun l' hl' => ?_, rfl⟩
      · rw [ReduceOp.combine, Expr.valueWith?, hLoad, hOperand]
        exact op.valueWith?_toBinary c held x
      · rw [hws] at hl'
        cases hl'
    · rw [Memory.put_ne_buffer hb', Memory.put_ne_buffer hb]
      exact hSame b hb hb'
    · exact Memory.put_ne_buffer (Ne.symm h.ne)
    · funext k
      rw [ReduceOp.collect_single op hHeld]
      unfold Memory.row
      by_cases hk : k = cell
      · rw [hk, if_pos rfl, Memory.put_self]
      · rw [if_neg hk, Memory.put_ne_indices fun hEq => hk (List.cons_eq_cons.mp hEq).2]
    · intro k hk
      refine Memory.put_ne_indices ?_
      rintro rfl
      exact hk rfl
    · rw [← hRow]
      refine Expr.valueWith?_congr_names (fun _ _ => rfl) fun b hb => Memory.put_ne_buffer ?_
      rintro rfl
      exact h.freshRow hb

/-- A store to another buffer. -/
theorem gathers_other {s : Site} {b : String} {is : List Expr} {v : Expr}
    (h : Movable y ws op row (.store s b is v)) (hb : b ≠ y) :
    Gathers c y ws op row l env ((Stmt.store s b is v).StaysWithin own c limits env)
      ((redirect y ws op row (.store s b is v)).StaysWithin own c limits env) := by
  have hNot : ∀ s' is' v', Stmt.store s b is v ≠ .store s' y is' v' := by
    intro s' is' v' hEq
    cases hEq
    exact hb rfl
  have hb' : b ≠ ws := by
    rintro rfl
    exact h.freshWrites ⟨s, is, v, Stmt.self_mem_nodes _⟩
  intro m m' hRun
  rw [redirect_other _ _ hb]
  rw [Stmt.StaysWithin] at hRun ⊢
  obtain ⟨cell, value, hCell, hValue, hAdmit, rfl⟩ := hRun
  refine ⟨[], by simp, ?_, fun z r hSame hRow _ => ?_⟩
  · rw [ReduceOp.collect_nil, Memory.put_ne_buffer (Ne.symm hb)]
  · have hIndices : Expr.valuesWith? c env z is = some cell := by
      rw [← hCell]
      exact Expr.valuesWith?_congr fun i hi =>
        h.value_sameApart hNot (by simp [Stmt.exprs, hi]) hSame
    have hValue' : v.valueWith? c env z = some value :=
      (h.value_sameApart hNot (by simp [Stmt.exprs]) hSame).trans hValue
    refine ⟨z.put b cell value, ⟨cell, value, hIndices, hValue', hAdmit, rfl⟩,
      ⟨fun b'' hy hws => ?_, ?_, ?_, ?_⟩, ?_⟩
    · by_cases hEq : b'' = b
      · subst hEq
        funext k
        by_cases hk : k = cell
        · rw [hk, Memory.put_self, Memory.put_self]
        · rw [Memory.put_ne_indices hk, Memory.put_ne_indices hk, hSame b'' hy hws]
      · rw [Memory.put_ne_buffer hEq, Memory.put_ne_buffer hEq]
        exact hSame b'' hy hws
    · exact Memory.put_ne_buffer (Ne.symm hb)
    · rw [ReduceOp.collect_nil]
      unfold Memory.row
      rw [Memory.put_ne_buffer (Ne.symm hb')]
    · intro k _
      rw [Memory.put_ne_buffer (Ne.symm hb')]
    · rw [← hRow]
      refine Expr.valueWith?_congr_names (fun _ _ => rfl) fun b'' hMem => Memory.put_ne_buffer ?_
      rintro rfl
      exact h.still.writes b'' hMem ⟨s, is, v, Stmt.self_mem_nodes _⟩

end

/-- **Rows collect**: what the reductions of a program do to a buffer is done to the row to which
    they are moved. -/
theorem gathers_redirect (own : List String) :
    ∀ t : Stmt, Movable y ws op row t → ∀ (limits : Limits) (env : Env), limits y = some l →
      limits ws = none → Gathers c y ws op row l env (t.StaysWithin own c limits env)
        ((redirect y ws op row t).StaysWithin own c limits env) := by
  have hNoStore : ∀ {t : Stmt}, (∀ s b is v, t ≠ .store s b is v) →
      ∀ s is v, t ≠ .store s y is v := fun h s is v => h s y is v
  refine Stmt.ind ?_ ?_ ?_ ?_ ?_ ?_ ?_ ?_
  · intro s n b body ih h limits env hl hws
    have hBody := h.of_mem (u := body) (by simp [Stmt.self_mem_nodes])
    have hy : n ≠ y := by
      rintro rfl
      exact h.declares ⟨s, b, body, Stmt.self_mem_nodes _⟩
    have hws' : n ≠ ws := by
      rintro rfl
      exact h.freshDeclares ⟨s, b, body, Stmt.self_mem_nodes _⟩
    intro m m' hRun
    rw [Stmt.StaysWithin] at hRun
    obtain ⟨inner, hRun⟩ := hRun
    rw [redirect_decl, Stmt.StaysWithin]
    split at hRun
    · rename_i hCache
      obtain ⟨hEnter, last, hRun, rfl⟩ := hRun
      obtain ⟨us, hUs, hBuffer, hEach⟩ := ih hBody inner env
        ((hEnter.other (Ne.symm hy)).trans hl) ((hEnter.other (Ne.symm hws')).trans hws) _ last hRun
      rw [Memory.exchange_ne (Ne.symm hy)] at hBuffer
      refine ⟨us, hUs, ?_, fun z r hSame hRow hFilled => ?_⟩
      · rw [Memory.exchange_ne (Ne.symm hy), hBuffer]
      · have hRowIn : ((z.exchange n (c.fresh s.label n)).row ws r) = z.row ws r := by
          unfold Memory.row
          rw [Memory.exchange_ne (Ne.symm hws')]
        have hSameIn : (m.exchange n (c.fresh s.label n)).SameApart y ws
            (z.exchange n (c.fresh s.label n)) := by
          intro b' hb hb'
          by_cases hEq : b' = n
          · rw [hEq, Memory.exchange_self, Memory.exchange_self]
          · rw [Memory.exchange_ne hEq, Memory.exchange_ne hEq]
            exact hSame b' hb hb'
        obtain ⟨z', hRun', hGathered, hRow'⟩ := hEach (z.exchange n (c.fresh s.label n)) r hSameIn
          ((h.still.value_exchange env z _).trans hRow) (hRowIn ▸ hFilled)
        refine ⟨z'.exchange n (z n), ⟨inner, ?_⟩, ⟨fun b' hb hb' => ?_, ?_, ?_, ?_⟩,
          (h.still.value_exchange env z' _).trans hRow'⟩
        · rw [if_pos hCache]
          exact ⟨hEnter, z', hRun', rfl⟩
        · by_cases hEq : b' = n
          · rw [hEq, Memory.exchange_self, Memory.exchange_self]
            exact hSame n hy hws'
          · rw [Memory.exchange_ne hEq, Memory.exchange_ne hEq]
            exact hGathered.same b' hb hb'
        · rw [Memory.exchange_ne (Ne.symm hy), hGathered.buffer, Memory.exchange_ne (Ne.symm hy)]
        · have hRowOut : (z'.exchange n (z n)).row ws r = z'.row ws r := by
            unfold Memory.row
            rw [Memory.exchange_ne (Ne.symm hws')]
          rw [hRowOut, hGathered.row, hRowIn]
        · intro k hk
          rw [Memory.exchange_ne (Ne.symm hws'), hGathered.rows k hk,
            Memory.exchange_ne (Ne.symm hws')]
    · rename_i hVisible
      obtain ⟨hEnter, hRun⟩ := hRun
      obtain ⟨us, hUs, hBuffer, hEach⟩ := ih hBody inner env
        ((hEnter.other (Ne.symm hy)).trans hl) ((hEnter.other (Ne.symm hws')).trans hws) m m' hRun
      refine ⟨us, hUs, hBuffer, fun z r hSame hRow hFilled => ?_⟩
      obtain ⟨z', hRun', hRest⟩ := hEach z r hSame hRow hFilled
      refine ⟨z', ⟨inner, ?_⟩, hRest⟩
      rw [if_neg hVisible, hSame n hy hws']
      exact ⟨hEnter, hRun'⟩
  · intro s head body ih h limits env hl hws
    have hBody := h.of_mem (u := body) (by simp [Stmt.self_mem_nodes])
    have hNot := hNoStore (t := .loop s head body) (fun _ _ _ _ hEq => by cases hEq)
    intro m m' hRun
    rw [Stmt.StaysWithin] at hRun
    obtain ⟨lower, upper, hLower, hUpper, hTurns⟩ := hRun
    obtain ⟨us, hUs, hBuffer, hEach⟩ := Gathers.inTurn (fun v _ =>
      (ih hBody limits (env.set head.iter v) hl hws).congr_env (h.still.value_set env v)) m m' hTurns
    refine ⟨us, hUs, hBuffer, fun z r hSame hRow hFilled => ?_⟩
    obtain ⟨z', hRun', hRest⟩ := hEach z r hSame hRow hFilled
    refine ⟨z', ?_, hRest⟩
    rw [redirect_loop, Stmt.StaysWithin]
    exact ⟨lower, upper, (h.value_sameApart hNot (by simp [Stmt.exprs]) hSame).trans hLower,
      (h.value_sameApart hNot (by simp [Stmt.exprs]) hSame).trans hUpper, hRun'⟩
  · intro s e body ih h limits env hl hws
    have hBody := h.of_mem (u := body) (by simp [Stmt.self_mem_nodes])
    have hNot := hNoStore (t := .guard s e body) (fun _ _ _ _ hEq => by cases hEq)
    intro m m' hRun
    rw [Stmt.StaysWithin] at hRun
    obtain ⟨v, hv, hRun⟩ := hRun
    have hGathers : Gathers c y ws op row l env
        (fun m m' => if v = 0 then m' = m else body.StaysWithin own c limits env m m')
        (fun m m' => if v = 0 then m' = m
          else (redirect y ws op row body).StaysWithin own c limits env m m') := by
      by_cases hZero : v = 0
      · simp only [hZero, if_true]
        exact Gathers.skip
      · simpa only [hZero, if_false] using ih hBody limits env hl hws
    obtain ⟨us, hUs, hBuffer, hEach⟩ := hGathers m m' hRun
    refine ⟨us, hUs, hBuffer, fun z r hSame hRow hFilled => ?_⟩
    obtain ⟨z', hRun', hRest⟩ := hEach z r hSame hRow hFilled
    refine ⟨z', ?_, hRest⟩
    rw [redirect_guard, Stmt.StaysWithin]
    exact ⟨v, (h.value_sameApart hNot (by simp [Stmt.exprs]) hSame).trans hv, hRun'⟩
  · intro s e yes no ihYes ihNo h limits env hl hws
    have hYes := h.of_mem (u := yes) (by simp [Stmt.self_mem_nodes])
    have hNo := h.of_mem (u := no) (by simp [Stmt.self_mem_nodes])
    have hNot := hNoStore (t := .branch s e yes no) (fun _ _ _ _ hEq => by cases hEq)
    intro m m' hRun
    rw [Stmt.StaysWithin] at hRun
    obtain ⟨v, hv, hRun⟩ := hRun
    have hGathers : Gathers c y ws op row l env
        (fun m m' => if v = 0 then no.StaysWithin own c limits env m m'
          else yes.StaysWithin own c limits env m m')
        (fun m m' => if v = 0 then (redirect y ws op row no).StaysWithin own c limits env m m'
          else (redirect y ws op row yes).StaysWithin own c limits env m m') := by
      by_cases hZero : v = 0
      · simpa only [hZero, if_true] using ihNo hNo limits env hl hws
      · simpa only [hZero, if_false] using ihYes hYes limits env hl hws
    obtain ⟨us, hUs, hBuffer, hEach⟩ := hGathers m m' hRun
    refine ⟨us, hUs, hBuffer, fun z r hSame hRow hFilled => ?_⟩
    obtain ⟨z', hRun', hRest⟩ := hEach z r hSame hRow hFilled
    refine ⟨z', ?_, hRest⟩
    rw [redirect_branch, Stmt.StaysWithin]
    exact ⟨v, (h.value_sameApart hNot (by simp [Stmt.exprs]) hSame).trans hv, hRun'⟩
  · intro s b is v h limits env hl hws
    rcases h.reduces _ (Stmt.self_mem_nodes _) with hReduction | hOther
    · obtain ⟨s', is', v', rhs, hEq, hReduction, hReads⟩ := hReduction
      cases hEq
      exact gathers_reduction hReduction hReads h hl hws
    · refine gathers_other h ?_
      rintro rfl
      exact hOther.2 s is v rfl
  · intro s f args _ limits env _ _ m m' hRun
    cases hRun
  · intro s ts ih h limits env hl hws
    have hEach : ∀ t ∈ ts, Movable y ws op row t := by
      intro t ht
      refine h.of_mem ?_
      rw [Stmt.nodes_block]
      exact List.mem_cons_of_mem _ (List.mem_flatMap.mpr ⟨t, ht, Stmt.self_mem_nodes t⟩)
    rw [redirect_block, Stmt.staysWithin_block, Stmt.staysWithin_block, List.map_map]
    exact Gathers.inTurn fun t ht => ih t ht (hEach t ht) limits env hl hws
  · intro s _ limits env _ _ m m' hRun
    cases hRun

end Lower

end LoopNest

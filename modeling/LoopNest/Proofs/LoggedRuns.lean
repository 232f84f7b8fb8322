import LoopNest.Proofs.Logs
import LoopNest.Proofs.Surroundings

/-! # Logs of runs

  A run of a program is logged by steps that its touches make (`Stmt.logged_reaches`). Where all
  declared buffers are local, the declarations around an access are those around the program as well
  (`Stmt.logged`). From that follows when parts of a program may be run in another order: when the
  steps of parts that change places are independent (`exchange_tasks`). -/

namespace LoopNest

/-! ## Steps and touches -/

namespace Step

/-- What kind of access makes a step, and whether it belongs to a reduction. -/
def role : Step → AccessKind × Option ReduceOp
  | read .. => (.read, none)
  | write .. => (.write, none)
  | update _ _ op _ => (.write, some op)

/-- A touch makes a step. -/
structure By (s : Step) (x : Touch) : Prop where
  buffer : x.access.buffer = s.buffer
  cell : x.cell = s.cell
  role : (x.access.kind, x.access.reduction) = s.role

/-- Steps are independent when their touches reach different cells, or both read, or both belong to
    reductions with one operator. -/
theorem independent_of_by {s s' : Step} {x y : Touch} (hs : s.By x) (hs' : s'.By y)
    (h : x.access.buffer = y.access.buffer → x.cell = y.cell →
      (x.access.kind = .write ∨ y.access.kind = .write) →
        ∃ op, x.access.reduction = some op ∧ y.access.reduction = some op) :
    s.Independent s' := by
  intro hBuffer hCell
  have hReduced : (x.access.kind = .write ∨ y.access.kind = .write) →
      ∃ op, x.access.reduction = some op ∧ y.access.reduction = some op := by
    apply h
    · rw [hs.buffer, hs'.buffer, hBuffer]
    · rw [hs.cell, hs'.cell, hCell]
  obtain ⟨hKind, hReduction⟩ := Prod.mk.injEq .. ▸ hs.role
  obtain ⟨hKind', hReduction'⟩ := Prod.mk.injEq .. ▸ hs'.role
  cases s with
  | read b cell v =>
    cases s' with
    | read b' cell' v' => exact independent_read b b' cell cell' v v' hBuffer hCell
    | write b' cell' v' =>
      obtain ⟨op, hOp, _⟩ := hReduced (.inr hKind')
      cases hReduction.symm.trans hOp
    | update b' cell' op v' =>
      obtain ⟨op, hOp, _⟩ := hReduced (.inr hKind')
      cases hReduction.symm.trans hOp
  | write b cell v =>
    obtain ⟨op, hOp, _⟩ := hReduced (.inl hKind)
    cases hReduction.symm.trans hOp
  | update b cell op v =>
    obtain ⟨op', hOp, hOp'⟩ := hReduced (.inl hKind)
    cases s' with
    | read b' cell' v' => cases hReduction'.symm.trans hOp'
    | write b' cell' v' => cases hReduction'.symm.trans hOp'
    | update b' cell' op'' v' =>
      cases hReduction.symm.trans hOp
      cases hReduction'.symm.trans hOp'
      exact independent_update b b' cell cell' op v v' hBuffer hCell

end Step

/-- A touch refers to a buffer as names are understood at a place. -/
structure Touch.OfPlace (x : Touch) (p : Place) : Prop where
  declDepth : x.access.declDepth = p.scope.decls.lookup x.access.buffer
  owner : x.owner = p.owners.lookup x.access.buffer

/-- A step is made by a touch that refers to buffers as names are understood at a place. -/
structure Place.Makes (p : Place) (s : Step) (x : Touch) : Prop where
  makes : s.By x
  ofPlace : x.OfPlace p

/-- A step is made by a touch of the buffer that its name refers to at a place. -/
structure Place.Reaches (p : Place) (s : Step) (x : Touch) : Prop where
  makes : s.By x
  owner : x.owner = p.owners.lookup x.access.buffer

/-- A change with its touches is logged: whenever it leaves a memory, there are steps that log it
    and that its touches make. -/
def Logged (task : Change × Trace) (R : Step → Touch → Prop) : Prop :=
  ∀ m m', task.1 m = some m' →
    ∃ steps, task.1.LogsTo m steps m' ∧ ∀ s ∈ steps, ∃ x ∈ task.2 m, R s x

namespace Logged

variable {R : Step → Touch → Prop}

theorem imp {R' : Step → Touch → Prop} {task : Change × Trace} (h : Logged task R)
    (hImp : ∀ s x, R s x → R' s x) : Logged task R' := by
  intro m m' hRun
  obtain ⟨steps, hSteps, hMade⟩ := h m m' hRun
  refine ⟨steps, hSteps, fun s hs => ?_⟩
  obtain ⟨x, hx, hR⟩ := hMade s hs
  exact ⟨x, hx, hImp s x hR⟩

/-- Tasks one after the other are logged when each of them is. -/
theorem inTurn {α : Type} {f : α → Change × Trace} {xs : List α}
    (h : ∀ x ∈ xs, Logged (f x) R) :
    Logged (Change.inTurn (xs.map fun x => (f x).1), Trace.inTurn (xs.map f)) R := by
  induction xs with
  | nil =>
    intro m m' hRun
    cases hRun
    exact ⟨[], Change.LogsTo.skip m, fun _ hs => nomatch hs⟩
  | cons x xs ih =>
    intro m m' hRun
    obtain ⟨between, hHead, hTail⟩ := Change.seq_eq_some.mp hRun
    obtain ⟨steps, hSteps, hMade⟩ := h x List.mem_cons_self m between hHead
    obtain ⟨more, hMore, hMade'⟩ :=
      ih (fun y hy => h y (List.mem_cons_of_mem x hy)) between m' hTail
    refine ⟨steps ++ more, hSteps.seq hMore, ?_⟩
    intro s hs
    rcases List.mem_append.mp hs with hs | hs
    · obtain ⟨t, ht, hR⟩ := hMade s hs
      exact ⟨t, List.mem_append_left _ ht, hR⟩
    · obtain ⟨t, ht, hR⟩ := hMade' s hs
      refine ⟨t, List.mem_append_right _ ?_, hR⟩
      show t ∈ ((f x).1 m).elim [] (Trace.inTurn (xs.map f))
      rw [hHead]
      exact ht

/-- The tasks of a run have a log each. -/
theorem exists_logs {α : Type} {f : α → Change × Trace} {xs : List α} (hNodup : xs.Nodup)
    (h : ∀ x ∈ xs, Logged (f x) R) {m m' : Memory}
    (hRun : Change.inTurn (xs.map fun x => (f x).1) m = some m') :
    ∃ logs : α → List Step, Change.inTurn (xs.map fun x => Step.replay (logs x)) m = some m'
      ∧ ∀ x ∈ xs, (∀ other other', Step.replay (logs x) other = some other' →
          (f x).1 other = some other')
        ∧ ∀ s ∈ logs x, ∃ t ∈ Trace.inTurn (xs.map f) m, (∃ before, t ∈ (f x).2 before) ∧ R s t := by
  classical
  induction xs generalizing m with
  | nil => exact ⟨fun _ => [], hRun, fun _ hx => nomatch hx⟩
  | cons x xs ih =>
    obtain ⟨hx, hRest⟩ := List.nodup_cons.mp hNodup
    obtain ⟨between, hHead, hTail⟩ := Change.seq_eq_some.mp hRun
    obtain ⟨steps, hSteps, hMade⟩ := h x List.mem_cons_self m between hHead
    obtain ⟨logs, hLogs, hEach⟩ := ih hRest (fun y hy => h y (List.mem_cons_of_mem x hy)) hTail
    have hHere : Function.update logs x steps x = steps := Function.update_self ..
    have hOther : ∀ y ∈ xs, Function.update logs x steps y = logs y := by
      intro y hy
      apply Function.update_of_ne
      rintro rfl
      exact hx hy
    refine ⟨Function.update logs x steps, ?_, ?_⟩
    · have hMap : (xs.map fun y => Step.replay (Function.update logs x steps y))
          = xs.map fun y => Step.replay (logs y) :=
        List.map_congr_left fun y hy => by rw [hOther y hy]
      rw [List.map_cons, Change.inTurn_cons, hHere, hMap]
      exact Change.seq_eq_some.mpr ⟨between, hSteps.here, hLogs⟩
    · intro y hy
      rcases List.mem_cons.mp hy with rfl | hy
      · rw [hHere]
        refine ⟨hSteps.again, ?_⟩
        intro s hs
        obtain ⟨t, ht, hR⟩ := hMade s hs
        exact ⟨t, List.mem_append_left _ ht, ⟨m, ht⟩, hR⟩
      · rw [hOther y hy]
        obtain ⟨hAgain, hMade'⟩ := hEach y hy
        refine ⟨hAgain, ?_⟩
        intro s hs
        obtain ⟨t, ht, hBefore, hR⟩ := hMade' s hs
        refine ⟨t, List.mem_append_right _ ?_, hBefore, hR⟩
        show t ∈ ((f x).1 m).elim [] (Trace.inTurn (xs.map f))
        rw [hHead]
        exact ht

end Logged

/-- Where every member of a sequence does what a log does, the sequence does what the logs do. -/
theorem Change.inTurn_of_logs {α : Type} {f g : α → Change} {xs : List α}
    (h : ∀ x ∈ xs, ∀ other other', g x other = some other' → f x other = some other')
    {m m' : Memory} (hRun : Change.inTurn (xs.map g) m = some m') :
    Change.inTurn (xs.map f) m = some m' := by
  induction xs generalizing m with
  | nil => exact hRun
  | cons x xs ih =>
    obtain ⟨between, hHead, hTail⟩ := Change.seq_eq_some.mp hRun
    apply Change.seq_eq_some.mpr
    exact ⟨between, h x List.mem_cons_self m between hHead,
      ih (fun y hy => h y (List.mem_cons_of_mem x hy)) hTail⟩

/-- **Exchange of tasks**: when the steps of tasks that change places are independent, another order
    leaves the same memory. -/
theorem exchange_tasks {α : Type} {f : α → Change × Trace} {R : Step → Touch → Prop} {p q : List α}
    (hPerm : q.Perm p) (hNodup : p.Nodup) (hLogged : ∀ v ∈ p, Logged (f v) R) {m m' : Memory}
    (hIndependent : ∀ v w, [v, w].Sublist p → [w, v].Sublist q → ∀ x y s s',
      (∃ before, x ∈ (f v).2 before) → (∃ before, y ∈ (f w).2 before) →
      x ∈ Trace.inTurn (p.map f) m → y ∈ Trace.inTurn (p.map f) m → R s x → R s' y →
        s.Independent s')
    (hRun : Change.inTurn (p.map fun v => (f v).1) m = some m') :
    Change.inTurn (q.map fun v => (f v).1) m = some m' := by
  obtain ⟨logs, hLogs, hEach⟩ := Logged.exists_logs hNodup hLogged hRun
  have hOrder : Change.inTurn (p.map fun v => Step.replay (logs v))
      = Change.inTurn (q.map fun v => Step.replay (logs v)) := by
    apply Change.inTurn_exchange hPerm hNodup
    intro v w hvw hwv
    apply Step.replay_commutes
    intro s hs s' hs'
    have hv : v ∈ p := hvw.subset List.mem_cons_self
    have hw : w ∈ p := hvw.subset (List.mem_cons_of_mem v List.mem_cons_self)
    obtain ⟨x, hx, hBefore, hR⟩ := (hEach v hv).2 s hs
    obtain ⟨y, hy, hBefore', hR'⟩ := (hEach w hw).2 s' hs'
    exact hIndependent v w hvw hwv x y s s' hBefore hBefore' hx hy hR hR'
  rw [hOrder] at hLogs
  exact Change.inTurn_of_logs (fun v hv => (hEach v (hPerm.subset hv)).1) hLogs

/-! ## Programs -/

/-- The reads of an expression are made by touches of its place. -/
theorem Place.exists_touch_of_cell {c : Conventions} {env : Env} {m : Memory} (p : Place)
    (stmt : Nat) (reduced : Option (String × ReduceOp)) {e : Expr} {b : String} {cell : List Int}
    (hCell : (b, cell) ∈ e.cells c env m)
    (hPlain : (reduced.bind fun (name, op) => if name == b then some op else none) = none) (v : Int) :
    ∃ x ∈ p.touch c env m (p.scope.reads stmt reduced e), p.Makes (.read b cell v) x := by
  obtain ⟨is, hPart, hValues⟩ := Expr.mem_cells.mp hCell
  refine ⟨⟨p.scope.access .read stmt none b is, cell, p.turn, p.owners.lookup b⟩, ?_, ?_⟩
  · apply List.mem_filterMap.mpr
    refine ⟨p.scope.access .read stmt none b is, ?_, ?_⟩
    · exact Scope.mem_reads.mpr ⟨b, is, hPart, by rw [hPlain]⟩
    · unfold Place.touch?
      rw [show (p.scope.access .read stmt none b is).indices = is from rfl, hValues]
      rfl
  · exact ⟨⟨rfl, rfl, rfl⟩, rfl, rfl⟩

/-- A place inside a loop refers to buffers as the place around it. -/
theorem Place.makes_enter {p : Place} {l : Enclosing} {v : Int} :
    (p.enter l v).Makes = p.Makes := by
  funext s x
  apply propext
  exact ⟨fun h => ⟨h.makes, h.ofPlace.declDepth, h.ofPlace.owner⟩,
    fun h => ⟨h.makes, h.ofPlace.declDepth, h.ofPlace.owner⟩⟩

/-- A place below a declaration refers to other buffers as the place around it. -/
theorem Place.Makes.of_declare {p : Place} {n : String} {id : Nat} {s : Step} {x : Touch}
    (h : (p.declare n id).Makes s x) (hs : s.buffer ≠ n) : p.Makes s x := by
  have hBuffer : (x.access.buffer == n) = false := by
    rw [h.makes.buffer]
    exact beq_eq_false_iff_ne.mpr hs
  refine ⟨h.makes, ?_, ?_⟩
  · rw [h.ofPlace.declDepth]
    simp [Place.declare, Place.declared, List.lookup_cons, hBuffer]
  · rw [h.ofPlace.owner]
    simp [Place.declare, List.lookup_cons, hBuffer]

theorem Place.Makes.reaches {p : Place} {s : Step} {x : Touch} (h : p.Makes s x) : p.Reaches s x :=
  ⟨h.makes, h.ofPlace.owner⟩

theorem Place.Reaches.of_declare {p : Place} {n : String} {id : Nat} {s : Step} {x : Touch}
    (h : (p.declare n id).Reaches s x) (hs : s.buffer ≠ n) : p.Reaches s x := by
  have hBuffer : (x.access.buffer == n) = false := by
    rw [h.makes.buffer]
    exact beq_eq_false_iff_ne.mpr hs
  refine ⟨h.makes, ?_⟩
  rw [h.owner]
  simp [Place.declare, List.lookup_cons, hBuffer]

namespace Expr

/-- A store that is a reduction combines the cell with the other operand, which does not read the
    buffer. -/
theorem of_reduction? {b : String} {is : List Expr} {v r : Expr} {op : ReduceOp}
    (h : reduction? b is v = some (op, r)) : r.reads b = false ∧ (∀ p ∈ r.parts, p ∈ v.parts)
      ∧ ∀ (c : Conventions) (env : Env) (m : Memory), v.valueWith? c env m
        = ((valuesWith? c env m is).bind (m b)).bind fun old =>
          (r.valueWith? c env m).map fun x => op.value old x := by
  cases v with
  | binary o lhs rhs =>
    simp only [reduction?, Option.bind_eq_bind, Option.bind_eq_some_iff] at h
    obtain ⟨op', hOp, h⟩ := h
    have hBinary := ReduceOp.toBinary_of_ofBinary? hOp
    by_cases hLeft : (lhs.isCell b is && !rhs.reads b) = true
    · rw [if_pos hLeft] at h
      cases h
      obtain ⟨hCell, hReads⟩ := Bool.and_eq_true_iff.mp hLeft
      refine ⟨by simpa using hReads, fun p hp => mem_parts_right hp, ?_⟩
      intro c env m
      rw [valueWith?, valueWith?_of_isCell hCell, ← hBinary]
      cases (valuesWith? c env m is).bind (m b) with
      | none => rfl
      | some old => cases hr : r.valueWith? c env m with
        | none => rfl
        | some x => exact ReduceOp.valueWith?_toBinary c op old x
    · rw [if_neg hLeft] at h
      by_cases hRight : (rhs.isCell b is && !lhs.reads b) = true
      · rw [if_pos hRight] at h
        cases h
        obtain ⟨hCell, hReads⟩ := Bool.and_eq_true_iff.mp hRight
        refine ⟨by simpa using hReads, fun p hp => mem_parts_left hp, ?_⟩
        intro c env m
        rw [valueWith?, valueWith?_of_isCell hCell, ← hBinary]
        cases (valuesWith? c env m is).bind (m b) with
        | none => cases hr : r.valueWith? c env m <;> rfl
        | some old => cases hr : r.valueWith? c env m with
          | none => rfl
          | some x =>
            show op.toBinary.valueWith? c x old = some (op.value old x)
            rw [ReduceOp.valueWith?_toBinary, ReduceOp.value_comm]
      · rw [if_neg hRight] at h
        cases h
  | int _ => cases h
  | float _ => cases h
  | bool _ => cases h
  | var _ => cases h
  | load _ _ => cases h
  | unary _ _ => cases h

end Expr

namespace Stmt

variable {c : Conventions}

/-- A store that is no reduction evaluates subscripts and value and writes. -/
theorem change_store_plain (env : Env) (s : Site) (b : String) (is : List Expr) (v : Expr) :
    (Stmt.store s b is v).change c env = fun m => (Expr.valuesWith? c env m is).bind fun cell =>
      (v.valueWith? c env m).bind fun value => (Step.write b cell value).change m := by
  funext m
  rw [change_store]
  cases Expr.valuesWith? c env m is with
  | none => rfl
  | some cell => cases v.valueWith? c env m <;> rfl

/-- A reduction evaluates subscripts and the other operand and updates. -/
theorem change_store_reduction {b : String} {is : List Expr} {v r : Expr} {op : ReduceOp}
    (h : Expr.reduction? b is v = some (op, r)) (env : Env) (s : Site) :
    (Stmt.store s b is v).change c env = fun m => (Expr.valuesWith? c env m is).bind fun cell =>
      (r.valueWith? c env m).bind fun x => (Step.update b cell op x).change m := by
  funext m
  rw [change_store, (Expr.of_reduction? h).2.2]
  cases Expr.valuesWith? c env m is with
  | none => rfl
  | some cell =>
    show (((m b cell).bind fun old => (r.valueWith? c env m).map fun x => op.value old x).map
      fun value => m.put b cell value) = (r.valueWith? c env m).bind fun x =>
        ((m b cell).map fun y => some (op.value y x)).map (m.place b cell)
    cases r.valueWith? c env m with
    | none => cases m b cell <;> rfl
    | some x => cases m b cell <;> rfl

/-- A store is logged by the reads of its subscripts and of its value, and by one write or one
    update. -/
theorem logged_store (s : Site) (b : String) (is : List Expr) (v : Expr) (p : Place) (env : Env) :
    Logged ((Stmt.store s b is v).change c env, (Stmt.store s b is v).touchesWith c p env)
      p.Makes := by
  intro m m' hRun
  -- the touches are those of the subscripts, those of the value and the one of the cell
  have hTouches : ∀ x, x ∈ (Stmt.store s b is v).touchesWith c p env m ↔
      (∃ i ∈ is, x ∈ p.touch c env m (p.scope.reads s.id none i))
      ∨ x ∈ p.touch c env m
          (p.scope.reads s.id (((Expr.reduction? b is v).map (·.1)).map (b, ·)) v)
      ∨ x ∈ p.touch c env m
          [p.scope.access .write s.id ((Expr.reduction? b is v).map (·.1)) b is] := by
    intro x
    simp only [touchesWith, accessesIn, Place.touch, List.filterMap_append, List.mem_append,
      List.filterMap_flatMap, List.mem_flatMap, or_assoc]
  have hSubscripts : ∀ t ∈ Step.finds m (is.flatMap (Expr.cells c env m)),
      ∃ x ∈ (Stmt.store s b is v).touchesWith c p env m, p.Makes t x := by
    intro t ht
    obtain ⟨b', cell', w, hMem, rfl⟩ := Step.mem_finds ht
    obtain ⟨i, hi, hMem⟩ := List.mem_flatMap.mp hMem
    obtain ⟨x, hx, hMakes⟩ := p.exists_touch_of_cell s.id none hMem rfl w
    exact ⟨x, (hTouches x).mpr (.inl ⟨i, hi, hx⟩), hMakes⟩
  have hCellTouch : ∀ (cell : List Int) (t : Step), Expr.valuesWith? c env m is = some cell →
      t.buffer = b → t.cell = cell → t.role = (.write, (Expr.reduction? b is v).map (·.1)) →
        ∃ x ∈ (Stmt.store s b is v).touchesWith c p env m, p.Makes t x := by
    intro cell t hCell hBuffer hTCell hRole
    have hTouch : (⟨p.scope.access .write s.id ((Expr.reduction? b is v).map (·.1)) b is, cell,
        p.turn, p.owners.lookup b⟩ : Touch) ∈ (Stmt.store s b is v).touchesWith c p env m := by
      apply (hTouches _).mpr
      right
      right
      apply List.mem_filterMap.mpr
      refine ⟨_, List.mem_singleton.mpr rfl, ?_⟩
      unfold Place.touch?
      rw [show (p.scope.access .write s.id ((Expr.reduction? b is v).map (·.1)) b is).indices = is
        from rfl, hCell]
      rfl
    exact ⟨_, hTouch, ⟨hBuffer.symm, hTCell.symm, hRole.symm⟩, rfl, rfl⟩
  cases hReduction : Expr.reduction? b is v with
  | none =>
    rw [hReduction] at hTouches hCellTouch
    have hChange := change_store_plain (c := c) env s b is v
    rw [hChange] at hRun
    obtain ⟨cell, hCell, hRun⟩ := Option.bind_eq_some_iff.mp hRun
    obtain ⟨value, hValue, hRun⟩ := Option.bind_eq_some_iff.mp hRun
    refine ⟨Step.finds m (is.flatMap (Expr.cells c env m))
      ++ (Step.finds m (v.cells c env m) ++ [.write b cell value]), ?_, ?_⟩
    · show Change.LogsTo ((Stmt.store s b is v).change c env) m _ m'
      rw [hChange]
      exact .evaluateAll hCell (.evaluate hValue (.step hRun))
    · intro t ht
      rcases List.mem_append.mp ht with ht | ht
      · exact hSubscripts t ht
      · rcases List.mem_append.mp ht with ht | ht
        · obtain ⟨b', cell', w, hMem, rfl⟩ := Step.mem_finds ht
          obtain ⟨x, hx, hMakes⟩ := p.exists_touch_of_cell s.id none hMem rfl w
          exact ⟨x, (hTouches x).mpr (.inr (.inl hx)), hMakes⟩
        · obtain rfl := List.mem_singleton.mp ht
          exact hCellTouch cell _ hCell rfl rfl rfl
  | some opr =>
    obtain ⟨op, r⟩ := opr
    rw [hReduction] at hTouches hCellTouch
    obtain ⟨hReads, hParts, _⟩ := Expr.of_reduction? hReduction
    have hChange := change_store_reduction (c := c) hReduction env s
    rw [hChange] at hRun
    obtain ⟨cell, hCell, hRun⟩ := Option.bind_eq_some_iff.mp hRun
    obtain ⟨value, hValue, hRun⟩ := Option.bind_eq_some_iff.mp hRun
    refine ⟨Step.finds m (is.flatMap (Expr.cells c env m))
      ++ (Step.finds m (r.cells c env m) ++ [.update b cell op value]), ?_, ?_⟩
    · show Change.LogsTo ((Stmt.store s b is v).change c env) m _ m'
      rw [hChange]
      exact .evaluateAll hCell (.evaluate hValue (.step hRun))
    · intro t ht
      rcases List.mem_append.mp ht with ht | ht
      · exact hSubscripts t ht
      · rcases List.mem_append.mp ht with ht | ht
        · -- the other operand does not read the buffer, so its reads belong to no reduction
          obtain ⟨b', cell', w, hMem, rfl⟩ := Step.mem_finds ht
          obtain ⟨is', hPart, hValues⟩ := Expr.mem_cells.mp hMem
          have hOther : b' ≠ b := by
            rintro rfl
            have hRead := Expr.reads_iff.mpr (Expr.mem_buffers.mpr ⟨is', hPart⟩)
            rw [hReads] at hRead
            cases hRead
          have hInValue : (b', cell') ∈ v.cells c env m :=
            Expr.mem_cells.mpr ⟨is', hParts _ hPart, hValues⟩
          obtain ⟨x, hx, hMakes⟩ := p.exists_touch_of_cell s.id (some (b, op)) hInValue
            (by simp [Ne.symm hOther]) w
          exact ⟨x, (hTouches x).mpr (.inr (.inl hx)), hMakes⟩
        · obtain rfl := List.mem_singleton.mp ht
          exact hCellTouch cell _ hCell rfl rfl rfl

/-- What first evaluates an expression is logged when what comes next is. -/
theorem logged_evaluate {p : Place} {R : Step → Touch → Prop} (hR : ∀ s x, p.Makes s x → R s x)
    {env : Env} {e : Expr} {next : Int → Change × Trace} (stmt : Nat)
    (h : ∀ v, Logged (next v) R) :
    Logged (fun m => (e.valueWith? c env m).bind fun v => (next v).1 m,
      fun m => p.touch c env m (p.scope.reads stmt none e) ++
        (e.valueWith? c env m).elim [] fun v => (next v).2 m) R := by
  intro m m' hRun
  obtain ⟨v, hv, hRun⟩ := Option.bind_eq_some_iff.mp hRun
  obtain ⟨steps, hSteps, hMade⟩ := h v m m' hRun
  refine ⟨Step.finds m (e.cells c env m) ++ steps, .evaluate hv hSteps, ?_⟩
  intro t ht
  simp only [hv, Option.elim_some]
  rcases List.mem_append.mp ht with ht | ht
  · obtain ⟨b, cell, w, hMem, rfl⟩ := Step.mem_finds ht
    obtain ⟨x, hx, hMakes⟩ := p.exists_touch_of_cell stmt none hMem rfl w
    exact ⟨x, List.mem_append_left _ hx, hR _ x hMakes⟩
  · obtain ⟨x, hx, hMakes⟩ := hMade t ht
    exact ⟨x, List.mem_append_right _ hx, hMakes⟩

section logs

variable {R : Place → Step → Touch → Prop}

/-- A relation between steps and touches that holds where an access is carried out, and on the way out
    of loops, of declarations of local buffers and, in case there are any, of visible ones. -/
structure Lasting (R : Place → Step → Touch → Prop) (visible : Prop) : Prop where
  makes {p s x} : Place.Makes p s x → R p s x
  leave {p l v s x} : R (Place.enter p l v) s x → R p s x
  undeclare {p n id s x} : R (Place.declare p n id) s x → s.buffer ≠ n → R p s x
  unexpose {p n s x} : visible → R (Place.expose p n) s x → R p s x

/-- A run is logged by steps that have a lasting relation to its touches. -/
theorem logged_of_lasting {visible : Prop} (hR : Lasting R visible) :
    ∀ (t : Stmt) (p : Place) (env : Env), (t.localsOnly = true ∨ visible) →
      Logged (t.change c env, t.touchesWith c p env) (R p) := by
  refine Stmt.ind ?_ ?_ ?_ ?_ ?_ ?_ ?_ ?_
  · intro s n b body ih p env hLocal
    by_cases hCache : b.access = .cache
    case neg =>
      -- a visible buffer is no buffer of its own
      have hVisible : visible := hLocal.resolve_left fun h => hCache (localsOnly_decl.mp h).1
      have hChange : (Stmt.decl s n b body).change c env = body.change c env := by
        rw [change_decl, if_neg hCache]
      have hTrace : (Stmt.decl s n b body).touchesWith c p env
          = body.touchesWith c (p.expose n) env := by
        funext m
        simp only [touchesWith, if_neg hCache]
      rw [hChange, hTrace]
      exact (ih (p.expose n) env (.inr hVisible)).imp fun _ _ => hR.unexpose hVisible
    intro m m' hRun
    have hBody := hLocal.imp_left fun h => (localsOnly_decl.mp h).2
    have hChange : (Stmt.decl s n b body).change c env
        = (body.change c env).withLocal n (c.fresh s.label n) := by
      rw [change_decl, if_pos hCache]
    rw [hChange] at hRun
    obtain ⟨after, hInside, rfl⟩ := Change.withLocal_eq_some.mp hRun
    obtain ⟨steps, hSteps, hMade⟩ := ih (p.declare n s.id) env hBody _ _ hInside
    refine ⟨Step.beside n steps, ?_, ?_⟩
    · show Change.LogsTo ((Stmt.decl s n b body).change c env) m _ _
      rw [hChange]
      exact hSteps.withLocal
    · -- what is left are steps on other buffers, which mean the same outside
      intro t ht
      obtain ⟨ht, hOther⟩ := List.mem_filter.mp ht
      obtain ⟨x, hx, hMakes⟩ := hMade t ht
      refine ⟨x, ?_, hR.undeclare hMakes (bne_iff_ne.mp hOther)⟩
      simp only [touchesWith, if_pos hCache]
      exact hx
  · intro s h body ih p env hLocal m m' hRun
    have hBody := hLocal.imp_left fun h => (everywhere_loop.mp h).2
    have hChange : (Stmt.loop s h body).change c env = fun m =>
        (h.lower.valueWith? c env m).bind fun lower =>
          (fun m => (h.upper.valueWith? c env m).bind fun upper =>
            Change.inTurn ((counting lower upper).map fun v =>
              body.change c (env.set h.iter v)) m) m := by
      funext m
      exact change_loop c env s h body m
    rw [hChange] at hRun
    obtain ⟨lower, hLower, hRun⟩ := Option.bind_eq_some_iff.mp hRun
    obtain ⟨upper, hUpper, hRun⟩ := Option.bind_eq_some_iff.mp hRun
    have hTurns : ∀ v ∈ counting lower upper, Logged (body.change c (env.set h.iter v),
        body.touchesWith c (p.enter ⟨s.id, h⟩ v) (env.set h.iter v)) (R p) :=
      fun v _ => (ih _ _ hBody).imp fun _ _ => hR.leave
    obtain ⟨steps, hSteps, hMade⟩ := Logged.inTurn hTurns m m' hRun
    refine ⟨Step.finds m (h.lower.cells c env m)
      ++ (Step.finds m (h.upper.cells c env m) ++ steps), ?_, ?_⟩
    · show Change.LogsTo ((Stmt.loop s h body).change c env) m _ m'
      rw [hChange]
      exact .evaluate hLower (.evaluate hUpper hSteps)
    · intro t ht
      simp only [touchesWith, hLower, hUpper]
      rcases List.mem_append.mp ht with ht | ht
      · obtain ⟨b', cell', w, hMem, rfl⟩ := Step.mem_finds ht
        obtain ⟨x, hx, hMakes⟩ := p.exists_touch_of_cell s.id none hMem rfl w
        refine ⟨x, List.mem_append_left _ ?_, hR.makes hMakes⟩
        rw [Place.touch, List.filterMap_append]
        exact List.mem_append_left _ hx
      · rcases List.mem_append.mp ht with ht | ht
        · obtain ⟨b', cell', w, hMem, rfl⟩ := Step.mem_finds ht
          obtain ⟨x, hx, hMakes⟩ := p.exists_touch_of_cell s.id none hMem rfl w
          refine ⟨x, List.mem_append_left _ ?_, hR.makes hMakes⟩
          rw [Place.touch, List.filterMap_append]
          exact List.mem_append_right _ hx
        · obtain ⟨x, hx, hMakes⟩ := hMade t ht
          exact ⟨x, List.mem_append_right _ hx, hMakes⟩
  · intro s e body ih p env hLocal
    have hBody := hLocal.imp_left fun h => (everywhere_guard.mp h).2
    have hNext : ∀ v : Int, Logged (if v = 0 then (Change.skip, fun _ => [])
        else (body.change c env, body.touchesWith c p env)) (R p) := by
      intro v
      by_cases hv : v = 0
      · rw [if_pos hv]
        intro m m' hRun
        cases hRun
        exact ⟨[], .skip m, fun _ ht => absurd ht List.not_mem_nil⟩
      · rw [if_neg hv]
        exact ih p env hBody
    have hChange : (Stmt.guard s e body).change c env = fun m => (e.valueWith? c env m).bind fun v =>
        (if v = 0 then (Change.skip, fun _ => [])
          else (body.change c env, body.touchesWith c p env)).1 m := by
      funext m
      rw [change_guard]
      congr 1
      funext v
      by_cases hv : v = 0 <;> simp [hv, Change.skip]
    have hTrace : (Stmt.guard s e body).touchesWith c p env = fun m =>
        p.touch c env m (p.scope.reads s.id none e) ++
          (e.valueWith? c env m).elim [] fun v => (if v = 0 then (Change.skip, fun _ => [])
            else (body.change c env, body.touchesWith c p env)).2 m := by
      funext m
      simp only [touchesWith]
      cases e.valueWith? c env m with
      | none => rfl
      | some v => by_cases hv : v = 0 <;> simp [hv]
    rw [hChange, hTrace]
    exact logged_evaluate (fun _ _ => hR.makes) s.id hNext
  · intro s e yes no ihYes ihNo p env hLocal
    have hYes := hLocal.imp_left fun h => (everywhere_branch.mp h).2.1
    have hNo := hLocal.imp_left fun h => (everywhere_branch.mp h).2.2
    have hNext : ∀ v : Int, Logged (if v = 0 then (no.change c env, no.touchesWith c p env)
        else (yes.change c env, yes.touchesWith c p env)) (R p) := by
      intro v
      by_cases hv : v = 0
      · rw [if_pos hv]
        exact ihNo p env hNo
      · rw [if_neg hv]
        exact ihYes p env hYes
    have hChange : (Stmt.branch s e yes no).change c env = fun m =>
        (e.valueWith? c env m).bind fun v =>
          (if v = 0 then (no.change c env, no.touchesWith c p env)
            else (yes.change c env, yes.touchesWith c p env)).1 m := by
      funext m
      rw [change_branch]
      congr 1
      funext v
      by_cases hv : v = 0 <;> simp [hv]
    have hTrace : (Stmt.branch s e yes no).touchesWith c p env = fun m =>
        p.touch c env m (p.scope.reads s.id none e) ++
          (e.valueWith? c env m).elim [] fun v => (if v = 0
            then (no.change c env, no.touchesWith c p env)
            else (yes.change c env, yes.touchesWith c p env)).2 m := by
      funext m
      simp only [touchesWith]
      cases e.valueWith? c env m with
      | none => rfl
      | some v => by_cases hv : v = 0 <;> simp [hv]
    rw [hChange, hTrace]
    exact logged_evaluate (fun _ _ => hR.makes) s.id hNext
  · exact fun s b is v p env _ => (logged_store s b is v p env).imp fun _ _ => hR.makes
  · intro s f args p env _ m m' hRun
    rw [change_call] at hRun
    cases hRun
  · intro s ts ih p env hLocal
    rw [change_block, touchesWith, touchesAllWith_eq_inTurn]
    exact Logged.inTurn fun t ht =>
      ih t ht p env (hLocal.imp_left fun h => (everywhere_block.mp h).2 t ht)
  · intro s p env _ m m' hRun
    rw [change_hole] at hRun
    cases hRun

end logs

/-- **Logs of runs**: a run is logged by steps that its touches make, each on the buffer that its name
    refers to outside. -/
theorem logged_reaches (t : Stmt) (p : Place) (env : Env) :
    Logged (t.change c env, t.touchesWith c p env) p.Reaches :=
  have hLasting : Lasting Place.Reaches True := ⟨Place.Makes.reaches, fun h => ⟨h.makes, h.owner⟩,
    Place.Reaches.of_declare, fun _ h => ⟨h.makes, h.owner⟩⟩
  logged_of_lasting hLasting t p env (.inr trivial)

/-- **Logs of runs**: where all declared buffers are local, the touches also know what is declared
    outside. -/
theorem logged (t : Stmt) (p : Place) (env : Env) (hLocal : t.localsOnly = true) :
    Logged (t.change c env, t.touchesWith c p env) p.Makes :=
  have hLasting : Lasting Place.Makes False := ⟨fun h => h, fun h => Place.makes_enter ▸ h,
    Place.Makes.of_declare, fun h => h.elim⟩
  logged_of_lasting hLasting t p env (.inl hLocal)

end Stmt

end LoopNest

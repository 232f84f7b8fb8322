import LoopNest.Semantics.AnyOrder

/-! # Running under conventions

  `Stmt.run` has no answer when a program divides by zero, and every local buffer of one name starts
  with the same contents. Transformations are easier to compare when both are left open, so this
  module runs programs under `Conventions`:

  * **fresh**: what a local buffer holds at first may depend on the label of its declaration;
  * **quotient**: a division by zero may have a value.

  `Stmt.runWith` is the run under conventions. Under `Conventions.reference` it is `Stmt.run` itself
  (`runWith_reference`). `Stmt.change` forgets the writes of a run and keeps the memory it leaves. -/

namespace LoopNest

/-- What a run takes from outside. -/
structure Conventions where
  /-- What a local buffer holds at first, by the label of its declaration and by its name. -/
  fresh : Option String → Memory
  /-- The value of a division by zero, if it has one. -/
  quotient : Option Int

namespace Conventions

/-- The conventions of `Stmt.run`: one memory gives the contents of all local buffers, and a
    division by zero has no value. -/
def reference (fresh : Memory) : Conventions := ⟨fun _ => fresh, none⟩

@[simp] theorem reference_fresh (fresh : Memory) (l : Option String) :
    (reference fresh).fresh l = fresh := rfl

@[simp] theorem reference_quotient (fresh : Memory) : (reference fresh).quotient = none := rfl

end Conventions

/-! ## Values -/

/-- The value of an operator; a division by zero has the value that the conventions give it. -/
def BinaryOp.valueWith? (c : Conventions) (op : BinaryOp) (x y : Int) : Option Int :=
  (op.value? x y).or c.quotient

@[simp] theorem BinaryOp.valueWith?_reference (fresh : Memory) (op : BinaryOp) (x y : Int) :
    op.valueWith? (.reference fresh) x y = op.value? x y := by
  simp [valueWith?]

/-- What an operator gives on its own it gives under all conventions. -/
theorem BinaryOp.valueWith?_of_value? {c : Conventions} {op : BinaryOp} {x y v : Int}
    (h : op.value? x y = some v) : op.valueWith? c x y = some v := by
  simp [valueWith?, h]

namespace Expr

mutual
/-- The value of an expression under conventions. -/
def valueWith? (c : Conventions) (env : Env) (m : Memory) : Expr → Option Int
  | .int v => some v
  | .float _ => none
  | .bool b => some (flag b)
  | .var x => some (env x)
  | .load b is => do m b (← valuesWith? c env m is)
  | .unary op e => return op.value (← valueWith? c env m e)
  | .binary op a b => do op.valueWith? c (← valueWith? c env m a) (← valueWith? c env m b)
/-- The values of all expressions of a list. -/
def valuesWith? (c : Conventions) (env : Env) (m : Memory) : List Expr → Option (List Int)
  | [] => some []
  | e :: es => do
    let v ← valueWith? c env m e
    return v :: (← valuesWith? c env m es)
end

/-- The values of a list under conventions that agree with a reference one by one. -/
theorem valuesWith?_congr {c c' : Conventions} {env env' : Env} {m m' : Memory} {es : List Expr}
    (h : ∀ e ∈ es, e.valueWith? c env m = e.valueWith? c' env' m') :
    valuesWith? c env m es = valuesWith? c' env' m' es := by
  induction es with
  | nil => rfl
  | cons e es ih =>
    have hHead := h e List.mem_cons_self
    have hTail := ih fun e' he => h e' (List.mem_cons_of_mem e he)
    simp only [valuesWith?, hHead, hTail]

/-- Values depend on conventions through the value of a division by zero only. -/
theorem valueWith?_congr_quotient {c c' : Conventions} (h : c'.quotient = c.quotient) (env : Env)
    (m : Memory) : ∀ e : Expr, e.valueWith? c' env m = e.valueWith? c env m := by
  refine Expr.ind ?_ ?_ ?_ ?_ ?_ ?_ ?_
  · exact fun _ => rfl
  · exact fun _ => rfl
  · exact fun _ => rfl
  · exact fun _ => rfl
  · intro b is ih
    simp only [valueWith?, valuesWith?_congr ih]
  · intro op e ih
    simp only [valueWith?, ih]
  · intro op a b iha ihb
    simp only [valueWith?, iha, ihb, BinaryOp.valueWith?, h]

theorem values?_eq_of_forall {fresh : Memory} {env : Env} {m : Memory} {es : List Expr}
    (h : ∀ e ∈ es, e.valueWith? (.reference fresh) env m = e.value? env m) :
    valuesWith? (.reference fresh) env m es = values? env m es := by
  induction es with
  | nil => rfl
  | cons e es ih =>
    have hHead := h e List.mem_cons_self
    have hTail := ih fun e' he => h e' (List.mem_cons_of_mem e he)
    simp only [valuesWith?, values?, hHead, hTail]

@[simp] theorem valueWith?_reference (fresh : Memory) (env : Env) (m : Memory) :
    ∀ e : Expr, e.valueWith? (.reference fresh) env m = e.value? env m := by
  refine Expr.ind ?_ ?_ ?_ ?_ ?_ ?_ ?_
  · exact fun _ => rfl
  · exact fun _ => rfl
  · exact fun _ => rfl
  · exact fun _ => rfl
  · intro b is ih
    simp only [valueWith?, value?, values?_eq_of_forall ih]
  · intro op e ih
    simp only [valueWith?, value?, ih]
  · intro op a b iha ihb
    simp only [valueWith?, value?, iha, ihb, BinaryOp.valueWith?_reference]

@[simp] theorem valuesWith?_reference (fresh : Memory) (env : Env) (m : Memory) (es : List Expr) :
    valuesWith? (.reference fresh) env m es = values? env m es :=
  values?_eq_of_forall fun e _ => valueWith?_reference fresh env m e

end Expr

/-! ## Runs -/

namespace Stmt

mutual
/-- What a program does under conventions. -/
def runWith (c : Conventions) (env : Env) : Stmt → Action
  | .decl s n b body =>
    if b.access = .cache then (runWith c env body).withLocal n (c.fresh s.label n)
    else runWith c env body
  | .loop _ h body => fun m => do
    let lower ← h.lower.valueWith? c env m
    let upper ← h.upper.valueWith? c env m
    Action.inTurn ((counting lower upper).map fun v => runWith c (env.set h.iter v) body) m
  | .guard _ e body => fun m => do
    if (← e.valueWith? c env m) = 0 then Action.skip m else runWith c env body m
  | .branch _ e yes no => fun m => do
    if (← e.valueWith? c env m) = 0 then runWith c env no m else runWith c env yes m
  | .store _ b is v => fun m => do
    let indices ← Expr.valuesWith? c env m is
    let value ← v.valueWith? c env m
    return (m.put b indices value, [⟨b, indices, value⟩])
  | .block _ stmts => runAllWith c env stmts
  | .call .. | .hole _ => .stuck
/-- What statements do one after the other under conventions. -/
def runAllWith (c : Conventions) (env : Env) : List Stmt → Action
  | [] => .skip
  | t :: ts => (runWith c env t).seq (runAllWith c env ts)
end

theorem runWith_decl (c : Conventions) (env : Env) (s : Site) (n : String) (b : Buffer) (body : Stmt) :
    (Stmt.decl s n b body).runWith c env =
      if b.access = .cache then (body.runWith c env).withLocal n (c.fresh s.label n)
      else body.runWith c env := rfl

theorem runWith_loop (c : Conventions) (env : Env) (s : Site) (h : LoopHead) (body : Stmt) :
    (Stmt.loop s h body).runWith c env = (fun m => do
      let lower ← h.lower.valueWith? c env m
      let upper ← h.upper.valueWith? c env m
      Action.inTurn ((counting lower upper).map fun v => body.runWith c (env.set h.iter v)) m) := rfl

theorem runWith_guard (c : Conventions) (env : Env) (s : Site) (e : Expr) (body : Stmt) :
    (Stmt.guard s e body).runWith c env = (fun m => do
      if (← e.valueWith? c env m) = 0 then Action.skip m else body.runWith c env m) := rfl

theorem runWith_branch (c : Conventions) (env : Env) (s : Site) (e : Expr) (yes no : Stmt) :
    (Stmt.branch s e yes no).runWith c env = (fun m => do
      if (← e.valueWith? c env m) = 0 then no.runWith c env m else yes.runWith c env m) := rfl

theorem runWith_store (c : Conventions) (env : Env) (s : Site) (b : String) (is : List Expr)
    (v : Expr) : (Stmt.store s b is v).runWith c env = (fun m => do
      let indices ← Expr.valuesWith? c env m is
      let value ← v.valueWith? c env m
      return (m.put b indices value, [⟨b, indices, value⟩])) := rfl

theorem runAllWith_eq_inTurn (c : Conventions) (env : Env) (ts : List Stmt) :
    runAllWith c env ts = Action.inTurn (ts.map (runWith c env)) := by
  induction ts with
  | nil => rfl
  | cons t ts ih => simp [runAllWith, ih]

/-- **Reference conventions**: the run under them is `Stmt.run`. -/
theorem runWith_reference (fresh : Memory) :
    ∀ (t : Stmt) (env : Env), t.runWith (.reference fresh) env = t.run fresh env := by
  refine Stmt.ind ?_ ?_ ?_ ?_ ?_ ?_ ?_ ?_
  · intro s n b body ih env
    simp only [runWith, run, ih, Conventions.reference_fresh]
  · intro s h body ih env
    simp only [runWith, run, ih, Expr.valueWith?_reference]
  · intro s e body ih env
    simp only [runWith, run, ih, Expr.valueWith?_reference]
  · intro s e yes no ihYes ihNo env
    simp only [runWith, run, ihYes, ihNo, Expr.valueWith?_reference]
  · intro s b is v env
    simp only [runWith, run, Expr.valueWith?_reference, Expr.valuesWith?_reference]
  · intro s f args env
    rfl
  · intro s stmts ih env
    simp only [runWith, run, runAllWith_eq_inTurn, runAll_eq_inTurn]
    congr 1
    exact List.map_congr_left fun t ht => ih t ht env
  · intro s env
    rfl

end Stmt

/-- Counting goes up. -/
theorem pairwise_counting (lower upper : Int) : (counting lower upper).Pairwise (· < ·) := by
  apply List.Pairwise.map _ _ List.pairwise_lt_range
  intro j k h
  omega

/-- Counting repeats no number. -/
theorem nodup_counting {lower upper : Int} : (counting lower upper).Nodup :=
  (pairwise_counting lower upper).imp Int.ne_of_lt

theorem counting_cons {lower upper : Int} (h : lower < upper) :
    counting lower upper = lower :: counting (lower + 1) upper := by
  unfold counting
  obtain ⟨n, hn⟩ : ∃ n, (upper - lower).toNat = n + 1 := ⟨(upper - lower).toNat - 1, by omega⟩
  have hRest : (upper - (lower + 1)).toNat = n := by omega
  rw [hn, hRest, List.range_succ_eq_map, List.map_cons, List.map_map]
  congr 1
  · omega
  · apply List.map_congr_left
    intro k _
    simp only [Function.comp_apply]
    omega

theorem counting_snoc {lower upper : Int} (h : lower < upper) :
    counting lower upper = counting lower (upper - 1) ++ [upper - 1] := by
  unfold counting
  obtain ⟨n, hn⟩ : ∃ n, (upper - lower).toNat = n + 1 := ⟨(upper - lower).toNat - 1, by omega⟩
  have hRest : (upper - 1 - lower).toNat = n := by omega
  rw [hn, hRest, List.range_succ, List.map_append, List.map_singleton]
  congr 2
  omega

/-! ## Changes of the memory -/

/-- What is left of an action without its writes: the memory afterwards. -/
abbrev Change := Memory → Option Memory

namespace Change

/-- Leaves the memory as it is. -/
def skip : Change := some

/-- Fails on every memory. -/
def stuck : Change := fun _ => none

/-- One change after the other. -/
def seq (a b : Change) : Change := fun m => (a m).bind b

/-- Changes in the order of a list. -/
def inTurn (changes : List Change) : Change := changes.foldr seq skip

/-- A change of a buffer of its own, with the given cells at first, that hides another one of that
    name. -/
def withLocal (buffer : String) (cells : Cells) (a : Change) : Change := fun m =>
  (a (m.exchange buffer cells)).map fun after => after.exchange buffer (m buffer)

@[simp] theorem inTurn_nil : inTurn [] = skip := rfl

@[simp] theorem inTurn_cons (a : Change) (as : List Change) :
    inTurn (a :: as) = a.seq (inTurn as) := rfl

@[simp] theorem skip_seq (a : Change) : skip.seq a = a := rfl

@[simp] theorem seq_skip (a : Change) : a.seq skip = a := by
  funext m
  simp [seq, skip]

theorem seq_assoc (a b d : Change) : (a.seq b).seq d = a.seq (b.seq d) := by
  funext m
  exact Option.bind_assoc (a m) b d

theorem inTurn_append (as bs : List Change) :
    inTurn (as ++ bs) = (inTurn as).seq (inTurn bs) := by
  induction as with
  | nil => rfl
  | cons a as ih => simp [ih, seq_assoc]

theorem inTurn_flatMap {α : Type} (f : α → List Change) (xs : List α) :
    inTurn (xs.flatMap f) = inTurn (xs.map fun x => inTurn (f x)) := by
  induction xs with
  | nil => rfl
  | cons x xs ih => simp [inTurn_append, ih]

/-- When one change after the other leaves a memory, there is one in between. -/
theorem seq_eq_some {a b : Change} {m m' : Memory} :
    a.seq b m = some m' ↔ ∃ between, a m = some between ∧ b between = some m' :=
  Option.bind_eq_some_iff

theorem withLocal_eq_some {buffer : String} {cells : Cells} {a : Change} {m m' : Memory} :
    a.withLocal buffer cells m = some m' ↔
      ∃ after, a (m.exchange buffer cells) = some after
        ∧ after.exchange buffer (m buffer) = m' :=
  Option.map_eq_some_iff

end Change

namespace Action

/-- An action without its writes. -/
def change (a : Action) : Change := fun m => (a m).map Prod.fst

@[simp] theorem change_skip : skip.change = Change.skip := rfl

@[simp] theorem change_stuck : stuck.change = Change.stuck := rfl

@[simp] theorem change_seq (a b : Action) : (a.seq b).change = a.change.seq b.change := by
  funext m
  simp only [change, seq, Change.seq]
  cases h : a m with
  | none => rfl
  | some r => cases h' : b r.1 <;> simp [change, h']

@[simp] theorem change_inTurn (as : List Action) :
    (inTurn as).change = Change.inTurn (as.map change) := by
  induction as with
  | nil => rfl
  | cons a as ih => simp [ih]

@[simp] theorem change_withLocal (buffer : String) (cells : Cells) (a : Action) :
    (a.withLocal buffer cells).change = a.change.withLocal buffer cells := by
  funext m
  simp only [change, withLocal, Change.withLocal]
  cases h : a (m.exchange buffer cells) <;> simp

end Action

namespace Stmt

/-- How a program changes the memory under conventions. -/
def change (c : Conventions) (env : Env) (t : Stmt) : Change := (t.runWith c env).change

/-- The memory that `Stmt.run` leaves. -/
theorem change_reference (fresh : Memory) (env : Env) (t : Stmt) (m : Memory) :
    t.change (.reference fresh) env m = (t.run fresh env m).map Prod.fst := by
  rw [change, runWith_reference, Action.change]

theorem change_decl (c : Conventions) (env : Env) (s : Site) (n : String) (b : Buffer)
    (body : Stmt) : (Stmt.decl s n b body).change c env =
      if b.access = .cache then (body.change c env).withLocal n (c.fresh s.label n)
      else body.change c env := by
  unfold change
  rw [runWith_decl]
  split
  · exact Action.change_withLocal _ _ _
  · rfl

theorem change_loop (c : Conventions) (env : Env) (s : Site) (h : LoopHead) (body : Stmt)
    (m : Memory) : (Stmt.loop s h body).change c env m =
      (h.lower.valueWith? c env m).bind fun lower => (h.upper.valueWith? c env m).bind fun upper =>
        Change.inTurn ((counting lower upper).map fun v => body.change c (env.set h.iter v)) m := by
  unfold change
  rw [runWith_loop, Action.change]
  cases hLower : h.lower.valueWith? c env m with
  | none => simp
  | some lower =>
    cases hUpper : h.upper.valueWith? c env m with
    | none => simp
    | some upper =>
      have hTurns := congrFun (Action.change_inTurn
        ((counting lower upper).map fun v => body.runWith c (env.set h.iter v))) m
      rw [List.map_map] at hTurns
      exact hTurns

theorem change_guard (c : Conventions) (env : Env) (s : Site) (e : Expr) (body : Stmt)
    (m : Memory) : (Stmt.guard s e body).change c env m =
      (e.valueWith? c env m).bind fun v => if v = 0 then some m else body.change c env m := by
  unfold change
  rw [runWith_guard, Action.change]
  cases e.valueWith? c env m with
  | none => rfl
  | some v => by_cases hv : v = 0 <;> simp [hv, Action.skip, Action.change]

theorem change_branch (c : Conventions) (env : Env) (s : Site) (e : Expr) (yes no : Stmt)
    (m : Memory) : (Stmt.branch s e yes no).change c env m =
      (e.valueWith? c env m).bind fun v =>
        if v = 0 then no.change c env m else yes.change c env m := by
  unfold change
  rw [runWith_branch, Action.change]
  cases e.valueWith? c env m with
  | none => rfl
  | some v => by_cases hv : v = 0 <;> simp [hv, Action.change]

theorem change_store (c : Conventions) (env : Env) (s : Site) (b : String) (is : List Expr)
    (v : Expr) (m : Memory) : (Stmt.store s b is v).change c env m =
      (Expr.valuesWith? c env m is).bind fun cell =>
        (v.valueWith? c env m).map fun value => m.put b cell value := by
  unfold change
  rw [runWith_store, Action.change]
  cases Expr.valuesWith? c env m is with
  | none => rfl
  | some cell => cases h : v.valueWith? c env m <;> simp

theorem change_block (c : Conventions) (env : Env) (s : Site) (ts : List Stmt) :
    (Stmt.block s ts).change c env = Change.inTurn (ts.map (change c env)) := by
  have hTurns := congrArg Action.change (runAllWith_eq_inTurn c env ts)
  rw [Action.change_inTurn, List.map_map] at hTurns
  exact hTurns

@[simp] theorem change_call (c : Conventions) (env : Env) (s : Site) (f : String)
    (args : List Arg) : (Stmt.call s f args).change c env = .stuck := rfl

@[simp] theorem change_hole (c : Conventions) (env : Env) (s : Site) :
    (Stmt.hole s).change c env = .stuck := rfl

end Stmt

end LoopNest

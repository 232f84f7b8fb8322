import LoopNest.Proofs.DistributedLoops

/-! # Programs that leave one memory in any order

  A parallel loop may run its iterations in any order, and the loops inside an iteration as well.
  `Stmt.MayLeave` relates a memory to all memories that a program may leave. `Stmt.MayStick` says
  whether it may come to a point where it cannot go on.

  * **Iterations apart**: iterations of a loop are logged by steps that are independent of those of
    the other iterations (`Stmt.Iterations`). A safe verdict gives such steps
    (`Stmt.apart_of_safe`).
  * **Any order**: when the iterations of every parallel loop are apart, a program that has a run
    leaves the memory of this run in every order and does not stick (`Stmt.settles_of_unordered`).

  What the bounds of a parallel loop are is settled before its first iteration. The bounds of the
  parallel loops around a statement are kept in a list, since their values are known to exist. -/

namespace LoopNest

namespace Stmt

/-! ## What a program does to names -/

/-- The buffers that the expressions of a program read. -/
def Reads (t : Stmt) (b : String) : Prop := ∃ u ∈ t.nodes, ∃ e ∈ u.exprs, e.reads b = true

/-- The buffers that a program declares. -/
def Declares (t : Stmt) (b : String) : Prop := ∃ s buffer body, Stmt.decl s b buffer body ∈ t.nodes

theorem Reads.of_mem {t u : Stmt} (hu : u ∈ t.nodes) {b : String} (h : u.Reads b) : t.Reads b := by
  obtain ⟨w, hw, hReads⟩ := h
  exact ⟨w, mem_nodes_trans hw hu, hReads⟩

theorem Writes.of_mem {t u : Stmt} (hu : u ∈ t.nodes) {b : String} (h : u.Writes b) :
    t.Writes b := by
  obtain ⟨s, is, v, hStore⟩ := h
  exact ⟨s, is, v, mem_nodes_trans hStore hu⟩

theorem Declares.of_mem {t u : Stmt} (hu : u ∈ t.nodes) {b : String} (h : u.Declares b) :
    t.Declares b := by
  obtain ⟨s, buffer, body, hDecl⟩ := h
  exact ⟨s, buffer, body, mem_nodes_trans hDecl hu⟩

/-- A program leaves an expression alone: nowhere in it do the names of the expression mean
    something else, and it writes none of the buffers. -/
structure Still (t : Stmt) (e : Expr) : Prop where
  scalars : ∀ x ∈ e.scalars, ¬ t.Binds x
  declares : ∀ b ∈ e.buffers, ¬ t.Declares b
  writes : ∀ b ∈ e.buffers, ¬ t.Writes b

namespace Still

theorem of_mem {t u : Stmt} {e : Expr} (hu : u ∈ t.nodes) (h : t.Still e) : u.Still e where
  scalars x hx hBinds := h.scalars x hx (hBinds.of_mem hu)
  declares b hb hDeclares := h.declares b hb (hDeclares.of_mem hu)
  writes b hb hWrites := h.writes b hb (hWrites.of_mem hu)

variable {c : Conventions} {t : Stmt} {e : Expr}

/-- A run does not change the value. -/
theorem value_of_change (h : t.Still e) {env env' : Env} {m m' : Memory}
    (hRun : t.change c env' m = some m') : e.valueWith? c env m' = e.valueWith? c env m :=
  Expr.valueWith?_congr_names (fun _ _ => rfl) fun b hb => keeps_of_change hRun (h.writes b hb)

/-- The value is the same inside a loop. -/
theorem value_set {s : Site} {head : LoopHead} {body : Stmt} (h : (Stmt.loop s head body).Still e)
    (env : Env) (v : Int) (m : Memory) :
    e.valueWith? c (env.set head.iter v) m = e.valueWith? c env m := by
  refine Expr.valueWith?_congr_names (fun x hx => Env.set_ne ?_) fun _ _ => rfl
  intro hEq
  exact h.scalars x hx ⟨s, head, body, self_mem_nodes _, hEq.symm⟩

/-- The value is the same inside a declaration. -/
theorem value_exchange {s : Site} {n : String} {b : Buffer} {body : Stmt}
    (h : (Stmt.decl s n b body).Still e) (env : Env) (m : Memory) (cells : Cells) :
    e.valueWith? c env (m.exchange n cells) = e.valueWith? c env m := by
  refine Expr.valueWith?_congr_names (fun _ _ => rfl) fun b' hb => Memory.exchange_ne ?_
  intro hEq
  exact h.declares b' hb ⟨s, b, body, hEq ▸ self_mem_nodes _⟩

end Still

/-- The bounds of parallel loops are settled before the first iteration. -/
def SteadyLoops (t : Stmt) : Prop := ∀ s h body, Stmt.loop s h body ∈ t.nodes →
  h.isParallel = true → ∀ e ∈ [h.lower, h.upper], body.Still e ∧ h.iter ∉ e.scalars

theorem SteadyLoops.of_mem {t u : Stmt} (hu : u ∈ t.nodes) (h : t.SteadyLoops) : u.SteadyLoops :=
  fun s head body hLoop => h s head body (mem_nodes_trans hLoop hu)

/-! ## Steps of programs -/

/-- Steps of a program: it reads buffers that are in use, and changes those that its stores
    write. -/
def MayMake (used : List String) (t : Stmt) : Step → Prop
  | .read b _ _ => b ∈ used
  | .write b _ _ | .update b _ _ _ => t.Writes b

theorem MayMake.mono {used used' : List String} (hUsed : used ⊆ used') {t : Stmt} {s : Step}
    (h : t.MayMake used s) : t.MayMake used' s := by
  cases s with
  | read b cell v => exact hUsed h
  | write b cell v => exact h
  | update b cell op v => exact h

/-- Accesses are reads in the expressions of a program and writes of its stores. -/
theorem mayMake_of_access (t : Stmt) (s : Scope) (a : Access) (h : a ∈ t.accessesIn s) :
    (a.kind = .read → t.Reads a.buffer) ∧ (a.kind = .write → t.Writes a.buffer) := by
  obtain ⟨u, s', hStands, hMade⟩ := exists_maker t s a h
  constructor
  · intro hKind
    obtain ⟨e, he, hPart⟩ := hMade.read hKind
    exact ⟨u, hStands.mem, e, he, Expr.reads_iff.mpr (Expr.mem_buffers.mpr ⟨_, hPart⟩)⟩
  · intro hKind
    obtain ⟨site, v, rfl⟩ := hMade.write hKind
    exact ⟨site, a.indices, v, hStands.mem⟩

/-- The list of written buffers is complete and has nothing else in it. -/
theorem mem_written_iff {t : Stmt} {b : String} : b ∈ t.written ↔ t.Writes b := by
  refine ⟨fun h => ?_, mem_written⟩
  unfold written sortedNames at h
  rw [List.mem_eraseDups, List.mem_mergeSort, List.mem_map] at h
  obtain ⟨a, ha, rfl⟩ := h
  obtain ⟨hAccess, hWrite⟩ := List.mem_filter.mp ha
  obtain ⟨⟨a', k⟩, hPair, rfl⟩ := List.mem_map.mp hAccess
  have hMem : a' ∈ t.accessesIn {} := (List.mem_zipIdx' hPair).2 ▸ List.getElem_mem _
  exact (mayMake_of_access t {} a' hMem).2 (by simpa using hWrite)

/-- Steps are made by accesses of the program. -/
theorem mayMake_of_by {t : Stmt} {used : List String} (hUsed : ∀ b, t.Reads b → b ∈ used)
    {s : Scope} {x : Touch} {step : Step} (hAccess : x.access ∈ t.accessesIn s) (h : step.By x) :
    t.MayMake used step := by
  obtain ⟨hRead, hWrite⟩ := mayMake_of_access t s x.access hAccess
  have hKind : x.access.kind = step.role.1 := congrArg Prod.fst h.role
  rw [h.buffer] at hRead hWrite
  cases step with
  | read b cell v => exact hUsed b (hRead hKind)
  | write b cell v => exact hWrite hKind
  | update b cell op v => exact hWrite hKind

/-! ## Iterations apart -/

variable {c : Conventions}

/-- The steps that log the iterations of a loop when its bounds are known.

    * **logged**: an iteration that leaves a memory is logged by some of its steps, as long as the
      bounds have their values and the expressions of a list have any;
    * **made**: the body can make the steps;
    * **independent**: steps of different iterations may be made in any order. -/
structure Iterations (c : Conventions) (used : List String) (known : List Expr) (env : Env)
    (h : LoopHead) (body : Stmt) (lower upper : Int) (S : Int → Step → Prop) : Prop where
  logged : ∀ v ∈ counting lower upper, ∀ m m', (∀ e ∈ known, (e.valueWith? c env m).isSome) →
    h.lower.valueWith? c env m = some lower → h.upper.valueWith? c env m = some upper →
    body.change c (env.set h.iter v) m = some m' →
      ∃ steps, (body.change c (env.set h.iter v)).LogsTo m steps m' ∧ ∀ s ∈ steps, S v s
  made : ∀ v s, S v s → body.MayMake used s
  independent : ∀ v ∈ counting lower upper, ∀ w ∈ counting lower upper, v ≠ w →
    ∀ s s', S v s → S w s' → s.Independent s'

/-- The iterations of a loop are apart, whatever its bounds are. -/
def TurnsApart (c : Conventions) (used : List String) (known : List Expr) (h : LoopHead) (body : Stmt) :
    Prop :=
  ∀ env at_ lower upper, h.lower.valueWith? c env at_ = some lower →
    h.upper.valueWith? c env at_ = some upper →
      ∃ S, Iterations c used known env h body lower upper S

theorem TurnsApart.mono {used used' : List String} (hUsed : used ⊆ used') {known : List Expr}
    {h : LoopHead} {body : Stmt} (hApart : TurnsApart c used known h body) :
    TurnsApart c used' known h body := by
  intro env at_ lower upper hLower hUpper
  obtain ⟨S, hS⟩ := hApart env at_ lower upper hLower hUpper
  exact ⟨S, hS.logged, fun v s hs => (hS.made v s hs).mono hUsed, hS.independent⟩

/-- **Safe loops**: under a safe verdict the iterations of a loop without assertions are apart. -/
theorem apart_of_safe {s : Site} {h : LoopHead} {body : Stmt}
    (hIds : (Stmt.loop s h body).loopIds.Nodup) (hLocals : body.localsOnly = true)
    (hNoDeps : h.noDeps = []) {maxLevels : Nat} {rs : List (String × ReduceOp)}
    (hSafe : (Stmt.loop s h body).parallelVerdict maxLevels = .safe rs) {used : List String}
    (hUsed : ∀ b, body.Reads b → b ∈ used) (known : List Expr) : TurnsApart c used known h body := by
  intro env at_ lower upper hLower hUpper
  -- the steps that touches of an iteration make, on any memory
  refine ⟨fun v step => v ∈ counting lower upper ∧ ∃ x before,
    x ∈ (iteration c env s h body v).2 before ∧ ({} : Place).Makes step x, ?_, ?_, ?_⟩
  · intro v hv m m' _ _ _ hRun
    have hLogged : Logged (iteration c env s h body v) ({} : Place).Makes := by
      rw [← Place.makes_enter (p := {}) (l := ⟨s.id, h⟩) (v := v)]
      exact logged body _ _ hLocals
    obtain ⟨steps, hSteps, hMade⟩ := hLogged m m' hRun
    refine ⟨steps, hSteps, fun step hStep => ?_⟩
    obtain ⟨x, hx, hMakes⟩ := hMade step hStep
    exact ⟨hv, x, m, hx, hMakes⟩
  · intro v step ⟨hv, x, before, hx, hMakes⟩
    obtain ⟨hAccess, _⟩ := placed_of_mem_touchesWith body _ _ _ before x
      ((Place.At.start c env).enter (l := ⟨s.id, h⟩) hLower hUpper hv) hx
    exact mayMake_of_by hUsed hAccess hMakes.makes
  · intro v hv w hw hne step step' ⟨_, x, before, hx, hMakes⟩ ⟨_, y, before', hy, hMakes'⟩
    apply Step.independent_of_by hMakes.makes hMakes'.makes
    intro hBuffer hCell hWrite
    have hOwner : x.owner = y.owner := by
      rw [hMakes.ofPlace.owner, hMakes'.ofPlace.owner]
      rfl
    refine reduction_of_meets hIds hSafe hLower hUpper hv hw hne hx hy
      ⟨hBuffer, hOwner, hCell, hWrite⟩ ?_ ?_
    · rw [visibleNames_of_localsOnly hLocals]
      exact List.not_mem_nil
    · rw [hNoDeps]
      exact List.not_mem_nil

end Stmt

/-! ## Exchange -/

/-- From some memories a change leads to such memories, and it is logged by steps of some kind. -/
def Change.Makes (P : Memory → Prop) (S : Step → Prop) (a : Change) : Prop :=
  ∀ m m', P m → a m = some m' → P m' ∧ ∃ steps, a.LogsTo m steps m' ∧ ∀ s ∈ steps, S s

/-- The members of a sequence have a log each. -/
theorem Change.exists_logs {α : Type} {f : α → Change} {S : α → Step → Prop} {P : Memory → Prop}
    {xs : List α} (hNodup : xs.Nodup) (h : ∀ x ∈ xs, (f x).Makes P (S x)) {m m' : Memory}
    (hm : P m) (hRun : inTurn (xs.map f) m = some m') :
    ∃ logs : α → List Step, inTurn (xs.map fun x => Step.replay (logs x)) m = some m'
      ∧ ∀ x ∈ xs, (∀ other other', Step.replay (logs x) other = some other' →
          f x other = some other') ∧ ∀ s ∈ logs x, S x s := by
  classical
  induction xs generalizing m with
  | nil => exact ⟨fun _ => [], hRun, fun _ hx => by cases hx⟩
  | cons x xs ih =>
    obtain ⟨hx, hRest⟩ := List.nodup_cons.mp hNodup
    obtain ⟨between, hHead, hTail⟩ := seq_eq_some.mp hRun
    obtain ⟨hBetween, steps, hSteps, hMade⟩ := h x List.mem_cons_self m between hm hHead
    obtain ⟨logs, hLogs, hEach⟩ :=
      ih hRest (fun y hy => h y (List.mem_cons_of_mem x hy)) hBetween hTail
    have hHere : Function.update logs x steps x = steps := Function.update_self ..
    have hOther : ∀ y ∈ xs, Function.update logs x steps y = logs y := by
      intro y hy
      apply Function.update_of_ne
      rintro rfl
      exact hx hy
    refine ⟨Function.update logs x steps, ?_, ?_⟩
    · have hMap : (xs.map fun y => Step.replay (Function.update logs x steps y))
          = xs.map fun y => Step.replay (logs y) :=
        List.map_congr_left fun y hy => by rw [hOther y hy]
      rw [List.map_cons, inTurn_cons, hHere, hMap]
      exact seq_eq_some.mpr ⟨between, hSteps.here, hLogs⟩
    · intro y hy
      rcases List.mem_cons.mp hy with rfl | hy
      · rw [hHere]
        exact ⟨hSteps.again, hMade⟩
      · rw [hOther y hy]
        exact hEach y hy

/-- **Exchange**: when members of a sequence are logged by steps that are independent of those of
    the others, every other order leaves the same memory. -/
theorem Change.exchange_logs {α : Type} {f : α → Change} {S : α → Step → Prop} {P : Memory → Prop}
    {p q : List α} (hPerm : q.Perm p) (hNodup : p.Nodup) (h : ∀ x ∈ p, (f x).Makes P (S x))
    (hIndependent : ∀ v ∈ p, ∀ w ∈ p, v ≠ w → ∀ s s', S v s → S w s' → s.Independent s')
    {m m' : Memory} (hm : P m) (hRun : inTurn (p.map f) m = some m') :
    inTurn (q.map f) m = some m' := by
  obtain ⟨logs, hLogs, hEach⟩ := exists_logs hNodup h hm hRun
  have hOrder : inTurn (p.map fun v => Step.replay (logs v))
      = inTurn (q.map fun v => Step.replay (logs v)) := by
    apply inTurn_exchange hPerm hNodup
    intro v w hvw _
    have hv : v ∈ p := hvw.subset List.mem_cons_self
    have hw : w ∈ p := hvw.subset (List.mem_cons_of_mem v List.mem_cons_self)
    have hne : v ≠ w := by
      rintro rfl
      exact (List.nodup_cons.mp (hvw.nodup hNodup)).1 List.mem_cons_self
    apply Step.replay_commutes
    intro s hs s' hs'
    exact hIndependent v hv w hw hne s s' ((hEach v hv).2 s hs) ((hEach w hw).2 s' hs')
  rw [hOrder] at hLogs
  exact inTurn_of_logs (fun v hv => (hEach v (hPerm.subset hv)).1) hLogs

namespace Stmt

/-! ## All parallel loops -/

section unordered

variable (c : Conventions) (used : List String) (rest : List Nat)

mutual
/-- The iterations of every parallel loop are apart, but for loops whose numbers are in `rest`. The
    expressions of `known` have values, and the buffers of `used` are in use. -/
def Unordered (known : List Expr) : Stmt → Prop
  | .decl _ _ _ body | .guard _ _ body => Unordered known body
  | .loop s h body =>
    if h.isParallel then
      (s.id ∉ rest → TurnsApart c used known h body) ∧ Unordered (h.lower :: h.upper :: known) body
    else Unordered known body
  | .branch _ _ yes no => Unordered known yes ∧ Unordered known no
  | .block _ stmts => UnorderedAll known stmts
  | .store .. | .call .. | .hole _ => True
/-- The same for every statement of a list. -/
def UnorderedAll (known : List Expr) : List Stmt → Prop
  | [] => True
  | t :: ts => Unordered known t ∧ UnorderedAll known ts
end

end unordered

section

variable {used : List String} {rest : List Nat}

theorem unorderedAll_iff {known : List Expr} {ts : List Stmt} :
    UnorderedAll c used rest known ts ↔ ∀ t ∈ ts, Unordered c used rest known t := by
  induction ts with
  | nil => simp [UnorderedAll]
  | cons t ts ih => simp [UnorderedAll, ih]

theorem unordered_block {known : List Expr} {s : Site} {ts : List Stmt} :
    Unordered c used rest known (.block s ts) ↔ ∀ t ∈ ts, Unordered c used rest known t :=
  unorderedAll_iff

end

/-! ## Points where a program cannot go on -/

mutual
/-- Whether a program may come to a point where it cannot go on, in some order of the iterations of
    its parallel loops. -/
def MayStick (fresh : Memory) (env : Env) : Stmt → Memory → Prop
  | .decl _ n b body => fun m =>
    if b.access = .cache then MayStick fresh env body (m.exchange n (fresh n))
    else MayStick fresh env body m
  | .loop _ h body => fun m =>
    h.lower.value? env m = none ∨ h.upper.value? env m = none ∨
    ∃ lower upper before v after between,
      h.lower.value? env m = some lower ∧ h.upper.value? env m = some upper ∧
      h.MayOrder lower upper (before ++ v :: after) ∧
      Effect.inTurn (before.map fun w => MayLeave fresh (env.set h.iter w) body) m between ∧
      MayStick fresh (env.set h.iter v) body between
  | .guard _ e body => fun m => e.value? env m = none ∨
    ∃ v, e.value? env m = some v ∧ v ≠ 0 ∧ MayStick fresh env body m
  | .branch _ e yes no => fun m => e.value? env m = none ∨
    ∃ v, e.value? env m = some v ∧
      if v = 0 then MayStick fresh env no m else MayStick fresh env yes m
  | .store _ _ is v => fun m => Expr.values? env m is = none ∨ v.value? env m = none
  | .block _ stmts => MayStickAll fresh env stmts
  | .call .. | .hole _ => fun _ => True
/-- Whether one of some statements may come to such a point after those before it. -/
def MayStickAll (fresh : Memory) (env : Env) : List Stmt → Memory → Prop
  | [] => fun _ => False
  | t :: ts => fun m => MayStick fresh env t m ∨
    ∃ between, MayLeave fresh env t m between ∧ MayStickAll fresh env ts between
end

/-- In every order a program goes on to its end and leaves one memory. -/
def Settles (fresh : Memory) (env : Env) (t : Stmt) (m m' : Memory) : Prop :=
  (∀ after, t.MayLeave fresh env m after ↔ after = m') ∧ ¬ t.MayStick fresh env m

theorem exists_of_mayStickAll {fresh : Memory} {env : Env} {ts : List Stmt} {m : Memory}
    (h : MayStickAll fresh env ts m) : ∃ before t after between, ts = before ++ t :: after
      ∧ Effect.inTurn (before.map (MayLeave fresh env)) m between
      ∧ t.MayStick fresh env between := by
  induction ts generalizing m with
  | nil => cases h
  | cons t ts ih =>
    rcases h with h | ⟨next, hHead, h⟩
    · exact ⟨[], t, ts, m, rfl, rfl, h⟩
    · obtain ⟨before, u, after, between, rfl, hBefore, hStick⟩ := ih h
      exact ⟨t :: before, u, after, between, rfl, ⟨next, hHead, hBefore⟩, hStick⟩

/-- Parts that settle one after the other settle as a whole. -/
theorem settles_inTurn {α : Type} {f : α → Change} {g : α → Effect} {d : α → Memory → Prop}
    {P : Memory → Prop} {xs : List α}
    (h : ∀ x ∈ xs, ∀ m m', P m → f x m = some m' →
      P m' ∧ (∀ after, g x m after ↔ after = m') ∧ ¬ d x m) {m m' : Memory} (hm : P m)
    (hRun : Change.inTurn (xs.map f) m = some m') :
    (∀ after, Effect.inTurn (xs.map g) m after ↔ after = m')
      ∧ ∀ before x later between, xs = before ++ x :: later →
        Effect.inTurn (before.map g) m between → ¬ d x between := by
  induction xs generalizing m with
  | nil =>
    obtain rfl : m = m' := Option.some.inj hRun
    exact ⟨fun after => Iff.rfl, fun before x later between hEq => by simp at hEq⟩
  | cons x xs ih =>
    obtain ⟨next, hHead, hTail⟩ := Change.seq_eq_some.mp hRun
    obtain ⟨hNext, hLeaves, hGoes⟩ := h x List.mem_cons_self m next hm hHead
    obtain ⟨hRest, hLater⟩ := ih (fun y hy => h y (List.mem_cons_of_mem x hy)) hNext hTail
    constructor
    · intro after
      rw [← hRest after]
      constructor
      · intro hAfter
        obtain ⟨between, hFirst, hSecond⟩ := hAfter
        rwa [(hLeaves between).mp hFirst] at hSecond
      · exact fun hAfter => ⟨next, (hLeaves next).mpr rfl, hAfter⟩
    · intro before y later between hEq hBefore
      cases before with
      | nil =>
        obtain ⟨rfl, _⟩ := List.cons_eq_cons.mp hEq
        obtain rfl : between = m := hBefore
        exact hGoes
      | cons z before =>
        obtain ⟨rfl, hTailEq⟩ := List.cons_eq_cons.mp hEq
        obtain ⟨middle, hFirst, hSecond⟩ := hBefore
        rw [(hLeaves middle).mp hFirst] at hSecond
        exact hLater before y later between hTailEq hSecond

variable {fresh : Memory}

/-- The expressions of a list have values. -/
def Known (c : Conventions) (env : Env) (known : List Expr) (m : Memory) : Prop :=
  ∀ e ∈ known, (e.valueWith? c env m).isSome

/-- **Orders of one loop**: a loop whose body settles and whose iterations are apart settles. -/
theorem settles_loop {s : Site} {h : LoopHead} {body : Stmt} {used : List String}
    {known : List Expr}
    (hApart : h.isParallel = true → TurnsApart (.reference fresh) used known h body)
    (hSteady : (Stmt.loop s h body).SteadyLoops)
    (hStill : ∀ e ∈ known, (Stmt.loop s h body).Still e) {env : Env} {m m' : Memory}
    (hKnown : Known (.reference fresh) env known m)
    (hRun : (Stmt.loop s h body).change (.reference fresh) env m = some m')
    (hBody : ∀ v m m',
      Known (.reference fresh) (env.set h.iter v)
        (if h.isParallel then h.lower :: h.upper :: known else known) m →
      body.change (.reference fresh) (env.set h.iter v) m = some m' →
        body.Settles fresh (env.set h.iter v) m m') :
    (Stmt.loop s h body).Settles fresh env m m' := by
  have hMem : body ∈ (Stmt.loop s h body).nodes := by simp [self_mem_nodes]
  rw [change_loop] at hRun
  obtain ⟨lower, hLower, hRun⟩ := Option.bind_eq_some_iff.mp hRun
  obtain ⟨upper, hUpper, hRun⟩ := Option.bind_eq_some_iff.mp hRun
  have hLower' : h.lower.value? env m = some lower := by rwa [Expr.valueWith?_reference] at hLower
  have hUpper' : h.upper.value? env m = some upper := by rwa [Expr.valueWith?_reference] at hUpper
  -- what is known of the memory before every iteration
  let P : Memory → Prop := fun m => Known (.reference fresh) env known m ∧ (h.isParallel = true →
    h.lower.valueWith? (.reference fresh) env m = some lower
      ∧ h.upper.valueWith? (.reference fresh) env m = some upper)
  have hKeeps : ∀ v m m', P m → body.change (.reference fresh) (env.set h.iter v) m = some m' →
      P m' := by
    intro v m m' hm hRun
    refine ⟨fun e he => ?_, fun hParallel => ?_⟩
    · rw [((hStill e he).of_mem hMem).value_of_change hRun]
      exact hm.1 e he
    · have hBounds := hSteady s h body (self_mem_nodes _) hParallel
      rw [(hBounds h.lower (by simp)).1.value_of_change hRun,
        (hBounds h.upper (by simp)).1.value_of_change hRun]
      exact hm.2 hParallel
  have hSettles : ∀ v m m', P m → body.change (.reference fresh) (env.set h.iter v) m = some m' →
      body.Settles fresh (env.set h.iter v) m m' := by
    intro v m m' hm hRun
    have hSet : Known (.reference fresh) (env.set h.iter v) known m := by
      intro e he
      rw [(hStill e he).value_set]
      exact hm.1 e he
    refine hBody v m m' ?_ hRun
    by_cases hParallel : h.isParallel = true
    · rw [if_pos hParallel]
      have hBounds := hSteady s h body (self_mem_nodes _) hParallel
      have hValue : ∀ e ∈ [h.lower, h.upper],
          e.valueWith? (.reference fresh) (env.set h.iter v) m
            = e.valueWith? (.reference fresh) env m := by
        intro e he
        refine Expr.valueWith?_congr_names (fun x hx => Env.set_ne ?_) fun _ _ => rfl
        rintro rfl
        exact (hBounds e he).2 hx
      intro e he
      rcases List.mem_cons.mp he with rfl | he
      · rw [hValue _ (by simp), (hm.2 hParallel).1]
        rfl
      · rcases List.mem_cons.mp he with rfl | he
        · rw [hValue _ (by simp), (hm.2 hParallel).2]
          rfl
        · exact hSet e he
    · rw [if_neg hParallel]
      exact hSet
  have hStart : P m := ⟨hKnown, fun _ => ⟨hLower, hUpper⟩⟩
  -- every order leaves the memory that increasing order leaves
  have hOrder : ∀ order, h.MayOrder lower upper order →
      Change.inTurn (order.map fun v => body.change (.reference fresh) (env.set h.iter v)) m
        = some m' := by
    intro order hMay
    unfold LoopHead.MayOrder at hMay
    split at hMay
    · rename_i hParallel
      obtain ⟨S, hS⟩ := hApart hParallel env m lower upper hLower hUpper
      refine Change.exchange_logs hMay nodup_counting (fun v hv m m' hm hRun => ?_)
        hS.independent hStart hRun
      exact ⟨hKeeps v m m' hm hRun,
        hS.logged v hv m m' hm.1 (hm.2 hParallel).1 (hm.2 hParallel).2 hRun⟩
    · rwa [hMay]
  have hTurns := fun order (hMay : h.MayOrder lower upper order) =>
    settles_inTurn (g := fun v => MayLeave fresh (env.set h.iter v) body)
      (d := fun v => MayStick fresh (env.set h.iter v) body)
      (fun v _ m m' hm hRun => ⟨hKeeps v m m' hm hRun, hSettles v m m' hm hRun⟩) hStart
      (hOrder order hMay)
  constructor
  · intro after
    constructor
    · intro hLeave
      obtain ⟨lo, up, order, hLo, hUp, hMay, hLeave⟩ := hLeave
      obtain rfl : lower = lo := Option.some.inj (hLower'.symm.trans hLo)
      obtain rfl : upper = up := Option.some.inj (hUpper'.symm.trans hUp)
      exact ((hTurns order hMay).1 after).mp hLeave
    · intro hAfter
      have hMay := h.mayOrder_counting lower upper
      exact ⟨lower, upper, _, hLower', hUpper', hMay, ((hTurns _ hMay).1 after).mpr hAfter⟩
  · intro hStick
    rcases hStick with hNone | hNone |
      ⟨lo, up, before, v, later, between, hLo, hUp, hMay, hBefore, hStick⟩
    · rw [hLower'] at hNone
      cases hNone
    · rw [hUpper'] at hNone
      cases hNone
    · obtain rfl : lower = lo := Option.some.inj (hLower'.symm.trans hLo)
      obtain rfl : upper = up := Option.some.inj (hUpper'.symm.trans hUp)
      exact (hTurns _ hMay).2 before v later between rfl hBefore hStick

/-- **Any order**: when the iterations of every parallel loop are apart, a program that has a run
    leaves the memory of this run in every order, and does not stick in any. -/
theorem settles_of_unordered {used : List String} :
    ∀ (t : Stmt) (known : List Expr) (env : Env) (m m' : Memory),
      Unordered (.reference fresh) used [] known t → t.SteadyLoops → (∀ e ∈ known, t.Still e) →
      Known (.reference fresh) env known m → t.change (.reference fresh) env m = some m' →
        t.Settles fresh env m m' := by
  have hBelow : ∀ {t u : Stmt} {known : List Expr}, u ∈ t.nodes → t.SteadyLoops →
      (∀ e ∈ known, t.Still e) → u.SteadyLoops ∧ ∀ e ∈ known, u.Still e :=
    fun hu hSteady hStill => ⟨hSteady.of_mem hu, fun e he => (hStill e he).of_mem hu⟩
  refine Stmt.ind ?_ ?_ ?_ ?_ ?_ ?_ ?_ ?_
  · intro s n b body ih known env m m' hUnordered hSteady hStill hKnown hRun
    obtain ⟨hSteady', hStill'⟩ := hBelow (u := body) (by simp [self_mem_nodes]) hSteady hStill
    rw [change_decl] at hRun
    unfold Settles MayLeave MayStick
    split at hRun
    · rename_i hCache
      rw [if_pos hCache, if_pos hCache]
      obtain ⟨last, hBody, rfl⟩ := Change.withLocal_eq_some.mp hRun
      have hLocal : Known (.reference fresh) env known (m.exchange n (fresh n)) := by
        intro e he
        rw [(hStill e he).value_exchange]
        exact hKnown e he
      obtain ⟨hLeaves, hGoes⟩ := ih known env _ last hUnordered hSteady' hStill' hLocal hBody
      refine ⟨fun after => ?_, hGoes⟩
      constructor
      · intro hLeave
        obtain ⟨last', hLast, rfl⟩ := hLeave
        rw [(hLeaves last').mp hLast]
      · exact fun hAfter => ⟨last, (hLeaves last).mpr rfl, hAfter⟩
    · rename_i hVisible
      rw [if_neg hVisible, if_neg hVisible]
      exact ih known env m m' hUnordered hSteady' hStill' hKnown hRun
  · intro s h body ih known env m m' hUnordered hSteady hStill hKnown hRun
    obtain ⟨hSteady', hStill'⟩ := hBelow (u := body) (by simp [self_mem_nodes]) hSteady hStill
    rw [Unordered] at hUnordered
    have hApart : h.isParallel = true → TurnsApart (.reference fresh) used known h body := by
      intro hParallel
      rw [if_pos hParallel] at hUnordered
      exact hUnordered.1 List.not_mem_nil
    refine settles_loop hApart hSteady hStill hKnown hRun fun v m m' hKnown hRun => ?_
    by_cases hParallel : h.isParallel = true
    · rw [if_pos hParallel] at hUnordered hKnown
      have hBounds := hSteady s h body (self_mem_nodes _) hParallel
      refine ih _ _ m m' hUnordered.2 hSteady' (fun e he => ?_) hKnown hRun
      rcases List.mem_cons.mp he with rfl | he
      · exact (hBounds _ (by simp)).1
      · rcases List.mem_cons.mp he with rfl | he
        · exact (hBounds _ (by simp)).1
        · exact hStill' e he
    · rw [if_neg hParallel] at hUnordered hKnown
      exact ih _ _ m m' hUnordered hSteady' hStill' hKnown hRun
  · intro s e body ih known env m m' hUnordered hSteady hStill hKnown hRun
    obtain ⟨hSteady', hStill'⟩ := hBelow (u := body) (by simp [self_mem_nodes]) hSteady hStill
    rw [change_guard, Expr.valueWith?_reference] at hRun
    obtain ⟨v, hv, hRun⟩ := Option.bind_eq_some_iff.mp hRun
    by_cases hZero : v = 0
    · rw [if_pos hZero] at hRun
      obtain rfl : m = m' := Option.some.inj hRun
      simp [Settles, MayLeave, MayStick, hv, hZero]
    · rw [if_neg hZero] at hRun
      simpa [Settles, MayLeave, MayStick, hv, hZero] using
        ih known env m m' hUnordered hSteady' hStill' hKnown hRun
  · intro s e yes no ihYes ihNo known env m m' hUnordered hSteady hStill hKnown hRun
    obtain ⟨hYes, hStillYes⟩ := hBelow (u := yes) (by simp [self_mem_nodes]) hSteady hStill
    obtain ⟨hNo, hStillNo⟩ := hBelow (u := no) (by simp [self_mem_nodes]) hSteady hStill
    rw [change_branch, Expr.valueWith?_reference] at hRun
    obtain ⟨v, hv, hRun⟩ := Option.bind_eq_some_iff.mp hRun
    by_cases hZero : v = 0
    · rw [if_pos hZero] at hRun
      simpa [Settles, MayLeave, MayStick, hv, hZero] using
        ihNo known env m m' hUnordered.2 hNo hStillNo hKnown hRun
    · rw [if_neg hZero] at hRun
      simpa [Settles, MayLeave, MayStick, hv, hZero] using
        ihYes known env m m' hUnordered.1 hYes hStillYes hKnown hRun
  · intro s b is v known env m m' _ _ _ _ hRun
    rw [change_store, Expr.valuesWith?_reference, Expr.valueWith?_reference] at hRun
    obtain ⟨cell, hCell, hRun⟩ := Option.bind_eq_some_iff.mp hRun
    obtain ⟨w, hw, rfl⟩ := Option.map_eq_some_iff.mp hRun
    simp [Settles, MayLeave, MayStick, hCell, hw]
  · intro s f args known env m m' _ _ _ _ hRun
    rw [change_call] at hRun
    cases hRun
  · intro s ts ih known env m m' hUnordered hSteady hStill hKnown hRun
    rw [unordered_block] at hUnordered
    rw [change_block] at hRun
    have hMem : ∀ t ∈ ts, t ∈ (Stmt.block s ts).nodes := by
      intro t ht
      rw [nodes_block]
      exact List.mem_cons_of_mem _ (List.mem_flatMap.mpr ⟨t, ht, self_mem_nodes t⟩)
    obtain ⟨hLeaves, hGoes⟩ := settles_inTurn (P := Known (.reference fresh) env known)
      (g := MayLeave fresh env) (d := MayStick fresh env) (fun t ht m m' hm hRun => by
        obtain ⟨hSteady', hStill'⟩ := hBelow (hMem t ht) hSteady hStill
        refine ⟨fun e he => ?_, ih t ht known env m m' (hUnordered t ht) hSteady' hStill' hm hRun⟩
        rw [(hStill' e he).value_of_change hRun]
        exact hm e he) hKnown hRun
    refine ⟨fun after => ?_, fun hStick => ?_⟩
    · rw [MayLeave, mayLeaveAll_eq_inTurn]
      exact hLeaves after
    · obtain ⟨before, t, later, between, rfl, hBefore, hStick⟩ := exists_of_mayStickAll hStick
      exact hGoes before t later between rfl hBefore hStick
  · intro s known env m m' _ _ _ _ hRun
    rw [change_hole] at hRun
    cases hRun

end Stmt

end LoopNest

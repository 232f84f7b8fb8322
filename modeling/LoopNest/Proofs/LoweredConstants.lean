import LoopNest.Proofs.CommittedPrograms
import LoopNest.Proofs.KeptConstants
import LoopNest.Proofs.PureReductions

/-! # Constants of lowered programs

  A lowered program is written to a file and read back by later stages, so its constants should be
  ones that a file can hold. They are when the constants of the program and of the functions are, and
  the two places are avoided where lowering makes an infinite number (`Lower.StaysFinite`): folded
  operations on floating point numbers, and the neutral elements of minima and maxima of floating point
  numbers.

  * **Kinds of expressions**: workspaces are built of expressions of the program, of its constants and
    of scalars, so that they keep every kind with the closure rules of `Expr.Spreads`.
  * **Workspaces** bring no further reductions than those they are made for, and no declaration of a
    name in use, so that what reductions start from is known from the program (`Lower.Storing`).
  * **Lowered programs** have finite constants and are read back (`Lower.constants_of_lower`). -/

namespace LoopNest

/-! ## Neutral elements -/

/-- Whether an operator has a finite neutral element among the values of a type. -/
def ReduceOp.startsFinite (op : ReduceOp) : ElemType → Bool
  | .float32 | .float64 => op == .add || op == .mul
  | _ => true

theorem ReduceOp.storable_neutral {op : ReduceOp} {elem : ElemType} {e : Expr}
    (h : op.neutral? elem = some e) (hFinite : op.startsFinite elem = true) : e.Storable := by
  cases elem with
  | int32 =>
    cases h
    exact Expr.storable_int.mpr (by cases op <;> decide)
  | int64 =>
    cases h
    exact Expr.storable_int.mpr (by cases op <;> decide)
  | float32 =>
    cases h
    cases op with
    | add => exact Expr.storable_float.mpr (by decide)
    | mul => exact Expr.storable_float.mpr (by decide)
    | _ => cases hFinite
  | float64 =>
    cases h
    cases op with
    | add => exact Expr.storable_float.mpr (by decide)
    | mul => exact Expr.storable_float.mpr (by decide)
    | _ => cases hFinite
  | bool => cases h

/-! ## Expressions of workspaces -/

namespace Expr

/-- A kind of expressions that contains what workspaces are built of.

    * **operands**: the operands of an operation are of its kind;
    * **constant**: constants that can be stored are of the kind;
    * **var**, **load**: so are scalars, and loads with subscripts of the kind;
    * **combine**: a cell may be combined with an expression of the kind;
    * **row**: a lower bound of the kind may be subtracted from an iterator. -/
structure Spreads (P : Expr → Prop) : Prop where
  operands : ∀ {op : BinaryOp} {a b : Expr}, P (.binary op a b) → P a ∧ P b
  constant : ∀ {e : Expr}, e.isConstant = true → e.Storable → P e
  var : ∀ x, P (.var x)
  load : ∀ {b is}, (∀ i ∈ is, P i) → P (.load b is)
  combine : ∀ {op : ReduceOp} {b is e}, (∀ i ∈ is, P i) → P e → P (op.combine (.load b is) e)
  row : ∀ {x e}, P e → P ((Expr.var x).minus e)

/-- What is reduced into a cell is an operand of what is stored there. -/
theorem Spreads.of_reduction? {P : Expr → Prop} (hP : Spreads P) {b : String} {is : List Expr}
    {v rhs : Expr} {op : ReduceOp} (h : reduction? b is v = some (op, rhs)) (hv : P v) : P rhs := by
  cases v with
  | binary o lhs right =>
    simp only [reduction?, Option.bind_eq_bind, Option.bind_eq_some_iff] at h
    obtain ⟨_, _, h⟩ := h
    split at h
    · cases h
      exact (hP.operands hv).2
    · split at h
      · cases h
        exact (hP.operands hv).1
      · cases h
  | _ => cases h

theorem Storable.minus {a b : Expr} (ha : a.Storable) (hb : b.Storable) : (a.minus b).Storable := by
  unfold Expr.minus
  split
  · rename_i x y hx hy
    cases hWord : Word.sub? x y with
    | some w =>
      exact storable_int.mpr ((Word.sub?_eq_some.mp hWord).2 ▸ (Word.sub?_eq_some.mp hWord).1)
    | none =>
      rw [Option.elim_none]
      split
      · exact ha
      · exact storable_binary.mpr ⟨ha, hb⟩
  · split
    · exact ha
    · exact storable_binary.mpr ⟨ha, hb⟩
  · exact storable_binary.mpr ⟨ha, hb⟩

theorem spreads_storable : Spreads Storable where
  operands := storable_binary.mp
  constant _ h := h
  var := storable_var
  load h := storable_load.mpr h
  combine hIndices he := storable_binary.mpr ⟨storable_load.mpr hIndices, he⟩
  row h := (storable_var _).minus h

theorem spreads_enduring : Spreads Enduring where
  operands h := ⟨(enduring_binary.mp h).1, (enduring_binary.mp h).2.1⟩
  constant hConstant h := .of_isConstant hConstant (h _ (self_mem_parts _))
  var := enduring_var
  load h := enduring_load.mpr h
  combine {op b is e} hIndices he := by
    refine enduring_binary.mpr ⟨enduring_load.mpr hIndices, he, fun x hx => he.finite ?_⟩
    rcases mem_outcomes_binary.mp hx with ⟨y, hy, -⟩ | ⟨-, hx⟩ | ⟨-, hx⟩
    · cases hy
    · cases hx
    · exact hx
  row {x e} he := by
    rcases minus_cases (.var x) e with ⟨hEq, -⟩ | hEq | ⟨_, _, hInt, -⟩
    · rw [hEq]
      exact enduring_var x
    · rw [hEq]
      refine enduring_binary.mpr ⟨enduring_var x, he, fun y hy => ?_⟩
      rcases mem_outcomes_binary.mp hy with ⟨_, hNone, -⟩ | ⟨-, hNone⟩ | ⟨hRight, -⟩
      · cases hNone
      · cases hNone
      · cases hRight
    · cases hInt

end Expr

/-! ## Reductions of parallel loops -/

namespace Stmt

/-- Some parallel loop reduces into a buffer by an operator. -/
def Gathers (t : Stmt) (b : String) (op : ReduceOp) : Prop :=
  ∃ s h body, .loop s h body ∈ t.nodes ∧ h.isParallel = true ∧ body.ReducesInto b op

/-- In all buffers that are declared under a name, an operator has a finite neutral element. -/
def StartsFinite (t : Stmt) (b : String) (op : ReduceOp) : Prop :=
  ∀ s buffer body, .decl s b buffer body ∈ t.nodes → op.startsFinite buffer.elem = true

section gathers

variable {t u : Stmt} {b : String} {op : ReduceOp} {p : Nat}

theorem Gathers.mem_usedNames (h : t.Gathers b op) : b ∈ t.usedNames := by
  obtain ⟨s, head, body, hLoop, -, hReduces⟩ := h
  exact (hReduces.writes.of_mem (mem_nodes_trans (by simp [self_mem_nodes]) hLoop)).mem_usedNames

/-- In an updated program, parallel loops reduce as before, or as the new statement does. -/
theorem gathers_update (h : (t.update p fun _ => u).Gathers b op) :
    t.Gathers b op ∨ u.ReducesInto b op := by
  obtain ⟨s, head, body, hLoop, hParallel, hReduces⟩ := h
  rcases mem_nodes_update t hLoop with hLoop | ⟨y, hy, hne, hEq⟩
  · exact .inr (hReduces.of_mem (mem_nodes_trans (by simp [self_mem_nodes]) hLoop))
  · rw [update_eq, if_neg hne] at hEq
    obtain ⟨body', rfl, rfl⟩ := loop_of_mapChildren hEq.symm
    rcases reducesInto_update hReduces with hOld | ⟨-, hNew⟩
    · exact .inl ⟨s, head, body', hy, hParallel, hOld⟩
    · exact .inr hNew

end gathers

end Stmt

/-! ## Statements of workspaces -/

namespace Lower

open Restructure (Draft)
open Stmt (LabelledLoop)

/-- The statements of a program in which the loop of a job has its workspace: those from before with
    other statements below them, and those of the workspace. -/
inductive Job.Makes (j : Job) (n : JobNames) (t : Stmt) : Stmt → Prop where
  | old {u : Stmt} (mem : u ∈ t.nodes) (f : Stmt → Stmt) : Makes j n t (u.mapChildren f)
  | space (s : Site) (body : Stmt) (m : MemSpace) :
    Makes j n t (.decl s n.space ⟨j.rows :: j.host.shape, j.host.elem, .cache, m⟩ body)
  | block (s : Site) (ts : List Stmt) : Makes j n t (.block s ts)
  | axis (s : Site) (body : Stmt) (iter : String) {upper : Expr}
    (mem : upper ∈ j.rows :: j.host.shape) :
    Makes j n t (.loop s { iter, lower := .int 0, upper } body)
  | fill (s : Site) : Makes j n t (.store s n.space (j.row :: n.fillIters.map .var) j.neutral)
  | moved {s : Site} {is : List Expr} {v rhs : Expr} {op : ReduceOp}
    (mem : .store s j.buffer is v ∈ j.loop.stmt.nodes)
    (reduction : Expr.reduction? j.buffer is v = some (op, rhs)) :
    Makes j n t (.store s n.space (j.row :: is) (j.op.combine (.load n.space (j.row :: is)) rhs))
  | fold (s : Site) : Makes j n t (.store s j.buffer (n.foldIters.map .var)
      (j.op.combine (.load j.buffer (n.foldIters.map .var))
        (.load n.space (.var n.rowIter :: n.foldIters.map .var))))

namespace Job.Makes

variable {j : Job} {n : JobNames} {t t' x : Stmt}

theorem mono (h : j.Makes n t x) (hNodes : ∀ u ∈ t.nodes, u ∈ t'.nodes) : j.Makes n t' x := by
  cases h with
  | old mem f => exact .old (hNodes _ mem) f
  | space s body m => exact .space s body m
  | block s ts => exact .block s ts
  | axis s body iter mem => exact .axis s body iter mem
  | fill s => exact .fill s
  | moved mem reduction => exact .moved mem reduction
  | fold s => exact .fold s

/-- The statements of a workspace. -/
theorem of_mem_stmt {space : MemSpace} {next : Nat} (hx : x ∈ (j.stmt n space next).1.nodes) :
    j.Makes n j.loop.stmt x := by
  have hAxes : ∀ {iters : List String} {axis : String × Expr}, axis ∈ iters.zip j.host.shape →
      axis.2 ∈ j.rows :: j.host.shape :=
    fun h => List.mem_cons_of_mem _ (List.of_mem_zip h).2
  rcases Job.mem_nodes_stmt hx with ⟨s, body, rfl⟩ | ⟨s, ts, rfl⟩ | rfl | hx | hx | rfl | hx
  · exact .space s body space
  · exact .block s ts
  · exact .old (u := j.loop.stmt) (Stmt.self_mem_nodes _) fun _ => _
  · rcases mem_nodes_fillNest hx with rfl | ⟨axis, hAxis, s, body, rfl⟩
    · exact .fill _
    · exact .axis s body axis.1 (hAxes hAxis)
  · have hBody : ∀ u ∈ j.loop.body.nodes, u ∈ j.loop.stmt.nodes := fun u hu => by
      simp [LabelledLoop.stmt, hu]
    rcases mem_nodes_redirect hx with ⟨u, hu, rfl, -⟩ | ⟨s, is, v, op, rhs, hStore, hReduction, rfl⟩
    · exact .old (hBody u hu) _
    · exact .moved (hBody _ hStore) hReduction
  · exact .axis _ _ n.rowIter List.mem_cons_self
  · rcases mem_nodes_fillNest hx with rfl | ⟨axis, hAxis, s, body, rfl⟩
    · exact .fold _
    · exact .axis s body axis.1 (hAxes hAxis)

/-- The statements of the program with the workspace. -/
theorem of_mem_update {space : MemSpace} {next p : Nat} (hLoop : j.loop.stmt ∈ t.nodes)
    (hx : x ∈ (t.update p fun _ => (j.stmt n space next).1).nodes) : j.Makes n t x := by
  rcases Stmt.mem_nodes_update t hx with hx | ⟨y, hy, hne, rfl⟩
  · exact (of_mem_stmt hx).mono fun u hu => Stmt.mem_nodes_trans hu hLoop
  · rw [Stmt.update_eq, if_neg hne]
    exact .old hy _

/-- **Expressions** are of the kind of those of the program, when the rows and the neutral element
    are. -/
theorem each {P : Expr → Prop} (h : j.Makes n t x) (hP : Expr.Spreads P) (hEach : t.Each P)
    (hLoop : j.loop.stmt ∈ t.nodes) (hShape : ∀ e ∈ j.host.shape, P e) (hRows : P j.rows)
    (hNeutral : P j.neutral) : ∀ e ∈ x.exprs, P e := by
  have hRow : P j.row := hP.row (Stmt.each_loop.mp (hEach.of_mem hLoop)).1.1
  have hVars : ∀ xs : List String, ∀ e ∈ xs.map Expr.var, P e :=
    fun xs => List.forall_mem_map.mpr fun y _ => hP.var y
  have hExtents : ∀ e ∈ j.rows :: j.host.shape, P e := List.forall_mem_cons.mpr ⟨hRows, hShape⟩
  cases h with
  | old mem f => simpa using hEach _ mem
  | space => exact hExtents
  | block => exact fun e he => absurd he List.not_mem_nil
  | axis s body iter mem =>
    have hZero : P (.int 0) := hP.constant rfl (Expr.storable_int.mpr rfl)
    simpa [Stmt.exprs] using ⟨hZero, hExtents _ mem⟩
  | fill =>
    refine List.forall_mem_append.mpr ⟨List.forall_mem_cons.mpr ⟨hRow, hVars _⟩, ?_⟩
    simpa using hNeutral
  | moved mem reduction =>
    obtain ⟨hIndices, hValue⟩ := Stmt.each_store.mp ((hEach.of_mem hLoop).of_mem mem)
    have hCell := List.forall_mem_cons.mpr ⟨hRow, hIndices⟩
    have hRhs := hP.of_reduction? reduction hValue
    refine List.forall_mem_append.mpr ⟨hCell, ?_⟩
    simpa using hP.combine hCell hRhs
  | fold =>
    refine List.forall_mem_append.mpr ⟨hVars _, ?_⟩
    simpa using hP.combine (hVars _) (hP.load (List.forall_mem_cons.mpr ⟨hP.var _, hVars _⟩))

/-- **Parallel loops** have the heads of loops of the program. -/
theorem exists_loop {s : Site} {head : LoopHead} {body : Stmt} (h : j.Makes n t (.loop s head body))
    (hParallel : head.isParallel = true) : ∃ body', .loop s head body' ∈ t.nodes := by
  generalize hEq : Stmt.loop s head body = x at h
  cases h with
  | old mem f =>
    obtain ⟨body', rfl, -⟩ := Stmt.loop_of_mapChildren hEq.symm
    exact ⟨body', mem⟩
  | axis =>
    cases hEq
    cases hParallel
  | _ => cases hEq

/-- **Declarations** are those of the program, and that of the workspace. -/
theorem exists_decl {s : Site} {b : String} {buffer : Buffer} {body : Stmt}
    (h : j.Makes n t (.decl s b buffer body)) :
    (∃ body', .decl s b buffer body' ∈ t.nodes) ∨ b = n.space ∧ buffer.elem = j.host.elem := by
  generalize hEq : Stmt.decl s b buffer body = x at h
  cases h with
  | old mem f =>
    obtain ⟨body', rfl, -⟩ := Stmt.decl_of_mapChildren hEq.symm
    exact .inl ⟨body', mem⟩
  | space =>
    cases hEq
    exact .inr ⟨rfl, rfl⟩
  | _ => cases hEq

/-- **Reductions** are those of the program, and those of the operator into the workspace and the
    buffer. -/
theorem reduction {s : Site} {b : String} {is : List Expr} {v rhs : Expr} {op : ReduceOp}
    (h : j.Makes n t (.store s b is v)) (hNeutral : j.op.neutral? j.host.elem = some j.neutral)
    (hReduction : Expr.reduction? b is v = some (op, rhs)) :
    .store s b is v ∈ t.nodes ∨ (b = n.space ∨ b = j.buffer) ∧ op = j.op := by
  generalize hEq : Stmt.store s b is v = x at h
  cases h with
  | old mem f =>
    obtain rfl := Stmt.store_of_mapChildren hEq.symm
    exact .inl mem
  | fill =>
    cases hEq
    rcases ReduceOp.constant_of_neutral? hNeutral with ⟨v, hv⟩ | ⟨v, hv⟩ <;>
      · rw [hv] at hReduction
        cases hReduction
  | moved =>
    cases hEq
    exact .inr ⟨.inl rfl, ReduceOp.eq_of_reduction?_combine hReduction⟩
  | fold =>
    cases hEq
    exact .inr ⟨.inr rfl, ReduceOp.eq_of_reduction?_combine hReduction⟩
  | _ => cases hEq

end Job.Makes

/-! ## Lowering reductions -/

section lowering

variable {P : Expr → Prop} {s s' : State Draft} {p : Nat} {rest : List Nat}

/-- What is known of a program while its reductions are moved.

    * **sound**, **names**: its numbers and labels are different, and its names are in use;
    * **each**: its expressions are of a kind;
    * **rows**: so are the numbers of iterations of its parallel loops;
    * **starts**: the reductions of its parallel loops start from finite numbers. -/
structure Storing (P : Expr → Prop) (s : State Draft) : Prop where
  sound : s.piece.Sound
  names : ∀ x ∈ s.piece.tree.usedNames, x ∈ s.supply.used
  each : s.piece.tree.Each P
  rows : ∀ site head body, .loop site head body ∈ s.piece.tree.nodes → head.isParallel = true →
    P (head.upper.minus head.lower)
  starts : ∀ b op, s.piece.tree.Gathers b op → s.piece.tree.StartsFinite b op

/-- A workspace is the only new declaration, so that nothing changes for the names in use. -/
theorem startsFinite_withWorkspace {j : Job} {b : String} {op : ReduceOp}
    (hLoop : j.loop.stmt ∈ s.piece.tree.nodes) (hb : b ∈ s.supply.used)
    (h : s.piece.tree.StartsFinite b op) (k : Nat) (space : MemSpace) :
    (s.withWorkspace j k space).piece.tree.StartsFinite b op := by
  intro site buffer body hDecl
  rcases (Job.Makes.of_mem_update hLoop hDecl).exists_decl with ⟨body', hOld⟩ | ⟨rfl, -⟩
  · exact h site buffer body' hOld
  · exact absurd hb ((j.draws_names k s.supply).fresh _ List.mem_cons_self)

/-- The reductions of a workspace are those of the loop, and those of the job. -/
theorem reducesInto_stmt {j : Job} {n : JobNames} {space : MemSpace} {next : Nat} {b : String}
    {op : ReduceOp} (hNeutral : j.op.neutral? j.host.elem = some j.neutral)
    (h : (j.stmt n space next).1.ReducesInto b op) :
    j.loop.body.ReducesInto b op ∨ (b = n.space ∨ b = j.buffer) ∧ op = j.op := by
  obtain ⟨site, is, v, rhs, hStore, hReduction⟩ := h
  refine ((Job.Makes.of_mem_stmt hStore).reduction hNeutral hReduction).imp_left fun hOld => ?_
  exact ⟨site, is, v, rhs, by simpa [LabelledLoop.stmt] using hOld, hReduction⟩

/-- Parallel loops reduce as before, or into the workspace or its buffer by the operator of the job. -/
theorem gathers_withWorkspace {j : Job} {b : String} {op : ReduceOp}
    (hPlaced : Placed s.supply.used s.piece.next s.piece.tree j) (k : Nat) (space : MemSpace)
    (h : (s.withWorkspace j k space).piece.tree.Gathers b op) :
    s.piece.tree.Gathers b op ∨ (b = (j.names k s.supply).1.space ∨ b = j.buffer) ∧ op = j.op := by
  rcases Stmt.gathers_update h with hOld | hNew
  · exact .inl hOld
  · exact (reducesInto_stmt hPlaced.neutral hNew).imp_left
      fun hInto => ⟨_, _, _, hPlaced.loop, hPlaced.parallel, hInto⟩

/-- A workspace has the type of its buffer. -/
theorem startsFinite_space {j : Job} {op : ReduceOp} (h : Storing P s)
    (hLoop : j.loop.stmt ∈ s.piece.tree.nodes) (hFinite : op.startsFinite j.host.elem = true) (k : Nat)
    (space : MemSpace) :
    (s.withWorkspace j k space).piece.tree.StartsFinite (j.names k s.supply).1.space op := by
  intro site buffer body hSpace
  rcases (Job.Makes.of_mem_update hLoop hSpace).exists_decl with ⟨body', hOld⟩ | ⟨-, hElem⟩
  · have hDeclares : s.piece.tree.Declares (j.names k s.supply).1.space :=
      ⟨site, buffer, body', hOld⟩
    exact absurd (h.names _ hDeclares.mem_usedNames)
      ((j.draws_names k s.supply).fresh _ List.mem_cons_self)
  · rwa [hElem]

/-- **One workspace** keeps what is known. -/
theorem Storing.withWorkspace {j : Job} (h : Storing P s) (hP : Expr.Spreads P)
    (hPlaced : Placed s.supply.used s.piece.next s.piece.tree j)
    (hStarts : s.piece.tree.StartsFinite j.buffer j.op) (k : Nat) (space : MemSpace) :
    Storing P (s.withWorkspace j k space) := by
  have hn := j.draws_names k s.supply
  obtain ⟨site, body, hDecl, -⟩ := hPlaced.host
  have hFinite : j.op.startsFinite j.host.elem = true := hStarts site j.host body hDecl
  have hNeutral : P j.neutral := by
    refine hP.constant ?_ (ReduceOp.storable_neutral hPlaced.neutral hFinite)
    rcases ReduceOp.constant_of_neutral? hPlaced.neutral with ⟨v, hv⟩ | ⟨v, hv⟩ <;>
      · rw [hv]
        rfl
  have hRows : P j.rows := h.rows _ _ _ hPlaced.loop hPlaced.parallel
  refine ⟨sound_withWorkspace h.sound hPlaced.loop k space, fun x hx => ?_, fun x hx => ?_,
    fun site head body hLoop hParallel => ?_, fun b op hGathers => ?_⟩
  · rcases Stmt.mem_usedNames_update hx with hx | hx
    · exact (hn.used x).mpr (hPlaced.used_stmt (j.length_names k s.supply) space hx)
    · exact (hn.used x).mpr (.inr (h.names x hx))
  · exact (Job.Makes.of_mem_update hPlaced.loop hx).each hP h.each hPlaced.loop
      (Stmt.each_decl.mp (h.each.of_mem hDecl)).1 hRows hNeutral
  · obtain ⟨body', hOld⟩ := (Job.Makes.of_mem_update hPlaced.loop hLoop).exists_loop hParallel
    exact h.rows site head body' hOld hParallel
  · rcases gathers_withWorkspace hPlaced k space hGathers with hOld | ⟨rfl | rfl, rfl⟩
    · exact startsFinite_withWorkspace hPlaced.loop (h.names b hOld.mem_usedNames)
        (h.starts b op hOld) k space
    · exact startsFinite_space h hPlaced.loop hFinite k space
    · have hHost : s.piece.tree.Declares j.buffer := ⟨site, j.host, body, hDecl⟩
      exact startsFinite_withWorkspace hPlaced.loop (h.names _ hHost.mem_usedNames) hStarts k space

/-- **All workspaces of a loop** keep what is known: by induction on its reductions. -/
theorem storing_moveReductions (hP : Expr.Spreads P) (space : MemSpace) :
    ∀ (reductions : List (String × ReduceOp)) (seen : List String) (k : Nat) (s : State Draft),
      Storing P s → Pending s.piece.next (p :: rest) s.piece.tree →
      (∀ r ∈ reductions, r.1 ∈ s.supply.used ∧ s.piece.tree.StartsFinite r.1 r.2) →
        ∀ s', moveReductions space p seen k s reductions = .ok s' →
          Storing P s' ∧ Pending s'.piece.next (p :: rest) s'.piece.tree := by
  intro reductions
  induction reductions with
  | nil =>
    intro seen k s h hPending _ s' hEq
    cases hEq
    exact ⟨h, hPending⟩
  | cons r reductions ih =>
    intro seen k s h hPending hStarts s' hEq
    obtain ⟨b, op⟩ := r
    obtain ⟨⟨_, hFirst⟩, hOthers⟩ := List.forall_mem_cons.mp hStarts
    rw [moveReductions] at hEq
    split at hEq
    · exact ih seen k s h hPending hOthers s' hEq
    · cases hLoop : loopNumbered? s.piece p with
      | none =>
        rw [hLoop] at hEq
        cases hEq
        exact ⟨h, hPending⟩
      | some l =>
        rw [hLoop] at hEq
        dsimp only at hEq
        obtain ⟨j, hJob, hRun⟩ := Outcome.bind_eq_ok.mp hEq
        obtain ⟨rfl, rfl, rfl, hHost, hNeutral, _⟩ := Job.of_eq_ok hJob
        obtain ⟨hMem, rfl⟩ := Stmt.mem_of_find? (loopNumbered?_eq_some hLoop)
        obtain ⟨site, body, hDecl, hBelow⟩ := Stmt.exists_decl_of_bufferAt? _ h.sound.ids hHost
        have hPlaced : Placed s.supply.used s.piece.next s.piece.tree j :=
          ⟨⟨h.sound.ids, h.sound.old, h.names, hMem, ⟨site, body, hDecl, hBelow⟩, hNeutral⟩,
            hPending.parallel _ List.mem_cons_self j.loop.stmt hMem rfl⟩
        obtain ⟨hNext, hIds⟩ := j.ids_stmt (j.names k s.supply).1 space s.piece.next
        refine ih _ _ (s.withWorkspace j k space) (h.withWorkspace hP hPlaced hFirst k space) ?_ ?_
          s' hRun
        · exact hPending.update hNext (hPending.eq_of_mem_ids hMem rfl hIds)
            (hPlaced.parallel_stmt space)
        · intro r hr
          obtain ⟨hUsed, hFinite⟩ := hOthers r hr
          exact ⟨((j.draws_names k s.supply).used _).mpr (.inr hUsed),
            startsFinite_withWorkspace hMem hUsed hFinite k space⟩

/-- **One loop** is lowered. -/
theorem storing_lowerLoop (hP : Expr.Spreads P) (target : Target) (h : Storing P s)
    (hPending : Pending s.piece.next (p :: rest) s.piece.tree)
    (hEq : lowerLoop target true s p = .ok s') :
    Storing P s' ∧ Pending s'.piece.next rest s'.piece.tree := by
  unfold lowerLoop at hEq
  cases hLoop : loopNumbered? s.piece p with
  | none =>
    rw [hLoop] at hEq
    cases hEq
    exact ⟨h, hPending.tail⟩
  | some l =>
    rw [hLoop] at hEq
    dsimp only at hEq
    obtain ⟨hMem, rfl⟩ := Stmt.mem_of_find? (loopNumbered?_eq_some hLoop)
    cases hVerdict : l.stmt.parallelVerdict defaultLevels with
    | blocked d =>
      rw [hVerdict] at hEq
      cases hEq
    | safe rs =>
      rw [hVerdict] at hEq
      dsimp only at hEq
      rw [if_pos rfl] at hEq
      have hParallel := hPending.parallel _ List.mem_cons_self l.stmt hMem rfl
      have hStarts : ∀ r ∈ rs, r.1 ∈ s.supply.used ∧ s.piece.tree.StartsFinite r.1 r.2 := by
        intro r hr
        have hGathers : s.piece.tree.Gathers r.1 r.2 :=
          ⟨_, _, _, hMem, hParallel, reducesInto_body_of_verdict hVerdict r hr⟩
        exact ⟨h.names _ hGathers.mem_usedNames, h.starts _ _ hGathers⟩
      obtain ⟨hStoring, hNow⟩ :=
        storing_moveReductions hP target.space rs [] 0 s h hPending hStarts s' hEq
      exact ⟨hStoring, hNow.tail⟩

/-- **All loops** are lowered: by induction on the loops that are still to come. -/
theorem storing_foldlM_lowerLoop (hP : Expr.Spreads P) (target : Target) :
    ∀ (rest : List Nat) (s s' : State Draft), Storing P s →
      Pending s.piece.next rest s.piece.tree →
      rest.foldlM (lowerLoop target true) s = .ok s' → Storing P s' := by
  intro rest
  induction rest with
  | nil =>
    intro s s' h _ hEq
    cases hEq
    exact h
  | cons p rest ih =>
    intro s s' h hPending hEq
    rw [List.foldlM_cons] at hEq
    obtain ⟨next, hFirst, hEq⟩ := Outcome.bind_eq_ok.mp hEq
    obtain ⟨hNow, hRest⟩ := storing_lowerLoop hP target h hPending hFirst
    exact ih next s' hNow hRest hEq

end lowering

/-- Loops that are only checked stay. -/
theorem lowerReductions_checked {target : Target} {d d' : Draft} {n : Nat}
    (h : lowerReductions target false d = .ok (d', n)) : d' = d := by
  obtain ⟨s, hFold, hEq⟩ := Outcome.bind_eq_ok.mp h
  cases hEq
  refine Outcome.of_foldlM (P := fun s : State Draft => s.piece = d) (fun s p s' hs hStep => ?_)
    _ _ s rfl hFold
  unfold lowerLoop at hStep
  split at hStep
  · cases hStep
    exact hs
  · split at hStep
    · cases hStep
    · cases hStep
      exact hs

/-! ## Lowering -/

/-- The program in which calls have been expanded, if they are. -/
def opened (registry : Registry) (steps : Steps) (t : Stmt) : Except Rejection Draft :=
  if steps.expand then (·.1) <$> answering .inline (Restructure.expandAll registry (Draft.of t))
  else .ok (Draft.of t)

/-- What is done after that. -/
def finished (target : Target) (steps : Steps) (d : Draft) : Except Rejection Stmt := do
  answering .lower (d.tree.loops.forM (checkTag target))
  let (d, _) ← answering .lower (lowerReductions target steps.workspaces d)
  let t := if steps.simplify then d.tree.simplify d.next else d.tree
  match t.commit with
  | .ok t => return t
  | .error e => .error ⟨.duplicateLabel e.message, .lower⟩

/-- Lowering makes no infinite number of a program whose calls are expanded.

    * **starts**: when reductions are moved, those of parallel loops start from finite numbers;
    * **folds**, **rows**: when the program is simplified, folding its expressions, and the numbers of
      iterations of its parallel loops, gives finite numbers. -/
structure StaysFinite (steps : Steps) (t : Stmt) : Prop where
  starts : steps.workspaces = true → ∀ b op, t.Gathers b op → t.StartsFinite b op
  folds : steps.simplify = true → t.Each Expr.FoldsFinitely
  rows : steps.workspaces = true → steps.simplify = true → ∀ s h body, .loop s h body ∈ t.nodes →
    h.isParallel = true → (h.upper.minus h.lower).FoldsFinitely

section lower

variable {target : Target} {registry : Registry} {steps : Steps} {t t' : Stmt}

/-- Lowering goes on with the program in which calls have been expanded. -/
theorem lower_eq (target : Target) (registry : Registry) (steps : Steps) (t : Stmt) :
    lower target registry steps t = opened registry steps t >>= finished target steps := by
  unfold lower opened
  cases hExpand : steps.expand <;> rfl

/-- What lowering does, step by step. -/
theorem lower_cases (h : lower target registry steps t = .ok t') :
    ∃ d d' n, opened registry steps t = .ok d
      ∧ lowerReductions target steps.workspaces d = .ok (d', n)
      ∧ t' = (if steps.simplify then d'.tree.simplify d'.next else d'.tree).number := by
  rw [lower_eq] at h
  obtain ⟨d, hd, hRest⟩ := Outcome.bind_eq_ok.mp h
  obtain ⟨⟨⟩, _, hRest⟩ := Outcome.bind_eq_ok.mp hRest
  obtain ⟨⟨d', n⟩, hReductions, hRest⟩ := Outcome.bind_eq_ok.mp hRest
  dsimp only at hRest
  split at hRest
  · rename_i hCommit
    cases hRest
    exact ⟨d, d', n, hd, Schedule.answering_eq_ok.mp hReductions, (Stmt.commit_eq_ok.mp hCommit).2⟩
  · cases hRest

/-- Expanded calls keep numbers and labels different, and leave expressions that can be stored. -/
theorem storable_opened {d : Draft} (hTree : t.Storable)
    (hFunctions : ∀ f ∈ registry.functions, f.Storable) (h : opened registry steps t = .ok d) :
    d.Sound ∧ d.tree.Each Expr.Storable := by
  have hEach : t.Each Expr.Storable := fun u hu e he =>
    hTree.exprs e (List.mem_flatMap.mpr ⟨u, hu, he⟩)
  unfold opened at h
  split at h
  · obtain ⟨⟨d', n⟩, hExpand, rfl⟩ := Outcome.map_eq_ok.mp h
    have hExpand := Schedule.answering_eq_ok.mp hExpand
    refine ⟨Restructure.sound_expandAll hTree.committed.sound hExpand,
      Restructure.each_expandAll (fun f hf u hu e he => ?_) (d := Draft.of t) hEach hExpand⟩
    exact (hFunctions f hf).body.exprs e (List.mem_flatMap.mpr ⟨u, hu, he⟩)
  · cases h
    exact ⟨hTree.committed.sound, hEach⟩

/-- **Moved reductions** leave all expressions of their kind, if reductions are moved at all. -/
theorem each_lowerReductions {P : Expr → Prop} {d d' : Draft} {n : Nat} (hP : Expr.Spreads P)
    (hSound : d.Sound) (hEach : d.tree.Each P)
    (hRows : steps.workspaces = true → ∀ s h body, .loop s h body ∈ d.tree.nodes →
      h.isParallel = true → P (h.upper.minus h.lower))
    (hStarts : steps.workspaces = true → ∀ b op, d.tree.Gathers b op → d.tree.StartsFinite b op)
    (h : lowerReductions target steps.workspaces d = .ok (d', n)) : d'.tree.Each P := by
  cases hMove : steps.workspaces with
  | false =>
    rw [hMove] at h
    rw [lowerReductions_checked h]
    exact hEach
  | true =>
    rw [hMove] at h
    obtain ⟨s, hFold, hEq⟩ := Outcome.bind_eq_ok.mp h
    cases hEq
    have hStart : Storing P (⟨d, ⟨d.tree.usedNames⟩, 0⟩ : State Draft) :=
      ⟨hSound, fun _ hx => hx, hEach, hRows hMove, hStarts hMove⟩
    exact (storing_foldlM_lowerLoop hP target _ _ s hStart (.start hSound.ids hSound.old) hFold).each

/-- **Finite constants**: take a program and functions that a file can hold. When lowering makes no
    infinite number of the program with its calls expanded and it is lowered, the result has finite
    constants only, and read back from its file it is the same program. -/
theorem constants_of_lower (hTree : t.Storable) (hFunctions : ∀ f ∈ registry.functions, f.Storable)
    (hFinite : ∀ d, opened registry steps t = .ok d → StaysFinite steps d.tree)
    (h : lower target registry steps t = .ok t') :
    (∀ u ∈ t'.nodes, ∀ e ∈ u.exprs, ∀ x, .float x ∈ e.parts → x.isFinite = true)
      ∧ (t'.size ≤ places → ∀ s, Stmt.ofJson? s t'.toJson = some t') := by
  obtain ⟨d, d', n, hOpened, hReductions, hResult⟩ := lower_cases h
  obtain ⟨hSound, hEach⟩ := storable_opened hTree hFunctions hOpened
  obtain ⟨hStarts, hFolds, hRows⟩ := hFinite d hOpened
  have hExtents : ∀ s head body, .loop s head body ∈ d.tree.nodes →
      (head.upper.minus head.lower).Storable := fun s head body hLoop =>
    have hBounds := (Stmt.each_loop.mp (hEach.of_mem hLoop)).1
    hBounds.2.minus hBounds.1
  have hStorable : t'.Each Expr.Storable := by
    rw [hResult]
    cases hSimplify : steps.simplify with
    | false =>
      refine Stmt.Each.number ?_
      exact each_lowerReductions Expr.spreads_storable hSound hEach
        (fun _ s head body hLoop _ => hExtents s head body hLoop) hStarts hReductions
    | true =>
      have hEnduring : d.tree.Each Expr.Enduring := fun u hu e he =>
        ⟨hEach u hu e he, hFolds hSimplify u hu e he⟩
      have hLowered : d'.tree.Each Expr.Enduring := each_lowerReductions Expr.spreads_enduring hSound
        hEnduring (fun hMove s head body hLoop hParallel =>
          ⟨hExtents s head body hLoop, hRows hMove hSimplify s head body hLoop hParallel⟩)
        hStarts hReductions
      exact ((hLowered.enduring_simplify d'.next).imp fun e he => he.storable).number
  refine ⟨fun u hu e he x hx => hStorable u hu e he _ hx, fun hSize s => Stmt.ofJson?_toJson s ?_⟩
  refine ⟨committed_of_lower h, hSize, fun e he => ?_⟩
  obtain ⟨u, hu, he⟩ := List.mem_flatMap.mp he
  exact hStorable u hu e he

end lower

/-- A function that stores the sum of two constants. -/
def adding (x y : Float) : Function where
  name := "add"
  params := []
  body := .store ⟨0, none⟩ "z" [] (.add (.float x) (.float y))

/-- A parallel loop that finds the least of four values of a type, and something else. -/
def leastBefore (elem : ElemType) (after : Stmt) : Stmt :=
  .decl ⟨0, none⟩ "y" ⟨[.int 1], elem, .inout, .cpu⟩
    (.block ⟨1, none⟩ [
      .loop ⟨2, some "L"⟩ (parallelHead "i" 4)
        (.store ⟨3, none⟩ "y" [.int 0] (.binary .min (.load "y" [.int 0]) (.load "x" [.var "i"]))),
      after])

theorem exprs_leastBefore (elem : ElemType) (after : Stmt) :
    (leastBefore elem after).nodes.flatMap Stmt.exprs = [.int 1, .int 0, .int 4, .int 0,
      .binary .min (.load "y" [.int 0]) (.load "x" [.var "i"])] ++ after.nodes.flatMap Stmt.exprs := by
  simp [leastBefore, Stmt.exprs, parallelHead]

/-- The least of four integers, before a call. -/
def leastAndSum : Stmt := leastBefore .int32 (.call ⟨4, none⟩ "add" [])

theorem storable_leastAndSum : leastAndSum.Storable := by
  refine ⟨⟨rfl, by decide⟩, by decide, ?_⟩
  rw [leastAndSum, exprs_leastBefore]
  simp [Stmt.exprs, Stmt.argValues, Expr.storable_int, Expr.storable_binary, Expr.storable_load,
    Expr.storable_var]
  decide

theorem storable_adding {x y : Float} (hx : x.isFinite = true) (hy : y.isFinite = true) :
    (adding x y).Storable := by
  refine ⟨fun p hp => absurd hp List.not_mem_nil, ⟨rfl, .nil⟩, ?_, fun e he => ?_⟩
  · show 1 ≤ places
    decide
  · obtain rfl : e = .add (.float x) (.float y) := by simpa [adding, Stmt.exprs] using he
    exact Expr.storable_binary.mpr ⟨Expr.storable_float.mpr hx, Expr.storable_float.mpr hy⟩

/-- Minima of integers start from the greatest one, and the sum of the constants is finite. -/
theorem staysFinite_leastAndSum : StaysFinite {}
    (leastBefore .int32 (.store ⟨5, none⟩ "z" [] (.add (.float 1.5) (.float 2.5)))) where
  starts _ b op _ site buffer body hDecl := by
    have hElem : buffer.elem = .int32 := by
      simp [leastBefore] at hDecl
      rw [hDecl.2.2.1]
    rw [hElem]
    rfl
  folds _ u hu e he := by
    have hEach : ∀ e ∈ (leastBefore .int32 (.store ⟨5, none⟩ "z" []
        (.add (.float 1.5) (.float 2.5)))).nodes.flatMap Stmt.exprs, e.FoldsFinitely := by
      decide +kernel
    exact hEach e (List.mem_flatMap.mpr ⟨u, hu, he⟩)
  rows _ _ s h body hLoop _ := by
    have hHead : h = parallelHead "i" 4 := by
      simp [leastBefore] at hLoop
      exact hLoop.2.1
    rw [hHead]
    decide

/-- Its minima go to a workspace, and the sum of the constants is folded. -/
theorem leastAndSum_constants : ∃ t', lower .cpu ⟨[adding 1.5 2.5]⟩ {} leastAndSum = .ok t'
    ∧ (∀ u ∈ t'.nodes, ∀ e ∈ u.exprs, ∀ x, .float x ∈ e.parts → x.isFinite = true)
    ∧ ∀ s, Stmt.ofJson? s t'.toJson = some t' := by
  obtain ⟨t', hLower, hSize⟩ : ∃ t', lower .cpu ⟨[adding 1.5 2.5]⟩ {} leastAndSum = .ok t'
      ∧ t'.size ≤ places := ⟨_, rfl, by decide +kernel⟩
  have hFunctions : ∀ f ∈ (⟨[adding 1.5 2.5]⟩ : Registry).functions, f.Storable :=
    List.forall_mem_singleton.mpr (storable_adding (by decide +kernel) (by decide +kernel))
  obtain ⟨hConstants, hRead⟩ := constants_of_lower storable_leastAndSum hFunctions
    (fun d hd => by cases hd; exact staysFinite_leastAndSum) hLower
  exact ⟨t', hLower, hConstants, hRead hSize⟩

/-- A number added to itself. -/
def doubled (x : Float) : Stmt := .store ⟨0, none⟩ "y" [] (.add (.float x) (.float x))

/-- Folding does not look at the sum, and what is written for an infinite one is not read back. -/
theorem doubled_not_read_back : (doubled 1e308).Storable
    ∧ ∃ t', lower .cpu {} {} (doubled 1e308) = .ok t'
      ∧ (∃ u ∈ t'.nodes, ∃ e ∈ u.exprs, ∃ x, .float x ∈ e.parts ∧ x.isFinite = false)
      ∧ ∀ s, Stmt.ofJson? s t'.toJson ≠ some t' := by
  have hInfinite : (1e308 + 1e308 : Float).isFinite = false := by decide +kernel
  refine ⟨⟨⟨rfl, .nil⟩, by decide +kernel, fun e he => ?_⟩,
    .store ⟨0, none⟩ "y" [] (.float (1e308 + 1e308)), rfl, ?_, fun s hRead => ?_⟩
  · obtain rfl : e = .add (.float 1e308) (.float 1e308) := by simpa [doubled, Stmt.exprs] using he
    have hBig : (Expr.float 1e308).Storable := Expr.storable_float.mpr (by decide +kernel)
    exact Expr.storable_binary.mpr ⟨hBig, hBig⟩
  · exact ⟨_, Stmt.self_mem_nodes _, .float (1e308 + 1e308), by simp [Stmt.exprs], _,
      Expr.self_mem_parts _, hInfinite⟩
  · have hFinite := (Stmt.gives_ofJson? s _ _ hRead).exprs (.float (1e308 + 1e308)) (by simp [Stmt.exprs])
    rw [Expr.storable_float, hInfinite] at hFinite
    cases hFinite

/-- Minima of floating point numbers start from infinity. -/
theorem least_starts_infinite : ∃ t',
    lower .cpu {} {} (leastBefore .float32 (.block ⟨4, none⟩ [])) = .ok t'
    ∧ ∃ u ∈ t'.nodes, ∃ e ∈ u.exprs, ∃ x, .float x ∈ e.parts ∧ x.isFinite = false := by
  refine ⟨.decl ⟨0, none⟩ "y" ⟨[.int 1], .float32, .inout, .cpu⟩
    (.decl ⟨1, none⟩ "__reduce_L_0" ⟨[.int 4, .int 1], .float32, .cache, .cpu⟩
      (.block ⟨2, none⟩ [
        .loop ⟨3, some "L"⟩ (parallelHead "i" 4) (.block ⟨4, none⟩ [
          .store ⟨5, none⟩ "__reduce_L_0" [.var "i", .int 0] (.float (1.0 / 0.0)),
          .store ⟨6, none⟩ "__reduce_L_0" [.var "i", .int 0]
            (.binary .min (.load "__reduce_L_0" [.var "i", .int 0]) (.load "x" [.var "i"]))]),
        .loop ⟨7, none⟩ { iter := "i.1", lower := .int 0, upper := .int 4 }
          (.store ⟨8, none⟩ "y" [.int 0]
            (.binary .min (.load "y" [.int 0]) (.load "__reduce_L_0" [.var "i.1", .int 0])))])), rfl,
    .store ⟨5, none⟩ "__reduce_L_0" [.var "i", .int 0] (.float (1.0 / 0.0)), by simp,
    .float (1.0 / 0.0), by simp [Stmt.exprs], _, Expr.self_mem_parts _, by decide +kernel⟩

end Lower

end LoopNest

import Mathlib.Logic.Relation
import LoopNest.Proofs.LoweredAgain
import LoopNest.Proofs.ScopedCommands

/-! # Steps that introduce no capture

  A program that is cleanly named stays so, whatever is done to it: by any number of commands that
  expand no call, of lowerings and of simplifications, in any order.

  * **Workspaces**: the nests of a workspace (`Lower.scoped_fillNest`), the stores that are sent to it
    (`Lower.scoped_redirect`) and the workspace as a whole (`Lower.Job.scoped_stmt`), which stands
    below the declaration of its buffer, so that the declared shape means the same there.
  * **Lowering**: one workspace more (`Lower.Hygienic.withWorkspace`), and from it all of them
    (`Lower.cleanlyNamed_lowerReductions`).
  * **All steps**: `Restructure.Step` is one of them; `Restructure.cleanlyNamed_of_steps` is about any
    run of steps. -/

namespace LoopNest

variable {bound around : List Symbol}

/-! ## Workspaces -/

namespace Lower

open Restructure (Draft)
open Stmt (LabelledLoop)

/-- Names as the scalars that they name. -/
def scalarsOf (names : List String) : List Symbol := names.map .scalar

@[simp] theorem mem_scalarsOf {names : List String} {x : Symbol} :
    x ∈ scalarsOf names ↔ ∃ n ∈ names, .scalar n = x := List.mem_map

/-- A nest over a shape is scoped when its iterators are new and different. -/
theorem scoped_fillNest {next : Nat} {b : String} {is : List Expr} {v : Expr}
    {axes : List (String × Expr)} (hIters : (axes.map Prod.fst).Nodup)
    (hApart : ∀ x ∈ axes.map Prod.fst, .scalar x ∉ around)
    (hExtents : ∀ axis ∈ axes, axis.2.Scoped bound around)
    (hStore : (Stmt.store ⟨next, none⟩ b is v).Scoped bound
      (scalarsOf (axes.map Prod.fst) ++ around)) :
    (fillNest next axes b is v).1.Scoped bound around := by
  induction axes generalizing around with
  | nil => exact hStore
  | cons axis axes ih =>
    obtain ⟨hIter, hRest⟩ := List.nodup_cons.mp hIters
    obtain ⟨hHere, hOthers⟩ := List.forall_mem_cons.mp hApart
    obtain ⟨hExtent, hExtents⟩ := List.forall_mem_cons.mp hExtents
    refine Stmt.scoped_loop.mpr ⟨Expr.scoped_int 0, hExtent, hHere, ih hRest (fun x hx => ?_)
      (fun axis' h' => (hExtents axis' h').mono (List.subset_cons_self _ _) fun _ _ hx => hx) ?_⟩
    · rw [List.mem_cons, not_or]
      refine ⟨fun hEq => hIter ?_, hOthers x hx⟩
      cases hEq
      exact hx
    · have hPerm : (scalarsOf ((axis :: axes).map Prod.fst) ++ around).Perm
          (scalarsOf (axes.map Prod.fst) ++ .scalar axis.1 :: around) := List.perm_middle.symm
      exact hStore.of_around hPerm.subset hPerm.symm.subset

/-- What is reduced into a cell is made of the names in the value that is stored there. -/
theorem madeOf_of_reduction? {b : String} {is : List Expr} {v rhs : Expr} {op : ReduceOp}
    (h : Expr.reduction? b is v = some (op, rhs)) : rhs.MadeOf [v] := by
  have hParts := (Expr.of_reduction? h).2.1
  constructor
  · intro x hx
    exact ⟨v, List.mem_singleton_self v, Expr.mem_scalars.mpr (hParts _ (Expr.mem_scalars.mp hx))⟩
  · intro b' hb
    obtain ⟨js, hPart⟩ := Expr.mem_buffers.mp hb
    exact ⟨v, List.mem_singleton_self v, Expr.mem_buffers.mpr ⟨js, hParts _ hPart⟩⟩

/-- Stores may be sent to a workspace where it and the row are in scope. -/
theorem scoped_redirect {y ws : String} {op : ReduceOp} {row : Expr} {t : Stmt}
    (h : t.Scoped bound around) :
    ∀ {around' : List Symbol}, around ⊆ around' → (∀ x ∈ t.binders, x ∉ around') →
      .buffer ws ∈ around' → row.Scoped bound around' →
        (redirect y ws op row t).Scoped bound around' := by
  induction h with
  | @intro around t uses apart inner ih =>
    intro around' hAround hApart hSpace hRow
    have hHere : t.Scoped bound around' :=
      (Stmt.Scoped.intro uses apart inner).mono hAround (fun _ _ hx => hx) hApart
    -- every other statement is kept with redirected statements below it
    have hKept : (t.mapChildren (redirect y ws op row)).Scoped bound around' := by
      refine .intro (fun x hx => hHere.uses x (by simpa using hx))
        (fun x hx => hHere.apart x (by simpa using hx)) fun u hu => ?_
      rw [Stmt.children_mapChildren] at hu
      obtain ⟨w, hw, rfl⟩ := List.mem_map.mp hu
      rw [Stmt.binder?_mapChildren]
      refine ih w hw (List.append_subset.mpr ⟨List.subset_append_left _ _,
        fun x hx => List.mem_append_right _ (hAround hx)⟩) ((hHere.inner w hw).not_mem_around)
        (List.mem_append_right _ hSpace)
        (hRow.mono (List.subset_append_right _ _) fun _ _ hx => hx)
    by_cases hStore : ∃ s is v, t = .store s y is v
    · obtain ⟨s, is, v, rfl⟩ := hStore
      cases hReduction : Expr.reduction? y is v with
      | none =>
        have hSame : redirect y ws op row (.store s y is v) = .store s y is v := by
          rw [redirect_store, redirectStore, if_pos (beq_self_eq_true y), hReduction]
        rw [hSame]
        exact hHere
      | some r =>
        obtain ⟨_, hCells, hValue⟩ := Stmt.scoped_store.mp hHere
        obtain ⟨op', rhs⟩ := r
        have hRhs : rhs.Scoped bound around' := (madeOf_of_reduction? hReduction).scoped fun d hd =>
          List.mem_singleton.mp hd ▸ hValue
        have hRows : ∀ e ∈ row :: is, e.Scoped bound around' := List.forall_mem_cons.mpr ⟨hRow, hCells⟩
        rw [redirect_reduction ws row hReduction]
        exact Stmt.scoped_store.mpr ⟨fun _ => hSpace, hRows,
          Expr.scoped_binary (Expr.scoped_load hSpace hRows) hRhs⟩
    · rw [redirect_eq_mapChildren fun s is v hEq => hStore ⟨s, is, v, hEq⟩]
      exact hKept

section job

variable {j : Job} {n : JobNames}

/-- Iterators in a scope that holds them all. -/
theorem scoped_cells {names : List String} (h : scalarsOf names ⊆ around) :
    ∀ e ∈ names.map Expr.var, e.Scoped bound around := by
  intro e he
  obtain ⟨x, hx, rfl⟩ := List.mem_map.mp he
  exact Expr.scoped_var (h (mem_scalarsOf.mpr ⟨x, hx, rfl⟩))

/-- **Workspaces**: a loop with its workspace is scoped where the loop was and where the shape of the
    buffer is, when its names are different and new. -/
theorem Job.scoped_stmt (hLoop : j.loop.stmt.Scoped bound around)
    (hShape : ∀ e ∈ j.host.shape, e.Scoped bound around) (hBuffer : .buffer j.buffer ∈ around)
    (hNeutral : j.neutral.Scoped bound [])
    (hLength : n.fillIters.length = j.host.shape.length ∧ n.foldIters.length = j.host.shape.length)
    (hNodup : n.all.Nodup) (hAround : ∀ x ∈ around, x.name ∉ n.all)
    (hBinders : ∀ x ∈ j.loop.stmt.binders, x.name ∉ n.all) (space : MemSpace) (next : Nat) :
    (j.stmt n space next).1.Scoped bound around := by
  obtain ⟨hLower, hUpper, hIter, hBody⟩ := Stmt.scoped_loop.mp hLoop
  obtain ⟨hSpaceNew, hNodup⟩ := List.nodup_cons.mp hNodup
  obtain ⟨hFillNodup, hNodup, hFillNew⟩ := List.nodup_append.mp hNodup
  obtain ⟨hRowNew, hFoldNodup⟩ := List.nodup_cons.mp hNodup
  have hWider : ∀ {e : Expr} (xs : List Symbol), e.Scoped bound around →
      e.Scoped bound (xs ++ around) := fun xs he =>
    he.mono (List.subset_append_right xs _) fun _ _ hx => hx
  -- the names of the workspace are not bound around it
  have hFree : ∀ {x : Symbol}, x.name ∈ n.all → x ∉ around := fun hx hMem => hAround _ hMem hx
  have hIterName : j.loop.head.iter ∉ n.all :=
    hBinders (.scalar j.loop.head.iter) (by simp [LabelledLoop.stmt])
  have hRows : j.rows.Scoped bound around := by
    have hMade : j.rows.MadeOf [j.loop.head.upper, j.loop.head.lower] :=
      .minus (.of_mem (by simp)) (.of_mem (by simp))
    refine hMade.scoped fun e he => ?_
    rcases List.mem_cons.mp he with rfl | he
    · exact hUpper
    · rw [List.mem_singleton.mp he]
      exact hLower
  have hFilling : (j.filling n next).Scoped bound (.buffer n.space :: around) := by
    let inLoop : List Symbol := [.scalar j.loop.head.iter, .buffer n.space]
    have hRow : j.row.Scoped bound (inLoop ++ around) := by
      have hMade : j.row.MadeOf [.var j.loop.head.iter, j.loop.head.lower] :=
        .minus (.of_mem (by simp)) (.of_mem (by simp))
      refine hMade.scoped fun e he => ?_
      rcases List.mem_cons.mp he with rfl | he
      · exact Expr.scoped_var (by simp [inLoop])
      · rw [List.mem_singleton.mp he]
        exact hWider inLoop hLower
    have hAxes : (n.fillIters.zip j.host.shape).map Prod.fst = n.fillIters :=
      List.map_fst_zip (Nat.le_of_eq hLength.1)
    have hFill : (j.fill n next).1.Scoped bound (inLoop ++ around) := by
      refine scoped_fillNest (hAxes.symm ▸ hFillNodup) (fun x hx hMem => ?_)
        (fun axis hAxis => hWider inLoop (hShape _ (List.of_mem_zip hAxis).2)) ?_
      · rw [hAxes] at hx
        have hName : x ∈ n.all := by simp [JobNames.all, hx]
        rcases List.mem_append.mp hMem with hMem | hMem
        · have hEq : x = j.loop.head.iter := by simpa [inLoop] using hMem
          exact hIterName (hEq ▸ hName)
        · exact hAround _ hMem hName
      · rw [hAxes]
        have hIn : ∀ {e : Expr}, e.Scoped bound (inLoop ++ around) →
            e.Scoped bound (scalarsOf n.fillIters ++ (inLoop ++ around)) := fun he =>
          he.mono (List.subset_append_right _ _) fun _ _ hx => hx
        refine Stmt.scoped_store.mpr ⟨fun _ => by simp [inLoop], List.forall_mem_cons.mpr
          ⟨hIn hRow, scoped_cells (List.subset_append_left _ _)⟩, ?_⟩
        exact hNeutral.mono (List.nil_subset _) fun _ _ hx => hx
    have hMoved : (j.moved n).Scoped bound (inLoop ++ around) := by
      refine scoped_redirect hBody (fun x hx => ?_) (fun x hx hMem => ?_) (by simp [inLoop]) hRow
      · rcases List.mem_cons.mp hx with rfl | hx
        · exact List.mem_cons_self
        · exact List.mem_append_right inLoop hx
      · rcases List.mem_cons.mp hMem with rfl | hMem
        · exact hBody.not_mem_around _ hx List.mem_cons_self
        · rcases List.mem_cons.mp hMem with rfl | hMem
          · exact hBinders (.buffer n.space) (by simp [LabelledLoop.stmt, hx]) List.mem_cons_self
          · exact hBody.not_mem_around x hx (List.mem_cons_of_mem _ hMem)
    refine Stmt.scoped_loop.mpr ⟨hWider [_] hLower, hWider [_] hUpper, by simpa using hIter,
      Stmt.scoped_block.mpr fun u hu => ?_⟩
    rcases List.mem_cons.mp hu with rfl | hu
    · exact hFill
    · rw [List.mem_singleton.mp hu]
      exact hMoved
  have hCombining : (j.combining n ((j.fill n next).2 + 1)).Scoped bound
      (.buffer n.space :: around) := by
    let inLoop : List Symbol := [.scalar n.rowIter, .buffer n.space]
    have hAxes : (n.foldIters.zip j.host.shape).map Prod.fst = n.foldIters :=
      List.map_fst_zip (Nat.le_of_eq hLength.2)
    have hFold : (j.fold n ((j.fill n next).2 + 1)).1.Scoped bound (inLoop ++ around) := by
      refine scoped_fillNest (hAxes.symm ▸ hFoldNodup) (fun x hx hMem => ?_)
        (fun axis hAxis => hWider inLoop (hShape _ (List.of_mem_zip hAxis).2)) ?_
      · rw [hAxes] at hx
        rcases List.mem_append.mp hMem with hMem | hMem
        · have hEq : x = n.rowIter := by simpa [inLoop] using hMem
          exact hRowNew (hEq ▸ hx)
        · exact hAround _ hMem (by simp [JobNames.all, Symbol.name, hx])
      · rw [hAxes]
        have hCells : ∀ e ∈ n.foldIters.map Expr.var,
            e.Scoped bound (scalarsOf n.foldIters ++ (inLoop ++ around)) :=
          scoped_cells (List.subset_append_left _ _)
        refine Stmt.scoped_store.mpr ⟨fun _ => by simp [hBuffer], hCells,
          Expr.scoped_binary (Expr.scoped_load (by simp [hBuffer]) hCells)
            (Expr.scoped_load (by simp [inLoop]) (List.forall_mem_cons.mpr ⟨?_, hCells⟩))⟩
        exact Expr.scoped_var (by simp [inLoop])
    refine Stmt.scoped_loop.mpr ⟨Expr.scoped_int 0, hWider [_] hRows, ?_, hFold⟩
    rw [List.mem_cons, not_or]
    exact ⟨by simp, hFree (by simp [JobNames.all, Symbol.name])⟩
  rw [Job.stmt_eq]
  refine Stmt.scoped_decl.mpr ⟨List.forall_mem_cons.mpr ⟨hRows, hShape⟩, hFree List.mem_cons_self,
    Stmt.scoped_block.mpr fun u hu => ?_⟩
  rcases List.mem_cons.mp hu with rfl | hu
  · exact hFilling
  · rw [List.mem_singleton.mp hu]
    exact hCombining

end job

/-! ## Lowering -/

/-- A cleanly named program that is being lowered.

    * **ids**, **old**: its statements have different numbers, and these were used before;
    * **names**: its names are in use;
    * **named**: it is cleanly named. -/
structure Hygienic (s : State Draft) : Prop where
  ids : s.piece.tree.ids.Nodup
  old : ∀ i ∈ s.piece.tree.ids, i < s.piece.next
  names : ∀ x ∈ s.piece.tree.usedNames, x ∈ s.supply.used
  named : s.piece.tree.CleanlyNamed

variable {s s' : State Draft}

/-- **One workspace** more. -/
theorem Hygienic.withWorkspace {j : Job} (h : Hygienic s)
    (hHosted : Hosted s.supply.used s.piece.next s.piece.tree j) (k : Nat) (space : MemSpace) :
    Hygienic (s.withWorkspace j k space) := by
  have hn := j.draws_names k s.supply
  have hLength := j.length_names k s.supply
  obtain ⟨hNext, hIds⟩ := j.ids_stmt (j.names k s.supply).1 space s.piece.next
  obtain ⟨hNodup, hOld⟩ := Job.nodup_ids_stmt (Stmt.nodup_ids_of_mem h.ids hHosted.loop)
    (fun i hi => h.old i (Stmt.ids_subset hHosted.loop hi)) (j.names k s.supply).1 space
  have hUsed : ∀ x ∈ (j.names k s.supply).1.all, x ∉ s.piece.tree.usedNames :=
    fun x hx hMem => hn.fresh x hx (h.names x hMem)
  obtain ⟨site, body, hDecl, hBelow⟩ := hHosted.loop_below
  refine ⟨Stmt.nodup_ids_update h.ids h.old hHosted.loop hNodup hIds, fun i hi => ?_, fun x hx => ?_,
    h.named.update h.ids hHosted.loop (fun x hx => ?_) fun around hAround hHeeded hScoped => ?_⟩
  · rcases Stmt.mem_ids_update hi with hi | hi
    · exact hOld i hi
    · exact Nat.lt_of_lt_of_le (h.old i hi) hNext
  · rcases Stmt.mem_usedNames_update hx with hx | hx
    · exact (hn.used x).mpr (hHosted.used_stmt hLength space hx)
    · exact (hn.used x).mpr (.inr (h.names x hx))
  · -- what a workspace binds was bound by the loop, or has a new name
    have hNew : x ∈ j.loop.stmt.binders ∨ x.name ∉ s.supply.used := by
      cases x with
      | scalar x =>
        exact (Placed.binds_stmt hn hLength (Stmt.scalar_mem_binders.mp hx)).imp_left
          Stmt.scalar_mem_binders.mpr
      | buffer b =>
        exact (Placed.declares_stmt hn (Stmt.buffer_mem_binders.mp hx)).imp_left
          Stmt.buffer_mem_binders.mpr
    exact hNew.imp_right fun hFresh hMem => hFresh (h.names _ (Stmt.name_mem_usedNames hMem))
  · -- the shape of the buffer means the same at the loop
    obtain ⟨hShape, hBuffer⟩ := hHeeded _ hDecl (by simpa [Stmt.inside, Stmt.children] using hBelow)
    have hNeutral : ∀ x, x ∉ j.neutral.symbols := by
      intro x hx
      rcases ReduceOp.constant_of_neutral? hHosted.neutral with ⟨v, hEq⟩ | ⟨v, hEq⟩ <;>
        · rw [hEq] at hx
          cases hx
    refine Job.scoped_stmt hScoped (fun e he x hx => hShape x ?_) (hBuffer _ rfl)
      (fun x hx => absurd hx (hNeutral x)) hLength hn.nodup (fun x hx hMem => ?_)
      (fun x hx hMem => ?_) space s.piece.next
    · exact List.mem_flatMap.mpr ⟨e, he, hx⟩
    · exact hUsed _ hMem (Stmt.name_mem_usedNames_of_binders (hAround hx))
    · exact hUsed _ hMem (Stmt.name_mem_usedNames_of_binders (Stmt.binders_subset hHosted.loop hx))

/-- **All workspaces of a loop**: by induction on its reductions. -/
theorem hygienic_moveReductions (space : MemSpace) (id : Nat) :
    ∀ (reductions : List (String × ReduceOp)) (seen : List String) (k : Nat) (s s' : State Draft),
      Hygienic s → moveReductions space id seen k s reductions = .ok s' → Hygienic s' := by
  intro reductions
  induction reductions with
  | nil =>
    intro seen k s s' h hMove
    cases hMove
    exact h
  | cons r reductions ih =>
    intro seen k s s' h hMove
    obtain ⟨b, op⟩ := r
    rw [moveReductions] at hMove
    split at hMove
    · exact ih seen k s s' h hMove
    · cases hFound : loopNumbered? s.piece id with
      | none =>
        rw [hFound] at hMove
        cases hMove
        exact h
      | some l =>
        rw [hFound] at hMove
        obtain ⟨j, hJob, hRest⟩ := Outcome.bind_eq_ok.mp hMove
        obtain ⟨rfl, rfl, _, hHost, hNeutral, _⟩ := Job.of_eq_ok hJob
        obtain ⟨hMem, rfl⟩ := Stmt.mem_of_find? (loopNumbered?_eq_some hFound)
        obtain ⟨site, body, hDecl, hBelow⟩ := Stmt.exists_decl_of_bufferAt? _ h.ids hHost
        exact ih _ _ (s.withWorkspace j k space) s' (h.withWorkspace
          ⟨h.ids, h.old, h.names, hMem, ⟨site, body, hDecl, hBelow⟩, hNeutral⟩ k space) hRest

theorem hygienic_lowerLoop (target : Target) (move : Bool) (s s' : State Draft) (id : Nat)
    (h : Hygienic s) (hLower : lowerLoop target move s id = .ok s') : Hygienic s' := by
  unfold lowerLoop at hLower
  split at hLower
  · cases hLower
    exact h
  · split at hLower
    · cases hLower
    · split at hLower
      · exact hygienic_moveReductions target.space id _ [] 0 s s' h hLower
      · cases hLower
        exact h

/-- **Lowering**: all workspaces leave a cleanly named program cleanly named, with numbers that are
    different and in use. -/
theorem cleanlyNamed_lowerReductions {target : Target} {move : Bool} {d d' : Draft} {n : Nat}
    (hIds : d.tree.ids.Nodup) (hOld : ∀ i ∈ d.tree.ids, i < d.next) (h : d.tree.CleanlyNamed)
    (hLower : lowerReductions target move d = .ok (d', n)) :
    d'.tree.ids.Nodup ∧ (∀ i ∈ d'.tree.ids, i < d'.next) ∧ d'.tree.CleanlyNamed := by
  obtain ⟨s, hFold, hLower⟩ := Outcome.bind_eq_ok.mp hLower
  cases hLower
  have hDone : Hygienic s := Outcome.of_foldlM (P := Hygienic)
    (fun s id s' hs => hygienic_lowerLoop target move s s' id hs) _ _ s
    ⟨hIds, hOld, fun _ hx => hx, h⟩ hFold
  exact ⟨hDone.ids, hDone.old, hDone.named⟩

end Lower

/-! ## All steps -/

namespace Restructure

/-- What one step makes of a program: a command that is carried out, workspaces for the reductions of
    its parallel loops, or its simplification. -/
inductive Makes : Draft → Stmt → Prop where
  | command {t t' : Stmt} {registry : Registry} {k : Nat} {c : Command} {report : Report}
    (plain : c.Plain) (h : c.perform registry k t = .ok (t', report)) : Makes (.of t) t'
  | workspaces {d d' : Draft} {target : Lower.Target} {move : Bool} {n : Nat}
    (h : Lower.lowerReductions target move d = .ok (d', n)) : Makes d d'.tree
  | simplified (d : Draft) : Makes d (d.tree.simplify d.next)

/-- How a program goes on: what a step makes of it is committed, or it is lowered further as it is. -/
inductive Goes : Draft → Draft → Prop where
  | commit {d : Draft} {t : Stmt} (h : Makes d t) : Goes d (.of t.number)
  | lowered {d d' : Draft} {target : Lower.Target} {move : Bool} {n : Nat}
    (h : Lower.lowerReductions target move d = .ok (d', n)) : Goes d d'

/-- A cleanly named program whose statements have different numbers, all used before. -/
structure Draft.Clean (d : Draft) : Prop where
  ids : d.tree.ids.Nodup
  old : ∀ i ∈ d.tree.ids, i < d.next
  named : d.tree.CleanlyNamed

theorem Draft.Clean.number {t : Stmt} (h : t.CleanlyNamed) : (Draft.of t.number).Clean where
  ids := t.nodup_ids_number
  old i hi := Stmt.lt_size_number i hi
  named := Stmt.cleanlyNamed_number h

/-- **One step** makes a cleanly named program. -/
theorem Makes.cleanlyNamed {d : Draft} {t : Stmt} (h : Makes d t) (hClean : d.Clean) :
    t.CleanlyNamed := by
  cases h with
  | command plain h => exact Command.cleanlyNamed_of_perform plain hClean.named hClean.ids hClean.old h
  | workspaces h => exact (Lower.cleanlyNamed_lowerReductions hClean.ids hClean.old hClean.named h).2.2
  | simplified => exact (Stmt.keepsScopes_simplify _ _).cleanlyNamed hClean.named

theorem Goes.clean {d d' : Draft} (h : Goes d d') (hClean : d.Clean) : d'.Clean := by
  cases h with
  | commit h => exact .number (h.cleanlyNamed hClean)
  | lowered h =>
    obtain ⟨hIds, hOld, hNamed⟩ :=
      Lower.cleanlyNamed_lowerReductions hClean.ids hClean.old hClean.named h
    exact ⟨hIds, hOld, hNamed⟩

/-- **Hygiene**: whatever has been done to a cleanly named program, it is cleanly named, and so is
    what the next step makes of it. -/
theorem cleanlyNamed_of_steps {t : Stmt} (h : t.CleanlyNamed) {d : Draft}
    (hSteps : Relation.ReflTransGen Goes (.of t.number) d) :
    d.tree.CleanlyNamed ∧ ∀ t', Makes d t' → t'.CleanlyNamed := by
  have hClean : d.Clean := by
    induction hSteps with
    | refl => exact .number h
    | tail _ hGoes ih => exact hGoes.clean ih
  exact ⟨hClean.named, fun _ hMakes => hMakes.cleanlyNamed hClean⟩

/-- A sum of eight values. -/
def eightfold : Stmt :=
  .decl ⟨0, none⟩ "y" ⟨[.int 1], .int32, .inout, .cpu⟩
    (.loop ⟨1, some "L"⟩ { iter := "i", lower := .int 0, upper := .int 8 }
      (.store ⟨2, none⟩ "y" [.int 0] (.add (.load "y" [.int 0]) (.load "x" [.var "i"]))))

/-- The loop is split, the outer one of the new loops runs in parallel, and its sums go to a
    workspace. -/
def eightfoldLowered : Outcome Draft := do
  let (t, _) ← (Command.split "L" (some (.int 4)) none).perform ⟨[]⟩ defaultLevels eightfold
  let (t, _) ← (Command.parallelize "L.0" "openmp").perform ⟨[]⟩ defaultLevels t.number
  let (d, _) ← Lower.lowerReductions .cpu true (Draft.of t.number)
  return d

/-- The iterators of the new loops are new, and where the only row is filled no loop is left. -/
theorem eightfold_stays_cleanlyNamed : eightfold.CleanlyNamed ∧ ∃ d : Draft,
    Relation.ReflTransGen Goes (.of eightfold.number) d ∧ Makes d (d.tree.simplify d.next)
      ∧ (d.tree.simplify d.next).binders
        = [.buffer "y", .buffer "__reduce_L.0_0", .scalar "i.0", .scalar "i.1", .scalar "i.0.1"]
      ∧ d.tree.CleanlyNamed ∧ (d.tree.simplify d.next).CleanlyNamed := by
  have hNamed : eightfold.CleanlyNamed := by
    refine Stmt.scoped_decl.mpr ⟨fun e he => ?_, by decide, Stmt.scoped_loop.mpr
      ⟨Expr.scoped_int 0, Expr.scoped_int 8, by decide,
        Stmt.scoped_store.mpr ⟨by decide, fun i hi => ?_, ?_⟩⟩⟩
    · rw [List.mem_singleton.mp he]
      exact Expr.scoped_int 1
    · rw [List.mem_singleton.mp hi]
      exact Expr.scoped_int 0
    · unfold Expr.Scoped
      decide
  have hBinders : eightfoldLowered.toOption.map (fun d => (d.tree.simplify d.next).binders)
      = some [.buffer "y", .buffer "__reduce_L.0_0", .scalar "i.0", .scalar "i.1", .scalar "i.0.1"] := by
    decide +kernel
  cases hLowered : eightfoldLowered with
  | error c =>
    rw [hLowered] at hBinders
    cases hBinders
  | ok d =>
    rw [hLowered] at hBinders
    obtain ⟨⟨t₁, r₁⟩, hSplit, hLowered⟩ := Outcome.bind_eq_ok.mp hLowered
    obtain ⟨⟨t₂, r₂⟩, hParallel, hLowered⟩ := Outcome.bind_eq_ok.mp hLowered
    obtain ⟨⟨d', n⟩, hLower, hLowered⟩ := Outcome.bind_eq_ok.mp hLowered
    cases hLowered
    have hPlain : (Command.split "L" (some (.int 4)) none).Plain := by
      intro s hs
      cases hs
      decide
    have hOther : (Command.parallelize "L.0" "openmp").Plain := True.intro
    have hSteps : Relation.ReflTransGen Goes (.of eightfold.number) d :=
      ((Relation.ReflTransGen.single (.commit (.command hPlain hSplit))).tail
        (.commit (.command hOther hParallel))).tail (.lowered hLower)
    obtain ⟨hDone, hNext⟩ := cleanlyNamed_of_steps hNamed hSteps
    exact ⟨hNamed, d, hSteps, .simplified d, Option.some.inj hBinders, hDone,
      hNext _ (.simplified d)⟩

end Restructure

end LoopNest

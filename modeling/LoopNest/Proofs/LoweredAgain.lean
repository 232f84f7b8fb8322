import LoopNest.Proofs.EvolvedPrograms
import LoopNest.Proofs.LoweredReductions

/-! # Lowered programs that are lowered again

  After lowering, the analysis finds nothing between the iterations of parallel loops, when it can
  tell the rows of workspaces apart (`Stmt.Separable`). Inner loops become quiet first. What is known
  while this goes on (`Lower.Quieting`) is kept by every workspace
  (`Lower.Quieting.withWorkspace`), and each of them takes one buffer off the list of what the next
  loop carries (`Lower.Drains`).

  So every parallel loop of the result is safe without any reductions, and lowering it again changes
  nothing (`Lower.quiet_of_lowerReductions`). A lower bound that the analysis does not understand
  stands against this (`Lower.gatheredSum_carries`). -/

namespace LoopNest

/-- A quiet loop is safe without any reductions. -/
theorem Stmt.Quiet.verdict {lp : Stmt} (h : lp.Quiet) :
    lp.parallelVerdict defaultLevels = .safe [] := verdict_of_not_carries h.carries

theorem Stmt.eq_loop_of_isParallelLoop {t : Stmt} (h : t.isParallelLoop = true) :
    ∃ l : LabelledLoop, t = l.stmt ∧ l.head.isParallel = true := by
  cases t with
  | loop site head body => exact ⟨⟨site, head, body⟩, rfl, h⟩
  | _ => cases h

namespace Lower

open Restructure (Draft)
open Stmt (LabelledLoop)

section quieting

variable {own before seen : List String} {p : Nat} {rest loud : List Nat} {s s' : State Draft}

/-- What is known of a program while its loops become quiet.

    * **ids**, **old**, **names**, **known**: numbers are different, and numbers and names are in use;
    * **separable**: the analysis can tell rows apart;
    * **hosts**: only checked buffers are declared around the loops that are still to come;
    * **quiet**: the parallel loops with other numbers than these are quiet. -/
structure Quieting (own : List String) (rest loud : List Nat) (s : State Draft) : Prop where
  ids : s.piece.tree.ids.Nodup
  old : ∀ i ∈ s.piece.tree.ids, i < s.piece.next
  names : ∀ x ∈ s.piece.tree.usedNames, x ∈ s.supply.used
  known : own ⊆ s.supply.used
  separable : s.piece.tree.Separable own
  hosts : ∀ q ∈ rest, Hosts (· ∈ own) q s.piece.tree
  quiet : ∀ x ∈ s.piece.tree.nodes, x.isParallelLoop = true → x.id ∉ loud → x.Quiet

/-- **One workspace** keeps what is known. -/
theorem Quieting.withWorkspace {j : Job} (h : Quieting own rest (j.loop.site.id :: rest) s)
    (hPlaced : Placed s.supply.used s.piece.next s.piece.tree j) (hApart : j.Apart)
    (hReduces : j.loop.body.ReducesInto j.buffer j.op)
    (hPending : Pending s.piece.next (j.loop.site.id :: rest) s.piece.tree) (k : Nat)
    (space : MemSpace) :
    Quieting own rest (j.loop.site.id :: rest) (s.withWorkspace j k space)
      ∧ Pending (s.withWorkspace j k space).piece.next (j.loop.site.id :: rest)
          (s.withWorkspace j k space).piece.tree := by
  have hn := j.draws_names k s.supply
  have hLength := j.length_names k s.supply
  obtain ⟨hNext, hIds⟩ := j.ids_stmt (j.names k s.supply).1 space s.piece.next
  obtain ⟨hNodup, hOld⟩ := hPlaced.nodup_ids_stmt (j.names k s.supply).1 space
  have hNew := hPending.eq_of_mem_ids hPlaced.loop rfl hIds
  have hUsed : s.supply.used ⊆ (j.names k s.supply).2.used := fun x hx => (hn.used x).mpr (.inr hx)
  obtain ⟨hNot, _⟩ := List.nodup_cons.mp hPending.nodup
  refine ⟨⟨Stmt.nodup_ids_update h.ids h.old hPlaced.loop hNodup hIds, fun i hi => ?_, fun x hx => ?_,
    fun x hx => hUsed (h.known hx), ?_, fun q hq => ?_, fun x hx hParallel hQuiet => ?_⟩,
    hPending.update hNext hNew (hPlaced.parallel_stmt space)⟩
  · rcases Stmt.mem_ids_update hi with hi | hi
    · exact hOld i hi
    · exact Nat.lt_of_lt_of_le (h.old i hi) hNext
  · rcases Stmt.mem_usedNames_update hx with hx | hx
    · exact (hn.used x).mpr (hPlaced.used_stmt hLength space hx)
    · exact hUsed (h.names x hx)
  · exact Evolves.separable hPlaced hn hLength hReduces (.update (Stmt.self_mem_nodes _)) h.known
      h.separable
  · exact (h.hosts q hq).update (hNew q (List.mem_cons_of_mem _ hq)) fun hEq => absurd (hEq ▸ hq) hNot
  · rcases Stmt.mem_nodes_update _ hx with hx | ⟨y, hy, hne, rfl⟩
    · -- the parallel loops of the workspace are the loop itself and those inside it
      rcases Job.mem_nodes_stmt hx with ⟨_, _, rfl⟩ | ⟨_, _, rfl⟩ | rfl | hFill | hMoved | rfl | hFold
      · cases hParallel
      · cases hParallel
      · exact absurd List.mem_cons_self hQuiet
      · rcases mem_nodes_fillNest hFill with rfl | ⟨_, _, _, _, rfl⟩ <;> cases hParallel
      · rcases mem_nodes_redirect hMoved with ⟨u, hu, rfl, _⟩ | ⟨_, _, _, _, _, _, _, rfl⟩
        · rw [Stmt.isParallelLoop_mapChildren] at hParallel
          rw [Stmt.id_mapChildren] at hQuiet
          have hMem := Stmt.mem_nodes_trans hu hPlaced.body_mem
          have hOldQuiet := h.quiet u hMem hParallel hQuiet
          obtain ⟨l, rfl, hParallel⟩ := Stmt.eq_loop_of_isParallelLoop hParallel
          refine quiet_redirect hApart.buffers_row (fun hDeclares => ?_) (fun hUsed => ?_)
            (hApart.rows.noDeps _ _ _ hu hParallel) hOldQuiet
          · refine hApart.declares (hDeclares.of_mem (Stmt.mem_nodes_trans ?_ hu))
            simp [LabelledLoop.stmt, Stmt.self_mem_nodes]
          · exact hPlaced.space_not_used_body hn (Stmt.usedNames_subset hu hUsed)
        · cases hParallel
      · cases hParallel
      · rcases mem_nodes_fillNest hFold with rfl | ⟨_, _, _, _, rfl⟩ <;> cases hParallel
    · rw [Stmt.isParallelLoop_update hne] at hParallel
      rw [Stmt.id_update hne] at hQuiet
      by_cases hBelow : j.loop.site.id ∈ y.ids
      · exact absurd (hPending.around _ List.mem_cons_self y hy hParallel hBelow) hQuiet
      · rw [Stmt.update_of_not_mem y hBelow]
        exact h.quiet y hy hParallel hQuiet

/-- The next loop carries only buffers that it still has to reduce into. -/
def Drains (p : Nat) (seen : List String) (reductions : List (String × ReduceOp)) (t : Stmt) : Prop :=
  ∀ l : LabelledLoop, l.stmt ∈ t.nodes → l.site.id = p → l.stmt.calls = []
    ∧ ∀ b, l.stmt.Carries b → b ∉ seen ∧ ∃ op, (b, op) ∈ reductions

/-- A workspace takes its buffer off the list. -/
theorem Drains.withWorkspace {r : String × ReduceOp} {reductions : List (String × ReduceOp)}
    {j : Job} (h : Drains j.loop.site.id seen (r :: reductions) s.piece.tree)
    (hPlaced : Placed s.supply.used s.piece.next s.piece.tree j) (hApart : j.Apart)
    (hr : r.1 = j.buffer) {k : Nat} {space : MemSpace}
    (hIds : (s.withWorkspace j k space).piece.tree.ids.Nodup) :
    Drains j.loop.site.id (j.buffer :: seen) reductions (s.withWorkspace j k space).piece.tree := by
  intro l hl hId
  have hn := j.draws_names k s.supply
  have hLength := j.length_names k s.supply
  obtain ⟨hCalls, hCarries⟩ := h j.loop hPlaced.loop rfl
  -- the loop is the one that fills rows
  have hReplaces := Stmt.replaces_update
    (v := (j.stmt (j.names k s.supply).1 space s.piece.next).1) s.piece.tree hPlaced.ids hPlaced.loop
  have hFilling : j.filling (j.names k s.supply).1 s.piece.next
      ∈ (s.withWorkspace j k space).piece.tree.nodes :=
    Stmt.mem_nodes_trans (Placed.filling_mem_stmt space) hReplaces.symm.mem
  have hSame : l.stmt = j.filling (j.names k s.supply).1 s.piece.next :=
    List.inj_on_of_nodup_map hIds hl hFilling hId
  rw [hSame]
  refine ⟨Placed.calls_filling hCalls, fun b hNow => ?_⟩
  obtain ⟨hne, hBefore⟩ := hPlaced.carries_filling hApart hn hLength hCalls hNow
  obtain ⟨hSeen, op, hOp⟩ := hCarries b hBefore
  refine ⟨fun hMem => (List.mem_cons.mp hMem).elim hne hSeen, op, ?_⟩
  refine (List.mem_cons.mp hOp).resolve_left fun hEq => hne ?_
  rw [← hr, ← hEq]

/-- A loop that carries nothing more joins the quiet ones. -/
theorem Quieting.settle (h : Quieting own rest (p :: rest) s)
    (hDrains : Drains p seen [] s.piece.tree) : Quieting own rest rest s where
  ids := h.ids
  old := h.old
  names := h.names
  known := h.known
  separable := h.separable
  hosts := h.hosts
  quiet x hx hParallel hRest := by
    by_cases hId : x.id = p
    · obtain ⟨l, rfl, _⟩ := Stmt.eq_loop_of_isParallelLoop hParallel
      obtain ⟨hCalls, hCarries⟩ := hDrains l hx hId
      refine ⟨hCalls, fun b hb => ?_⟩
      obtain ⟨_, _, hMem⟩ := hCarries b hb
      cases hMem
    · exact h.quiet x hx hParallel fun hMem => (List.mem_cons.mp hMem).elim hId hRest

/-- The next reduction gets a workspace whose rows the analysis can tell apart. -/
theorem Quieting.placed {j : Job} (h : Quieting own rest loud s)
    (hPending : Pending s.piece.next (j.loop.site.id :: rest) s.piece.tree)
    (hHosts : Hosts (fun n => n ∈ own ∨ n ∉ before) j.loop.site.id s.piece.tree)
    (hReduces : j.loop.body.ReducesInto j.buffer j.op) (hName : j.buffer ∈ before)
    (hMem : j.loop.stmt ∈ s.piece.tree.nodes)
    (hHost : s.piece.tree.bufferAt? j.buffer j.loop.site.id = some j.host)
    (hNeutral : j.op.neutral? j.host.elem = some j.neutral)
    (hPlain : j.loop.body.nodes.any (assigns j.buffer j.op) = false) :
    Placed s.supply.used s.piece.next s.piece.tree j ∧ j.Apart := by
  have hParallel : j.loop.head.isParallel = true :=
    hPending.parallel _ List.mem_cons_self j.loop.stmt hMem rfl
  obtain ⟨site, body, hDecl, hBelow⟩ := Stmt.exists_decl_of_bufferAt? _ h.ids hHost
  have hOwned : j.buffer ∈ own := by
    rcases hHosts _ _ _ _ hDecl hBelow with hOwned | hNew
    · exact hOwned
    · exact absurd hName hNew
  have hPlaced : Placed s.supply.used s.piece.next s.piece.tree j :=
    ⟨⟨h.ids, h.old, h.names, hMem, ⟨site, body, hDecl, hBelow⟩, hNeutral⟩, hParallel⟩
  have hInside : j.loop.stmt ∈ body.nodes := Stmt.mem_nodes_of_id h.ids hMem
    (Stmt.mem_nodes_trans (by simp [Stmt.self_mem_nodes]) hDecl) hBelow
  obtain ⟨hOnce, hKeeps⟩ :=
    h.separable site _ _ body hDecl hOwned j.loop hInside hParallel ⟨j.op, hReduces⟩
  refine ⟨hPlaced, hKeeps, fun hDeclares => hOnce ?_, hPlain⟩
  refine hDeclares.of_mem (Stmt.mem_nodes_trans ?_ hInside)
  simp [LabelledLoop.stmt, Stmt.self_mem_nodes]

/-- **All workspaces of a loop** make it quiet: by induction on its reductions. -/
theorem moveReductions_quiet (space : MemSpace) :
    ∀ (reductions : List (String × ReduceOp)) (seen : List String) (k : Nat) (s : State Draft),
      Quieting own rest (p :: rest) s → Pending s.piece.next (p :: rest) s.piece.tree →
      before ⊆ s.supply.used → (∀ r ∈ reductions, r.1 ∈ before) →
      Moving own before p seen reductions s.piece.tree → Drains p seen reductions s.piece.tree →
        ∀ s', moveReductions space p seen k s reductions = .ok s' →
          Quieting own rest rest s' ∧ Pending s'.piece.next rest s'.piece.tree := by
  intro reductions
  induction reductions with
  | nil =>
    intro seen k s h hPending _ _ _ hDrains s' hEq
    cases hEq
    exact ⟨h.settle hDrains, hPending.tail⟩
  | cons r reductions ih =>
    intro seen k s h hPending hBefore hNames hMoving hDrains s' hEq
    obtain ⟨b, op⟩ := r
    have hRest : ∀ r ∈ reductions, r.1 ∈ before := fun r hr => hNames r (List.mem_cons_of_mem _ hr)
    rw [moveReductions] at hEq
    split at hEq
    · -- the buffer has a workspace, so that it is not carried
      rename_i hSeen
      refine ih seen k s h hPending hBefore hRest ⟨hMoving.hosts, ?_⟩ ?_ s' hEq
      · exact fun site head body hLoop hId r hr =>
          hMoving.reduces site head body hLoop hId r (List.mem_cons_of_mem _ hr)
      · intro l hl hId
        obtain ⟨hCalls, hCarries⟩ := hDrains l hl hId
        refine ⟨hCalls, fun c hc => ?_⟩
        obtain ⟨hNot, op', hOp⟩ := hCarries c hc
        refine ⟨hNot, op', (List.mem_cons.mp hOp).resolve_left fun hSame => hNot ?_⟩
        cases hSame
        simpa using hSeen
    · rename_i hSeen
      cases hLoop : loopNumbered? s.piece p with
      | none =>
        rw [hLoop] at hEq
        cases hEq
        have hNone : Drains p seen [] s.piece.tree := fun l hl hId => by
          have hFound := loopNumbered?_of_mem h.ids hl
          rw [hId, hLoop] at hFound
          cases hFound
        exact ⟨h.settle hNone, hPending.tail⟩
      | some l =>
        rw [hLoop] at hEq
        dsimp only at hEq
        obtain ⟨j, hJob, hRun⟩ := Outcome.bind_eq_ok.mp hEq
        obtain ⟨rfl, rfl, rfl, hHost, hNeutral, hPlain⟩ := Job.of_eq_ok hJob
        obtain ⟨hMem, rfl⟩ := Stmt.mem_of_find? (loopNumbered?_eq_some hLoop)
        have hReduces : j.loop.body.ReducesInto j.buffer j.op :=
          hMoving.reduces _ _ _ hMem rfl _ List.mem_cons_self (by simpa using hSeen)
        obtain ⟨hPlaced, hApart⟩ := h.placed hPending hMoving.hosts hReduces
          (hNames _ List.mem_cons_self) hMem hHost hNeutral hPlain
        obtain ⟨hNow, hThen⟩ := h.withWorkspace hPlaced hApart hReduces hPending k space
        refine ih _ _ _ hNow hThen ?_ hRest ?_
          (hDrains.withWorkspace hPlaced hApart rfl hNow.ids) s' hRun
        · exact fun x hx => ((j.draws_names k s.supply).used x).mpr (.inr (hBefore hx))
        · refine hMoving.withWorkspace hPlaced hNow.ids fun hMem => ?_
          exact Placed.not_used (j.draws_names k s.supply) List.mem_cons_self (hBefore hMem)

/-- **One loop** becomes quiet. -/
theorem lowerLoop_quiet (target : Target) (h : Quieting own (p :: rest) (p :: rest) s)
    (hPending : Pending s.piece.next (p :: rest) s.piece.tree)
    (hEq : lowerLoop target true s p = .ok s') :
    Quieting own rest rest s' ∧ Pending s'.piece.next rest s'.piece.tree := by
  have hRest : Quieting own rest (p :: rest) s :=
    { h with hosts := fun q hq => h.hosts q (List.mem_cons_of_mem p hq) }
  unfold lowerLoop at hEq
  cases hLoop : loopNumbered? s.piece p with
  | none =>
    rw [hLoop] at hEq
    cases hEq
    have hNone : Drains p [] [] s.piece.tree := fun l hl hId => by
      have hFound := loopNumbered?_of_mem h.ids hl
      rw [hId, hLoop] at hFound
      cases hFound
    exact ⟨hRest.settle hNone, hPending.tail⟩
  | some l =>
    rw [hLoop] at hEq
    dsimp only at hEq
    obtain ⟨hMem, rfl⟩ := Stmt.mem_of_find? (loopNumbered?_eq_some hLoop)
    cases hVerdict : l.stmt.parallelVerdict defaultLevels with
    | blocked d =>
      rw [hVerdict] at hEq
      cases hEq
    | safe rs =>
      rw [hVerdict] at hEq
      dsimp only at hEq
      rw [if_pos rfl] at hEq
      have hOnly : ∀ x ∈ s.piece.tree.nodes, x.id = l.stmt.id → x = l.stmt := fun x hx hId =>
        List.inj_on_of_nodup_map h.ids hx hMem hId
      have hInto := reducesInto_body_of_verdict hVerdict
      have hNames : ∀ r ∈ rs, r.1 ∈ s.supply.used := by
        intro r hr
        refine h.names _ (Stmt.usedNames_subset hMem ?_)
        exact ((hInto r hr).writes.of_mem
          (by simp [LabelledLoop.stmt, Stmt.self_mem_nodes])).mem_usedNames
      have hMoving : Moving own s.supply.used l.stmt.id [] rs s.piece.tree := by
        refine ⟨fun site n b body hDecl hBelow => ?_, fun site head body hIn hId r hr _ => ?_⟩
        · exact .inl (h.hosts _ List.mem_cons_self site n b body hDecl hBelow)
        · cases hOnly _ hIn hId
          exact hInto r hr
      refine moveReductions_quiet target.space rs [] 0 s hRest hPending (fun _ hx => hx) hNames
        hMoving (fun l' hl' hId => ?_) s' hEq
      rw [hOnly _ hl' hId]
      exact ⟨Stmt.calls_of_safe hVerdict, fun b hb =>
        ⟨List.not_mem_nil, hb.listed hVerdict⟩⟩

/-- **All loops** become quiet: by induction on the loops that are still to come. -/
theorem foldlM_lowerLoop_quiet (target : Target) :
    ∀ (rest : List Nat) (s s' : State Draft), Quieting own rest rest s →
      Pending s.piece.next rest s.piece.tree →
      rest.foldlM (lowerLoop target true) s = .ok s' → Quieting own [] [] s' := by
  intro rest
  induction rest with
  | nil =>
    intro s s' h _ hEq
    cases hEq
    exact h
  | cons p rest ih =>
    intro s s' h hPending hEq
    rw [List.foldlM_cons] at hEq
    obtain ⟨next, hFirst, hEq⟩ := Outcome.bind_eq_ok.mp hEq
    obtain ⟨hNow, hRest⟩ := lowerLoop_quiet target h hPending hFirst
    exact ih next s' hNow hRest hEq

end quieting

/-- Where all parallel loops are safe without reductions, there is nothing to lower. -/
theorem lowerReductions_of_safe {d : Draft} (hIds : d.tree.ids.Nodup)
    (hSafe : ∀ lp ∈ d.tree.nodes, lp.isParallelLoop = true →
      lp.parallelVerdict defaultLevels = .safe []) (target : Target) (move : Bool) :
    lowerReductions target move d = .ok (d, 0) := by
  have hLoops : ∀ ids ⊆ (d.tree.nodes.filter Stmt.isParallelLoop).map Stmt.id,
      ids.foldlM (lowerLoop target move) ⟨d, ⟨d.tree.usedNames⟩, 0⟩
        = .ok ⟨d, ⟨d.tree.usedNames⟩, 0⟩ := by
    intro ids
    induction ids with
    | nil => exact fun _ => rfl
    | cons p rest ih =>
      intro hSub
      obtain ⟨lp, hlp, rfl⟩ := List.mem_map.mp (hSub List.mem_cons_self)
      obtain ⟨hMem, hParallel⟩ := List.mem_filter.mp hlp
      have hVerdict := hSafe lp hMem hParallel
      obtain ⟨l, rfl, _⟩ := Stmt.eq_loop_of_isParallelLoop hParallel
      have hFound : loopNumbered? d l.stmt.id = some l := by
        rw [loopNumbered?, show Restructure.Workpiece.stmt? d l.stmt.id = some l.stmt from
          Stmt.find?_of_mem hIds hMem]
        rfl
      rw [List.foldlM_cons]
      have hStep : lowerLoop target move ⟨d, ⟨d.tree.usedNames⟩, 0⟩ l.stmt.id
          = .ok ⟨d, ⟨d.tree.usedNames⟩, 0⟩ := by
        unfold lowerLoop
        rw [hFound]
        dsimp only
        rw [hVerdict]
        cases move <;> rfl
      rw [hStep]
      exact ih fun q hq => hSub (List.mem_cons_of_mem _ hq)
  have hAll := hLoops ((d.tree.nodes.filter Stmt.isParallelLoop).map Stmt.id).reverse
    fun q hq => List.mem_reverse.mp hq
  exact Outcome.bind_eq_ok.mpr ⟨_, hAll, rfl⟩

/-- **Lowered programs pass the check**: when the analysis can tell the rows of workspaces apart,
    every parallel loop of a lowered program is safe without any reductions. Lowering the program
    again is accepted, for every target, and makes no further workspace. -/
theorem quiet_of_lowerReductions {t : Stmt} {target : Target} {d : Draft} {count : Nat}
    (hSeparable : t.number.Separable t.number.usedNames)
    (hLowered : lowerReductions target true (Draft.of t.number) = .ok (d, count)) :
    (∀ lp ∈ d.tree.nodes, lp.isParallelLoop = true →
      lp.parallelVerdict defaultLevels = .safe [])
    ∧ ∀ target', lowerReductions target' true d = .ok (d, 0) := by
  unfold lowerReductions at hLowered
  obtain ⟨s, hFold, hEq⟩ := Outcome.bind_eq_ok.mp hLowered
  cases hEq
  have hIds := Stmt.nodup_ids_number t
  have hOld : ∀ i ∈ t.number.ids, i < (Draft.of t.number).next := Stmt.lt_size_number
  have hStart : Quieting t.number.usedNames
      ((t.number.nodes.filter Stmt.isParallelLoop).map Stmt.id).reverse
      ((t.number.nodes.filter Stmt.isParallelLoop).map Stmt.id).reverse
      ⟨Draft.of t.number, ⟨t.number.usedNames⟩, 0⟩ := by
    refine ⟨hIds, hOld, fun _ hx => hx, fun _ hx => hx, hSeparable, fun q _ s n b body hDecl _ => ?_,
      fun x hx hParallel hNot => absurd ?_ hNot⟩
    · exact Stmt.mem_usedNames.mpr ⟨_, hDecl, .inl (by simp [Stmt.ownNames])⟩
    · rw [List.mem_reverse]
      exact List.mem_map_of_mem (List.mem_filter.mpr ⟨hx, hParallel⟩)
  have hEnd := foldlM_lowerLoop_quiet target _ _ s hStart (Pending.start hIds hOld) hFold
  have hSafe : ∀ lp ∈ s.piece.tree.nodes, lp.isParallelLoop = true →
      lp.parallelVerdict defaultLevels = .safe [] := fun lp hlp hParallel =>
    (hEnd.quiet lp hlp hParallel List.not_mem_nil).verdict
  exact ⟨hSafe, fun target' => lowerReductions_of_safe hEnd.ids hSafe target' true⟩

/-- A loop over rows or columns of the table keeps rows. -/
theorem keepsRows_table {site : Site} {iter : String} {body : Stmt}
    (hBody : ∀ u ∈ body.nodes, u = tableRow ∨ u = tableStore) (hBinds : ¬ body.Binds iter) :
    (⟨site, parallelHead iter 2, body⟩ : LabelledLoop).KeepsRows "y"
      ⟨[.int 1], .int32, .inout, .cpu⟩ := by
  have hRow : (⟨site, parallelHead iter 2, body⟩ : LabelledLoop).around.row = .var iter := rfl
  refine ⟨⟨?_, fun h => by cases h⟩, fun x hx => ?_, fun s is v r hStore _ => ?_,
    fun e he c hc => ?_, fun s h inner hLoop _ hMem => ?_⟩
  · rw [hRow]
    simp only [Expr.linear?, firstIterators, List.foldl_cons, List.foldl_nil, Iterators.resolve]
    rw [List.find?_cons_of_pos (by simp [LabelledLoop.around, parallelHead])]
    rfl
  · obtain rfl : x = iter := by simpa [parallelHead] using hx
    exact hBinds
  · rcases hBody _ hStore with hEq | hEq
    · cases hEq
    · cases hEq
      rfl
  · obtain rfl := List.mem_singleton.mp he
    cases hc
  · rcases hBody _ hLoop with hEq | hEq
    · cases hEq
      cases hMem
    · cases hEq

/-- The analysis can tell the rows of both loops apart. -/
theorem separable_tableSum : tableSum.number.Separable tableSum.number.usedNames := by
  intro s b buffer inner hDecl _ l hl _ _
  have hRow : tableRow.nodes = [tableRow, tableStore] := rfl
  have hStore : tableStore.nodes = [tableStore] := rfl
  have hInner : (Stmt.loop ⟨1, some "L1"⟩ (parallelHead "i" 2) tableRow).nodes
      = [.loop ⟨1, some "L1"⟩ (parallelHead "i" 2) tableRow, tableRow, tableStore] := rfl
  rcases mem_nodes_tableSum.mp hDecl with hEq | hEq | hEq | hEq
  · cases hEq
    refine ⟨?_, ?_⟩
    · rintro ⟨site, buffer, body, hMem⟩
      rw [hInner] at hMem
      simp [tableRow, tableStore] at hMem
    · obtain ⟨site, head, body⟩ := l
      rw [hInner] at hl
      simp only [LabelledLoop.stmt, List.mem_cons, List.not_mem_nil, or_false] at hl
      rcases hl with hEq | hEq | hEq
      · cases hEq
        refine keepsRows_table (fun u hu => by simpa [hRow] using hu) ?_
        rintro ⟨_, _, _, hMem, hIter⟩
        rw [hRow] at hMem
        rcases List.mem_cons.mp hMem with hEq | hMem
        · cases hEq
          exact absurd hIter (by decide)
        · cases List.mem_singleton.mp hMem
      · cases hEq
        refine keepsRows_table (fun u hu => .inr (by simpa [hStore] using hu)) ?_
        rintro ⟨_, _, _, hMem, _⟩
        rw [hStore] at hMem
        cases List.mem_singleton.mp hMem
      · cases hEq
  · cases hEq
  · cases hEq
  · cases hEq

/-- The sum of a table is lowered with two workspaces, after which both loops are safe. -/
theorem tableSum_quiet : ∃ d, lowerReductions .cpu true (Draft.of tableSum.number) = .ok (d, 2)
    ∧ (∀ lp ∈ d.tree.nodes, lp.isParallelLoop = true →
      lp.parallelVerdict defaultLevels = .safe [])
    ∧ ∀ target', lowerReductions target' true d = .ok (d, 0) := by
  have hCount : (lowerReductions .cpu true (Draft.of tableSum.number)).toOption.map (·.2)
      = some 2 := by
    decide +kernel
  cases hLowered : lowerReductions .cpu true (Draft.of tableSum.number) with
  | error c =>
    rw [hLowered] at hCount
    cases hCount
  | ok r =>
    obtain ⟨d, count⟩ := r
    rw [hLowered] at hCount
    cases hCount
    exact ⟨d, rfl, quiet_of_lowerReductions separable_tableSum hLowered⟩

/-- A sum from a place on that is read from memory. -/
def gatheredSum : Stmt :=
  .decl ⟨0, none⟩ "y" ⟨[.int 1], .int32, .inout, .cpu⟩
    (.loop ⟨1, some "L1"⟩
      { iter := "i", lower := .load "z" [.int 0], upper := .int 10, mode := .parallel "openmp" }
      (.store ⟨2, none⟩ "y" [.int 0] (.add (.load "y" [.int 0]) (.load "x" [.var "i"]))))

/-- The rows of the workspace have no affine form. So the analysis takes them for the same row: the
    loop carries the workspace, and the lowered program is not accepted. -/
theorem gatheredSum_carries : ∃ d, lowerReductions .cpu true (Draft.of gatheredSum.number) = .ok (d, 1)
    ∧ (∃ lp ∈ d.tree.nodes, lp.isParallelLoop = true
      ∧ lp.parallelVerdict defaultLevels ≠ .safe [])
    ∧ ∀ r, lowerReductions .cpu true d ≠ .ok r := by
  have hComputed : (lowerReductions .cpu true (Draft.of gatheredSum.number)).toOption.map
      (fun r => (r.2, (r.1.tree.nodes.filter Stmt.isParallelLoop).any fun lp =>
        lp.parallelVerdict defaultLevels != .safe [],
        (lowerReductions .cpu true r.1).toOption.isSome)) = some (1, true, false) := by
    decide +kernel
  cases hLowered : lowerReductions .cpu true (Draft.of gatheredSum.number) with
  | error c =>
    rw [hLowered] at hComputed
    cases hComputed
  | ok r =>
    obtain ⟨d, count⟩ := r
    rw [hLowered] at hComputed
    simp only [Except.toOption, Option.map_some, Option.some.injEq, Prod.mk.injEq] at hComputed
    obtain ⟨rfl, hAny, hNone⟩ := hComputed
    obtain ⟨lp, hlp, hVerdict⟩ := List.any_eq_true.mp hAny
    obtain ⟨hMem, hParallel⟩ := List.mem_filter.mp hlp
    refine ⟨d, rfl, ⟨lp, hMem, hParallel, bne_iff_ne.mp hVerdict⟩, fun r hOk => ?_⟩
    rw [hOk] at hNone
    cases hNone

end Lower

end LoopNest

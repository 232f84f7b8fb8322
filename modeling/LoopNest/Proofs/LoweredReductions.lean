import LoopNest.Proofs.PendingLoops
import LoopNest.Proofs.PureReductions
import LoopNest.Proofs.WorkspaceOrders

/-! # Results of lowered reductions

  Lowering moves the reductions of parallel loops to workspaces, one loop after the other and inner
  loops first. What is known of the program while this goes on (`Lower.Lowered`) is kept by every
  workspace (`Lower.Lowered.withWorkspace`), by all workspaces of a loop and by all loops.

  In the end every loop has been lowered. So a tidy program with pure reductions leaves the memory
  of its sequential run in every order (`Lower.settles_of_lowered`). Pure reductions are needed
  (`Lower.runningSums_not_preserved`). -/

namespace LoopNest.Lower

open Restructure (Draft)
open Stmt (LabelledLoop)

/-! ## Programs that are being lowered -/

section lowered

variable {c : Conventions} {own : List String} {env : Env} {m m' : Memory} {p : Nat} {rest : List Nat}
  {s s' : State Draft}

/-- What is known of a program while its loops are lowered.

    * **tidy**, **known**: it is tidy, and the checked names are in use;
    * **pure**: the loops use the checked buffers that they reduce into in reductions only;
    * **hosts**: only checked buffers are declared around the loops that are still to come;
    * **unordered**: the iterations of the other parallel loops are apart;
    * **runs**: it leaves the memory that the program left at first. -/
structure Lowered (c : Conventions) (own : List String) (env : Env) (m m' : Memory)
    (rest : List Nat) (s : State Draft) : Prop where
  tidy : s.piece.tree.Tidy own s.supply.used s.piece.next
  known : own ⊆ s.supply.used
  pure : s.piece.tree.PureReductions own
  hosts : ∀ q ∈ rest, Hosts (· ∈ own) q s.piece.tree
  unordered : s.piece.tree.Unordered c s.supply.used rest []
  runs : s.piece.tree.StaysWithin own c (fun _ => none) env m m'

/-- **One workspace** keeps what is known. -/
theorem Lowered.withWorkspace {j : Job} (h : Lowered c own env m m' rest s)
    (hReady : Ready own s.supply.used s.piece.next s.piece.tree j)
    (hPending : Pending s.piece.next (j.loop.site.id :: rest) s.piece.tree)
    (hHost : s.piece.tree.bufferAt? j.buffer j.loop.site.id = some j.host) (k : Nat)
    (space : MemSpace) :
    Lowered c own env m m' rest (s.withWorkspace j k space)
      ∧ Pending (s.withWorkspace j k space).piece.next (j.loop.site.id :: rest)
          (s.withWorkspace j k space).piece.tree := by
  have hn := j.draws_names k s.supply
  have hLength := j.length_names k s.supply
  have hTidy := hReady.tidy_stmt hn hLength space
  have hInherits := hReady.inherits hn hLength space
  obtain ⟨hNext, hIds⟩ := j.ids_stmt (j.names k s.supply).1 space s.piece.next
  have hNew := hPending.eq_of_mem_ids hReady.loop rfl hIds
  have hUsed : s.supply.used ⊆ (j.names k s.supply).2.used := fun x hx => (hn.used x).mpr (.inr hx)
  obtain ⟨hNot, _⟩ := List.nodup_cons.mp hPending.nodup
  have hReplaces := Stmt.replaces_update (v := (j.stmt (j.names k s.supply).1 space s.piece.next).1)
    s.piece.tree h.tidy.ids hReady.loop
  refine ⟨⟨h.tidy.update hReady.loop hTidy hNext hUsed hInherits, fun x hx => hUsed (h.known hx),
    hReady.pure_update hn space h.pure, fun q hq => ?_, ?_, ?_⟩,
    hPending.update hNext hNew (hReady.parallel_stmt space)⟩
  · exact (h.hosts q hq).update (hNew q (List.mem_cons_of_mem _ hq)) fun hEq => absurd (hEq ▸ hq) hNot
  · -- the parallel loops around are still to come
    have hAround : Stmt.Surrounds s.supply.used rest j.loop.stmt s.piece.tree := by
      refine ⟨fun site head body hLoop hParallel hBelow => ?_, h.tidy.steady,
        fun b hReads => h.tidy.used b hReads.mem_usedNames⟩
      have hMem : j.loop.site.id ∈ body.ids := List.mem_map_of_mem (f := Stmt.id) hBelow
      rcases List.mem_cons.mp (hPending.around _ List.mem_cons_self _ hLoop hParallel (by simp [hMem]))
        with hId | hId
      · have hNodup := Stmt.nodup_ids_of_mem h.tidy.ids hLoop
        rw [Stmt.ids_loop, List.nodup_cons] at hNodup
        rw [← hId] at hMem
        exact absurd hMem hNodup.1
      · exact hId
    exact hReplaces.unordered hUsed (fun known hKnown hLoop =>
      hReady.unordered_stmt hn hLength space hNot hKnown hLoop) [] hAround (fun _ he => by cases he)
      h.unordered
  · refine hReplaces.staysWithin h.tidy.ids h.tidy.names hReady.owned (fun limits env m m' hLimits hm
      hRefers hRun => Job.staysWithin_stmt (hReady.fits hn hLength) (h.tidy.names.of_mem hReady.loop)
        space _ hLimits hm hRefers hRun) none _ env m m' ?_ (fun _ _ => rfl) (fun _ _ hl => by cases hl)
        ⟨fun _ hb => (by cases hb), fun _ hb => (by cases hb), fun _ _ => rfl⟩ h.runs
    rw [Option.or_none]
    exact hHost

/-- The next reduction of a loop can be moved when it is still there. -/
theorem Lowered.ready {before : List String} {j : Job} (h : Lowered c own env m m' rest s)
    (hPending : Pending s.piece.next (j.loop.site.id :: rest) s.piece.tree)
    (hHosts : Hosts (fun n => n ∈ own ∨ n ∉ before) j.loop.site.id s.piece.tree)
    (hReduces : j.loop.body.ReducesInto j.buffer j.op) (hName : j.buffer ∈ before)
    (hMem : j.loop.stmt ∈ s.piece.tree.nodes)
    (hHost : s.piece.tree.bufferAt? j.buffer j.loop.site.id = some j.host)
    (hNeutral : j.op.neutral? j.host.elem = some j.neutral) :
    Ready own s.supply.used s.piece.next s.piece.tree j := by
  have hParallel : j.loop.head.isParallel = true :=
    hPending.parallel _ List.mem_cons_self j.loop.stmt hMem rfl
  obtain ⟨site, body, hDecl, hBelow⟩ := Stmt.exists_decl_of_bufferAt? _ h.tidy.ids hHost
  have hOwned : j.buffer ∈ own := by
    rcases hHosts _ _ _ _ hDecl hBelow with hOwned | hNew
    · exact hOwned
    · exact absurd hName hNew
  -- the buffer is declared around the loop, so not in it
  have hNot : ¬ j.loop.body.Declares j.buffer := by
    intro hDeclares
    have hBody : body ∈ s.piece.tree.nodes := Stmt.mem_nodes_trans (by simp [Stmt.self_mem_nodes]) hDecl
    have hInside : j.loop.stmt ∈ body.nodes := Stmt.mem_nodes_of_id h.tidy.ids hMem hBody hBelow
    refine (h.tidy.names.of_mem hDecl).not_declares (hDeclares.of_mem (Stmt.mem_nodes_trans ?_ hInside))
    simp [LabelledLoop.stmt, Stmt.self_mem_nodes]
  exact ⟨⟨⟨h.tidy.ids, h.tidy.old, h.tidy.used, hMem, ⟨site, body, hDecl, hBelow⟩, hNeutral⟩, hParallel⟩,
    h.tidy, h.pure _ _ _ hMem hParallel _ hOwned hNot _ hReduces, hReduces.writes, hOwned, h.known⟩

/-- **All workspaces of a loop** keep what is known: by induction on its reductions. -/
theorem moveReductions_lowered {before : List String} (space : MemSpace) :
    ∀ (reductions : List (String × ReduceOp)) (seen : List String) (k : Nat) (s : State Draft),
      Lowered c own env m m' rest s → Pending s.piece.next (p :: rest) s.piece.tree →
      before ⊆ s.supply.used → (∀ r ∈ reductions, r.1 ∈ before) →
      Moving own before p seen reductions s.piece.tree →
        ∀ s', moveReductions space p seen k s reductions = .ok s' →
          Lowered c own env m m' rest s' ∧ Pending s'.piece.next (p :: rest) s'.piece.tree := by
  intro reductions
  induction reductions with
  | nil =>
    intro seen k s h hPending _ _ _ s' hEq
    cases hEq
    exact ⟨h, hPending⟩
  | cons r reductions ih =>
    intro seen k s h hPending hBefore hNames hMoving s' hEq
    obtain ⟨b, op⟩ := r
    have hRest : ∀ r ∈ reductions, r.1 ∈ before := fun r hr => hNames r (List.mem_cons_of_mem _ hr)
    rw [moveReductions] at hEq
    split at hEq
    · refine ih seen k s h hPending hBefore hRest ⟨hMoving.hosts, ?_⟩ s' hEq
      exact fun site head body hLoop hId r hr =>
        hMoving.reduces site head body hLoop hId r (List.mem_cons_of_mem _ hr)
    · rename_i hSeen
      cases hLoop : loopNumbered? s.piece p with
      | none =>
        rw [hLoop] at hEq
        cases hEq
        exact ⟨h, hPending⟩
      | some l =>
        rw [hLoop] at hEq
        dsimp only at hEq
        obtain ⟨j, hJob, hRun⟩ := Outcome.bind_eq_ok.mp hEq
        obtain ⟨rfl, rfl, rfl, hHost, hNeutral, _⟩ := Job.of_eq_ok hJob
        obtain ⟨hMem, rfl⟩ := Stmt.mem_of_find? (loopNumbered?_eq_some hLoop)
        have hReduces : j.loop.body.ReducesInto j.buffer j.op :=
          hMoving.reduces _ _ _ hMem rfl _ List.mem_cons_self (by simpa using hSeen)
        have hReady := h.ready hPending hMoving.hosts hReduces
          (hNames _ List.mem_cons_self) hMem hHost hNeutral
        obtain ⟨hNow, hThen⟩ := h.withWorkspace hReady hPending hHost k space
        refine ih _ _ _ hNow hThen ?_ hRest ?_ s' hRun
        · exact fun x hx => ((j.draws_names k s.supply).used x).mpr (.inr (hBefore hx))
        · refine hMoving.withWorkspace hReady.toPlaced hNow.tidy.ids fun hMem => ?_
          exact (hReady.space_not_used (j.draws_names k s.supply)).1 (hBefore hMem)

/-- A loop whose iterations are apart joins the loops that are done. -/
theorem Lowered.settle (h : Lowered c own env m m' (p :: rest) s)
    (hApart : ∀ site head body known, .loop site head body ∈ s.piece.tree.nodes → site.id = p →
      Stmt.TurnsApart c s.supply.used known head body) : Lowered c own env m m' rest s where
  tidy := h.tidy
  known := h.known
  pure := h.pure
  hosts q hq := h.hosts q (List.mem_cons_of_mem p hq)
  runs := h.runs
  unordered := by
    refine Stmt.Unordered.imp _ _ (fun site head body known hIn _ hNot hOld => ?_) h.unordered
    by_cases hId : site.id = p
    · exact hApart site head body known hIn hId
    · refine hOld fun hMem => ?_
      rcases List.mem_cons.mp hMem with hEq | hMem
      · exact hId hEq
      · exact hNot hMem

/-- The iterations of a safe loop are apart. -/
theorem Lowered.apart_of_safe (h : Lowered c own env m m' (p :: rest) s) {site : Site}
    {head : LoopHead} {body : Stmt} (hIn : .loop site head body ∈ s.piece.tree.nodes)
    {maxLevels : Nat} {rs : List (String × ReduceOp)}
    (hSafe : (Stmt.loop site head body).parallelVerdict maxLevels = .safe rs) (known : List Expr) :
    Stmt.TurnsApart c s.supply.used known head body := by
  refine Stmt.apart_of_safe (Stmt.nodup_loopIds (Stmt.nodup_ids_of_mem h.tidy.ids hIn))
    (h.tidy.locals site head body hIn) (h.tidy.noDeps site head body hIn) hSafe ?_ known
  intro b hReads
  refine h.tidy.used b (Stmt.usedNames_subset hIn ?_)
  exact (hReads.of_mem (by simp [Stmt.self_mem_nodes])).mem_usedNames

/-- **One loop** is lowered. -/
theorem lowerLoop_lowered (target : Target) (h : Lowered c own env m m' (p :: rest) s)
    (hPending : Pending s.piece.next (p :: rest) s.piece.tree)
    (hEq : lowerLoop target true s p = .ok s') :
    Lowered c own env m m' rest s' ∧ Pending s'.piece.next rest s'.piece.tree := by
  unfold lowerLoop at hEq
  cases hLoop : loopNumbered? s.piece p with
  | none =>
    rw [hLoop] at hEq
    cases hEq
    refine ⟨h.settle fun site head body known hIn hId => ?_, hPending.tail⟩
    have hFound := loopNumbered?_of_mem (l := ⟨site, head, body⟩) h.tidy.ids hIn
    rw [show site.id = p from hId, hLoop] at hFound
    cases hFound
  | some l =>
    rw [hLoop] at hEq
    dsimp only at hEq
    obtain ⟨hMem, rfl⟩ := Stmt.mem_of_find? (loopNumbered?_eq_some hLoop)
    cases hVerdict : l.stmt.parallelVerdict defaultLevels with
    | blocked d =>
      rw [hVerdict] at hEq
      cases hEq
    | safe rs =>
      rw [hVerdict] at hEq
      dsimp only at hEq
      rw [if_pos rfl] at hEq
      have hOnly : ∀ x ∈ s.piece.tree.nodes, x.id = l.stmt.id → x = l.stmt := fun x hx hId =>
        List.inj_on_of_nodup_map h.tidy.ids hx hMem hId
      have hInto := reducesInto_body_of_verdict hVerdict
      have hNames : ∀ r ∈ rs, r.1 ∈ s.supply.used := by
        intro r hr
        refine h.tidy.used _ (Stmt.usedNames_subset hMem ?_)
        exact ((hInto r hr).writes.of_mem
          (by simp [LabelledLoop.stmt, Stmt.self_mem_nodes])).mem_usedNames
      have hSettled : Lowered c own env m m' rest s :=
        h.settle fun site head body known hIn hId =>
          h.apart_of_safe hIn (hOnly _ hIn hId ▸ hVerdict) known
      have hMoving : Moving own s.supply.used l.stmt.id [] rs s.piece.tree := by
        refine ⟨fun site n b body hDecl hBelow => ?_, fun site head body hIn hId r hr _ => ?_⟩
        · exact .inl (h.hosts _ List.mem_cons_self site n b body hDecl hBelow)
        · cases hOnly _ hIn hId
          exact hInto r hr
      obtain ⟨hLowered, hNow⟩ := moveReductions_lowered target.space rs [] 0 s hSettled hPending
        (fun _ hx => hx) hNames hMoving s' hEq
      exact ⟨hLowered, hNow.tail⟩

/-- **All loops** are lowered: by induction on the loops that are still to come. -/
theorem foldlM_lowerLoop_lowered (target : Target) :
    ∀ (rest : List Nat) (s s' : State Draft), Lowered c own env m m' rest s →
      Pending s.piece.next rest s.piece.tree →
      rest.foldlM (lowerLoop target true) s = .ok s' → Lowered c own env m m' [] s' := by
  intro rest
  induction rest with
  | nil =>
    intro s s' h _ hEq
    cases hEq
    exact h
  | cons p rest ih =>
    intro s s' h hPending hEq
    rw [List.foldlM_cons] at hEq
    obtain ⟨next, hFirst, hEq⟩ := Outcome.bind_eq_ok.mp hEq
    obtain ⟨hNow, hRest⟩ := lowerLoop_lowered target h hPending hFirst
    exact ih next s' hNow hRest hEq

end lowered

/-- **Lowered reductions**: when a tidy program with pure reductions is lowered, the new program goes
    on to its end in every order of the iterations of its parallel loops, and it always leaves the
    memory of a sequential run of the old program that stays inside the declared buffers. -/
theorem settles_of_lowered {target : Target} {d d' : Draft} {count : Nat} {fresh : Memory} {env : Env}
    {m m' : Memory} (hTidy : d.tree.Tidy d.tree.usedNames d.tree.usedNames d.next)
    (hPure : d.tree.PureReductions d.tree.usedNames)
    (hRun : d.tree.StaysWithin d.tree.usedNames (.reference fresh) (fun _ => none) env m m')
    (hLowered : lowerReductions target true d = .ok (d', count)) :
    d'.tree.Settles fresh env m m' := by
  unfold lowerReductions at hLowered
  obtain ⟨s, hFold, hEq⟩ := Outcome.bind_eq_ok.mp hLowered
  cases hEq
  have hStart : Lowered (.reference fresh) d.tree.usedNames env m m'
      ((d.tree.nodes.filter Stmt.isParallelLoop).map Stmt.id).reverse
      ⟨d, ⟨d.tree.usedNames⟩, 0⟩ := by
    refine ⟨hTidy, fun _ hx => hx, hPure, fun q _ s n b body hDecl _ => ?_, ?_, hRun⟩
    · exact Stmt.mem_usedNames.mpr ⟨_, hDecl, .inl (by simp [Stmt.ownNames])⟩
    · -- all parallel loops are still to come
      refine Stmt.unordered_of_apart _ _ fun s head body known hLoop hParallel hNot => absurd ?_ hNot
      rw [List.mem_reverse]
      exact List.mem_map.mpr ⟨_, List.mem_filter.mpr ⟨hLoop, hParallel⟩, rfl⟩
  have hEnd := foldlM_lowerLoop_lowered target _ _ s hStart (Pending.start hTidy.ids hTidy.old) hFold
  exact Stmt.settles_of_unordered _ _ env m m' hEnd.unordered hEnd.tidy.steady
    (fun _ he => by cases he) (fun _ he => by cases he) (Stmt.change_of_staysWithin _ _ _ _ _ hEnd.runs)

/-- Adds an element of a table to `y`. -/
def tableStore : Stmt :=
  .store ⟨3, none⟩ "y" [.int 0] (.add (.load "y" [.int 0]) (.load "x" [.var "i", .var "j"]))

/-- A parallel loop over a row of the table. -/
def tableRow : Stmt := .loop ⟨2, some "L2"⟩ (parallelHead "j" 2) tableStore

/-- The sum of a table, with parallel loops over the rows and over the columns. -/
def tableSum : Stmt :=
  .decl ⟨0, none⟩ "y" ⟨[.int 1], .int32, .inout, .cpu⟩
    (.loop ⟨1, some "L1"⟩ (parallelHead "i" 2) tableRow)

theorem mem_nodes_tableSum {u : Stmt} : u ∈ tableSum.nodes ↔ u = tableSum
    ∨ u = .loop ⟨1, some "L1"⟩ (parallelHead "i" 2) tableRow ∨ u = tableRow ∨ u = tableStore := by
  simp [tableSum, tableRow, tableStore]

theorem loop_mem_tableSum {s : Site} {h : LoopHead} {body : Stmt}
    (hLoop : .loop s h body ∈ tableSum.nodes) : (h = parallelHead "i" 2 ∧ body = tableRow)
      ∨ (h = parallelHead "j" 2 ∧ body = tableStore) := by
  rcases mem_nodes_tableSum.mp hLoop with hEq | hEq | hEq | hEq
  · cases hEq
  · cases hEq
    exact .inl ⟨rfl, rfl⟩
  · cases hEq
    exact .inr ⟨rfl, rfl⟩
  · cases hEq

/-- The store is all that the loops do with `y`. -/
theorem onlyReduces_tableRow : tableRow.OnlyReduces "y" .add := by
  intro u hu
  have hu : u = tableRow ∨ u = tableStore := by simpa [tableRow, tableStore] using hu
  rcases hu with rfl | rfl
  · exact .inr ⟨by decide, fun _ _ _ hEq => by cases hEq⟩
  · exact .inl ⟨_, _, _, _, rfl, rfl, by decide⟩

theorem tidy_tableSum : tableSum.Tidy tableSum.usedNames tableSum.usedNames 4 := by
  have hBinds : ∀ x, tableRow.Binds x → x = "j" := by
    rintro x ⟨s, h, body, hMem, rfl⟩
    have hMem : Stmt.loop s h body = tableRow := by simpa [tableRow, tableStore] using hMem
    cases hMem
    rfl
  refine ⟨by decide +kernel, by decide +kernel, fun _ hx => hx, ⟨?_, ?_, ?_⟩, ?_, ?_, ?_, ?_⟩
  · intro u hu x hx w hw hBelow
    rcases mem_nodes_tableSum.mp hu with rfl | rfl | rfl | rfl
    · -- the declaration uses no scalar
      simp [Stmt.OwnScalar, tableSum, Stmt.exprs, Stmt.head?, Expr.scalars, Expr.parts,
        Expr.scalar?] at hx
    · obtain rfl : w = tableRow := by simpa [Stmt.children] using hw
      obtain rfl := hBinds x hBelow
      simp [Stmt.OwnScalar, Stmt.exprs, Stmt.head?, parallelHead, Expr.scalars, Expr.parts,
        Expr.scalar?] at hx
    · obtain rfl : w = tableStore := by simpa [Stmt.children, tableRow] using hw
      simp [Stmt.Binds, tableStore] at hBelow
    · cases hw
  · rintro u hu b _ w hw ⟨s, buffer, body, hMem⟩
    have hBelow : Stmt.decl s b buffer body ∈ u.inside := List.mem_flatMap.mpr ⟨w, hw, hMem⟩
    rcases mem_nodes_tableSum.mp hu with rfl | rfl | rfl | rfl <;>
      simp [Stmt.inside, Stmt.children, tableSum, tableRow, tableStore] at hBelow
  · intro s h body hLoop
    rcases loop_mem_tableSum hLoop with ⟨rfl, rfl⟩ | ⟨rfl, rfl⟩ <;> decide
  · intro s h body hLoop
    rcases loop_mem_tableSum hLoop with ⟨rfl, rfl⟩ | ⟨rfl, rfl⟩ <;> rfl
  · intro s h body hLoop
    rcases loop_mem_tableSum hLoop with ⟨rfl, rfl⟩ | ⟨rfl, rfl⟩ <;> rfl
  · intro s h body hLoop _ e he b hb
    rcases loop_mem_tableSum hLoop with ⟨rfl, rfl⟩ | ⟨rfl, rfl⟩ <;>
      simp [parallelHead] at he <;> rcases he with rfl | rfl <;> cases hb
  · intro s n b body hDecl _ e he
    rcases mem_nodes_tableSum.mp hDecl with hEq | hEq | hEq | hEq <;> cases hEq
    obtain rfl := List.mem_singleton.mp he
    rfl

theorem pure_tableSum : tableSum.PureReductions tableSum.usedNames := by
  intro s h body hLoop _ b _ _ op hInto
  have hMem : tableStore ∈ tableRow.nodes := by simp [tableRow, Stmt.self_mem_nodes]
  have hOnly : body.OnlyReduces "y" .add := by
    rcases loop_mem_tableSum hLoop with ⟨rfl, rfl⟩ | ⟨rfl, rfl⟩
    · exact onlyReduces_tableRow
    · exact onlyReduces_tableRow.of_mem hMem
  obtain ⟨site, is, v, rhs, hStore, hReduction⟩ := hInto
  have hHere : Stmt.store site b is v = tableStore := by
    rcases loop_mem_tableSum hLoop with ⟨rfl, rfl⟩ | ⟨rfl, rfl⟩ <;>
      simpa [tableRow, tableStore] using hStore
  cases hHere
  cases hReduction
  exact hOnly

/-- From memories with ones in `x` and a small number in `y`, the runs of a part of the program stay
    inside `y` and add to that number. -/
def AddsToTable (t : Stmt) (k : Int) : Prop :=
  ∀ (env : Env) (m : Memory) (v : Int), m "x" = (fun _ => some 1) → m "y" [0] = some v → 0 ≤ v →
    v + k ≤ 5 → ∃ m', t.StaysWithin tableSum.usedNames (.reference .blank)
        (Limits.set (fun _ => none) "y" ⟨[1], -2147483648, 2147483647⟩) env m m'
      ∧ m' "x" = (fun _ => some 1) ∧ m' "y" [0] = some (v + k)

theorem addsToTable_store : AddsToTable tableStore 1 := by
  intro env m v hx hy hLow hHigh
  refine ⟨m.put "y" [0] (v + 1), ⟨[0], v + 1, rfl, ?_, fun l hl => ?_, rfl⟩, ?_, by simp⟩
  · simp [Expr.add, Expr.value?, Expr.values?, hx, hy, BinaryOp.value?]
  · rw [Limits.set_self, Option.some.injEq] at hl
    subst hl
    exact ⟨by simp [Limit.Contains], by dsimp only; omega, by dsimp only; omega⟩
  · rw [Memory.put_ne_buffer (by decide), hx]

/-- A loop with two iterations adds twice. -/
theorem addsToTable_loop {t : Stmt} {k : Int} (h : AddsToTable t k) (hk : 0 ≤ k) (s : Site)
    (iter : String) : AddsToTable (.loop s (parallelHead iter 2) t) (k + k) := by
  intro env m v hx hy hLow hHigh
  obtain ⟨first, hFirst, hx, hy⟩ := h (env.set iter 0) m v hx hy hLow (by omega)
  obtain ⟨last, hLast, hx, hy⟩ := h (env.set iter 1) first (v + k) hx hy (by omega) (by omega)
  refine ⟨last, ⟨0, 2, rfl, rfl, first, hFirst, last, hLast, rfl⟩, hx, ?_⟩
  rw [hy, Int.add_assoc]

/-- A run that adds up four ones stays inside `y`. -/
theorem staysWithin_tableSum : ∃ m', tableSum.StaysWithin tableSum.usedNames (.reference .blank)
    (fun _ => none) (fun _ => 0) (fun _ _ => some 1) m' ∧ m' "y" [0] = some 5 := by
  have hLoops := addsToTable_loop (addsToTable_loop addsToTable_store (by decide) ⟨2, some "L2"⟩ "j")
    (by decide) ⟨1, some "L1"⟩ "i"
  obtain ⟨m', hRun, _, hy⟩ := hLoops (fun _ => 0) (fun _ _ => some 1) 1 rfl rfl (by decide) (by decide)
  refine ⟨m', ⟨Limits.set (fun _ => none) "y" ⟨[1], -2147483648, 2147483647⟩, ?_⟩, hy⟩
  rw [if_neg (by decide)]
  refine ⟨?_, hRun⟩
  have hOwn : "y" ∈ tableSum.usedNames := by decide +kernel
  unfold Limits.Enter
  rw [if_pos hOwn]
  exact ⟨_, rfl, fun _ _ => ⟨1, rfl, by decide, by decide⟩, rfl⟩

/-- Both loops get a workspace, and the sum is right in every order. -/
theorem tableSum_settles : ∃ (d : Draft) (m' : Memory),
    lowerReductions .cpu true (⟨tableSum, 4⟩ : Draft) = .ok (d, 2) ∧ m' "y" [0] = some 5
    ∧ d.tree.Settles .blank (fun _ => 0) (fun _ _ => some 1) m' := by
  have hCount : (lowerReductions .cpu true (⟨tableSum, 4⟩ : Draft)).toOption.map (·.2) = some 2 := by
    decide +kernel
  cases hLowered : lowerReductions .cpu true (⟨tableSum, 4⟩ : Draft) with
  | error c =>
    rw [hLowered] at hCount
    cases hCount
  | ok r =>
    obtain ⟨d, count⟩ := r
    rw [hLowered] at hCount
    cases hCount
    obtain ⟨m', hRun, hSum⟩ := staysWithin_tableSum
    exact ⟨d, m', rfl, hSum,
      settles_of_lowered (d := ⟨tableSum, 4⟩) tidy_tableSum pure_tableSum hRun hLowered⟩

/-- A parallel loop that adds to four cells of `y` in every iteration and then stores one of them:
    each cell belongs to the sums of two iterations. -/
def runningSums : Stmt :=
  .decl ⟨0, none⟩ "y" ⟨[.int 7], .int32, .inout, .cpu⟩
    (.decl ⟨1, none⟩ "z" ⟨[.int 2], .int32, .output, .cpu⟩
      (.loop ⟨2, some "L1"⟩ (parallelHead "i" 2)
        (.block ⟨3, none⟩ [
          .loop ⟨4, none⟩ { iter := "k", lower := .mul (.var "i") (.int 3)
                            upper := .add (.mul (.var "i") (.int 3)) (.int 4) }
            (.store ⟨5, none⟩ "y" [.var "k"] (.add (.load "y" [.var "k"]) (.load "x" [.var "i"]))),
          .store ⟨6, none⟩ "z" [.var "i"]
            (.load "y" [.add (.mul (.var "i") (.int 3)) (.int 1)])])))

/-- The sums go to the workspace, and `z` gets what was in `y` before the loop. -/
theorem runningSums_not_preserved :
    ∃ d, lowerReductions .cpu true (Draft.of runningSums.number) = .ok (d, 1)
      ∧ (runningSums.number.run .blank (fun _ => 0) fun _ _ => some 1).map (·.1 "z" [0])
          = some (some 2)
      ∧ ∃ m', d.tree.MayLeave .blank (fun _ => 0) (fun _ _ => some 1) m'
          ∧ m' "z" [0] = some 1 := by
  have hLowered : (lowerReductions .cpu true (Draft.of runningSums.number)).toOption.map
      (fun r => (r.2, (r.1.tree.run .blank (fun _ => 0) fun _ _ => some 1).map (·.1 "z" [0])))
        = some (1, some (some 1)) := by decide +kernel
  cases hReductions : lowerReductions .cpu true (Draft.of runningSums.number) with
  | error c =>
    rw [hReductions] at hLowered
    cases hLowered
  | ok r =>
    obtain ⟨d, count⟩ := r
    rw [hReductions] at hLowered
    obtain ⟨rfl, hRun⟩ := Prod.mk.inj (Option.some.inj hLowered)
    obtain ⟨⟨m', ws⟩, hRun, hContent⟩ := Option.map_eq_some_iff.mp hRun
    exact ⟨d, rfl, by decide +kernel, m', Stmt.mayLeave_of_run hRun, hContent⟩

end LoopNest.Lower

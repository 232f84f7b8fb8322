import LoopNest.Proofs.ClearedLoops
import LoopNest.Proofs.FitPrograms

/-! # Schedules keep what a program does

  Accepted commands follow each other, and each of them may rely only on what those before it have left.
  A program that is committed, cleanly named and fit stays so, and these are all conditions under which
  a command keeps what a program does.

  * **Commands**: an accepted command leaves a program that runs like the one before
    (`Command.Made.runsLike`). Permuted dimensions change what local buffers hold at first, so it
    may be another start that the program before runs from.
  * **Schedules**: a whole run of commands, accepted or rejected, keeps what the first program does
    (`Schedule.Sustained.attempt`).
  * **All orders**: when parallel loops are checked again after every command, the last program leaves
    in any order of their iterations what the first one leaves (`Schedule.attempt_preserves`). -/

namespace LoopNest

variable {q : Option Int}

/-! ## Running like another program -/

namespace Stmt

/-- Whatever local buffers hold at first, the second program runs like the first one for some first
    contents. -/
def RunsLike (q : Option Int) (t t' : Stmt) : Prop :=
  ∀ c' : Conventions, c'.Full → c'.quotient = q →
    ∃ c : Conventions, c.Full ∧ c.quotient = q ∧ ∀ env, (t.change c env).Alike (t'.change c' env)

namespace RunsLike

variable {t t' u : Stmt}

theorem of_alike
    (h : ∀ c : Conventions, c.Full → c.quotient = q → ∀ env, (t.change c env).Alike (t'.change c env)) :
    t.RunsLike q t' := fun c hFull hQuotient => ⟨c, hFull, hQuotient, h c hFull hQuotient⟩

theorem refl (q : Option Int) (t : Stmt) : t.RunsLike q t := .of_alike fun _ _ _ _ => .refl _

theorem trans (h : t.RunsLike q u) (h' : u.RunsLike q t') : t.RunsLike q t' := by
  intro c' hFull' hQuotient'
  obtain ⟨d, hFull, hQuotient, hSecond⟩ := h' c' hFull' hQuotient'
  obtain ⟨c, hFull, hQuotient, hFirst⟩ := h d hFull hQuotient
  exact ⟨c, hFull, hQuotient, fun env => (hFirst env).trans (hSecond env)⟩

end RunsLike

/-- Runs do not depend on the numbers of statements. -/
theorem change_numberFrom (c : Conventions) :
    ∀ (t : Stmt) (n : Nat) (env : Env), (t.numberFrom n).1.change c env = t.change c env := by
  refine Stmt.ind ?decl ?loop ?guard ?branch ?store ?call ?block ?hole
  case decl =>
    intro s name b body ih n env
    rw [numberFrom, change_decl, change_decl, ih]
  case loop =>
    intro s head body ih n env
    funext m
    rw [numberFrom, change_loop, change_loop]
    simp only [ih]
  case guard =>
    intro s e body ih n env
    funext m
    rw [numberFrom, change_guard, change_guard, ih]
  case branch =>
    intro s e yes no ihYes ihNo n env
    funext m
    rw [numberFrom, change_branch, change_branch, ihYes, ihNo]
  case store =>
    intro s b is v n env
    funext m
    rw [numberFrom, change_store, change_store]
  case call =>
    intro s f args n env
    rw [numberFrom, change_call, change_call]
  case block =>
    intro s ts ih n env
    rw [numberFrom, change_block, change_block]
    congr 1
    generalize n + 1 = k
    induction ts generalizing k with
    | nil => rfl
    | cons t ts ihList =>
      rw [numberAllFrom, List.map_cons, List.map_cons, ih t List.mem_cons_self k env,
        ihList fun u hu => ih u (List.mem_cons_of_mem t hu)]
  case hole =>
    intro s n env
    rw [numberFrom, change_hole, change_hole]

theorem runsLike_number (t : Stmt) : t.RunsLike q t.number :=
  .of_alike fun c _ _ env m _ => (congrFun (change_numberFrom c t 0 env) m).symm

/-! ## Names around loops -/

variable {t u : Stmt} {bound around : List Symbol}

/-- What is inside a scoped statement is scoped, too. -/
theorem Scoped.of_mem : ∀ {t : Stmt} {around : List Symbol}, t.Scoped bound around →
    ∀ u ∈ t.nodes, ∃ deeper, u.Scoped bound deeper := by
  intro t
  induction t using children_ind with
  | step t ih =>
    intro around h u hu
    rw [nodes_eq_cons, List.mem_cons] at hu
    rcases hu with rfl | hu
    · exact ⟨around, h⟩
    · obtain ⟨w, hw, hu⟩ := List.mem_flatMap.mp hu
      exact ih w hw (h.inner w hw) u hu

/-- In a cleanly named program no scalar of a bound is set in the loop. -/
theorem CleanlyNamed.not_binds (h : t.CleanlyNamed) {s : Site} {head : LoopHead} {body : Stmt}
    (hLoop : Stmt.loop s head body ∈ t.nodes) {e : Expr} (he : e ∈ [head.lower, head.upper])
    {x : String} (hx : x ∈ e.scalars) : ¬ (Stmt.loop s head body).Binds x := by
  intro hBinds
  obtain ⟨around, hScoped⟩ := Scoped.of_mem h _ hLoop
  have hMem := scalar_mem_binders.mpr hBinds
  have hAround : .scalar x ∈ around :=
    hScoped.expr he _ (Expr.mem_symbols_scalar.mpr hx) (binders_subset hLoop hMem)
  exact hScoped.not_mem_around _ hMem hAround

end Stmt

/-! ## Commands -/

namespace Restructure

open Stmt (LabelledLoop)

variable {t t' : Stmt} {k : Nat}

/-- In a cleanly named program the loops of a chain have different iterators. -/
theorem iters_nodup (hNames : t.CleanlyNamed) (hIds : t.ids.Nodup) :
    ∀ (rest : List LabelledLoop) (outer : LabelledLoop), nested (outer :: rest) = true →
      (∀ l ∈ outer :: rest, l.stmt ∈ t.nodes) → ((outer :: rest).map (·.head.iter)).Nodup := by
  intro rest
  induction rest with
  | nil => exact fun _ _ _ => List.nodup_singleton _
  | cons inner rest ih =>
    intro outer hNested hMem
    have hInside := mem_of_nested hIds (inner :: rest) outer hNested hMem
    refine List.nodup_cons.mpr ⟨fun hAgain => ?_,
      ih inner (Bool.and_eq_true_iff.mp hNested).2 fun l hl => hMem l (List.mem_cons_of_mem outer hl)⟩
    obtain ⟨l, hl, hIter⟩ := List.mem_map.mp hAgain
    have hBinds : outer.body.Binds outer.head.iter := ⟨_, _, _, hInside l hl, hIter⟩
    exact hNames.not_mem_binders hIds (hMem outer List.mem_cons_self) rfl
      (by simp [LabelledLoop.stmt, Stmt.children]) (Stmt.scalar_mem_binders.mpr hBinds)

/-- **Reordering** loops of a cleanly named, fit program. -/
theorem runsLike_reorder {labels : List String} (hCommitted : t.Committed) (hNames : t.CleanlyNamed)
    (hFit : t.Fit q false) (h : reorder k t labels = .ok t') : t.RunsLike q t' := by
  have hIds := hCommitted.sound.ids
  rcases reorder_cases h with rfl | ⟨outer, rest, order, nest, hReordered⟩
  · exact .refl q t'
  · have hMem := hReordered.mem_nodes
    have hTidy : ∀ l ∈ outer :: rest, Tidy l := by
      intro l hl
      obtain ⟨hHead, hLocals⟩ := hFit.loop (hMem l hl)
      have hFree : ∀ e ∈ [l.head.lower, l.head.upper], e.mentions l.head.iter = false := by
        intro e he
        refine Bool.eq_false_iff.mpr fun hMentions => ?_
        exact hNames.not_binds (hMem l hl) he (Expr.mentions_iff.mp hMentions)
          ⟨_, _, _, Stmt.self_mem_nodes _, rfl⟩
      exact ⟨Stmt.everywhere_loop.mpr ⟨rfl, hLocals⟩, hHead.noDeps, hFree _ (by simp),
        hFree _ (by simp)⟩
    refine .of_alike fun c hFull hQuotient env => ?_
    subst hQuotient
    refine hReordered.change_alike hIds (fun w hw => hCommitted.sound.old _ (List.mem_map_of_mem hw))
      hFull (iters_nodup hNames hIds rest outer hReordered.nested hMem) hTidy fun l hl => ?_
    have hHead := (hFit.loop (hMem l hl)).1
    exact ⟨(hHead.defined _ (by simp)).on _, (hHead.defined _ (by simp)).on _, fun s e body hGuard =>
      (hFit.guard (Stmt.mem_nodes_trans hGuard (hMem l hl))).on _⟩

end Restructure

/-- **Commands**: what an accepted command makes of a cleanly named, fit program runs like it. -/
theorem Command.Made.runsLike {t t' : Stmt} {k : Nat} (h : Made k t t') (hCommitted : t.Committed)
    (hNames : t.CleanlyNamed) (hFit : t.Fit q false) : t.RunsLike q t' := by
  have hIds := hCommitted.sound.ids
  cases h with
  | reorder hReorder => exact Restructure.runsLike_reorder hCommitted hNames hFit hReorder
  | split hArgs hConstant hSplit =>
    refine .of_alike fun c _ _ env m _ =>
      (congrFun (Restructure.change_split hIds hArgs hConstant hSplit (fun l hFound e he => ?_) env)
        m).symm
    have hLoop := Stmt.mem_of_loopAt hFound
    exact ⟨(hFit.loop hLoop).1.loads e he, fun x hx hBinds =>
      hNames.not_binds hLoop he hx (Stmt.binds_loop.mpr (.inr hBinds))⟩
  | @parallelize label tag hParallelize =>
    obtain ⟨l, hFound, rfl⟩ := Restructure.parallelize_cases hParallelize
    have hReplaces := Stmt.replaces_update (u := l.stmt)
      (v := .loop l.site { l.head with mode := .parallel tag } l.body) t hIds
      (Stmt.mem_of_loopAt hFound)
    refine .of_alike fun c _ _ env m _ => (congrFun (hReplaces.change_eq (fun env' => ?_) env) m).symm
    -- the mode of a loop has no part in its run
    funext m
    rw [Stmt.LabelledLoop.stmt, Stmt.change_loop, Stmt.change_loop]
  | @fission label after a b hFission =>
    obtain ⟨⟨s, head, body⟩, site, first, second, hDistributed⟩ := Restructure.fission_cases hFission
    obtain rfl : body = .block site (first ++ second) := hDistributed.body
    have hLoop := Stmt.mem_of_loopAt hDistributed.found
    obtain ⟨hHead, hLocals⟩ := hFit.loop hLoop
    have hReplaces := Stmt.replaces_update (v := Restructure.twoLoops head a b first second) t hIds
      hLoop
    rw [hDistributed.result]
    refine .of_alike fun c _ _ env m _ => (congrFun (hReplaces.change_eq (fun env' => ?_) env) m).symm
    exact Restructure.change_distributed (Stmt.nodup_loopIds (Stmt.nodup_ids_of_mem hIds hLoop))
      hLocals hHead.noDeps hDistributed.free hDistributed.bounds _ _
  | varReorder hReorder =>
    intro c' hFull' hQuotient'
    obtain ⟨c, hFull, hQuotient, hAlike⟩ :=
      Restructure.change_varReorder hIds hCommitted.labels hNames hReorder hFull'
    exact ⟨c, hFull, hQuotient.trans hQuotient', hAlike⟩

/-! ## Schedules -/

namespace Schedule

/-- What a schedule keeps up from command to command: its program is committed, cleanly named and
    fit, and runs like the first one. -/
structure Sustained (q : Option Int) (first : Stmt) (s : Schedule) : Prop where
  committed : s.tree.Committed
  names : s.tree.CleanlyNamed
  fit : s.tree.Fit q false
  runs : first.RunsLike q s.tree

variable {first : Stmt} {s s' : Schedule} {registry : Registry} {c : Command} {cs : List Command}
  {report : Report}

/-- **One command**. -/
theorem Sustained.run (h : Sustained q first s) (hPlain : c.Plain)
    (hRun : s.run registry c = .ok (s', report)) : Sustained q first s' := by
  obtain ⟨t, hPerform, hLabels, rfl⟩ := run_eq_ok hRun
  have hMade := Command.made_of_perform hPlain hPerform
  have hSound := h.committed.sound
  exact {
    committed := Stmt.committed_number hLabels
    names := Stmt.cleanlyNamed_number
      (Command.cleanlyNamed_of_perform hPlain h.names hSound.ids hSound.old hPerform)
    fit := Stmt.keepsFit_number t false (hMade.keepsFit hSound.ids hSound.old false h.fit)
    runs := (h.runs.trans (hMade.runsLike h.committed h.names h.fit)).trans (Stmt.runsLike_number t) }

/-- **All commands**, accepted or rejected. -/
theorem Sustained.attempt (h : Sustained q first s) (registry : Registry)
    (hPlain : ∀ c ∈ cs, c.Plain) :
    Sustained q first (s.attempt registry cs) :=
  attempt_induction_mem h fun _ c hc _ _ hBefore hRun => hBefore.run (hPlain c hc) hRun

/-- The loops that run in parallel may do so when there are none at first and they are checked again
    after every command. -/
theorem safe_attempt (hRecheck : s.config.recheck = true)
    (hStart : ∀ site h body, Stmt.loop site h body ∈ s.tree.nodes → h.isParallel = false)
    (registry : Registry) (cs : List Command) :
    ∀ site h body, Stmt.loop site h body ∈ (s.attempt registry cs).tree.nodes → h.isParallel = true →
      ∃ rs, (Stmt.loop site h body).parallelVerdict s.config.maxLevels = .safe rs := by
  have hKept : (s.attempt registry cs).config = s.config ∧ ∀ site h body,
      Stmt.loop site h body ∈ (s.attempt registry cs).tree.nodes → h.isParallel = true →
        ∃ rs, (Stmt.loop site h body).parallelVerdict s.config.maxLevels = .safe rs := by
    refine attempt_induction (P := fun s' => s'.config = s.config ∧ ∀ site h body,
      Stmt.loop site h body ∈ s'.tree.nodes → h.isParallel = true →
        ∃ rs, (Stmt.loop site h body).parallelVerdict s.config.maxLevels = .safe rs)
      ⟨rfl, fun site h body hLoop hParallel => ?_⟩ (fun s' c next report hBefore hRun => ?_) cs
    · rw [hStart site h body hLoop] at hParallel
      cases hParallel
    · obtain ⟨t, _, hCommit, hNext⟩ := run_cases hRun
      rw [hBefore.1] at hCommit hNext
      exact ⟨by rw [hNext], fun site h body => safe_of_commit hRecheck hCommit⟩
  exact hKept.2

end Schedule

namespace Stmt

/-- A program to begin a schedule with.

    * **names**: it is cleanly named;
    * **floats**: it holds no float constants;
    * **sequential**, **noDeps**: no loop runs in parallel or has assertions;
    * **loads**: no bound reads a buffer;
    * **locals**: inside loops only local buffers are declared. -/
structure Schedulable (t : Stmt) : Prop where
  names : t.CleanlyNamed
  floats : ∀ u ∈ t.nodes, ∀ e ∈ u.exprs, e.hasFloat = false
  sequential : ∀ s h body, Stmt.loop s h body ∈ t.nodes → h.isParallel = false
  noDeps : ∀ s h body, Stmt.loop s h body ∈ t.nodes → h.noDeps = []
  loads : ∀ s h body, Stmt.loop s h body ∈ t.nodes → ∀ e ∈ [h.lower, h.upper], e.buffers = []
  locals : ∀ s h body, Stmt.loop s h body ∈ t.nodes → body.localsOnly = true

/-- The bounds of all loops and the conditions of all guards have values everywhere. -/
structure Determined (q : Option Int) (t : Stmt) : Prop where
  bounds : ∀ s h body, Stmt.loop s h body ∈ t.nodes → ∀ e ∈ [h.lower, h.upper], e.Defined q
  conds : ∀ s e body, Stmt.guard s e body ∈ t.nodes → e.Defined q

/-- A program is fit when its loops and conditions are. -/
theorem fit_of_nodes : ∀ {t : Stmt} {inside : Bool},
    (∀ s h body, Stmt.loop s h body ∈ t.nodes → h.Fit q ∧ body.localsOnly = true) →
    (∀ s e body, Stmt.guard s e body ∈ t.nodes → e.Defined q) →
    (inside = true → t.localsOnly = true) → t.Fit q inside := by
  intro t
  induction t using children_ind with
  | step t ih =>
    intro inside hLoops hConds hLocals
    have hSelf := self_mem_nodes t
    refine .intro ?_ fun u hu => ih u hu
      (fun s h body hLoop => hLoops s h body (mem_nodes_of_child hu hLoop))
      (fun s e body hGuard => hConds s e body (mem_nodes_of_child hu hGuard)) fun hInside => ?_
    · cases t with
      | decl s n b body =>
        exact fun hInside => of_decide_eq_true (everywhere_iff.mp (hLocals hInside) _ hSelf)
      | loop s h body => exact (hLoops s h body hSelf).1
      | guard s e body => exact hConds s e body hSelf
      | branch | store | call | block | hole => trivial
    · rcases Bool.or_eq_true_iff.mp hInside with hInside | hLoop
      · exact everywhere_of_mem (hLocals hInside) (mem_nodes_of_child hu (self_mem_nodes u))
      · cases t with
        | loop s h body =>
          rw [List.mem_singleton.mp hu]
          exact (hLoops s h body hSelf).2
        | _ => cases hLoop

theorem Schedulable.fit {t : Stmt} (h : t.Schedulable) (hDetermined : t.Determined q) :
    t.Fit q false :=
  fit_of_nodes (fun s head body hLoop => ⟨⟨h.noDeps s head body hLoop, h.loads s head body hLoop,
    hDetermined.bounds s head body hLoop⟩, h.locals s head body hLoop⟩) hDetermined.conds
    Bool.noConfusion

/-- Without float constants bounds and conditions have values when divisions by zero have one. -/
theorem Schedulable.determined {t : Stmt} (h : t.Schedulable) (v : Int) : t.Determined (some v) where
  bounds _ _ _ hLoop e he := .of_hasFloat (h.floats _ hLoop e he) v
  conds _ _ _ hGuard := .of_hasFloat (h.floats _ hGuard _ List.mem_cons_self) v

/-- A run that reads no element of a local buffer before it has written it, and divides by no zero,
    leaves the same memory whatever local buffers hold at first. -/
theorem change_of_blank {t : Stmt} {env : Env} {m before : Memory} (hm : m.Full)
    (hRun : (t.run .blank env m).map Prod.fst = some before) (c : Conventions) :
    t.change c env m = some before := by
  rw [← change_reference] at hRun
  exact change_of_extends (Conventions.extends_reference fun _ _ _ _ hNone => by cases hNone) hm hRun

end Stmt

namespace Schedule

variable {t : Stmt} {config : ScheduleConfig} {registry : Registry} {cs : List Command}
  {fresh m before : Memory} {env : Env}

/-- The last program of a schedule runs like the first one. -/
theorem change_attempt (config : ScheduleConfig) (registry : Registry) (hCommitted : t.Committed)
    (hSchedulable : t.Schedulable) (hDetermined : t.Determined q) (hPlain : ∀ c ∈ cs, c.Plain)
    (hm : m.Full) (hRun : (t.run .blank env m).map Prod.fst = some before) (c : Conventions)
    (hFull : c.Full) (hQuotient : c.quotient = q) :
    (({ tree := t, config } : Schedule).attempt registry cs).tree.change c env m = some before := by
  have hStart : Sustained q t { tree := t, config } :=
    ⟨hCommitted, hSchedulable.names, hSchedulable.fit hDetermined, .refl q t⟩
  obtain ⟨c', _, _, hAlike⟩ := (hStart.attempt registry hPlain).runs c hFull hQuotient
  rw [← hAlike env m hm]
  exact Stmt.change_of_blank hm hRun c'

/-- **Schedules keep results**: take a program without parallel loops and any commands, accepted or
    rejected, on a schedule that checks parallel loops again after every command. Let the first
    program read no element of a local buffer before it has written it, and divide by no zero. Then
    the last program leaves the memory of the first one in whatever order the parallel loops run their
    iterations, if it comes to its end. It comes to its end in every order when it does in the order
    of the program, and it does in this order when the bounds and conditions of the first program have
    values everywhere. -/
theorem attempt_preserves (hCommitted : t.Committed) (hSchedulable : t.Schedulable)
    (hRecheck : config.recheck = true) (registry : Registry) (hPlain : ∀ c ∈ cs, c.Plain)
    (hFresh : fresh.Full) (hm : m.Full) (hRun : (t.run .blank env m).map Prod.fst = some before) :
    let s := ({ tree := t, config } : Schedule).attempt registry cs
    (∀ after, s.tree.MayLeave fresh env m after → after = before)
      ∧ ((s.tree.run fresh env m).isSome = true → s.tree.Settles fresh env m before)
      ∧ (t.Determined none → (s.tree.run fresh env m).isSome = true) := by
  intro s
  have hStart : Sustained (some 0) t { tree := t, config } :=
    ⟨hCommitted, hSchedulable.names, hSchedulable.fit (hSchedulable.determined 0), .refl _ t⟩
  have hLast : Sustained (some 0) t s := hStart.attempt registry hPlain
  have hCleared : s.tree.Cleared config.maxLevels :=
    ⟨hLast.committed.sound.ids, fun _ _ _ hLoop => (hLast.fit.loop hLoop).1.noDeps,
      fun _ _ _ hLoop => (hLast.fit.loop hLoop).2,
      safe_attempt hRecheck hSchedulable.sequential registry cs⟩
  -- with a value for divisions by zero the last program runs like the first one
  have hSame : ∀ {after}, s.tree.change (.reference fresh) env m = some after → after = before := by
    intro after hAfter
    let total : Conventions := ⟨fun _ => fresh, some 0⟩
    have hTotal : total.Extends (.reference fresh) :=
      Conventions.extends_reference fun _ => .refl fresh
    have hBefore := change_attempt config registry hCommitted hSchedulable
      (hSchedulable.determined 0) hPlain hm hRun total (fun _ => hFresh) rfl
    exact Option.some.inj ((Stmt.change_of_extends hTotal hm hAfter).symm.trans hBefore)
  refine ⟨fun after hLeave => hSame (Stmt.change_of_mayLeave s.tree env hCleared m after hLeave),
    fun hEnds => ?_, fun hDetermined => ?_⟩
  · obtain ⟨⟨after, _⟩, hLast⟩ := Option.isSome_iff_exists.mp hEnds
    have hAfter : s.tree.change (.reference fresh) env m = some after := by
      rw [Stmt.change_reference, hLast]
      rfl
    rw [← hSame hAfter]
    exact Stmt.settles_of_cleared hCleared hAfter
  · have hAfter := change_attempt config registry hCommitted hSchedulable hDetermined hPlain hm hRun
      (.reference fresh) (fun _ => hFresh) rfl
    rw [Stmt.change_reference] at hAfter
    rw [← Option.isSome_map, hAfter]
    rfl

/-- Every row goes to a local buffer together with its double, and sums of the two are stored. -/
def blending : Stmt :=
  .loop ⟨0, some "L1"⟩ { iter := "i", lower := .int 0, upper := .int 4 }
    (.decl ⟨1, some "D"⟩ "tile" ⟨[.int 2, .int 6], .int32, .cache, .cpu⟩
      (.block ⟨2, none⟩ [
        .loop ⟨3, some "L2"⟩ { iter := "j", lower := .int 0, upper := .int 6 }
          (.block ⟨4, none⟩ [
            .store ⟨5, some "S"⟩ "tile" [.int 0, .var "j"] (.load "x" [.var "i", .var "j"]),
            .store ⟨6, none⟩ "tile" [.int 1, .var "j"]
              (.binary .mul (.int 2) (.load "x" [.var "i", .var "j"]))]),
        .loop ⟨7, some "L3"⟩ { iter := "k", lower := .int 0, upper := .int 4 }
          (.store ⟨8, none⟩ "y" [.var "i", .var "k"]
            (.add (.load "tile" [.int 0, .var "k"])
              (.load "tile" [.int 1, .add (.var "k") (.int 1)])))]))

/-- Commands of all kinds, the second of which is rejected. -/
def restyling : List Command :=
  [.varReorder "D" [1, 0], .reorder ["L2", "L1"], .fission "L2" "S",
    .split "L3" (some (.int 2)) none, .parallelize "L1" "openmp", .reorder ["L3.1", "L3.0"]]

/-- Loops count between numbers, one iteration after the other. -/
theorem blending_loop {s : Site} {h : LoopHead} {body : Stmt}
    (hLoop : Stmt.loop s h body ∈ blending.nodes) :
    h.isParallel = false ∧ h.noDeps = [] ∧ (∃ v, h.lower = .int v) ∧ (∃ v, h.upper = .int v)
      ∧ body.localsOnly = true := by
  simp only [blending, Stmt.nodes, Stmt.nodesAll, List.append_nil, List.mem_cons, List.not_mem_nil,
    or_false, reduceCtorEq, false_or, List.cons_append, List.nil_append, Stmt.loop.injEq] at hLoop
  rcases hLoop with ⟨_, rfl, rfl⟩ | ⟨_, rfl, rfl⟩ | ⟨_, rfl, rfl⟩
  all_goals exact ⟨rfl, rfl, ⟨_, rfl⟩, ⟨_, rfl⟩, rfl⟩

theorem blending_schedulable : blending.Schedulable where
  names := by decide +kernel
  floats := by decide +kernel
  sequential _ _ _ hLoop := (blending_loop hLoop).1
  noDeps _ _ _ hLoop := (blending_loop hLoop).2.1
  loads _ _ _ hLoop e he := by
    obtain ⟨_, _, ⟨v, hLower⟩, ⟨w, hUpper⟩, _⟩ := blending_loop hLoop
    rw [hLower, hUpper] at he
    rcases List.mem_pair.mp he with rfl | rfl
    all_goals rfl
  locals _ _ _ hLoop := (blending_loop hLoop).2.2.2.2

theorem blending_determined : blending.Determined none where
  bounds _ _ _ hLoop e he := by
    obtain ⟨_, _, ⟨v, hLower⟩, ⟨w, hUpper⟩, _⟩ := blending_loop hLoop
    rw [hLower, hUpper] at he
    rcases List.mem_pair.mp he with rfl | rfl
    all_goals exact .int _
  conds s e body hGuard := by
    simp [blending, Stmt.nodes, Stmt.nodesAll] at hGuard

theorem blending_restyled :
    let s := ({ tree := blending } : Schedule).attempt ⟨[]⟩ restyling
    blending.Committed ∧ blending.Schedulable ∧ (∀ c ∈ restyling, c.Plain)
      ∧ s.tree.labels = ["L1", "D", "L2.a", "S", "L2.b", "L3.1", "L3.0"]
      ∧ ∃ before, (blending.run .blank (fun _ => 0) fun _ _ => some 1).map Prod.fst = some before
        ∧ s.tree.Settles (fun _ _ => some 0) (fun _ => 0) (fun _ _ => some 1) before := by
  have hCommitted : blending.Committed := Stmt.committed_of_commit (t := blending) rfl
  have hPlain : ∀ c ∈ restyling, c.Plain := by
    intro c hc
    simp only [restyling, List.mem_cons, List.not_mem_nil, or_false] at hc
    rcases hc with rfl | rfl | rfl | rfl | rfl | rfl
    case inr.inr.inr.inl =>
      intro s hs
      cases hs
      decide
    all_goals trivial
  have hRun : ((blending.run .blank (fun _ => 0) fun _ _ => some 1).map Prod.fst).isSome = true := by
    decide +kernel
  obtain ⟨before, hBefore⟩ := Option.isSome_iff_exists.mp hRun
  have hFresh : Memory.Full fun _ _ => some 0 := fun _ _ => rfl
  refine ⟨hCommitted, blending_schedulable, hPlain, by cbv, before, hBefore, ?_⟩
  have hRecheck : ({} : ScheduleConfig).recheck = true := rfl
  obtain ⟨_, hSettles, hEnds⟩ := attempt_preserves hCommitted blending_schedulable hRecheck ⟨[]⟩
    hPlain hFresh (fun _ _ => rfl) hBefore
  exact hSettles (hEnds blending_determined)

/-- The two loops of `hollowOuter`. -/
theorem hollow_loop {s : Site} {h : LoopHead} {body : Stmt}
    (hLoop : Stmt.loop s h body ∈ Restructure.hollowOuter.stmt.nodes) :
    (h = Restructure.hollowOuter.head ∧ body = Restructure.hollowInner.stmt)
      ∨ (h = Restructure.hollowInner.head ∧ body = Restructure.hollowInner.body) := by
  simp only [Restructure.hollowOuter, Restructure.hollowInner, Stmt.LabelledLoop.stmt, Stmt.nodes,
    List.mem_cons, List.not_mem_nil, or_false, reduceCtorEq, Stmt.loop.injEq] at hLoop
  exact hLoop.imp (·.2) (·.2)

/-- The loops of `hollowOuter` change places, and then the program divides by `n`, which is 0. -/
theorem hollow_sticks :
    let s := ({ tree := Restructure.hollowOuter.stmt } : Schedule).attempt ⟨[]⟩ [.reorder ["L2", "L1"]]
    Restructure.hollowOuter.stmt.Committed ∧ Restructure.hollowOuter.stmt.Schedulable
      ∧ (Restructure.hollowOuter.stmt.run .blank (fun _ => 0) fun _ _ => some 0).map Prod.fst
        = some (fun _ _ => some 0)
      ∧ ∀ fresh after, ¬ s.tree.MayLeave fresh (fun _ => 0) (fun _ _ => some 0) after := by
  have hTree : (({ tree := Restructure.hollowOuter.stmt } : Schedule).attempt ⟨[]⟩
      [.reorder ["L2", "L1"]]).tree = Restructure.hollowSwapped.number := by cbv
  refine ⟨Stmt.committed_of_commit (t := Restructure.hollowOuter.stmt) rfl, ?_, rfl,
    fun fresh after hLeave => ?_⟩
  · constructor
    case names => decide +kernel
    case floats => decide +kernel
    all_goals
      intro s h body hLoop
      rcases hollow_loop hLoop with ⟨rfl, rfl⟩ | ⟨rfl, rfl⟩ <;> decide
  · rw [hTree] at hLeave
    obtain ⟨_, _, _, _, hUpper, _⟩ := hLeave
    cases hUpper

end Schedule

end LoopNest

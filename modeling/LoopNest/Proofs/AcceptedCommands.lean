import LoopNest.Proofs.RefinedLevels
import LoopNest.Schedule.Basic

/-! # Commands that are accepted at more levels

  A schedule of more refined levels asks the same questions and gets at least the same permissions
  (`RefinedLevels`), so it accepts every command that one of fewer levels accepts, and commits the same
  program.

  * **Commands**: what is carried out at some number of levels is carried out at every larger one.
  * **Schedules**: one accepted command, then all of a run (`Schedule.more_levels_accept`). -/

namespace LoopNest

/-! ## Commands -/

/-- A second step that succeeds wherever another one does may take its place. -/
theorem Outcome.bind_mono {α β : Type} {o : Outcome α} {f g : α → Outcome β} {r : β}
    (hStep : ∀ a, f a = .ok r → g a = .ok r) (h : o >>= f = .ok r) : o >>= g = .ok r := by
  obtain ⟨a, hFirst, hSecond⟩ := Outcome.bind_eq_ok.mp h
  exact Outcome.bind_eq_ok.mpr ⟨a, hFirst, hStep a hSecond⟩

theorem Outcome.map_mono {α β : Type} {o o' : Outcome α} {f : α → β} {r : β}
    (hStep : ∀ a, o = .ok a → o' = .ok a) (h : f <$> o = .ok r) : f <$> o' = .ok r := by
  cases o with
  | error c => cases h
  | ok a =>
    rw [hStep a rfl]
    exact h

namespace Restructure

variable {k k' : Nat} {t t' : Stmt}

theorem reorder_mono (hLevels : k ≤ k') {order : List String} (h : reorder k t order = .ok t') :
    reorder k' t order = .ok t' := by
  unfold reorder at h ⊢
  split at h
  · cases h
  · rename_i hSome
    rw [if_neg hSome]
    refine Outcome.bind_mono (fun named h => ?_) h
    dsimp only at h ⊢
    split at h
    · cases h
    · rename_i hNested
      rw [if_neg hNested]
      split at h
      · rename_i hSame
        rw [if_pos hSame]
        exact h
      · rename_i hOther
        rw [if_neg hOther]
        split at h
        · exact h
        · refine Outcome.bind_mono (fun _ h => ?_) h
          refine Outcome.bind_mono (fun nest h => ?_) h
          cases hObstacle : nest.stmt.reorderObstacle? k nest.levels
              (named.map fun l => List.findIdx (·.site.id == l.site.id)
                (named.mergeSort fun a b => depth t a ≤ depth t b)) with
          | some d =>
            rw [hObstacle] at h
            cases h
          | none =>
            rw [hObstacle] at h
            rw [Stmt.reorderObstacle?_mono hLevels hObstacle]
            exact h

theorem fission_mono (hLevels : k ≤ k') {label after : String} {r : Stmt × String × String}
    (h : fission k t label after = .ok r) : fission k' t label after = .ok r := by
  unfold fission at h ⊢
  refine Outcome.bind_mono (fun l h => ?_) h
  refine Outcome.bind_mono (fun parts h => ?_) h
  dsimp only at h ⊢
  split at h
  · cases h
  · cases hObstacle : l.stmt.fissionObstacle? k parts.1 parts.2 with
    | some d =>
      rw [hObstacle] at h
      cases h
    | none =>
      rw [hObstacle] at h
      rw [Stmt.fissionObstacle?_mono hLevels hObstacle]
      exact h

theorem parallelize_mono (hLevels : k ≤ k') {label tag : String}
    (h : parallelize k t label tag = .ok t') : parallelize k' t label tag = .ok t' := by
  unfold parallelize at h ⊢
  split at h
  · cases h
  · rename_i hTag
    rw [if_neg hTag]
    refine Outcome.bind_mono (fun l h => ?_) h
    cases hVerdict : l.stmt.parallelVerdict k with
    | blocked d =>
      rw [hVerdict] at h
      cases h
    | safe rs =>
      rw [hVerdict] at h
      obtain ⟨rs', hVerdict'⟩ := Stmt.safe_mono hLevels hVerdict
      rw [hVerdict']
      exact h

end Restructure

theorem Command.perform_mono {k k' : Nat} (hLevels : k ≤ k') {registry : Registry} {t : Stmt}
    {c : Command} {r : Stmt × Report} (h : c.perform registry k t = .ok r) :
    c.perform registry k' t = .ok r := by
  cases c with
  | reorder order => exact Outcome.map_mono (fun _ => Restructure.reorder_mono hLevels) h
  | parallelize l tag => exact Outcome.map_mono (fun _ => Restructure.parallelize_mono hLevels) h
  | fission l after => exact Outcome.map_mono (fun _ => Restructure.fission_mono hLevels) h
  | split | varReorder | inline => exact h

/-! ## Schedules -/

namespace Schedule

variable {k k' : Nat}

/-- The schedule with another number of refined levels. -/
def withLevels (s : Schedule) (k : Nat) : Schedule :=
  { s with config := { s.config with maxLevels := k } }

theorem recheckLoops_mono (hLevels : k ≤ k') {loops : List Stmt}
    (h : recheckLoops k loops = .ok ()) : recheckLoops k' loops = .ok () := by
  induction loops with
  | nil => rfl
  | cons lp rest ih =>
    rw [recheckLoops] at h ⊢
    split at h
    · rename_i hSequential
      rw [if_pos hSequential]
      exact ih h
    · rename_i hParallel
      rw [if_neg hParallel]
      cases hVerdict : lp.parallelVerdict k with
      | blocked d =>
        rw [hVerdict] at h
        cases h
      | safe rs =>
        rw [hVerdict] at h
        obtain ⟨rs', hVerdict'⟩ := Stmt.safe_mono hLevels hVerdict
        rw [hVerdict']
        exact ih h

theorem commit_mono (hLevels : k ≤ k') {config : ScheduleConfig} {t t' : Stmt}
    (h : commit { config with maxLevels := k } t = .ok t') :
    commit { config with maxLevels := k' } t = .ok t' := by
  unfold commit at h ⊢
  refine Outcome.bind_mono (fun u h => ?_) h
  dsimp only at h ⊢
  split at h
  · rename_i hRecheck
    rw [if_pos hRecheck]
    obtain ⟨⟨⟩, hLoops, hResult⟩ := Outcome.bind_eq_ok.mp h
    exact Outcome.bind_eq_ok.mpr ⟨(), recheckLoops_mono hLevels hLoops, hResult⟩
  · rename_i hTrust
    rw [if_neg hTrust]
    exact h

theorem answering_eq_ok {α : Type} {q : Request} {o : Outcome α} {r : α} :
    answering q o = .ok r ↔ o = .ok r := by
  cases o with
  | error c => constructor <;> (intro h; cases h)
  | ok a => constructor <;> (intro h; cases h; rfl)

/-- A command that is accepted is accepted when more levels are refined, with the same result. -/
theorem run_mono (hLevels : k ≤ k') {s s' : Schedule} {registry : Registry} {c : Command}
    {report : Report} (h : (s.withLevels k).run registry c = .ok (s', report)) :
    s' = s'.withLevels k
      ∧ (s.withLevels k').run registry c = .ok (s'.withLevels k', report) := by
  obtain ⟨⟨t, report'⟩, hPerform, h⟩ := Outcome.bind_eq_ok.mp (answering_eq_ok.mp h)
  obtain ⟨t', hCommit, h⟩ := Outcome.bind_eq_ok.mp h
  cases h
  refine ⟨rfl, answering_eq_ok.mpr (Outcome.bind_eq_ok.mpr ⟨(t, report), ?_, ?_⟩)⟩
  · exact Command.perform_mono hLevels hPerform
  · exact Outcome.bind_eq_ok.mpr ⟨t', commit_mono hLevels hCommit, rfl⟩

theorem replay_mono (hLevels : k ≤ k') {registry : Registry} {cs : List Command} :
    ∀ {s s' : Schedule}, (s.withLevels k).replay registry cs = .ok s' →
      (s.withLevels k').replay registry cs = .ok (s'.withLevels k') := by
  unfold replay
  induction cs with
  | nil =>
    intro s s' h
    cases h
    rfl
  | cons c cs ih =>
    intro s s' h
    rw [List.foldlM_cons] at h ⊢
    cases hRun : (s.withLevels k).run registry c with
    | error r =>
      rw [hRun] at h
      cases h
    | ok next =>
      obtain ⟨hNext, hRun'⟩ := run_mono hLevels hRun
      rw [hRun] at h
      rw [hRun']
      exact ih (by rw [← hNext]; exact h)

/-- **More refined levels accept more**: whatever the three checks let pass they let pass when more
    levels are refined, so commands that are accepted are accepted there too, and lead to the same
    program. -/
theorem more_levels_accept (hLevels : k ≤ k') :
    (∀ lp : Stmt, (lp.parallelVerdict k).isSafe = true → (lp.parallelVerdict k').isSafe = true)
    ∧ (∀ (scope : Stmt) (levels : List Level) (order : List Nat),
        scope.reorderObstacle? k levels order = none →
          scope.reorderObstacle? k' levels order = none)
    ∧ (∀ (lp : Stmt) (first second : List Stmt), lp.fissionObstacle? k first second = none →
        lp.fissionObstacle? k' first second = none)
    ∧ (∀ (s s' : Schedule) (registry : Registry) (c : Command) (report : Report),
        (s.withLevels k).run registry c = .ok (s', report) →
          (s.withLevels k').run registry c = .ok (s'.withLevels k', report))
    ∧ (∀ (s s' : Schedule) (registry : Registry) (cs : List Command),
        (s.withLevels k).replay registry cs = .ok s' →
          (s.withLevels k').replay registry cs = .ok (s'.withLevels k')) :=
  ⟨fun _ => Stmt.isSafe_mono hLevels, fun _ _ _ => Stmt.reorderObstacle?_mono hLevels,
    fun _ _ _ => Stmt.fissionObstacle?_mono hLevels, fun _ _ _ _ _ h => (run_mono hLevels h).2,
    fun _ _ _ _ => replay_mono hLevels⟩

/-- A nest that adds up a table. -/
def adding : Stmt :=
  .loop ⟨1, some "L1"⟩ { iter := "i", lower := .int 0, upper := .var "n" }
    (.loop ⟨2, some "L2"⟩ { iter := "j", lower := .int 0, upper := .var "m" }
      (.store ⟨3, none⟩ "sum" [] (.add (.load "sum" []) (.load "x" [.var "i", .var "j"]))))

/-- A row that is copied. -/
def copying : Stmt := .store ⟨6, some "S1"⟩ "y" [.var "k"] (.load "x" [.var "k", .int 0])

/-- The copy counted up. -/
def raising : Stmt := .store ⟨7, none⟩ "z" [.var "k"] (.add (.load "y" [.var "k"]) (.int 1))

/-- A loop over both. -/
def rows : Stmt :=
  .loop ⟨4, some "L3"⟩ { iter := "k", lower := .int 0, upper := .var "n" }
    (.block ⟨5, none⟩ [copying, raising])

/-- A program of both. -/
def chores : Schedule where
  tree := .block ⟨0, none⟩ [adding, rows]

/-- One loop is marked to run in parallel, then another one is split and the first checked again. -/
def orders : List Command :=
  [.parallelize "L3" "openmp", .split "L1" (some (.int 4)) none]

theorem chores_at_more_levels :
    1 ≤ 2 ∧ (rows.parallelVerdict 2).isSafe = true
      ∧ adding.reorderObstacle? 2 [⟨1, "i", none, []⟩, ⟨2, "j", none, []⟩] [1, 0] = none
      ∧ rows.fissionObstacle? 2 [copying] [raising] = none
      ∧ ∃ s, (chores.withLevels 2).replay {} orders = .ok s := by
  have hLevels : 1 ≤ 2 := by decide
  obtain ⟨hVerdict, hReorder, hFission, _, hReplay⟩ := more_levels_accept hLevels
  have hAccepted : ((chores.withLevels 1).replay {} orders).toOption.isSome = true := by
    decide +kernel
  refine ⟨hLevels, hVerdict _ (by decide +kernel), hReorder _ _ _ (by decide +kernel),
    hFission _ _ _ (by decide +kernel), ?_⟩
  cases hRun : (chores.withLevels 1).replay {} orders with
  | error r =>
    rw [hRun] at hAccepted
    cases hAccepted
  | ok s => exact ⟨_, hReplay _ _ _ _ hRun⟩

end Schedule

end LoopNest

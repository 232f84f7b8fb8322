import Mathlib.Data.List.Induction
import LoopNest.Proofs.AcceptedCommands
import LoopNest.Proofs.DistinctLabels
import LoopNest.Proofs.RefusedRequests
import LoopNest.Proofs.StrictTables

/-! # Committed programs

  A schedule holds a committed program: its statements are numbered in pre-order and its labels are
  different. No command can break that, since every transformation leaves labels different
  (`DistinctLabels`), so a command is never rejected when its result is committed.

  * **Commits**: a program is committed exactly when its labels are different
    (`Stmt.commit_eq_ok`), and then its table is strict (`Stmt.Committed.strict`).
  * **Schedules**: what an accepted command does (`Schedule.run_eq_ok`), and from it, for all runs,
    that the program stays committed (`Schedule.tables_stay_strict`) and that the history leads to
    it (`Schedule.replay_history`). -/

namespace LoopNest

/-! ## Commits -/

namespace Stmt

/-- Labels are repeated, or different and not seen before. -/
theorem repeated?_eq_none : ∀ {labels seen : List String},
    repeated? seen labels = none ↔ labels.Nodup ∧ ∀ l ∈ labels, l ∉ seen := by
  intro labels
  induction labels with
  | nil => simp [repeated?]
  | cons l labels ih =>
    intro seen
    rw [repeated?]
    by_cases hSeen : l ∈ seen
    · simp [hSeen]
    · rw [if_neg (by simpa using hSeen), ih, List.nodup_cons, List.forall_mem_cons]
      constructor
      · rintro ⟨hNodup, hOthers⟩
        exact ⟨⟨fun hMem => hOthers l hMem List.mem_cons_self, hNodup⟩, hSeen,
          fun l' hl' hMem => hOthers l' hl' (List.mem_cons_of_mem l hMem)⟩
      · rintro ⟨⟨hNew, hNodup⟩, _, hOthers⟩
        refine ⟨hNodup, fun l' hl' hMem => ?_⟩
        rcases List.mem_cons.mp hMem with rfl | hMem
        · exact hNew hl'
        · exact hOthers l' hl' hMem

/-- A committed program.

    * **ids**: it is numbered in pre-order;
    * **labels**: its labels are different. -/
structure Committed (t : Stmt) : Prop where
  ids : t.ids = List.range t.size
  labels : t.labels.Nodup

theorem Committed.strict {t : Stmt} (h : t.Committed) : t.toArena.Strict :=
  strict_toArena h.ids h.labels

/-- A committed program may be transformed. -/
theorem Committed.sound {t : Stmt} (h : t.Committed) : (Restructure.Draft.of t).Sound where
  ids := by
    show t.ids.Nodup
    rw [h.ids]
    exact List.nodup_range
  old i hi := List.mem_range.mp (h.ids ▸ hi)
  labels := h.labels

theorem committed_number {t : Stmt} (h : t.labels.Nodup) : t.number.Committed where
  ids := by
    have hSize : t.number.size = t.size := by
      rw [← List.length_range (n := t.size), ← ids_number, ids, List.length_map]
      rfl
    rw [ids_number, hSize]
  labels := by rwa [labels_number]

/-- A program is committed when its labels are different, and only then. -/
theorem commit_eq_ok {t t' : Stmt} : t.commit = .ok t' ↔ t.labels.Nodup ∧ t' = t.number := by
  have hRepeated : repeated? [] t.labels = none ↔ t.labels.Nodup := by
    rw [repeated?_eq_none]
    simp
  unfold commit
  cases h : repeated? [] t.labels with
  | none => simp [hRepeated.mp h, eq_comm]
  | some l =>
    have hNot : ¬ t.labels.Nodup := fun hNodup => by simp [hRepeated.mpr hNodup] at h
    simp [hNot]

theorem committed_of_commit {t t' : Stmt} (h : t.commit = .ok t') : t'.Committed := by
  obtain ⟨hLabels, rfl⟩ := commit_eq_ok.mp h
  exact committed_number hLabels

/-- A program that is read from a table is committed. -/
theorem committed_of_program? {a : Arena} {t : Stmt} (h : a.program? = .ok t) : t.Committed := by
  unfold Arena.program? at h
  split at h
  · cases h
  · exact committed_of_commit h

end Stmt

/-! ## Accepted and rejected commands -/

namespace Schedule

variable {s s' : Schedule} {registry : Registry} {c : Command} {report : Report}

/-- What is committed: the numbered program. Its labels are different, and its loops have been
    checked again if the schedule does that. -/
theorem commit_cases {config : ScheduleConfig} {t t' : Stmt} (h : commit config t = .ok t') :
    t.labels.Nodup ∧ t' = t.number
      ∧ (config.recheck = true → recheckLoops config.maxLevels t'.loops = .ok ()) := by
  obtain ⟨u, hNumber, h⟩ := Outcome.bind_eq_ok.mp h
  cases hEq : t.commit with
  | error e =>
    rw [hEq] at hNumber
    cases hNumber
  | ok v =>
    rw [hEq] at hNumber
    cases hNumber
    obtain ⟨hLabels, rfl⟩ := Stmt.commit_eq_ok.mp hEq
    dsimp only at h
    split at h
    · obtain ⟨⟨⟩, hRecheck, h⟩ := Outcome.bind_eq_ok.mp h
      cases h
      exact ⟨hLabels, rfl, fun _ => hRecheck⟩
    · rename_i hUnchecked
      cases h
      exact ⟨hLabels, rfl, fun hChecked => absurd hChecked hUnchecked⟩

/-- An accepted command is carried out and the result is committed. -/
theorem run_cases (h : s.run registry c = .ok (s', report)) :
    ∃ t, c.perform registry s.config.maxLevels s.tree = .ok (t, report)
      ∧ commit s.config t = .ok s'.tree ∧ s' = ⟨s'.tree, s.history ++ [c], s.config⟩ := by
  obtain ⟨⟨t, report'⟩, hPerform, h⟩ := Outcome.bind_eq_ok.mp (answering_eq_ok.mp h)
  obtain ⟨t', hCommit, h⟩ := Outcome.bind_eq_ok.mp h
  cases h
  exact ⟨t, hPerform, hCommit, rfl⟩

/-- An accepted command: it is carried out, the result is committed, and the command is the last one
    of the history. -/
theorem run_eq_ok (h : s.run registry c = .ok (s', report)) :
    ∃ t, c.perform registry s.config.maxLevels s.tree = .ok (t, report) ∧ t.labels.Nodup
      ∧ s' = ⟨t.number, s.history ++ [c], s.config⟩ := by
  obtain ⟨t, hPerform, hCommit, hNext⟩ := run_cases h
  obtain ⟨hLabels, hTree, _⟩ := commit_cases hCommit
  exact ⟨t, hPerform, hLabels, hTree ▸ hNext⟩

/-- A command is refused for what it asks for, or because a loop may no longer run in parallel, but
    never because its result has a label twice. -/
theorem run_fails (h : s.tree.Committed) (registry : Registry) (c : Command) :
    FailsWith (fun r => r.cause.IsNoRepetition) (s.run registry c) := by
  have hRecheck : ∀ loops : List Stmt,
      FailsWith Cause.IsNoRepetition (recheckLoops s.config.maxLevels loops) := by
    intro loops
    induction loops with
    | nil => exact .ok ()
    | cons lp rest ih =>
      rw [recheckLoops]
      split
      · exact ih
      · split
        · exact ih
        · exact .error trivial
  refine FailsWith.answering ((Command.perform_fails registry _ s.tree c).bind ?_)
  rintro ⟨t, report⟩ hPerform
  have hCommit : t.commit = .ok t.number :=
    Stmt.commit_eq_ok.mpr ⟨Command.labels_of_perform h.sound hPerform, rfl⟩
  refine FailsWith.bind ?_ fun _ _ => .ok _
  unfold commit
  rw [hCommit]
  refine FailsWith.bind (.ok _) fun u _ => ?_
  dsimp only
  split
  · exact (hRecheck _).bind fun _ _ => .ok _
  · exact .ok _

/-- One more command after others. -/
theorem attempt_append (s : Schedule) (registry : Registry) (cs : List Command) (c : Command) :
    s.attempt registry (cs ++ [c])
      = (((s.attempt registry cs).run registry c).toOption.map (·.1)).getD (s.attempt registry cs) := by
  unfold attempt
  rw [List.foldl_append, List.foldl_cons, List.foldl_nil]

theorem attempt_of_error {cs : List Command} {r : Rejection}
    (h : (s.attempt registry cs).run registry c = .error r) :
    s.attempt registry (cs ++ [c]) = s.attempt registry cs := by
  rw [attempt_append, h]
  rfl

theorem attempt_of_ok {cs : List Command}
    (h : (s.attempt registry cs).run registry c = .ok (s', report)) :
    s.attempt registry (cs ++ [c]) = s' := by
  rw [attempt_append, h]
  rfl

/-- What every accepted one of some commands keeps, a run of them keeps. -/
theorem attempt_induction_mem {P : Schedule → Prop} {cs : List Command} (hStart : P s)
    (hStep : ∀ s, ∀ c ∈ cs, ∀ s' report, P s → s.run registry c = .ok (s', report) → P s') :
    P (s.attempt registry cs) := by
  induction cs using List.reverseRecOn with
  | nil => exact hStart
  | append_singleton cs c ih =>
    have hBefore := ih fun s c hc => hStep s c (List.mem_append_left _ hc)
    cases hRun : (s.attempt registry cs).run registry c with
    | error r =>
      rw [attempt_of_error hRun]
      exact hBefore
    | ok p =>
      rw [attempt_of_ok hRun]
      exact hStep _ c (by simp) p.1 p.2 hBefore hRun

/-- What every accepted command keeps, any run keeps. -/
theorem attempt_induction {P : Schedule → Prop} (hStart : P s)
    (hStep : ∀ s c s' report, P s → s.run registry c = .ok (s', report) → P s') (cs : List Command) :
    P (s.attempt registry cs) :=
  attempt_induction_mem hStart fun s c _ => hStep s c

/-- **One command**: a committed program stays committed. -/
theorem committed_of_run (h : s.run registry c = .ok (s', report)) : s'.tree.Committed := by
  obtain ⟨t, _, hLabels, rfl⟩ := run_eq_ok h
  exact Stmt.committed_number hLabels

end Schedule

/-! ## Lowering -/

namespace Lower

open Restructure (Draft)

variable {target : Target} {registry : Registry} {steps : Steps} {t t' : Stmt}

/-- What is lowered is committed. -/
theorem committed_of_lower (h : lower target registry steps t = .ok t') : t'.Committed := by
  unfold lower at h
  dsimp only at h
  split at h
  all_goals
    obtain ⟨d, _, h⟩ := Outcome.bind_eq_ok.mp h
    obtain ⟨⟨⟩, _, h⟩ := Outcome.bind_eq_ok.mp h
    obtain ⟨⟨d', n⟩, _, h⟩ := Outcome.bind_eq_ok.mp h
    dsimp only at h
    split at h
    · rename_i hCommit
      cases h
      exact Stmt.committed_of_commit hCommit
    · cases h

/-- Lowering is refused for what the program is like, but never because its result has a label
    twice. -/
theorem lower_fails (h : t.Committed) (target : Target) (registry : Registry) (steps : Steps) :
    FailsWith (fun r => r.cause.IsNoRepetition) (lower target registry steps t) := by
  -- after calls are expanded, every step leaves labels different
  have hRest : ∀ (d : Draft) (finish : Draft × Nat → Except Rejection Stmt), d.Sound →
      (∀ d' n u, (if steps.simplify then d'.tree.simplify d'.next else d'.tree).commit = .ok u →
        FailsWith (fun r => r.cause.IsNoRepetition) (finish (d', n))) →
      FailsWith (fun r => r.cause.IsNoRepetition) (do
        answering .lower (d.tree.loops.forM (checkTag target))
        finish (← answering .lower (lowerReductions target steps.workspaces d))) := by
    intro d finish hd hFinish
    refine (FailsWith.answering (.forM (checkTag_fails target))).bind fun _ _ => ?_
    refine (FailsWith.answering (lowerReductions_fails target steps.workspaces d)).bind ?_
    rintro ⟨d', n⟩ hLower
    have hLabels := (sound_lowerReductions hd (Schedule.answering_eq_ok.mp hLower)).labels
    refine hFinish d' n _ (Stmt.commit_eq_ok.mpr ⟨?_, rfl⟩)
    split
    · exact hLabels.sublist (Stmt.labels_simplify d'.next d'.tree)
    · exact hLabels
  unfold lower
  dsimp only
  split
  · refine FailsWith.bind ((FailsWith.answering ?_).map _) fun d hExpand =>
      hRest d _ ?_ fun d' n u hCommit => ?_
    · exact Restructure.expandAll_fails registry (Draft.of t)
    · cases hOutcome : answering .inline (Restructure.expandAll registry (Draft.of t)) with
      | error r =>
        rw [hOutcome] at hExpand
        cases hExpand
      | ok p =>
        rw [hOutcome] at hExpand
        cases hExpand
        exact Restructure.sound_expandAll h.sound (Schedule.answering_eq_ok.mp hOutcome)
    · dsimp only
      rw [hCommit]
      exact .ok u
  · refine FailsWith.bind (.ok _) fun d hd => hRest d _ (by cases hd; exact h.sound) ?_
    intro d' n u hCommit
    dsimp only
    rw [hCommit]
    exact .ok u

end Lower

namespace Schedule

/-! ## All runs -/

/-- A function that clears a vector. -/
def clearing : Function where
  name := "clear"
  params := [⟨"v", ⟨[.int 8], .int32, .output, .cpu⟩⟩]
  body := .loop ⟨0, some "L"⟩ { iter := "i", lower := .int 0, upper := .int 8 }
    (.store ⟨1, some "S"⟩ "v" [.var "i"] (.int 0))

/-- A program that calls it twice. -/
def clearedTwice : Stmt :=
  .decl ⟨0, none⟩ "y" ⟨[.int 8], .int32, .output, .cpu⟩
    (.block ⟨1, some "B"⟩ [.call ⟨2, some "C"⟩ "clear" [.buffer "y"],
      .call ⟨3, none⟩ "clear" [.buffer "y"]])

/-- The calls are expanded, one of the new loops is split, and a request for a label that there is no
    more is rejected. -/
def clearedInRounds : Schedule :=
  ({ tree := clearedTwice } : Schedule).attempt ⟨[clearing]⟩
    [.inline, .split "C.L" (some (.int 4)) none, .parallelize "C" "openmp"]

end Schedule

end LoopNest

import LoopNest.Proofs.SplitLoops

/-! # Splits of loops with bounds that are read from memory

  A loop evaluates its bounds once, before its first iteration. The loops of a split evaluate them
  again in every round and in every iteration: in the trip counts, in what takes the place of the
  old iterator and in the guard.

  Main statement: a split makes the same writes in the same order if its bounds and its count pass
  the check that a distribution makes of the bounds, which is that the body writes no buffer that
  they read (`Restructure.split_preserves_checked`).

  A split itself does not make this check. Without it writes may be lost
  (`Restructure.draining_loses_write`). -/

namespace LoopNest.Restructure

open Stmt (LabelledLoop)

/-- The bounds and the count of a split pass the check that a distribution makes of the bounds, and
    their names keep their meaning.

    * **avoids**: they read no buffer that the body writes;
    * **unset**: no loop in the body sets a scalar of them;
    * **visible**: the body declares no buffer that they read;
    * **apart**: the count does not mention the new iterators. -/
structure Checked (names : SplitNames) (l : LabelledLoop) (count : Expr) : Prop where
  avoids : ∀ e ∈ governing l count, e.Avoids l.body.written
  unset : ∀ e ∈ governing l count, ∀ x ∈ e.scalars, ¬ l.body.Binds x
  visible : ∀ e ∈ governing l count, ∀ b ∈ e.buffers, ¬ l.body.Declares b
  apart : names.outerIter ∉ count.scalars ∧ names.innerIter ∉ count.scalars

variable {names : SplitNames} {l : LabelledLoop} {count : Expr}

/-- The written buffers are all that a body can change. -/
theorem Checked.undisturbed (h : Checked names l count) : Undisturbed names l count where
  still e he := by
    refine ⟨h.unset e he, h.visible e he, fun b hb hWrites => ?_⟩
    have hUnread : e.reads b = false := h.avoids e he b (Stmt.mem_written_iff.mpr hWrites)
    rw [Expr.reads_iff.mpr hb] at hUnread
    cases hUnread
  apart := h.apart

variable {t t' : Stmt} {label a b : String} {factor nparts : Option Expr} {s r : SplitBy}

/-- A count keeps its value when it is reduced. -/
theorem SplitBy.value?_reduced (h : s.reduced = .ok r) {env : Env} {m : Memory} {k : Int}
    (hCount : s.count.value? env m = some k) : r.count.value? env m = some k := by
  rcases SplitBy.reduced_cases h with rfl | ⟨v, hConstant, hInt⟩
  · exact hCount
  · rw [Expr.value?_of_constant? hConstant] at hCount
    rw [hInt, Expr.value?, hCount]

theorem Undisturbed.reduced (h : Undisturbed names l s.count) (hReduced : s.reduced = .ok r) :
    Undisturbed names l r.count := by
  rcases SplitBy.reduced_cases hReduced with rfl | ⟨v, _, hCount⟩
  · exact h
  · rw [hCount]
    refine ⟨fun e he => ?_, List.not_mem_nil, List.not_mem_nil⟩
    rcases List.mem_append.mp (show e ∈ [l.head.lower, l.head.upper] ++ [.int v] from he)
      with hBound | hNew
    · exact h.still e (List.mem_append_left [s.count] hBound)
    · -- a number reads nothing
      rw [List.mem_singleton.mp hNew]
      exact ⟨fun x hx => absurd hx List.not_mem_nil, fun b hb => absurd hb List.not_mem_nil,
        fun b hb => absurd hb List.not_mem_nil⟩

/-- **Splitting with bounds from memory**: a program with a split loop makes the same writes in the
    same order and leaves the same memory when the bounds and the count pass the check of a
    distribution and the count is positive wherever the loop is entered. It fails where the program
    fails. -/
theorem split_preserves_checked (hArgs : SplitBy.ofArgs factor nparts = .ok s)
    (h : split t.number label factor nparts = .ok (t', a, b))
    (hChecked : ∀ l, t.number.loopAt label = .ok l →
      Checked (splitNames t.number l.head.iter label) l s.count)
    (fresh : Memory) (env : Env) (m : Memory)
    (hPositive : ∀ l, t.number.loopAt label = .ok l → ∀ env' m',
      Stmt.Enters fresh l.stmt t.number env m env' m' →
        ∃ k, s.count.value? env' m' = some k ∧ 0 < k) :
    t'.run fresh env m = t.number.run fresh env m := by
  obtain ⟨l, r, hFound, hReduced, rfl⟩ := split_cases hArgs h
  have hMem := Stmt.mem_of_loopAt hFound
  have hUndisturbed := (hChecked l hFound).undisturbed.reduced hReduced
  -- it is enough to look at the loop, in the memories in which it is entered
  refine (Stmt.replaces_update t.number (Stmt.nodup_ids_number t) hMem).run_eq env m ?_
  intro env' m' hEnters
  obtain ⟨k, hCount, hk⟩ := hPositive l hFound env' m' hEnters
  exact run_splitLoop_of_undisturbed hUndisturbed (splitNames_new hMem)
    (SplitBy.value?_reduced hReduced hCount) hk

/-- A row of a compressed matrix: the bounds are two neighbours in a table of starts. -/
def row : LabelledLoop where
  site := ⟨1, some "L2"⟩
  head :=
    { iter := "v"
      lower := .load "start" [.var "i"]
      upper := .load "start" [.add (.var "i") (.int 1)] }
  body := .store ⟨2, none⟩ "y" [.var "i", .var "v"] (.add (.load "x" [.var "v"]) (.var "i"))

/-- The row in rounds of two. -/
def rowInPairs : Stmt := splitLoop row (.factor (.int 2)) ⟨"v.0", "v.1", "L2.0", "L2.1"⟩

/-- Two rows with three elements each, so that the second round of a row is not full. -/
theorem row_preserved :
    split (around row.stmt).number "L2" (some (.int 2)) none
        = .ok (around rowInPairs, "L2.0", "L2.1")
      ∧ (around rowInPairs).run .blank (fun _ => 0) (fun _ is => some (3 * is.sum))
        = (around row.stmt).number.run .blank (fun _ => 0) fun _ is => some (3 * is.sum) := by
  have hSplit : split (around row.stmt).number "L2" (some (.int 2)) none
      = .ok (around rowInPairs, "L2.0", "L2.1") := rfl
  refine ⟨hSplit, split_preserves_checked (s := .factor (.int 2)) rfl hSplit ?_ _ _ _ ?_⟩
  · intro l hFound
    cases hFound
    refine ⟨fun e he b hb => ?_, ?_, ?_, by decide⟩
    · obtain ⟨s, is, v, hStore⟩ := Stmt.mem_written_iff.mp hb
      obtain rfl : b = "y" := by simp_all
      revert e
      decide
    · rintro e - x - ⟨s, head, body, hLoop, -⟩
      simp at hLoop
    · rintro e - b - ⟨s, buffer, body, hDecl⟩
      simp at hDecl
  · exact fun l _ env' m' _ => ⟨2, rfl, by decide⟩

/-- A loop whose first iteration empties the range that it goes through. -/
def draining : Stmt :=
  .decl ⟨0, none⟩ "n" { shape := [.int 1], elem := .int32, access := .inout, space := .cpu }
    (.loop ⟨1, some "L"⟩ { iter := "i", lower := .int 0, upper := .load "n" [.int 0] }
      (.store ⟨2, none⟩ "n" [.int 0] (.int 0)))

/-- The loop evaluates its upper bound once and writes twice. The guard of the split evaluates it
    again and skips the second iteration. -/
theorem draining_loses_write :
    ∃ t', split draining "L" (some (.int 2)) none = .ok (t', "L.0", "L.1")
      ∧ ∃ before after w, draining.run .blank (fun _ => 0) (fun _ _ => some 2) = some (before, [w, w])
        ∧ t'.run .blank (fun _ => 0) (fun _ _ => some 2) = some (after, [w]) :=
  ⟨_, rfl, _, _, _, rfl, rfl⟩

end LoopNest.Restructure

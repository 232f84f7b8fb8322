import LoopNest.Proofs.ExpandedCalls

/-! # Steady calls

  A call evaluates its arguments once, on entry, and the copy that takes its place evaluates them at
  each use. When what the arguments read stays as it was on entry, this makes no difference
  (`Restructure.expandCall_preserves`).

  An argument may read a buffer that the function is passed, as long as neither the function nor one
  that it calls writes it. `Registry.leaves` looks into the calls for that
  (`Registry.Writes.leaves_eq_false`). When the function writes the buffer, a use after the write gives
  something else than the argument did on entry (`Restructure.squaring_not_preserved`). -/

namespace LoopNest

open Restructure (mem_of_lookup)

/-- A buffer that is written is never seen to be left alone. -/
theorem Registry.Writes.leaves_eq_false {r : Registry} {t : Stmt} {b : String} (h : r.Writes t b) :
    ∀ depth, r.leaves depth t b = false := by
  -- along the calls that lead to the write
  induction h with
  | @here t u b hMem hOwn =>
    intro depth
    cases depth with
    | zero =>
      rw [leaves, List.all_eq_false]
      exact ⟨u, hMem, by simp [hOwn]⟩
    | succ depth =>
      rw [leaves, List.all_eq_false]
      refine ⟨u, hMem, ?_⟩
      cases u with
      | call s f args => cases hOwn
      | _ => simp [hOwn]
  | @inside t s f p b args g hMem hFunction hPassed _ ih =>
    intro depth
    cases depth with
    | zero =>
      -- no call is looked into any more, so that none is seen to leave the buffer alone
      rw [leaves, List.all_eq_false]
      exact ⟨_, hMem, by simp [Stmt.isCall]⟩
    | succ depth =>
      rw [leaves, List.all_eq_false]
      refine ⟨_, hMem, ?_⟩
      dsimp only
      rw [hFunction, List.all_eq_true]
      intro hAll
      have hHere := hAll (p, b) (mem_of_lookup hPassed)
      simp [ih depth] at hHere

namespace Restructure

variable {r : Registry} {t call : Stmt} {d : Draft} {n : Nat}

/-- **Expanding a call**: take any program and any functions. When a call is expanded, and in it and in
    all calls that it brings in the arguments keep their values, then the program leaves in its
    buffers what the program with the call leaves there. -/
theorem expandCall_preserves (hCall : call ∈ t.number.calls)
    (h : expandCall r (Draft.of t.number) call = .ok (d, n))
    (hSteady : ∀ e ∈ expansions r n (Draft.of t.number) [call], e.Steady r) {depth : Nat} {env : Env}
    {m after : Memory} (hRun : t.number.execute r .blank depth .whole env m = some after) :
    ∃ after', d.tree.execute r .blank depth .whole env m = some after'
      ∧ ∀ b ∈ t.number.lastingNames, after' b = after b := by
  obtain ⟨log, hExpands, hLength⟩ := exists_expands_of_expand h (.done d)
  obtain rfl : n = log.length := by simpa using hLength.symm
  have hLog : expansions r log.length (Draft.of t.number) [call] = log := hExpands.expansions_eq
  rw [hLog] at hSteady
  exact hExpands.follows_steady (waiting_number (List.singleton_sublist.mpr hCall)) hSteady hRun

/-- A call is steady when all that its arguments read is seen to be left alone. -/
theorem Expansion.steady_of_leaves {e : Expansion} {depth : Nat}
    (outside : e.function.body.within ⟨e.valueNames, e.valueNames, e.bufferNames⟩ = true)
    (inside : ∀ x ∈ e.function.body.binders, x.name ∉ e.function.params.map Param.name)
    (order : InOrder (e.function.passed e.args))
    (buffers : ∀ a ∈ e.function.aliases e.args, a.2 ∉ e.valueNames)
    (left : ∀ v ∈ e.function.passed e.args, ∀ a ∈ e.function.aliases e.args, a.2 ∈ v.2.buffers →
      r.leaves depth e.function.body a.1 = true) : e.Steady r where
  outside := outside
  inside := inside
  order := order
  buffers := buffers
  unwritten v hv b hb p hAlias hWrites := by
    have hLeft := left v hv (p, b) (mem_of_lookup hAlias) hb
    rw [hWrites.leaves_eq_false depth] at hLeft
    cases hLeft

/-- A call that multiplies elements by one of them and a number. -/
def foldingCall : Stmt :=
  .call ⟨3, some "C"⟩ "twice"
    [.buffer "a", .buffer "b", .value (.add (.load "a" [.var "i"]) (.var "i"))]

/-- A program that makes this call in a loop. -/
def foldingHost : Stmt :=
  .decl ⟨0, none⟩ "a" (fourCells .input) (.decl ⟨1, none⟩ "b" (fourCells .output)
    (.loop ⟨2, none⟩ { iter := "i", lower := .int 0, upper := .int 2 } foldingCall))

/-- The calls below it are steady as well, whichever buffer is multiplied. -/
theorem steady_foldingHost : ∀ e ∈ expansions ⟨[scaling, scalingTwice]⟩ 3
    (Draft.of foldingHost.number) [foldingCall], e.Steady ⟨[scaling, scalingTwice]⟩ := by
  -- `Registry.leaves` is evaluated, which `Registry.Writes` cannot be
  have hParts : ∀ e ∈ expansions ⟨[scaling, scalingTwice]⟩ 3 (Draft.of foldingHost.number)
      [foldingCall],
      e.function.body.within ⟨e.valueNames, e.valueNames, e.bufferNames⟩ = true
        ∧ (∀ x ∈ e.function.body.binders, x.name ∉ e.function.params.map Param.name)
        ∧ InOrder (e.function.passed e.args)
        ∧ (∀ a ∈ e.function.aliases e.args, a.2 ∉ e.valueNames)
        ∧ ∀ v ∈ e.function.passed e.args, ∀ a ∈ e.function.aliases e.args, a.2 ∈ v.2.buffers →
          (⟨[scaling, scalingTwice]⟩ : Registry).leaves 1 e.function.body a.1 = true := by
    decide +kernel
  intro e he
  obtain ⟨outside, inside, order, buffers, left⟩ := hParts e he
  exact Expansion.steady_of_leaves outside inside order buffers left

/-- In the last iteration 5 is multiplied by 6 twice. -/
theorem foldingHost_expanded : ∃ d after after',
    expandCall ⟨[scaling, scalingTwice]⟩ (Draft.of foldingHost.number) foldingCall = .ok (d, 3)
      ∧ foldingHost.number.execute ⟨[scaling, scalingTwice]⟩ .blank 2 .whole (fun _ => 0) fives
        = some after
      ∧ after "b" [1] = some 180
      ∧ d.tree.execute ⟨[scaling, scalingTwice]⟩ .blank 2 .whole (fun _ => 0) fives = some after'
      ∧ ∀ b ∈ foldingHost.number.lastingNames, after' b = after b := by
  have hCount : (expandCall ⟨[scaling, scalingTwice]⟩ (Draft.of foldingHost.number) foldingCall
      ).toOption.map Prod.snd = some 3 := by decide +kernel
  have hValue : (foldingHost.number.execute ⟨[scaling, scalingTwice]⟩ .blank 2 .whole (fun _ => 0)
      fives).bind (fun after => after "b" [1]) = some 180 := by decide +kernel
  obtain ⟨after, hRun, hAfter⟩ := Option.bind_eq_some_iff.mp hValue
  obtain ⟨⟨d, n⟩, hOutcome, rfl⟩ := Option.map_eq_some_iff.mp hCount
  have hExpand := Outcome.eq_ok_of_toOption hOutcome
  obtain ⟨after', hRun', hSame⟩ := expandCall_preserves (List.mem_singleton.mpr rfl) hExpand
    steady_foldingHost hRun
  exact ⟨d, after, after', hExpand, hRun, hAfter, hRun', hSame⟩

/-- Multiplies four elements by a number where they are. -/
def scalingInPlace : Function where
  name := "scale"
  params := [⟨"y", fourCells .inout⟩, oneValue]
  body := .loop ⟨0, some "L"⟩ { iter := "i", lower := .int 0, upper := .int 4 }
    (.store ⟨1, none⟩ "y" [.var "i"] (.mul (.load "y" [.var "i"]) (.var "k")))

/-- A call that multiplies elements by the first one. -/
def squaringCall : Stmt := .call ⟨1, some "C"⟩ "scale" [.buffer "a", .value (.load "a" [.int 0])]

/-- A program that makes this call. -/
def squaringHost : Stmt := .decl ⟨0, none⟩ "a" (fourCells .inout) squaringCall

/-- The first element is 5 on entry. The copy reads it again when it is 25. -/
theorem squaring_not_preserved : ∃ d after after',
    squaringCall ∈ squaringHost.number.calls
      ∧ expandCall ⟨[scalingInPlace]⟩ (Draft.of squaringHost.number) squaringCall = .ok (d, 1)
      ∧ squaringHost.number.execute ⟨[scalingInPlace]⟩ .blank 1 .whole (fun _ => 0) fives = some after
      ∧ after "a" [1] = some 25
      ∧ d.tree.execute ⟨[scalingInPlace]⟩ .blank 1 .whole (fun _ => 0) fives = some after'
      ∧ after' "a" [1] = some 125 := by
  have hValue : (squaringHost.number.execute ⟨[scalingInPlace]⟩ .blank 1 .whole (fun _ => 0)
      fives).bind (fun after => after "a" [1]) = some 25 := by decide +kernel
  have hCount : (expandCall ⟨[scalingInPlace]⟩ (Draft.of squaringHost.number) squaringCall
      ).toOption.map Prod.snd = some 1 := by decide +kernel
  have hCopy : ((expandCall ⟨[scalingInPlace]⟩ (Draft.of squaringHost.number) squaringCall
      ).toOption.bind fun p => p.1.tree.execute ⟨[scalingInPlace]⟩ .blank 1 .whole (fun _ => 0)
        fives).bind (fun after => after "a" [1]) = some 125 := by decide +kernel
  obtain ⟨after, hRun, hAfter⟩ := Option.bind_eq_some_iff.mp hValue
  obtain ⟨after', hBoth, hAfter'⟩ := Option.bind_eq_some_iff.mp hCopy
  obtain ⟨⟨d, n⟩, hExpand, hRun'⟩ := Option.bind_eq_some_iff.mp hBoth
  rw [hExpand] at hCount
  obtain rfl : n = 1 := Option.some.inj hCount
  exact ⟨d, after, after', List.mem_singleton.mpr rfl, Outcome.eq_ok_of_toOption hExpand, hRun, hAfter,
    hRun', hAfter'⟩

end Restructure

end LoopNest

import LoopNest.Proofs.AnyOrders
import LoopNest.Proofs.CallTrees

/-! # Input parameters

  A function must not write a buffer by way of an input parameter. When a call is expanded, the stores
  of the function itself are looked at, and the call is refused if one of them is to an input
  parameter. What the function passes on to other functions is looked at only when those calls are
  expanded, and then with their own parameters.

  * **One call**: arguments fit only if no input parameter is stored to (`unwritten_of_bindArgs`), and
    otherwise the call is refused (`Restructure.expand_of_stored`).
  * **All calls**: whatever function an expanded function calls is expanded, too
    (`Restructure.Expands.closed`).
  * **Chains of calls**: when input parameters are handed down as input parameters only, nothing is
    stored to them further down (`Restructure.Expands.not_stores`).

  Main statement: `Restructure.expandAll_spares_inputs`. Where an input parameter is handed down as one
  that may be written, it is stored to and nothing is refused
  (`Restructure.overwriting_not_refused`). -/

namespace LoopNest

/-- The parameters that must not be written. -/
def Function.inputs (f : Function) : List String :=
  (f.params.filter fun p => !p.buffer.access.isWritable).map Param.name

namespace Registry

/-- A program stores to a buffer, or it passes the buffer to a function that stores to the
    parameter. -/
inductive Stores (r : Registry) : Stmt → String → Prop where
  | here {t : Stmt} {b : String} (own : t.Writes b) : r.Stores t b
  | inside {t : Stmt} {s : Site} {f p b : String} {args : List Arg} {g : Function}
    (mem : .call s f args ∈ t.nodes) (function : r.get? f = some g)
    (passed : (g.aliases args).lookup p = some b) (below : Stores r g.body p) : r.Stores t b

/-- Whether a function passes its input parameters on to input parameters only. -/
def handsDown (r : Registry) (f : Function) : Bool :=
  f.body.nodes.all fun u =>
    match u with
    | .call _ callee args =>
      match r.get? callee with
      | none => true
      | some g => (g.aliases args).all fun a => !f.inputs.contains a.2 || g.inputs.contains a.1
    | _ => true

/-- What a function hands down. -/
theorem mem_inputs_of_handsDown {r : Registry} {f g : Function} (h : r.handsDown f = true) {s : Site}
    {callee p q : String} {args : List Arg} (hCall : .call s callee args ∈ f.body.nodes)
    (hFunction : r.get? callee = some g) (hPassed : (g.aliases args).lookup q = some p)
    (hInput : p ∈ f.inputs) : q ∈ g.inputs := by
  have hHere := List.all_eq_true.mp h _ hCall
  simp only [hFunction, List.all_eq_true] at hHere
  simpa [hInput] using hHere (q, p) (Restructure.mem_of_lookup hPassed)

end Registry

namespace Restructure

/-! ## One call -/

/-- Arguments fit only if no input parameter is among the written buffers. -/
theorem unwritten_of_bindArgs {host : String → Option Buffer} {name : String} {writes : List String} :
    ∀ {params : List Param} {args : List Arg} {b b' : Binding}, args.length = params.length →
      bindArgs host name writes b params args = .ok b' →
      ∀ p ∈ params, p.buffer.access.isWritable = false → p.name ∉ writes := by
  intro params
  induction params with
  | nil => exact fun _ _ p hp => absurd hp List.not_mem_nil
  | cons q params ih =>
    intro args b b' hCount h p hp hInput hWritten
    cases args with
    | nil => cases hCount
    | cons arg args =>
      have hRest : args.length = params.length := Nat.succ.inj hCount
      cases arg with
      | buffer a =>
        rw [bindArgs] at h
        split at h
        · cases h
        · rename_i hFits
          rcases List.mem_cons.mp hp with rfl | hp
          · -- the parameter itself: a store to it would have been a mismatch
            unfold bufferMismatch? at hFits
            split at hFits
            · cases hFits
            · simp only [hInput, Bool.not_false, Bool.true_or, Bool.and_true,
                List.contains_iff_mem.mpr hWritten] at hFits
              split at hFits
              · cases hFits
              · split at hFits
                · cases hFits
                · split at hFits <;> cases hFits
          · exact ih hRest h p hp hInput hWritten
      | value e =>
        rw [bindArgs] at h
        split at h
        · rename_i hTakes
          rcases List.mem_cons.mp hp with rfl | hp
          · simp [takesValue, hWritten] at hTakes
          · exact ih hRest h p hp hInput hWritten
        · cases h

/-- Arguments fit only if the function stores to none of its input parameters. -/
theorem not_writes_of_bindArgs {host : String → Option Buffer} {name : String} {f : Function}
    {args : List Arg} {b b' : Binding} (hCount : args.length = f.params.length)
    (hFit : bindArgs host name f.body.written b f.params args = .ok b') :
    ∀ p ∈ f.inputs, ¬ f.body.Writes p := by
  intro p hp hWrites
  obtain ⟨q, hq, rfl⟩ := List.mem_map.mp hp
  obtain ⟨hMem, hInput⟩ := List.mem_filter.mp hq
  exact unwritten_of_bindArgs hCount hFit q hMem (by simpa using hInput) (Stmt.mem_written hWrites)

section call

variable {r : Registry} {f : Function} {callee p : String} {chain : List String}

/-- **Refused calls**: a call of a function that stores to one of its input parameters is refused for
    its arguments, wherever it stands and whatever it passes. -/
theorem expand_of_stored (hFunction : r.get? callee = some f) (hInput : p ∈ f.inputs)
    (hWrites : f.body.Writes p) (hChain : callee ∉ chain) (depth : Nat) (d : Draft) (site : Site)
    (args : List Arg) :
    ∃ m, expand r (depth + 1) chain d (.call site callee args) = .error (.mismatch callee m) := by
  by_cases hCount : args.length = f.params.length
  · rw [expand_of_eq hChain hFunction hCount]
    have hRefused := bindArgs_fails (P := fun c => ∃ m, c = .mismatch callee m)
      (fun name => Workpiece.bufferAt? d name site.id) callee f.body.written (fun m => ⟨m, rfl⟩)
      f.params args {}
    cases hFit : bindArgs (fun name => Workpiece.bufferAt? d name site.id) callee f.body.written {}
        f.params args with
    | ok b => exact absurd hWrites (not_writes_of_bindArgs hCount hFit p hInput)
    | error c =>
      obtain ⟨m, rfl⟩ := hRefused c hFit
      exact ⟨m, rfl⟩
  · exact ⟨_, expand_of_ne hChain hFunction hCount d⟩

end call

/-! ## All calls -/

variable {r : Registry} {d d' : Draft} {calls : List Stmt} {log : List Expansion}

/-- No expanded function stores to an input parameter. -/
theorem Expands.not_writes (h : Expands r d calls log d') :
    ∀ e ∈ log, ∀ p ∈ e.function.inputs, ¬ e.function.body.Writes p := by
  induction h with
  | done d => exact fun e he => absurd he List.not_mem_nil
  | call _ hCount hFit _ _ ih =>
    intro e he
    rcases List.mem_cons.mp he with rfl | he
    · exact not_writes_of_bindArgs hCount hFit
    · exact ih e he

/-- The functions that are called, by the calls themselves and in expanded functions, are
    expanded. -/
theorem Expands.closed (h : Expands r d calls log d') :
    (∀ g ∈ calls.filterMap Stmt.callee?, ∃ e ∈ log, r.get? g = some e.function)
      ∧ ∀ e ∈ log, ∀ g ∈ e.function.body.callees, ∃ e' ∈ log, r.get? g = some e'.function := by
  induction h with
  | done d =>
    exact ⟨fun g hg => absurd hg List.not_mem_nil, fun e he => absurd he List.not_mem_nil⟩
  | @call d d' site callee args calls f b copy next log hFunction hCount hFit hCopied _ ih =>
    have hLater : ∀ {g}, g ∈ (copy.calls ++ calls).filterMap Stmt.callee? →
        ∃ e ∈ (⟨f, args⟩ : Expansion) :: log, r.get? g = some e.function := by
      intro g hg
      obtain ⟨e, he, hSame⟩ := ih.1 g hg
      exact ⟨e, List.mem_cons_of_mem _ he, hSame⟩
    -- the copy calls what the function calls, so these calls come next
    have hCallees : copy.callees = f.body.callees := by
      have hSame := callees_privateCopy hCount hFit d.tree d.next (site.label.getD callee)
      rwa [hCopied] at hSame
    constructor
    · intro g hg
      rcases List.mem_cons.mp (show g ∈ callee :: calls.filterMap Stmt.callee? from hg) with rfl | hg
      · exact ⟨_, List.mem_cons_self, hFunction⟩
      · exact hLater (by rw [List.filterMap_append]; exact List.mem_append_right _ hg)
    · intro e he g hg
      rcases List.mem_cons.mp he with rfl | he
      · apply hLater
        rw [List.filterMap_append, ← Stmt.callees_eq_calls, hCallees]
        exact List.mem_append_left _ hg
      · obtain ⟨e', he', hSame⟩ := ih.2 e he g hg
        exact ⟨e', List.mem_cons_of_mem _ he', hSame⟩

/-! ## Chains of calls -/

/-- **Chains of calls**: what is handed down as an input parameter only is not stored to. -/
theorem Expands.not_stores (h : Expands r d calls log d')
    (hDown : ∀ e ∈ log, r.handsDown e.function = true) {t : Stmt} {p : String}
    (hStores : r.Stores t p) : ∀ e ∈ log, e.function.body = t → p ∉ e.function.inputs := by
  -- along the calls that lead to the store
  induction hStores with
  | here own =>
    rintro e he rfl hInput
    exact h.not_writes e he _ hInput own
  | @inside t s f q p args g hMem hFunction hPassed _ ih =>
    rintro e he rfl hInput
    have hCalled : f ∈ e.function.body.callees := List.mem_filterMap.mpr ⟨_, hMem, rfl⟩
    obtain ⟨e', he', hSame⟩ := h.closed.2 e he f hCalled
    obtain rfl : g = e'.function := Option.some.inj (hFunction.symm.trans hSame)
    exact ih e' he' rfl
      (Registry.mem_inputs_of_handsDown (hDown e he) hMem hFunction hPassed hInput)

/-- **Input parameters**: take any program and any functions. A call of a function that stores to one
    of its input parameters is refused. When all calls are expanded, no expanded function stores to
    one of its input parameters; if moreover the expanded functions hand their input parameters down
    as input parameters only, then nothing is stored to these by the functions they call, directly or
    through further calls. -/
theorem expandAll_spares_inputs (r : Registry) (t : Stmt) :
    (∀ {callee f p}, r.get? callee = some f → p ∈ f.inputs → f.body.Writes p →
      ∀ depth chain (d : Draft) site args, callee ∉ chain →
        ∃ m, expand r (depth + 1) chain d (.call site callee args) = .error (.mismatch callee m))
    ∧ ∀ {d : Draft} {n : Nat}, expandAll r (Draft.of t.number) = .ok (d, n) →
      (∀ e ∈ expansions r n (Draft.of t.number) t.number.calls,
        ∀ p ∈ e.function.inputs, ¬ e.function.body.Writes p)
      ∧ ((∀ e ∈ expansions r n (Draft.of t.number) t.number.calls,
          r.handsDown e.function = true) →
        ∀ e ∈ expansions r n (Draft.of t.number) t.number.calls,
          ∀ p ∈ e.function.inputs, ¬ r.Stores e.function.body p) := by
  refine ⟨fun hFunction hInput hWrites depth chain d site args hChain =>
    expand_of_stored hFunction hInput hWrites hChain depth d site args, fun {d n} h => ?_⟩
  obtain ⟨log, hExpands, rfl⟩ := exists_expands h
  have hLog : expansions r log.length (Draft.of t.number) t.number.calls = log :=
    hExpands.expansions_eq
  rw [hLog]
  exact ⟨hExpands.not_writes, fun hDown e he p hInput hStores =>
    hExpands.not_stores hDown hStores e he rfl hInput⟩

/-- Overwrites the first of four elements. -/
def overwriting (access : AccessClass) : Function where
  name := "overwrite"
  params := [⟨"z", fourCells access⟩]
  body := .store ⟨0, none⟩ "z" [.int 0] (.int 1)

/-- Overwriting an input is refused. Multiplying twice hands its input down as an input, and nothing
    is stored to it. -/
theorem scalingTwice_spares_input :
    (∃ m, expand ⟨[overwriting .input]⟩ 1 [] (Draft.of scalingHost.number)
        (.call ⟨3, some "C"⟩ "overwrite" [.buffer "a"]) = .error (.mismatch "overwrite" m))
      ∧ ∃ e ∈ expansions ⟨[scaling, scalingTwice]⟩ 3 (Draft.of scalingHost.number)
          scalingHost.number.calls,
        e.function.name = "twice" ∧ "x" ∈ e.function.inputs ∧ ¬ e.function.body.Writes "x"
          ∧ ¬ (⟨[scaling, scalingTwice]⟩ : Registry).Stores e.function.body "x" := by
  have hStores : (overwriting .input).body.Writes "z" := ⟨_, _, _, Stmt.self_mem_nodes _⟩
  refine ⟨(expandAll_spares_inputs _ scalingHost).1 rfl (by decide) hStores 0 [] _ _ _ (by decide), ?_⟩
  have hDown : ∀ e ∈ expansions ⟨[scaling, scalingTwice]⟩ 3 (Draft.of scalingHost.number)
      scalingHost.number.calls, (⟨[scaling, scalingTwice]⟩ : Registry).handsDown e.function = true := by
    decide +kernel
  have hTwice : ∃ e ∈ expansions ⟨[scaling, scalingTwice]⟩ 3 (Draft.of scalingHost.number)
      scalingHost.number.calls, e.function.name = "twice" ∧ "x" ∈ e.function.inputs := by
    decide +kernel
  obtain ⟨e, he, hName, hInput⟩ := hTwice
  obtain ⟨d, hExpand⟩ := exists_scaled
  obtain ⟨hWrites, hStores⟩ := (expandAll_spares_inputs _ scalingHost).2 hExpand
  exact ⟨e, he, hName, hInput, hWrites e he "x" hInput, hStores hDown e he "x" hInput⟩

/-- Passes its input on to be overwritten. -/
def relaying : Function where
  name := "relay"
  params := [⟨"x", fourCells .input⟩]
  body := .call ⟨0, none⟩ "overwrite" [.buffer "x"]

/-- A program that passes one of its buffers as the input. -/
def relayingHost : Stmt :=
  .decl ⟨0, none⟩ "a" (fourCells .inout) (.call ⟨1, some "C"⟩ "relay" [.buffer "a"])

/-- The input parameter is stored to by the function that it is handed down to. Both calls are
    expanded, and then the program writes the buffer that was passed as an input. -/
theorem overwriting_not_refused :
    (∃ d, expandAll ⟨[relaying, overwriting .inout]⟩ (Draft.of relayingHost.number) = .ok (d, 2)
      ∧ d.tree.Writes "a")
      ∧ ∃ e ∈ expansions ⟨[relaying, overwriting .inout]⟩ 2 (Draft.of relayingHost.number)
          relayingHost.number.calls,
        "x" ∈ e.function.inputs
          ∧ (⟨[relaying, overwriting .inout]⟩ : Registry).Stores e.function.body "x" := by
  constructor
  · have hOutcome : (expandAll ⟨[relaying, overwriting .inout]⟩ (Draft.of relayingHost.number)
        ).toOption.map (fun p => (p.2, p.1.tree.written.contains "a")) = some (2, true) := by
      decide +kernel
    obtain ⟨⟨d, n⟩, hExpand, hHolds⟩ := Option.map_eq_some_iff.mp hOutcome
    obtain ⟨rfl, hWritten⟩ := Prod.mk.inj hHolds
    exact ⟨d, Outcome.eq_ok_of_toOption hExpand,
      Stmt.mem_written_iff.mp (List.contains_iff_mem.mp hWritten)⟩
  · have hFits : (bindArgs (fun name => (Draft.of relayingHost.number).tree.bufferAt? name 1) "relay"
        relaying.body.written {} relaying.params [.buffer "a"]).toOption.isSome = true := by
      decide +kernel
    obtain ⟨b, hFit⟩ := Option.isSome_iff_exists.mp hFits
    refine ⟨⟨relaying, [.buffer "a"]⟩, ?_, by decide, ?_⟩
    · rw [show relayingHost.number.calls = [.call ⟨1, some "C"⟩ "relay" [.buffer "a"]] from rfl,
        expansions_call rfl (Outcome.eq_ok_of_toOption hFit)]
      exact List.mem_cons_self
    · exact .inside (Stmt.self_mem_nodes _) rfl rfl (.here ⟨_, _, _, Stmt.self_mem_nodes _⟩)

end Restructure

end LoopNest

import LoopNest.Proofs.ExpandedCalls

/-! # Uses of parameters

  A private copy has the argument of a call in the place of every use of the parameter. The arguments
  are put in one after the other, each one into the expressions as the earlier ones have left them. So
  a use is worth what the argument is worth once the parameters that come later have their values
  (`Restructure.expandCall_places`). When the argument mentions none of them, this is what it is worth
  to the caller; otherwise it need not be (`Restructure.swapped_misplaced`).

  * **Values**: putting values in one after the other is setting the scalars to their values, the last
    one first (`Expr.value?_fill`).
  * **Copies**: the copies are in the program in the end, except for their calls, which are expanded in
    turn (`Restructure.Expands.placed`). -/

namespace LoopNest

/-! ## Values put in one after the other -/

namespace Expr

open Restructure (settle?)

variable {values before later : List (String × Expr)} {p : String} {e w : Expr}

theorem fill_append (before later : List (String × Expr)) (e : Expr) :
    fill (before ++ later) e = fill later (fill before e) := List.foldl_append

/-- An expression that reads no buffer has no cells to fill. -/
theorem fill_cons_of_pure {v : String × Expr} (he : e.buffers = []) (hv : v.2.buffers = []) :
    fill (v :: values) e = fill values (e.substitute [v]) := by
  rw [fill_cons, substituteCell_eq_self (by simp [buffers_substitute he hv])]

/-- **A use** of a parameter becomes the argument, in which the later ones are put. -/
theorem fill_use (hBefore : p ∉ before.map Prod.fst) (hw : w.buffers = []) :
    fill (before ++ (p, w) :: later) (.var p) = fill later w
      ∧ fill (before ++ (p, w) :: later) (.load p []) = fill later w := by
  have hScalar : (Expr.var p).substitute [(p, w)] = w := by simp [substitute]
  have hCell : substituteCell p w (.load p []) = w := by simp [substituteCell]
  constructor
  · rw [fill_append, fill_eq_self (e := .var p) (by simpa using hBefore) (by simp), fill_cons, hScalar,
      substituteCell_eq_self (by simp [hw])]
  · rw [fill_append, fill_eq_self (e := .load p []) (by simp) (by simpa using hBefore), fill_cons,
      substitute_eq_self (by simp), hCell]

theorem mem_scalars_fill (hValues : ∀ v ∈ values, v.2.buffers = []) {x : String} :
    ∀ {e : Expr}, e.buffers = [] → x ∈ (fill values e).scalars →
      x ∈ e.scalars ∨ ∃ v ∈ values, x ∈ v.2.scalars := by
  induction values with
  | nil => exact fun _ hx => .inl hx
  | cons v values ih =>
    intro e he hx
    have hHead := hValues v List.mem_cons_self
    rw [fill_cons_of_pure he hHead] at hx
    rcases ih (fun u hu => hValues u (List.mem_cons_of_mem v hu)) (buffers_substitute he hHead v.1) hx
      with hx | ⟨u, hu, hx⟩
    · exact (Stmt.mem_scalars_substitute e hx).imp_right fun h => ⟨v, List.mem_cons_self, h⟩
    · exact .inr ⟨u, List.mem_cons_of_mem v hu, hx⟩

/-- **Values**: what values are put into is worth what it is worth once they are settled. -/
theorem value?_fill {env settled : Env} {m : Memory} (hValues : ∀ v ∈ values, v.2.buffers = [])
    (hSettle : settle? m env values = some settled) :
    ∀ {e : Expr}, e.buffers = [] → (fill values e).value? env m = e.value? settled m := by
  -- the first value is put in first and settled last, so `settled` changes on the way
  induction values generalizing settled with
  | nil =>
    cases hSettle
    exact fun _ => rfl
  | cons v values ih =>
    intro e he
    obtain ⟨between, hBetween, hSet⟩ := Option.bind_eq_some_iff.mp hSettle
    obtain ⟨u, hu, hSet⟩ := Option.bind_eq_some_iff.mp hSet
    cases hSet
    have hHead := hValues v List.mem_cons_self
    rw [fill_cons_of_pure he hHead, ih (fun u hu => hValues u (List.mem_cons_of_mem v hu)) hBetween
      (buffers_substitute he hHead v.1)]
    rw [← valueWith?_reference .blank] at hu
    rw [← valueWith?_reference .blank, ← valueWith?_reference .blank]
    exact valueWith?_substitute hu e

end Expr

namespace Stmt

/-- An update leaves the expressions of other statements. -/
theorem exprs_update {p : Nat} {f : Stmt → Stmt} {t : Stmt} (h : t.id ≠ p) :
    (t.update p f).exprs = t.exprs := by
  rw [update_eq, if_neg h, exprs_mapChildren]

end Stmt

namespace Restructure

/-! ## Copies in the places of calls -/

variable {r : Registry} {d d' : Draft} {calls : List Stmt} {log : List Expansion} {e : Expansion}
  {copy : Stmt} {names : Renamings}

/-- A copy, with the names chosen for it, that was put in the place of a call.

    * **phrases**: it has the expressions of the function, each one translated;
    * **kept**, **expanded**: it is in the draft, but for its calls, which were expanded;
    * **uses**: a use of a parameter that the function does not bind itself is not renamed;
    * **new**: no argument mentions one of its iterators. -/
structure Placed (log : List Expansion) (d : Draft) (e : Expansion) (copy : Stmt) (names : Renamings) :
    Prop where
  phrases : copy.phrases
    = e.function.body.phrases.map (List.map (copied names (e.function.passed e.args)))
  kept : ∀ u ∈ copy.nodes, u.isCall = false → ∃ u' ∈ d.tree.nodes, u'.id = u.id ∧ u'.exprs = u.exprs
  expanded : ∀ s f args, .call s f args ∈ copy.nodes → ∃ e' ∈ log, e'.args = args
  uses : ∀ p, (∀ x ∈ e.function.body.binders, x.name ≠ p) → ∀ u, e.Use p u →
    u.rename names.scalars names.buffers = u
  new : ∀ y, .scalar y ∈ copy.binders → ∀ v ∈ e.function.passed e.args, y ∉ v.2.scalars

/-- Later expansions do not matter. -/
theorem Placed.mono (h : Placed log d e copy names) {log' : List Expansion} (hLog : log ⊆ log') :
    Placed log' d e copy names where
  phrases := h.phrases
  kept := h.kept
  expanded s f args hCall := by
    obtain ⟨e', he', hArgs⟩ := h.expanded s f args hCall
    exact ⟨e', hLog he', hArgs⟩
  uses := h.uses
  new := h.new

/-- A use of a parameter has no other name. -/
theorem Renamings.Chosen.rename_use {taken : List String} (hChosen :
      names.Chosen taken (e.function.aliases e.args) e.function.body.binders) {p : String}
    (hInside : ∀ x ∈ e.function.body.binders, x.name ≠ p) {u : Expr} (hUse : e.Use p u) :
    u.rename names.scalars names.buffers = u := by
  cases hUse with
  | scalar =>
    have hNone : names.scalars.lookup p = none := by
      rw [← Option.not_isSome_iff_eq_none, hChosen.iterators]
      exact fun hBound => hInside _ hBound rfl
    rw [Expr.rename, Expr.Renaming.apply_of_none hNone]
  | cell hValue =>
    have hNone : names.buffers.lookup p = none := by
      rw [← Option.not_isSome_iff_eq_none, hChosen.declared, not_or]
      refine ⟨fun hAlias => ?_, fun hBound => hInside _ hBound rfl⟩
      obtain ⟨a, ha⟩ := Option.isSome_iff_exists.mp hAlias
      exact hValue (List.mem_map_of_mem (mem_of_lookup ha))
    rw [Expr.rename, Expr.Renaming.apply_of_none hNone, Expr.renameAll]

/-- **Kept**: a statement that is no call is still there after all expansions. -/
theorem Expands.kept (h : Expands r d calls log d') (hWaiting : Waiting d calls) {u : Stmt}
    (hu : u ∈ d.tree.nodes) (hCall : u.isCall = false) :
    ∃ u' ∈ d'.tree.nodes, u'.id = u.id ∧ u'.exprs = u.exprs := by
  induction h generalizing u with
  | done d => exact ⟨u, hu, rfl, rfl⟩
  | @call d d' site callee args calls f b copy next log _ _ _ hCopied _ ih =>
    have hSpec := privateCopy_spec d.tree d.next f b (site.label.getD callee)
    rw [hCopied] at hSpec
    obtain ⟨hNext, hIds, hBounds, -, -⟩ := hSpec
    -- only the call is replaced, and its number is its own
    have hId : u.id ≠ site.id := by
      intro hSame
      rw [hWaiting.eq_head hu hSame] at hCall
      cases hCall
    obtain ⟨u', hu', hSameId, hSame⟩ := ih (hWaiting.expand hNext hIds hBounds)
      (hWaiting.mem_update (w := copy) hu) (by rwa [isCall_update hId])
    exact ⟨u', hu', hSameId.trans (Stmt.id_update hId), hSame.trans (Stmt.exprs_update hId)⟩

/-- **Expanded**: every call that waits is expanded. -/
theorem Expands.expanded (h : Expands r d calls log d') {site : Site} {callee : String}
    {args : List Arg} (hCall : .call site callee args ∈ calls) : ∃ e ∈ log, e.args = args := by
  induction h with
  | done d => cases hCall
  | call _ _ _ _ _ ih =>
    rcases List.mem_cons.mp hCall with hHead | hTail
    · cases hHead
      exact ⟨_, List.mem_cons_self, rfl⟩
    · obtain ⟨e, he, hArgs⟩ := ih (List.mem_append_right _ hTail)
      exact ⟨e, List.mem_cons_of_mem _ he, hArgs⟩

/-- **Placed**: every copy that was made is in its place in the end. Its iterators and buffers have the
    names that were chosen for it, which are not those of parameters. -/
theorem Expands.placed_chosen (h : Expands r d calls log d') (hWaiting : Waiting d calls) :
    ∀ x ∈ log.zip (privateCopies r log.length d calls), ∃ names, Placed log d' x.1 x.2 names
      ∧ ∃ taken, x.1.function.params.map Param.name ⊆ taken
        ∧ names.Chosen taken (x.1.function.aliases x.1.args) x.1.function.body.binders := by
  induction h with
  | done d => exact fun x hx => absurd hx List.not_mem_nil
  | @call d d' site callee args calls f b copy next log hFunction hCount hFit hCopied hRest ih =>
    obtain ⟨hBuffers, hValues, -⟩ := bindArgs_spec hCount hFit
    rw [List.append_nil] at hBuffers
    rw [List.nil_append] at hValues
    have hSpec := privateCopy_spec d.tree d.next f b (site.label.getD callee)
    rw [hCopied] at hSpec
    obtain ⟨hNext, hIds, hBounds, -, -⟩ := hSpec
    have hNow := hWaiting.expand hNext hIds hBounds
    rw [List.length_cons, privateCopies_call hFunction hFit, hCopied, List.zip_cons_cons]
    intro x hx
    rcases List.mem_cons.mp hx with rfl | hx
    · -- the copy made now: its calls wait from here on, its other statements stay
      obtain ⟨names, hChosen, hTranslated, hPhrases⟩ := translated_privateCopy hCopied
        (by rw [hValues]; exact fun x hx => mem_params_of_passed hx)
      rw [hBuffers] at hChosen
      rw [hValues] at hPhrases
      refine ⟨names, ⟨hPhrases, fun u hu hCall => ?_, fun s g args hCall => ?_,
        fun p hInside u hUse => ?_, fun y hy v hv hMem => ?_⟩, _, List.subset_append_left _ _,
        hChosen⟩
      · exact hRest.kept hNow (Stmt.mem_nodes_trans hu (hWaiting.replaces copy).symm.mem) hCall
      · obtain ⟨e, he, hArgs⟩ := hRest.expanded
          (List.mem_append_left calls (mem_calls.mpr ⟨hCall, rfl⟩))
        exact ⟨e, List.mem_cons_of_mem _ he, hArgs⟩
      · exact Renamings.Chosen.rename_use (e := ⟨f, args⟩) hChosen hInside hUse
      · -- what the arguments mention is in use
        refine hChosen.not_mem_of_translated hTranslated hy (List.mem_append_right _ ?_)
        exact Stmt.mem_usedNames.mpr ⟨_, hWaiting.head_mem,
          .inr ⟨v.2, Stmt.mem_argValues (mem_passed hv), .inl hMem⟩⟩
    · obtain ⟨names, hPlaced, hChosen⟩ := ih hNow x hx
      exact ⟨names, hPlaced.mono (List.subset_cons_self _ _), hChosen⟩

theorem Expands.placed (h : Expands r d calls log d') (hWaiting : Waiting d calls) :
    ∀ x ∈ log.zip (privateCopies r log.length d calls), ∃ names, Placed log d' x.1 x.2 names :=
  fun x hx => (h.placed_chosen hWaiting x hx).imp fun _ hPlaced => hPlaced.1

/-! ## What a use is worth -/

/-- **A use** of a parameter is worth what the argument is worth once the later parameters are settled,
    and to the caller when the argument mentions none of those. -/
theorem Placed.value_use (h : Placed log d e copy names)
    (hPure : ∀ v ∈ e.function.passed e.args, v.2.buffers = []) {p : String} {w : Expr}
    {before later : List (String × Expr)} (hPassed : e.function.passed e.args = before ++ (p, w) :: later)
    (hFirst : p ∉ before.map Prod.fst) (hInside : ∀ x ∈ e.function.body.binders, x.name ≠ p)
    {u : Expr} (hUse : e.Use p u) {env env' : Env}
    (hEnv : ∀ x, .scalar x ∉ copy.binders → env' x = env x) (m : Memory) :
    (∀ settled, settle? m env later = some settled →
        (copied names (e.function.passed e.args) u).value? env' m = w.value? settled m)
      ∧ ((∀ x ∈ w.scalars, x ∉ later.map Prod.fst) →
        (copied names (e.function.passed e.args) u).value? env' m = w.value? env m) := by
  have hw : (p, w) ∈ e.function.passed e.args := by simp [hPassed]
  have hLater : ∀ v ∈ later, v ∈ e.function.passed e.args := fun v hv => by simp [hPassed, hv]
  -- the earlier values find no use of the parameter, and its own one takes the place of the use
  have hFilled : copied names (e.function.passed e.args) u = Expr.fill later w := by
    rw [copied, h.uses p hInside u hUse, hPassed]
    cases hUse with
    | scalar => exact (Expr.fill_use hFirst (hPure _ hw)).1
    | cell _ => exact (Expr.fill_use hFirst (hPure _ hw)).2
  -- the iterators of the copy do not occur in it
  have hSame : (Expr.fill later w).value? env' m = (Expr.fill later w).value? env m := by
    rw [← Expr.valueWith?_reference .blank, ← Expr.valueWith?_reference .blank]
    refine Expr.valueWith?_congr_names (fun x hx => hEnv x fun hBound => ?_) fun _ _ => rfl
    rcases Expr.mem_scalars_fill (fun v hv => hPure v (hLater v hv)) (hPure _ hw) hx
      with hx | ⟨v, hv, hx⟩
    · exact h.new x hBound _ hw hx
    · exact h.new x hBound v (hLater v hv) hx
  rw [hFilled, hSame]
  refine ⟨fun settled hSettle => ?_, fun hOthers => ?_⟩
  · exact Expr.value?_fill (fun v hv => hPure v (hLater v hv)) hSettle (hPure _ hw)
  · rw [Expr.fill_eq_self hOthers (by simp [hPure _ hw])]

/-- **Values of parameters**: take any program and any functions, and expand a call. Every copy that is
    made has its function's expressions, translated, and is in the program in the end but for its
    calls, which are expanded, too. When no value argument reads a buffer, a use of a parameter is
    worth what its argument is worth once the later parameters have their values, the last one first.
    When the argument mentions none of those, this is what it is worth to the caller. -/
theorem expandCall_places {t call : Stmt} {n : Nat} (hCall : call ∈ t.number.calls)
    (h : expandCall r (Draft.of t.number) call = .ok (d, n))
    (hCopy : (e, copy) ∈ (expansions r n (Draft.of t.number) [call]).zip
      (privateCopies r n (Draft.of t.number) [call]))
    (hPure : ∀ v ∈ e.function.passed e.args, v.2.buffers = []) :
    ∃ names, Placed (expansions r n (Draft.of t.number) [call]) d e copy names
      ∧ ∀ before p w later, e.function.passed e.args = before ++ (p, w) :: later →
        p ∉ before.map Prod.fst → (∀ x ∈ e.function.body.binders, x.name ≠ p) →
        ∀ u, e.Use p u → ∀ env env' : Env, (∀ x, .scalar x ∉ copy.binders → env' x = env x) → ∀ m,
          (∀ settled, settle? m env later = some settled →
              (copied names (e.function.passed e.args) u).value? env' m = w.value? settled m)
            ∧ ((∀ x ∈ w.scalars, x ∉ later.map Prod.fst) →
              (copied names (e.function.passed e.args) u).value? env' m = w.value? env m) := by
  obtain ⟨log, hExpands, hLength⟩ := exists_expands_of_expand h (.done d)
  obtain rfl : n = log.length := by simpa using hLength.symm
  have hLog : expansions r log.length (Draft.of t.number) [call] = log := hExpands.expansions_eq
  rw [hLog] at hCopy ⊢
  obtain ⟨names, hPlaced⟩ := hExpands.placed (waiting_number (List.singleton_sublist.mpr hCall)) _ hCopy
  refine ⟨names, hPlaced, ?_⟩
  intro before p w later hPassed hFirst hInside u hUse env env' hEnv m
  exact hPlaced.value_use hPure hPassed hFirst hInside hUse hEnv m

/-- Puts a number into a place of a buffer. -/
def placing : Function where
  name := "place"
  params := [⟨"y", fourCells .output⟩, ⟨"i", ⟨[], .int32, .input, .byValue⟩⟩,
    ⟨"j", ⟨[], .int32, .input, .byValue⟩⟩]
  body := .store ⟨0, none⟩ "y" [.var "i"] (.var "j")

/-- A call of it. -/
def placingCall (args : List Arg) : Stmt := .call ⟨1, none⟩ "place" args

/-- A program that makes this call. -/
def placingHost (args : List Arg) : Stmt := .decl ⟨0, none⟩ "a" (fourCells .inout) (placingCall args)

/-- The first argument mentions the first parameter, the second one an earlier one. -/
def mirroring : List Arg := [.buffer "a", .value (.sub (.int 3) (.var "i")), .value (.var "i")]

/-- Both parameters are worth what is passed. -/
theorem mirroring_placed : ∃ d copy names,
    expandCall ⟨[placing]⟩ (Draft.of (placingHost mirroring).number) (placingCall mirroring)
        = .ok (d, 1)
      ∧ Placed (expansions ⟨[placing]⟩ 1 (Draft.of (placingHost mirroring).number)
        [placingCall mirroring]) d ⟨placing, mirroring⟩ copy names
      ∧ ∀ (env : Env) m,
        (copied names (placing.passed mirroring) (.var "i")).value? env m = some (3 - env "i")
          ∧ (copied names (placing.passed mirroring) (.var "j")).value? env m = some (env "i") := by
  have hCount : (expandCall ⟨[placing]⟩ (Draft.of (placingHost mirroring).number)
      (placingCall mirroring)).toOption.map Prod.snd = some 1 := by decide +kernel
  obtain ⟨⟨d, n⟩, hOutcome, rfl⟩ := Option.map_eq_some_iff.mp hCount
  have hExpand := Outcome.eq_ok_of_toOption hOutcome
  have hFits : (bindArgs (fun name => (Draft.of (placingHost mirroring).number).tree.bufferAt? name 1)
      "place" placing.body.written {} placing.params mirroring).toOption.isSome := by decide +kernel
  obtain ⟨b, hFit⟩ := Option.isSome_iff_exists.mp hFits
  obtain ⟨copy, hCopy⟩ : ∃ copy, (⟨placing, mirroring⟩, copy)
      ∈ (expansions ⟨[placing]⟩ 1 (Draft.of (placingHost mirroring).number)
        [placingCall mirroring]).zip (privateCopies ⟨[placing]⟩ 1
          (Draft.of (placingHost mirroring).number) [placingCall mirroring]) := by
    rw [placingCall, expansions_call rfl (Outcome.eq_ok_of_toOption hFit),
      privateCopies_call rfl (Outcome.eq_ok_of_toOption hFit)]
    exact ⟨_, List.mem_cons_self⟩
  obtain ⟨names, hPlaced, hUses⟩ := expandCall_places (List.mem_singleton.mpr rfl) hExpand hCopy
    (by decide)
  refine ⟨d, copy, names, hExpand, hPlaced, fun env m => ⟨?_, ?_⟩⟩
  · exact (hUses [] "i" (.sub (.int 3) (.var "i")) [("j", .var "i")] rfl (by decide) (by decide) _ .scalar
      env env (fun _ _ => rfl) m).2 (by decide)
  · exact (hUses [("i", .sub (.int 3) (.var "i"))] "j" (.var "i") [] rfl (by decide) (by decide) _ .scalar
      env env (fun _ _ => rfl) m).2 (by decide)

/-- The arguments have the names of the parameters, the other way round. -/
def swapping : List Arg := [.buffer "a", .value (.var "j"), .value (.var "i")]

/-- Different numbers. -/
def oneTwo : Env := fun x => if x = "i" then 1 else 2

/-- The place and the number that are passed are 2 and 1. In the expanded program both are 1. -/
theorem swapped_misplaced : ∃ d after after',
    placingCall swapping ∈ (placingHost swapping).number.calls
      ∧ expandCall ⟨[placing]⟩ (Draft.of (placingHost swapping).number) (placingCall swapping)
        = .ok (d, 1)
      ∧ placing.body.phrases = [[.var "i", .var "j"]]
      ∧ Expr.values? oneTwo fives ((placing.passed swapping).map Prod.snd) = some [2, 1]
      ∧ d.tree.phrases.map (Expr.values? oneTwo fives) = [some [4], some [1, 1]]
      ∧ (placingHost swapping).number.execute ⟨[placing]⟩ .blank 1 .whole oneTwo fives = some after
      ∧ after "a" [2] = some 1
      ∧ d.tree.execute ⟨[placing]⟩ .blank 1 .whole oneTwo fives = some after'
      ∧ after' "a" [2] = some 5 := by
  have hValue : ((placingHost swapping).number.execute ⟨[placing]⟩ .blank 1 .whole oneTwo fives).bind
      (fun after => after "a" [2]) = some 1 := by decide +kernel
  have hMade : ((expandCall ⟨[placing]⟩ (Draft.of (placingHost swapping).number)
      (placingCall swapping)).toOption.map fun p => (p.2,
        p.1.tree.phrases.map (Expr.values? oneTwo fives))) = some (1, [some [4], some [1, 1]]) := by
    decide +kernel
  have hCopy : ((expandCall ⟨[placing]⟩ (Draft.of (placingHost swapping).number)
      (placingCall swapping)).toOption.bind fun p => p.1.tree.execute ⟨[placing]⟩ .blank 1 .whole oneTwo
        fives).bind (fun after => after "a" [2]) = some 5 := by decide +kernel
  obtain ⟨after, hRun, hAfter⟩ := Option.bind_eq_some_iff.mp hValue
  obtain ⟨after', hBoth, hAfter'⟩ := Option.bind_eq_some_iff.mp hCopy
  obtain ⟨⟨d, n⟩, hExpand, hRun'⟩ := Option.bind_eq_some_iff.mp hBoth
  rw [hExpand] at hMade
  obtain ⟨rfl, hPhrases⟩ := Prod.mk.inj (Option.some.inj hMade)
  exact ⟨d, after, after', List.mem_singleton.mpr rfl, Outcome.eq_ok_of_toOption hExpand, rfl, rfl,
    hPhrases, hRun, hAfter, hRun', hAfter'⟩

end Restructure

end LoopNest

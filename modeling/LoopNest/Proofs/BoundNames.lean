import LoopNest.Proofs.ParameterUses

/-! # Names that a function binds and takes from outside

  A copy of a function gives new names to the iterators of its loops. A scalar that no loop around it
  binds comes from outside: it is a parameter that stands for a value, or it means what it means to the
  caller. So a scalar should be renamed where a loop around it binds it and nowhere else.

  `Restructure.specialize` is what becomes of an expression below some loops. The names are changed in
  the whole copy at once, so an expression becomes what it would become if all loops of the function
  were around it.

  Main statement: this is what it should become if each of its scalars is bound by a loop around it or
  by no loop at all (`Restructure.expandCall_specializes`). Otherwise a use of a parameter may become an
  iterator of a loop elsewhere (`Restructure.filling_loses_value`). -/

namespace LoopNest

/-! ## Phrases in scope -/

namespace Stmt

mutual
/-- The expressions of each statement, with the iterators of the loops around it. -/
def scopedPhrases (around : List String) : Stmt → List (List String × List Expr)
  | .decl s n b body => (around, (Stmt.decl s n b body).exprs) :: scopedPhrases around body
  | .loop s h body => (around, (Stmt.loop s h body).exprs) :: scopedPhrases (h.iter :: around) body
  | .guard s c body => (around, (Stmt.guard s c body).exprs) :: scopedPhrases around body
  | .branch s c yes no =>
    (around, (Stmt.branch s c yes no).exprs) :: (scopedPhrases around yes ++ scopedPhrases around no)
  | .block s stmts => (around, (Stmt.block s stmts).exprs) :: scopedPhrasesAll around stmts
  | t => [(around, t.exprs)]
/-- The expressions of the statements of a list, with the iterators of the loops around them. -/
def scopedPhrasesAll (around : List String) : List Stmt → List (List String × List Expr)
  | [] => []
  | t :: ts => scopedPhrases around t ++ scopedPhrasesAll around ts
end

/-- The iterator that a statement binds for its body. -/
def iterator? : Stmt → Option String
  | .loop _ h _ => some h.iter
  | _ => none

/-- The iterators of all loops of a program. -/
def iterators (t : Stmt) : List String := t.nodes.filterMap iterator?

theorem mem_iterators {t : Stmt} {x : String} : x ∈ t.iterators ↔ .scalar x ∈ t.binders := by
  have hSame : ∀ u : Stmt, u.iterator? = some x ↔ u.binder? = some (.scalar x) := by
    intro u
    cases u <;> simp [iterator?, binder?]
  simp only [iterators, mem_binders, List.mem_filterMap, hSame]

theorem scopedPhrasesAll_eq_flatMap (around : List String) (ts : List Stmt) :
    scopedPhrasesAll around ts = ts.flatMap (scopedPhrases around) := by
  induction ts with
  | nil => rfl
  | cons t ts ih => rw [scopedPhrasesAll, ih, List.flatMap_cons]

/-- What is below a statement is in the scope of its iterator. -/
theorem scopedPhrases_eq_cons (around : List String) (t : Stmt) : t.scopedPhrases around
    = (around, t.exprs) :: t.children.flatMap (scopedPhrases (t.iterator?.toList ++ around)) := by
  cases t with
  | block s ts => rw [scopedPhrases, scopedPhrasesAll_eq_flatMap]; rfl
  | _ => simp [scopedPhrases, children, iterator?]

/-- These are the phrases of the program. -/
theorem map_snd_scopedPhrases : ∀ (t : Stmt) (around : List String),
    (t.scopedPhrases around).map Prod.snd = t.phrases := by
  refine children_ind fun t ih around => ?_
  rw [scopedPhrases_eq_cons, phrases_eq_cons, List.map_cons, List.map_flatMap]
  exact congrArg _ (List.flatMap_congr fun u hu => ih u hu _)

/-- What is around a phrase is bound by a loop. -/
theorem mem_iterators_of_scopedPhrases : ∀ (t : Stmt) {around : List String}
    {place : List String × List Expr}, place ∈ t.scopedPhrases around →
    ∀ x ∈ place.1, x ∈ around ∨ x ∈ t.iterators := by
  refine children_ind fun t ih {around place} hPlace x hx => ?_
  have hBelow : ∀ u ∈ t.children, u.iterators ⊆ t.iterators := fun u hu =>
    List.filterMap_subset _ fun w hw => mem_nodes_of_child hu hw
  rw [scopedPhrases_eq_cons, List.mem_cons, List.mem_flatMap] at hPlace
  rcases hPlace with rfl | ⟨u, hu, hPlace⟩
  · exact .inl hx
  · rcases ih u hu hPlace x hx with hAround | hInside
    · rcases List.mem_append.mp hAround with hOwn | hAround
      · exact .inr (List.mem_filterMap.mpr ⟨t, self_mem_nodes t, Option.mem_toList.mp hOwn⟩)
      · exact .inl hAround
    · exact .inr (hBelow u hu hInside)

end Stmt

/-! ## Expressions -/

/-- A read with subscripts stays, its subscripts are filled. -/
theorem Expr.fill_load_cons (values : List (String × Expr)) (b : String) (i : Expr) (is : List Expr) :
    fill values (.load b (i :: is)) = .load b ((i :: is).map (fill values)) := by
  induction values generalizing i is with
  | nil => rw [fill_nil, List.map_congr_left fun j _ => fill_nil j, List.map_id']
  | cons v values ih =>
    simp [fill_cons, substitute, substituteCell, substituteAll, substituteCellAll, ih,
      substituteAll_eq_map, substituteCellAll_eq_map]

namespace Restructure

mutual
/-- What becomes of an expression of a function below loops with some iterators. These have new names,
    and a scalar from outside becomes the argument if it is a parameter with a value. -/
def specialize (names : Renamings) (values : List (String × Expr)) (around : List String) : Expr → Expr
  | .var x =>
    if around.contains x then .var (names.scalars.apply x) else Expr.fill values (.var x)
  | .load b [] => Expr.fill values (.load (names.buffers.apply b) [])
  | .load b (i :: is) =>
    .load (names.buffers.apply b)
      (specialize names values around i :: specializeAll names values around is)
  | .unary o e => .unary o (specialize names values around e)
  | .binary o a b => .binary o (specialize names values around a) (specialize names values around b)
  | e => e
/-- What becomes of the expressions of a list. -/
def specializeAll (names : Renamings) (values : List (String × Expr)) (around : List String) :
    List Expr → List Expr
  | [] => []
  | e :: es => specialize names values around e :: specializeAll names values around es
end

theorem specializeAll_eq_map (names : Renamings) (values : List (String × Expr))
    (around : List String) (es : List Expr) :
    specializeAll names values around es = es.map (specialize names values around) := by
  induction es with
  | nil => rfl
  | cons e es ih => rw [specializeAll, ih, List.map_cons]

variable {names : Renamings} {values : List (String × Expr)} {around : List String}

/-- Only the scalars of an expression matter. -/
theorem specialize_congr {around' : List String} : ∀ e : Expr,
    (∀ x ∈ e.scalars, x ∈ around ↔ x ∈ around') →
    specialize names values around e = specialize names values around' e := by
  refine Expr.ind ?int ?float ?bool ?var ?load ?unary ?binary
  case int => exact fun _ _ => rfl
  case float => exact fun _ _ => rfl
  case bool => exact fun _ _ => rfl
  case var =>
    intro x h
    have hSame : around.contains x = around'.contains x := by
      rw [Bool.eq_iff_iff, List.contains_iff_mem, List.contains_iff_mem]
      exact h x (by simp)
    rw [specialize, specialize, hSame]
  case load =>
    intro b is ih h
    cases is with
    | nil => rw [specialize, specialize]
    | cons i is =>
      have hEach : ∀ j ∈ i :: is, specialize names values around j
          = specialize names values around' j := fun j hj =>
        ih j hj fun x hx => h x (by rw [Expr.scalars_load]; exact List.mem_flatMap.mpr ⟨j, hj, hx⟩)
      rw [specialize, specialize, specializeAll_eq_map, specializeAll_eq_map, ← List.map_cons,
        ← List.map_cons, List.map_congr_left hEach]
  case unary =>
    intro o e ih h
    rw [Expr.scalars_unary] at h
    rw [specialize, specialize, ih h]
  case binary =>
    intro o a b iha ihb h
    simp only [Expr.scalars_binary, List.mem_append] at h
    rw [specialize, specialize, iha fun x hx => h x (.inl hx), ihb fun x hx => h x (.inr hx)]

/-- Copying treats an expression as if everything that is renamed were bound around it. -/
theorem copied_eq_specialize (hNew : ∀ x ∈ around, names.scalars.apply x ∉ values.map Prod.fst)
    (hOther : ∀ x, x ∉ around → names.scalars.apply x = x) :
    ∀ e : Expr, copied names values e = specialize names values around e := by
  unfold copied
  refine Expr.ind ?int ?float ?bool ?var ?load ?unary ?binary
  case int => exact fun v => Expr.fill_eq_self (by simp [Expr.rename]) (by simp [Expr.rename])
  case float => exact fun v => Expr.fill_eq_self (by simp [Expr.rename]) (by simp [Expr.rename])
  case bool => exact fun v => Expr.fill_eq_self (by simp [Expr.rename]) (by simp [Expr.rename])
  case var =>
    intro x
    rw [Expr.rename, specialize]
    by_cases hx : x ∈ around
    · -- no argument is put into what has got a new name
      rw [if_pos (List.contains_iff_mem.mpr hx)]
      exact Expr.fill_eq_self (by simpa using hNew x hx) (by simp)
    · rw [if_neg (by simpa using hx), hOther x hx]
  case load =>
    intro b is ih
    cases is with
    | nil => rw [Expr.rename, specialize, Expr.renameAll]
    | cons i is =>
      rw [Expr.rename, Expr.renameAll_eq_map, List.map_cons, Expr.fill_load_cons, ← List.map_cons,
        List.map_map, specialize, specializeAll_eq_map, ← List.map_cons]
      exact congrArg _ (List.map_congr_left ih)
  case unary => exact fun o e ih => by rw [Expr.rename, Expr.fill_unary, ih, specialize]
  case binary => exact fun o a b iha ihb => by rw [Expr.rename, Expr.fill_binary, specialize, iha, ihb]

/-- A scalar from outside becomes its argument, or it keeps its name. -/
theorem fill_outside {x : String} (h : values.lookup x = none ∨ InOrder values) :
    Expr.fill values (.var x) = (values.lookup x).getD (.var x) := by
  cases hLookup : values.lookup x with
  | none =>
    refine Expr.fill_eq_self (fun y hy hMem => ?_) (by simp)
    obtain rfl := List.mem_singleton.mp hy
    obtain ⟨w, hw⟩ := exists_lookup_of_mem hMem
    rw [hLookup] at hw
    cases hw
  | some w =>
    rw [hLookup] at h
    exact Expr.fill_var (h.resolve_left (by simp)) hLookup

/-! ## Copies -/

variable {r : Registry} {d : Draft} {e : Expansion} {copy : Stmt} {log : List Expansion}

/-- **Copies**: an expression of a function becomes what it would become if all loops of the function
    were around it. -/
theorem Placed.specialized (h : Placed log d e copy names) {taken : List String}
    (hParams : e.function.params.map Param.name ⊆ taken)
    (hChosen : names.Chosen taken (e.function.aliases e.args) e.function.body.binders) :
    copy.phrases = (e.function.body.scopedPhrases []).map fun place =>
      place.2.map (specialize names (e.function.passed e.args) e.function.body.iterators) := by
  have hNew : ∀ x ∈ e.function.body.iterators,
      names.scalars.apply x ∉ (e.function.passed e.args).map Prod.fst := by
    intro x hx hMem
    obtain ⟨c, hc⟩ := Option.isSome_iff_exists.mp
      ((hChosen.iterators x).mpr (Stmt.mem_iterators.mp hx))
    rw [Expr.Renaming.apply_of_lookup hc] at hMem
    exact (hChosen.scalars.new rfl hc).2 (hParams (mem_params_of_passed hMem))
  have hOther : ∀ x, x ∉ e.function.body.iterators → names.scalars.apply x = x := by
    intro x hx
    apply Expr.Renaming.apply_of_none
    rw [← Option.not_isSome_iff_eq_none, hChosen.iterators, ← Stmt.mem_iterators]
    exact hx
  rw [h.phrases, ← Stmt.map_snd_scopedPhrases e.function.body [], List.map_map]
  exact List.map_congr_left fun place _ =>
    List.map_congr_left fun w _ => copied_eq_specialize hNew hOther w

/-- **Scopes of a copy**: take any program and any functions, and expand a call. Every copy that is made
    is in the program in the end but for its calls, which are expanded, too. Its expressions are those
    of the function, each one specialized as if all loops of the function were around it. If each
    scalar of an expression is bound by a loop around it or by no loop at all, this is how it is
    specialized below the loops that are around it: the scalars that are bound there are renamed, and
    no others. Scalars from outside keep their names, but for the parameters with a value, which
    become their arguments when no argument mentions a later one of these parameters. -/
theorem expandCall_specializes {t call : Stmt} {n : Nat} (hCall : call ∈ t.number.calls)
    (h : expandCall r (Draft.of t.number) call = .ok (d, n))
    (hCopy : (e, copy) ∈ (expansions r n (Draft.of t.number) [call]).zip
      (privateCopies r n (Draft.of t.number) [call])) :
    ∃ names, Placed (expansions r n (Draft.of t.number) [call]) d e copy names
      ∧ (copy.phrases = (e.function.body.scopedPhrases []).map fun place =>
          place.2.map (specialize names (e.function.passed e.args) e.function.body.iterators))
      ∧ (∀ place ∈ e.function.body.scopedPhrases [], ∀ w ∈ place.2,
          (∀ x ∈ w.scalars, x ∈ place.1 ∨ x ∉ e.function.body.iterators) →
          specialize names (e.function.passed e.args) e.function.body.iterators w
            = specialize names (e.function.passed e.args) place.1 w)
      ∧ ∀ x, (e.function.passed e.args).lookup x = none ∨ InOrder (e.function.passed e.args) →
        Expr.fill (e.function.passed e.args) (.var x)
          = ((e.function.passed e.args).lookup x).getD (.var x) := by
  obtain ⟨log, hExpands, hLength⟩ := exists_expands_of_expand h (.done d)
  obtain rfl : n = log.length := by simpa using hLength.symm
  have hLog : expansions r log.length (Draft.of t.number) [call] = log := hExpands.expansions_eq
  rw [hLog] at hCopy ⊢
  obtain ⟨names, hPlaced, taken, hParams, hChosen⟩ :=
    hExpands.placed_chosen (waiting_number (List.singleton_sublist.mpr hCall)) _ hCopy
  refine ⟨names, hPlaced, hPlaced.specialized hParams hChosen, fun place hPlace w _ hScalars => ?_,
    fun x hx => fill_outside hx⟩
  refine specialize_congr w fun x hx => ⟨fun hBound => ?_, fun hAround => ?_⟩
  · exact (hScalars x hx).resolve_right fun hNone => hNone hBound
  · exact (Stmt.mem_iterators_of_scopedPhrases _ hPlace x hAround).resolve_left List.not_mem_nil

/-- Overwrites elements if the number that is passed is small. They are counted by an iterator of a
    given name. -/
def filling (iter : String) : Function where
  name := "fill"
  params := [⟨"y", fourCells .output⟩, oneValue]
  body := .guard ⟨0, none⟩ (.lessThan (.var "k") (.int 5))
    (.loop ⟨1, some "L"⟩ { iter := iter, lower := .int 1, upper := .int 4 }
      (.store ⟨2, none⟩ "y" [.var iter] (.var "n")))

/-- What is passed to it. -/
def eightMore : List Arg := [.buffer "a", .value (.add (.var "i") (.int 8))]

/-- A call of it. -/
def fillingCall : Stmt := .call ⟨1, some "C"⟩ "fill" eightMore

/-- A program that makes this call. -/
def fillingHost : Stmt := .decl ⟨0, none⟩ "a" (fourCells .inout) fillingCall

/-- The argument mentions a scalar that has the name of the iterator. -/
theorem filling_specializes : ∃ d copy names,
    expandCall ⟨[filling "i"]⟩ (Draft.of fillingHost.number) fillingCall = .ok (d, 1)
      ∧ Placed (expansions ⟨[filling "i"]⟩ 1 (Draft.of fillingHost.number) [fillingCall]) d
        ⟨filling "i", eightMore⟩ copy names
      ∧ copy.phrases = [[.lessThan (.add (.var "i") (.int 8)) (.int 5)], [.int 1, .int 4],
        [.var (names.scalars.apply "i"), .var "n"]]
      ∧ specialize names ((filling "i").passed eightMore) ["i"] (.lessThan (.var "k") (.int 5))
        = specialize names ((filling "i").passed eightMore) [] (.lessThan (.var "k") (.int 5))
      ∧ Expr.fill ((filling "i").passed eightMore) (.var "k") = .add (.var "i") (.int 8) := by
  have hCount : (expandCall ⟨[filling "i"]⟩ (Draft.of fillingHost.number) fillingCall
      ).toOption.map Prod.snd = some 1 := by decide +kernel
  obtain ⟨⟨d, n⟩, hOutcome, rfl⟩ := Option.map_eq_some_iff.mp hCount
  have hExpand := Outcome.eq_ok_of_toOption hOutcome
  have hFits : (bindArgs (fun name => (Draft.of fillingHost.number).tree.bufferAt? name 1) "fill"
      (filling "i").body.written {} (filling "i").params eightMore).toOption.isSome := by
    decide +kernel
  obtain ⟨b, hFit⟩ := Option.isSome_iff_exists.mp hFits
  obtain ⟨copy, hCopy⟩ : ∃ copy, (⟨filling "i", eightMore⟩, copy)
      ∈ (expansions ⟨[filling "i"]⟩ 1 (Draft.of fillingHost.number) [fillingCall]).zip
        (privateCopies ⟨[filling "i"]⟩ 1 (Draft.of fillingHost.number) [fillingCall]) := by
    rw [fillingCall, expansions_call rfl (Outcome.eq_ok_of_toOption hFit),
      privateCopies_call rfl (Outcome.eq_ok_of_toOption hFit)]
    exact ⟨_, List.mem_cons_self⟩
  obtain ⟨names, hPlaced, hPhrases, hScopes, hOutside⟩ := expandCall_specializes
    (List.mem_singleton.mpr rfl) hExpand hCopy
  refine ⟨d, copy, names, hExpand, hPlaced, hPhrases, ?_, hOutside "k" (.inr (by decide))⟩
  exact hScopes ([], [.lessThan (.var "k") (.int 5)]) List.mem_cons_self _ List.mem_cons_self
    (by decide)

/-- The condition uses the parameter `k`, and inside of it there is a loop that counts by `k`. The
    number that is passed is 9, so that nothing is overwritten. The copy looks at what its caller
    happens to have in `k.1`. -/
theorem filling_loses_value : ∃ d after after',
    fillingCall ∈ fillingHost.number.calls
      ∧ expandCall ⟨[filling "k"]⟩ (Draft.of fillingHost.number) fillingCall = .ok (d, 1)
      ∧ ([], [.lessThan (.var "k") (.int 5)]) ∈ (filling "k").body.scopedPhrases []
      ∧ d.tree.phrases.map (List.flatMap Expr.scalars) = [[], ["k.1"], [], ["k.1", "n"]]
      ∧ fillingHost.number.execute ⟨[filling "k"]⟩ .blank 1 .whole oneTwo fives = some after
      ∧ after "a" [1] = some 5
      ∧ d.tree.execute ⟨[filling "k"]⟩ .blank 1 .whole oneTwo fives = some after'
      ∧ after' "a" [1] = some 2 := by
  have hValue : (fillingHost.number.execute ⟨[filling "k"]⟩ .blank 1 .whole oneTwo fives).bind
      (fun after => after "a" [1]) = some 5 := by decide +kernel
  have hMade : ((expandCall ⟨[filling "k"]⟩ (Draft.of fillingHost.number) fillingCall
      ).toOption.map fun p => (p.2, p.1.tree.phrases.map (List.flatMap Expr.scalars)))
        = some (1, [[], ["k.1"], [], ["k.1", "n"]]) := by decide +kernel
  have hCopy : ((expandCall ⟨[filling "k"]⟩ (Draft.of fillingHost.number) fillingCall
      ).toOption.bind fun p => p.1.tree.execute ⟨[filling "k"]⟩ .blank 1 .whole oneTwo fives).bind
        (fun after => after "a" [1]) = some 2 := by decide +kernel
  obtain ⟨after, hRun, hAfter⟩ := Option.bind_eq_some_iff.mp hValue
  obtain ⟨after', hBoth, hAfter'⟩ := Option.bind_eq_some_iff.mp hCopy
  obtain ⟨⟨d, n⟩, hExpand, hRun'⟩ := Option.bind_eq_some_iff.mp hBoth
  rw [hExpand] at hMade
  obtain ⟨rfl, hScalars⟩ := Prod.mk.inj (Option.some.inj hMade)
  exact ⟨d, after, after', List.mem_singleton.mpr rfl, Outcome.eq_ok_of_toOption hExpand,
    List.mem_of_getElem? (i := 0) rfl, hScalars, hRun, hAfter, hRun', hAfter'⟩

end Restructure

end LoopNest

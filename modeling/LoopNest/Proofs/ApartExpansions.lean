import LoopNest.Proofs.ExpandedCalls

/-! # Expansions are apart

  Every expansion binds iterators and buffers under names of its own, however often a function is
  expanded (`Restructure.expandAll_apart`).

  * **One expansion**: whatever a private copy binds has a name that nothing in the program has
    (`Restructure.fresh_of_privateCopy`), and the program with the copy binds what both of them bind
    (`Restructure.Pending.binders_perm`).
  * **All expansions**: so the names of a copy are not those of any copy made earlier, which stands in
    the program by then (`Restructure.Expands.apart`). -/

namespace LoopNest

namespace Stmt

/-- Two statements bind different names, also where one is of an iterator and one of a buffer. -/
def BindApart (t u : Stmt) : Prop := ∀ x ∈ t.binders, ∀ y ∈ u.binders, x.name ≠ y.name

theorem BindApart.of_subset {t t' u : Stmt} (h : t'.BindApart u) (hSubset : t.binders ⊆ t'.binders) :
    t.BindApart u := fun x hx => h x (hSubset hx)

/-- What is bound around a replaced statement stays. -/
theorem Replaces.exists_binders {u v t t' : Stmt} (h : Replaces u v t t') :
    ∃ before after, t.binders = before ++ u.binders ++ after
      ∧ t'.binders = before ++ v.binders ++ after :=
  h.exists_around fun _ _ hOutline => by cases hOutline <;> rfl

end Stmt

namespace Restructure

/-! ## One expansion -/

/-- A buffer that is not a parameter stands for no argument. -/
theorem lookup_aliases_eq_none {f : Function} {args : List Arg} {b : String}
    (h : b ∉ f.params.map Param.name) : (f.aliases args).lookup b = none := by
  cases hLookup : (f.aliases args).lookup b with
  | none => rfl
  | some a =>
    obtain ⟨⟨p, arg⟩, hPair, hBuffer⟩ := List.mem_filterMap.mp
      (List.mem_reverse.mp (mem_of_lookup hLookup))
    obtain ⟨c, -, hEq⟩ := Option.map_eq_some_iff.mp hBuffer
    cases hEq
    exact absurd (List.mem_map_of_mem (List.of_mem_zip hPair).1) h

/-- **New names**: what a private copy binds has a name that is not used in the program, if the function
    declares no buffer under the name of a parameter. -/
theorem fresh_of_privateCopy {host copy : Stmt} {next next' : Nat} {f : Function} {args : List Arg}
    {b : Binding} {buffer? : String → Option Buffer} {callee front : String}
    (hCount : args.length = f.params.length)
    (hFit : bindArgs buffer? callee f.body.written {} f.params args = .ok b)
    (hCopy : privateCopy host next f b front = (copy, next'))
    (hInside : ∀ n, .buffer n ∈ f.body.binders → n ∉ f.params.map Param.name) :
    ∀ y ∈ copy.binders, y.name ∉ host.usedNames := by
  obtain ⟨hBuffers, hValues, -⟩ := bindArgs_spec hCount hFit
  have hParams : ∀ x ∈ b.values.map Prod.fst, x ∈ f.params.map Param.name := by
    rw [hValues, List.nil_append]
    exact fun x hx => mem_params_of_passed hx
  obtain ⟨names, hChosen, hTranslated, -⟩ := translated_privateCopy hCopy hParams
  intro y hy hUsed
  have hTaken : y.name ∈ f.params.map Param.name ++ host.usedNames := List.mem_append_right _ hUsed
  cases y with
  | scalar y => exact hChosen.not_mem_of_translated hTranslated hy hTaken
  | buffer c =>
    rw [(hTranslated []).binders_eq] at hy
    obtain ⟨x | n, hn, hEq⟩ := List.mem_map.mp hy
    · cases hEq
    · obtain ⟨c', hc⟩ := Option.isSome_iff_exists.mp ((hChosen.declared n).mpr (.inr hn))
      obtain rfl : c' = c := by simpa [Symbol.through, Expr.Renaming.apply_of_lookup hc] using hEq
      have hNone : b.buffers.lookup n = none := by
        rw [hBuffers, List.append_nil]
        exact lookup_aliases_eq_none (hInside n hn)
      exact (hChosen.buffers.new hNone hc).2 hTaken

/-- **What is bound** after an expansion is what was bound before and what the copy binds. -/
theorem Pending.binders_perm {d : Draft} {site : Site} {callee : String} {args : List Arg}
    {calls : List Stmt} (h : Pending d (.call site callee args :: calls)) (copy : Stmt) :
    (d.tree.update site.id fun _ => copy).binders.Perm (d.tree.binders ++ copy.binders) := by
  obtain ⟨before, after, hOld, hNew⟩ := (h.replaces copy).exists_binders
  have hCall : (Stmt.call site callee args).binders = [] := rfl
  rw [hNew, hOld, hCall, List.append_nil, List.append_assoc, List.append_assoc]
  exact List.perm_append_comm.append_left before

/-! ## All expansions -/

variable {r : Registry} {d d' : Draft} {calls : List Stmt} {log : List Expansion}

/-- **Expansions are apart** from each other and from the program: together they bind what is bound
    in the end, and no two of them bind the same name. -/
theorem Expands.apart (h : Expands r d calls log d') (hPending : Pending d calls)
    (hInside : ∀ f ∈ r.functions, ∀ n, .buffer n ∈ f.body.binders → n ∉ f.params.map Param.name) :
    let copies := privateCopies r log.length d calls
    copies.length = log.length
      ∧ d'.tree.binders.Perm (d.tree.binders ++ copies.flatMap Stmt.binders)
      ∧ (d.tree :: copies).Pairwise Stmt.BindApart := by
  induction h with
  | done d => simp [privateCopies]
  | @call d d' site callee args calls f b copy next log hFunction hCount hFit hCopied _ ih =>
    have hSpec := privateCopy_spec d.tree d.next f b (site.label.getD callee)
    rw [hCopied] at hSpec
    obtain ⟨hNext, hIds, hBounds, -, -⟩ := hSpec
    have hNew := fresh_of_privateCopy hCount hFit hCopied
      (hInside f (List.mem_of_find?_eq_some hFunction))
    have hBound := hPending.binders_perm copy
    obtain ⟨hLength, hAll, hApart⟩ := ih (hPending.expand hNext hIds hBounds)
    rw [List.length_cons, privateCopies_call hFunction hFit, hCopied]
    generalize privateCopies r log.length ⟨d.tree.update site.id fun _ => copy, next⟩
      (copy.calls ++ calls) = copies at hLength hAll hApart
    obtain ⟨hLater, hCopiesApart⟩ := List.pairwise_cons.mp hApart
    refine ⟨by simp [hLength], ?_, ?_⟩
    · rw [List.flatMap_cons, ← List.append_assoc]
      exact hAll.trans (hBound.append_right _)
    · -- the program and the copy both stand in the next program, which is apart from later copies
      have hTree : d.tree.binders ⊆ (d.tree.update site.id fun _ => copy).binders :=
        fun x hx => hBound.mem_iff.mpr (List.mem_append_left _ hx)
      have hCopy : copy.binders ⊆ (d.tree.update site.id fun _ => copy).binders :=
        fun x hx => hBound.mem_iff.mpr (List.mem_append_right _ hx)
      have hFirst : d.tree.BindApart copy := by
        intro x hx y hy hEq
        exact hNew y hy (hEq ▸ Stmt.name_mem_usedNames_of_binders hx)
      refine .cons (fun u hu => ?_) (.cons (fun u hu => (hLater u hu).of_subset hCopy) hCopiesApart)
      by_cases hHere : u = copy
      · exact hHere ▸ hFirst
      · exact (hLater u ((List.mem_cons.mp hu).resolve_left hHere)).of_subset hTree

/-- **Expansions never share names**: take any program and functions none of which declares a buffer
    under the name of a parameter of its own. When all calls are expanded, what the program and the
    private copies bind is what is bound in the end, and no two of them bind the same name. If the
    labels of the program were different, those of the expanded program are. -/
theorem expandAll_apart {t : Stmt} {n : Nat} (h : expandAll r (Draft.of t.number) = .ok (d, n))
    (hInside : ∀ f ∈ r.functions, ∀ b, .buffer b ∈ f.body.binders → b ∉ f.params.map Param.name) :
    let copies := privateCopies r n (Draft.of t.number) t.number.calls
    copies.length = n
      ∧ d.tree.binders.Perm (t.number.binders ++ copies.flatMap Stmt.binders)
      ∧ (t.number :: copies).Pairwise
        (fun u w => ∀ x ∈ u.binders, ∀ y ∈ w.binders, x.name ≠ y.name)
      ∧ (t.labels.Nodup → d.tree.labels.Nodup) := by
  obtain ⟨log, hExpands, rfl⟩ := exists_expands h
  obtain ⟨hLength, hAll, hApart⟩ := hExpands.apart (pending_number t) hInside
  exact ⟨hLength, hAll, hApart,
    fun hLabels => (sound_expandAll (Draft.Sound.number hLabels) h).labels⟩

/-- Both copies of the multiplication have an iterator of their own, apart from that of the program. -/
theorem scaling_apart :
    let copies := privateCopies ⟨[scaling, scalingTwice]⟩ 3 (Draft.of scalingHost.number)
      scalingHost.number.calls
    (∀ f ∈ [scaling, scalingTwice], ∀ b, .buffer b ∈ f.body.binders → b ∉ f.params.map Param.name)
      ∧ scalingHost.number.binders = [.buffer "a", .buffer "b", .scalar "i"]
      ∧ copies.map Stmt.binders = [[.buffer "t"], [.scalar "i.1"], [.scalar "i.2"]]
      ∧ (scalingHost.number :: copies).Pairwise
        (fun u w => ∀ x ∈ u.binders, ∀ y ∈ w.binders, x.name ≠ y.name)
      ∧ ∃ d, expandAll ⟨[scaling, scalingTwice]⟩ (Draft.of scalingHost.number) = .ok (d, 3)
        ∧ d.tree.labels.Nodup := by
  have hInside : ∀ f ∈ [scaling, scalingTwice], ∀ b, .buffer b ∈ f.body.binders →
      b ∉ f.params.map Param.name := by
    intro f hf b hb
    obtain rfl | rfl : f = scaling ∨ f = scalingTwice := by simpa using hf
    · have hBound : scaling.body.binders = [.scalar "i"] := rfl
      simp [hBound] at hb
    · have hBound : scalingTwice.body.binders = [.buffer "t"] := rfl
      obtain rfl : b = "t" := by simpa [hBound] using hb
      decide
  obtain ⟨d, hExpand⟩ := exists_scaled
  obtain ⟨-, -, hApart, hLabels⟩ := expandAll_apart hExpand hInside
  exact ⟨hInside, by decide +kernel, by decide +kernel, hApart, d, hExpand, hLabels (by decide +kernel)⟩

end Restructure

end LoopNest

import LoopNest.Proofs.CommittedPrograms
import LoopNest.Proofs.KeptScopes

/-! # Commands in cleanly named programs

  An accepted command leaves a cleanly named program cleanly named, whatever it does with loops.

  * **Reordering**: sinking what lies between two loops into the inner one keeps scopes
    (`Restructure.Framed.keepsScopes`), and so does every permutation of a perfect nest whose bounds
    do not depend on each other (`Restructure.keepsScopes_permuted`).
  * **Splitting** by a constant count: the two new iterators have names that are not in use, so that
    the loops stay scoped when the old iterator is replaced (`Restructure.scoped_splitLoop`).
  * **All commands** but the expansion of calls: `Command.cleanlyNamed_of_perform`. -/

namespace LoopNest.Restructure

open Stmt (LabelledLoop)

variable {bound around : List Symbol} {t t' : Stmt} {k : Nat}

/-! ## Perfect nests -/

/-- What may move into a loop binds nothing. -/
theorem binders_of_movable {iter : String} {w : Stmt} (h : movable iter w = .ok ()) :
    w.binders = [] := by
  have hEach := Outcome.forM_eq_ok.mp h
  refine List.filterMap_eq_nil_iff.mpr fun u hu => ?_
  have hHere := hEach u hu
  cases u <;> first | rfl | cases hHere

theorem Between.binders_of_check {b : Between} {h : LoopHead} (hCheck : b.check h = .ok ()) :
    ∀ w ∈ b.before ++ b.after, w.binders = [] := by
  rcases Between.of_check hCheck with ⟨hBefore, hAfter⟩ | ⟨hMovable, _⟩
  · intro w hw
    rw [hBefore, hAfter] at hw
    cases hw
  · exact fun w hw => binders_of_movable (hMovable w hw)

theorem binders_sequenceAt (next : Nat) (ts : List Stmt) :
    (sequenceAt next ts).1.binders = ts.flatMap Stmt.binders := by
  unfold sequenceAt
  split <;> simp

theorem binders_guardedAt (next : Nat) (e : Expr) (ts : List Stmt) :
    (guardedAt next e ts).1.flatMap Stmt.binders = ts.flatMap Stmt.binders := by
  cases ts with
  | nil => rfl
  | cons w ts => simp [guardedAt, binders_sequenceAt]

/-- The inner body binds what the old one binds when the statements beside it bind nothing. -/
theorem binders_innerBody {b : Between} (hParts : ∀ w ∈ b.before ++ b.after, w.binders = [])
    (inner : LabelledLoop) (next : Nat) : (b.innerBody inner next).1.binders = inner.body.binders := by
  obtain ⟨guarded, k, l, _, _, hEq, _, hGuarded⟩ := innerBody_eq b inner next
  have hGuard : guarded.binders = inner.body.binders := by
    rcases hGuarded with ⟨_, rfl⟩ | ⟨outer, e, id, _, _, rfl⟩
    · rfl
    · simp
  have hNone : ∀ ts : List Stmt, (∀ w ∈ ts, w ∈ b.before ++ b.after) →
      ts.flatMap Stmt.binders = [] :=
    fun ts hts => List.flatMap_eq_nil_iff.mpr fun w hw => hParts w (hts w hw)
  rw [hEq, binders_sequenceAt, List.flatMap_append, List.flatMap_append, binders_guardedAt,
    binders_guardedAt, List.flatMap_singleton, hGuard,
    hNone b.before fun w hw => List.mem_append_left _ hw,
    hNone b.after fun w hw => List.mem_append_right _ hw, List.nil_append, List.append_nil]

/-- **Sinking**: what lies between two loops may move into the inner one. -/
theorem Framed.keepsScopes {inner : LabelledLoop} {b : Between} (h : Framed inner.stmt t b)
    (hCheck : b.check inner.head = .ok ()) (next : Nat) :
    t.KeepsScopes (.loop inner.site inner.head (b.innerBody inner next).1) where
  binders := by
    rw [Stmt.binders_loop, binders_innerBody (Between.binders_of_check hCheck),
      ← Stmt.binders_loop (s := inner.site)]
    exact Stmt.binders_subset h.holds
  scope := by
    intro bound around hScoped
    obtain ⟨hInner, hConds, hParts⟩ := h.parts (C := fun e => e.Scoped bound around)
      (P := fun t => t.Scoped bound around) (fun _ _ => Stmt.scoped_block.mp)
      (fun _ _ _ => Stmt.scoped_guard.mp) hScoped
    obtain ⟨hLower, hUpper, hApart, hBody⟩ := Stmt.scoped_loop.mp hInner
    have hNone := Between.binders_of_check hCheck
    refine Stmt.scoped_loop.mpr ⟨hLower, hUpper, hApart, ?_⟩
    -- below the inner loop there is its iterator besides what was there before
    have hExpr : ∀ {e : Expr}, e.Scoped bound around →
        e.Scoped bound (.scalar inner.head.iter :: around) := fun he =>
      he.mono (List.subset_cons_self _ _) fun _ _ hx => hx
    have hMoved : ∀ w ∈ b.before ++ b.after, w.Scoped bound (.scalar inner.head.iter :: around) := by
      intro w hw
      refine (hParts w hw).mono (List.subset_cons_self _ _) (fun _ _ hx => hx) fun x hx => ?_
      rw [hNone w hw] at hx
      cases hx
    have hIter : (Expr.var inner.head.iter).Scoped bound (.scalar inner.head.iter :: around) :=
      Expr.scoped_var List.mem_cons_self
    have hLast : (inner.head.upper.minus (.int 1)).Scoped bound around :=
      ((Expr.MadeOf.refl _).minus (.int 1 _)).scoped fun d hd => List.mem_singleton.mp hd ▸ hUpper
    have hClosed : PartClosed 0
        (fun e => e.Scoped bound (.scalar inner.head.iter :: around))
        fun t => t.Scoped bound (.scalar inner.head.iter :: around) :=
      ⟨fun _ _ _ => Stmt.scoped_block.mpr, fun _ _ _ _ he hBody => Stmt.scoped_guard.mpr ⟨he, hBody⟩⟩
    exact hClosed.innerBody (Nat.zero_le next) (fun _ _ => Expr.scoped_binary)
      (Expr.scoped_binary hIter (hExpr hLower)) (Expr.scoped_binary hIter (hExpr hLast))
      (fun e he => hExpr (hConds e he)) hMoved hBody

/-- A chain may become a perfect nest. -/
theorem Sinks.keepsScopes {first : Nat} {outer : LabelledLoop} {rest : List LabelledLoop}
    {nest : PerfectNest} (h : Sinks first outer rest nest) : outer.stmt.KeepsScopes (nestOf nest.loops nest.body) := by
  induction h with
  | last l => exact .refl _
  | @next outer inner rest b nest n framed check _ _ _ ih =>
    refine Stmt.keepsScopes_of_parts rfl rfl (fun e he => .of_mem he) fun u hu => ?_
    rw [List.mem_singleton.mp hu]
    exact ⟨outer.body, by simp [LabelledLoop.stmt, Stmt.children],
      (framed.keepsScopes check n).trans ih⟩

/-! ## Permuted nests -/

/-- No bound of a loop mentions the iterator of another loop. -/
def Independent (loops : List (Site × LoopHead)) : Prop :=
  ∀ a ∈ loops, ∀ b ∈ loops, b.2.iter ≠ a.2.iter →
    ∀ e ∈ [a.2.lower, a.2.upper], .scalar b.2.iter ∉ e.symbols

/-- **Permuted nests**: independent loops may stand in any order. -/
theorem keepsScopes_permuted {body : Stmt} {loops loops' : List (Site × LoopHead)}
    (hPerm : loops.Perm loops') (h : Independent loops) :
    (nestOf loops body).KeepsScopes (nestOf loops' body) := by
  induction hPerm with
  | nil => exact .refl body
  | cons l _ ih =>
    refine Stmt.keepsScopes_of_parts rfl rfl (fun e he => .of_mem he) fun u hu => ?_
    rw [List.mem_singleton.mp hu]
    exact ⟨_, List.mem_singleton_self _, ih fun a ha b hb =>
      h a (List.mem_cons_of_mem l ha) b (List.mem_cons_of_mem l hb)⟩
  | swap a b loops =>
    constructor
    · show (Stmt.loop a.1 a.2 (.loop b.1 b.2 (nestOf loops body))).binders ⊆
        (Stmt.loop b.1 b.2 (.loop a.1 a.2 (nestOf loops body))).binders
      simp only [Stmt.binders_loop]
      exact (List.Perm.swap _ _ _).subset
    · intro bound around hScoped
      obtain ⟨hLowerB, hUpperB, hApartB, hInner⟩ := Stmt.scoped_loop.mp hScoped
      obtain ⟨hLowerA, hUpperA, hApartA, hBody⟩ := Stmt.scoped_loop.mp hInner
      rw [List.mem_cons, not_or] at hApartA
      have hne : b.2.iter ≠ a.2.iter := fun hEq => hApartA.1 (by rw [hEq])
      -- the bounds of the loop that goes outside do not need the other iterator
      have hOutside : ∀ e ∈ [a.2.lower, a.2.upper],
          e.Scoped bound (.scalar b.2.iter :: around) → e.Scoped bound around := by
        intro e he hInside x hx hBound
        refine (List.mem_cons.mp (hInside x hx hBound)).resolve_left ?_
        rintro rfl
        exact h a (by simp) b (by simp) hne e he hx
      have hDeeper : ∀ {e : Expr}, e.Scoped bound around →
          e.Scoped bound (.scalar a.2.iter :: around) := fun he =>
        he.mono (List.subset_cons_self _ _) fun _ _ hx => hx
      refine Stmt.scoped_loop.mpr ⟨hOutside _ (by simp) hLowerA, hOutside _ (by simp) hUpperA,
        hApartA.2, Stmt.scoped_loop.mpr ⟨hDeeper hLowerB, hDeeper hUpperB, ?_, ?_⟩⟩
      · rw [List.mem_cons, not_or]
        exact ⟨fun hEq => hApartA.1 hEq.symm, hApartB⟩
      · exact hBody.of_around (List.Perm.swap _ _ _).subset (List.Perm.swap _ _ _).subset
  | trans hPerm _ ih ih' =>
    exact (ih h).trans (ih' fun a ha b hb => h a (hPerm.mem_iff.mpr ha) b (hPerm.mem_iff.mpr hb))

/-- **Reordering** leaves a cleanly named program cleanly named. -/
theorem cleanlyNamed_reorder {labels : List String} (h : t.CleanlyNamed) (hIds : t.ids.Nodup)
    (hLess : ∀ i ∈ t.ids, i < t.size) (hReorder : reorder k t labels = .ok t') :
    t'.CleanlyNamed := by
  rcases reorder_cases hReorder with rfl | ⟨outer, rest, order, nest, hCases⟩
  · exact h
  · obtain ⟨hOuter, hSinks⟩ := hCases.sinks hIds hLess
    have hPlaces := hCases.places
    rw [← List.length_map (fun l : LabelledLoop => (l.site, l.head)), ← hSinks.loops] at hPlaces
    have hIndependent : Independent nest.loops := by
      rw [hSinks.loops]
      intro a ha b hb hne e he hMem
      obtain ⟨l, hl, rfl⟩ := List.mem_map.mp ha
      obtain ⟨l', hl', rfl⟩ := List.mem_map.mp hb
      have hFree := (of_checkBounds (hCases.bounds l hl) e he).2 _ (List.mem_map_of_mem hl') hne
      have hMentions : e.mentions l'.head.iter = true :=
        Expr.mentions_iff.mpr (Expr.mem_symbols_scalar.mp hMem)
      rw [hFree] at hMentions
      cases hMentions
    rw [hCases.result]
    exact (hSinks.keepsScopes.trans
      (keepsScopes_permuted (permuted_perm hPlaces).symm hIndependent)).update h hIds hOuter

/-! ## Splitting -/

/-- The two loops of a split are scoped where the loop was, when their iterators are new. -/
theorem scoped_splitLoop {l : LabelledLoop} {s : SplitBy} {names : SplitNames} {v : Int}
    (hCount : s.count = .int v) (h : l.stmt.Scoped bound around) (hNew : names.New l)
    (hOuter : .scalar names.outerIter ∉ around) (hInner : .scalar names.innerIter ∉ around) :
    (splitLoop l s names).Scoped bound around := by
  obtain ⟨hLower, hUpper, hApart, hBody⟩ := Stmt.scoped_loop.mp h
  have hGoverning : ∀ e ∈ governing l s.count, e.Scoped bound around := by
    intro e he
    simp only [governing, List.mem_cons, List.not_mem_nil, or_false] at he
    rcases he with rfl | rfl | rfl
    · exact hLower
    · exact hUpper
    · rw [hCount]
      exact Expr.scoped_int v
  have hDeeper : ∀ {e : Expr} (xs : List Symbol), e.Scoped bound around →
      e.Scoped bound (xs ++ around) := fun xs he =>
    he.mono (List.subset_append_right xs _) fun _ _ hx => hx
  let iters : List Symbol := [.scalar names.innerIter, .scalar names.outerIter]
  have hOld : (oldIterator l s names).Scoped bound (iters ++ around) := by
    refine (oldIterator_madeOf l s names).scoped fun e he => ?_
    rcases List.mem_cons.mp he with rfl | he
    · exact Expr.scoped_var (by simp [iters])
    · rcases List.mem_cons.mp he with rfl | he
      · exact Expr.scoped_var (by simp [iters])
      · exact hDeeper iters (hGoverning e he)
  -- the body does not bind the new iterators
  have hFresh : ∀ x ∈ l.body.binders, x ∉ iters := by
    intro x hx hMem
    have hUsed : x.name ∈ l.stmt.usedNames :=
      Stmt.name_mem_usedNames_of_binders (by simp [LabelledLoop.stmt, hx])
    rcases List.mem_cons.mp hMem with rfl | hMem
    · exact hNew.inner hUsed
    · rw [List.mem_singleton.mp hMem] at hUsed
      exact hNew.outer hUsed
  have hSubstituted : (l.body.substitute l.head.iter (oldIterator l s names)).Scoped bound
      (iters ++ around) := by
    refine hBody.substitute (fun hMem => hBody.not_mem_around _ hMem List.mem_cons_self)
      (fun y hy hne => ?_) (fun _ _ hMem => hMem) (fun y hy hMem => ?_) hOld
    · exact List.mem_append_right _ ((List.mem_cons.mp hy).resolve_left hne)
    · rcases List.mem_append.mp hMem with hMem | hMem
      · exact hFresh y hy hMem
      · exact hBody.not_mem_around y hy (List.mem_cons_of_mem _ hMem)
  obtain ⟨hFirst, hSecond⟩ := newCounts_madeOf l s
  rw [splitLoop_eq]
  refine Stmt.scoped_loop.mpr ⟨Expr.scoped_int 0, hFirst.scoped hGoverning, hOuter,
    Stmt.scoped_loop.mpr ⟨Expr.scoped_int 0, hDeeper [_] (hSecond.scoped hGoverning), ?_, ?_⟩⟩
  · rw [List.mem_cons, not_or]
    refine ⟨fun hEq => hNew.different ?_, hInner⟩
    simpa using hEq.symm
  · unfold newBody
    dsimp only
    split
    · exact hSubstituted
    · exact Stmt.scoped_guard.mpr
        ⟨Expr.scoped_binary hOld (hDeeper iters hUpper), hSubstituted⟩

theorem binders_splitLoop (l : LabelledLoop) (s : SplitBy) (names : SplitNames) :
    (splitLoop l s names).binders
      = .scalar names.outerIter :: .scalar names.innerIter :: l.body.binders := by
  rw [splitLoop_eq, Stmt.binders_loop, newInner, Stmt.binders_loop]
  unfold newBody
  dsimp only
  split
  · rw [Stmt.binders_substitute]
  · rw [Stmt.binders_guard, Stmt.binders_substitute]

/-- **Splitting** by a constant count leaves a cleanly named program cleanly named. -/
theorem cleanlyNamed_split {label a b : String} {factor nparts : Option Expr} {s : SplitBy} {v : Int}
    (h : t.CleanlyNamed) (hIds : t.ids.Nodup) (hArgs : SplitBy.ofArgs factor nparts = .ok s)
    (hConstant : s.count.constant? = some v) (hSplit : split t label factor nparts = .ok (t', a, b)) :
    t'.CleanlyNamed := by
  obtain ⟨l, r, hFound, hReduced, rfl⟩ := split_cases hArgs hSplit
  have hl := Stmt.mem_of_loopAt hFound
  have hNew : (splitNames t l.head.iter label).New l := splitNames_new hl
  obtain ⟨hOuter, hInner, _⟩ := draws_two t.usedNames (l.head.iter ++ ".0") (l.head.iter ++ ".1")
  have hCount : r.count = .int v := (SplitBy.reduced_of_constant hConstant hReduced).1
  refine h.update hIds hl (fun x hx => ?_) fun around hAround _ hScoped => ?_
  · rw [binders_splitLoop, List.mem_cons, List.mem_cons] at hx
    rcases hx with rfl | rfl | hx
    · exact .inr fun hMem => hOuter (Stmt.name_mem_usedNames hMem)
    · exact .inr fun hMem => hInner (Stmt.name_mem_usedNames hMem)
    · exact .inl (by simp [LabelledLoop.stmt, hx])
  · refine scoped_splitLoop hCount hScoped hNew (fun hMem => ?_) fun hMem => ?_
    · exact hOuter (Stmt.name_mem_usedNames_of_binders (hAround hMem))
    · exact hInner (Stmt.name_mem_usedNames_of_binders (hAround hMem))

/-! ## Other transformations -/

theorem cleanlyNamed_parallelize {label tag : String} (h : t.CleanlyNamed) (hIds : t.ids.Nodup)
    (hParallelize : parallelize k t label tag = .ok t') : t'.CleanlyNamed := by
  obtain ⟨l, hFound, rfl⟩ := parallelize_cases hParallelize
  have hKeeps : l.stmt.KeepsScopes (.loop l.site { l.head with mode := .parallel tag } l.body) :=
    Stmt.keepsScopes_of_parts rfl rfl (fun e he => .of_mem he) fun u hu => ⟨u, hu, .refl u⟩
  exact hKeeps.update h hIds (Stmt.mem_of_loopAt hFound)

theorem cleanlyNamed_fission {label after a b : String} (h : t.CleanlyNamed) (hIds : t.ids.Nodup)
    (hFission : fission k t label after = .ok (t', a, b)) : t'.CleanlyNamed := by
  obtain ⟨l, site, first, second, hDistributed⟩ := fission_cases hFission
  -- each of the loops keeps some of the statements
  have hHalf : ∀ (s : Site) (ts : List Stmt), (∀ u ∈ ts, u ∈ first ++ second) →
      l.stmt.KeepsScopes (.loop s l.head (.sequence ts)) := by
    intro s ts hts
    refine Stmt.keepsScopes_of_parts rfl rfl (fun e he => .of_mem he) fun u hu => ?_
    rw [List.mem_singleton.mp hu]
    refine ⟨l.body, by simp [LabelledLoop.stmt, Stmt.children], ?_⟩
    rw [hDistributed.body]
    constructor
    · intro x hx
      rw [Stmt.binders_sequence] at hx
      obtain ⟨u, hu, hx⟩ := List.mem_flatMap.mp hx
      rw [Stmt.binders_block]
      exact List.mem_flatMap.mpr ⟨u, hts u hu, hx⟩
    · intro bound around hScoped
      exact Stmt.scoped_sequence fun u hu => Stmt.scoped_block.mp hScoped u (hts u hu)
  have hFirst := hHalf (.unnumbered (some a)) first fun u hu => List.mem_append_left _ hu
  have hSecond := hHalf (.unnumbered (some b)) second fun u hu => List.mem_append_right _ hu
  have hKeeps : l.stmt.KeepsScopes (twoLoops l.head a b first second) := by
    constructor
    · rw [twoLoops, Stmt.binders_block, List.flatMap_cons, List.flatMap_singleton]
      exact List.append_subset.mpr ⟨hFirst.binders, hSecond.binders⟩
    · intro bound around hScoped
      refine Stmt.scoped_block.mpr fun u hu => ?_
      rcases List.mem_cons.mp hu with rfl | hu
      · exact hFirst.scope hScoped
      · rw [List.mem_singleton.mp hu]
        exact hSecond.scope hScoped
  rw [hDistributed.result]
  exact hKeeps.update h hIds (Stmt.mem_of_loopAt hDistributed.found)

theorem cleanlyNamed_varReorder {label : String} {order : List Nat} (h : t.CleanlyNamed)
    (hIds : t.ids.Nodup) (hReorder : varReorder t label order = .ok t') : t'.CleanlyNamed := by
  obtain ⟨site, n, b, body, hDecl, _, _, _, rfl⟩ := varReorder_cases hReorder
  have hKeeps : (Stmt.decl site n b body).KeepsScopes (.decl site n
      { b with shape := Expr.permuted order b.shape } (body.permuteAccesses n order)) := by
    refine Stmt.keepsScopes_of_parts rfl rfl
      (fun e he => .of_mem (Expr.mem_of_permuted he)) fun u hu => ?_
    rw [List.mem_singleton.mp hu]
    exact ⟨body, List.mem_singleton_self _, Stmt.keepsScopes_permuteAccesses n order body⟩
  exact hKeeps.update h hIds hDecl

/-! ## Commands -/

end LoopNest.Restructure

namespace LoopNest.Command

open Restructure (SplitBy)

variable {t t' : Stmt}

/-- Whether a command expands no call, and splits loops by constant counts only. -/
def Plain : Command → Prop
  | split _ factor nparts =>
    ∀ s, SplitBy.ofArgs factor nparts = .ok s → s.count.constant?.isSome = true
  | inline => False
  | _ => True

/-- What an accepted plain command has made of a program. -/
inductive Made (k : Nat) (t t' : Stmt) : Prop where
  | reorder {labels : List String} (h : Restructure.reorder k t labels = .ok t')
  | split {label a b : String} {factor nparts : Option Expr} {s : SplitBy} {v : Int}
    (hArgs : SplitBy.ofArgs factor nparts = .ok s) (hConstant : s.count.constant? = some v)
    (h : Restructure.split t label factor nparts = .ok (t', a, b))
  | parallelize {label tag : String} (h : Restructure.parallelize k t label tag = .ok t')
  | fission {label after a b : String} (h : Restructure.fission k t label after = .ok (t', a, b))
  | varReorder {label : String} {order : List Nat} (h : Restructure.varReorder t label order = .ok t')

theorem made_of_perform {registry : Registry} {k : Nat} {c : Command} {report : Report}
    (hPlain : c.Plain) (hPerform : c.perform registry k t = .ok (t', report)) : Made k t t' := by
  cases c with
  | reorder order =>
    obtain ⟨t', hReorder, hEq⟩ := Outcome.map_eq_ok.mp hPerform
    cases hEq
    exact .reorder hReorder
  | split label factor nparts =>
    obtain ⟨⟨t', a, b⟩, hSplit, hEq⟩ := Outcome.map_eq_ok.mp hPerform
    cases hEq
    cases hArgs : SplitBy.ofArgs factor nparts with
    | error r =>
      obtain ⟨l, _, hArgsOk⟩ := Outcome.bind_eq_ok.mp hSplit
      rw [hArgs] at hArgsOk
      cases hArgsOk
    | ok s =>
      obtain ⟨v, hConstant⟩ := Option.isSome_iff_exists.mp (hPlain s hArgs)
      exact .split hArgs hConstant hSplit
  | parallelize label tag =>
    obtain ⟨t', hParallelize, hEq⟩ := Outcome.map_eq_ok.mp hPerform
    cases hEq
    exact .parallelize hParallelize
  | fission label after =>
    obtain ⟨⟨t', a, b⟩, hFission, hEq⟩ := Outcome.map_eq_ok.mp hPerform
    cases hEq
    exact .fission hFission
  | varReorder label order =>
    obtain ⟨t', hReorder, hEq⟩ := Outcome.map_eq_ok.mp hPerform
    cases hEq
    exact .varReorder hReorder
  | inline => exact hPlain.elim

/-- **Commands**: what an accepted command makes of a cleanly named program is cleanly named. -/
theorem cleanlyNamed_of_perform {registry : Registry} {k : Nat} {c : Command} {report : Report}
    (hPlain : c.Plain) (h : t.CleanlyNamed) (hIds : t.ids.Nodup) (hLess : ∀ i ∈ t.ids, i < t.size)
    (hPerform : c.perform registry k t = .ok (t', report)) : t'.CleanlyNamed := by
  cases made_of_perform hPlain hPerform with
  | reorder hReorder => exact Restructure.cleanlyNamed_reorder h hIds hLess hReorder
  | split hArgs hConstant hSplit =>
    exact Restructure.cleanlyNamed_split h hIds hArgs hConstant hSplit
  | parallelize hParallelize => exact Restructure.cleanlyNamed_parallelize h hIds hParallelize
  | fission hFission => exact Restructure.cleanlyNamed_fission h hIds hFission
  | varReorder hReorder => exact Restructure.cleanlyNamed_varReorder h hIds hReorder

end LoopNest.Command

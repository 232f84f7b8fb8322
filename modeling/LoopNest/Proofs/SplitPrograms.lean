import LoopNest.Proofs.ExpandedCalls
import LoopNest.Proofs.RenamedSplits
import LoopNest.Proofs.ScopedCommands

/-! # What is left of a program after a split

  The second of two splits is asked of a program that has been split before. It finds its loop there
  and draws names that are new there, so the first split must leave the loop, must bring in no other
  names than its own iterators, and must not drop a name that could then be drawn although something
  still mentions it.

  * **Around a split** everything that can be read off single statements stays
    (`Stmt.Replaces.flatMap_nodes`), so it is enough to look at the new loops.
  * **Names**: besides the new iterators a split brings in no name (`Stmt.FreeOf.split`) and it drops no
    buffer (`Stmt.bufferNames_subset_split`).
  * **Loops**: no other loop goes or changes its label or its mode (`Stmt.tags_split`), and no loop
    comes to lie in one with the same iterator (`Stmt.NestsApart.split`). -/

namespace LoopNest

/-! ## Expressions -/

namespace Expr

variable {x : String} {w : Expr}

theorem buffers_eq_nil_of_int? {e : Expr} {v : Int} (h : e.int? = some v) : e.buffers = [] := by
  cases e <;> cases h
  rfl

/-- A difference reads what its parts read. -/
theorem buffers_subset_minus (a b : Expr) : a.buffers ++ b.buffers ⊆ (a.minus b).buffers := by
  rcases minus_cases a b with ⟨hEq, hZero⟩ | hEq | ⟨_, _, ha, hb, _⟩
  · rw [hEq, buffers_eq_nil_of_int? hZero, List.append_nil]
    exact List.Subset.refl _
  · rw [hEq, sub, buffers_binary]
    exact List.Subset.refl _
  · rw [buffers_eq_nil_of_int? ha, buffers_eq_nil_of_int? hb]
    exact List.nil_subset _

/-- A quotient reads what the first operand reads. -/
theorem buffers_subset_ceilQuot (a b : Expr) : a.buffers ⊆ (a.ceilQuot b).buffers := by
  rcases ceilQuot_cases a b with ⟨hEq, _⟩ | hEq | ⟨_, _, ha, _, _⟩
  · rw [hEq]
    exact List.Subset.refl _
  · rw [hEq, buffers_binary]
    exact List.subset_append_left _ _
  · rw [buffers_eq_nil_of_int? ha]
    exact List.nil_subset _

/-- Replacing a scalar drops no buffer. -/
theorem buffers_subset_substitute : ∀ e : Expr, e.buffers ⊆ (e.substitute [(x, w)]).buffers := by
  refine Expr.ind ?int ?float ?bool ?var ?load ?unary ?binary
  case int => exact fun _ => List.nil_subset _
  case float => exact fun _ => List.nil_subset _
  case bool => exact fun _ => List.nil_subset _
  case var => exact fun _ => List.nil_subset _
  case load =>
    intro b is ih c hc
    rw [substitute, substituteAll_eq_map, buffers_load, List.mem_cons, List.flatMap_map]
    rw [buffers_load, List.mem_cons] at hc
    refine hc.imp_right fun hc => ?_
    obtain ⟨i, hi, hc⟩ := List.mem_flatMap.mp hc
    exact List.mem_flatMap.mpr ⟨i, hi, ih i hi hc⟩
  case unary =>
    intro op e ih
    rw [substitute, buffers_unary, buffers_unary]
    exact ih
  case binary =>
    intro op a b iha ihb
    rw [substitute, buffers_binary, buffers_binary]
    exact List.append_subset.mpr
      ⟨fun c hc => List.mem_append_left _ (iha hc), fun c hc => List.mem_append_right _ (ihb hc)⟩

/-- An expression holds none of some names. -/
def FreeOf (xs : List String) (e : Expr) : Prop :=
  (∀ x ∈ e.scalars, x ∉ xs) ∧ ∀ b ∈ e.buffers, b ∉ xs

theorem MadeOf.freeOf {e : Expr} {es : List Expr} {xs : List String} (h : e.MadeOf es)
    (hEach : ∀ d ∈ es, d.FreeOf xs) : e.FreeOf xs := by
  refine ⟨fun y hy => ?_, fun b hb => ?_⟩
  · obtain ⟨d, hd, hy⟩ := h.1 y hy
    exact (hEach d hd).1 y hy
  · obtain ⟨d, hd, hb⟩ := h.2 b hb
    exact (hEach d hd).2 b hb

theorem FreeOf.substitute {e : Expr} {xs : List String} (he : e.FreeOf xs) (hw : w.FreeOf xs)
    (x : String) : (e.substitute [(x, w)]).FreeOf xs := by
  refine ⟨fun y hy => ?_, fun b hb => ?_⟩
  · exact (Stmt.mem_scalars_substitute e hy).elim (he.1 y) (hw.1 y)
  · rcases mem_symbols_substitute e (mem_symbols_buffer.mpr hb) with ⟨hOld, _⟩ | hNew
    · exact he.2 b (mem_symbols_buffer.mp hOld)
    · exact hw.2 b (mem_symbols_buffer.mp hNew)

end Expr

namespace Stmt

open Restructure

/-! ## Around a split -/

/-- What can be read off each statement without looking below it stays around a replaced one. -/
theorem Replaces.flatMap_nodes {α : Type} {g : Stmt → List α}
    (hg : ∀ w w', Outline w w' → g w' = g w) {u v t t' : Stmt} (h : Replaces u v t t') :
    ∃ before after, t.nodes.flatMap g = before ++ u.nodes.flatMap g ++ after
      ∧ t'.nodes.flatMap g = before ++ v.nodes.flatMap g ++ after := by
  obtain ⟨first, first', last, hOld, hNew, hFirst⟩ := h.exists_nodes
  have hSame : first'.flatMap g = first.flatMap g := by
    clear hOld hNew
    induction hFirst with
    | nil => rfl
    | cons hHead _ ih => rw [List.flatMap_cons, List.flatMap_cons, hg _ _ hHead, ih]
  exact ⟨first.flatMap g, last.flatMap g, by simp [hOld], by simp [hNew, hSame]⟩

/-- What a program has gained is in the new statement. -/
theorem Replaces.mem_flatMap_nodes {α : Type} {g : Stmt → List α}
    (hg : ∀ w w', Outline w w' → g w' = g w) {u v t t' : Stmt} (h : Replaces u v t t') {a : α}
    (ha : a ∈ t'.nodes.flatMap g) : a ∈ t.nodes.flatMap g ∨ a ∈ v.nodes.flatMap g := by
  obtain ⟨before, after, hOld, hNew⟩ := h.flatMap_nodes hg
  rw [hNew] at ha
  rw [hOld]
  simp only [List.mem_append] at ha ⊢
  tauto

/-- A program has lost nothing that the new statement has. -/
theorem Replaces.flatMap_nodes_subset {α : Type} {g : Stmt → List α}
    (hg : ∀ w w', Outline w w' → g w' = g w) {u v t t' : Stmt} (h : Replaces u v t t')
    (hSub : u.nodes.flatMap g ⊆ v.nodes.flatMap g) : t.nodes.flatMap g ⊆ t'.nodes.flatMap g := by
  obtain ⟨before, after, hOld, hNew⟩ := h.flatMap_nodes hg
  intro a ha
  rw [hOld] at ha
  rw [hNew]
  simp only [List.mem_append] at ha ⊢
  exact ha.imp_left fun ha => ha.imp_right fun ha => hSub ha

section

variable {x : String} {w : Expr}

/-- The statements of a program in which a scalar is replaced that no loop binds. -/
theorem nodes_substitute : ∀ t : Stmt, ¬ t.Binds x →
    (t.substitute x w).nodes = t.nodes.map (substitute x w) := by
  refine Stmt.ind ?decl ?loop ?guard ?branch ?store ?call ?block ?hole
  case decl =>
    intro s n b body ih hx
    simp [substitute, ih fun h => hx (binds_decl.mpr h)]
  case loop =>
    intro s h body ih hx
    rw [binds_loop, not_or] at hx
    simp [substitute, if_neg hx.1, ih hx.2]
  case guard =>
    intro s c body ih hx
    simp [substitute, ih fun h => hx (binds_guard.mpr h)]
  case branch =>
    intro s c yes no ihYes ihNo hx
    rw [binds_branch, not_or] at hx
    simp [substitute, ihYes hx.1, ihNo hx.2]
  case store => exact fun s b is v _ => rfl
  case call => exact fun s f args _ => rfl
  case block =>
    intro s ts ih hx
    simp only [substitute, substituteAll_eq_map, nodes_block, List.map_cons, List.flatMap_map,
      List.map_flatMap, List.cons.injEq, true_and]
    exact List.flatMap_congr fun t ht => ih t ht fun h => hx (binds_block.mpr ⟨t, ht, h⟩)
  case hole => exact fun s _ => rfl

theorem exprs_substitute (t : Stmt) :
    (t.substitute x w).exprs = t.exprs.map (Expr.substitute [(x, w)]) := by
  cases t with
  | call s f args => exact argValues_map (fun b => ⟨b, rfl⟩) (fun _ => rfl) args
  | _ => simp [substitute, exprs]

theorem ownNames_substitute (t : Stmt) : (t.substitute x w).ownNames = t.ownNames := by
  cases t with
  | call s f args =>
    rw [substitute, ownNames, ownNames, List.filterMap_map]
    refine congrArg _ (List.filterMap_congr fun a _ => ?_)
    cases a <;> rfl
  | _ => rfl

theorem ownBuffers_substitute (t : Stmt) : (t.substitute x w).ownBuffers = t.ownBuffers := by
  cases t with
  | call s f args =>
    rw [substitute, ownBuffers, ownBuffers, List.filterMap_map]
    refine List.filterMap_congr fun a _ => ?_
    cases a <;> rfl
  | _ => rfl

theorem asserted_substitute (t : Stmt) : (t.substitute x w).asserted = t.asserted := by
  cases t <;> rfl

/-- Replacing a scalar drops no buffer. -/
theorem mentions_subset_substitute (t : Stmt) : t.mentions ⊆ (t.substitute x w).mentions := by
  intro b hb
  rw [mentions, ownBuffers_substitute, exprs_substitute, List.flatMap_map, List.mem_append]
  refine (List.mem_append.mp hb).imp_right fun hb => ?_
  obtain ⟨e, he, hb⟩ := List.mem_flatMap.mp hb
  exact List.mem_flatMap.mpr ⟨e, he, Expr.buffers_subset_substitute e hb⟩

end

section outline

variable {w w' : Stmt} (h : Outline w w')
include h

theorem Outline.exprs_eq : w'.exprs = w.exprs := by
  cases h <;> rfl

theorem Outline.ownNames_eq : w'.ownNames = w.ownNames := by
  cases h <;> rfl

theorem Outline.asserted_eq : w'.asserted = w.asserted := by
  cases h <;> rfl

theorem Outline.mentions_eq : w'.mentions = w.mentions := by
  cases h <;> rfl

end outline

/-! ## Names -/

section names

variable {t t' : Stmt} {l : LabelledLoop} {r : SplitBy} {k : Int} {names : SplitNames}
  {xs : List String}

/-- A program holds none of some names when no statement does. -/
theorem freeOf_iff : t.FreeOf xs ↔ ∀ u ∈ t.nodes,
    (∀ x ∈ u.ownNames ++ u.asserted, x ∉ xs) ∧ ∀ e ∈ u.exprs, e.FreeOf xs := by
  constructor
  · intro h u hu
    have hHere := h.of_mem hu
    refine ⟨fun x hx => ?_, fun e he => ⟨fun x => hHere.scalar he, fun b => hHere.buffer he⟩⟩
    exact (List.mem_append.mp hx).elim hHere.own hHere.asserted
  · intro h x hx
    rcases List.mem_append.mp hx with hx | hx
    · obtain ⟨u, hu, hx | ⟨e, he, hx | hx⟩⟩ := mem_usedNames.mp hx
      · exact (h u hu).1 x (List.mem_append_left _ hx)
      · exact ((h u hu).2 e he).1 x hx
      · exact ((h u hu).2 e he).2 x hx
    · obtain ⟨u, hu, hx⟩ := List.mem_flatMap.mp hx
      exact (h u hu).1 x (List.mem_append_right _ hx)

/-- The statements in the body of the new loops: there may be a guard, and the old iterator is
    replaced. -/
theorem nodes_newBody (r : SplitBy) (names : SplitNames) (hApart : ¬ l.body.Binds l.head.iter) :
    ∃ guards : List Stmt,
    (newBody l r names).nodes
        = guards ++ l.body.nodes.map (substitute l.head.iter (oldIterator l r names))
      ∧ ∀ u ∈ guards, ∃ body, u = .guard .unnumbered ((oldIterator l r names).lessThan l.head.upper) body
    := by
  unfold newBody
  dsimp only
  split
  · exact ⟨[], by rw [nodes_substitute _ hApart, List.nil_append], by simp⟩
  · exact ⟨[_], by rw [nodes_guard, nodes_substitute _ hApart, List.singleton_append], by simp⟩

/-- What a guard has none of and what does not depend on scalars is in the new body as in the old one. -/
theorem flatMap_nodes_newBody {α : Type} {g : Stmt → List α}
    (hGuard : ∀ s c body, g (.guard s c body) = []) (hScalar : ∀ x w u, g (u.substitute x w) = g u)
    (hApart : ¬ l.body.Binds l.head.iter) :
    (newBody l r names).nodes.flatMap g = l.body.nodes.flatMap g := by
  obtain ⟨guards, hNodes, hGuards⟩ := nodes_newBody r names hApart
  have hNone : guards.flatMap g = [] := by
    rw [List.flatMap_eq_nil_iff]
    intro u hu
    obtain ⟨body, rfl⟩ := hGuards u hu
    exact hGuard _ _ _
  rw [hNodes, List.flatMap_append, hNone, List.nil_append, List.flatMap_map]
  exact List.flatMap_congr fun u _ => hScalar _ _ u

/-- The new loops bring in no names but their iterators. -/
theorem freeOf_splitLoop (hCount : r.count = .int k) (hApart : ¬ l.body.Binds l.head.iter)
    (hFree : l.stmt.FreeOf xs) (hNames : ∀ x ∈ names.iters, x ∉ xs) :
    (splitLoop l r names).FreeOf xs := by
  have hGoverning : ∀ e ∈ governing l r.count, e.FreeOf xs :=
    fun e he => free_of_madeOf hCount hFree (.of_mem he)
  have hOld : (oldIterator l r names).FreeOf xs := by
    have hVar : ∀ y ∈ names.iters, (Expr.var y).FreeOf xs :=
      fun y hy => ⟨by simpa using hNames y hy, by simp⟩
    refine (oldIterator_madeOf l r names).freeOf fun e he => ?_
    rcases List.mem_cons.mp he with rfl | he
    · exact hVar _ (by simp [SplitNames.iters])
    · rcases List.mem_cons.mp he with rfl | he
      · exact hVar _ (by simp [SplitNames.iters])
      · exact hGoverning e he
  have hZero : (Expr.int 0).FreeOf xs := ⟨by simp, by simp⟩
  have hOuter : ∀ x ∈ l.head.noDeps, x ∉ xs := fun x hx => hFree.asserted (by exact hx)
  obtain ⟨hFirst, hSecond⟩ := newCounts_madeOf l r
  obtain ⟨guards, hNodes, hGuards⟩ := nodes_newBody r names hApart
  refine freeOf_iff.mpr fun u hu => ?_
  rw [splitLoop_eq, nodes_loop, newInner, nodes_loop, hNodes, List.mem_cons, List.mem_cons,
    List.mem_append] at hu
  rcases hu with rfl | rfl | hu | hu
  · refine ⟨fun x hx => ?_, fun e he => ?_⟩
    · rcases List.mem_cons.mp hx with rfl | hx
      · exact hNames _ (by simp [SplitNames.iters])
      · exact hOuter x hx
    · rcases List.mem_cons.mp he with rfl | he
      · exact hZero
      · rw [List.mem_singleton.mp he]
        exact hFirst.freeOf hGoverning
  · refine ⟨fun x hx => ?_, fun e he => ?_⟩
    · rw [List.mem_singleton.mp hx]
      exact hNames _ (by simp [SplitNames.iters])
    · rcases List.mem_cons.mp he with rfl | he
      · exact hZero
      · rw [List.mem_singleton.mp he]
        exact hSecond.freeOf hGoverning
  · obtain ⟨body, rfl⟩ := hGuards u hu
    refine ⟨by simp [ownNames, asserted], fun e he => ?_⟩
    rw [List.mem_singleton.mp he]
    have hMade : ((oldIterator l r names).lessThan l.head.upper).MadeOf
        [oldIterator l r names, l.head.upper] :=
      (Expr.MadeOf.of_mem (by simp)).binary (.of_mem (by simp)) .lt
    refine hMade.freeOf fun d hd => ?_
    rcases List.mem_cons.mp hd with rfl | hd
    · exact hOld
    · rw [List.mem_singleton.mp hd]
      exact hGoverning _ (by simp [governing])
  · obtain ⟨y, hy, rfl⟩ := List.mem_map.mp hu
    have hBody := freeOf_iff.mp hFree y (by simp [LabelledLoop.stmt, hy])
    refine ⟨?_, fun e he => ?_⟩
    · rw [ownNames_substitute, asserted_substitute]
      exact hBody.1
    · rw [exprs_substitute] at he
      obtain ⟨d, hd, rfl⟩ := List.mem_map.mp he
      exact (hBody.2 d hd).substitute hOld _

/-- **Names**: besides the new iterators a split brings in no name. -/
theorem FreeOf.split (h : Replaces l.stmt (splitLoop l r names) t t') (hCount : r.count = .int k)
    (hApart : ¬ l.body.Binds l.head.iter) (hFree : t.FreeOf xs) (hNames : ∀ x ∈ names.iters, x ∉ xs) :
    t'.FreeOf xs := by
  have hNew := freeOf_splitLoop hCount hApart (hFree.of_mem h.mem) hNames
  have hOwn : ∀ w w' : Stmt, Outline w w' →
      w'.ownNames ++ w'.exprs.flatMap (fun e => e.scalars ++ e.buffers)
        = w.ownNames ++ w.exprs.flatMap fun e => e.scalars ++ e.buffers :=
    fun w w' hOutline => by rw [hOutline.ownNames_eq, hOutline.exprs_eq]
  intro x hx
  rcases List.mem_append.mp hx with hx | hx
  · rcases h.mem_flatMap_nodes hOwn hx with hx | hx
    · exact hFree x (List.mem_append_left _ hx)
    · exact hNew x (List.mem_append_left _ hx)
  · rcases h.mem_flatMap_nodes (fun _ _ hOutline => hOutline.asserted_eq) hx with hx | hx
    · exact hFree x (List.mem_append_right _ hx)
    · exact hNew x (List.mem_append_right _ hx)

/-- The assertions of loops stay. -/
theorem assertedNames_split (h : Replaces l.stmt (splitLoop l r names) t t')
    (hApart : ¬ l.body.Binds l.head.iter) : t'.assertedNames = t.assertedNames := by
  have hLoop : (splitLoop l r names).nodes.flatMap asserted = l.stmt.nodes.flatMap asserted := by
    have hBody : (newBody l r names).nodes.flatMap asserted = l.body.nodes.flatMap asserted :=
      flatMap_nodes_newBody (fun _ _ _ => rfl) (fun _ _ u => asserted_substitute u) hApart
    rw [splitLoop_eq, nodes_loop, newInner, nodes_loop, List.flatMap_cons, List.flatMap_cons, hBody,
      LabelledLoop.stmt, nodes_loop, List.flatMap_cons]
    rfl
  obtain ⟨before, after, hOld, hNew⟩ := h.flatMap_nodes fun _ _ hOutline => hOutline.asserted_eq
  rw [assertedNames, assertedNames, hOld, hNew, hLoop]

/-- **Buffers**: a split drops no buffer, because the old iterator is no buffer and the extent reads
    what the bounds read. -/
theorem bufferNames_subset_split (h : Replaces l.stmt (splitLoop l r names) t t')
    (hApart : ¬ l.body.Binds l.head.iter) : t.bufferNames ⊆ t'.bufferNames := by
  refine h.flatMap_nodes_subset (fun _ _ hOutline => hOutline.mentions_eq) fun b hb => ?_
  obtain ⟨guards, hNodes, _⟩ := nodes_newBody r names hApart
  rw [LabelledLoop.stmt, nodes_loop, List.flatMap_cons, List.mem_append] at hb
  rw [splitLoop_eq, nodes_loop, newInner, nodes_loop, hNodes]
  rcases hb with hb | hb
  · -- the bounds of the old loop
    have hBounds : b ∈ (l.head.upper.minus l.head.lower).buffers := by
      refine Expr.buffers_subset_minus _ _ ?_
      simpa [mentions, ownBuffers, exprs, or_comm] using hb
    cases r with
    | factor c =>
      have hOuter : b ∈ (newCounts l (.factor c)).1.buffers :=
        Expr.buffers_subset_ceilQuot _ _ hBounds
      simp [mentions, ownBuffers, exprs, hOuter]
    | parts c =>
      have hInner : b ∈ (newCounts l (.parts c)).2.buffers :=
        Expr.buffers_subset_ceilQuot _ _ hBounds
      simp [mentions, ownBuffers, exprs, hInner]
  · obtain ⟨u, hu, hb⟩ := List.mem_flatMap.mp hb
    have hKept := mentions_subset_substitute (x := l.head.iter) (w := oldIterator l r names) u hb
    exact List.mem_flatMap.mpr ⟨_, by simp; exact .inr (.inr (.inr ⟨u, hu, rfl⟩)), hKept⟩

end names

/-! ## Loops -/

/-- The label and the mode of a loop. -/
def tag : Stmt → List (Option String × Mode)
  | .loop s h _ => [(s.label, h.mode)]
  | _ => []

/-- The labels and the modes of the loops of a program. -/
def tags (t : Stmt) : List (Option String × Mode) := t.nodes.flatMap tag

section tags

variable {t t' : Stmt} {l : LabelledLoop} {r : SplitBy} {names : SplitNames}

theorem mem_tags {p : Option String × Mode} :
    p ∈ t.tags ↔ ∃ s h body, .loop s h body ∈ t.nodes ∧ p = (s.label, h.mode) := by
  constructor
  · intro hp
    obtain ⟨u, hu, hp⟩ := List.mem_flatMap.mp hp
    cases u <;> simp only [tag, List.not_mem_nil, List.mem_singleton] at hp
    exact ⟨_, _, _, hu, hp⟩
  · rintro ⟨s, h, body, hLoop, rfl⟩
    exact List.mem_flatMap.mpr ⟨_, hLoop, by simp [tag]⟩

/-- **Loops**: another loop keeps its label and its mode, and the new loops run as the old one or in
    turn. -/
theorem tags_split (h : Replaces l.stmt (splitLoop l r names) t t')
    (hApart : ¬ l.body.Binds l.head.iter) :
    ∃ before after, t.tags = before ++ (l.site.label, l.head.mode) :: after
      ∧ t'.tags = before ++ (some names.outerLabel, l.head.mode)
        :: (some names.innerLabel, .sequential) :: after := by
  have hBody : (newBody l r names).nodes.flatMap tag = l.body.nodes.flatMap tag :=
    flatMap_nodes_newBody (fun _ _ _ => rfl) (fun _ _ u => by cases u <;> rfl) hApart
  obtain ⟨before, after, hOld, hNew⟩ := h.flatMap_nodes (g := tag) fun w w' hOutline => by
    cases hOutline <;> rfl
  refine ⟨before, l.body.nodes.flatMap tag ++ after, hOld.trans ?_, hNew.trans ?_⟩
  · simp [LabelledLoop.stmt, tag]
  · rw [splitLoop_eq, nodes_loop, newInner, nodes_loop, List.flatMap_cons, List.flatMap_cons, hBody]
    simp [tag, Site.unnumbered]

end tags

section nests

variable {t u v : Stmt} {l : LabelledLoop} {r : SplitBy} {names : SplitNames} {x : String}
  {w : Expr}

/-- Replacing a scalar leaves loops apart. -/
theorem NestsApart.substitute (h : t.NestsApart) (hx : ¬ t.Binds x) :
    (t.substitute x w).NestsApart := by
  intro s head body hLoop hBinds
  rw [nodes_substitute t hx] at hLoop
  obtain ⟨y, hy, hEq⟩ := List.mem_map.mp hLoop
  cases y <;> simp only [Stmt.substitute, reduceCtorEq, loop.injEq] at hEq
  obtain ⟨rfl, rfl, rfl⟩ := hEq
  refine h _ _ _ hy ?_
  split at hBinds
  · exact hBinds
  · exact binds_substitute _ hBinds

/-- Loops stay apart when what takes the place of a statement binds new names only, besides those that
    the statement binds. -/
theorem NestsApart.update (ht : t.NestsApart) (hIds : t.ids.Nodup) (hu : u ∈ t.nodes)
    (hv : v.NestsApart) (hNew : ∀ x, v.Binds x → u.Binds x ∨ ¬ t.Binds x) :
    (t.update u.id fun _ => v).NestsApart := by
  intro s head body hLoop hBinds
  rcases mem_nodes_update t hLoop with hLoop | ⟨y, hy, hne, hEq⟩
  · exact hv s head body hLoop hBinds
  · rw [update_eq, if_neg hne] at hEq
    obtain ⟨old, rfl, rfl⟩ := loop_of_mapChildren hEq.symm
    have hOld : old ∈ t.nodes := mem_nodes_trans (by simp [self_mem_nodes]) hy
    rcases binds_update hBinds with hBinds | ⟨hMem, hBinds⟩
    · exact ht s head old hy hBinds
    · rcases hNew _ hBinds with hBinds | hFresh
      · exact ht s head old hy (hBinds.of_mem (mem_nodes_of_id hIds hu hOld hMem))
      · exact hFresh ⟨s, head, old, hy, rfl⟩

theorem binds_splitLoop {y : String} :
    (splitLoop l r names).Binds y ↔ y ∈ names.iters ∨ l.body.Binds y := by
  rw [← scalar_mem_binders, binders_splitLoop, ← scalar_mem_binders]
  simp [SplitNames.iters, or_assoc]

/-- **Nests**: no loop comes to lie in one with the same iterator when the new iterators are new. -/
theorem NestsApart.split (ht : t.NestsApart) (hIds : t.ids.Nodup) (hl : l.stmt ∈ t.nodes)
    (hFree : t.FreeOf names.iters) (hNames : names.outerIter ≠ names.innerIter) :
    (t.update l.site.id fun _ => splitLoop l r names).NestsApart := by
  have hUsed : ∀ y ∈ names.iters, ¬ t.Binds y := fun y hy hBinds =>
    hFree y (List.mem_append_left _ hBinds.mem_usedNames) hy
  have hLoop : l.stmt.NestsApart := ht.of_mem hl
  have hHere : ¬ l.body.Binds l.head.iter := hLoop l.site l.head l.body (self_mem_nodes _)
  have hBody : ∀ y ∈ names.iters, ¬ l.body.Binds y := fun y hy hBinds =>
    hUsed y hy (Binds.of_mem hl (binds_loop.mpr (.inr hBinds)))
  have hNewBody : ∀ y, (newBody l r names).Binds y → l.body.Binds y := by
    intro y hy
    unfold newBody at hy
    dsimp only at hy
    split at hy
    · exact binds_substitute _ hy
    · exact binds_substitute _ (binds_guard.mp hy)
  refine ht.update hIds hl (fun s head body hMem hBinds => ?_) fun y hy => ?_
  · rw [splitLoop_eq, nodes_loop, newInner, nodes_loop, List.mem_cons, List.mem_cons] at hMem
    rcases hMem with hOuter | hInner | hMem
    · cases hOuter
      rcases binds_loop.mp hBinds with hSame | hBinds
      · exact hNames hSame.symm
      · exact hBody _ (by simp [SplitNames.iters]) (hNewBody _ hBinds)
    · cases hInner
      exact hBody _ (by simp [SplitNames.iters]) (hNewBody _ hBinds)
    · have hReplaced : (l.body.substitute l.head.iter (oldIterator l r names)).NestsApart :=
        (hLoop.child (by simp [LabelledLoop.stmt, children])).substitute hHere
      refine hReplaced s head body ?_ hBinds
      unfold newBody at hMem
      dsimp only at hMem
      split at hMem
      · exact hMem
      · simpa using hMem
  · rcases binds_splitLoop.mp hy with hy | hy
    · exact .inr (hUsed y hy)
    · exact .inl (binds_loop.mpr (.inr hy))

end nests

/-! ## Numbers -/

/-- A program without its numbers has the statements without their numbers. -/
theorem nodes_unnumbered : ∀ t : Stmt, t.unnumbered.nodes = t.nodes.map unnumbered := by
  have hChildren : ∀ t : Stmt, t.unnumbered.children = t.children.map unnumbered := by
    intro t
    cases t with
    | block s ts => rw [unnumbered_block]; rfl
    | _ => rfl
  refine children_ind fun t ih => ?_
  rw [nodes_eq_cons, nodes_eq_cons t, List.map_cons, inside, inside, hChildren, List.flatMap_map,
    List.map_flatMap, List.flatMap_congr ih]

/-- What can be read off each statement without its number stays when a program is numbered. -/
theorem flatMap_nodes_number {α : Type} {g : Stmt → List α} (hg : ∀ u : Stmt, g u.unnumbered = g u)
    (t : Stmt) : t.number.nodes.flatMap g = t.nodes.flatMap g := by
  have hSame : ∀ u : Stmt, u.unnumbered.nodes.flatMap g = u.nodes.flatMap g := by
    intro u
    rw [nodes_unnumbered, List.flatMap_map]
    exact List.flatMap_congr fun w _ => hg w
  rw [← hSame, unnumbered_number, hSame]

theorem tags_number (t : Stmt) : t.number.tags = t.tags :=
  flatMap_nodes_number (fun u => by cases u <;> rfl) t

theorem bufferNames_number (t : Stmt) : t.number.bufferNames = t.bufferNames :=
  flatMap_nodes_number (fun u => by cases u <;> rfl) t

theorem assertedNames_number (t : Stmt) : t.number.assertedNames = t.assertedNames :=
  flatMap_nodes_number (fun u => by cases u <;> rfl) t

theorem usedNames_number (t : Stmt) : t.number.usedNames = t.usedNames :=
  flatMap_nodes_number (fun u => by cases u <;> rfl) t

theorem freeOf_number {t : Stmt} {xs : List String} : t.number.FreeOf xs ↔ t.FreeOf xs := by
  rw [FreeOf, FreeOf, usedNames_number, assertedNames_number]

/-- Numbers do not matter to how loops lie in each other. -/
theorem NestsApart.number {t : Stmt} (h : t.NestsApart) : t.number.NestsApart := by
  have hBinds : ∀ (u : Stmt) {x : String}, u.unnumbered.Binds x ↔ u.Binds x := by
    intro u x
    constructor
    · rintro ⟨s, head, body, hLoop, hIter⟩
      rw [nodes_unnumbered] at hLoop
      obtain ⟨y, hy, hEq⟩ := List.mem_map.mp hLoop
      cases y <;> cases hEq
      exact ⟨_, _, _, hy, hIter⟩
    · rintro ⟨s, head, body, hLoop, hIter⟩
      refine ⟨.unnumbered s.label, head, body.unnumbered, ?_, hIter⟩
      rw [nodes_unnumbered]
      exact List.mem_map.mpr ⟨_, hLoop, unnumbered_loop s head body⟩
  intro s head body hLoop hInside
  have hMem : (Stmt.loop s head body).unnumbered ∈ t.number.nodes.map unnumbered :=
    List.mem_map_of_mem hLoop
  rw [← nodes_unnumbered, unnumbered_number, nodes_unnumbered, unnumbered_loop] at hMem
  obtain ⟨y, hy, hEq⟩ := List.mem_map.mp hMem
  cases y with
  | loop s' head' body' =>
    rw [unnumbered_loop, loop.injEq] at hEq
    obtain ⟨_, rfl, hBody⟩ := hEq
    refine h _ _ _ hy ?_
    rw [← hBinds, hBody, hBinds]
    exact hInside
  | block s' ts => rw [unnumbered_block] at hEq; cases hEq
  | _ => cases hEq

theorem canonical_number (t : Stmt) : t.number.canonical = t.canonical := by
  rw [canonical, ← canonicalIn_unnumbered, unnumbered_number, canonicalIn_unnumbered, canonical]

end Stmt

end LoopNest

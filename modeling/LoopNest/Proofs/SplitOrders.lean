import LoopNest.Proofs.BoundNames
import LoopNest.Proofs.ClearedLoops
import LoopNest.Proofs.CommutingSplits
import LoopNest.Proofs.SplitPrograms

/-! # Splits in either order

  Two loops of a program are split by constants, by a request each. The requests do not do the same in
  both orders: the second one draws its names from a program that holds the names of the first split
  and no longer holds the old iterator. Main statement: both orders succeed, and what they lead to are
  the same programs up to names, labels and blocks (`Schedule.splits_commute`).

  * **Clean iterators**: no loop lies in one with the same iterator, and iterators are used inside their
    loops only (`Stmt.CleanIterators`). So no bound is captured (`Stmt.CleanIterators.unshadowed`).
  * **One split** keeps all that the next one needs (`Stmt.Ready.split`).
  * **Two splits**: to compare both orders, each is led back to splits under names that are new beside
    all others, and these commute (`Stmt.TwoCuts.canonical_eq`).
  * **Requests** are carried out and committed (`Schedule.run_split`, `Schedule.replay_splits`).

  What loops assert of buffers counts for what their names stand for, but it is not looked at when
  names are drawn. So it must be about buffers that the program uses, otherwise one order may draw such
  a name and the other one not (`Schedule.stripes_differ`). -/

namespace LoopNest

namespace Stmt

/-! ## Clean iterators -/

/-- The iterators of a program are clean.

    * **nested**: no loop lies inside a loop with the same iterator;
    * **inside**: iterators are used inside their loops only. The bounds of a loop lie outside of it. -/
structure CleanIterators (t : Stmt) : Prop where
  nested : t.NestsApart
  inside : ∀ place ∈ t.scopedPhrases [], ∀ e ∈ place.2, ∀ x ∈ e.scalars,
    x ∈ t.iterators → x ∈ place.1

theorem nestsApart_iff {t : Stmt} : t.NestsApart ↔
    ∀ u ∈ t.nodes, ∀ w ∈ u.inside, u.iterator? = none ∨ w.iterator? ≠ u.iterator? := by
  constructor
  · intro h u hu w hw
    cases u with
    | loop s head body =>
      refine .inr fun hEq => h s head body hu ?_
      have hMem : w ∈ body.nodes := by simpa [Stmt.inside, children] using hw
      cases w <;> simp only [iterator?, reduceCtorEq, Option.some.injEq] at hEq
      exact ⟨_, _, _, hMem, hEq⟩
    | _ => exact .inl rfl
  · rintro h s head body hLoop ⟨s', head', body', hMem, hIter⟩
    have hInside : Stmt.loop s' head' body' ∈ (Stmt.loop s head body).inside := by
      simpa [Stmt.inside, children] using hMem
    rcases h _ hLoop _ hInside with hNone | hNe
    · cases hNone
    · exact hNe (congrArg some hIter)

/-- Whether iterators are clean can be decided. -/
instance (t : Stmt) : Decidable t.CleanIterators :=
  decidable_of_iff ((∀ u ∈ t.nodes, ∀ w ∈ u.inside, u.iterator? = none ∨ w.iterator? ≠ u.iterator?)
      ∧ ∀ place ∈ t.scopedPhrases [], ∀ e ∈ place.2, ∀ x ∈ e.scalars, x ∈ t.iterators → x ∈ place.1)
    ⟨fun h => ⟨nestsApart_iff.mpr h.1, h.2⟩, fun h => ⟨nestsApart_iff.mp h.nested, h.inside⟩⟩

/-- A bound uses iterators of loops around it only, and these are not bound again in the body. -/
theorem CleanIterators.unshadowed {t : Stmt} (h : t.CleanIterators) : t.Unshadowed := by
  have hBelow : ∀ (u : Stmt) (around : List String), u ∈ t.nodes → (∀ x ∈ around, ¬ u.Binds x) →
      (∀ place ∈ u.scopedPhrases around, ∀ e ∈ place.2, ∀ x ∈ e.scalars,
        x ∈ t.iterators → x ∈ place.1) → u.Unshadowed := by
    refine children_ind fun u ih around hu hAround hInside s head body hLoop => ?_
    rw [scopedPhrases_eq_cons] at hInside
    rw [nodes_eq_cons, List.mem_cons] at hLoop
    rcases hLoop with rfl | hLoop
    · intro e he x hx hBinds
      have hHere : (Stmt.loop s head body).Binds x := binds_loop.mpr (.inr hBinds)
      have hBound : x ∈ t.iterators := mem_iterators.mpr (scalar_mem_binders.mpr (hHere.of_mem hu))
      exact hAround x (hInside _ List.mem_cons_self e he x hx hBound) hHere
    · obtain ⟨c, hc, hLoop⟩ := List.mem_flatMap.mp hLoop
      have hMem : c ∈ t.nodes := mem_nodes_trans (mem_nodes_of_child hc (self_mem_nodes c)) hu
      refine ih c hc (u.iterator?.toList ++ around) hMem (fun x hx hBinds => ?_)
        (fun place hPlace => ?_) s head body hLoop
      · rcases List.mem_append.mp hx with hOwn | hx
        · -- the iterator of the statement itself
          cases u <;> simp only [iterator?, Option.toList_none, Option.toList_some, List.not_mem_nil,
            List.mem_singleton] at hOwn
          obtain rfl := List.mem_singleton.mp hc
          exact h.nested _ _ _ hu (hOwn ▸ hBinds)
        · exact hAround x hx (hBinds.of_mem (mem_nodes_of_child hc (self_mem_nodes c)))
      · exact hInside place (List.mem_cons_of_mem _ (List.mem_flatMap.mpr ⟨c, hc, hPlace⟩))
  exact hBelow t [] (self_mem_nodes t) (by simp) h.inside

/-! ## One split -/

section cut

open Restructure

/-- A loop of a program can be split by a constant, under some names.

    * **found**: there is the loop;
    * **count**: the count is a constant;
    * **free**, **different**: the new iterators are new and different. -/
structure Cut (t : Stmt) (label : String) (r : SplitBy) (names : SplitNames) : Prop where
  found : ∃ l : LabelledLoop, l.stmt ∈ t.nodes ∧ l.site.label = some label
  count : ∃ k, r.count = .int k
  free : t.FreeOf names.iters
  different : names.outerIter ≠ names.innerIter

variable {t : Stmt} {label : String} {r : SplitBy} {names : SplitNames} {xs : List String}

namespace Cut

section

variable (h : t.Cut label r names) (hCommitted : t.Committed) (hApart : t.NestsApart)
include h hCommitted

theorem update_eq : ∃ l : LabelledLoop, l.stmt ∈ t.nodes ∧ l.site.label = some label
    ∧ (t.update l.site.id fun _ => splitLoop l r names) = t.splitAt label r names := by
  obtain ⟨l, hl, hLabel⟩ := h.found
  have hIds : t.ids.Nodup := hCommitted.sound.ids
  exact ⟨l, hl, hLabel, update_eq_splitAt_of_mem hIds hCommitted.labels hl hLabel r names⟩

include hApart

/-- The loop is replaced by the new ones. -/
theorem replaces : ∃ l : LabelledLoop, l.site.label = some label ∧ ¬ l.body.Binds l.head.iter
    ∧ Replaces l.stmt (splitLoop l r names) t (t.splitAt label r names) := by
  obtain ⟨l, hl, hLabel, hEq⟩ := h.update_eq hCommitted
  refine ⟨l, hLabel, hApart l.site l.head l.body hl, ?_⟩
  rw [← hEq]
  exact replaces_update t hCommitted.sound.ids hl

theorem freeOf (hFree : t.FreeOf xs) (hNames : ∀ x ∈ names.iters, x ∉ xs) :
    (t.splitAt label r names).FreeOf xs := by
  obtain ⟨l, _, hHere, hReplaces⟩ := h.replaces hCommitted hApart
  obtain ⟨k, hCount⟩ := h.count
  exact hFree.split hReplaces hCount hHere hNames

theorem nestsApart : (t.splitAt label r names).NestsApart := by
  obtain ⟨l, hl, hLabel, hEq⟩ := h.update_eq hCommitted
  rw [← hEq]
  exact hApart.split hCommitted.sound.ids hl h.free h.different

/-- What the program asserts of its buffers stays about its buffers. -/
theorem asserted (hAsserted : t.assertedNames ⊆ t.bufferNames) :
    (t.splitAt label r names).assertedNames ⊆ (t.splitAt label r names).bufferNames := by
  obtain ⟨l, _, hHere, hReplaces⟩ := h.replaces hCommitted hApart
  rw [assertedNames_split hReplaces hHere]
  exact fun b hb => bufferNames_subset_split hReplaces hHere (hAsserted hb)

/-- Other loops are found under their labels. -/
theorem found_other {other : String} (hne : label ≠ other)
    (hOther : ∃ mode, (some other, mode) ∈ t.tags) :
    ∃ mode, (some other, mode) ∈ (t.splitAt label r names).tags := by
  obtain ⟨l, hLabel, hHere, hReplaces⟩ := h.replaces hCommitted hApart
  obtain ⟨before, after, hOld, hNew⟩ := tags_split hReplaces hHere
  obtain ⟨mode, hMem⟩ := hOther
  rw [hOld, hLabel] at hMem
  refine ⟨mode, ?_⟩
  rw [hNew]
  simp only [List.mem_append, List.mem_cons, Prod.mk.injEq, Option.some.injEq] at hMem ⊢
  rcases hMem with hMem | ⟨hSame, _⟩ | hMem
  · exact .inl hMem
  · exact absurd hSame.symm hne
  · exact .inr (.inr (.inr hMem))

theorem sequential (hSequential : ∀ p ∈ t.tags, p.2 = .sequential) :
    ∀ p ∈ (t.splitAt label r names).tags, p.2 = .sequential := by
  obtain ⟨l, _, hHere, hReplaces⟩ := h.replaces hCommitted hApart
  obtain ⟨before, after, hOld, hNew⟩ := tags_split hReplaces hHere
  rw [hOld, List.forall_mem_append, List.forall_mem_cons] at hSequential
  rw [hNew, List.forall_mem_append, List.forall_mem_cons, List.forall_mem_cons]
  exact ⟨hSequential.1, hSequential.2.1, rfl, hSequential.2.2⟩

end

end Cut

/-- A program whose loops can be split one after the other.

    * **committed**: it is committed;
    * **apart**: no loop lies inside a loop with the same iterator;
    * **sequential**: all loops run in turn;
    * **asserted**: what loops assert is about buffers that occur. -/
structure Ready (t : Stmt) : Prop where
  committed : t.Committed
  apart : t.NestsApart
  sequential : ∀ p ∈ t.tags, p.2 = .sequential
  asserted : t.assertedNames ⊆ t.bufferNames

/-- **One step**: a program that is ready is ready after a split. -/
theorem Ready.split (h : t.Ready) (hCut : t.Cut label r names)
    (hLabels : (t.splitAt label r names).labels.Nodup) : (t.splitAt label r names).number.Ready where
  committed := committed_number hLabels
  apart := (hCut.nestsApart h.committed h.apart).number
  sequential := by
    rw [tags_number]
    exact hCut.sequential h.committed h.apart h.sequential
  asserted := by
    rw [assertedNames_number, bufferNames_number]
    exact hCut.asserted h.committed h.apart h.asserted

/-! ## Two splits -/

variable {label₁ label₂ : String} {r₁ r₂ : SplitBy} {names₁ names₂ : SplitNames}

/-- Two splits can be made one after the other, under some names.

    * **first**: the first one can be made;
    * **free**, **different**: after it the iterators of the second one are new and different;
    * **label**: the second one is not asked for by a label of the first one. -/
structure TwoCuts (t : Stmt) (label₁ : String) (r₁ : SplitBy) (names₁ : SplitNames) (label₂ : String)
    (r₂ : SplitBy) (names₂ : SplitNames) : Prop where
  first : t.Cut label₁ r₁ names₁
  free : (t.splitAt label₁ r₁ names₁).FreeOf names₂.iters
  different : names₂.outerIter ≠ names₂.innerIter
  label : label₂ ∉ names₁.labels

/-- There are names for two splits that are new beside any names. -/
theorem exists_names (used : List String) (label₁ label₂ : String) : ∃ names names' : SplitNames,
    (names.iters ++ names'.iters).Nodup ∧ (∀ x ∈ names.iters ++ names'.iters, x ∉ used)
      ∧ names.labels = [label₁, label₁] ∧ names'.labels = [label₂, label₂] := by
  obtain ⟨hNodup, hFresh, _⟩ := NameSupply.draws_freshAll ["i", "j", "k", "l"] ⟨used⟩
  exact ⟨⟨_, _, label₁, label₁⟩, ⟨_, _, label₂, label₂⟩, hNodup, hFresh, rfl, rfl⟩

section orders

variable {names names' : SplitNames} (hCommitted : t.Committed) (hClean : t.CleanIterators)
  (hne : label₁ ≠ label₂)
include hCommitted hClean hne

/-- Two splits have the canonical form of the same splits in the other order, under names that are new
    beside those of the first one. The names of the second one need not be: it may draw a name that the
    first one has dropped. -/
theorem TwoCuts.canonical_swap (h : t.TwoCuts label₁ r₁ names₁ label₂ r₂ names₂)
    (h₂ : t.Cut label₂ r₂ names) (h₁ : t.Cut label₁ r₁ names') (hLabel : label₁ ∉ names.labels)
    (hBeside : ∀ x ∈ names.iters, x ∉ names₁.iters ++ names'.iters) :
    ((t.splitAt label₁ r₁ names₁).splitAt label₂ r₂ names₂).canonical
      = ((t.splitAt label₂ r₂ names).splitAt label₁ r₁ names').canonical := by
  obtain ⟨k₁, hCount₁⟩ := h₁.count
  obtain ⟨k₂, hCount₂⟩ := h₂.count
  have hApart : ∀ x ∈ names₁.iters, x ∉ names.iters :=
    fun x hx hMem => hBeside x hMem (List.mem_append_left _ hx)
  have hFree : (t.splitAt label₁ r₁ names₁).FreeOf (names₂.iters ++ names.iters) :=
    h.free.append (h.first.freeOf hCommitted hClean.nested h₂.free hApart)
  have hFree' : (t.splitAt label₂ r₂ names).FreeOf (names₁.iters ++ names'.iters) :=
    h₂.freeOf hCommitted hClean.nested (h.first.free.append h₁.free) hBeside
  calc ((t.splitAt label₁ r₁ names₁).splitAt label₂ r₂ names₂).canonical
      = ((t.splitAt label₁ r₁ names₁).splitAt label₂ r₂ names).canonical :=
        canonicalIn_splitAt hCount₂ h.different h₂.different label₂ _ [] hFree
          (h.first.nestsApart hCommitted hClean.nested)
    _ = ((t.splitAt label₂ r₂ names).splitAt label₁ r₁ names₁).canonical := by
        rw [splitAt_comm hCount₁ hCount₂ hne h.label hLabel t hClean.unshadowed hClean.nested
          h.first.free h₂.free]
    _ = ((t.splitAt label₂ r₂ names).splitAt label₁ r₁ names').canonical :=
        canonicalIn_splitAt hCount₁ h.first.different h₁.different label₁ _ [] hFree'
          (h₂.nestsApart hCommitted hClean.nested)

/-- **Two splits** give the same canonical form in either order, whichever new names they draw. -/
theorem TwoCuts.canonical_eq (h : t.TwoCuts label₁ r₁ names₁ label₂ r₂ names₂)
    (h' : t.TwoCuts label₂ r₂ names label₁ r₁ names') :
    ((t.splitAt label₁ r₁ names₁).splitAt label₂ r₂ names₂).canonical
      = ((t.splitAt label₂ r₂ names).splitAt label₁ r₁ names').canonical := by
  obtain ⟨new₁, new₂, hNodup, hFresh, hLabels₁, hLabels₂⟩ := exists_names
    (t.usedNames ++ t.assertedNames ++ (names₁.iters ++ names.iters)) label₁ label₂
  have hFree : ∀ new : SplitNames, new.iters ⊆ new₁.iters ++ new₂.iters → t.FreeOf new.iters :=
    fun new hSub x hx hMem => hFresh x (hSub hMem) (List.mem_append_left _ hx)
  have hApart : ∀ x ∈ new₁.iters ++ new₂.iters, x ∉ names₁.iters ++ names.iters :=
    fun x hx hMem => hFresh x hx (List.mem_append_right _ hMem)
  obtain ⟨hNodup₁, hNodup₂, hDisjoint⟩ := List.nodup_append.mp hNodup
  have hCut₁ : t.Cut label₁ r₁ new₁ :=
    ⟨h.first.found, h.first.count, hFree new₁ (List.subset_append_left _ _), by
      simpa [SplitNames.iters] using hNodup₁⟩
  have hCut₂ : t.Cut label₂ r₂ new₂ :=
    ⟨h'.first.found, h'.first.count, hFree new₂ (List.subset_append_right _ _), by
      simpa [SplitNames.iters] using hNodup₂⟩
  have hOther₁ : label₂ ∉ new₁.labels := by simp [hLabels₁, Ne.symm hne]
  have hOther₂ : label₁ ∉ new₂.labels := by simp [hLabels₂, hne]
  calc ((t.splitAt label₁ r₁ names₁).splitAt label₂ r₂ names₂).canonical
      = ((t.splitAt label₂ r₂ new₂).splitAt label₁ r₁ new₁).canonical := by
        refine h.canonical_swap hCommitted hClean hne hCut₂ hCut₁ hOther₂ fun x hx hMem => ?_
        rcases List.mem_append.mp hMem with hMem | hMem
        · exact hApart x (List.mem_append_right _ hx) (List.mem_append_left _ hMem)
        · exact hDisjoint x hMem x hx rfl
    _ = ((t.splitAt label₁ r₁ new₁).splitAt label₂ r₂ new₂).canonical := by
        obtain ⟨k₁, hCount₁⟩ := hCut₁.count
        obtain ⟨k₂, hCount₂⟩ := hCut₂.count
        rw [splitAt_comm hCount₁ hCount₂ hne hOther₁ hOther₂ t hClean.unshadowed hClean.nested
          hCut₁.free hCut₂.free]
    _ = ((t.splitAt label₂ r₂ names).splitAt label₁ r₁ names').canonical := by
        refine (h'.canonical_swap hCommitted hClean hne.symm hCut₁ hCut₂ hOther₁
          fun x hx hMem => ?_).symm
        rcases List.mem_append.mp hMem with hMem | hMem
        · exact hApart x (List.mem_append_left _ hx) (List.mem_append_right _ hMem)
        · exact hDisjoint x hx x hMem rfl

end orders

end cut

end Stmt

/-! ## Requests -/

namespace Restructure

/-- The command to split a loop. -/
def SplitBy.command (label : String) : SplitBy → Command
  | .factor c => .split label (some c) none
  | .parts c => .split label none (some c)

/-- The request with a number as the count. -/
def SplitBy.exactly (k : Int) : SplitBy → SplitBy
  | .factor _ => .factor (.int k)
  | .parts _ => .parts (.int k)

theorem SplitBy.count_exactly (k : Int) (r : SplitBy) : (r.exactly k).count = .int k := by
  cases r <;> rfl

theorem SplitBy.reduced_eq_exactly {r : SplitBy} {k : Int} (hConstant : r.count.constant? = some k)
    (hk : 0 < k) : r.reduced = .ok (r.exactly k) := by
  unfold reduced
  rw [hConstant]
  dsimp only
  rw [if_neg (by omega)]
  cases r <;> rfl

/-- The request is carried out. -/
theorem perform_split {t : Stmt} {label : String} {l : Stmt.LabelledLoop} {r : SplitBy} {k : Int}
    (hl : t.loopAt label = .ok l) (hConstant : r.count.constant? = some k) (hk : 0 < k)
    (registry : Registry) (maxLevels : Nat) :
    ∃ report, (r.command label).perform registry maxLevels t = .ok (t.update l.site.id fun _ =>
      splitLoop l (r.exactly k) (splitNames t l.head.iter label), report) := by
  have hReduced := SplitBy.reduced_eq_exactly hConstant hk
  refine ⟨.labels (splitNames t l.head.iter label).outerLabel
    (splitNames t l.head.iter label).innerLabel, ?_⟩
  cases r
  all_goals
    rw [SplitBy.command, Command.perform, split, hl]
    dsimp only [bind, Except.bind, SplitBy.ofArgs]
    rw [hReduced]
    rfl

/-- The names that a split draws are new, and its iterators are different. -/
theorem splitNames_fresh (t : Stmt) (iter label : String) :
    (∀ x ∈ (splitNames t iter label).iters, x ∉ t.usedNames)
      ∧ (splitNames t iter label).outerIter ≠ (splitNames t iter label).innerIter
      ∧ ∀ x ∈ (splitNames t iter label).labels, x ∉ t.labels := by
  obtain ⟨hOuter, hInner, hDifferent⟩ := draws_two t.usedNames (iter ++ ".0") (iter ++ ".1")
  obtain ⟨hFirst, hSecond, _⟩ := draws_two t.labels (label ++ ".0") (label ++ ".1")
  refine ⟨fun x hx => ?_, hDifferent, fun x hx => ?_⟩
  · rcases List.mem_cons.mp hx with rfl | hx
    · exact hOuter
    · rw [List.mem_singleton.mp hx]
      exact hInner
  · rcases List.mem_cons.mp hx with rfl | hx
    · exact hFirst
    · rw [List.mem_singleton.mp hx]
      exact hSecond

end Restructure

namespace Schedule

open Stmt Restructure

/-- All loops of a program run in turn. -/
theorem sequential_iff {t : Stmt} : (∀ lp ∈ t.loops, lp.isParallelLoop = false)
    ↔ ∀ p ∈ t.tags, p.2 = .sequential := by
  have hLoop : ∀ h : LoopHead, h.isParallel = false ↔ h.mode = .sequential := by
    intro h
    unfold LoopHead.isParallel LoopHead.tag?
    cases h.mode <;> simp
  constructor
  · intro h p hp
    obtain ⟨s, head, body, hMem, rfl⟩ := mem_tags.mp hp
    exact (hLoop head).mp (h _ (List.mem_filter.mpr ⟨hMem, rfl⟩))
  · intro h lp hlp
    obtain ⟨hMem, hIsLoop⟩ := List.mem_filter.mp hlp
    cases lp <;> simp only [isLoop, Bool.false_eq_true] at hIsLoop
    exact (hLoop _).mpr (h _ (mem_tags.mpr ⟨_, _, _, hMem, rfl⟩))

/-- A result without parallel loops is committed. -/
theorem commit_of_sequential {t : Stmt} (hLabels : t.labels.Nodup)
    (hSequential : ∀ p ∈ t.tags, p.2 = .sequential) (config : ScheduleConfig) :
    commit config t = .ok t.number := by
  have hCommit : t.commit = .ok t.number := commit_eq_ok.mpr ⟨hLabels, rfl⟩
  have hRecheck : recheckLoops config.maxLevels t.number.loops = .ok () := by
    refine recheckLoops_eq_ok.mpr fun lp hlp hParallel => ?_
    rw [← tags_number, ← sequential_iff] at hSequential
    rw [hSequential lp hlp] at hParallel
    cases hParallel
  unfold commit
  rw [hCommit]
  dsimp only [Except.mapError, bind, Except.bind]
  split
  · rw [hRecheck]
    rfl
  · rfl

section requests

variable {s : Schedule} {label : String} {l : LabelledLoop} {r : SplitBy} {k : Int}

/-- A loop of a program that is ready can be split by a positive constant. -/
theorem run_split (registry : Registry) (h : s.tree.Ready) (hl : s.tree.loopAt label = .ok l)
    (hConstant : r.count.constant? = some k) (hk : 0 < k) :
    ∃ u names report, s.tree.Cut label (r.exactly k) names
      ∧ (∀ x ∈ names.labels, x ∉ s.tree.labels)
      ∧ u.tree = (s.tree.splitAt label (r.exactly k) names).number ∧ u.tree.Ready
      ∧ s.run registry (r.command label) = .ok (u, report) := by
  have hMem := mem_of_loopAt hl
  have hLabel := label_of_loopAt hl
  have hIds : s.tree.ids.Nodup := h.committed.sound.ids
  obtain ⟨hNew, hDifferent, hNewLabels⟩ := splitNames_fresh s.tree l.head.iter label
  obtain ⟨report, hPerform⟩ := perform_split hl hConstant hk registry s.config.maxLevels
  rw [update_eq_splitAt_of_mem hIds h.committed.labels hMem hLabel] at hPerform
  generalize splitNames s.tree l.head.iter label = names at hNew hDifferent hNewLabels hPerform
  have hCut : s.tree.Cut label (r.exactly k) names := by
    refine ⟨⟨l, hMem, hLabel⟩, ⟨k, SplitBy.count_exactly k r⟩, fun x hx hNames => ?_, hDifferent⟩
    -- what is asserted is in use as well
    rcases List.mem_append.mp hx with hx | hx
    · exact hNew x hNames hx
    · exact hNew x hNames (bufferNames_subset _ (h.asserted hx))
  have hLabels := Command.labels_of_perform h.committed.sound hPerform
  have hCommit := commit_of_sequential hLabels
    (hCut.sequential h.committed h.apart h.sequential) s.config
  refine ⟨⟨_, s.history ++ [r.command label], s.config⟩, names, report, hCut, hNewLabels, rfl,
    h.split hCut hLabels, ?_⟩
  rw [run, hPerform]
  refine answering_eq_ok.mpr ?_
  dsimp only [bind, Except.bind]
  rw [hCommit]
  rfl

/-- Two loops of a program that is ready can be split one after the other. -/
theorem replay_splits {label' : String} {l' : LabelledLoop} {r' : SplitBy} {k' : Int}
    (registry : Registry) (h : s.tree.Ready) (hne : label ≠ label') (hl : s.tree.loopAt label = .ok l)
    (hl' : s.tree.loopAt label' = .ok l') (hConstant : r.count.constant? = some k) (hk : 0 < k)
    (hConstant' : r'.count.constant? = some k') (hk' : 0 < k') :
    ∃ u names names', s.replay registry [r.command label, r'.command label'] = .ok u
      ∧ s.tree.TwoCuts label (r.exactly k) names label' (r'.exactly k') names'
      ∧ u.tree.canonical
        = ((s.tree.splitAt label (r.exactly k) names).splitAt label' (r'.exactly k') names').canonical
    := by
  obtain ⟨u, names, report, hCut, hNewLabels, hTree, hReady, hRun⟩ :=
    run_split registry h hl hConstant hk
  have hMem' := mem_of_loopAt hl'
  have hLabel' := label_of_loopAt hl'
  -- the first split leaves the other loop
  obtain ⟨lp, hFound⟩ : ∃ lp, u.tree.loopAt label' = .ok lp := by
    have hTag : (some label', l'.head.mode) ∈ s.tree.tags :=
      mem_tags.mpr ⟨l'.site, l'.head, l'.body, hMem', by rw [hLabel']⟩
    obtain ⟨mode, hTag⟩ := hCut.found_other h.committed h.apart hne ⟨_, hTag⟩
    rw [← tags_number, ← hTree] at hTag
    obtain ⟨site, head, body, hLoop, hEq⟩ := mem_tags.mp hTag
    exact ⟨⟨site, head, body⟩,
      loopAt_of_mem hReady.committed.labels hLoop (congrArg Prod.fst hEq).symm⟩
  obtain ⟨v, names', report', hCut', _, hTree', _, hRun'⟩ :=
    run_split registry hReady hFound hConstant' hk'
  have hLabels : label' ∉ names.labels := fun hx =>
    hNewLabels label' hx (List.mem_filterMap.mpr ⟨l'.stmt, hMem', hLabel'⟩)
  rw [hTree] at hCut' hTree'
  refine ⟨v, names, names', ?_, ⟨hCut, freeOf_number.mp hCut'.free, hCut'.different, hLabels⟩, ?_⟩
  · rw [replay, List.foldlM_cons, hRun]
    dsimp only [Functor.map, Except.map, bind, Except.bind]
    rw [List.foldlM_cons, hRun']
    rfl
  · rw [hTree', canonical_number, canonical_splitAt_number]

/-- **Splits in either order**: take a committed program with clean iterators and without parallel loops,
    and two of its loops, one inside the other or not. What its loops assert is about buffers that the
    program uses. Then both loops can be split by positive constants in either order, and the programs
    match afterwards. -/
theorem splits_commute {label' : String} {l' : LabelledLoop} {r' : SplitBy} {k' : Int}
    (registry : Registry) (hCommitted : s.tree.Committed) (hClean : s.tree.CleanIterators)
    (hSequential : ∀ lp ∈ s.tree.loops, lp.isParallelLoop = false)
    (hAsserted : s.tree.assertedNames ⊆ s.tree.bufferNames) (hne : label ≠ label')
    (hl : s.tree.loopAt label = .ok l) (hl' : s.tree.loopAt label' = .ok l')
    (hConstant : r.count.constant? = some k) (hk : 0 < k)
    (hConstant' : r'.count.constant? = some k') (hk' : 0 < k') :
    ∃ u v, s.replay registry [r.command label, r'.command label'] = .ok u
      ∧ s.replay registry [r'.command label', r.command label] = .ok v
      ∧ u.tree.matchesProgram v.tree = true := by
  have hReady : s.tree.Ready := ⟨hCommitted, hClean.nested, sequential_iff.mp hSequential, hAsserted⟩
  obtain ⟨u, _, _, hFirst, hCuts, hForm⟩ := replay_splits registry hReady hne hl hl' hConstant hk
    hConstant' hk'
  obtain ⟨v, _, _, hSecond, hCuts', hForm'⟩ := replay_splits registry hReady hne.symm hl' hl
    hConstant' hk' hConstant hk
  refine ⟨u, v, hFirst, hSecond, matchesProgram_of_canonical_eq ?_⟩
  rw [hForm, hForm', hCuts.canonical_eq hCommitted hClean hne hCuts']

end requests

/-- A table that is filled above the diagonal. The bounds of the inner loop use the outer iterator. -/
def upperTable : Stmt :=
  .loop ⟨0, some "L1"⟩ { iter := "i", lower := .int 0, upper := .var "n", noDeps := ["t"] }
    (.loop ⟨1, some "L2"⟩ { iter := "j", lower := .var "i", upper := .var "n" }
      (.store ⟨2, none⟩ "t" [.var "i", .var "j"] (.load "x" [.var "j"])))

theorem upperTable_splits :
    (upperTable.Committed ∧ upperTable.CleanIterators)
      ∧ ∃ u v, ({ tree := upperTable } : Schedule).replay ⟨[]⟩
          [SplitBy.command "L1" (.factor (.int 4)), SplitBy.command "L2" (.parts (.int 3))] = .ok u
        ∧ ({ tree := upperTable } : Schedule).replay ⟨[]⟩
          [SplitBy.command "L2" (.parts (.int 3)), SplitBy.command "L1" (.factor (.int 4))] = .ok v
        ∧ u.tree.matchesProgram v.tree = true := by
  have hCommitted : upperTable.Committed := ⟨by decide, by decide⟩
  have hClean : upperTable.CleanIterators := by decide
  have hSequential : ∀ lp ∈ upperTable.loops, lp.isParallelLoop = false := by decide
  have hAsserted : upperTable.assertedNames ⊆ upperTable.bufferNames := by decide
  have hFour : (SplitBy.factor (.int 4)).count.constant? = some 4 := by decide
  have hThree : (SplitBy.parts (.int 3)).count.constant? = some 3 := by decide
  exact ⟨⟨hCommitted, hClean⟩, splits_commute (s := { tree := upperTable }) ⟨[]⟩ hCommitted hClean
    hSequential hAsserted (by decide) rfl rfl hFour (by decide) hThree (by decide)⟩

/-- Two loops with the same iterator, the first around a loop that asserts something of a buffer which
    the program does not use. -/
def stripes : Stmt :=
  .block ⟨0, none⟩
    [.loop ⟨1, some "L1"⟩ { iter := "i", lower := .int 0, upper := .int 4 }
      (.loop ⟨2, some "L3"⟩ { iter := "k", lower := .int 0, upper := .int 4, noDeps := ["i.0"] }
        (.store ⟨3, none⟩ "y" [.var "k"] (.var "i"))),
    .loop ⟨4, some "L2"⟩ { iter := "i", lower := .int 0, upper := .int 4 }
      (.store ⟨5, none⟩ "z" [.var "i"] (.int 1))]

/-- An assertion about a buffer that the program does not use may tell the orders apart: the loop that
    is split first draws the name of the buffer, and that loop may lie around the assertion or not. -/
theorem stripes_differ :
    stripes.Committed ∧ stripes.CleanIterators ∧ stripes.calls = []
      ∧ (∀ lp ∈ stripes.loops, lp.isParallelLoop = false)
      ∧ (∀ b ∈ stripes.bufferNames ++ stripes.assertedNames,
          b ∉ stripes.iterators ∧ ∀ u ∈ stripes.nodes, ∀ e ∈ u.exprs, b ∉ e.scalars)
      ∧ (((({ tree := stripes } : Schedule).replay ⟨[]⟩
          [.split "L1" (some (.int 2)) none, .split "L2" (some (.int 2)) none]).toOption).bind fun u =>
        ((({ tree := stripes } : Schedule).replay ⟨[]⟩
          [.split "L2" (some (.int 2)) none, .split "L1" (some (.int 2)) none]).toOption).map fun v =>
        u.tree.matchesProgram v.tree) = some false :=
  ⟨⟨by decide, by decide⟩, by decide, rfl, by decide, by decide, by decide +kernel⟩

end Schedule

end LoopNest

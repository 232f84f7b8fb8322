import LoopNest.Lower.Pipeline
import LoopNest.Proofs.DistributedLoops
import LoopNest.Proofs.LabelledPrograms
import LoopNest.Proofs.PendingLoops
import LoopNest.Proofs.Reorders
import LoopNest.Proofs.SplitLoops
import LoopNest.Schedule.Basic

/-! # Labels stay different

  Every transformation copies, moves, wraps or drops statements, and some of them create labels. None
  of them leaves a label twice, whether it takes one step or many.

  * A program between two steps is `Draft.Sound` when its numbers and its labels are different and
    its numbers were used before. Putting a statement with new numbers and labels in the place of
    another one keeps it so (`Draft.Sound.graft`).
  * **One step**: `Command.labels_of_perform` covers all commands of a schedule. The expansion of
    calls is the only one of many steps (`sound_expand`).
  * **Lowering**: workspaces carry no labels (`sound_lowerReductions`). -/

namespace LoopNest

/-- A changed result of a step is a result of the step that has been changed. -/
theorem Outcome.map_eq_ok {ε α β : Type} {o : Except ε α} {f : α → β} {r : β} :
    f <$> o = .ok r ↔ ∃ a, o = .ok a ∧ f a = r := by
  cases o with
  | error c =>
    constructor
    · intro h
      cases h
    · rintro ⟨a, h, _⟩
      cases h
  | ok a =>
    constructor
    · exact fun h => ⟨a, rfl, Except.ok.inj h⟩
    · rintro ⟨b, h, rfl⟩
      cases h
      rfl

/-- What every step keeps, a whole run of steps keeps. -/
theorem Outcome.of_foldlM {α β : Type} {P : β → Prop} {f : β → α → Outcome β}
    (hStep : ∀ b a b', P b → f b a = .ok b' → P b') :
    ∀ (xs : List α) (b b' : β), P b → xs.foldlM f b = .ok b' → P b' := by
  intro xs
  induction xs with
  | nil =>
    intro b b' hb h
    cases h
    exact hb
  | cons x xs ih =>
    intro b b' hb h
    rw [List.foldlM_cons] at h
    obtain ⟨next, hFirst, hRest⟩ := Outcome.bind_eq_ok.mp h
    exact ih next b' (hStep b x next hb hFirst) hRest

namespace Restructure

open Stmt (LabelledLoop)

/-- A program in the middle of a transformation.

    * **ids**, **old**: its statements have different numbers, and these were used before;
    * **labels**: its labels are different. -/
structure Draft.Sound (d : Draft) : Prop where
  ids : d.tree.ids.Nodup
  old : ∀ i ∈ d.tree.ids, i < d.next
  labels : d.tree.labels.Nodup

/-- A committed program is sound. -/
theorem Draft.Sound.number {t : Stmt} (h : t.labels.Nodup) : (Draft.of t.number).Sound where
  ids := Stmt.nodup_ids_number t
  old := Stmt.lt_size_number
  labels := by
    show t.number.labels.Nodup
    rwa [Stmt.labels_number]

/-- Something new takes the place of the statement with a given number, if there is one. -/
theorem Draft.Sound.graft {d : Draft} (h : d.Sound) {p next : Nat} {u : Stmt} (hNext : d.next ≤ next)
    (hIds : u.ids.Nodup) (hOld : ∀ i ∈ u.ids, i < next) (hLabels : u.labels.Nodup)
    (hNew : ∀ l ∈ d.tree.nodes, l.id = p → (∀ i ∈ u.ids, i ∈ l.ids ∨ d.next ≤ i)
      ∧ ∀ x ∈ u.labels, x ∈ l.labels ∨ x ∉ d.tree.labels) :
    Draft.Sound ⟨d.tree.update p fun _ => u, next⟩ := by
  by_cases hp : p ∈ d.tree.ids
  · obtain ⟨l, hl, rfl⟩ := List.mem_map.mp hp
    obtain ⟨hNewIds, hNewLabels⟩ := hNew l hl rfl
    refine ⟨Stmt.nodup_ids_update h.ids h.old hl hIds hNewIds, fun i hi => ?_,
      Stmt.nodup_labels_update h.ids h.labels hl hLabels hNewLabels⟩
    rcases Stmt.mem_ids_update hi with hi | hi
    · exact hOld i hi
    · exact Nat.lt_of_lt_of_le (h.old i hi) hNext
  · rw [Stmt.update_of_not_mem _ hp]
    exact ⟨h.ids, fun i hi => Nat.lt_of_lt_of_le (h.old i hi) hNext, h.labels⟩

variable {t t' : Stmt} {k : Nat}

/-! ## Reordering -/

/-- A statement around an inner one, with what a search for the inner one gathers on the way. -/
inductive Framed (inner : Stmt) : Stmt → Between → Prop where
  | here : Framed inner inner ⟨[], [], []⟩
  | guard {body : Stmt} {b : Between} (s : Site) (e : Expr) (h : Framed inner body b) :
    Framed inner (.guard s e body) ⟨e :: b.conds, b.before, b.after⟩
  | block {t : Stmt} {b : Between} (s : Site) (first last : List Stmt) (h : Framed inner t b) :
    Framed inner (.block s (first ++ t :: last)) ⟨b.conds, first ++ b.before, b.after ++ last⟩

/-- The search in a block goes on in one of its statements. -/
theorem gatherAll_cases {writes : List String} {inner : LabelledLoop} {b' : Between} :
    ∀ (ts : List Stmt) (b : Between), gatherAll writes inner b ts = .ok b' →
      ∃ first t last, ts = first ++ t :: last
        ∧ gather writes inner ⟨b.conds, b.before ++ first, last ++ b.after⟩ t = .ok b' := by
  intro ts
  induction ts with
  | nil =>
    intro b h
    cases h
  | cons t ts ih =>
    intro b h
    rw [gatherAll] at h
    split at h
    · exact ⟨[], t, ts, rfl, by simpa using h⟩
    · obtain ⟨first, u, last, rfl, hGather⟩ := ih _ h
      exact ⟨t :: first, u, last, rfl, by simpa using hGather⟩

/-- **Gathering** adds what is around the inner loop to what has been gathered before. -/
theorem gather_framed {writes : List String} {inner : LabelledLoop} :
    ∀ (t : Stmt) (b b' : Between), gather writes inner b t = .ok b' →
      (∀ u ∈ t.nodes, u.id = inner.site.id → u = inner.stmt) →
        ∃ found, Framed inner.stmt t found
          ∧ b' = ⟨b.conds ++ found.conds, b.before ++ found.before, found.after ++ b.after⟩ := by
  -- a statement that is neither a block nor a guard is the inner loop
  have hLoop : ∀ {t : Stmt} {b b' : Between},
      (if t.id = inner.site.id then .ok b
        else if !b.before.isEmpty || !b.after.isEmpty then .error .besideBranch
        else .error (.between t.kindName) : Outcome Between) = .ok b' →
      (∀ u ∈ t.nodes, u.id = inner.site.id → u = inner.stmt) →
        ∃ found, Framed inner.stmt t found
          ∧ b' = ⟨b.conds ++ found.conds, b.before ++ found.before, found.after ++ b.after⟩ := by
    intro t b b' h hSole
    split at h
    · rename_i hId
      obtain rfl := hSole t (Stmt.self_mem_nodes t) hId
      cases h
      exact ⟨_, .here, by simp⟩
    · split at h <;> cases h
  refine Stmt.ind ?decl ?loop ?guard ?branch ?store ?call ?block ?hole
  case decl =>
    intro s n buffer body _ b b' h
    simp only [gather] at h
    exact hLoop h
  case loop =>
    intro s head body _ b b' h
    simp only [gather] at h
    exact hLoop h
  case guard =>
    intro s e body ih b b' h hSole
    rw [gather] at h
    split at h
    · cases h
    · obtain ⟨⟨⟩, _, h⟩ := Outcome.bind_eq_ok.mp h
      obtain ⟨found, hFramed, rfl⟩ := ih _ b' h fun u hu => hSole u (by simp [hu])
      exact ⟨_, .guard s e hFramed, by simp⟩
  case branch =>
    intro s e yes no _ _ b b' h
    simp only [gather] at h
    exact hLoop h
  case store =>
    intro s buffer is v b b' h
    simp only [gather] at h
    exact hLoop h
  case call =>
    intro s f args b b' h
    simp only [gather] at h
    exact hLoop h
  case block =>
    intro s ts ih b b' h hSole
    rw [gather] at h
    obtain ⟨first, t, last, rfl, hFound⟩ := gatherAll_cases ts b h
    obtain ⟨found, hFramed, rfl⟩ := ih t (by simp) _ b' hFound fun u hu => hSole u (by simp [hu])
    exact ⟨_, .block s first last hFramed, by simp⟩
  case hole =>
    intro s b b' h
    simp only [gather] at h
    exact hLoop h

/-- What is gathered around a statement was around it before. -/
theorem Framed.inside {inner t : Stmt} {b : Between} (h : Framed inner t b) :
    ∀ w ∈ b.before ++ b.after, ∀ u ∈ w.nodes, u ∈ t.nodes := by
  induction h with
  | here => exact fun w hw => absurd hw List.not_mem_nil
  | guard s e _ ih =>
    intro w hw u hu
    rw [Stmt.nodes_guard]
    exact List.mem_cons_of_mem _ (ih w hw u hu)
  | @block t b s first last _ ih =>
    intro w hw u hu
    rw [Stmt.nodes_block]
    refine List.mem_cons_of_mem _ (List.mem_flatMap.mpr ?_)
    simp only [List.mem_append] at hw
    rcases hw with (hw | hw) | (hw | hw)
    · exact ⟨w, by simp [hw], hu⟩
    · exact ⟨t, by simp, ih w (List.mem_append_left _ hw) u hu⟩
    · exact ⟨t, by simp, ih w (List.mem_append_right _ hw) u hu⟩
    · exact ⟨w, by simp [hw], hu⟩

theorem Framed.holds {inner t : Stmt} {b : Between} (h : Framed inner t b) : inner ∈ t.nodes := by
  induction h with
  | here => exact Stmt.self_mem_nodes _
  | guard s e _ ih => simp [ih]
  | block s first last _ ih => simp [ih]

/-- A property that goes over to the parts of blocks and guards holds of what is gathered around a
    statement. -/
theorem Framed.parts {C : Expr → Prop} {P : Stmt → Prop}
    (hBlock : ∀ s ts, P (.block s ts) → ∀ t ∈ ts, P t)
    (hGuard : ∀ s e body, P (.guard s e body) → C e ∧ P body) {inner t : Stmt} {b : Between}
    (h : Framed inner t b) (ht : P t) :
    P inner ∧ (∀ e ∈ b.conds, C e) ∧ ∀ w ∈ b.before ++ b.after, P w := by
  induction h with
  | here => exact ⟨ht, by simp, by simp⟩
  | guard s e _ ih =>
    obtain ⟨hCond, hBody⟩ := hGuard _ _ _ ht
    obtain ⟨hInner, hConds, hParts⟩ := ih hBody
    exact ⟨hInner, List.forall_mem_cons.mpr ⟨hCond, hConds⟩, hParts⟩
  | @block t b s first last _ ih =>
    have hEach := hBlock _ _ ht
    obtain ⟨hInner, hConds, hParts⟩ := ih (hEach t (by simp))
    refine ⟨hInner, hConds, fun w hw => ?_⟩
    simp only [List.mem_append] at hw
    rcases hw with (hw | hw) | (hw | hw)
    · exact hEach w (by simp [hw])
    · exact hParts w (List.mem_append_left _ hw)
    · exact hParts w (List.mem_append_right _ hw)
    · exact hEach w (by simp [hw])

/-- What has been gathered between two loops has the labels that it had, in the same order. -/
theorem Framed.labels_sublist {inner t : Stmt} {b : Between} (h : Framed inner t b) :
    (b.before.flatMap Stmt.labels ++ (inner.labels ++ b.after.flatMap Stmt.labels)).Sublist
      t.labels := by
  induction h with
  | here => simp
  | guard s e _ ih =>
    rw [Stmt.labels_guard]
    exact ih.trans (List.sublist_append_right _ _)
  | @block t b s first last _ ih =>
    rw [Stmt.labels_block]
    refine List.Sublist.trans ?_ (List.sublist_append_right _ _)
    have hAround := ((List.Sublist.refl (first.flatMap Stmt.labels)).append ih).append
      (List.Sublist.refl (last.flatMap Stmt.labels))
    simpa only [List.flatMap_append, List.flatMap_cons, List.append_assoc] using hAround

theorem labels_sequenceAt (next : Nat) (ts : List Stmt) :
    (sequenceAt next ts).1.labels = ts.flatMap Stmt.labels := by
  unfold sequenceAt
  split <;> simp

theorem labels_guardedAt (next : Nat) (e : Expr) (ts : List Stmt) :
    (guardedAt next e ts).1.flatMap Stmt.labels = ts.flatMap Stmt.labels := by
  cases ts with
  | nil => rfl
  | cons w ts => simp [guardedAt, labels_sequenceAt]

/-- The new inner body has the labels of what it is made of. -/
theorem labels_innerBody (b : Between) (inner : LabelledLoop) (next : Nat) :
    (b.innerBody inner next).1.labels
      = b.before.flatMap Stmt.labels ++ (inner.body.labels ++ b.after.flatMap Stmt.labels) := by
  obtain ⟨guarded, k, l, _, _, hEq, _, hGuarded⟩ := innerBody_eq b inner next
  have hGuard : guarded.labels = inner.body.labels := by
    rcases hGuarded with ⟨_, rfl⟩ | ⟨outer, e, id, _, _, rfl⟩
    · rfl
    · simp
  rw [hEq, labels_sequenceAt, List.flatMap_append, List.flatMap_append, labels_guardedAt,
    labels_guardedAt, List.flatMap_singleton, hGuard, List.append_assoc]

/-- The labels of some loops around a body. -/
theorem labels_nestOf (loops : List (Site × LoopHead)) (body : Stmt) :
    (nestOf loops body).labels = loops.flatMap (·.1.label.toList) ++ body.labels := by
  induction loops with
  | nil => rfl
  | cons l loops ih =>
    show (Stmt.loop l.1 l.2 (nestOf loops body)).labels = _
    rw [Stmt.labels_loop, ih, List.flatMap_cons, List.append_assoc]

/-- A chain of loops and the perfect nest that it becomes, loop by loop. Statements are created with
    numbers from `first` on. -/
inductive Sinks (first : Nat) : LabelledLoop → List LabelledLoop → PerfectNest → Prop where
  | last (l : LabelledLoop) : Sinks first l [] ⟨[(l.site, l.head)], l.body⟩
  | next {outer inner : LabelledLoop} {rest : List LabelledLoop} {b : Between} {nest : PerfectNest}
    {n : Nat} (framed : Framed inner.stmt outer.body b) (check : b.check inner.head = .ok ())
    (conds : ∀ e ∈ b.conds, e.mentions inner.head.iter = false) (new : first ≤ n)
    (h : Sinks first { inner with body := (b.innerBody inner n).1 } rest nest) :
    Sinks first outer (inner :: rest) ⟨(outer.site, outer.head) :: nest.loops, nest.body⟩

/-- Making a chain perfect, when the loops of the chain can be told apart from all new statements. -/
theorem perfect_sinks {olds : List Stmt} {first : Nat} {writes : List String}
    (hIds : (olds.map Stmt.id).Nodup) (hLess : ∀ w ∈ olds, w.id < first) :
    ∀ (rest : List LabelledLoop) (outer : LabelledLoop) (next : Nat) (nest : PerfectNest),
      first ≤ next → (∀ u ∈ outer.body.nodes, Provenance olds first (fun _ => True) u) →
      (∀ l ∈ rest, l.stmt ∈ olds) → perfect writes next outer rest = .ok nest →
        Sinks first outer rest nest := by
  have hClosed : ∀ l : LabelledLoop, CondClosed olds (fun _ => True) l := fun l =>
    ⟨fun _ _ _ _ => trivial, fun _ _ _ _ => trivial, trivial, trivial⟩
  intro rest
  induction rest with
  | nil =>
    intro outer next nest _ _ _ h
    cases h
    exact .last outer
  | cons inner rest ih =>
    intro outer next nest hNext hBody hRest h
    rw [perfect] at h
    obtain ⟨b, hGather, h⟩ := Outcome.bind_eq_ok.mp h
    obtain ⟨⟨⟩, hCheck, h⟩ := Outcome.bind_eq_ok.mp h
    obtain ⟨nest', hPerfect, h⟩ := Outcome.bind_eq_ok.mp h
    cases h
    obtain ⟨found, hFramed, hFound⟩ := gather_framed outer.body _ b hGather
      fun u hu hId => (hBody u hu).eq_of_id hIds hLess (hRest inner List.mem_cons_self) hId
    obtain rfl : b = found := hFound.trans (by simp)
    obtain ⟨conds, before, after, hGathers⟩ := gather_gathers outer.body _ b hGather
      fun u hu hId => (hBody u hu).eq_of_id hIds hLess (hRest inner List.mem_cons_self) hId
    have hConds : ∀ e ∈ b.conds, e.mentions inner.head.iter = false := fun e he =>
      (of_checkCondition (hGathers.checked e (by simpa [hGathers.result] using he))).2
    have hNew : ∀ u ∈ (b.innerBody inner next).1.nodes,
        Provenance olds first (fun _ => True) u :=
      provenance_innerBody (hClosed inner) hNext (fun _ _ => trivial)
        (fun w hw u hu => hBody u (hFramed.inside w hw u hu))
        fun u hu => hBody u (Stmt.mem_nodes_trans (mem_nodes_stmt hu) hFramed.holds)
    exact .next hFramed hCheck hConds hNext (ih { inner with body := (b.innerBody inner next).1 }
      _ nest' (Nat.le_trans hNext (le_innerBody _ inner next)) hNew
      (fun l hl => hRest l (List.mem_cons_of_mem inner hl)) hPerfect)

/-- A perfect nest has the loops of the chain of which it is made. -/
theorem Sinks.loops {first : Nat} {outer : LabelledLoop} {rest : List LabelledLoop}
    {nest : PerfectNest} (h : Sinks first outer rest nest) :
    nest.loops = (outer :: rest).map fun l => (l.site, l.head) := by
  induction h with
  | last => rfl
  | next _ _ _ _ _ ih => exact congrArg _ ih

/-- A perfect nest has at most the labels of the chain of which it is made. -/
theorem Sinks.labels {first : Nat} {outer : LabelledLoop} {rest : List LabelledLoop}
    {nest : PerfectNest} (h : Sinks first outer rest nest) :
    (nestOf nest.loops nest.body).labels.Subperm outer.stmt.labels := by
  induction h with
  | last l => exact (List.Sublist.refl _).subperm
  | @next outer inner rest b nest n framed _ _ _ _ ih =>
    -- what has moved into the inner loop was in the outer body
    have hMoved : ({ inner with body := (b.innerBody inner n).1 } :
        LabelledLoop).stmt.labels.Subperm outer.body.labels := by
      rw [LabelledLoop.stmt, Stmt.labels_loop, labels_innerBody]
      have hPerm : (inner.site.label.toList ++ b.before.flatMap Stmt.labels
          ++ (inner.body.labels ++ b.after.flatMap Stmt.labels)).Perm
          (b.before.flatMap Stmt.labels ++ inner.site.label.toList
            ++ (inner.body.labels ++ b.after.flatMap Stmt.labels)) :=
        List.perm_append_comm.append_right _
      rw [List.append_assoc, List.append_assoc] at hPerm
      refine hPerm.subperm.trans ?_
      simpa [LabelledLoop.stmt, List.append_assoc] using framed.labels_sublist.subperm
    show (Stmt.loop outer.site outer.head (nestOf nest.loops nest.body)).labels.Subperm _
    rw [Stmt.labels_loop, LabelledLoop.stmt, Stmt.labels_loop]
    exact (List.subperm_append_left _).mpr (ih.trans hMoved)

/-- The perfect nest of an accepted request. -/
theorem Reordered.sinks {labels : List String} {outer : LabelledLoop} {rest : List LabelledLoop}
    {order : List Nat} {nest : PerfectNest} (h : Reordered k t t' labels outer rest order nest)
    (hIds : t.ids.Nodup) (hLess : ∀ i ∈ t.ids, i < t.size) :
    outer.stmt ∈ t.nodes ∧ Sinks t.size outer rest nest := by
  have hMem := h.mem_nodes
  have hOuter := hMem outer List.mem_cons_self
  exact ⟨hOuter, perfect_sinks hIds (fun w hw => hLess _ (List.mem_map_of_mem hw)) rest outer t.size
    nest (Nat.le_refl _) (fun u hu => .old (Stmt.mem_nodes_trans (mem_nodes_stmt hu) hOuter))
    (fun l hl => hMem l (List.mem_cons_of_mem _ hl)) h.perfect⟩

/-- Labels stay different when what takes the place of a statement has no others. -/
theorem Draft.Sound.labels_update_of_subperm (h : (Draft.of t).Sound) {l u : Stmt} (hl : l ∈ t.nodes)
    (hSub : u.labels.Subperm l.labels) : (t.update l.id fun _ => u).labels.Nodup := by
  have hOld : l.labels.Nodup := h.labels.sublist (Stmt.labels_sublist hl)
  obtain ⟨labels, hPerm, hSublist⟩ := hSub
  exact Stmt.nodup_labels_update h.ids h.labels hl (hPerm.nodup (hOld.sublist hSublist))
    fun x hx => .inl (hSublist.subset (hPerm.symm.subset hx))

theorem labels_reorder {labels : List String} (h : (Draft.of t).Sound)
    (hReorder : reorder k t labels = .ok t') : t'.labels.Nodup := by
  rcases reorder_cases hReorder with rfl | ⟨outer, rest, order, nest, hCases⟩
  · exact h.labels
  · obtain ⟨hOuter, hSinks⟩ := hCases.sinks h.ids h.old
    -- the permuted nest has the labels of the nest
    have hPlaces := hCases.places
    rw [← List.length_map (fun l : LabelledLoop => (l.site, l.head)), ← hSinks.loops] at hPlaces
    have hPermuted : (nestOf (order.filterMap (nest.loops[·]?)) nest.body).labels.Perm
        (nestOf nest.loops nest.body).labels := by
      rw [labels_nestOf, labels_nestOf]
      exact ((permuted_perm hPlaces).flatMap_right _).append_right _
    rw [hCases.result]
    exact h.labels_update_of_subperm hOuter (hPermuted.subperm.trans hSinks.labels)

/-! ## Other transformations -/

/-- Two labels that are drawn for a program are new and different. -/
theorem draws_two (used : List String) (a b : String) :
    let first := (NameSupply.mk used).fresh a
    let second := first.2.fresh b
    first.1 ∉ used ∧ second.1 ∉ used ∧ first.1 ≠ second.1 := by
  have hFirst := (NameSupply.mk used).draws_fresh a
  have hBoth := hFirst.append (((NameSupply.mk used).fresh a).2.draws_fresh b)
  refine ⟨hBoth.fresh _ (by simp), hBoth.fresh _ (by simp), ?_⟩
  have hNodup := hBoth.nodup
  simpa using hNodup

/-- Two new labels may be put in front of some labels of a statement that is replaced. -/
theorem Draft.Sound.labels_update_of_two (h : (Draft.of t).Sound) {l u : Stmt} (hl : l ∈ t.nodes)
    {a b : String} (ha : a ∉ t.labels) (hb : b ∉ t.labels) (hab : a ≠ b) (old : List String)
    (hOld : old.Sublist l.labels) (hu : u.labels.Perm (a :: b :: old)) :
    (t.update l.id fun _ => u).labels.Nodup := by
  have hSub : ∀ x ∈ old, x ∈ t.labels :=
    fun x hx => (Stmt.labels_sublist hl).subset (hOld.subset hx)
  refine Stmt.nodup_labels_update h.ids h.labels hl (hu.symm.nodup ?_) fun x hx => ?_
  · refine List.nodup_cons.mpr ⟨fun hMem => ?_, List.nodup_cons.mpr ⟨fun hMem => hb (hSub b hMem),
      (h.labels.sublist (Stmt.labels_sublist hl)).sublist hOld⟩⟩
    rcases List.mem_cons.mp hMem with hEq | hMem
    · exact hab hEq
    · exact ha (hSub a hMem)
  · rcases List.mem_cons.mp (hu.subset hx) with rfl | hx
    · exact .inr ha
    · rcases List.mem_cons.mp hx with rfl | hx
      · exact .inr hb
      · exact .inl (hOld.subset hx)

theorem labels_split {label a b : String} {factor nparts : Option Expr} (h : (Draft.of t).Sound)
    (hSplit : split t label factor nparts = .ok (t', a, b)) : t'.labels.Nodup := by
  obtain ⟨l, hFound, hSplit⟩ := Outcome.bind_eq_ok.mp hSplit
  obtain ⟨s, _, hSplit⟩ := Outcome.bind_eq_ok.mp hSplit
  obtain ⟨s, _, hSplit⟩ := Outcome.bind_eq_ok.mp hSplit
  cases hSplit
  obtain ⟨ha, hb, hab⟩ := draws_two t.labels (label ++ ".0") (label ++ ".1")
  refine h.labels_update_of_two (Stmt.mem_of_loopAt hFound) ha hb hab l.body.labels
    (by simp [Stmt.LabelledLoop.stmt]) (.of_eq ?_)
  have hBody : (newBody l s (splitNames t l.head.iter label)).labels = l.body.labels := by
    unfold newBody
    dsimp only
    have hSame := Stmt.labels_of_sites (Stmt.sites_substitute l.head.iter
      (oldIterator l s (splitNames t l.head.iter label)) l.body)
    split
    · exact hSame
    · rw [Stmt.labels_guard, hSame]
      rfl
  rw [splitLoop_eq, Stmt.labels_loop, newInner, Stmt.labels_loop, hBody]
  rfl

/-- A request to run a loop in parallel changes the mode of that loop. -/
theorem parallelize_cases {label tag : String} (h : parallelize k t label tag = .ok t') :
    ∃ l, t.loopAt label = .ok l
      ∧ t' = t.update l.site.id fun _ => .loop l.site { l.head with mode := .parallel tag } l.body := by
  unfold parallelize at h
  split at h
  · cases h
  · obtain ⟨l, hFound, h⟩ := Outcome.bind_eq_ok.mp h
    split at h
    · cases h
    · cases h
      exact ⟨l, hFound, rfl⟩

theorem labels_parallelize {label tag : String} (h : (Draft.of t).Sound)
    (hParallelize : parallelize k t label tag = .ok t') : t'.labels.Nodup := by
  obtain ⟨l, hFound, rfl⟩ := parallelize_cases hParallelize
  refine h.labels_update_of_subperm (Stmt.mem_of_loopAt hFound) ?_
  simp [LabelledLoop.stmt, List.Subperm.refl]

theorem labels_fission {label after a b : String} (h : (Draft.of t).Sound)
    (hFission : fission k t label after = .ok (t', a, b)) : t'.labels.Nodup := by
  obtain ⟨l, hFound, hFission⟩ := Outcome.bind_eq_ok.mp hFission
  obtain ⟨⟨first, second⟩, hParts, hFission⟩ := Outcome.bind_eq_ok.mp hFission
  obtain ⟨site, hBody⟩ := block_of_fissionParts hParts
  dsimp only at hFission
  split at hFission
  · cases hFission
  · split at hFission
    · cases hFission
    · cases hFission
      obtain ⟨ha, hb, hab⟩ := draws_two t.labels (label ++ ".a") (label ++ ".b")
      have hSequence : ∀ ts : List Stmt, (Stmt.sequence ts).labels = ts.flatMap Stmt.labels := by
        intro ts
        unfold Stmt.sequence
        split <;> simp [Site.unnumbered]
      refine h.labels_update_of_two (Stmt.mem_of_loopAt hFound) ha hb hab
        (first.flatMap Stmt.labels ++ second.flatMap Stmt.labels) ?_ ?_
      · rw [LabelledLoop.stmt, Stmt.labels_loop, hBody, Stmt.labels_block, List.flatMap_append,
          ← List.append_assoc]
        exact List.sublist_append_right _ _
      · simp only [Stmt.labels_block, Stmt.labels_loop, Site.unnumbered, hSequence,
          Option.toList_none, Option.toList_some, List.nil_append, List.flatMap_cons,
          List.flatMap_nil, List.append_nil, List.cons_append]
        exact .cons _ List.perm_middle

/-- An accepted request to permute dimensions is about a local buffer that is declared under the
    label. -/
theorem varReorder_cases {label : String} {order : List Nat}
    (h : varReorder t label order = .ok t') : ∃ site n b body,
      Stmt.decl site n b body ∈ t.nodes ∧ site.label = some label ∧ b.access = .cache
        ∧ isPermutation order b.rank = true
        ∧ t' = t.update site.id fun _ => .decl site n { b with shape := Expr.permuted order b.shape }
            (body.permuteAccesses n order) := by
  unfold varReorder at h
  split at h
  · cases h
  · rename_i site n b body hFound
    split at h
    · cases h
    · rename_i hAccess
      split at h
      · cases h
      · rename_i hPermutation
        split at h
        · cases h
        · cases h
          have hLabel : (site.label == some label) = true :=
            List.find?_some (p := fun w : Stmt => w.label? == some label) hFound
          exact ⟨site, n, b, body, List.mem_of_find?_eq_some hFound, eq_of_beq hLabel,
            not_not.mp hAccess, by simpa using hPermutation, rfl⟩
  · cases h

theorem labels_varReorder {label : String} {order : List Nat} (h : (Draft.of t).Sound)
    (hReorder : varReorder t label order = .ok t') : t'.labels.Nodup := by
  obtain ⟨site, n, b, body, hDecl, _, _, _, rfl⟩ := varReorder_cases hReorder
  refine h.labels_update_of_subperm hDecl ?_
  simp [Stmt.labels_of_sites (Stmt.sites_permuteAccesses n order body), List.Subperm.refl]

/-! ## Expanding calls -/

/-- The private copy of a function has new numbers and new labels, all different. -/
theorem privateCopy_spec (host : Stmt) (next : Nat) (f : Function) (b : Binding) (front : String) :
    let copy := privateCopy host next f b front
    next ≤ copy.2 ∧ copy.1.ids.Nodup ∧ (∀ i ∈ copy.1.ids, next ≤ i ∧ i < copy.2)
      ∧ copy.1.labels.Nodup ∧ ∀ x ∈ copy.1.labels, x ∉ host.labels := by
  have hCopied := Stmt.copied_copyFrom f.body next
  have hRenamed : ∀ (values : List (String × Expr)) (t : Stmt),
      (values.foldl (fun t v => putValue t v.1 v.2) t).sites = t.sites := by
    intro values
    induction values with
    | nil => exact fun t => rfl
    | cons v values ih =>
      intro t
      show (values.foldl _ (putValue t v.1 v.2)).sites = t.sites
      rw [ih, putValue, Stmt.sites_mapExprs, Stmt.sites_substitute]
  unfold privateCopy
  dsimp only
  generalize renamings host.usedNames f.params b.buffers (f.body.copyFrom next).1 = r
  generalize hFilled : b.values.foldl (fun t v => putValue t v.1 v.2)
    ((f.body.copyFrom next).1.rename r.scalars r.buffers) = filled
  have hIds : filled.ids = (f.body.copyFrom next).1.ids := by
    refine Stmt.ids_of_sites ?_
    rw [← hFilled, hRenamed, Stmt.sites_rename]
  have hNodup : filled.ids.Nodup := hIds ▸ hCopied.nodup
  obtain ⟨hLabels, hFresh⟩ := labels_relabel hNodup front (NameSupply.mk host.labels)
  rw [Stmt.ids_relabel]
  exact ⟨hCopied.le, hNodup, fun i hi => hCopied.bounds i (hIds ▸ hi), hLabels, hFresh⟩

/-- A call that has been expanded: it names a function outside the chain to which its arguments fit,
    and after a private copy has taken its place, the calls that the copy brings in are expanded in
    turn. -/
theorem expand_cases {α : Type} [Workpiece α] {r : Registry} {depth : Nat} {chain : List String}
    {w w' : α} {call : Stmt} {n : Nat} (h : expand r depth chain w call = .ok (w', n)) :
    ∃ site callee args depth' f b, call = .call site callee args ∧ depth = depth' + 1
      ∧ callee ∉ chain ∧ r.get? callee = some f ∧ args.length = f.params.length
      ∧ bindArgs (fun name => Workpiece.bufferAt? w name site.id) callee f.body.written {} f.params args
          = .ok b
      ∧ let copy := privateCopy (Workpiece.tree w) (Workpiece.next w) f b (site.label.getD callee)
        copy.1.calls.foldlM (fun p nested => do
          let q ← expand r depth' (chain ++ [callee]) p.1 nested
          return (q.1, p.2 + q.2)) (Workpiece.graft w site.id copy.1 copy.2, 1) = .ok (w', n) := by
  unfold expand at h
  split at h
  · rename_i site callee args
    split at h
    · cases h
    · rename_i hChain
      split at h
      · cases h
      · cases h
      · rename_i depth' f hFunction
        dsimp only at h
        split at h
        · cases h
        · rename_i hCount
          obtain ⟨b, hBind, h⟩ := Outcome.bind_eq_ok.mp h
          exact ⟨site, callee, args, depth', f, b, rfl, rfl, by simpa using hChain, hFunction,
            by simpa using hCount, hBind, h⟩
  · cases h

/-- **Expanding a call**, and the calls that it brings in. -/
theorem sound_expand (r : Registry) : ∀ (depth : Nat) (chain : List String) (d d' : Draft)
    (call : Stmt) (n : Nat), d.Sound → expand r depth chain d call = .ok (d', n) → d'.Sound := by
  intro depth
  induction depth with
  | zero =>
    intro chain d d' call n _ hExpand
    obtain ⟨_, _, _, _, _, _, _, hDepth, _⟩ := expand_cases hExpand
    cases hDepth
  | succ depth ih =>
    intro chain d d' call n h hExpand
    obtain ⟨site, callee, args, depth', f, b, rfl, hDepth, _, _, _, _, hRest⟩ := expand_cases hExpand
    cases hDepth
    dsimp only at hRest
    have hCopy := privateCopy_spec (Workpiece.tree d) (Workpiece.next d) f b
      (site.label.getD callee)
    generalize privateCopy (Workpiece.tree d) (Workpiece.next d) f b (site.label.getD callee)
      = copied at hCopy hRest
    obtain ⟨copy, next⟩ := copied
    obtain ⟨hNext, hIds, hBounds, hLabels, hFresh⟩ := hCopy
    have hStart : Draft.Sound ⟨d.tree.update site.id fun _ => copy, next⟩ :=
      h.graft hNext hIds (fun i hi => (hBounds i hi).2) hLabels fun l _ _ =>
        ⟨fun i hi => .inr (hBounds i hi).1, fun x hx => .inr (hFresh x hx)⟩
    refine Outcome.of_foldlM (P := fun p : Draft × Nat => p.1.Sound) ?_ copy.calls (_, 1) (d', n)
      hStart hRest
    intro p nested p' hp hStep
    obtain ⟨⟨w, m⟩, hNested, hStep⟩ := Outcome.bind_eq_ok.mp hStep
    cases hStep
    exact ih _ p.1 w nested m hp hNested

theorem sound_expandAll {r : Registry} {d d' : Draft} {n : Nat} (h : d.Sound)
    (hExpand : expandAll r d = .ok (d', n)) : d'.Sound := by
  refine Outcome.of_foldlM (P := fun p : Draft × Nat => p.1.Sound) ?_ _ (d, 0) (d', n) h hExpand
  rintro ⟨w, count⟩ call ⟨w', count'⟩ hw hStep
  obtain ⟨⟨w'', m⟩, hCall, hStep⟩ := Outcome.bind_eq_ok.mp hStep
  cases hStep
  exact sound_expand r _ [] w w' call m hw hCall

end Restructure

/-- **One command**: what a command makes of a sound program has different labels. -/
theorem Command.labels_of_perform {registry : Registry} {k : Nat} {t t' : Stmt} {c : Command}
    {report : Report} (h : (Restructure.Draft.of t).Sound)
    (hPerform : c.perform registry k t = .ok (t', report)) : t'.labels.Nodup := by
  cases c with
  | reorder order =>
    obtain ⟨u, hReorder, hEq⟩ := Outcome.map_eq_ok.mp hPerform
    cases hEq
    exact Restructure.labels_reorder h hReorder
  | split l factor nparts =>
    obtain ⟨⟨u, a, b⟩, hSplit, hEq⟩ := Outcome.map_eq_ok.mp hPerform
    cases hEq
    exact Restructure.labels_split h hSplit
  | parallelize l tag =>
    obtain ⟨u, hParallelize, hEq⟩ := Outcome.map_eq_ok.mp hPerform
    cases hEq
    exact Restructure.labels_parallelize h hParallelize
  | fission l after =>
    obtain ⟨⟨u, a, b⟩, hFission, hEq⟩ := Outcome.map_eq_ok.mp hPerform
    cases hEq
    exact Restructure.labels_fission h hFission
  | varReorder l order =>
    obtain ⟨u, hReorder, hEq⟩ := Outcome.map_eq_ok.mp hPerform
    cases hEq
    exact Restructure.labels_varReorder h hReorder
  | inline =>
    obtain ⟨⟨d, n⟩, hExpand, hEq⟩ := Outcome.map_eq_ok.mp hPerform
    cases hEq
    exact (Restructure.sound_expandAll h hExpand).labels

/-! ## Lowering -/

namespace Lower

open Restructure (Draft)
open Stmt (LabelledLoop)

theorem labels_fillNest (next : Nat) (axes : List (String × Expr)) (b : String) (is : List Expr)
    (v : Expr) : (fillNest next axes b is v).1.labels = [] := by
  unfold fillNest
  generalize hStore : Stmt.store ⟨next, none⟩ b is v = store
  have hNone : store.labels = [] := by
    rw [← hStore]
    simp
  induction axes with
  | nil => exact hNone
  | cons axis rest ih =>
    rw [loopsAround]
    simpa using ih

/-- A loop with a workspace has the labels of the loop. -/
theorem Job.labels_stmt (j : Job) (n : JobNames) (space : MemSpace) (next : Nat) :
    (j.stmt n space next).1.labels = j.loop.stmt.labels := by
  have hMoved : (j.moved n).labels = j.loop.body.labels :=
    Stmt.labels_of_sites (Stmt.sites_bottomUp
      (fun u => by unfold redirectStore; split; split; split; all_goals rfl)
      (children_redirectStore _ _ _ _) j.loop.body)
  rw [stmt_eq]
  simp [filling, combining, fill, fold, labels_fillNest, hMoved, LabelledLoop.stmt]

/-- One workspace more. -/
theorem sound_withWorkspace {s : State Draft} {j : Job} (h : s.piece.Sound)
    (hLoop : j.loop.stmt ∈ s.piece.tree.nodes) (k : Nat) (space : MemSpace) :
    (s.withWorkspace j k space).piece.Sound := by
  have hOld : ∀ i ∈ j.loop.stmt.ids, i < s.piece.next :=
    fun i hi => h.old i (Stmt.ids_subset hLoop hi)
  obtain ⟨hNodup, hBounds⟩ := Job.nodup_ids_stmt (Stmt.nodup_ids_of_mem h.ids hLoop) hOld
    (j.names k s.supply).1 space
  obtain ⟨hNext, hNew⟩ := j.ids_stmt (j.names k s.supply).1 space s.piece.next
  have hLabels := j.labels_stmt (j.names k s.supply).1 space s.piece.next
  refine h.graft hNext hNodup hBounds ?_ fun l hl hId => ?_
  · rw [hLabels]
    exact h.labels.sublist (Stmt.labels_sublist hLoop)
  · obtain rfl := List.inj_on_of_nodup_map h.ids hl hLoop hId
    exact ⟨hNew, fun x hx => .inl (hLabels ▸ hx)⟩

theorem sound_moveReductions (space : MemSpace) (id : Nat) :
    ∀ (reductions : List (String × ReduceOp)) (seen : List String) (k : Nat) (s s' : State Draft),
      s.piece.Sound → moveReductions space id seen k s reductions = .ok s' → s'.piece.Sound := by
  intro reductions
  induction reductions with
  | nil =>
    intro seen k s s' h hMove
    cases hMove
    exact h
  | cons r reductions ih =>
    intro seen k s s' h hMove
    obtain ⟨b, op⟩ := r
    rw [moveReductions] at hMove
    split at hMove
    · exact ih seen k s s' h hMove
    · cases hFound : loopNumbered? s.piece id with
      | none =>
        rw [hFound] at hMove
        cases hMove
        exact h
      | some l =>
        rw [hFound] at hMove
        obtain ⟨j, hJob, hRest⟩ := Outcome.bind_eq_ok.mp hMove
        obtain rfl := Job.loop_of hJob
        obtain ⟨hMem, rfl⟩ := Stmt.mem_of_find? (loopNumbered?_eq_some hFound)
        exact ih _ _ (s.withWorkspace j k space) s' (sound_withWorkspace h hMem k space) hRest

theorem sound_lowerLoop (target : Target) (move : Bool) (s s' : State Draft) (id : Nat)
    (h : s.piece.Sound) (hLower : lowerLoop target move s id = .ok s') : s'.piece.Sound := by
  unfold lowerLoop at hLower
  split at hLower
  · cases hLower
    exact h
  · split at hLower
    · cases hLower
    · split at hLower
      · exact sound_moveReductions target.space id _ [] 0 s s' h hLower
      · cases hLower
        exact h

/-- **Workspaces** leave the labels of a program different. -/
theorem sound_lowerReductions {target : Target} {move : Bool} {d d' : Draft} {n : Nat} (h : d.Sound)
    (hLower : lowerReductions target move d = .ok (d', n)) : d'.Sound := by
  obtain ⟨s, hFold, hLower⟩ := Outcome.bind_eq_ok.mp hLower
  cases hLower
  exact Outcome.of_foldlM (P := fun s : State Draft => s.piece.Sound)
    (fun s id s' hs => sound_lowerLoop target move s s' id hs) _ _ s h hFold

end Lower

end LoopNest

import LoopNest.Proofs.CommittedPrograms
import LoopNest.Proofs.ExpandedCalls
import LoopNest.Proofs.KeptBindings
import LoopNest.Proofs.SplitPlaces

/-! # Labels that are kept

  Labels are the names by which a schedule refers to statements. So a command should leave them where
  they are, except that a loop that is taken apart hands its label over to the two loops that come out
  of it. That is not quite what happens.

  * **Marks**: the marks of a program are its labels with the kinds of the statements that they name
    (`Stmt.marks`). A command exchanges some marks for others (`Stmt.Exchanges`).
  * **Chains**: what lies between two loops of a chain is unwrapped when the chain is made perfect, and
    its labels are gone (`Restructure.Sinks.labelledNodes`). The same happens to the block that a loop
    has as its body when the loop is distributed.
  * **Calls**: an expanded call gives up its label, and a later expansion may draw it for another
    statement. Labels that are drawn have a dot (`Restructure.dot_of_mem_privateCopy`).
  * **Commands**: where none of this happens (`Command.Spares`), every command keeps the labels and
    what they name (`Schedule.labels_kept`). What is unwrapped does lose its label
    (`Schedule.labels_lost`). -/

namespace LoopNest

namespace Stmt

/-! ## Marks -/

/-- The label of a statement with the kind of the statement. -/
def mark? (t : Stmt) : Option (String × String) := t.label?.map (·, t.kindName)

/-- The labels in the tree, each with the kind of the statement that it names. -/
def marks (t : Stmt) : List (String × String) := t.nodes.filterMap mark?

/-- The statements that have a label. -/
def labelledNodes (t : Stmt) : List Stmt := t.nodes.filter fun u => u.label?.isSome

theorem mark?_eq_some {t : Stmt} {m : String × String} :
    t.mark? = some m ↔ t.label? = some m.1 ∧ t.kindName = m.2 := by
  obtain ⟨l, k⟩ := m
  simp [mark?, Option.map_eq_some_iff]

theorem mem_marks {t : Stmt} {m : String × String} :
    m ∈ t.marks ↔ ∃ u ∈ t.nodes, u.label? = some m.1 ∧ u.kindName = m.2 := by
  simp only [marks, List.mem_filterMap, mark?_eq_some]

theorem marks_eq_append (t : Stmt) : t.marks = t.mark?.toList ++ t.children.flatMap marks :=
  filterMap_nodes mark? t

theorem marks_eq_labelledNodes (t : Stmt) : t.marks = t.labelledNodes.filterMap mark? := by
  rw [marks, labelledNodes, List.filterMap_filter]
  refine List.filterMap_congr fun u _ => ?_
  cases h : u.label? <;> simp [mark?, h]

theorem labels_eq_marks (t : Stmt) : t.labels = t.marks.map (·.1) := by
  rw [labels, marks, List.map_filterMap]
  refine List.filterMap_congr fun u _ => ?_
  simp [mark?, Function.comp_def]

theorem mem_labels_of_mem_marks {t : Stmt} {m : String × String} (h : m ∈ t.marks) :
    m.1 ∈ t.labels := labels_eq_marks t ▸ List.mem_map_of_mem h

theorem exists_mark {t : Stmt} {l : String} (h : l ∈ t.labels) : ∃ k, (l, k) ∈ t.marks := by
  rw [labels_eq_marks] at h
  obtain ⟨⟨l, k⟩, hMark, rfl⟩ := List.mem_map.mp h
  exact ⟨k, hMark⟩

/-- Where labels are different, a label names statements of one kind. -/
theorem eq_of_mem_marks {t : Stmt} (h : t.labels.Nodup) {m m' : String × String} (hm : m ∈ t.marks)
    (hm' : m' ∈ t.marks) (hLabel : m'.1 = m.1) : m' = m :=
  List.inj_on_of_nodup_map (labels_eq_marks t ▸ h) hm' hm hLabel

theorem kindName_eq_call {t : Stmt} : t.kindName = "Call" ↔ t.isCall = true := by
  cases t <;> simp [kindName, isCall]

/-- A mark tells what is found under a label. -/
theorem mem_marks_iff_labelled? {t : Stmt} (h : t.labels.Nodup) {l k : String} :
    (l, k) ∈ t.marks ↔ ∃ u, t.labelled? l = some u ∧ u.kindName = k := by
  rw [mem_marks]
  constructor
  · rintro ⟨u, hu, hLabel, hKind⟩
    exact ⟨u, labelled?_of_mem h hu hLabel, hKind⟩
  · rintro ⟨u, hu, hKind⟩
    exact ⟨u, List.mem_of_find?_eq_some hu, by simpa using List.find?_some hu, hKind⟩

section marks

variable (s : Site)

theorem marks_decl (n : String) (b : Buffer) (body : Stmt) : (Stmt.decl s n b body).marks
    = (s.label.map (·, "VarDef")).toList ++ body.marks := by
  simp [marks_eq_append (.decl ..), children, mark?, label?, site, kindName]

theorem marks_loop (head : LoopHead) (body : Stmt) : (Stmt.loop s head body).marks
    = (s.label.map (·, "For")).toList ++ body.marks := by
  simp [marks_eq_append (.loop ..), children, mark?, label?, site, kindName]

theorem marks_guard (e : Expr) (body : Stmt) : (Stmt.guard s e body).marks
    = (s.label.map (·, "If")).toList ++ body.marks := by
  simp [marks_eq_append (.guard ..), children, mark?, label?, site, kindName]

theorem marks_block (ts : List Stmt) : (Stmt.block s ts).marks
    = (s.label.map (·, "Block")).toList ++ ts.flatMap marks := marks_eq_append _

theorem labelledNodes_loop (head : LoopHead) (body : Stmt) : (Stmt.loop s head body).labelledNodes
    = [Stmt.loop s head body].filter (fun u => u.label?.isSome) ++ body.labelledNodes := by
  rw [labelledNodes, nodes_loop, ← List.singleton_append, List.filter_append]
  rfl

theorem marks_sequence (ts : List Stmt) : (sequence ts).marks = ts.flatMap marks := by
  unfold sequence
  split
  · simp
  · rw [marks_block]
    rfl

end marks

/-! ### Walks that keep the marks -/

/-- A walk through a program keeps the marks when it keeps the label and the kind of every statement. -/
theorem marks_of_walk {F : Stmt → Stmt} (hMark : ∀ u, (F u).mark? = u.mark?)
    (hChildren : ∀ u, (F u).children = u.children ∨ (F u).children = u.children.map F) :
    ∀ t : Stmt, (F t).marks = t.marks := by
  refine children_ind fun t ih => ?_
  rw [marks_eq_append, marks_eq_append t, hMark]
  rcases hChildren t with h | h
  · rw [h]
  · rw [h, List.flatMap_map]
    exact congrArg _ (List.flatMap_congr ih)

theorem marks_substitute (x : String) (w : Expr) (t : Stmt) : (t.substitute x w).marks = t.marks := by
  refine marks_of_walk (fun u => by cases u <;> rfl) (fun u => ?_) t
  cases u with
  | loop s head body =>
    by_cases hx : head.iter = x
    · exact .inl (by simp [substitute, children, hx])
    · exact .inr (by simp [substitute, children, hx])
  | block s ts => exact .inr (by rw [substitute, substituteAll_eq_map]; rfl)
  | _ => exact .inr rfl

theorem marks_permuteAccesses (n : String) (order : List Nat) (t : Stmt) :
    (t.permuteAccesses n order).marks = t.marks := by
  refine marks_of_walk (fun u => by cases u <;> rfl) (fun u => ?_) t
  cases u with
  | decl s n' b body =>
    by_cases hn : n' = n
    · exact .inl (by simp [permuteAccesses, children, hn])
    · exact .inr (by simp [permuteAccesses, children, hn])
  | block s ts => exact .inr (permuteAccessesAll_eq_map n order ts)
  | _ => exact .inr rfl

theorem marks_unnumbered (t : Stmt) : t.unnumbered.marks = t.marks := by
  refine marks_of_walk (fun u => by cases u <;> rfl) (fun u => .inr ?_) t
  cases u with
  | block s ts => exact congrArg children (unnumbered_block s ts)
  | _ => rfl

/-- **Numbering keeps the marks.** -/
theorem marks_number (t : Stmt) : t.number.marks = t.marks := by
  rw [← marks_unnumbered, unnumbered_number, marks_unnumbered]

/-! ## Exchanges -/

/-- Some marks of a program are exchanged for others, and the rest stays. -/
def Exchanges (lost gained : List (String × String)) (t t' : Stmt) : Prop :=
  ∃ rest, t.marks.Perm (lost ++ rest) ∧ t'.marks.Perm (gained ++ rest)

namespace Exchanges

variable {lost gained : List (String × String)} {t t' : Stmt} {m : String × String}

theorem of_marks_eq (h : t'.marks = t.marks) : Exchanges [] [] t t' := ⟨t.marks, .refl _, .of_eq h⟩

theorem number (h : Exchanges lost gained t t') : Exchanges lost gained t t'.number := by
  obtain ⟨rest, hOld, hNew⟩ := h
  exact ⟨rest, hOld, marks_number t' ▸ hNew⟩

/-- What is exchanged in a statement is exchanged in the program around it. -/
theorem update {u v : Stmt} (hIds : t.ids.Nodup) (hu : u ∈ t.nodes) (h : Exchanges lost gained u v) :
    Exchanges lost gained t (t.update u.id fun _ => v) := by
  obtain ⟨rest, hOld, hNew⟩ := h
  have hOutline : ∀ w w', Outline w w' → mark? w' = mark? w := by
    rintro w w' (_ | _ | _ | _ | _ | _) <;> rfl
  obtain ⟨before, after, hBefore, hAfter⟩ :=
    (replaces_update t hIds hu).exists_around (v := v) hOutline
  have hAround : ∀ {xs : List (String × String)} {w : Stmt}, w.marks.Perm (xs ++ rest) →
      (before ++ w.marks ++ after).Perm (xs ++ (before ++ rest ++ after)) := by
    intro xs w hw
    have hFront : (before ++ w.marks).Perm (xs ++ (before ++ rest)) := by
      refine (hw.append_left before).trans ?_
      rw [← List.append_assoc, ← List.append_assoc]
      exact List.perm_append_comm.append_right rest
    rw [← List.append_assoc xs]
    exact hFront.append_right after
  exact ⟨before ++ rest ++ after, (List.Perm.of_eq hBefore).trans (hAround hOld),
    (List.Perm.of_eq hAfter).trans (hAround hNew)⟩

/-- A mark that is not lost is kept. -/
theorem mem_marks (h : Exchanges lost gained t t') (hm : m ∈ t.marks) (hLost : m ∉ lost) :
    m ∈ t'.marks := by
  obtain ⟨rest, hOld, hNew⟩ := h
  exact hNew.symm.subset (List.mem_append_right _
    ((List.mem_append.mp (hOld.subset hm)).resolve_left hLost))

/-- A mark of the new program is gained, or it was there. -/
theorem mem_or_mem (h : Exchanges lost gained t t') (hm : m ∈ t'.marks) :
    m ∈ gained ∨ m ∈ t.marks := by
  obtain ⟨rest, hOld, hNew⟩ := h
  exact (List.mem_append.mp (hNew.subset hm)).imp_right
    fun hRest => hOld.symm.subset (List.mem_append_right _ hRest)

/-- A mark of the new program is gained, or it was there and has not been lost. -/
theorem of_mem_marks (h : Exchanges lost gained t t') (hLabels : t.labels.Nodup)
    (hm : m ∈ t'.marks) : m ∈ gained ∨ m ∈ t.marks ∧ m.1 ∉ lost.map (·.1) := by
  obtain ⟨rest, hOld, hNew⟩ := h
  rcases List.mem_append.mp (hNew.subset hm) with hGained | hRest
  · exact .inl hGained
  · refine .inr ⟨hOld.symm.subset (List.mem_append_right _ hRest), fun hLost => ?_⟩
    rw [labels_eq_marks, (hOld.map _).nodup_iff, List.map_append, List.nodup_append] at hLabels
    exact hLabels.2.2 _ hLost _ (List.mem_map_of_mem hRest) rfl

/-- The labels after an exchange. -/
theorem mem_labels (h : Exchanges lost gained t t') (hLabels : t.labels.Nodup) {l : String} :
    l ∈ t'.labels ↔ (l ∈ t.labels ∧ l ∉ lost.map (·.1)) ∨ l ∈ gained.map (·.1) := by
  constructor
  · intro hl
    obtain ⟨k, hMark⟩ := exists_mark hl
    rcases h.of_mem_marks hLabels hMark with hGained | ⟨hOld, hLost⟩
    · exact .inr (List.mem_map_of_mem (f := (·.1)) hGained)
    · exact .inl ⟨mem_labels_of_mem_marks hOld, hLost⟩
  · rintro (⟨hl, hLost⟩ | hGained)
    · obtain ⟨k, hMark⟩ := exists_mark hl
      exact mem_labels_of_mem_marks
        (h.mem_marks hMark fun hMem => hLost (List.mem_map_of_mem (f := (·.1)) hMem))
    · obtain ⟨m, hm, rfl⟩ := List.mem_map.mp hGained
      obtain ⟨rest, _, hNew⟩ := h
      exact mem_labels_of_mem_marks (hNew.symm.subset (List.mem_append_left _ hm))

end Exchanges

end Stmt

/-! ## Commands -/

namespace Restructure

open Stmt (LabelledLoop Exchanges labelledNodes)

variable {t t' : Stmt} {k : Nat}

/-! ### Chains of loops -/

/-- A statement around an inner one is what has been gathered on the way and what has been passed:
    blocks and conditions around the inner one. -/
theorem Framed.nodes {inner t : Stmt} {b : Between} (h : Framed inner t b) :
    ∃ passed : List Stmt, (∀ w ∈ passed, inner ∈ w.nodes ∧ w.isLoop = false)
      ∧ t.nodes.Perm (passed ++ (b.before.flatMap Stmt.nodes
        ++ (inner.nodes ++ b.after.flatMap Stmt.nodes))) := by
  induction h with
  | here => exact ⟨[], by simp, by simp⟩
  | @guard body b s e h ih =>
    obtain ⟨passed, hPassed, hPerm⟩ := ih
    refine ⟨.guard s e body :: passed, List.forall_mem_cons.mpr ⟨⟨?_, rfl⟩, hPassed⟩, hPerm.cons _⟩
    exact List.mem_cons_of_mem _ h.holds
  | @block t b s first last h ih =>
    obtain ⟨passed, hPassed, hPerm⟩ := ih
    refine ⟨.block s (first ++ t :: last) :: passed,
      List.forall_mem_cons.mpr ⟨⟨?_, rfl⟩, hPassed⟩, ?_⟩
    · rw [Stmt.nodes_block]
      exact List.mem_cons_of_mem _ (List.mem_flatMap.mpr ⟨t, by simp, h.holds⟩)
    · rw [Stmt.nodes_block, List.cons_append]
      refine List.Perm.cons _ ?_
      rw [List.flatMap_append, List.flatMap_cons, List.flatMap_append, List.flatMap_append]
      -- what stands in front of the way goes behind what has been passed
      have hInside : (t.nodes ++ last.flatMap Stmt.nodes).Perm (passed ++ (b.before.flatMap Stmt.nodes
          ++ (inner.nodes ++ (b.after.flatMap Stmt.nodes ++ last.flatMap Stmt.nodes)))) := by
        simpa only [List.append_assoc] using hPerm.append_right (last.flatMap Stmt.nodes)
      refine (hInside.append_left _).trans ?_
      simp only [← List.append_assoc]
      exact ((((List.perm_append_comm).append_right _).append_right _).append_right _).append_right _

theorem Framed.labelledNodes {inner t : Stmt} {b : Between} (h : Framed inner t b) :
    ∃ passed : List Stmt, (∀ w ∈ passed, inner ∈ w.nodes ∧ w.isLoop = false)
      ∧ t.labelledNodes.Perm (passed ++ (b.before.flatMap Stmt.labelledNodes
        ++ (inner.labelledNodes ++ b.after.flatMap Stmt.labelledNodes))) := by
  obtain ⟨passed, hPassed, hPerm⟩ := h.nodes
  have hLabelled := hPerm.filter fun u => u.label?.isSome
  rw [List.filter_append, List.filter_append, List.filter_append, List.filter_flatMap,
    List.filter_flatMap] at hLabelled
  exact ⟨_, fun w hw => hPassed w (List.mem_of_mem_filter hw), hLabelled⟩

theorem labelledNodes_sequenceAt (next : Nat) (ts : List Stmt) :
    (sequenceAt next ts).1.labelledNodes = ts.flatMap labelledNodes := by
  unfold sequenceAt
  split
  · simp
  · rw [labelledNodes, Stmt.nodes_block, List.filter_cons_of_neg (by simp [Stmt.label?, Stmt.site]),
      List.filter_flatMap]
    rfl

theorem labelledNodes_guardedAt (next : Nat) (e : Expr) (ts : List Stmt) :
    (guardedAt next e ts).1.flatMap labelledNodes = ts.flatMap labelledNodes := by
  unfold guardedAt
  split
  · rfl
  · rw [List.flatMap_singleton, ← labelledNodes_sequenceAt next]
    simp [labelledNodes, Stmt.label?, Stmt.site]

/-- The new inner body has no other labelled statements than what it is made of. -/
theorem labelledNodes_innerBody (b : Between) (inner : LabelledLoop) (next : Nat) :
    (b.innerBody inner next).1.labelledNodes
      = b.before.flatMap labelledNodes
        ++ (inner.body.labelledNodes ++ b.after.flatMap labelledNodes) := by
  obtain ⟨guarded, i, j, _, _, hEq, _, hGuarded⟩ := innerBody_eq b inner next
  have hBody : guarded.labelledNodes = inner.body.labelledNodes := by
    rcases hGuarded with ⟨_, rfl⟩ | ⟨outer, e, id, _, _, rfl⟩
    · rfl
    · simp [labelledNodes, Stmt.label?, Stmt.site]
  rw [hEq, labelledNodes_sequenceAt, List.flatMap_append, List.flatMap_append,
    List.flatMap_singleton, labelledNodes_guardedAt, labelledNodes_guardedAt, hBody,
    List.append_assoc]

/-- A loop is not in its own body. -/
theorem stmt_notMem_body (l : LabelledLoop) : l.stmt ∉ l.body.nodes := by
  intro hMem
  have hSize := (Stmt.nodes_sublist l.body hMem).length_le
  simp [LabelledLoop.stmt] at hSize

/-- Statements that move into a loop hold no statement around a loop. -/
theorem Between.notMem_labelledNodes {b : Between} {head : LoopHead} (hCheck : b.check head = .ok ())
    {l : LabelledLoop} {w : Stmt} (hBelow : l.stmt ∈ w.nodes) {ts : List Stmt}
    (hts : ts ⊆ b.before ++ b.after) : w ∉ ts.flatMap Stmt.labelledNodes := by
  intro hIn
  obtain ⟨v, hv, hIn⟩ := List.mem_flatMap.mp hIn
  rcases Between.of_check hCheck with ⟨hBefore, hAfter⟩ | ⟨hMovable, _⟩
  · have hNone := hts hv
    rw [hBefore, hAfter] at hNone
    cases hNone
  · have hNone := (of_movable (hMovable v (hts hv))).2 l.stmt
      (Stmt.mem_nodes_trans hBelow (List.mem_of_mem_filter hIn))
    cases hNone.1

/-- A labelled statement around a loop, other than the inner loop, has been passed or is in the body of
    the inner loop. -/
theorem Between.passed_or_inside {b : Between} {inner : LabelledLoop} {passed nodes : List Stmt}
    (hCheck : b.check inner.head = .ok ())
    (hNodes : nodes.Perm (passed ++ (b.before.flatMap Stmt.labelledNodes
      ++ (inner.stmt.labelledNodes ++ b.after.flatMap Stmt.labelledNodes))))
    {l : LabelledLoop} {w : Stmt} (hw : w ∈ nodes) (hLoop : w.isLoop = false)
    (hBelow : l.stmt ∈ w.nodes) : w ∈ passed ∨ w ∈ inner.body.labelledNodes := by
  rcases List.mem_append.mp (hNodes.subset hw) with hPath | hRest
  · exact .inl hPath
  · rcases List.mem_append.mp hRest with hBefore | hRest
    · exact absurd hBefore (notMem_labelledNodes hCheck hBelow (List.subset_append_left _ _))
    rcases List.mem_append.mp hRest with hInside | hAfter
    · rw [LabelledLoop.stmt, Stmt.labelledNodes_loop] at hInside
      rcases List.mem_append.mp hInside with hOwn | hBody
      · rw [List.mem_singleton.mp (List.mem_of_mem_filter hOwn)] at hLoop
        cases hLoop
      · exact .inr hBody
    · exact absurd hAfter (notMem_labelledNodes hCheck hBelow (List.subset_append_right _ _))

/-- **What a chain loses**: of the labelled statements below the outermost loop, those around another
    loop of the chain are unwrapped, unless they are loops themselves. The others are in the inner body
    of the perfect nest. -/
theorem Sinks.labelledNodes {first : Nat} {outer : LabelledLoop} {rest : List LabelledLoop}
    {nest : PerfectNest} (h : Sinks first outer rest nest) :
    ∃ unwrapped : List Stmt,
      outer.body.labelledNodes.Perm (unwrapped
        ++ (rest.map (·.stmt)).filter (fun u => u.label?.isSome) ++ nest.body.labelledNodes)
      ∧ ∀ w ∈ outer.body.labelledNodes,
        w ∈ unwrapped ↔ w.isLoop = false ∧ ∃ l ∈ rest, l.stmt ∈ w.nodes := by
  induction h with
  | last l => exact ⟨[], by simp, by simp⟩
  | @next outer inner rest b nest n framed check _ _ _ ih =>
    obtain ⟨passed, hPassed, hOuter⟩ := framed.labelledNodes
    obtain ⟨unwrapped, hInner, hUnwrapped⟩ := ih
    change (b.innerBody inner n).1.labelledNodes.Perm _ at hInner
    refine ⟨passed ++ unwrapped, ?_, fun w hw => ?_⟩
    · -- the inner loop goes in front of what is beside it
      rw [LabelledLoop.stmt, Stmt.labelledNodes_loop] at hOuter
      rw [labelledNodes_innerBody, List.append_assoc unwrapped] at hInner
      rw [List.map_cons, ← List.singleton_append (l := rest.map _), List.filter_append]
      change List.Perm _ (passed ++ unwrapped ++ (List.filter _ [Stmt.loop inner.site inner.head
        inner.body] ++ _) ++ _)
      generalize List.filter (fun u => u.label?.isSome) [Stmt.loop inner.site inner.head inner.body]
        = own at hOuter ⊢
      refine hOuter.trans ?_
      simp only [List.append_assoc]
      refine List.Perm.append_left passed ?_
      refine (List.perm_append_comm_assoc _ own _).trans ?_
      exact (hInner.append_left own).trans (List.perm_append_comm_assoc own unwrapped _)
    · rw [List.mem_append]
      constructor
      · rintro (hPath | hLater)
        · obtain ⟨hMem, hLoop⟩ := hPassed w hPath
          exact ⟨hLoop, inner, List.mem_cons_self, hMem⟩
        · have hMem := hInner.symm.subset (List.mem_append_left _ (List.mem_append_left _ hLater))
          obtain ⟨hLoop, l, hl, hBelow⟩ := (hUnwrapped w hMem).mp hLater
          exact ⟨hLoop, l, List.mem_cons_of_mem inner hl, hBelow⟩
      · rintro ⟨hLoop, l, hl, hBelow⟩
        refine (Between.passed_or_inside check hOuter hw hLoop hBelow).imp_right fun hBody => ?_
        have hInto : w ∈ (b.innerBody inner n).1.labelledNodes := by
          rw [labelledNodes_innerBody]
          exact List.mem_append_right _ (List.mem_append_left _ hBody)
        refine (hUnwrapped w hInto).mpr ⟨hLoop, l, (List.mem_cons.mp hl).resolve_left ?_, hBelow⟩
        rintro rfl
        exact stmt_notMem_body l (Stmt.mem_nodes_trans hBelow (List.mem_of_mem_filter hBody))

/-- The marks of a nest are those of its loops and those of its body. -/
theorem marks_nestOf (loops : List (Site × LoopHead)) (body : Stmt) : (nestOf loops body).marks
    = loops.filterMap (fun p => p.1.label.map (·, "For")) ++ body.marks := by
  induction loops with
  | nil => rfl
  | cons p loops ih =>
    show (Stmt.loop p.1 p.2 (nestOf loops body)).marks = _
    rw [Stmt.marks_loop, ih, List.filterMap_cons]
    cases p.1.label <;> rfl

/-- The marks of a chain are those of what is unwrapped and those of the perfect nest. -/
theorem Sinks.marks {first : Nat} {outer : LabelledLoop} {rest : List LabelledLoop}
    {nest : PerfectNest} {unwrapped : List Stmt} (h : Sinks first outer rest nest)
    (hPerm : outer.body.labelledNodes.Perm (unwrapped
      ++ (rest.map (·.stmt)).filter (fun u => u.label?.isSome) ++ nest.body.labelledNodes)) :
    outer.stmt.marks.Perm (unwrapped.filterMap Stmt.mark?
      ++ (nestOf nest.loops nest.body).marks) := by
  have hRest : ((rest.map (·.stmt)).filter fun u => u.label?.isSome).filterMap Stmt.mark?
      = rest.filterMap fun l => l.site.label.map (·, "For") := by
    rw [List.filterMap_filter, List.filterMap_map]
    refine List.filterMap_congr fun l _ => ?_
    show (if l.site.label.isSome = true then l.site.label.map (·, "For") else none) = _
    cases l.site.label <;> rfl
  have hOwn : [outer].filterMap ((fun p : Site × LoopHead => p.1.label.map (·, "For")) ∘
      fun l => (l.site, l.head)) = (outer.site.label.map (·, "For")).toList := by
    cases h : outer.site.label <;> simp [h]
  have hBody := hPerm.filterMap Stmt.mark?
  rw [← Stmt.marks_eq_labelledNodes, List.filterMap_append, List.filterMap_append, hRest,
    ← Stmt.marks_eq_labelledNodes, List.append_assoc] at hBody
  rw [marks_nestOf, h.loops, List.filterMap_map, ← List.singleton_append (l := rest),
    List.filterMap_append, LabelledLoop.stmt, Stmt.marks_loop, hOwn, List.append_assoc]
  exact (hBody.append_left _).trans (List.perm_append_comm_assoc _ _ _)

/-- All loops that a request names are found. -/
theorem mem_of_namedLoops : ∀ {labels : List String} {found named : List LabelledLoop},
    namedLoops t found labels = .ok named → found ⊆ named
      ∧ ∀ label ∈ labels, ∀ l, t.loopAt label = .ok l → l ∈ named := by
  intro labels
  induction labels with
  | nil =>
    intro found named h
    cases h
    exact ⟨fun l hl => hl, by simp⟩
  | cons label labels ih =>
    intro found named h
    obtain ⟨l, hAt, h⟩ := Outcome.bind_eq_ok.mp h
    split at h
    · cases h
    · obtain ⟨hFound, hRest⟩ := ih h
      refine ⟨fun l' hl' => hFound (List.mem_append_left _ hl'),
        List.forall_mem_cons.mpr ⟨fun l' hAt' => ?_, hRest⟩⟩
      obtain rfl : l = l' := Except.ok.inj (hAt.symm.trans hAt')
      exact hFound (by simp)

/-- A statement that lies inside one of the loops which a request names and around another one,
    without being a loop itself. -/
def Passes (t : Stmt) (order : List String) (u : Stmt) : Prop :=
  u.isLoop = false ∧ (∃ a ∈ order, ∃ l, t.loopAt a = .ok l ∧ u ∈ l.body.nodes)
    ∧ ∃ b ∈ order, ∃ l, t.loopAt b = .ok l ∧ l.stmt ∈ u.nodes

/-- **Reordering** loses the marks of what lies between the loops, and keeps all others. -/
theorem Reordered.exchanges {labels : List String} {outer : LabelledLoop} {rest : List LabelledLoop}
    {order : List Nat} {nest : PerfectNest} (h : Reordered k t t' labels outer rest order nest)
    (hIds : t.ids.Nodup) (hLess : ∀ i ∈ t.ids, i < t.size) :
    ∃ unwrapped : List Stmt, Exchanges (unwrapped.filterMap Stmt.mark?) [] t t'
      ∧ ∀ u, u ∈ unwrapped ↔ u.label?.isSome = true ∧ Passes t labels u := by
  obtain ⟨hOuter, hSinks⟩ := h.sinks hIds hLess
  obtain ⟨unwrapped, hPerm, hUnwrapped⟩ := hSinks.labelledNodes
  refine ⟨unwrapped, ?_, fun u => ⟨fun hu => ?_, ?_⟩⟩
  · -- the loops of the nest change places
    have hPlaces := h.places
    rw [← List.length_map (fun l : LabelledLoop => (l.site, l.head)), ← hSinks.loops] at hPlaces
    have hPermuted : (nestOf (order.filterMap (nest.loops[·]?)) nest.body).marks.Perm
        (nestOf nest.loops nest.body).marks := by
      rw [marks_nestOf, marks_nestOf]
      exact ((permuted_perm hPlaces).filterMap _).append_right _
    rw [h.result]
    exact Exchanges.update hIds hOuter ⟨_, hSinks.marks hPerm, hPermuted⟩
  · have hMem := hPerm.symm.subset (List.mem_append_left _ (List.mem_append_left _ hu))
    obtain ⟨hLoop, l, hl, hBelow⟩ := (hUnwrapped u hMem).mp hu
    obtain ⟨a, ha, hAt⟩ := h.named outer List.mem_cons_self
    obtain ⟨b, hb, hAt'⟩ := h.named l (List.mem_cons_of_mem outer hl)
    exact ⟨(List.mem_filter.mp hMem).2, hLoop, ⟨a, ha, outer, hAt, List.mem_of_mem_filter hMem⟩,
      b, hb, l, hAt', hBelow⟩
  · rintro ⟨hLabel, hLoop, ⟨a, ha, l, hAt, hInside⟩, b, hb, l', hAt', hBelow⟩
    obtain ⟨named, hNamed, _⟩ := Outcome.bind_eq_ok.mp h.chain
    have hChain : ∀ a ∈ labels, ∀ l, t.loopAt a = .ok l → l ∈ outer :: rest := fun a ha l hAt =>
      (chain_perm h.chain hNamed).symm.subset ((mem_of_namedLoops hNamed).2 a ha l hAt)
    have hBody : u ∈ outer.body.nodes := by
      rcases List.mem_cons.mp (hChain a ha l hAt) with rfl | hl
      · exact hInside
      · exact Stmt.mem_nodes_trans (mem_nodes_stmt hInside)
          (mem_of_nested hIds rest outer h.nested h.mem_nodes l hl)
    refine (hUnwrapped u (List.mem_filter.mpr ⟨hBody, hLabel⟩)).mpr ⟨hLoop, l', ?_, hBelow⟩
    refine (List.mem_cons.mp (hChain b hb l' hAt')).resolve_left ?_
    rintro rfl
    exact stmt_notMem_body l' (Stmt.mem_nodes_trans hBelow hBody)

/-! ### Other transformations -/

theorem exchanges_parallelize {label tag : String} (hIds : t.ids.Nodup)
    (h : parallelize k t label tag = .ok t') : Exchanges [] [] t t' := by
  obtain ⟨l, hFound, rfl⟩ := parallelize_cases h
  refine Exchanges.update hIds (Stmt.mem_of_loopAt hFound) (.of_marks_eq ?_)
  rw [LabelledLoop.stmt, Stmt.marks_loop, Stmt.marks_loop]

theorem exchanges_varReorder {label : String} {order : List Nat} (hIds : t.ids.Nodup)
    (h : varReorder t label order = .ok t') : Exchanges [] [] t t' := by
  obtain ⟨site, n, b, body, hDecl, _, _, _, rfl⟩ := varReorder_cases h
  refine Exchanges.update hIds hDecl (.of_marks_eq ?_)
  rw [Stmt.marks_decl, Stmt.marks_decl, Stmt.marks_permuteAccesses]

/-! ### Loops that are taken apart -/

/-- The loop with a given label has it as its mark. -/
theorem mark_of_loopAt {label : String} {l : LabelledLoop} (h : t.loopAt label = .ok l) :
    l.stmt.marks = (label, "For") :: l.body.marks := by
  unfold Stmt.loopAt at h
  split at h
  · rename_i site head body hFound
    cases h
    have hFind := List.find?_some (p := fun u : Stmt => u.label? == some label) hFound
    have hLabel : site.label = some label := eq_of_beq hFind
    rw [LabelledLoop.stmt, Stmt.marks_loop, hLabel]
    rfl
  · cases h
  · cases h

/-- The loop that a request takes apart, and two labels that are drawn for it.

    * **found**: the loop has the label of the request;
    * **two**, **drawn**: the labels that are drawn are different and new. -/
structure TakenApart (t : Stmt) (label a b : String) (l : LabelledLoop) : Prop where
  found : t.loopAt label = .ok l
  two : [a, b].Nodup
  drawn : ∀ x ∈ [a, b], x ∉ t.labels

theorem TakenApart.mem_labels {label a b : String} {l : LabelledLoop}
    (h : TakenApart t label a b l) : label ∈ t.labels := by
  have hMark : (label, "For") ∈ l.stmt.marks := mark_of_loopAt h.found ▸ List.mem_cons_self
  exact (Stmt.labels_sublist (Stmt.mem_of_loopAt h.found)).subset
    (Stmt.mem_labels_of_mem_marks hMark)

theorem takenApart_of_fresh {label : String} {l : LabelledLoop} (x y : String)
    (hFound : t.loopAt label = .ok l) :
    TakenApart t label ((NameSupply.mk t.labels).fresh x).1
      (((NameSupply.mk t.labels).fresh x).2.fresh y).1 l := by
  obtain ⟨ha, hb, hab⟩ := draws_two t.labels x y
  exact ⟨hFound, by simpa using hab, by simpa using ⟨ha, hb⟩⟩

/-- What splitting a loop puts in its place. -/
theorem takenApart_of_split {label a b : String} {factor nparts : Option Expr}
    (h : split t label factor nparts = .ok (t', a, b)) : ∃ l r names, TakenApart t label a b l
      ∧ (a = names.outerLabel ∧ b = names.innerLabel)
      ∧ t' = t.update l.site.id fun _ => splitLoop l r names := by
  obtain ⟨l, hFound, h⟩ := Outcome.bind_eq_ok.mp h
  obtain ⟨s, _, h⟩ := Outcome.bind_eq_ok.mp h
  obtain ⟨r, _, h⟩ := Outcome.bind_eq_ok.mp h
  cases h
  exact ⟨l, r, splitNames t l.head.iter label,
    takenApart_of_fresh (label ++ ".0") (label ++ ".1") hFound, ⟨rfl, rfl⟩, rfl⟩

/-- What distributing a loop puts in its place. -/
theorem takenApart_of_fission {label after a b : String}
    (h : fission k t label after = .ok (t', a, b)) : ∃ l site first second,
      TakenApart t label a b l ∧ l.body = .block site (first ++ second)
      ∧ t' = t.update l.site.id fun _ => .block .unnumbered [
          .loop (.unnumbered (some a)) l.head (.sequence first),
          .loop (.unnumbered (some b)) l.head (.sequence second)] := by
  obtain ⟨l, hFound, h⟩ := Outcome.bind_eq_ok.mp h
  obtain ⟨⟨first, second⟩, hParts, h⟩ := Outcome.bind_eq_ok.mp h
  obtain ⟨site, hBody⟩ := block_of_fissionParts hParts
  dsimp only at h
  split at h
  · cases h
  · split at h
    · cases h
    · cases h
      exact ⟨l, site, first, second,
        takenApart_of_fresh (label ++ ".a") (label ++ ".b") hFound, hBody, rfl⟩

/-- **Splitting** exchanges the mark of the loop for those of two loops. -/
theorem exchanges_split {label a b : String} {factor nparts : Option Expr} (hIds : t.ids.Nodup)
    (h : split t label factor nparts = .ok (t', a, b)) :
    Exchanges [(label, "For")] [(a, "For"), (b, "For")] t t' := by
  obtain ⟨l, r, names, hTaken, ⟨rfl, rfl⟩, rfl⟩ := takenApart_of_split h
  refine Exchanges.update hIds (Stmt.mem_of_loopAt hTaken.found)
    ⟨l.body.marks, .of_eq (mark_of_loopAt hTaken.found), .of_eq ?_⟩
  have hBody : (newBody l r names).marks = l.body.marks := by
    have hSame := Stmt.marks_substitute l.head.iter (oldIterator l r names) l.body
    unfold newBody
    dsimp only
    split
    · exact hSame
    · rw [Stmt.marks_guard, hSame]
      rfl
  rw [splitLoop_eq, Stmt.marks_loop, newInner, Stmt.marks_loop, hBody]
  rfl

/-- **Distributing** a loop loses the mark of the block that is its body. -/
theorem exchanges_fission {label after a b : String} (hIds : t.ids.Nodup)
    (h : fission k t label after = .ok (t', a, b)) : ∃ l, t.loopAt label = .ok l ∧
      Exchanges ((label, "For") :: l.body.mark?.toList) [(a, "For"), (b, "For")] t t' := by
  obtain ⟨l, site, first, second, hTaken, hBody, rfl⟩ := takenApart_of_fission h
  refine ⟨l, hTaken.found, Exchanges.update hIds (Stmt.mem_of_loopAt hTaken.found)
    ⟨first.flatMap Stmt.marks ++ second.flatMap Stmt.marks, .of_eq ?_, ?_⟩⟩
  · rw [mark_of_loopAt hTaken.found, hBody, Stmt.marks_eq_append]
    simp [Stmt.children]
  · rw [Stmt.marks_block]
    simp only [List.flatMap_cons, List.flatMap_nil, Stmt.marks_loop, Stmt.marks_sequence,
      Site.unnumbered, Option.map_none, Option.map_some, Option.toList_none, Option.toList_some,
      List.nil_append, List.cons_append, List.append_nil]
    exact .cons _ List.perm_middle

/-! ### Expanding calls -/

/-- A name that is drawn for one with a dot has a dot. -/
theorem dot_of_mem_choose {supply : NameSupply} {base : String} (h : '.' ∈ base.toList) :
    '.' ∈ (supply.choose base).toList := by
  have hNumbered : ∀ n, '.' ∈ (NameSupply.numbered base n).toList := by
    intro n
    simp [NameSupply.numbered, h]
  have hFirst : ∀ fuel n, '.' ∈ (supply.firstFree base fuel n).toList := by
    intro fuel
    induction fuel with
    | zero => exact hNumbered
    | succ fuel ih =>
      intro n
      rw [NameSupply.firstFree]
      split
      · exact ih (n + 1)
      · exact hNumbered n
  unfold NameSupply.choose
  split
  · exact hFirst _ _
  · exact h

theorem dot_of_mem_freshLabels {front : String} : ∀ {ts : List Stmt} {supply : NameSupply},
    ∀ p ∈ freshLabels front supply ts, '.' ∈ p.2.toList := by
  intro ts
  induction ts with
  | nil => exact fun _ h => nomatch h
  | cons t ts ih =>
    intro supply p hp
    rw [freshLabels] at hp
    split at hp
    · exact ih p hp
    · rcases List.mem_cons.mp hp with rfl | hp
      · exact dot_of_mem_choose (by simp)
      · exact ih p hp

/-- A label is listed for every labelled statement. -/
theorem isSome_lookup_freshLabels {front : String} : ∀ {ts : List Stmt} {supply : NameSupply},
    ∀ u ∈ ts, u.label?.isSome = true → ((freshLabels front supply ts).lookup u.id).isSome = true := by
  intro ts
  induction ts with
  | nil => exact fun _ h => nomatch h
  | cons t ts ih =>
    intro supply u hu hLabel
    rw [freshLabels]
    split
    · rename_i hNone
      rcases List.mem_cons.mp hu with rfl | hu
      · rw [hNone] at hLabel
        cases hLabel
      · exact ih u hu hLabel
    · rw [List.lookup_cons]
      split
      · rfl
      · rename_i hNe
        rcases List.mem_cons.mp hu with rfl | hu
        · simp at hNe
        · exact ih u hu hLabel

/-- The labels of a private copy have a dot. -/
theorem dot_of_mem_privateCopy {host : Stmt} {next : Nat} {f : Function} {b : Binding}
    {front l : String} (h : l ∈ (privateCopy host next f b front).1.labels) : '.' ∈ l.toList := by
  unfold privateCopy at h
  dsimp only at h
  rw [Stmt.labels_eq_sites, Stmt.sites_relabel, List.filterMap_map] at h
  obtain ⟨s, hs, hLabel⟩ := List.mem_filterMap.mp h
  obtain ⟨u, hu, rfl⟩ := List.mem_map.mp hs
  rw [Function.comp_apply, Stmt.relabelled] at hLabel
  split at hLabel
  · rename_i hFound
    cases hLabel
    obtain ⟨before, after, hList, _⟩ := List.lookup_eq_some_iff.mp hFound
    exact dot_of_mem_freshLabels _ (hList ▸ List.mem_append_right before List.mem_cons_self)
  · rename_i hNone
    have hSome : ((freshLabels front (NameSupply.mk host.labels) _).lookup u.id).isSome = true :=
      isSome_lookup_freshLabels u hu (by rw [Stmt.label?, hLabel]; rfl)
    rw [Stmt.id, hNone] at hSome
    cases hSome

/-- **Expanding calls** keeps every mark but those of calls, and the labels that come in have a dot. -/
theorem Expands.marks {r : Registry} {d d' : Draft} {calls : List Stmt} {log : List Expansion}
    (h : Expands r d calls log d') (hPending : Pending d calls) :
    (∀ m ∈ d.tree.marks, m.2 ≠ "Call" → m ∈ d'.tree.marks)
      ∧ ∀ m ∈ d'.tree.marks, m ∈ d.tree.marks ∨ '.' ∈ m.1.toList := by
  induction h with
  | done d => exact ⟨fun m hm _ => hm, fun m hm => .inl hm⟩
  | @call d d' site callee args calls f b copy next log _ _ _ hCopied _ ih =>
    have hSpec := privateCopy_spec d.tree d.next f b (site.label.getD callee)
    have hDots : ∀ l ∈ copy.labels, '.' ∈ l.toList := by
      intro l hl
      have hMem : l ∈ (privateCopy d.tree d.next f b (site.label.getD callee)).1.labels := by
        rwa [hCopied]
      exact dot_of_mem_privateCopy hMem
    rw [hCopied] at hSpec
    obtain ⟨hNext, hIds, hBounds, -, -⟩ := hSpec
    obtain ⟨hKept, hMade⟩ := ih (hPending.expand hNext hIds hBounds)
    have hStep : Exchanges (Stmt.call site callee args).marks copy.marks d.tree
        (d.tree.update site.id fun _ => copy) :=
      Exchanges.update (u := .call site callee args) hPending.ids hPending.head_mem
        ⟨[], by simp, by simp⟩
    constructor
    · intro m hm hKind
      refine hKept m (hStep.mem_marks hm fun hCall => hKind ?_) hKind
      obtain ⟨u, hu, _, hSame⟩ := Stmt.mem_marks.mp hCall
      rw [← hSame, List.mem_singleton.mp hu]
      rfl
    · intro m hm
      refine (hMade m hm).elim (fun hThere => ?_) .inr
      rcases hStep.mem_or_mem hThere with hNew | hOld
      · exact .inr (hDots m.1 (Stmt.mem_labels_of_mem_marks hNew))
      · exact .inl hOld

end Restructure

/-! ## What a command keeps -/

/-- The labels that a command reports. -/
def Report.newLabels : Report → List String
  | .labels a b => [a, b]
  | _ => []

namespace Command

open Stmt (Exchanges)
open Restructure (Draft)

/-- The label of the loop that a command takes apart. -/
def takesApart : Command → List String
  | .split label _ _ | .fission label _ => [label]
  | _ => []

/-- A statement that a command unwraps: what lies between reordered loops, and the block that a
    distributed loop has as its body. -/
def Unwraps (t : Stmt) : Command → Stmt → Prop
  | .reorder order, u => Restructure.Passes t order u
  | .fission label _, u => ∃ l, t.loopAt label = .ok l ∧ u = l.body
  | _, _ => False

/-- No label stands where the command loses it.

    * **unwrapped**: what is unwrapped has no label;
    * **calls**: the labels of calls that are expanded are not of the form that is drawn for the
      statements of a function. -/
structure Spares (t : Stmt) (c : Command) : Prop where
  unwrapped : ∀ u, c.Unwraps t u → u.label? = none
  calls : c = .inline → ∀ u ∈ t.calls, ∀ l, u.label? = some l → '.' ∉ l.toList

/-- A command keeps the labels of a program.

    * **labels**: a command other than expanding calls takes away the label of the loop that it takes
      apart, and adds the labels that it reports;
    * **taken**, **drawn**, **two**: the label taken away was there, those that are added were not, and
      there are two of them for the loop;
    * **found**: every other label is still found, except those of expanded calls;
    * **kinds**: what is found under a label is of the same kind as before. -/
structure KeepsLabels (c : Command) (t : Stmt) (report : Report) (t' : Stmt) : Prop where
  labels : c ≠ .inline → ∀ l, l ∈ t'.labels ↔ (l ∈ t.labels ∧ l ∉ c.takesApart) ∨ l ∈ report.newLabels
  taken : ∀ l ∈ c.takesApart, l ∈ t.labels
  drawn : report.newLabels.Nodup ∧ ∀ l ∈ report.newLabels, l ∉ t.labels
  two : report.newLabels.length = 2 * c.takesApart.length
  found : ∀ l u, t.labelled? l = some u → l ∉ c.takesApart → (c = .inline → u.isCall = false) →
    ∃ u', t'.labelled? l = some u' ∧ u'.kindName = u.kindName
  kinds : ∀ l u u', t.labelled? l = some u → t'.labelled? l = some u' → u'.kindName = u.kindName

variable {registry : Registry} {k : Nat} {t t' : Stmt} {c : Command} {report : Report}

/-- **Exchanged marks**: a command that does not expand calls exchanges the mark of the loop that it
    takes apart for marks of two loops, and loses those of what it unwraps. -/
theorem exchanges_of_perform (hc : c ≠ .inline) (h : (Draft.of t).Sound)
    (hPerform : c.perform registry k t = .ok (t', report)) :
    ∃ unwrapped : List Stmt,
      Exchanges (c.takesApart.map (·, "For") ++ unwrapped.filterMap Stmt.mark?)
        (report.newLabels.map (·, "For")) t t'
      ∧ (∀ u ∈ unwrapped, c.Unwraps t u)
      ∧ (t' = t ∨ ∀ u, u.label?.isSome = true → c.Unwraps t u → u ∈ unwrapped) := by
  cases c with
  | reorder order =>
    obtain ⟨u, hReorder, hEq⟩ := Outcome.map_eq_ok.mp hPerform
    cases hEq
    rcases Restructure.reorder_cases hReorder with rfl | ⟨outer, rest, places, nest, hCases⟩
    · exact ⟨[], .of_marks_eq rfl, by simp, .inl rfl⟩
    · obtain ⟨unwrapped, hExchanges, hMem⟩ := hCases.exchanges h.ids h.old
      exact ⟨unwrapped, hExchanges, fun u hu => ((hMem u).mp hu).2,
        .inr fun u hLabel hPasses => (hMem u).mpr ⟨hLabel, hPasses⟩⟩
  | split label factor nparts =>
    obtain ⟨⟨u, a, b⟩, hSplit, hEq⟩ := Outcome.map_eq_ok.mp hPerform
    cases hEq
    exact ⟨[], Restructure.exchanges_split h.ids hSplit, by simp, .inr fun _ _ => False.elim⟩
  | parallelize label tag =>
    obtain ⟨u, hParallelize, hEq⟩ := Outcome.map_eq_ok.mp hPerform
    cases hEq
    exact ⟨[], Restructure.exchanges_parallelize h.ids hParallelize, by simp,
      .inr fun _ _ => False.elim⟩
  | fission label after =>
    obtain ⟨⟨u, a, b⟩, hFission, hEq⟩ := Outcome.map_eq_ok.mp hPerform
    cases hEq
    obtain ⟨l, hFound, hExchanges⟩ := Restructure.exchanges_fission h.ids hFission
    refine ⟨[l.body], ?_, by simpa [Unwraps] using ⟨l, hFound, rfl⟩, .inr ?_⟩
    · have hBody : [l.body].filterMap Stmt.mark? = l.body.mark?.toList := by
        cases hMark : l.body.mark? <;> simp [hMark]
      rw [hBody]
      exact hExchanges
    · rintro u _ ⟨l', hFound', rfl⟩
      rw [Except.ok.inj (hFound.symm.trans hFound')]
      exact List.mem_singleton_self _
  | varReorder label order =>
    obtain ⟨u, hReorder, hEq⟩ := Outcome.map_eq_ok.mp hPerform
    cases hEq
    exact ⟨[], Restructure.exchanges_varReorder h.ids hReorder, by simp, .inr fun _ _ => False.elim⟩
  | inline => exact absurd rfl hc

/-- The reported labels are two for a loop that is taken apart, different and new, and the loop was
    there. -/
theorem newLabels_of_perform (hPerform : c.perform registry k t = .ok (t', report)) :
    (∀ l ∈ c.takesApart, l ∈ t.labels)
      ∧ (report.newLabels.Nodup ∧ ∀ l ∈ report.newLabels, l ∉ t.labels)
      ∧ report.newLabels.length = 2 * c.takesApart.length := by
  cases c with
  | split label factor nparts =>
    obtain ⟨⟨u, a, b⟩, hSplit, hEq⟩ := Outcome.map_eq_ok.mp hPerform
    cases hEq
    obtain ⟨l, r, names, hTaken, _⟩ := Restructure.takenApart_of_split hSplit
    exact ⟨List.forall_mem_singleton.mpr hTaken.mem_labels, ⟨hTaken.two, hTaken.drawn⟩, rfl⟩
  | fission label after =>
    obtain ⟨⟨u, a, b⟩, hFission, hEq⟩ := Outcome.map_eq_ok.mp hPerform
    cases hEq
    obtain ⟨l, site, first, second, hTaken, _⟩ := Restructure.takenApart_of_fission hFission
    exact ⟨List.forall_mem_singleton.mpr hTaken.mem_labels, ⟨hTaken.two, hTaken.drawn⟩, rfl⟩
  | _ =>
    obtain ⟨_, _, hEq⟩ := Outcome.map_eq_ok.mp hPerform
    cases hEq
    exact ⟨by simp [takesApart], by simp [Report.newLabels], rfl⟩

/-- Where no label is lost, the marks of the loop taken apart are exchanged and nothing else. -/
theorem exchanges_of_spares (hc : c ≠ .inline) (h : (Draft.of t).Sound) (hSpares : c.Spares t)
    (hPerform : c.perform registry k t = .ok (t', report)) :
    Exchanges (c.takesApart.map (·, "For")) (report.newLabels.map (·, "For")) t t' := by
  obtain ⟨unwrapped, hExchanges, hUnwraps, _⟩ := exchanges_of_perform hc h hPerform
  have hNone : unwrapped.filterMap Stmt.mark? = [] := by
    refine List.filterMap_eq_nil_iff.mpr fun u hu => ?_
    rw [Stmt.mark?, hSpares.unwrapped u (hUnwraps u hu)]
    rfl
  rwa [hNone, List.append_nil] at hExchanges

/-- **Marks** are kept by a command, but for those of the loop taken apart and of expanded calls, and a
    label that stays has the mark that it had. -/
theorem marks_of_perform (hTree : t.Committed) (hSpares : c.Spares t)
    (hPerform : c.perform registry k t = .ok (t', report)) :
    (∀ m ∈ t.marks, m.1 ∉ c.takesApart → (c = .inline → m.2 ≠ "Call") → m ∈ t'.marks)
      ∧ ∀ m ∈ t.marks, ∀ m' ∈ t'.marks, m'.1 = m.1 → m' = m := by
  by_cases hc : c = .inline
  · subst hc
    have hLabels : t'.labels.Nodup := labels_of_perform hTree.sound hPerform
    obtain ⟨⟨d, n⟩, hExpand, hEq⟩ := Outcome.map_eq_ok.mp hPerform
    cases hEq
    obtain ⟨log, hExpands, _⟩ := Restructure.exists_expands hExpand
    have hPending : Restructure.Pending (Draft.of t) t.calls :=
      hTree.number_eq ▸ Restructure.pending_number t
    obtain ⟨hKept, hMade⟩ := hExpands.marks hPending
    refine ⟨fun m hm _ hKind => hKept m hm (hKind rfl), fun m hm m' hm' hLabel => ?_⟩
    by_cases hKind : m.2 = "Call"
    · -- a label with a dot is not that of a call
      refine (hMade m' hm').elim (fun hOld => Stmt.eq_of_mem_marks hTree.labels hm hOld hLabel)
        fun hDot => ?_
      obtain ⟨u, hu, hName, hSame⟩ := Stmt.mem_marks.mp hm
      have hCall : u.isCall = true := Stmt.kindName_eq_call.mp (hSame.trans hKind)
      exact absurd (hLabel ▸ hDot)
        (hSpares.calls rfl u (Restructure.mem_calls.mpr ⟨hu, hCall⟩) m.1 hName)
    · exact Stmt.eq_of_mem_marks hLabels (hKept m hm hKind) hm' hLabel
  · have hExchanges := exchanges_of_spares hc hTree.sound hSpares hPerform
    constructor
    · intro m hm hTaken _
      refine hExchanges.mem_marks hm fun hLost => hTaken ?_
      obtain ⟨l, hl, rfl⟩ := List.mem_map.mp hLost
      exact hl
    · intro m hm m' hm' hLabel
      rcases hExchanges.mem_or_mem hm' with hGained | hOld
      · obtain ⟨l, hl, rfl⟩ := List.mem_map.mp hGained
        have hThere : l ∈ t.labels := by
          rw [show l = m.1 from hLabel]
          exact Stmt.mem_labels_of_mem_marks hm
        exact absurd hThere ((newLabels_of_perform hPerform).2.1.2 l hl)
      · exact Stmt.eq_of_mem_marks hTree.labels hm hOld hLabel

end Command

namespace Schedule

variable {s s' : Schedule} {registry : Registry} {c : Command} {report : Report}

/-- **Kept labels**: an accepted command keeps the labels of a committed program, and what they name,
    if no label stands where the command loses it. -/
theorem labels_kept (hTree : s.tree.Committed) (hSpares : c.Spares s.tree)
    (h : s.run registry c = .ok (s', report)) : c.KeepsLabels s.tree report s'.tree := by
  obtain ⟨t, hPerform, hCommit, _⟩ := run_cases h
  obtain ⟨hNodup, hNumber, _⟩ := commit_cases hCommit
  obtain ⟨hTaken, hDrawn, hTwo⟩ := Command.newLabels_of_perform hPerform
  obtain ⟨hKept, hSame⟩ := Command.marks_of_perform hTree hSpares hPerform
  have hLabels : s'.tree.labels = t.labels := by rw [hNumber, Stmt.labels_number]
  have hMarks : s'.tree.marks = t.marks := by rw [hNumber, Stmt.marks_number]
  refine ⟨fun hc l => ?_, hTaken, hDrawn, hTwo, ?_, ?_⟩
  · have hExchanges := Command.exchanges_of_spares hc hTree.sound hSpares hPerform
    have hNames : ∀ ls : List String, (ls.map (·, "For")).map (·.1) = ls := fun ls => by
      rw [List.map_map]
      exact List.map_id ls
    rw [hLabels, hExchanges.mem_labels hTree.labels, hNames, hNames]
  · intro l u hu hApart hCall
    have hMark := (Stmt.mem_marks_iff_labelled? hTree.labels).mpr ⟨u, hu, rfl⟩
    refine (Stmt.mem_marks_iff_labelled? (hLabels ▸ hNodup)).mp
      (hMarks ▸ hKept _ hMark hApart fun hc => ?_)
    exact fun hKind => Bool.false_ne_true ((hCall hc).symm.trans (Stmt.kindName_eq_call.mp hKind))
  · intro l u u' hu hu'
    have hMark := (Stmt.mem_marks_iff_labelled? hTree.labels).mpr ⟨u, hu, rfl⟩
    have hMark' := (Stmt.mem_marks_iff_labelled? (hLabels ▸ hNodup)).mpr ⟨u', hu', rfl⟩
    exact congrArg Prod.snd
      (hSame (l, u.kindName) hMark (l, u'.kindName) (hMarks ▸ hMark') rfl)

/-- A loop around a block that holds a store and another loop. -/
def fenced (fence : Option String) : Stmt :=
  .loop ⟨0, some "L1"⟩ { iter := "i", lower := .int 0, upper := .int 4 }
    (.block ⟨1, fence⟩
      [.store ⟨2, some "S"⟩ "y" [.var "i"] (.int 0),
      .loop ⟨3, some "L2"⟩ { iter := "j", lower := .int 0, upper := .int 4 }
        (.store ⟨4, some "T"⟩ "x" [.var "i", .var "j"] (.int 1))])

/-- Where the block has no label, the loops may change places, and all labels are kept. -/
theorem labels_kept_fenced : ∃ s', ({ tree := fenced none } : Schedule).run ⟨[]⟩
      (.reorder ["L2", "L1"]) = .ok (s', .nothing)
    ∧ (fenced none).Committed ∧ Command.Spares (fenced none) (.reorder ["L2", "L1"])
    ∧ Command.KeepsLabels (.reorder ["L2", "L1"]) (fenced none) .nothing s'.tree := by
  obtain ⟨s', hRun⟩ : ∃ s', ({ tree := fenced none } : Schedule).run ⟨[]⟩ (.reorder ["L2", "L1"])
      = .ok (s', .nothing) := ⟨_, by cbv⟩
  have hTree : (fenced none).Committed := ⟨by decide, by decide⟩
  have hSpares : Command.Spares (fenced none) (.reorder ["L2", "L1"]) := by
    refine ⟨?_, fun h => by cases h⟩
    rintro u ⟨hLoop, ⟨a, _, l, hAt, hInside⟩, b, _, l', _, hBelow⟩
    have hu : u ∈ (fenced none).nodes :=
      Stmt.mem_nodes_trans (Restructure.mem_nodes_stmt hInside) (Stmt.mem_of_loopAt hAt)
    simp only [fenced, Stmt.nodes_loop, Stmt.nodes_block, Stmt.nodes_store, List.flatMap_cons,
      List.flatMap_nil, List.cons_append, List.nil_append, List.append_nil, List.mem_cons,
      List.not_mem_nil, or_false] at hu
    rcases hu with rfl | rfl | rfl | rfl | rfl
    · cases hLoop
    · rfl
    · cases List.mem_singleton.mp hBelow
    · cases hLoop
    · cases List.mem_singleton.mp hBelow
  exact ⟨s', hRun, hTree, hSpares, labels_kept (s := { tree := fenced none }) hTree hSpares hRun⟩

/-- **Lost labels**: when a command changes the program, what it unwraps loses its label. -/
theorem labels_lost (hTree : s.tree.Committed) (h : s.run registry c = .ok (s', report)) :
    s'.tree = s.tree
      ∨ ∀ u, c.Unwraps s.tree u → ∀ l, u.label? = some l → l ∉ s'.tree.labels := by
  by_cases hc : c = .inline
  · subst hc
    exact .inr fun _ => False.elim
  · obtain ⟨t, hPerform, hCommit, _⟩ := run_cases h
    obtain ⟨_, hNumber, _⟩ := commit_cases hCommit
    obtain ⟨unwrapped, hExchanges, _, hAll⟩ := Command.exchanges_of_perform hc hTree.sound hPerform
    rcases hAll with rfl | hAll
    · exact .inl (hNumber.trans hTree.number_eq)
    · refine .inr fun u hu l hLabel hThere => ?_
      rw [hNumber, Stmt.labels_number, hExchanges.mem_labels hTree.labels] at hThere
      have hLost : (l, u.kindName) ∈ c.takesApart.map (·, "For") ++ unwrapped.filterMap Stmt.mark? :=
        List.mem_append_right _ (List.mem_filterMap.mpr
          ⟨u, hAll u (by rw [hLabel]; rfl) hu, Stmt.mark?_eq_some.mpr ⟨hLabel, rfl⟩⟩)
      rcases hThere with ⟨_, hKept⟩ | hNew
      · exact hKept (List.mem_map_of_mem (f := (·.1)) hLost)
      · -- a label that is reported was not there
        obtain ⟨rest, hOld, _⟩ := hExchanges
        obtain ⟨m, hm, rfl⟩ := List.mem_map.mp hNew
        obtain ⟨l, hl, rfl⟩ := List.mem_map.mp hm
        exact (Command.newLabels_of_perform hPerform).2.1.2 l hl (Stmt.mem_labels_of_mem_marks
          (hOld.symm.subset (List.mem_append_left rest hLost)))

/-- A function whose body has a label. -/
def blankFunction : Function := { name := "f", params := [], body := .block ⟨0, some "x"⟩ [] }

/-- Two calls of it. The label of the first one is what the second one draws for the body. -/
def twoCalls : Stmt :=
  .block ⟨0, none⟩ [.call ⟨1, some "C.x"⟩ "f" [], .call ⟨2, some "C"⟩ "f" []]

/-- The label of the block is lost when the loops change places, and when the outer one is distributed.
    When calls are expanded, the label of one may come to name a block. -/
theorem fence_lost :
    (fenced (some "B")).Committed ∧ twoCalls.Committed
      ∧ (fenced (some "B")).labels = ["L1", "B", "S", "L2", "T"]
      ∧ ((({ tree := fenced (some "B") } : Schedule).run ⟨[]⟩ (.reorder ["L2", "L1"])).toOption.map
          fun p => p.1.tree.labels) = some ["L2", "L1", "S", "T"]
      ∧ ((({ tree := fenced (some "B") } : Schedule).run ⟨[]⟩ (.fission "L1" "S")).toOption.map
          fun p => (p.1.tree.labels, p.2))
        = some (["L1.a", "S", "L1.b", "L2", "T"], .labels "L1.a" "L1.b")
      ∧ twoCalls.marks = [("C.x", "Call"), ("C", "Call")]
      ∧ ((({ tree := twoCalls } : Schedule).run ⟨[blankFunction]⟩ .inline).toOption.map
          fun p => p.1.tree.marks) = some [("C.x.x", "Block"), ("C.x", "Block")] :=
  ⟨⟨by decide, by decide⟩, ⟨by decide, by decide⟩, by decide, by cbv, by cbv, by decide, by cbv⟩

end Schedule

end LoopNest

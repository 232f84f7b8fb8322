import LoopNest.Program.Canonical
import LoopNest.Proofs.CanonicalForms
import LoopNest.Proofs.LabelledPrograms
import LoopNest.Proofs.PerfectChains
import LoopNest.Proofs.SplitLoops

/-! # Splits by label

  `Stmt.splitAt` splits the loop with a given label. It looks neither at the numbers of statements nor
  at the names in use, so it can be carried past numbering, past other splits and past replaced
  scalars, which a request cannot.

  * **Requests**: on a committed program, splitting by label is what a request does once it has drawn
    its names (`Stmt.update_eq_splitAt`).
  * **Numbers**: a program without its numbers (`Stmt.unnumbered`) is split alike, and has the
    canonical form of the program. So numbering before a split does not show in the canonical form
    afterwards (`Stmt.canonical_splitAt_number`). -/

namespace LoopNest.Stmt

open Restructure

/-! ## Splitting by label -/

section splitAt

variable (label : String) (r : SplitBy) (names : SplitNames)

mutual
/-- The program with the outermost loops of a given label split. -/
def splitAt : Stmt → Stmt
  | .decl s n b body => .decl s n b (splitAt body)
  | .loop s h body =>
    if s.label = some label then splitLoop ⟨s, h, body⟩ r names else .loop s h (splitAt body)
  | .guard s c body => .guard s c (splitAt body)
  | .branch s c yes no => .branch s c (splitAt yes) (splitAt no)
  | .block s stmts => .block s (splitAtAll stmts)
  | t => t
/-- The statements of a list with the outermost loops of a given label split. -/
def splitAtAll : List Stmt → List Stmt
  | [] => []
  | t :: ts => splitAt t :: splitAtAll ts
end

theorem splitAtAll_eq_map (ts : List Stmt) :
    splitAtAll label r names ts = ts.map (splitAt label r names) := by
  induction ts with
  | nil => rfl
  | cons t ts ih => rw [splitAtAll, ih, List.map_cons]

theorem splitAt_decl (s : Site) (n : String) (b : Buffer) (body : Stmt) :
    (Stmt.decl s n b body).splitAt label r names = .decl s n b (body.splitAt label r names) := rfl

theorem splitAt_guard (s : Site) (c : Expr) (body : Stmt) :
    (Stmt.guard s c body).splitAt label r names = .guard s c (body.splitAt label r names) := rfl

theorem splitAt_branch (s : Site) (c : Expr) (yes no : Stmt) :
    (Stmt.branch s c yes no).splitAt label r names
      = .branch s c (yes.splitAt label r names) (no.splitAt label r names) := rfl

theorem splitAt_block (s : Site) (ts : List Stmt) :
    (Stmt.block s ts).splitAt label r names = .block s (ts.map (splitAt label r names)) :=
  congrArg _ (splitAtAll_eq_map label r names ts)

variable {label}

/-- The loop with the label is split. -/
theorem splitAt_loop_of_label {s : Site} (hs : s.label = some label) (h : LoopHead) (body : Stmt) :
    (Stmt.loop s h body).splitAt label r names = splitLoop ⟨s, h, body⟩ r names := by
  rw [splitAt, if_pos hs]

/-- In other loops the body is gone through. -/
theorem splitAt_loop_of_ne {s : Site} (hs : s.label ≠ some label) (h : LoopHead) (body : Stmt) :
    (Stmt.loop s h body).splitAt label r names = .loop s h (body.splitAt label r names) := by
  rw [splitAt, if_neg hs]

/-- All but the loop with the label are gone through. -/
theorem splitAt_eq_mapChildren {t : Stmt} (h : t.isLoop = true → t.label? ≠ some label) :
    t.splitAt label r names = t.mapChildren (splitAt label r names) := by
  cases t with
  | loop s h' body => exact splitAt_loop_of_ne r names (h rfl) h' body
  | block s ts => exact splitAt_block label r names s ts
  | _ => rfl

end splitAt

theorem mapChildren_congr {f g : Stmt → Stmt} {t : Stmt} (h : ∀ u ∈ t.children, f u = g u) :
    t.mapChildren f = t.mapChildren g := by
  cases t <;> simp_all [mapChildren, children]

/-- **Requests**: when no other statement has the number of a loop or its label, splitting by the
    label puts the new loops in the place of the loop. -/
theorem update_eq_splitAt {l : LabelledLoop} {label : String} (hl : l.site.label = some label)
    (r : SplitBy) (names : SplitNames) : ∀ t : Stmt, (∀ u ∈ t.nodes, u.id = l.site.id → u = l.stmt) →
    (∀ u ∈ t.nodes, u.label? = some label → u = l.stmt) →
    (t.update l.site.id fun _ => splitLoop l r names) = t.splitAt label r names := by
  refine children_ind fun t ih hIds hLabels => ?_
  by_cases hHere : t = l.stmt
  · subst hHere
    have hId : l.stmt.id = l.site.id := rfl
    rw [update_self hId]
    exact (splitAt_loop_of_label r names hl l.head l.body).symm
  · have hId : t.id ≠ l.site.id := fun h => hHere (hIds t (self_mem_nodes t) h)
    have hLabel : t.label? ≠ some label := fun h => hHere (hLabels t (self_mem_nodes t) h)
    rw [update_eq, if_neg hId, splitAt_eq_mapChildren r names fun _ => hLabel]
    exact mapChildren_congr fun u hu => ih u hu (fun w hw => hIds w (mem_nodes_of_child hu hw))
      fun w hw => hLabels w (mem_nodes_of_child hu hw)

theorem label_of_loopAt {t : Stmt} {l : LabelledLoop} {label : String} (h : t.loopAt label = .ok l) :
    l.site.label = some label := by
  unfold loopAt at h
  split at h
  · rename_i hFind
    cases h
    have hSame := List.find?_some (p := fun u : Stmt => u.label? == some label) hFind
    exact beq_iff_eq.mp hSame
  · cases h
  · cases h

/-- In a program with different numbers and labels that is the loop found by the label. -/
theorem update_eq_splitAt_of_mem {t : Stmt} {l : LabelledLoop} {label : String}
    (hIds : t.ids.Nodup) (hLabels : t.labels.Nodup) (hMem : l.stmt ∈ t.nodes)
    (hl : l.site.label = some label) (r : SplitBy) (names : SplitNames) :
    (t.update l.site.id fun _ => splitLoop l r names) = t.splitAt label r names := by
  refine update_eq_splitAt hl r names t (fun u hu hId => ?_) fun u hu hLabel => ?_
  · exact List.inj_on_of_nodup_map hIds hu hMem hId
  · exact Option.some.inj ((labelled?_of_mem hLabels hu hLabel).symm.trans
      (labelled?_of_mem hLabels hMem hl))

/-! ## Numbers -/

/-- The program without its numbers. -/
def unnumbered (t : Stmt) : Stmt := t.bottomUp fun u => u.withSite (.unnumbered u.label?)

section unnumbered

variable (s : Site)

theorem unnumbered_decl (n : String) (b : Buffer) (body : Stmt) :
    (Stmt.decl s n b body).unnumbered = .decl (.unnumbered s.label) n b body.unnumbered := rfl

theorem unnumbered_loop (h : LoopHead) (body : Stmt) :
    (Stmt.loop s h body).unnumbered = .loop (.unnumbered s.label) h body.unnumbered := rfl

theorem unnumbered_guard (c : Expr) (body : Stmt) :
    (Stmt.guard s c body).unnumbered = .guard (.unnumbered s.label) c body.unnumbered := rfl

theorem unnumbered_branch (c : Expr) (yes no : Stmt) : (Stmt.branch s c yes no).unnumbered
    = .branch (.unnumbered s.label) c yes.unnumbered no.unnumbered := rfl

theorem unnumbered_block (ts : List Stmt) :
    (Stmt.block s ts).unnumbered = .block (.unnumbered s.label) (ts.map unnumbered) :=
  congrArg _ (bottomUpAll_eq_map _ ts)

end unnumbered

theorem unnumbered_numberFrom :
    ∀ (t : Stmt) (n : Nat), (t.numberFrom n).1.unnumbered = t.unnumbered := by
  refine Stmt.ind ?decl ?loop ?guard ?branch ?store ?call ?block ?hole
  case decl => exact fun s x b body ih n => by simp only [numberFrom, unnumbered_decl, ih]
  case loop => exact fun s h body ih n => by simp only [numberFrom, unnumbered_loop, ih]
  case guard => exact fun s c body ih n => by simp only [numberFrom, unnumbered_guard, ih]
  case branch =>
    exact fun s c yes no ihYes ihNo n => by simp only [numberFrom, unnumbered_branch, ihYes, ihNo]
  case block =>
    intro s ts ih n
    have hAll : ∀ n, (numberAllFrom n ts).1.map unnumbered = ts.map unnumbered := by
      induction ts with
      | nil => exact fun _ => rfl
      | cons t ts ihList =>
        intro n
        rw [numberAllFrom, List.map_cons, List.map_cons, ih t List.mem_cons_self,
          ihList fun u hu => ih u (List.mem_cons_of_mem t hu)]
    rw [numberFrom, unnumbered_block, unnumbered_block, hAll]
  case store => exact fun s b is v n => rfl
  case call => exact fun s f args n => rfl
  case hole => exact fun s n => rfl

/-- Numbering changes numbers only. -/
theorem unnumbered_number (t : Stmt) : t.number.unnumbered = t.unnumbered := unnumbered_numberFrom t 0

theorem unnumbered_substitute (x : String) (w : Expr) :
    ∀ t : Stmt, (t.substitute x w).unnumbered = t.unnumbered.substitute x w := by
  refine Stmt.ind ?decl ?loop ?guard ?branch ?store ?call ?block ?hole
  case decl =>
    exact fun s n b body ih => by rw [substitute, unnumbered_decl, ih, unnumbered_decl, substitute]
  case loop =>
    intro s h body ih
    rw [substitute, unnumbered_loop, unnumbered_loop, substitute, apply_ite unnumbered, ih]
  case guard =>
    exact fun s c body ih => by rw [substitute, unnumbered_guard, ih, unnumbered_guard, substitute]
  case branch =>
    intro s c yes no ihYes ihNo
    rw [substitute, unnumbered_branch, ihYes, ihNo, unnumbered_branch, substitute]
  case block =>
    intro s ts ih
    have hAll : (ts.map (substitute x w)).map unnumbered = (ts.map unnumbered).map (substitute x w) := by
      rw [List.map_map, List.map_map]
      exact List.map_congr_left ih
    rw [substitute, substituteAll_eq_map, unnumbered_block, hAll, unnumbered_block, substitute,
      substituteAll_eq_map]
  case store => exact fun s b is v => rfl
  case call => exact fun s f args => rfl
  case hole => exact fun s => rfl

/-- Canonical forms know no numbers. -/
theorem canonicalIn_unnumbered : ∀ (t : Stmt) (scope : List String),
    t.unnumbered.canonicalIn scope = t.canonicalIn scope := by
  refine Stmt.ind ?decl ?loop ?guard ?branch ?store ?call ?block ?hole
  case decl => exact fun s n b body ih scope => by rw [unnumbered_decl, canonicalIn, ih, canonicalIn]
  case loop => exact fun s h body ih scope => by rw [unnumbered_loop, canonicalIn, ih, canonicalIn]
  case guard => exact fun s c body ih scope => by rw [unnumbered_guard, canonicalIn, ih, canonicalIn]
  case branch =>
    intro s c yes no ihYes ihNo scope
    rw [unnumbered_branch, canonicalIn, ihYes, ihNo, canonicalIn]
  case block =>
    intro s ts ih scope
    rw [unnumbered_block, canonicalIn, canonicalIn, canonicalInAll_eq_flatMap,
      canonicalInAll_eq_flatMap, List.flatMap_map]
    exact List.flatMap_congr fun t ht => ih t ht scope
  case store => exact fun s b is v scope => rfl
  case call => exact fun s f args scope => rfl
  case hole => exact fun s scope => rfl

section splitAt

variable (r : SplitBy) (names : SplitNames)

theorem unnumbered_splitLoop (s : Site) (h : LoopHead) (body : Stmt) :
    (splitLoop ⟨s, h, body⟩ r names).unnumbered
      = splitLoop ⟨.unnumbered s.label, h, body.unnumbered⟩ r names := by
  have hBody : (newBody ⟨s, h, body⟩ r names).unnumbered
      = newBody ⟨.unnumbered s.label, h, body.unnumbered⟩ r names := by
    have hOld := unnumbered_substitute h.iter (oldIterator ⟨s, h, body⟩ r names) body
    unfold newBody
    dsimp only
    split
    · exact hOld
    · rw [unnumbered_guard, hOld]
      rfl
  rw [splitLoop_eq, splitLoop_eq, newInner, newInner, unnumbered_loop, unnumbered_loop, hBody]
  rfl

/-- A program without numbers is split alike. -/
theorem unnumbered_splitAt (label : String) : ∀ t : Stmt,
    (t.splitAt label r names).unnumbered = t.unnumbered.splitAt label r names := by
  refine Stmt.ind ?decl ?loop ?guard ?branch ?store ?call ?block ?hole
  case decl =>
    exact fun s n b body ih => by rw [splitAt_decl, unnumbered_decl, ih, unnumbered_decl, splitAt_decl]
  case loop =>
    intro s h body ih
    by_cases hs : s.label = some label
    · rw [splitAt_loop_of_label r names hs, unnumbered_splitLoop, unnumbered_loop,
        splitAt_loop_of_label r names (show (Site.unnumbered s.label).label = some label from hs)]
    · rw [splitAt_loop_of_ne r names hs, unnumbered_loop, ih, unnumbered_loop,
        splitAt_loop_of_ne r names (show (Site.unnumbered s.label).label ≠ some label from hs)]
  case guard =>
    exact fun s c body ih => by rw [splitAt_guard, unnumbered_guard, ih, unnumbered_guard, splitAt_guard]
  case branch =>
    intro s c yes no ihYes ihNo
    rw [splitAt_branch, unnumbered_branch, ihYes, ihNo, unnumbered_branch, splitAt_branch]
  case block =>
    intro s ts ih
    have hAll : (ts.map (splitAt label r names)).map unnumbered
        = (ts.map unnumbered).map (splitAt label r names) := by
      rw [List.map_map, List.map_map]
      exact List.map_congr_left ih
    rw [splitAt_block, unnumbered_block, hAll, unnumbered_block, splitAt_block]
  case store => exact fun s b is v => rfl
  case call => exact fun s f args => rfl
  case hole => exact fun s => rfl

/-- **Numbers**: a program that is numbered before a split has the same canonical form after it. -/
theorem canonical_splitAt_number (label : String) (t : Stmt) :
    (t.number.splitAt label r names).canonical = (t.splitAt label r names).canonical := by
  unfold canonical
  rw [← canonicalIn_unnumbered, unnumbered_splitAt, unnumbered_number, ← unnumbered_splitAt,
    canonicalIn_unnumbered]

end splitAt

end LoopNest.Stmt

import LoopNest.Program.Simplify
import LoopNest.Proofs.ReplacedScalars
import LoopNest.Proofs.TidyPrograms
import LoopNest.Restructure.Inline
import LoopNest.Restructure.VarReorder

/-! # Numbers and labels of changed programs

  A schedule refers to statements by their labels, so no two statements of a program may carry the
  same one. A statement keeps its number and its label in its site; this module says what a change of
  a program does to the list of all sites (`Stmt.sites`).

  * **Changes of expressions** and renamings leave the sites alone (`Stmt.sites_bottomUp`), and so do
    replaced scalars and permuted subscripts.
  * **Numbering** leaves the labels alone (`Stmt.labels_number`), and so does copying
    (`Stmt.labels_copyFrom`); a copy has the numbers that it was given.
  * **Labelling** a copy afresh gives it different labels that were not in use
    (`Restructure.labels_relabel`).
  * **Simplifying** can only lose labels (`Stmt.labels_simplify`).
  * **Updates**: labels stay different when a statement is replaced by one with its own and with new
    labels (`Stmt.nodup_labels_update`). -/

namespace LoopNest

namespace Stmt

/-! ## Sites -/

/-- The sites of all statements, in pre-order. -/
def sites (t : Stmt) : List Site := t.nodes.map site

theorem sites_eq_cons (t : Stmt) : t.sites = t.site :: t.children.flatMap sites := by
  unfold sites
  rw [nodes_eq_cons, List.map_cons, inside, List.map_flatMap]

theorem ids_eq_sites (t : Stmt) : t.ids = t.sites.map Site.id := List.map_map.symm

theorem labels_eq_sites (t : Stmt) : t.labels = t.sites.filterMap Site.label :=
  List.filterMap_map.symm

theorem ids_of_sites {t t' : Stmt} (h : t'.sites = t.sites) : t'.ids = t.ids := by
  rw [ids_eq_sites, ids_eq_sites, h]

theorem labels_of_sites {t t' : Stmt} (h : t'.sites = t.sites) : t'.labels = t.labels := by
  rw [labels_eq_sites, labels_eq_sites, h]

/-- The label of a statement, then the labels below it. -/
theorem labels_eq_append (t : Stmt) : t.labels = t.label?.toList ++ t.children.flatMap labels := by
  unfold labels
  rw [nodes_eq_cons, List.filterMap_cons, inside, List.filterMap_flatMap]
  cases t.label? <;> rfl

section labels

variable (s : Site)

@[simp] theorem labels_decl (n : String) (b : Buffer) (body : Stmt) :
    (Stmt.decl s n b body).labels = s.label.toList ++ body.labels := by
  simp [labels_eq_append (.decl ..), children, label?, site]

@[simp] theorem labels_loop (head : LoopHead) (body : Stmt) :
    (Stmt.loop s head body).labels = s.label.toList ++ body.labels := by
  simp [labels_eq_append (.loop ..), children, label?, site]

@[simp] theorem labels_guard (e : Expr) (body : Stmt) :
    (Stmt.guard s e body).labels = s.label.toList ++ body.labels := by
  simp [labels_eq_append (.guard ..), children, label?, site]

@[simp] theorem labels_branch (e : Expr) (yes no : Stmt) :
    (Stmt.branch s e yes no).labels = s.label.toList ++ (yes.labels ++ no.labels) := by
  simp [labels_eq_append (.branch ..), children, label?, site]

@[simp] theorem labels_block (ts : List Stmt) :
    (Stmt.block s ts).labels = s.label.toList ++ ts.flatMap labels := labels_eq_append _

@[simp] theorem labels_store (b : String) (is : List Expr) (v : Expr) :
    (Stmt.store s b is v).labels = s.label.toList := by
  simp [labels_eq_append (.store ..), children, label?, site]

end labels

theorem labels_sublist {t u : Stmt} (hu : u ∈ t.nodes) : u.labels.Sublist t.labels :=
  (nodes_sublist t hu).filterMap _

/-! ## Changes that keep the sites -/

/-- Changing the site of every statement, but not its children, changes every site. -/
theorem sites_bottomUp_map {f : Stmt → Stmt} {g : Site → Site} (hSite : ∀ u, (f u).site = g u.site)
    (hChildren : ∀ u, (f u).children = u.children) :
    ∀ t : Stmt, (t.bottomUp f).sites = t.sites.map g := by
  refine children_ind fun t ih => ?_
  have hSame : (t.mapChildren (bottomUp f)).site = t.site := by cases t <;> rfl
  rw [bottomUp_eq, sites_eq_cons, sites_eq_cons t, hSite, hChildren, hSame, children_mapChildren,
    List.flatMap_map, List.map_cons, List.map_flatMap]
  exact congrArg _ (List.flatMap_congr ih)

/-- Changing every statement, but neither its site nor its children, keeps the sites. -/
theorem sites_bottomUp {f : Stmt → Stmt} (hSite : ∀ u, (f u).site = u.site)
    (hChildren : ∀ u, (f u).children = u.children) (t : Stmt) : (t.bottomUp f).sites = t.sites :=
  (sites_bottomUp_map (g := fun s => s) hSite hChildren t).trans (List.map_id' _)

theorem sites_mapExprs (f : Expr → Expr) (t : Stmt) : (t.mapExprs f).sites = t.sites :=
  sites_bottomUp (fun u => by cases u <;> rfl) (fun u => by cases u <;> rfl) t

theorem sites_rename (scalars buffers : Expr.Renaming) (t : Stmt) :
    (t.rename scalars buffers).sites = t.sites :=
  sites_bottomUp (fun u => by cases u <;> rfl) (fun u => by cases u <;> rfl) t

/-- Replacing a scalar keeps the sites. -/
theorem sites_substitute (x : String) (e : Expr) : ∀ t : Stmt, (t.substitute x e).sites = t.sites := by
  refine Stmt.ind ?decl ?loop ?guard ?branch ?store ?call ?block ?hole
  case decl =>
    intro s n b body ih
    simp [substitute, sites_eq_cons (.decl ..), children, ih, site]
  case loop =>
    intro s h body ih
    have hBody : (if h.iter = x then body else body.substitute x e).sites = body.sites := by
      split
      · rfl
      · exact ih
    simp [substitute, sites_eq_cons (.loop ..), children, hBody, site]
  case guard =>
    intro s c body ih
    simp [substitute, sites_eq_cons (.guard ..), children, ih, site]
  case branch =>
    intro s c yes no ihYes ihNo
    simp [substitute, sites_eq_cons (.branch ..), children, ihYes, ihNo, site]
  case store =>
    intro s b is v
    simp [substitute, sites_eq_cons (.store ..), children, site]
  case call =>
    intro s f args
    simp [substitute, sites_eq_cons (.call ..), children, site]
  case block =>
    intro s ts ih
    have hAll : (ts.map (substitute x e)).flatMap sites = ts.flatMap sites := by
      rw [List.flatMap_map]
      exact List.flatMap_congr ih
    simp [substitute, substituteAll_eq_map, sites_eq_cons (.block ..), children, hAll, site]
  case hole =>
    intro s
    rfl

theorem permuteAccessesAll_eq_map (n : String) (order : List Nat) (ts : List Stmt) :
    permuteAccessesAll n order ts = ts.map (permuteAccesses n order) := by
  induction ts with
  | nil => rfl
  | cons t ts ih => rw [permuteAccessesAll, ih, List.map_cons]

/-- Permuting subscripts keeps the sites. -/
theorem sites_permuteAccesses (n : String) (order : List Nat) :
    ∀ t : Stmt, (t.permuteAccesses n order).sites = t.sites := by
  refine Stmt.ind ?decl ?loop ?guard ?branch ?store ?call ?block ?hole
  case decl =>
    intro s m b body ih
    have hBody : (if m == n then body else body.permuteAccesses n order).sites = body.sites := by
      split
      · rfl
      · exact ih
    simp only [permuteAccesses, sites_eq_cons (.decl ..), children, List.flatMap_cons,
      List.flatMap_nil, List.append_nil, hBody, site]
  case loop =>
    intro s h body ih
    simp [permuteAccesses, sites_eq_cons (.loop ..), children, ih, site]
  case guard =>
    intro s c body ih
    simp [permuteAccesses, sites_eq_cons (.guard ..), children, ih, site]
  case branch =>
    intro s c yes no ihYes ihNo
    simp [permuteAccesses, sites_eq_cons (.branch ..), children, ihYes, ihNo, site]
  case store =>
    intro s b is v
    simp [permuteAccesses, sites_eq_cons (.store ..), children, site]
  case call =>
    intro s f args
    simp [permuteAccesses, sites_eq_cons (.call ..), children, site]
  case block =>
    intro s ts ih
    have hAll : (ts.map (permuteAccesses n order)).flatMap sites = ts.flatMap sites := by
      rw [List.flatMap_map]
      exact List.flatMap_congr ih
    simp [permuteAccesses, permuteAccessesAll_eq_map, sites_eq_cons (.block ..), children, hAll, site]
  case hole =>
    intro s
    rfl

/-! ## Numbering and copying -/

/-- Numbering a list of statements keeps their labels when numbering each of them does. -/
theorem labels_numberAllFrom {ts : List Stmt}
    (ih : ∀ t ∈ ts, ∀ n, (t.numberFrom n).1.labels = t.labels) (n : Nat) :
    (numberAllFrom n ts).1.flatMap labels = ts.flatMap labels := by
  induction ts generalizing n with
  | nil => rfl
  | cons t ts ihList =>
    rw [numberAllFrom, List.flatMap_cons, List.flatMap_cons, ih t List.mem_cons_self,
      ihList fun u hu => ih u (List.mem_cons_of_mem t hu)]

theorem labels_numberFrom : ∀ (t : Stmt) (n : Nat), (t.numberFrom n).1.labels = t.labels := by
  refine Stmt.ind ?decl ?loop ?guard ?branch ?store ?call ?block ?hole
  case decl =>
    intro s name b body ih n
    simp [numberFrom, ih]
  case loop =>
    intro s h body ih n
    simp [numberFrom, ih]
  case guard =>
    intro s e body ih n
    simp [numberFrom, ih]
  case branch =>
    intro s e yes no ihYes ihNo n
    simp [numberFrom, ihYes, ihNo]
  case store =>
    intro s b is v n
    simp [numberFrom]
  case call =>
    intro s f args n
    rfl
  case block =>
    intro s ts ih n
    simp [numberFrom, labels_numberAllFrom ih]
  case hole =>
    intro s n
    rfl

/-- **Numbering keeps the labels**. -/
theorem labels_number (t : Stmt) : t.number.labels = t.labels := labels_numberFrom t 0

/-- What is known of a copy with the numbers from `n` on that ends before `m`.

    * **labels**: it has the labels of the original;
    * **nodup**, **bounds**: its numbers are different, and between these two. -/
structure Copied (n : Nat) (labels labels' : List String) (ids : List Nat) (m : Nat) : Prop where
  labels : labels' = labels
  le : n ≤ m
  nodup : ids.Nodup
  bounds : ∀ i ∈ ids, n ≤ i ∧ i < m

namespace Copied

variable {n m k : Nat} {labels₁ labels₁' labels₂ labels₂' : List String} {ids₁ ids₂ : List Nat}

/-- One copy after the other. -/
theorem append (h₁ : Copied n labels₁ labels₁' ids₁ m) (h₂ : Copied m labels₂ labels₂' ids₂ k) :
    Copied n (labels₁ ++ labels₂) (labels₁' ++ labels₂') (ids₁ ++ ids₂) k where
  labels := by rw [h₁.labels, h₂.labels]
  le := Nat.le_trans h₁.le h₂.le
  nodup := by
    refine List.nodup_append.mpr ⟨h₁.nodup, h₂.nodup, fun i hi j hj hEq => ?_⟩
    have hFirst := (h₁.bounds i hi).2
    have hSecond := (h₂.bounds j hj).1
    omega
  bounds i hi := by
    have hFirst := h₁.le
    have hSecond := h₂.le
    rcases List.mem_append.mp hi with hi | hi
    · have hBounds := h₁.bounds i hi
      omega
    · have hBounds := h₂.bounds i hi
      omega

/-- The parent gets the number behind its children. -/
theorem parent (h : Copied n labels₁ labels₁' ids₁ m) (label : List String) :
    Copied n (label ++ labels₁) (label ++ labels₁') (m :: ids₁) (m + 1) where
  labels := by rw [h.labels]
  le := Nat.le_succ_of_le h.le
  nodup := List.nodup_cons.mpr ⟨fun hMem => absurd (h.bounds m hMem).2 (Nat.lt_irrefl m), h.nodup⟩
  bounds i hi := by
    have hLe := h.le
    rcases List.mem_cons.mp hi with rfl | hi
    · omega
    · have hBounds := h.bounds i hi
      omega

/-- A statement without children. -/
theorem leaf (n : Nat) (label : List String) : Copied n label label [n] (n + 1) where
  labels := rfl
  le := Nat.le_succ n
  nodup := List.nodup_singleton n
  bounds i hi := by
    rw [List.mem_singleton.mp hi]
    omega

end Copied

theorem copied_copyAllFrom {ts : List Stmt}
    (ih : ∀ t ∈ ts, ∀ n, Copied n t.labels (t.copyFrom n).1.labels (t.copyFrom n).1.ids
      (t.copyFrom n).2) (n : Nat) :
    Copied n (ts.flatMap labels) ((copyAllFrom n ts).1.flatMap labels)
      ((copyAllFrom n ts).1.flatMap ids) (copyAllFrom n ts).2 := by
  induction ts generalizing n with
  | nil => exact ⟨rfl, Nat.le_refl n, List.nodup_nil, fun i hi => nomatch hi⟩
  | cons t ts ihList =>
    exact (ih t List.mem_cons_self n).append
      (ihList (fun u hu => ih u (List.mem_cons_of_mem t hu)) _)

/-- **Copies**: a copy has the labels of the original and the numbers that it was given. -/
theorem copied_copyFrom : ∀ (t : Stmt) (n : Nat),
    Copied n t.labels (t.copyFrom n).1.labels (t.copyFrom n).1.ids (t.copyFrom n).2 := by
  refine Stmt.ind ?decl ?loop ?guard ?branch ?store ?call ?block ?hole
  case decl =>
    intro s name b body ih n
    simpa [copyFrom] using (ih n).parent s.label.toList
  case loop =>
    intro s h body ih n
    simpa [copyFrom] using (ih n).parent s.label.toList
  case guard =>
    intro s e body ih n
    simpa [copyFrom] using (ih n).parent s.label.toList
  case branch =>
    intro s e yes no ihYes ihNo n
    simpa [copyFrom] using ((ihYes n).append (ihNo _)).parent s.label.toList
  case store =>
    intro s b is v n
    simpa [copyFrom] using Copied.leaf n s.label.toList
  case call =>
    intro s f args n
    exact .leaf n _
  case block =>
    intro s ts ih n
    simpa [copyFrom] using (copied_copyAllFrom ih n).parent s.label.toList
  case hole =>
    intro s n
    exact .leaf n _

/-! ## Labelling afresh -/

/-- A site with the label that is listed for its number, if there is one. -/
def relabelled (fresh : List (Nat × String)) (s : Site) : Site :=
  match fresh.lookup s.id with
  | some l => { s with label := some l }
  | none => s

theorem sites_relabel (fresh : List (Nat × String)) (t : Stmt) :
    (t.relabel fresh).sites = t.sites.map (relabelled fresh) := by
  have hWith : ∀ (s : Site) (u : Stmt), (u.withSite s).site = s
      ∧ (u.withSite s).children = u.children := fun s u => by cases u <;> exact ⟨rfl, rfl⟩
  refine sites_bottomUp_map (fun u => ?_) (fun u => ?_) t
  · unfold relabelled id
    cases fresh.lookup u.site.id with
    | none => rfl
    | some l => exact (hWith _ u).1
  · cases fresh.lookup u.id with
    | none => rfl
    | some l => exact (hWith _ u).2

theorem ids_relabel (fresh : List (Nat × String)) (t : Stmt) : (t.relabel fresh).ids = t.ids := by
  rw [ids_eq_sites, sites_relabel, List.map_map, ids_eq_sites]
  refine List.map_congr_left fun s _ => ?_
  show (relabelled fresh s).id = s.id
  unfold relabelled
  cases fresh.lookup s.id <;> rfl

end Stmt

namespace Restructure

open Stmt (relabelled)

/-- What is listed for fresh labels: labelled statements, with different labels that were not in
    use. -/
theorem freshLabels_spec (front : String) : ∀ (ts : List Stmt) (supply : NameSupply),
    (∀ p ∈ freshLabels front supply ts, p.1 ∈ ts.map Stmt.id)
      ∧ ((freshLabels front supply ts).map (·.2)).Nodup
      ∧ ∀ p ∈ freshLabels front supply ts, p.2 ∉ supply.used := by
  intro ts
  induction ts with
  | nil => exact fun supply => ⟨fun p => (nomatch ·), List.nodup_nil, fun p => (nomatch ·)⟩
  | cons t ts ih =>
    intro supply
    rw [freshLabels]
    cases t.label? with
    | none =>
      obtain ⟨hIds, hNodup, hFresh⟩ := ih supply
      exact ⟨fun p hp => List.mem_cons_of_mem _ (hIds p hp), hNodup, hFresh⟩
    | some l =>
      have hDraw := supply.draws_fresh (front ++ "." ++ l)
      obtain ⟨hIds, hNodup, hFresh⟩ := ih (supply.fresh (front ++ "." ++ l)).2
      refine ⟨fun p hp => ?_, ?_, fun p hp => ?_⟩
      · rcases List.mem_cons.mp hp with rfl | hp
        · exact List.mem_cons_self
        · exact List.mem_cons_of_mem _ (hIds p hp)
      · refine List.nodup_cons.mpr ⟨fun hMem => ?_, hNodup⟩
        obtain ⟨p, hp, hEq⟩ := List.mem_map.mp hMem
        exact hFresh p hp ((hDraw.used _).mpr (.inl (by rw [hEq]; exact List.mem_singleton_self _)))
      · rcases List.mem_cons.mp hp with rfl | hp
        · exact hDraw.fresh _ (List.mem_singleton_self _)
        · exact fun hUsed => hFresh p hp ((hDraw.used _).mpr (.inr hUsed))

/-- Of statements with different numbers, exactly those with a label get the listed ones, in turn. -/
theorem labels_freshLabels (front : String) : ∀ (ts : List Stmt) (supply : NameSupply),
    (ts.map Stmt.id).Nodup →
      ((ts.map Stmt.site).map (relabelled (freshLabels front supply ts))).filterMap Site.label
        = (freshLabels front supply ts).map (·.2) := by
  intro ts
  induction ts with
  | nil => exact fun _ _ => rfl
  | cons t ts ih =>
    intro supply hIds
    obtain ⟨hNew, hIds⟩ := List.nodup_cons.mp hIds
    rw [freshLabels]
    cases hLabel : t.label? with
    | none =>
      -- nothing is listed for the first statement
      have hLookup : (freshLabels front supply ts).lookup t.site.id = none := by
        rw [List.lookup_eq_none_iff]
        intro p hp
        have hNe : p.1 ≠ t.id := fun hEq => hNew (hEq ▸ (freshLabels_spec front ts supply).1 p hp)
        exact bne_iff_ne.mpr hNe.symm
      have hHead : (relabelled (freshLabels front supply ts) t.site).label = none := by
        unfold relabelled
        rw [hLookup]
        exact hLabel
      rw [List.map_cons, List.map_cons, List.filterMap_cons_none hHead]
      exact ih supply hIds
    | some l =>
      dsimp only
      generalize hDraw : supply.fresh (front ++ "." ++ l) = drawn
      obtain ⟨fresh, supply'⟩ := drawn
      dsimp only
      have hHead : (relabelled ((t.id, fresh) :: freshLabels front supply' ts) t.site).label
          = some fresh := by
        unfold relabelled
        rw [show t.site.id = t.id from rfl, List.lookup_cons_self]
      -- the others are looked for behind the first statement
      have hTail : (ts.map Stmt.site).map (relabelled ((t.id, fresh) :: freshLabels front supply' ts))
          = (ts.map Stmt.site).map (relabelled (freshLabels front supply' ts)) := by
        refine List.map_congr_left fun s hs => ?_
        obtain ⟨u, hu, rfl⟩ := List.mem_map.mp hs
        have hNe : (u.site.id == t.id) = false :=
          beq_eq_false_iff_ne.mpr fun hEq => hNew (hEq ▸ List.mem_map_of_mem hu)
        unfold relabelled
        rw [List.lookup_cons, hNe]
      rw [List.map_cons, List.map_cons, List.filterMap_cons_some hHead, hTail, ih supply' hIds,
        List.map_cons]

/-- **Labelling afresh**: a program that is labelled afresh has different labels that were not in
    use. -/
theorem labels_relabel {t : Stmt} (hIds : t.ids.Nodup) (front : String) (supply : NameSupply) :
    (t.relabel (freshLabels front supply t.nodes)).labels.Nodup
      ∧ ∀ l ∈ (t.relabel (freshLabels front supply t.nodes)).labels, l ∉ supply.used := by
  obtain ⟨_, hNodup, hFresh⟩ := freshLabels_spec front t.nodes supply
  have hLabels : (t.relabel (freshLabels front supply t.nodes)).labels
      = (freshLabels front supply t.nodes).map (·.2) := by
    rw [Stmt.labels_eq_sites, Stmt.sites_relabel]
    exact labels_freshLabels front t.nodes supply hIds
  rw [hLabels]
  refine ⟨hNodup, fun l hl => ?_⟩
  obtain ⟨p, hp, rfl⟩ := List.mem_map.mp hl
  exact hFresh p hp

end Restructure

namespace Stmt

/-! ## Simplifying -/

/-- The labels of what remains of a statement. -/
def labelsOfRest (o : Option Stmt) : List String := o.elim [] labels

theorem labels_dissolve_sublist (t : Stmt) : ((dissolve t).flatMap labels).Sublist t.labels := by
  unfold dissolve
  split <;> simp

theorem labels_simplifiedBlock (s : Site) (ts : List Stmt) :
    (labelsOfRest (simplifiedBlock s ts)).Sublist (s.label.toList ++ ts.flatMap labels) := by
  have hFlat : ((ts.flatMap dissolve).flatMap labels).Sublist (ts.flatMap labels) := by
    rw [List.flatMap_assoc]
    induction ts with
    | nil => exact .slnil
    | cons t ts ih =>
      rw [List.flatMap_cons, List.flatMap_cons]
      exact (labels_dissolve_sublist t).append ih
  unfold simplifiedBlock
  dsimp only
  split
  · exact List.nil_sublist _
  · rename_i t _ hOne
    rw [hOne, List.flatMap_singleton] at hFlat
    exact hFlat.trans (List.sublist_append_right _ _)
  · rw [labelsOfRest, Option.elim_some, labels_block]
    exact (List.Sublist.refl _).append hFlat

theorem labels_simplifiedDecl (next : Nat) (s : Site) (n : String) (b : Buffer) (o : Option Stmt) :
    (labelsOfRest (simplifiedDecl next s n b o)).Sublist (s.label.toList ++ labelsOfRest o) := by
  cases o with
  | some body => simp [simplifiedDecl, labelsOfRest]
  | none =>
    unfold simplifiedDecl
    dsimp only
    split <;> simp [labelsOfRest]

theorem labels_simplifiedBranch (r : Expr.Ranges) (s : Site) (c : Expr) (yes no : Option Stmt) :
    (labelsOfRest (simplifiedBranch r s c yes no)).Sublist
      (s.label.toList ++ (labelsOfRest yes ++ labelsOfRest no)) := by
  cases yes <;> cases no <;> simp [simplifiedBranch, labelsOfRest]

/-- What remains of a statement has no other labels, in the same order. -/
theorem labels_simplifyTo (next : Nat) : ∀ (height : Nat) (r : Expr.Ranges) (t : Stmt),
    (labelsOfRest (simplifyTo next height r t)).Sublist t.labels := by
  intro height
  induction height with
  | zero => exact fun r t => .refl _
  | succ height ih =>
    intro r t
    have hSame : (t.mapOwnExprs (Expr.simplify r)).labels = t.labels := by
      cases t <;> simp only [mapOwnExprs, labels_decl, labels_loop, labels_guard, labels_branch,
        labels_store]
      rfl
    rw [← hSame, simplifyTo]
    generalize t.mapOwnExprs (Expr.simplify r) = u
    cases u with
    | decl s n b body =>
      rw [labels_decl]
      exact (labels_simplifiedDecl next s n b _).trans ((List.Sublist.refl _).append (ih r body))
    | loop s h body =>
      rw [labels_loop]
      dsimp only
      cases h.fate with
      | gone => exact List.nil_sublist _
      | dissolved =>
        refine ((ih r _).trans ?_).trans (List.sublist_append_right _ _)
        rw [labels_of_sites (sites_substitute h.iter h.lower body)]
      | kept =>
        have hBody := ih ((h.iter, h.values r) :: r) body
        dsimp only
        generalize simplifyTo next height ((h.iter, h.values r) :: r) body = rest at hBody ⊢
        cases rest with
        | none => exact List.nil_sublist _
        | some body' =>
          show (Stmt.loop s h body').labels.Sublist _
          rw [labels_loop]
          exact (List.Sublist.refl _).append hBody
    | guard s c body =>
      rw [labels_guard]
      dsimp only
      split
      · exact (ih r body).trans (List.sublist_append_right _ _)
      · split
        · exact List.nil_sublist _
        · have hBody := ih r body
          generalize simplifyTo next height r body = rest at hBody ⊢
          cases rest with
          | none => exact List.nil_sublist _
          | some body' =>
            show (Stmt.guard s c body').labels.Sublist _
            rw [labels_guard]
            exact (List.Sublist.refl _).append hBody
    | branch s c yes no =>
      rw [labels_branch]
      dsimp only
      split
      · exact (ih r yes).trans ((List.sublist_append_left _ _).trans (List.sublist_append_right _ _))
      · split
        · exact (ih r no).trans
            ((List.sublist_append_right _ _).trans (List.sublist_append_right _ _))
        · exact (labels_simplifiedBranch r s c _ _).trans
            ((List.Sublist.refl _).append ((ih r yes).append (ih r no)))
    | block s ts =>
      rw [labels_block]
      refine (labels_simplifiedBlock s _).trans ((List.Sublist.refl _).append ?_)
      clear hSame
      induction ts with
      | nil => exact .slnil
      | cons t ts ihList =>
        have hHead := ih r t
        rw [List.filterMap_cons, List.flatMap_cons]
        cases hRest : simplifyTo next height r t with
        | none => exact ihList.trans (List.sublist_append_right _ _)
        | some t' =>
          rw [hRest] at hHead
          rw [List.flatMap_cons]
          exact hHead.append ihList
    | store s b is v => exact .refl _
    | call s f args => exact .refl _
    | hole s => exact .refl _

/-- **Simplifying** keeps some of the labels. -/
theorem labels_simplify (next : Nat) (t : Stmt) : (t.simplify next).labels.Sublist t.labels := by
  have hRest := labels_simplifyTo next t.size [] t
  unfold simplify
  generalize simplifyTo next t.size [] t = rest at hRest ⊢
  cases rest with
  | none => simp
  | some t' => exact hRest

/-! ## Updates -/

/-- The labels around a replaced statement stay. -/
theorem Replaces.exists_labels {u v t t' : Stmt} (h : Replaces u v t t') :
    ∃ before after, t.labels = before ++ u.labels ++ after
      ∧ t'.labels = before ++ v.labels ++ after :=
  h.exists_around fun _ _ hOutline => by cases hOutline <;> rfl

/-- **Updates**: labels stay different when a statement is replaced by one with its own and with new
    labels. -/
theorem nodup_labels_update {t l u : Stmt} (hIds : t.ids.Nodup) (hLabels : t.labels.Nodup)
    (hl : l ∈ t.nodes) (hu : u.labels.Nodup) (hNew : ∀ x ∈ u.labels, x ∈ l.labels ∨ x ∉ t.labels) :
    (t.update l.id fun _ => u).labels.Nodup := by
  obtain ⟨before, after, hAround, hAfterwards⟩ := (replaces_update (v := u) t hIds hl).exists_labels
  rw [hAround] at hLabels hNew
  rw [List.append_assoc, List.nodup_append, List.nodup_append] at hLabels
  obtain ⟨hBefore, ⟨_, hAfter, hRight⟩, hLeft⟩ := hLabels
  -- a label of the new statement stands neither before nor after it
  have hBeside : ∀ x ∈ u.labels, x ∉ before ∧ x ∉ after := by
    intro x hx
    rcases hNew x hx with hOld | hFresh
    · exact ⟨fun hMem => hLeft x hMem x (List.mem_append_left _ hOld) rfl,
        fun hMem => hRight x hOld x hMem rfl⟩
    · exact ⟨fun hMem => hFresh (by simp [hMem]), fun hMem => hFresh (by simp [hMem])⟩
  rw [hAfterwards, List.append_assoc, List.nodup_append, List.nodup_append]
  refine ⟨hBefore, ⟨hu, hAfter, fun x hx y hy hEq => ?_⟩, fun x hx y hy hEq => ?_⟩
  · exact (hBeside x hx).2 (hEq ▸ hy)
  · rcases List.mem_append.mp hy with hy | hy
    · exact (hBeside y hy).1 (hEq ▸ hx)
    · exact hLeft x hx y (List.mem_append_right _ hy) hEq

end Stmt

end LoopNest

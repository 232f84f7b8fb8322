import LoopNest.Proofs.PermutedCells

/-! # Orders of dimensions composed

  Permuting the dimensions of a buffer is an action of the permutations on programs: one order after
  another gives what their composition gives at once (`Restructure.varReorder_varReorder`), and the
  dimensions in their own order are the program itself (`Restructure.varReorder_range`).

  Every layer has these two laws: lists (`Expr.permuted`), places of elements (`Expr.place`),
  expressions (`Expr.permuteCells`), statements (`Stmt.permuteAccesses`) and declarations
  (`Restructure.stored`). -/

namespace LoopNest

namespace Expr

variable {α : Type} {n : String} {p q : List Nat}

/-! ## Lists and places -/

/-- The first order after the second one, as one order. -/
theorem permuted_eq_map (h : ∀ k ∈ q, k < p.length) : permuted q p = q.map fun k => p.getD k 0 := by
  unfold permuted
  rw [← List.filterMap_eq_map]
  refine List.filterMap_congr fun k hk => ?_
  rw [List.getElem?_eq_getElem (h k hk), Function.comp_apply, List.getD_eq_getElem _ _ (h k hk)]

theorem permuted_permuted {xs : List α} (h : ∀ k ∈ p, k < xs.length) :
    permuted q (permuted p xs) = permuted (permuted q p) xs := by
  have hStep : permuted q (permuted p xs) = q.filterMap fun k => p[k]?.bind (xs[·]?) :=
    List.filterMap_congr fun k _ => getElem?_permuted h k
  rw [hStep]
  unfold permuted
  rw [List.filterMap_filterMap]

theorem permuted_range (xs : List α) : permuted (List.range xs.length) xs = xs :=
  Restructure.filterMap_range xs

section orders

variable (hp : p.Perm (List.range p.length)) (hq : q.Perm (List.range p.length))

include hq

theorem permuted_order_perm : (permuted q p).Perm p := Restructure.permuted_perm hq

theorem length_permuted_order : (permuted q p).length = p.length :=
  (permuted_order_perm hq).length_eq

theorem length_order : q.length = p.length := by
  rw [hq.length_eq, List.length_range]

include hp

theorem place_place (xs : List α) : place q (place p xs) = place (permuted q p) xs := by
  have hLength := (place_perm hp xs).length_eq
  unfold place at hLength ⊢
  rw [length_permuted_order hq, length_order hq]
  by_cases hx : xs.length = p.length
  · rw [if_pos hx] at hLength ⊢
    rw [if_pos (hLength.trans hx), if_pos hx, permuted_permuted]
    exact fun k hk => hx ▸ List.mem_range.mp (hp.mem_iff.mp hk)
  · rw [if_neg hx, if_neg hx, if_neg hx]

end orders

theorem place_range (r : Nat) (xs : List α) : place (List.range r) xs = xs := by
  unfold place
  rw [List.length_range]
  split
  · rename_i hx
    rw [← hx, permuted_range]
  · rfl

/-! ## Expressions -/

theorem permuteCells_permuteCells (hp : p.Perm (List.range p.length))
    (hq : q.Perm (List.range p.length)) : ∀ e : Expr,
    (e.permuteCells n p).permuteCells n q = e.permuteCells n (permuted q p) := by
  refine Expr.ind ?int ?float ?bool ?var ?load ?unary ?binary
  case int => exact fun _ => rfl
  case float => exact fun _ => rfl
  case bool => exact fun _ => rfl
  case var => exact fun _ => rfl
  case load =>
    intro b is ih
    have hSubscripts : (is.map (permuteCells n p)).map (permuteCells n q)
        = is.map (permuteCells n (permuted q p)) := by
      rw [List.map_map]
      exact List.map_congr_left ih
    rw [permuteCells_load, permuteCells_load, permuteCells_load]
    by_cases hb : b = n
    · rw [if_pos hb, if_pos hb, if_pos hb, ← place_map, hSubscripts, place_place hp hq]
    · rw [if_neg hb, if_neg hb, if_neg hb, hSubscripts]
  case unary =>
    intro op e ih
    simp only [permuteCells, ih]
  case binary =>
    intro op a b iha ihb
    simp only [permuteCells, iha, ihb]

theorem permuteCells_range (n : String) (r : Nat) : ∀ e : Expr,
    e.permuteCells n (List.range r) = e := by
  refine Expr.ind ?int ?float ?bool ?var ?load ?unary ?binary
  case int => exact fun _ => rfl
  case float => exact fun _ => rfl
  case bool => exact fun _ => rfl
  case var => exact fun _ => rfl
  case load =>
    intro b is ih
    rw [permuteCells_load, place_range, ite_self, List.map_congr_left ih, List.map_id']
  case unary =>
    intro op e ih
    simp only [permuteCells, ih]
  case binary =>
    intro op a b iha ihb
    simp only [permuteCells, iha, ihb]

end Expr

/-! ## Statements -/

namespace Stmt

variable {n : String} {p q : List Nat}

theorem permuteAccesses_permuteAccesses (hp : p.Perm (List.range p.length))
    (hq : q.Perm (List.range p.length)) : ∀ t : Stmt,
    (t.permuteAccesses n p).permuteAccesses n q = t.permuteAccesses n (Expr.permuted q p) := by
  have hExpr : ∀ e : Expr, (e.permuteCells n p).permuteCells n q
      = e.permuteCells n (Expr.permuted q p) := Expr.permuteCells_permuteCells hp hq
  have hExprs : ∀ es : List Expr, (es.map (Expr.permuteCells n p)).map (Expr.permuteCells n q)
      = es.map (Expr.permuteCells n (Expr.permuted q p)) := by
    intro es
    rw [List.map_map]
    exact List.map_congr_left fun e _ => hExpr e
  refine Stmt.ind ?decl ?loop ?guard ?branch ?store ?call ?block ?hole
  case decl =>
    intro s b buffer body ih
    simp only [permuteAccesses, hExprs]
    split
    · rfl
    · rw [ih]
  case loop =>
    intro s head body ih
    simp only [permuteAccesses, hExpr, ih]
  case guard =>
    intro s e body ih
    simp only [permuteAccesses, hExpr, ih]
  case branch =>
    intro s e yes no ihYes ihNo
    simp only [permuteAccesses, hExpr, ihYes, ihNo]
  case store =>
    intro s b is v
    rw [permuteAccesses_store, permuteAccesses_store, permuteAccesses_store, hExpr]
    by_cases hb : b = n
    · rw [if_pos hb, if_pos hb, if_pos hb, ← Expr.place_map, hExprs, Expr.place_place hp hq]
    · rw [if_neg hb, if_neg hb, if_neg hb, hExprs]
  case call =>
    intro s f args
    simp only [permuteAccesses, List.map_map]
    refine congrArg _ (List.map_congr_left fun arg _ => ?_)
    cases arg with
    | buffer b => rfl
    | value e => exact congrArg Arg.value (hExpr e)
  case block =>
    intro s ts ih
    simp only [permuteAccesses, permuteAccessesAll_eq_map, List.map_map]
    exact congrArg _ (List.map_congr_left ih)
  case hole => exact fun _ => rfl

theorem permuteAccesses_range (n : String) (r : Nat) : ∀ t : Stmt,
    t.permuteAccesses n (List.range r) = t := by
  have hExprs : ∀ es : List Expr, es.map (Expr.permuteCells n (List.range r)) = es := by
    intro es
    rw [List.map_congr_left fun e _ => Expr.permuteCells_range n r e, List.map_id']
  refine Stmt.ind ?decl ?loop ?guard ?branch ?store ?call ?block ?hole
  case decl =>
    intro s b buffer body ih
    simp only [permuteAccesses, hExprs, ih, ite_self]
  case loop =>
    intro s head body ih
    simp only [permuteAccesses, Expr.permuteCells_range, ih]
  case guard =>
    intro s e body ih
    simp only [permuteAccesses, Expr.permuteCells_range, ih]
  case branch =>
    intro s e yes no ihYes ihNo
    simp only [permuteAccesses, Expr.permuteCells_range, ihYes, ihNo]
  case store =>
    intro s b is v
    rw [permuteAccesses_store, Expr.place_range, ite_self, hExprs, Expr.permuteCells_range]
  case call =>
    intro s f args
    rw [permuteAccesses]
    refine congrArg _ ((List.map_congr_left fun arg _ => ?_).trans (List.map_id' args))
    cases arg with
    | buffer b => rfl
    | value e => exact congrArg Arg.value (Expr.permuteCells_range n r e)
  case block =>
    intro s ts ih
    rw [permuteAccesses, permuteAccessesAll_eq_map, List.map_congr_left ih, List.map_id']
  case hole => exact fun _ => rfl

/-- Calls stay calls, and nothing else becomes one. -/
theorem isCall_permuteAccesses (n : String) (p : List Nat) : ∀ t : Stmt,
    (t.permuteAccesses n p).nodes.map isCall = t.nodes.map isCall := by
  refine Stmt.ind ?decl ?loop ?guard ?branch ?store ?call ?block ?hole
  case decl =>
    intro s b buffer body ih
    rw [permuteAccesses]
    split
    · simp [isCall]
    · simp [isCall, ih]
  case loop => exact fun s head body ih => by simp [permuteAccesses, isCall, ih]
  case guard => exact fun s e body ih => by simp [permuteAccesses, isCall, ih]
  case branch => exact fun s e yes no ihYes ihNo => by simp [permuteAccesses, isCall, ihYes, ihNo]
  case store => exact fun s b is v => rfl
  case call => exact fun s f args => rfl
  case block =>
    intro s ts ih
    rw [permuteAccesses, permuteAccessesAll_eq_map]
    simp only [nodes_block, List.map_cons, List.map_flatMap, List.flatMap_map, isCall]
    exact congrArg _ (List.flatMap_congr fun t ht => ih t ht)
  case hole => exact fun s => rfl

/-! ## Programs -/

/-- A replaced statement is found under its label when it was found there before. -/
theorem Replaces.labelled? {u v t t' : Stmt} {label : String} (h : Replaces u v t t')
    (hIds : t.ids.Nodup) (hLabel : v.label? = u.label?) (hFound : t.labelled? label = some u) :
    t'.labelled? label = some v := by
  obtain ⟨first, first', last, hOld, hNew, hFirst⟩ := h.exists_nodes
  have hHere := List.find?_some hFound
  -- nothing in front of it has the label, because numbers are different
  have hNone : ∀ w ∈ first, ¬ (w.label? == some label) = true := by
    intro w hw hSame
    have hSplit := hIds
    rw [ids, hOld, nodes_eq_cons u, List.append_assoc, List.map_append, List.nodup_append] at hSplit
    have hEarlier : first.find? (·.label? == some label) = some u := by
      have hSome : (first.find? (·.label? == some label)).isSome := List.find?_isSome.mpr ⟨w, hw, hSame⟩
      obtain ⟨x, hx⟩ := Option.isSome_iff_exists.mp hSome
      rw [Stmt.labelled?, hOld, List.append_assoc, List.find?_append, hx, Option.some_or] at hFound
      rwa [← Option.some.inj hFound]
    exact hSplit.2.2 u.id (List.mem_map_of_mem (List.mem_of_find?_eq_some hEarlier)) u.id
      (by simp) rfl
  have hNone' : first'.find? (·.label? == some label) = none := by
    rw [List.find?_eq_none]
    clear hOld hNew hFound
    induction hFirst with
    | nil => exact fun w hw => absurd hw List.not_mem_nil
    | cons hHead _ ih =>
      intro w hw
      obtain rfl | hw := List.mem_cons.mp hw
      · have hSame := hNone _ List.mem_cons_self
        cases hHead <;> exact hSame
      · exact ih (fun w hw => hNone w (List.mem_cons_of_mem _ hw)) w hw
  rw [Stmt.labelled?, hNew, List.append_assoc, List.find?_append, hNone', Option.none_or,
    nodes_eq_cons v, List.cons_append, List.find?_cons]
  have hThere : (v.label? == some label) = true := by
    rw [hLabel]
    exact hHere
  rw [hThere]

theorem Replaces.eq_self {u t t' : Stmt} (h : Replaces u u t t') : t' = t := by
  induction h with
  | here => rfl
  | decl _ _ _ _ ih | loop _ _ _ ih | guard _ _ _ ih | yes _ _ _ _ ih | no _ _ _ _ ih
  | block _ _ _ _ ih => rw [ih]

theorem mapChildren_mapChildren {t : Stmt} {f g h : Stmt → Stmt}
    (hEach : ∀ u ∈ t.children, g (f u) = h u) : (t.mapChildren f).mapChildren g = t.mapChildren h := by
  cases t <;> simp_all [mapChildren, children]

/-- What is put in a place after something else has been put there. -/
theorem update_update {i : Nat} {v w : Stmt} (hw : w.id = i) : ∀ t : Stmt,
    (t.update i fun _ => w).update i (fun _ => v) = t.update i fun _ => v := by
  refine children_ind fun t ih => ?_
  by_cases ht : t.id = i
  · rw [update_self ht, update_self ht, update_self hw]
  · rw [update_eq t, if_neg ht, update_eq (t.mapChildren _), id_mapChildren, if_neg ht, update_eq t,
      if_neg ht]
    exact mapChildren_mapChildren ih

end Stmt

namespace Restructure

variable {t : Stmt} {label n : String} {site : Site} {b : Buffer} {body : Stmt} {p q : List Nat}

/-- A declaration with its dimensions in another order. -/
def stored (site : Site) (n : String) (b : Buffer) (body : Stmt) (order : List Nat) : Stmt :=
  .decl site n { b with shape := Expr.permuted order b.shape } (body.permuteAccesses n order)

theorem stored_range : stored site n b body (List.range b.rank) = .decl site n b body := by
  unfold stored Buffer.rank
  rw [Expr.permuted_range, Stmt.permuteAccesses_range]

/-- A permutation is accepted as one. -/
theorem isPermutation_of_perm {r : Nat} (h : p.Perm (List.range r)) : isPermutation p r = true := by
  have hNodup : p.Nodup := h.nodup_iff.mpr List.nodup_range
  have hKept : p.eraseDups.Perm p :=
    (List.perm_ext_iff_of_nodup (nodup_eraseDups p) hNodup).mpr fun k => List.mem_eraseDups
  have hLength : p.length = r := by rw [h.length_eq, List.length_range]
  unfold isPermutation
  simp only [Bool.and_eq_true, beq_iff_eq, List.all_eq_true, decide_eq_true_eq]
  exact ⟨⟨hLength, fun k hk => List.mem_range.mp (h.mem_iff.mp hk)⟩, hKept.length_eq.trans hLength⟩

/-- One order after another is their composition. -/
theorem stored_stored (hp : p.Perm (List.range b.rank)) (hq : q.Perm (List.range b.rank)) :
    stored site n { b with shape := Expr.permuted p b.shape } (body.permuteAccesses n p) q
      = stored site n b body (Expr.permuted q p) := by
  have hLength : p.length = b.rank := by rw [hp.length_eq, List.length_range]
  rw [← hLength] at hp hq
  have hShape : ∀ k ∈ p, k < b.shape.length := by
    intro k hk
    have hLess := List.mem_range.mp (hp.mem_iff.mp hk)
    rwa [hLength] at hLess
  unfold stored
  rw [Expr.permuted_permuted hShape, Stmt.permuteAccesses_permuteAccesses hp hq]

/-- **Permuting succeeds** at a local buffer that is not passed to a call, for every permutation of its
    dimensions. -/
theorem varReorder_eq (hDecl : t.labelled? label = some (.decl site n b body)) (hCache : b.access = .cache)
    (hCalls : ∀ u ∈ body.nodes, u.isCall = false) (hp : p.Perm (List.range b.rank)) :
    varReorder t label p = .ok (t.update site.id fun _ => stored site n b body p) := by
  have hPassed : body.nodes.any (Stmt.passes n) = false := by
    rw [List.any_eq_false]
    intro u hu
    have hCall := hCalls u hu
    cases u <;> simp_all [Stmt.passes, Stmt.isCall]
  unfold varReorder
  simp [hDecl, hCache, isPermutation_of_perm hp, hPassed, stored]

theorem update_stored_range (hIds : t.ids.Nodup) (hDecl : .decl site n b body ∈ t.nodes) :
    (t.update site.id fun _ => stored site n b body (List.range b.rank)) = t := by
  rw [stored_range]
  exact (Stmt.replaces_update t hIds hDecl).eq_self

/-- **The dimensions in their own order** are the program itself. -/
theorem varReorder_range (hIds : t.ids.Nodup) (hDecl : t.labelled? label = some (.decl site n b body))
    (hCache : b.access = .cache) (hCalls : ∀ u ∈ body.nodes, u.isCall = false) :
    varReorder t label (List.range b.rank) = .ok t := by
  rw [varReorder_eq hDecl hCache hCalls (.refl _),
    update_stored_range hIds (List.mem_of_find?_eq_some hDecl)]

/-- **One order after another** gives what their composition gives at once. -/
theorem varReorder_varReorder (hIds : t.ids.Nodup)
    (hDecl : t.labelled? label = some (.decl site n b body)) (hCache : b.access = .cache)
    (hCalls : ∀ u ∈ body.nodes, u.isCall = false) (hp : p.Perm (List.range b.rank))
    (hq : q.Perm (List.range b.rank)) :
    varReorder (t.update site.id fun _ => stored site n b body p) label q
      = varReorder t label (Expr.permuted q p) := by
  have hLength : p.length = b.rank := by rw [hp.length_eq, List.length_range]
  have hBoth : (Expr.permuted q p).Perm (List.range b.rank) :=
    (Expr.permuted_order_perm (hLength ▸ hq)).trans hp
  have hRank : ({ b with shape := Expr.permuted p b.shape } : Buffer).rank = b.rank :=
    (permuted_perm hp).length_eq
  have hFound : (t.update site.id fun _ => stored site n b body p).labelled? label
      = some (stored site n b body p) :=
    (Stmt.replaces_update t hIds (List.mem_of_find?_eq_some hDecl)).labelled? hIds rfl hDecl
  have hNoCall : ∀ u ∈ (body.permuteAccesses n p).nodes, u.isCall = false := by
    intro u hu
    have hMem : u.isCall ∈ body.nodes.map Stmt.isCall :=
      Stmt.isCall_permuteAccesses n p body ▸ List.mem_map_of_mem hu
    obtain ⟨w, hw, hSame⟩ := List.mem_map.mp hMem
    rw [← hSame, hCalls w hw]
  have hId : (stored site n b body p).id = site.id := rfl
  rw [varReorder_eq hFound hCache hNoCall (hRank ▸ hq), stored_stored hp hq, Stmt.update_update hId,
    varReorder_eq hDecl hCache hCalls hBoth]

end Restructure

end LoopNest

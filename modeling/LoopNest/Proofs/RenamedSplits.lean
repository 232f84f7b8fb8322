import LoopNest.Proofs.SplitPlaces
import LoopNest.Proofs.TranslatedPrograms

/-! # Splits under other names

  A split draws new names for its two iterators. Which new names these are does not show in the
  canonical form of the program afterwards (`Stmt.canonicalIn_splitAt`). New are names that the program
  does not hold anywhere (`Stmt.FreeOf`), the assertions of loops included: a request does not look at
  those, so it may draw a name that an assertion holds.

  * **Scopes**: below the new loops a name stands for the same as below the same loops with other
    iterators (`SplitNames.Renames`).
  * **Replaced iterators**: expressions that have the same canonical form in such scopes may be put in
    the place of the old iterator (`Stmt.canonicalIn_substitute`). -/

namespace LoopNest

/-! ## Names in a program -/

namespace Stmt

/-- The buffers that the assertion of a loop names. -/
def asserted : Stmt → List String
  | .loop _ h _ => h.noDeps
  | _ => []

/-- The buffers that the assertions of a program name. -/
def assertedNames (t : Stmt) : List String := t.nodes.flatMap asserted

/-- A program holds none of some names. -/
def FreeOf (xs : List String) (t : Stmt) : Prop := ∀ x ∈ t.usedNames ++ t.assertedNames, x ∉ xs

namespace FreeOf

variable {xs : List String} {t u : Stmt}

theorem of_mem (h : t.FreeOf xs) (hu : u ∈ t.nodes) : u.FreeOf xs := by
  intro x hx
  refine h x (List.mem_append.mpr ((List.mem_append.mp hx).imp (fun hx => usedNames_subset hu hx) ?_))
  intro hx
  obtain ⟨w, hw, hx⟩ := List.mem_flatMap.mp hx
  exact List.mem_flatMap.mpr ⟨w, mem_nodes_trans hw hu, hx⟩

theorem child (h : t.FreeOf xs) (hu : u ∈ t.children) : u.FreeOf xs :=
  h.of_mem (mem_nodes_of_child hu (self_mem_nodes u))

theorem own (h : t.FreeOf xs) {x : String} (hx : x ∈ t.ownNames) : x ∉ xs :=
  h x (List.mem_append_left _ (mem_usedNames.mpr ⟨t, self_mem_nodes t, .inl hx⟩))

theorem asserted (h : t.FreeOf xs) {x : String} (hx : x ∈ t.asserted) : x ∉ xs :=
  h x (List.mem_append_right _ (List.mem_flatMap.mpr ⟨t, self_mem_nodes t, hx⟩))

theorem scalar (h : t.FreeOf xs) {e : Expr} (he : e ∈ t.exprs) {x : String} (hx : x ∈ e.scalars) :
    x ∉ xs :=
  h x (List.mem_append_left _ (mem_usedNames.mpr ⟨t, self_mem_nodes t, .inr ⟨e, he, .inl hx⟩⟩))

theorem buffer (h : t.FreeOf xs) {e : Expr} (he : e ∈ t.exprs) {x : String} (hx : x ∈ e.buffers) :
    x ∉ xs :=
  h x (List.mem_append_left _ (mem_usedNames.mpr ⟨t, self_mem_nodes t, .inr ⟨e, he, .inr hx⟩⟩))

theorem append {ys : List String} (hx : t.FreeOf xs) (hy : t.FreeOf ys) : t.FreeOf (xs ++ ys) :=
  fun z hz hMem => (List.mem_append.mp hMem).elim (hx z hz) (hy z hz)

end FreeOf

end Stmt

/-! ## Scopes -/

/-- In two scopes all names but some stand for the same. -/
def Referent.AgreeBeyond (xs scope scope' : List String) : Prop :=
  ∀ x, x ∉ xs → of scope x = of scope' x

theorem Referent.AgreeBeyond.cons {xs scope scope' : List String} (h : AgreeBeyond xs scope scope')
    {y y' : String} (hy : y = y' ∨ y ∈ xs ∧ y' ∈ xs) : AgreeBeyond xs (y :: scope) (y' :: scope') := by
  intro x hx
  rcases hy with rfl | ⟨hy, hy'⟩
  · by_cases hxy : x = y
    · subst hxy
      rw [of_cons_self, of_cons_self]
    · exact (of_cons_ne_eq_iff hxy hxy _ _).mpr (h x hx)
  · have hNe : ∀ z ∈ xs, x ≠ z := by
      rintro z hz rfl
      exact hx hz
    exact (of_cons_ne_eq_iff (hNe y hy) (hNe y' hy') _ _).mpr (h x hx)

namespace Restructure

/-- The iterators of the new loops. -/
def SplitNames.iters (names : SplitNames) : List String := [names.outerIter, names.innerIter]

/-- Below some loops a name stands for the same as below the same loops with other iterators.

    * **outer**, **inner**: so it is with the iterators of a split under other names;
    * **others**: and with all names that are none of these. -/
structure SplitNames.Renames (names names' : SplitNames) (scope scope' : List String) : Prop where
  outer : Referent.of scope names.outerIter = Referent.of scope' names'.outerIter
  inner : Referent.of scope names.innerIter = Referent.of scope' names'.innerIter
  others : Referent.AgreeBeyond (names.iters ++ names'.iters) scope scope'

namespace SplitNames.Renames

variable {names names' : SplitNames} {scope scope' : List String}

/-- Below one more binder of another name. -/
theorem cons (h : names.Renames names' scope scope') {y : String}
    (hy : y ∉ names.iters ++ names'.iters) : names.Renames names' (y :: scope) (y :: scope') := by
  have hNe : ∀ z ∈ names.iters ++ names'.iters, z ≠ y := by
    rintro z hz rfl
    exact hy hz
  refine ⟨?_, ?_, h.others.cons (.inl rfl)⟩
  · exact (Referent.of_cons_ne_eq_iff (hNe _ (by simp [iters])) (hNe _ (by simp [iters])) _ _).mpr
      h.outer
  · exact (Referent.of_cons_ne_eq_iff (hNe _ (by simp [iters])) (hNe _ (by simp [iters])) _ _).mpr
      h.inner

/-- Below the loops of a split. -/
theorem enter (hNames : names.outerIter ≠ names.innerIter)
    (hNames' : names'.outerIter ≠ names'.innerIter) (scope : List String) :
    names.Renames names' (names.innerIter :: names.outerIter :: scope)
      (names'.innerIter :: names'.outerIter :: scope) where
  outer := by
    rw [Referent.of_cons_ne_eq_iff hNames hNames', Referent.of_cons_self, Referent.of_cons_self]
  inner := by rw [Referent.of_cons_self, Referent.of_cons_self]
  others := by
    have hSame : Referent.AgreeBeyond (names.iters ++ names'.iters) scope scope := fun _ _ => rfl
    exact (hSame.cons (.inr ⟨by simp [iters], by simp [iters]⟩)).cons
      (.inr ⟨by simp [iters], by simp [iters]⟩)

end SplitNames.Renames

end Restructure

/-! ## Expressions -/

namespace Expr

variable {scope scope' : List String}

theorem canonicalAll_eq_map (scope : List String) (es : List Expr) :
    canonicalAll scope es = es.map (canonical scope) := by
  induction es with
  | nil => rfl
  | cons e es ih => rw [canonicalAll, ih, List.map_cons]

/-- **Replaced scalars**: the canonical form in a scope depends on what the names stand for there,
    and on the canonical form of what is put in. -/
theorem canonical_substitute {x : String} {w w' : Expr} (hw : w.canonical scope = w'.canonical scope') :
    ∀ e : Expr, (∀ y ∈ e.scalars, y ≠ x → Referent.of scope y = Referent.of scope' y) →
      (∀ b ∈ e.buffers, Referent.of scope b = Referent.of scope' b) →
      (e.substitute [(x, w)]).canonical scope = (e.substitute [(x, w')]).canonical scope' := by
  refine Expr.ind ?int ?float ?bool ?var ?load ?unary ?binary
  case int => exact fun _ _ _ => rfl
  case float => exact fun _ _ _ => rfl
  case bool => exact fun _ _ _ => rfl
  case var =>
    intro y hScalars _
    by_cases hy : y = x
    · simpa [substitute, hy] using hw
    · have hOther : (y == x) = false := beq_eq_false_iff_ne.mpr hy
      have hSame := hScalars y (by simp) hy
      simp [substitute, List.lookup_cons, hOther, canonical, hSame]
  case load =>
    intro b is ih hScalars hBuffers
    rw [scalars_load] at hScalars
    rw [buffers_load] at hBuffers
    have hSubscripts : ∀ i ∈ is,
        (i.substitute [(x, w)]).canonical scope = (i.substitute [(x, w')]).canonical scope' :=
      fun i hi => ih i hi (fun y hy => hScalars y (List.mem_flatMap.mpr ⟨i, hi, hy⟩))
        fun b' hb' => hBuffers b' (List.mem_cons_of_mem _ (List.mem_flatMap.mpr ⟨i, hi, hb'⟩))
    simp only [substitute, substituteAll_eq_map, canonical, canonicalAll_eq_map, List.map_map,
      hBuffers b List.mem_cons_self, CanonicalExpr.load.injEq, true_and]
    exact List.map_congr_left hSubscripts
  case unary =>
    intro op e ih hScalars hBuffers
    rw [substitute, substitute, canonical, canonical, ih (by simpa using hScalars)
      (by simpa using hBuffers)]
  case binary =>
    intro op a b iha ihb hScalars hBuffers
    rw [scalars_binary] at hScalars
    rw [buffers_binary] at hBuffers
    rw [substitute, substitute, canonical, canonical,
      iha (fun y hy => hScalars y (List.mem_append_left _ hy))
        (fun y hy => hBuffers y (List.mem_append_left _ hy)),
      ihb (fun y hy => hScalars y (List.mem_append_right _ hy))
        (fun y hy => hBuffers y (List.mem_append_right _ hy))]

/-- An expression without some names has one canonical form in scopes that agree on all others. -/
theorem canonical_congr {xs : List String} (h : Referent.AgreeBeyond xs scope scope') {e : Expr}
    (hScalars : ∀ x ∈ e.scalars, x ∉ xs) (hBuffers : ∀ b ∈ e.buffers, b ∉ xs) :
    e.canonical scope = e.canonical scope' := by
  -- nothing is put in for a scalar that does not occur
  obtain ⟨x, hx⟩ : ∃ x, x ∉ e.scalars := ⟨_, (NameSupply.mk e.scalars).choose_not_mem ""⟩
  have hZero : (Expr.int 0).canonical scope = (Expr.int 0).canonical scope' := rfl
  have hSame := canonical_substitute (x := x) hZero e (fun y hy _ => h y (hScalars y hy))
    fun b hb => h b (hBuffers b hb)
  rwa [substitute_eq_self hx] at hSame

/-- Sums that are built alike have one canonical form when their parts have. -/
theorem canonical_plus {a b b' : Expr} (ha : a.canonical scope = a.canonical scope')
    (hb : b.int? = none) (hb' : b'.int? = none) (hSame : b.canonical scope = b'.canonical scope') :
    (a.plus b).canonical scope = (a.plus b').canonical scope' := by
  have hSum : (a.add b).canonical scope = (a.add b').canonical scope' := by
    rw [add, add, canonical, canonical, ha, hSame]
  unfold plus
  rw [hb, hb']
  cases a.int? with
  | none => exact hSum
  | some v =>
    by_cases hv : v = 0
    · simpa [hv] using hSame
    · simpa [hv] using hSum

end Expr

/-! ## Statements -/

namespace Stmt

open Restructure

/-- No loop lies inside a loop with the same iterator. -/
def NestsApart (t : Stmt) : Prop :=
  ∀ s h body, .loop s h body ∈ t.nodes → ¬ body.Binds h.iter

theorem NestsApart.of_mem {t u : Stmt} (h : t.NestsApart) (hu : u ∈ t.nodes) : u.NestsApart :=
  fun s head body hLoop => h s head body (mem_nodes_trans hLoop hu)

theorem NestsApart.child {t u : Stmt} (h : t.NestsApart) (hu : u ∈ t.children) : u.NestsApart :=
  h.of_mem (mem_nodes_of_child hu (self_mem_nodes u))

section rename

variable {names names' : SplitNames} {scope scope' : List String}

/-- The buffers of an assertion stand for the same in both scopes. -/
theorem map_of_asserted {s : Site} {h : LoopHead} {body : Stmt}
    (hFree : (Stmt.loop s h body).FreeOf (names.iters ++ names'.iters))
    (hScopes : names.Renames names' scope scope') :
    h.noDeps.map (Referent.of scope) = h.noDeps.map (Referent.of scope') :=
  List.map_congr_left fun x hx => hScopes.others x (hFree.asserted (by exact hx))

/-- **Replaced scalars**: when no loop binds the scalar, the canonical form depends on what the names
    stand for, and on the canonical form of what is put in. -/
theorem canonicalIn_substitute {x : String} {w w' : Expr}
    (hw : ∀ {scope scope'}, names.Renames names' scope scope' →
      w.canonical scope = w'.canonical scope') :
    ∀ (t : Stmt) {scope scope' : List String}, t.FreeOf (names.iters ++ names'.iters) → ¬ t.Binds x →
      names.Renames names' scope scope' →
      (t.substitute x w).canonicalIn scope = (t.substitute x w').canonicalIn scope' := by
  have hExpr : ∀ {t : Stmt} {scope scope'}, t.FreeOf (names.iters ++ names'.iters) →
      names.Renames names' scope scope' → ∀ e ∈ t.exprs,
      (e.substitute [(x, w)]).canonical scope = (e.substitute [(x, w')]).canonical scope' :=
    fun hFree hScopes e he => Expr.canonical_substitute (hw hScopes) e
      (fun y hy _ => hScopes.others y (hFree.scalar he hy))
      fun b hb => hScopes.others b (hFree.buffer he hb)
  have hExprs : ∀ {t : Stmt} {scope scope'} {es : List Expr}, t.FreeOf (names.iters ++ names'.iters) →
      names.Renames names' scope scope' → (∀ e ∈ es, e ∈ t.exprs) →
      Expr.canonicalAll scope (es.map (Expr.substitute [(x, w)]))
        = Expr.canonicalAll scope' (es.map (Expr.substitute [(x, w')])) := by
    intro t scope scope' es hFree hScopes hes
    rw [Expr.canonicalAll_eq_map, Expr.canonicalAll_eq_map, List.map_map, List.map_map]
    exact List.map_congr_left fun e he => hExpr hFree hScopes e (hes e he)
  refine Stmt.ind ?decl ?loop ?guard ?branch ?store ?call ?block ?hole
  case decl =>
    intro s n b body ih scope scope' hFree hx hScopes
    have hNew : n ∉ names.iters ++ names'.iters := hFree.own (by simp [ownNames])
    have hBody := ih (hFree.child (by simp [children])) (fun h => hx (binds_decl.mpr h))
      (hScopes.cons hNew)
    rw [substitute, substitute, canonicalIn, canonicalIn, hBody,
      hExprs hFree hScopes fun e he => by exact he]
  case loop =>
    intro s h body ih scope scope' hFree hx hScopes
    rw [binds_loop, not_or] at hx
    have hNew : h.iter ∉ names.iters ++ names'.iters := hFree.own (by simp [ownNames])
    have hBody := ih (hFree.child (by simp [children])) hx.2 (hScopes.cons hNew)
    rw [substitute, substitute, if_neg hx.1, if_neg hx.1, canonicalIn, canonicalIn, hBody,
      map_of_asserted hFree hScopes, hExpr hFree hScopes h.lower (by simp [exprs]),
      hExpr hFree hScopes h.upper (by simp [exprs])]
  case guard =>
    intro s c body ih scope scope' hFree hx hScopes
    have hBody := ih (hFree.child (by simp [children])) (fun h => hx (binds_guard.mpr h)) hScopes
    rw [substitute, substitute, canonicalIn, canonicalIn, hBody,
      hExpr hFree hScopes c (by simp [exprs])]
  case branch =>
    intro s c yes no ihYes ihNo scope scope' hFree hx hScopes
    rw [binds_branch, not_or] at hx
    have hYes := ihYes (hFree.child (by simp [children])) hx.1 hScopes
    have hNo := ihNo (hFree.child (by simp [children])) hx.2 hScopes
    rw [substitute, substitute, canonicalIn, canonicalIn, hYes, hNo,
      hExpr hFree hScopes c (by simp [exprs])]
  case store =>
    intro s b is v scope scope' hFree hx hScopes
    rw [substitute, substitute, canonicalIn, canonicalIn,
      hScopes.others b (hFree.own (by simp [ownNames])),
      hExprs hFree hScopes fun e he => List.mem_append_left _ he,
      hExpr hFree hScopes v (by simp [exprs])]
  case call =>
    intro s f args scope scope' hFree hx hScopes
    have hArgs : (args.map (mapArg (Expr.substitute [(x, w)]))).map (Arg.canonical scope)
        = (args.map (mapArg (Expr.substitute [(x, w')]))).map (Arg.canonical scope') := by
      rw [List.map_map, List.map_map]
      refine List.map_congr_left fun a ha => ?_
      cases a with
      | buffer b =>
        have hBuffer : b ∈ (Stmt.call s f args).ownNames :=
          List.mem_cons_of_mem _ (List.mem_filterMap.mpr ⟨.buffer b, ha, rfl⟩)
        exact congrArg CanonicalArg.buffer (hScopes.others b (hFree.own hBuffer))
      | value e =>
        have hValue : e ∈ (Stmt.call s f args).exprs := List.mem_filterMap.mpr ⟨.value e, ha, rfl⟩
        exact congrArg CanonicalArg.value (hExpr hFree hScopes e hValue)
    rw [substitute, substitute, canonicalIn, canonicalIn, hArgs]
  case block =>
    intro s ts ih scope scope' hFree hx hScopes
    rw [substitute, substitute, canonicalIn, canonicalIn, substituteAll_eq_map, substituteAll_eq_map,
      canonicalInAll_eq_flatMap, canonicalInAll_eq_flatMap, List.flatMap_map, List.flatMap_map]
    exact List.flatMap_congr fun t ht => ih t ht (hFree.child (by exact ht))
      (fun h => hx (binds_block.mpr ⟨t, ht, h⟩)) hScopes
  case hole => exact fun s scope scope' _ _ _ => rfl

/-! ## Splits -/

variable {r : SplitBy} {k : Int} {l : LabelledLoop}

/-- What is made of the bounds and a constant count holds no name that the loop does not hold. -/
theorem free_of_madeOf (hCount : r.count = .int k) {xs : List String} (hFree : l.stmt.FreeOf xs)
    {e : Expr} (he : e.MadeOf (governing l r.count)) :
    (∀ x ∈ e.scalars, x ∉ xs) ∧ ∀ b ∈ e.buffers, b ∉ xs := by
  have hOwn : ∀ d ∈ governing l r.count, d ∈ l.stmt.exprs ∨ d = .int k := by
    intro d hd
    rw [hCount] at hd
    simpa [governing, LabelledLoop.stmt, exprs, or_assoc] using hd
  refine ⟨fun x hx => ?_, fun b hb => ?_⟩
  · obtain ⟨d, hd, hx⟩ := he.1 x hx
    rcases hOwn d hd with hd | rfl
    · exact hFree.scalar hd hx
    · cases hx
  · obtain ⟨d, hd, hb⟩ := he.2 b hb
    rcases hOwn d hd with hd | rfl
    · exact hFree.buffer hd hb
    · cases hb

/-- The old iterator is put together alike. -/
theorem canonical_oldIterator (hCount : r.count = .int k)
    (hFree : l.stmt.FreeOf (names.iters ++ names'.iters)) (hScopes : names.Renames names' scope scope') :
    (oldIterator l r names).canonical scope = (oldIterator l r names').canonical scope' := by
  have hMade : ∀ {e : Expr}, e.MadeOf (governing l r.count) → e.canonical scope = e.canonical scope' :=
    fun he => Expr.canonical_congr hScopes.others (free_of_madeOf hCount hFree he).1
      (free_of_madeOf hCount hFree he).2
  have hLower : l.head.lower.canonical scope = l.head.lower.canonical scope' :=
    hMade (.of_mem (by simp [governing]))
  refine Expr.canonical_plus hLower rfl rfl ?_
  simp only [Expr.add, Expr.mul, Expr.canonical, hScopes.outer, hScopes.inner,
    hMade (newCounts_madeOf l r).2]

/-- Two splits of a loop that differ in the names of the new iterators. -/
theorem canonicalIn_splitLoop (hCount : r.count = .int k)
    (hNames : names.outerIter ≠ names.innerIter) (hNames' : names'.outerIter ≠ names'.innerIter)
    (hFree : l.stmt.FreeOf (names.iters ++ names'.iters)) (hApart : ¬ l.body.Binds l.head.iter)
    (scope : List String) :
    (splitLoop l r names).canonicalIn scope = (splitLoop l r names').canonicalIn scope := by
  have hScopes := SplitNames.Renames.enter hNames hNames' scope
  have hOld := canonical_oldIterator hCount hFree hScopes
  have hBody : l.body.FreeOf (names.iters ++ names'.iters) :=
    hFree.child (by simp [children, LabelledLoop.stmt])
  have hReplaced := canonicalIn_substitute (x := l.head.iter) (canonical_oldIterator hCount hFree)
    l.body hBody hApart hScopes
  have hUpper : l.head.upper.canonical (names.innerIter :: names.outerIter :: scope)
      = l.head.upper.canonical (names'.innerIter :: names'.outerIter :: scope) :=
    Expr.canonical_congr hScopes.others
      (fun x hx => hFree.scalar (e := l.head.upper) (by simp [LabelledLoop.stmt, exprs]) hx)
      fun b hb => hFree.buffer (e := l.head.upper) (by simp [LabelledLoop.stmt, exprs]) hb
  have hNewBody : (newBody l r names).canonicalIn (names.innerIter :: names.outerIter :: scope)
      = (newBody l r names').canonicalIn (names'.innerIter :: names'.outerIter :: scope) := by
    unfold newBody
    dsimp only
    split
    · exact hReplaced
    · rw [canonicalIn, canonicalIn, hReplaced, Expr.lessThan, Expr.lessThan, Expr.canonical,
        Expr.canonical, hOld, hUpper]
  -- the trip count of the inner loop lies below the outer loop only
  have hOuterOnly : Referent.AgreeBeyond (names.iters ++ names'.iters) (names.outerIter :: scope)
      (names'.outerIter :: scope) :=
    Referent.AgreeBeyond.cons (fun _ _ => rfl)
      (.inr ⟨by simp [SplitNames.iters], by simp [SplitNames.iters]⟩)
  have hInnerCount := free_of_madeOf hCount hFree (newCounts_madeOf l r).2
  rw [splitLoop_eq, splitLoop_eq, canonicalIn, canonicalIn, newInner, newInner, canonicalIn,
    canonicalIn, hNewBody, Expr.canonical_congr hOuterOnly hInnerCount.1 hInnerCount.2]
  rfl

/-- **Names of a split**: which new names the iterators of a split have does not show in the canonical
    form. -/
theorem canonicalIn_splitAt (hCount : r.count = .int k) (hNames : names.outerIter ≠ names.innerIter)
    (hNames' : names'.outerIter ≠ names'.innerIter) (label : String) :
    ∀ (t : Stmt) (scope : List String), t.FreeOf (names.iters ++ names'.iters) → t.NestsApart →
      (t.splitAt label r names).canonicalIn scope = (t.splitAt label r names').canonicalIn scope := by
  refine Stmt.ind ?decl ?loop ?guard ?branch ?store ?call ?block ?hole
  case decl =>
    intro s n b body ih scope hFree hApart
    rw [splitAt_decl, splitAt_decl, canonicalIn, canonicalIn,
      ih _ (hFree.child (by simp [children])) (hApart.child (by simp [children]))]
  case loop =>
    intro s h body ih scope hFree hApart
    by_cases hs : s.label = some label
    · rw [splitAt_loop_of_label r names hs, splitAt_loop_of_label r names' hs]
      have hHere : ¬ body.Binds h.iter := hApart s h body (self_mem_nodes _)
      exact canonicalIn_splitLoop (l := ⟨s, h, body⟩) hCount hNames hNames' hFree hHere scope
    · rw [splitAt_loop_of_ne r names hs, splitAt_loop_of_ne r names' hs, canonicalIn, canonicalIn,
        ih _ (hFree.child (by simp [children])) (hApart.child (by simp [children]))]
  case guard =>
    intro s c body ih scope hFree hApart
    rw [splitAt_guard, splitAt_guard, canonicalIn, canonicalIn,
      ih _ (hFree.child (by simp [children])) (hApart.child (by simp [children]))]
  case branch =>
    intro s c yes no ihYes ihNo scope hFree hApart
    rw [splitAt_branch, splitAt_branch, canonicalIn, canonicalIn,
      ihYes _ (hFree.child (by simp [children])) (hApart.child (by simp [children])),
      ihNo _ (hFree.child (by simp [children])) (hApart.child (by simp [children]))]
  case store => exact fun s b is v scope _ _ => rfl
  case call => exact fun s f args scope _ _ => rfl
  case block =>
    intro s ts ih scope hFree hApart
    rw [splitAt_block, splitAt_block, canonicalIn, canonicalIn, canonicalInAll_eq_flatMap,
      canonicalInAll_eq_flatMap, List.flatMap_map, List.flatMap_map]
    exact List.flatMap_congr fun t ht =>
      ih t ht scope (hFree.child (by exact ht)) (hApart.child (by exact ht))
  case hole => exact fun s scope _ _ => rfl

end rename

end Stmt

end LoopNest

import LoopNest.Proofs.DistinctLabels
import LoopNest.Proofs.ScopedNames
import LoopNest.Proofs.SimplifiedExprs

/-! # Rewrites that keep scopes

  A rewrite keeps scopes when it binds no other names and leaves a statement scoped in whatever scope
  it was scoped before (`Stmt.KeepsScopes`). Such a rewrite may be made anywhere in a cleanly named
  program.

  * **Expressions**: statements with other expressions that are made of the same names
    (`Stmt.keepsScopes_of_parts`), among them permuted accesses.
  * **Simplification** (`Stmt.KeepsScopes.simplify`): what remains of a statement keeps its scopes;
    where a loop gives way to its body, its lower bound is scoped there in place of the iterator.
  * **Perfect nests** (`Restructure.KeepsScopes.permuted`): whatever lies between two loops of a chain
    binds nothing, and the bounds of its loops do not depend on each other, so that the loops may
    stand in any order. -/

namespace LoopNest

variable {bound around : List Symbol}

namespace Stmt

variable {t t' u v : Stmt}

/-- A rewrite that keeps scopes.

    * **binders**: what is bound was bound before;
    * **scope**: what was scoped stays scoped. -/
structure KeepsScopes (t t' : Stmt) : Prop where
  binders : t'.binders ⊆ t.binders
  scope : ∀ {bound around : List Symbol}, t.Scoped bound around → t'.Scoped bound around

namespace KeepsScopes

theorem refl (t : Stmt) : t.KeepsScopes t := ⟨fun _ hx => hx, fun h => h⟩

theorem trans (h : t.KeepsScopes u) (h' : u.KeepsScopes v) : t.KeepsScopes v :=
  ⟨fun _ hx => h.binders (h'.binders hx), fun hScoped => h'.scope (h.scope hScoped)⟩

/-- What keeps the scopes of a cleanly named program is cleanly named. -/
theorem cleanlyNamed (h : t.KeepsScopes t') (hNamed : t.CleanlyNamed) : t'.CleanlyNamed :=
  (h.scope hNamed).of_bound fun _ _ hx => h.binders hx

/-- Statements of a cleanly named program may be rewritten. -/
theorem update (h : u.KeepsScopes v) (hNamed : t.CleanlyNamed) (hIds : t.ids.Nodup)
    (hu : u ∈ t.nodes) : (t.update u.id fun _ => v).CleanlyNamed :=
  hNamed.update hIds hu (fun _ hx => .inl (h.binders hx)) fun _ _ _ hScoped => h.scope hScoped

end KeepsScopes

/-! ## Statements with other parts -/

/-- A statement may have other expressions that are made of the names in its own ones, and other
    statements below it that keep the scopes of its own ones. -/
theorem keepsScopes_of_parts (hBinder : t'.binder? = t.binder?) (hTarget : t'.target? = t.target?)
    (hExprs : ∀ e ∈ t'.exprs, e.MadeOf t.exprs)
    (hChildren : ∀ u' ∈ t'.children, ∃ u ∈ t.children, u.KeepsScopes u') : t.KeepsScopes t' where
  binders := by
    intro x hx
    rw [binders_eq_append, List.mem_append] at hx ⊢
    rcases hx with hx | hx
    · exact .inl (hBinder ▸ hx)
    · obtain ⟨u', hu', hx⟩ := List.mem_flatMap.mp hx
      obtain ⟨u, hu, hKeeps⟩ := hChildren u' hu'
      exact .inr (List.mem_flatMap.mpr ⟨u, hu, hKeeps.binders hx⟩)
  scope := by
    intro bound around h
    refine .intro (fun x hx => ?_) (fun x hx => h.apart x (hBinder ▸ hx)) fun u' hu' => ?_
    · apply h.uses x
      rcases List.mem_append.mp hx with hx | hx
      · exact List.mem_append_left _ (hTarget ▸ hx)
      · obtain ⟨e, he, hx⟩ := List.mem_flatMap.mp hx
        obtain ⟨d, hd, hx⟩ := (hExprs e he).symbols hx
        exact List.mem_append_right _ (List.mem_flatMap.mpr ⟨d, hd, hx⟩)
    · obtain ⟨u, hu, hKeeps⟩ := hChildren u' hu'
      rw [hBinder]
      exact hKeeps.scope (h.inner u hu)

/-- A statement that binds nothing may give way to one below it. -/
theorem keepsScopes_child (hBinder : t.binder? = none) (hu : u ∈ t.children) : t.KeepsScopes u where
  binders := binders_subset_child hu
  scope := by
    intro bound around h
    have hInner := h.inner u hu
    rwa [hBinder] at hInner

/-- A statement may be dropped. -/
theorem keepsScopes_empty (t : Stmt) (s : Site) : t.KeepsScopes (.block s []) where
  binders := by simp
  scope _ := scoped_block.mpr fun _ hu => absurd hu List.not_mem_nil

/-- The statements of a block may be rewritten, and dropped. -/
theorem keepsScopes_block {s s' : Site} {ts us : List Stmt}
    (h : ∀ u ∈ us, ∃ t ∈ ts, t.KeepsScopes u) : (Stmt.block s ts).KeepsScopes (.block s' us) :=
  keepsScopes_of_parts rfl rfl (fun _ he => absurd he List.not_mem_nil) h

/-- Other expressions with the same names. -/
theorem keepsScopes_mapOwnExprs {f : Expr → Expr} (hf : ∀ e, (f e).MadeOf [e]) (t : Stmt) :
    t.KeepsScopes (t.mapOwnExprs f) := by
  have hMap : ∀ e ∈ (t.mapOwnExprs f).exprs, ∃ d ∈ t.exprs, e = f d := by
    intro e he
    cases t with
    | decl s n b body =>
      obtain ⟨d, hd, rfl⟩ := List.mem_map.mp he
      exact ⟨d, hd, rfl⟩
    | loop s h body =>
      rcases List.mem_cons.mp he with rfl | he
      · exact ⟨h.lower, by simp [exprs], rfl⟩
      · exact ⟨h.upper, by simp [exprs], List.mem_singleton.mp he⟩
    | guard s c body => exact ⟨c, by simp [exprs], List.mem_singleton.mp he⟩
    | branch s c yes no => exact ⟨c, by simp [exprs], List.mem_singleton.mp he⟩
    | store s b is v =>
      rcases List.mem_append.mp he with he | he
      · obtain ⟨d, hd, rfl⟩ := List.mem_map.mp he
        exact ⟨d, by simp [exprs, hd], rfl⟩
      · exact ⟨v, by simp [exprs], List.mem_singleton.mp he⟩
    | call s g args =>
      obtain ⟨arg, hArg, hValue⟩ := List.mem_filterMap.mp he
      obtain ⟨arg', hArg', rfl⟩ := List.mem_map.mp hArg
      cases arg' with
      | buffer b => cases hValue
      | value d =>
        cases hValue
        exact ⟨d, List.mem_filterMap.mpr ⟨_, hArg', rfl⟩, rfl⟩
    | block s ts => cases he
    | hole s => cases he
  refine keepsScopes_of_parts (by cases t <;> rfl) (by cases t <;> rfl) (fun e he => ?_)
    fun u hu => ⟨u, by cases t <;> exact hu, .refl u⟩
  obtain ⟨d, hd, rfl⟩ := hMap e he
  exact (hf d).single (.of_mem hd)

end Stmt

/-! ## Permuted accesses -/

theorem Expr.mem_of_permuted {α : Type} {order : List Nat} {xs : List α} {x : α}
    (h : x ∈ permuted order xs) : x ∈ xs := by
  obtain ⟨i, _, hx⟩ := List.mem_filterMap.mp h
  exact List.mem_of_getElem? hx

theorem Expr.permuteCellsAll_eq_map (n : String) (order : List Nat) (es : List Expr) :
    permuteCellsAll n order es = es.map (permuteCells n order) := by
  induction es with
  | nil => rfl
  | cons e es ih => simp [permuteCellsAll, ih]

theorem Expr.permuteCells_madeOf (n : String) (order : List Nat) :
    ∀ e : Expr, (e.permuteCells n order).MadeOf [e] := by
  refine Expr.ind ?_ ?_ ?_ ?_ ?_ ?_ ?_
  · exact fun _ => .refl _
  · exact fun _ => .refl _
  · exact fun _ => .refl _
  · exact fun _ => .refl _
  · intro b is ih
    have hEach : ∀ j ∈ is.map (permuteCells n order), j.MadeOf [.load b is] := by
      intro j hj
      obtain ⟨i, hi, rfl⟩ := List.mem_map.mp hj
      exact (ih i hi).single (.subscript b hi)
    rw [permuteCells, permuteCellsAll_eq_map]
    split
    · exact .load fun j hj => hEach j (mem_of_permuted hj)
    · exact .load hEach
  · intro op e ih
    exact (ih.single (.operand op e)).unary op
  · intro op a b iha ihb
    exact (iha.single (.left op a b)).binary (ihb.single (.right op a b)) op

namespace Stmt

variable {t t' u v : Stmt}

/-- Statements whose accesses are permuted. -/
theorem keepsScopes_permuteAccesses (n : String) (order : List Nat) :
    ∀ t : Stmt, t.KeepsScopes (t.permuteAccesses n order) := by
  have hEach : ∀ {es : List Expr} {e : Expr}, e ∈ es.map (Expr.permuteCells n order) →
      e.MadeOf es := by
    intro es e he
    obtain ⟨d, hd, rfl⟩ := List.mem_map.mp he
    exact (Expr.permuteCells_madeOf n order d).single (.of_mem hd)
  have hOwn : ∀ {t : Stmt} {e : Expr}, e ∈ t.exprs → (e.permuteCells n order).MadeOf t.exprs :=
    fun he => (Expr.permuteCells_madeOf n order _).single (.of_mem he)
  refine Stmt.ind ?decl ?loop ?guard ?branch ?store ?call ?block ?hole
  case decl =>
    intro s x b body ih
    rw [permuteAccesses]
    refine keepsScopes_of_parts rfl rfl (fun e he => hEach he) fun u hu => ⟨body, by simp [children], ?_⟩
    rw [List.mem_singleton.mp hu]
    split
    · exact .refl body
    · exact ih
  case loop =>
    intro s h body ih
    rw [permuteAccesses]
    refine keepsScopes_of_parts rfl rfl (fun e he => hEach he) fun u hu => ⟨body, by simp [children], ?_⟩
    rw [List.mem_singleton.mp hu]
    exact ih
  case guard =>
    intro s c body ih
    rw [permuteAccesses]
    refine keepsScopes_of_parts rfl rfl (fun e he => hEach he) fun u hu => ⟨body, by simp [children], ?_⟩
    rw [List.mem_singleton.mp hu]
    exact ih
  case branch =>
    intro s c yes no ihYes ihNo
    rw [permuteAccesses]
    refine keepsScopes_of_parts rfl rfl (fun e he => hEach he) fun u hu => ?_
    rcases List.mem_cons.mp hu with rfl | hu
    · exact ⟨yes, by simp [children], ihYes⟩
    · rw [List.mem_singleton.mp hu]
      exact ⟨no, by simp [children], ihNo⟩
  case store =>
    intro s b is v
    rw [permuteAccesses]
    refine keepsScopes_of_parts rfl rfl (fun e he => ?_) fun u hu => absurd hu List.not_mem_nil
    rcases List.mem_append.mp he with he | he
    · have hMapped : e ∈ is.map (Expr.permuteCells n order) := by
        split at he
        · exact Expr.mem_of_permuted he
        · exact he
      exact (hEach hMapped).mono (List.subset_append_left _ _)
    · rw [List.mem_singleton.mp he]
      exact hOwn (t := .store s b is v) (by simp [exprs])
  case call =>
    intro s f args
    exact keepsScopes_mapOwnExprs (Expr.permuteCells_madeOf n order) (.call s f args)
  case block =>
    intro s ts ih
    rw [permuteAccesses, permuteAccessesAll_eq_map]
    refine keepsScopes_block fun u hu => ?_
    obtain ⟨w, hw, rfl⟩ := List.mem_map.mp hu
    exact ⟨w, hw, ih w hw⟩
  case hole => exact fun s => .refl _

/-! ## Simplification -/

/-- A loop may give way to its body when its lower bound takes the place of the iterator. -/
theorem keepsScopes_dissolved (s : Site) (h : LoopHead) (body : Stmt) :
    (Stmt.loop s h body).KeepsScopes (body.substitute h.iter h.lower) where
  binders := by
    rw [binders_substitute, binders_loop]
    exact List.subset_cons_self _ _
  scope := by
    intro bound around hLoop
    obtain ⟨hLower, _, hApart, hBody⟩ := scoped_loop.mp hLoop
    refine hBody.substitute (fun hMem => hBody.not_mem_around _ hMem List.mem_cons_self)
      (fun y hy hne => ?_) (fun _ _ hMem => hMem) (fun y hy hMem => ?_) hLower
    · exact (List.mem_cons.mp hy).resolve_left hne
    · exact hBody.not_mem_around y hy (List.mem_cons_of_mem _ hMem)

theorem keepsScopes_dissolve (hu : u ∈ t.dissolve) : t.KeepsScopes u := by
  unfold dissolve at hu
  split at hu
  · rw [List.mem_singleton.mp hu]
    exact .refl _
  · exact keepsScopes_child rfl hu
  · rw [List.mem_singleton.mp hu]
    exact .refl _

/-- What remains of a statement keeps its scopes. -/
theorem keepsScopes_simplifyTo (next : Nat) : ∀ (height : Nat) (r : Expr.Ranges) (t : Stmt),
    ∀ t' ∈ simplifyTo next height r t, t.KeepsScopes t' := by
  intro height
  induction height with
  | zero =>
    intro r t t' h
    cases h
    exact .refl t
  | succ height ih =>
    intro r t t' h
    refine (keepsScopes_mapOwnExprs (Expr.simplify_madeOf r) t).trans ?_
    rw [simplifyTo] at h
    generalize t.mapOwnExprs (Expr.simplify r) = u at h ⊢
    -- a statement with what remains of its body
    have hBody : ∀ {u u' body body' : Stmt} {r : Expr.Ranges}, u'.binder? = u.binder? →
        u'.target? = u.target? → u'.exprs = u.exprs → u.children = [body] → u'.children = [body'] →
        body' ∈ simplifyTo next height r body → u.KeepsScopes u' := by
      intro u u' body body' r hBinder hTarget hExprs hOld hNew hRest
      refine keepsScopes_of_parts hBinder hTarget (fun e he => .of_mem (hExprs ▸ he)) fun w hw => ?_
      rw [hNew, List.mem_singleton] at hw
      exact ⟨body, by simp [hOld], hw ▸ ih _ _ _ hRest⟩
    cases u with
    | decl s n b body =>
      dsimp only at h
      cases hRest : simplifyTo next height r body with
      | none =>
        rw [hRest, simplifiedDecl] at h
        split at h
        · cases h
        · cases h
          refine keepsScopes_of_parts rfl rfl (fun e he => .of_mem he) fun w hw => ?_
          rw [List.mem_singleton.mp hw]
          exact ⟨body, by simp [children], keepsScopes_empty _ _⟩
      | some body' =>
        rw [hRest] at h
        cases h
        exact hBody rfl rfl rfl rfl rfl hRest
    | loop s head body =>
      dsimp only at h
      cases hFate : head.fate with
      | gone =>
        rw [hFate] at h
        cases h
      | dissolved =>
        rw [hFate] at h
        exact (keepsScopes_dissolved s head body).trans (ih _ _ _ h)
      | kept =>
        rw [hFate] at h
        obtain ⟨body', hRest, rfl⟩ := Option.map_eq_some_iff.mp h
        exact hBody rfl rfl rfl rfl rfl hRest
    | guard s c body =>
      dsimp only at h
      split at h
      · exact (keepsScopes_child rfl (by simp [children])).trans (ih _ _ _ h)
      · split at h
        · cases h
        · obtain ⟨body', hRest, rfl⟩ := Option.map_eq_some_iff.mp h
          exact hBody rfl rfl rfl rfl rfl hRest
    | branch s c yes no =>
      dsimp only at h
      split at h
      · exact (keepsScopes_child rfl (by simp [children])).trans (ih r yes _ h)
      · split at h
        · exact (keepsScopes_child rfl (by simp [children])).trans (ih r no _ h)
        · have hYes := ih r yes
          have hNo := ih r no
          generalize simplifyTo next height r yes = restYes at h hYes
          generalize simplifyTo next height r no = restNo at h hNo
          cases restYes with
          | none =>
            cases restNo with
            | none => cases h
            | some no' =>
              cases h
              refine keepsScopes_of_parts rfl rfl (fun e he => ?_) fun w hw => ?_
              · rw [List.mem_singleton.mp he]
                exact (Expr.simplify_madeOf r _).single ((Expr.MadeOf.refl c).unary .not)
              · rw [List.mem_singleton.mp hw]
                exact ⟨no, by simp [children], hNo no' rfl⟩
          | some yes' =>
            cases restNo with
            | none =>
              cases h
              refine keepsScopes_of_parts rfl rfl (fun e he => .of_mem he) fun w hw => ?_
              rw [List.mem_singleton.mp hw]
              exact ⟨yes, by simp [children], hYes yes' rfl⟩
            | some no' =>
              cases h
              refine keepsScopes_of_parts rfl rfl (fun e he => .of_mem he) fun w hw => ?_
              rcases List.mem_cons.mp hw with rfl | hw
              · exact ⟨yes, by simp [children], hYes _ rfl⟩
              · rw [List.mem_singleton.mp hw]
                exact ⟨no, by simp [children], hNo no' rfl⟩
    | block s ts =>
      dsimp only at h
      have hFlat : ∀ w ∈ (ts.filterMap (simplifyTo next height r)).flatMap dissolve,
          ∃ t ∈ ts, t.KeepsScopes w := by
        intro w hw
        obtain ⟨w', hw', hw⟩ := List.mem_flatMap.mp hw
        obtain ⟨t, ht, hRest⟩ := List.mem_filterMap.mp hw'
        exact ⟨t, ht, (ih r t w' hRest).trans (keepsScopes_dissolve hw)⟩
      unfold simplifiedBlock at h
      dsimp only at h
      split at h
      · cases h
      · rename_i t hOne
        cases h
        obtain ⟨w, hw, hKeeps⟩ := hFlat t' (by simp [hOne])
        exact (keepsScopes_child rfl hw).trans hKeeps
      · cases h
        exact keepsScopes_block hFlat
    | store s b is v =>
      cases h
      exact .refl _
    | call s f args =>
      cases h
      exact .refl _
    | hole s =>
      cases h
      exact .refl _

/-- **Simplification** keeps scopes. -/
theorem keepsScopes_simplify (next : Nat) (t : Stmt) : t.KeepsScopes (t.simplify next) := by
  have hRest := keepsScopes_simplifyTo next t.size [] t
  unfold simplify
  generalize simplifyTo next t.size [] t = rest at hRest ⊢
  cases rest with
  | none => exact keepsScopes_empty _ _
  | some t' => exact hRest t' rfl

end Stmt

end LoopNest

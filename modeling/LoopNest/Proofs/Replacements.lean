import LoopNest.Proofs.Frames
import LoopNest.Restructure.Outcome
import Mathlib.Data.List.Forall2

/-! # One statement in the place of another

  Transformations change a program in one place. `Stmt.Replaces u v t t'` says that `t'` is `t` with
  `v` in the place of one statement `u`; `Stmt.update` does that (`Stmt.replaces_update`).

  Main statement: the program runs as before when the new statement runs like the old one, on all
  memories (`Stmt.Replaces.change_eq`) or on those without gaps (`Stmt.Replaces.change_alike`). -/

namespace LoopNest

/-! ## Changes that are the same on some memories -/

namespace Change

variable {P : Memory → Prop}

/-- A change does not lead out of some memories. -/
def Keeps (P : Memory → Prop) (a : Change) : Prop := ∀ m m', P m → a m = some m' → P m'

/-- Two changes are the same on some memories. -/
def EqOn (P : Memory → Prop) (a b : Change) : Prop := ∀ m, P m → a m = b m

theorem EqOn.refl (a : Change) : a.EqOn P a := fun _ _ => rfl

theorem EqOn.symm {a b : Change} (h : a.EqOn P b) : b.EqOn P a := fun m hm => (h m hm).symm

theorem EqOn.trans {a b d : Change} (h : a.EqOn P b) (h' : b.EqOn P d) : a.EqOn P d :=
  fun m hm => (h m hm).trans (h' m hm)

theorem keeps_skip : skip.Keeps P := by
  intro m m' hm h
  cases h
  exact hm

theorem Keeps.seq {a b : Change} (ha : a.Keeps P) (hb : b.Keeps P) : (a.seq b).Keeps P := by
  intro m m' hm h
  obtain ⟨between, hHead, hTail⟩ := seq_eq_some.mp h
  exact hb between m' (ha m between hm hHead) hTail

theorem Keeps.inTurn {as : List Change} (h : ∀ a ∈ as, a.Keeps P) : (inTurn as).Keeps P := by
  induction as with
  | nil => exact keeps_skip
  | cons a as ih =>
    exact (h a List.mem_cons_self).seq (ih fun b hb => h b (List.mem_cons_of_mem a hb))

theorem EqOn.seq {a a' b b' : Change} (ha : a.EqOn P a') (hb : b.EqOn P b') (hKeeps : a.Keeps P) :
    (a.seq b).EqOn P (a'.seq b') := by
  intro m hm
  unfold Change.seq
  rw [← ha m hm]
  cases h : a m with
  | none => rfl
  | some between => exact hb between (hKeeps m between hm h)

theorem EqOn.inTurn {α : Type} {f g : α → Change} {xs : List α}
    (h : ∀ x ∈ xs, (f x).EqOn P (g x)) (hKeeps : ∀ x ∈ xs, (f x).Keeps P) :
    (inTurn (xs.map f)).EqOn P (inTurn (xs.map g)) := by
  induction xs with
  | nil => exact EqOn.refl _
  | cons x xs ih =>
    exact (h x List.mem_cons_self).seq
      (ih (fun y hy => h y (List.mem_cons_of_mem x hy))
        fun y hy => hKeeps y (List.mem_cons_of_mem x hy))
      (hKeeps x List.mem_cons_self)

/-- Two changes are the same on memories without gaps. -/
abbrev Alike (a b : Change) : Prop := a.EqOn Memory.Full b

theorem Alike.withLocal {a b : Change} (h : a.Alike b) (n : String) {cells : Cells}
    (hCells : ∀ cell, (cells cell).isSome) : (a.withLocal n cells).Alike (b.withLocal n cells) := by
  intro m hm
  unfold Change.withLocal
  rw [h _ (hm.exchange n hCells)]

end Change

namespace Stmt

theorem keeps_full (c : Conventions) (t : Stmt) (env : Env) :
    (t.change c env).Keeps Memory.Full := fun _ _ hm h => full_of_change hm h

/-! ## Replacements -/

/-- The second program is the first one with `v` in the place of one `u`. -/
inductive Replaces (u v : Stmt) : Stmt → Stmt → Prop where
  | here : Replaces u v u v
  | decl {t t' : Stmt} (s : Site) (n : String) (b : Buffer) (h : Replaces u v t t') :
    Replaces u v (.decl s n b t) (.decl s n b t')
  | loop {t t' : Stmt} (s : Site) (head : LoopHead) (h : Replaces u v t t') :
    Replaces u v (.loop s head t) (.loop s head t')
  | guard {t t' : Stmt} (s : Site) (e : Expr) (h : Replaces u v t t') :
    Replaces u v (.guard s e t) (.guard s e t')
  | yes {t t' : Stmt} (s : Site) (e : Expr) (no : Stmt) (h : Replaces u v t t') :
    Replaces u v (.branch s e t no) (.branch s e t' no)
  | no {t t' : Stmt} (s : Site) (e : Expr) (yes : Stmt) (h : Replaces u v t t') :
    Replaces u v (.branch s e yes t) (.branch s e yes t')
  | block {t t' : Stmt} (s : Site) (before after : List Stmt) (h : Replaces u v t t') :
    Replaces u v (.block s (before ++ t :: after)) (.block s (before ++ t' :: after))

theorem Replaces.mem {u v t t' : Stmt} (h : Replaces u v t t') : u ∈ t.nodes := by
  induction h with
  | here => exact self_mem_nodes _
  | decl s n b _ ih => simp [ih]
  | loop s head _ ih => simp [ih]
  | guard s e _ ih => simp [ih]
  | yes s e no _ ih => simp [ih]
  | no s e yes _ ih => simp [ih]
  | block s before after _ ih => simp [ih]

/-- Two statements that differ at most in what is below them. -/
inductive Outline : Stmt → Stmt → Prop where
  | refl (t : Stmt) : Outline t t
  | decl (s : Site) (n : String) (b : Buffer) (t t' : Stmt) : Outline (.decl s n b t) (.decl s n b t')
  | loop (s : Site) (head : LoopHead) (t t' : Stmt) : Outline (.loop s head t) (.loop s head t')
  | guard (s : Site) (e : Expr) (t t' : Stmt) : Outline (.guard s e t) (.guard s e t')
  | branch (s : Site) (e : Expr) (yes no yes' no' : Stmt) :
    Outline (.branch s e yes no) (.branch s e yes' no')
  | block (s : Site) (ts ts' : List Stmt) : Outline (.block s ts) (.block s ts')

/-- The statements of a program around a replaced one. Only what is below them may change. -/
theorem Replaces.exists_nodes {u v t t' : Stmt} (h : Replaces u v t t') :
    ∃ first first' last, t.nodes = first ++ u.nodes ++ last ∧ t'.nodes = first' ++ v.nodes ++ last
      ∧ List.Forall₂ Outline first first' := by
  have hSame : ∀ ts : List Stmt, List.Forall₂ Outline ts ts :=
    fun ts => List.forall₂_same.mpr fun t _ => .refl t
  induction h with
  | here => exact ⟨[], [], [], by simp, by simp, .nil⟩
  | @decl t t' s n b _ ih =>
    obtain ⟨first, first', last, hOld, hNew, hFirst⟩ := ih
    exact ⟨.decl s n b t :: first, .decl s n b t' :: first', last, by simp [hOld], by simp [hNew],
      .cons (.decl ..) hFirst⟩
  | @loop t t' s head _ ih =>
    obtain ⟨first, first', last, hOld, hNew, hFirst⟩ := ih
    exact ⟨.loop s head t :: first, .loop s head t' :: first', last, by simp [hOld], by simp [hNew],
      .cons (.loop ..) hFirst⟩
  | @guard t t' s e _ ih =>
    obtain ⟨first, first', last, hOld, hNew, hFirst⟩ := ih
    exact ⟨.guard s e t :: first, .guard s e t' :: first', last, by simp [hOld], by simp [hNew],
      .cons (.guard ..) hFirst⟩
  | @yes t t' s e no _ ih =>
    obtain ⟨first, first', last, hOld, hNew, hFirst⟩ := ih
    exact ⟨.branch s e t no :: first, .branch s e t' no :: first', last ++ no.nodes, by simp [hOld],
      by simp [hNew], .cons (.branch ..) hFirst⟩
  | @no t t' s e yes _ ih =>
    obtain ⟨first, first', last, hOld, hNew, hFirst⟩ := ih
    exact ⟨.branch s e yes t :: (yes.nodes ++ first), .branch s e yes t' :: (yes.nodes ++ first'), last,
      by simp [hOld], by simp [hNew], .cons (.branch ..) (List.rel_append (hSame _) hFirst)⟩
  | @block t t' s before after _ ih =>
    obtain ⟨first, first', last, hOld, hNew, hFirst⟩ := ih
    exact ⟨.block s (before ++ t :: after) :: (before.flatMap nodes ++ first),
      .block s (before ++ t' :: after) :: (before.flatMap nodes ++ first'),
      last ++ after.flatMap nodes, by simp [hOld], by simp [hNew],
      .cons (.block ..) (List.rel_append (hSame _) hFirst)⟩

/-- What can be read off each statement without looking below it stays around a replaced one. -/
theorem Replaces.exists_around {α : Type} {g : Stmt → Option α}
    (hg : ∀ w w', Outline w w' → g w' = g w) {u v t t' : Stmt} (h : Replaces u v t t') :
    ∃ before after, t.nodes.filterMap g = before ++ u.nodes.filterMap g ++ after
      ∧ t'.nodes.filterMap g = before ++ v.nodes.filterMap g ++ after := by
  obtain ⟨first, first', last, hOld, hNew, hFirst⟩ := h.exists_nodes
  have hSame : first'.filterMap g = first.filterMap g := by
    clear hOld hNew
    induction hFirst with
    | nil => rfl
    | cons hHead _ ih => rw [List.filterMap_cons, List.filterMap_cons, hg _ _ hHead, ih]
  exact ⟨first.filterMap g, last.filterMap g, by simp [hOld], by simp [hNew, hSame]⟩

/-! ## Updates -/

section update

variable (id : Nat) (f : Stmt → Stmt) (s : Site)

theorem update_decl (n : String) (b : Buffer) (body : Stmt) :
    (Stmt.decl s n b body).update id f = if s.id = id then f (.decl s n b (body.update id f))
      else .decl s n b (body.update id f) := by
  unfold update
  rw [bottomUp]
  rfl

theorem update_loop (head : LoopHead) (body : Stmt) :
    (Stmt.loop s head body).update id f = if s.id = id then f (.loop s head (body.update id f))
      else .loop s head (body.update id f) := by
  unfold update
  rw [bottomUp]
  rfl

theorem update_guard (e : Expr) (body : Stmt) :
    (Stmt.guard s e body).update id f = if s.id = id then f (.guard s e (body.update id f))
      else .guard s e (body.update id f) := by
  unfold update
  rw [bottomUp]
  rfl

theorem update_branch (e : Expr) (yes no : Stmt) :
    (Stmt.branch s e yes no).update id f =
      if s.id = id then f (.branch s e (yes.update id f) (no.update id f))
      else .branch s e (yes.update id f) (no.update id f) := by
  unfold update
  rw [bottomUp]
  rfl

theorem update_block (ts : List Stmt) :
    (Stmt.block s ts).update id f = if s.id = id then f (.block s (ts.map (update id f)))
      else .block s (ts.map (update id f)) := by
  unfold update
  rw [bottomUp, bottomUpAll_eq_map]
  rfl

end update

/-- Updating a number that no statement has changes nothing. -/
theorem update_of_not_mem {id : Nat} {f : Stmt → Stmt} :
    ∀ t : Stmt, id ∉ t.ids → t.update id f = t := by
  have hNe : ∀ {t : Stmt}, id ∉ t.ids → t.site.id ≠ id := by
    rintro t h rfl
    exact h (List.mem_map_of_mem (self_mem_nodes t))
  have hBelow : ∀ {t u : Stmt}, (∀ w ∈ u.nodes, w ∈ t.nodes) → id ∉ t.ids → id ∉ u.ids := by
    intro t u hSub h hMem
    obtain ⟨w, hw, rfl⟩ := List.mem_map.mp hMem
    exact h (List.mem_map_of_mem (hSub w hw))
  refine Stmt.ind ?_ ?_ ?_ ?_ ?_ ?_ ?_ ?_
  · intro s n b body ih h
    rw [update_decl, ih (hBelow (fun w hw => by simp [hw]) h)]
    exact if_neg (hNe h)
  · intro s head body ih h
    rw [update_loop, ih (hBelow (fun w hw => by simp [hw]) h)]
    exact if_neg (hNe h)
  · intro s e body ih h
    rw [update_guard, ih (hBelow (fun w hw => by simp [hw]) h)]
    exact if_neg (hNe h)
  · intro s e yes no ihYes ihNo h
    rw [update_branch, ihYes (hBelow (fun w hw => by simp [hw]) h),
      ihNo (hBelow (fun w hw => by simp [hw]) h)]
    exact if_neg (hNe h)
  · intro s b is v h
    exact if_neg (hNe h)
  · intro s g args h
    exact if_neg (hNe h)
  · intro s ts ih h
    have hAll : ts.map (update id f) = ts := by
      refine (List.map_congr_left fun t ht => ?_).trans (List.map_id' ts)
      refine ih t ht (hBelow (fun w hw => ?_) h)
      rw [nodes_block]
      exact List.mem_cons_of_mem _ (List.mem_flatMap.mpr ⟨t, ht, hw⟩)
    rw [update_block, hAll]
    exact if_neg (hNe h)
  · intro s h
    exact if_neg (hNe h)

/-- A statement around another one has another number. -/
theorem id_ne_of_mem_inside {t u : Stmt} (hIds : t.ids.Nodup) (hu : u ∈ t.inside) :
    t.site.id ≠ u.id := by
  intro hEq
  unfold ids at hIds
  rw [nodes_eq_cons, List.map_cons] at hIds
  apply (List.nodup_cons.mp hIds).1
  rw [show t.id = u.id from hEq]
  exact List.mem_map_of_mem hu

theorem ne_of_mem_inside {t u : Stmt} (hIds : t.ids.Nodup) (hu : u ∈ t.inside) : t ≠ u := by
  rintro rfl
  exact id_ne_of_mem_inside hIds hu rfl

theorem nodup_ids_branch {s : Site} {e : Expr} {yes no : Stmt}
    (h : (Stmt.branch s e yes no).ids.Nodup) : (yes.ids ++ no.ids).Nodup := by
  unfold ids at h ⊢
  rw [nodes_branch, List.map_cons, List.map_append] at h
  exact (List.nodup_cons.mp h).2

theorem nodup_ids_block {s : Site} {before after : List Stmt} {t : Stmt}
    (h : (Stmt.block s (before ++ t :: after)).ids.Nodup) :
    (before.flatMap ids ++ (t.ids ++ after.flatMap ids)).Nodup := by
  unfold ids at h
  rw [nodes_block, List.map_cons, List.map_flatMap, List.flatMap_append, List.flatMap_cons] at h
  exact (List.nodup_cons.mp h).2

/-- No statement is below both cases of a branch. -/
theorem disjoint_of_branch {s : Site} {e : Expr} {yes no w : Stmt}
    (hIds : (Stmt.branch s e yes no).ids.Nodup) (hYes : w ∈ yes.nodes) : w ∉ no.nodes := fun hNo =>
  (List.nodup_append.mp (nodup_ids_branch hIds)).2.2 _ (List.mem_map_of_mem hYes) _
    (List.mem_map_of_mem hNo) rfl

/-- What is below one statement of a block is below no other one. -/
theorem disjoint_of_block {s : Site} {before after : List Stmt} {t u : Stmt}
    (hIds : (Stmt.block s (before ++ t :: after)).ids.Nodup) (hu : u ∈ t.nodes) :
    (∀ w ∈ before, u ∉ w.nodes) ∧ ∀ w ∈ after, u ∉ w.nodes := by
  obtain ⟨_, hRest, hBefore⟩ := List.nodup_append.mp (nodup_ids_block hIds)
  obtain ⟨_, _, hAfter⟩ := List.nodup_append.mp hRest
  have hId : u.id ∈ t.ids := List.mem_map_of_mem hu
  constructor
  · exact fun w hw hMem => hBefore _ (List.mem_flatMap.mpr ⟨w, hw, List.mem_map_of_mem hMem⟩) _
      (List.mem_append_left _ hId) rfl
  · exact fun w hw hMem => hAfter _ hId _
      (List.mem_flatMap.mpr ⟨w, hw, List.mem_map_of_mem hMem⟩) rfl

/-- **Updates replace**: when the statements of a program have different numbers, an update puts
    something in the place of one statement. -/
theorem replaces_update {u v : Stmt} :
    ∀ t : Stmt, t.ids.Nodup → u ∈ t.nodes → Replaces u v t (t.update u.id fun _ => v) := by
  have hSelf : ∀ {t w : Stmt}, t = u → Replaces u v t (if t.site.id = u.id then v else w) := by
    rintro t w rfl
    have hHere : (if t.site.id = t.id then v else w) = v := if_pos rfl
    rw [hHere]
    exact .here
  refine Stmt.ind ?_ ?_ ?_ ?_ ?_ ?_ ?_ ?_
  · intro s n b body ih hIds hu
    rw [update_decl]
    rcases List.mem_cons.mp (nodes_eq_cons _ ▸ hu) with hu | hu
    · exact hSelf hu.symm
    · have hNe : s.id ≠ u.id := id_ne_of_mem_inside hIds hu
      rw [if_neg hNe]
      have hBody : u ∈ body.nodes := by simpa [inside, children] using hu
      exact .decl s n b (ih (nodup_ids_of_mem hIds (by simp [self_mem_nodes])) hBody)
  · intro s head body ih hIds hu
    rw [update_loop]
    rcases List.mem_cons.mp (nodes_eq_cons _ ▸ hu) with hu | hu
    · exact hSelf hu.symm
    · have hNe : s.id ≠ u.id := id_ne_of_mem_inside hIds hu
      rw [if_neg hNe]
      have hBody : u ∈ body.nodes := by simpa [inside, children] using hu
      exact .loop s head (ih (nodup_ids_of_mem hIds (by simp [self_mem_nodes])) hBody)
  · intro s e body ih hIds hu
    rw [update_guard]
    rcases List.mem_cons.mp (nodes_eq_cons _ ▸ hu) with hu | hu
    · exact hSelf hu.symm
    · have hNe : s.id ≠ u.id := id_ne_of_mem_inside hIds hu
      rw [if_neg hNe]
      have hBody : u ∈ body.nodes := by simpa [inside, children] using hu
      exact .guard s e (ih (nodup_ids_of_mem hIds (by simp [self_mem_nodes])) hBody)
  · intro s e yes no ihYes ihNo hIds hu
    rw [update_branch]
    rcases List.mem_cons.mp (nodes_eq_cons _ ▸ hu) with hu | hu
    · exact hSelf hu.symm
    · have hNe : s.id ≠ u.id := id_ne_of_mem_inside hIds hu
      rw [if_neg hNe]
      obtain ⟨hYes, hNo, hDisjoint⟩ := List.nodup_append.mp (nodup_ids_branch hIds)
      have hChild : u ∈ yes.nodes ∨ u ∈ no.nodes := by simpa [inside, children] using hu
      rcases hChild with hu | hu
      · rw [update_of_not_mem no fun h => hDisjoint _ (List.mem_map_of_mem hu) _ h rfl]
        exact .yes s e no (ihYes hYes hu)
      · rw [update_of_not_mem yes fun h => hDisjoint _ h _ (List.mem_map_of_mem hu) rfl]
        exact .no s e yes (ihNo hNo hu)
  · intro s b is w _ hu
    rw [nodes_store, List.mem_singleton] at hu
    exact hSelf hu.symm
  · intro s f args _ hu
    rw [nodes_call, List.mem_singleton] at hu
    exact hSelf hu.symm
  · intro s ts ih hIds hu
    rw [update_block]
    rcases List.mem_cons.mp (nodes_eq_cons _ ▸ hu) with hu | hu
    · exact hSelf hu.symm
    · have hNe : s.id ≠ u.id := id_ne_of_mem_inside hIds hu
      rw [if_neg hNe]
      obtain ⟨t, ht, hBelow⟩ := List.mem_flatMap.mp hu
      obtain ⟨before, after, rfl⟩ := List.append_of_mem ht
      obtain ⟨_, hRest, hBefore⟩ := List.nodup_append.mp (nodup_ids_block hIds)
      obtain ⟨hHere, _, hAfter⟩ := List.nodup_append.mp hRest
      have hId : u.id ∈ t.ids := List.mem_map_of_mem hBelow
      have hFirst : before.map (update u.id fun _ => v) = before := by
        refine (List.map_congr_left fun w hw => ?_).trans (List.map_id' before)
        apply update_of_not_mem
        exact fun h => hBefore _ (List.mem_flatMap.mpr ⟨w, hw, h⟩) _
          (List.mem_append_left _ hId) rfl
      have hLast : after.map (update u.id fun _ => v) = after := by
        refine (List.map_congr_left fun w hw => ?_).trans (List.map_id' after)
        apply update_of_not_mem
        exact fun h => hAfter _ hId _ (List.mem_flatMap.mpr ⟨w, hw, h⟩) rfl
      rw [List.map_append, List.map_cons, hFirst, hLast]
      exact .block s before after (ih t (by simp) hHere hBelow)
  · intro s _ hu
    rw [nodes_hole, List.mem_singleton] at hu
    exact hSelf hu.symm

/-- A loop that is found by its label is one of the statements. -/
theorem mem_of_loopAt {t : Stmt} {label : String} {l : LabelledLoop} (h : t.loopAt label = .ok l) :
    l.stmt ∈ t.nodes := by
  unfold loopAt at h
  split at h
  · rename_i hFind
    cases h
    exact List.mem_of_find?_eq_some hFind
  · cases h
  · cases h

/-! ## Runs -/

/-- A run depends on the contents of local buffers through the labels of its declarations. -/
theorem change_congr_fresh {c c' : Conventions} (hQuotient : c'.quotient = c.quotient) :
    ∀ (t : Stmt) (env : Env), (∀ w ∈ t.nodes, c'.fresh w.label? = c.fresh w.label?) →
      t.change c' env = t.change c env := by
  have hValue := Expr.valueWith?_congr_quotient hQuotient
  refine Stmt.ind ?_ ?_ ?_ ?_ ?_ ?_ ?_ ?_
  · intro s n b body ih env h
    have hHere : c'.fresh s.label = c.fresh s.label := h _ (self_mem_nodes _)
    rw [change_decl, change_decl, ih env fun w hw => h w (by simp [hw]), hHere]
  · intro s head body ih env h
    funext m
    have hBody : ∀ v, body.change c' (env.set head.iter v) = body.change c (env.set head.iter v) :=
      fun v => ih _ fun w hw => h w (by simp [hw])
    simp only [change_loop, hValue, hBody]
  · intro s e body ih env h
    funext m
    rw [change_guard, change_guard, hValue, ih env fun w hw => h w (by simp [hw])]
  · intro s e yes no ihYes ihNo env h
    funext m
    rw [change_branch, change_branch, hValue, ihYes env fun w hw => h w (by simp [hw]),
      ihNo env fun w hw => h w (by simp [hw])]
  · intro s b is v env _
    funext m
    rw [change_store, change_store, hValue, Expr.valuesWith?_congr fun e _ => hValue env m e]
  · intro s f args env _
    rw [change_call, change_call]
  · intro s ts ih env h
    rw [change_block, change_block]
    congr 1
    apply List.map_congr_left
    intro t ht
    refine ih t ht env fun w hw => h w ?_
    rw [nodes_block]
    exact List.mem_cons_of_mem _ (List.mem_flatMap.mpr ⟨t, ht, hw⟩)
  · intro s env _
    rw [change_hole, change_hole]

/-- The scalars that the loops of a program set. -/
def Binds (t : Stmt) (x : String) : Prop :=
  ∃ s head body, Stmt.loop s head body ∈ t.nodes ∧ head.iter = x

theorem Binds.of_mem {t u : Stmt} (hu : u ∈ t.nodes) {x : String} (h : u.Binds x) : t.Binds x := by
  obtain ⟨s, head, body, hLoop, hIter⟩ := h
  exact ⟨s, head, body, mem_nodes_trans hLoop hu, hIter⟩

/-- Two environments differ only in scalars that the loops of a program set. -/
def Reaches (t : Stmt) (env env' : Env) : Prop := ∀ x, ¬ t.Binds x → env' x = env x

theorem Reaches.refl (t : Stmt) (env : Env) : t.Reaches env env := fun _ _ => rfl

/-- What the body of a loop reaches, the loop reaches. -/
theorem Reaches.of_loop {s : Site} {head : LoopHead} {body : Stmt} {env env' : Env} {v : Int}
    (h : body.Reaches (env.set head.iter v) env') : (Stmt.loop s head body).Reaches env env' := by
  intro x hx
  have hIter : x ≠ head.iter := by
    rintro rfl
    exact hx ⟨s, head, body, self_mem_nodes _, rfl⟩
  rw [h x fun hBinds => hx (hBinds.of_mem (by simp [self_mem_nodes])), Env.set_ne hIter]

theorem Reaches.of_mem {t u : Stmt} (hu : u ∈ t.nodes) {env env' : Env} (h : u.Reaches env env') :
    t.Reaches env env' := fun x hx => h x fun hBinds => hx (hBinds.of_mem hu)

variable {u v t t' : Stmt} {c c' : Conventions}

/-- A program runs as before when the new statement runs like the old one on all memories. -/
theorem Replaces.change_eq (h : Replaces u v t t')
    (hSame : ∀ env, v.change c env = u.change c env) : ∀ env, t'.change c env = t.change c env := by
  induction h with
  | here => exact hSame
  | decl s n b _ ih =>
    intro env
    rw [change_decl, change_decl, ih]
  | loop s head _ ih =>
    intro env
    funext m
    simp only [change_loop, ih]
  | guard s e _ ih =>
    intro env
    funext m
    rw [change_guard, change_guard, ih]
  | yes s e no _ ih =>
    intro env
    funext m
    rw [change_branch, change_branch, ih]
  | no s e yes _ ih =>
    intro env
    funext m
    rw [change_branch, change_branch, ih]
  | block s before after _ ih =>
    intro env
    simp only [change_block, List.map_append, List.map_cons, ih]

/-- **Runs of replaced statements**: a program runs as before when the new statement runs like the
    old one. The contents of local buffers may differ below the label of the old statement. -/
theorem Replaces.change_alike (h : Replaces u v t t') (hIds : t.ids.Nodup) (hc : c.Full)
    (hQuotient : c'.quotient = c.quotient)
    (hFresh : ∀ w ∈ t.nodes, w ≠ u → c'.fresh w.label? = c.fresh w.label?) :
    ∀ env : Env, (∀ env', t.Reaches env env' → (u.change c env').Alike (v.change c' env')) →
      (t.change c env).Alike (t'.change c' env) := by
  have hValue := Expr.valueWith?_congr_quotient hQuotient
  induction h with
  | here => exact fun env hSame => hSame env (.refl _ _)
  | @decl t t' s n b hBelow ih =>
    intro env hSame
    have hSub : t ∈ (Stmt.decl s n b t).nodes := by simp [self_mem_nodes]
    have hInside : u ∈ (Stmt.decl s n b t).inside := by simpa [inside, children] using hBelow.mem
    have hHere : c'.fresh s.label = c.fresh s.label :=
      hFresh _ (self_mem_nodes _) (ne_of_mem_inside hIds hInside)
    have hBody := ih (nodup_ids_of_mem hIds hSub)
      (fun w hw => hFresh w (mem_nodes_trans hw hSub)) env
      fun env' hReach => hSame env' (hReach.of_mem hSub)
    rw [change_decl, change_decl, hHere]
    split
    · exact hBody.withLocal n (hc s.label n)
    · exact hBody
  | @loop t t' s head hBelow ih =>
    intro env hSame m hm
    have hSub : t ∈ (Stmt.loop s head t).nodes := by simp [self_mem_nodes]
    have hBody : ∀ w : Int, (t.change c (env.set head.iter w)).Alike
        (t'.change c' (env.set head.iter w)) := fun w =>
      ih (nodup_ids_of_mem hIds hSub) (fun w hw => hFresh w (mem_nodes_trans hw hSub)) _
        fun env' hReach => hSame env' hReach.of_loop
    rw [change_loop, change_loop, hValue, hValue]
    cases head.lower.valueWith? c env m with
    | none => rfl
    | some lower =>
      cases head.upper.valueWith? c env m with
      | none => rfl
      | some upper =>
        exact Change.EqOn.inTurn (fun w _ => hBody w) (fun _ _ => keeps_full c _ _) m hm
  | @guard t t' s e hBelow ih =>
    intro env hSame m hm
    have hSub : t ∈ (Stmt.guard s e t).nodes := by simp [self_mem_nodes]
    have hBody := ih (nodup_ids_of_mem hIds hSub)
      (fun w hw => hFresh w (mem_nodes_trans hw hSub)) env
      fun env' hReach => hSame env' (hReach.of_mem hSub)
    rw [change_guard, change_guard, hValue, hBody m hm]
  | @yes t t' s e no hBelow ih =>
    intro env hSame m hm
    have hSub : t ∈ (Stmt.branch s e t no).nodes := by simp [self_mem_nodes]
    have hBody := ih (nodup_ids_of_mem hIds hSub)
      (fun w hw => hFresh w (mem_nodes_trans hw hSub)) env
      fun env' hReach => hSame env' (hReach.of_mem hSub)
    have hOther : no.change c' env = no.change c env := by
      apply change_congr_fresh hQuotient
      intro w hw
      apply hFresh w (by simp [hw])
      rintro rfl
      exact disjoint_of_branch hIds hBelow.mem hw
    rw [change_branch, change_branch, hValue, hBody m hm, hOther]
  | @no t t' s e yes hBelow ih =>
    intro env hSame m hm
    have hSub : t ∈ (Stmt.branch s e yes t).nodes := by simp [self_mem_nodes]
    have hBody := ih (nodup_ids_of_mem hIds hSub)
      (fun w hw => hFresh w (mem_nodes_trans hw hSub)) env
      fun env' hReach => hSame env' (hReach.of_mem hSub)
    have hOther : yes.change c' env = yes.change c env := by
      apply change_congr_fresh hQuotient
      intro w hw
      apply hFresh w (by simp [hw])
      rintro rfl
      exact disjoint_of_branch hIds hw hBelow.mem
    rw [change_branch, change_branch, hValue, hBody m hm, hOther]
  | @block t t' s before after hBelow ih =>
    intro env hSame
    have hSub : t ∈ (Stmt.block s (before ++ t :: after)).nodes := by simp [self_mem_nodes]
    have hBody := ih (nodup_ids_of_mem hIds hSub)
      (fun w hw => hFresh w (mem_nodes_trans hw hSub)) env
      fun env' hReach => hSame env' (hReach.of_mem hSub)
    obtain ⟨hFirst, hLast⟩ := disjoint_of_block hIds hBelow.mem
    have hOther : ∀ w ∈ before ++ after, w.change c' env = w.change c env := by
      intro w hw
      apply change_congr_fresh hQuotient
      intro x hx
      apply hFresh x
      · rw [nodes_block]
        refine List.mem_cons_of_mem _ (List.mem_flatMap.mpr ⟨w, ?_, hx⟩)
        rcases List.mem_append.mp hw with hw | hw
        · exact List.mem_append_left _ hw
        · exact List.mem_append_right _ (List.mem_cons_of_mem t hw)
      · rintro rfl
        rcases List.mem_append.mp hw with hw | hw
        · exact hFirst w hw hx
        · exact hLast w hw hx
    have hBefore : before.map (change c' env) = before.map (change c env) :=
      List.map_congr_left fun w hw => hOther w (List.mem_append_left _ hw)
    have hAfter : after.map (change c' env) = after.map (change c env) :=
      List.map_congr_left fun w hw => hOther w (List.mem_append_right _ hw)
    have hFull : ∀ ts : List Stmt, (Change.inTurn (ts.map (change c env))).Keeps Memory.Full := by
      intro ts m m' hm h
      exact full_of_change hm (t := .block s ts) (by rwa [change_block])
    rw [change_block, change_block, List.map_append, List.map_append, List.map_cons, List.map_cons,
      hBefore, hAfter, Change.inTurn_append, Change.inTurn_append, Change.inTurn_cons,
      Change.inTurn_cons]
    exact (Change.EqOn.refl _).seq (hBody.seq (.refl _) (keeps_full c t env)) (hFull before)

end Stmt

end LoopNest

import LoopNest.Proofs.FreshNames
import LoopNest.Proofs.TypedRuns

/-! # Programs that are kept tidy

  A transformation that puts new statements in the place of old ones relies on what it knows of the
  program: numbers are different, names mean one thing, all names are known to be in use, loops
  assert nothing and declare local buffers only, and the bounds of parallel loops are settled before
  the first iteration (`Stmt.Tidy`).

  What takes the place of a statement may introduce numbers and names that are new
  (`Stmt.Inherits`). Then the program stays tidy (`Stmt.Tidy.update`). -/

namespace LoopNest

namespace Stmt

/-! ## Names in use -/

theorem Reads.mem_usedNames {t : Stmt} {b : String} (h : t.Reads b) : b ∈ t.usedNames := by
  obtain ⟨u, hu, e, he, hReads⟩ := h
  exact Stmt.mem_usedNames.mpr ⟨u, hu, .inr ⟨e, he, .inr (Expr.reads_iff.mp hReads)⟩⟩

theorem Declares.mem_usedNames {t : Stmt} {b : String} (h : t.Declares b) : b ∈ t.usedNames := by
  obtain ⟨s, buffer, body, hDecl⟩ := h
  exact Stmt.mem_usedNames.mpr ⟨_, hDecl, .inl (by simp [ownNames])⟩

/-! ## Tidy programs -/

/-- What is known of a program in the middle of a transformation.

    * **ids**, **old**: its statements have different numbers, and these were used before;
    * **used**: all names in it are in use;
    * **names**: names mean one thing;
    * **noDeps**, **locals**: loops assert nothing, and declare local buffers only;
    * **bounds**: no parallel loop writes a buffer that its bounds read;
    * **shapes**: the shapes of declarations that are checked read no buffer. -/
structure Tidy (own used : List String) (next : Nat) (t : Stmt) : Prop where
  ids : t.ids.Nodup
  old : ∀ i ∈ t.ids, i < next
  used : ∀ x ∈ t.usedNames, x ∈ used
  names : t.CleanNames
  noDeps : ∀ s h body, .loop s h body ∈ t.nodes → h.noDeps = []
  locals : ∀ s h body, .loop s h body ∈ t.nodes → body.localsOnly = true
  bounds : ∀ s h body, .loop s h body ∈ t.nodes → h.isParallel = true →
    ∀ e ∈ [h.lower, h.upper], ∀ b ∈ e.buffers, ¬ body.Writes b
  shapes : ∀ s n b body, .decl s n b body ∈ t.nodes → n ∈ own → ∀ e ∈ b.shape, e.buffers = []

namespace Tidy

variable {own used : List String} {next : Nat} {t : Stmt}

/-- The bounds of parallel loops are settled before the first iteration. -/
theorem steady (h : t.Tidy own used next) : t.SteadyLoops := by
  intro s head body hLoop hParallel e he
  have hOwn : e ∈ (Stmt.loop s head body).exprs := he
  have hBody : body ∈ (Stmt.loop s head body).children := by simp [children]
  refine ⟨⟨fun x hx => ?_, fun b hb => ?_, h.bounds s head body hLoop hParallel e he⟩,
    fun hIter => ?_⟩
  · exact h.names.scalars _ hLoop x (.inl ⟨e, hOwn, hx⟩) body hBody
  · exact h.names.buffers _ hLoop b (.inl ⟨e, hOwn, hb⟩) body hBody
  · refine h.names.bounds s head body hLoop (List.mem_append.mpr ?_)
    rcases List.mem_cons.mp he with rfl | he
    · exact .inl hIter
    · obtain rfl := List.mem_singleton.mp he
      exact .inr hIter

end Tidy

/-! ## Updated programs -/

section shells

variable (f : Stmt → Stmt) (t : Stmt)

@[simp] theorem head?_mapChildren : (t.mapChildren f).head? = t.head? := by
  cases t <;> rfl

@[simp] theorem exprs_mapChildren : (t.mapChildren f).exprs = t.exprs := by
  cases t <;> rfl

@[simp] theorem ownNames_mapChildren : (t.mapChildren f).ownNames = t.ownNames := by
  cases t <;> rfl

end shells

/-- A statement with other children is the same statement but for its body. -/
theorem decl_of_mapChildren {f : Stmt → Stmt} {t body : Stmt} {s : Site} {n : String} {b : Buffer}
    (h : t.mapChildren f = .decl s n b body) : ∃ body', t = .decl s n b body' ∧ body = f body' := by
  cases t <;> simp only [mapChildren, reduceCtorEq] at h
  cases h
  exact ⟨_, rfl, rfl⟩

theorem loop_of_mapChildren {f : Stmt → Stmt} {t body : Stmt} {s : Site} {head : LoopHead}
    (h : t.mapChildren f = .loop s head body) :
    ∃ body', t = .loop s head body' ∧ body = f body' := by
  cases t <;> simp only [mapChildren, reduceCtorEq] at h
  cases h
  exact ⟨_, rfl, rfl⟩

theorem store_of_mapChildren {f : Stmt → Stmt} {t : Stmt} {s : Site} {b : String} {is : List Expr}
    {v : Expr} (h : t.mapChildren f = .store s b is v) : t = .store s b is v := by
  cases t <;> simp only [mapChildren, reduceCtorEq] at h
  exact h

section update

variable {t u : Stmt} {p : Nat}

/-- What there is in an updated program is new or was there before. -/
theorem exists_mem_update {Q : Stmt → Prop} (hQ : ∀ w f, Q (mapChildren f w) → Q w)
    (h : ∃ x ∈ (t.update p fun _ => u).nodes, Q x) :
    (∃ x ∈ t.nodes, Q x) ∨ p ∈ t.ids ∧ ∃ x ∈ u.nodes, Q x := by
  obtain ⟨x, hx, hQx⟩ := h
  by_cases hp : p ∈ t.ids
  · rcases mem_nodes_update t hx with hNew | ⟨y, hy, hne, rfl⟩
    · exact .inr ⟨hp, x, hNew, hQx⟩
    · rw [update_eq, if_neg hne] at hQx
      exact .inl ⟨y, hy, hQ y _ hQx⟩
  · rw [update_of_not_mem t hp] at hx
    exact .inl ⟨x, hx, hQx⟩

theorem binds_update {x : String} (h : (t.update p fun _ => u).Binds x) :
    t.Binds x ∨ p ∈ t.ids ∧ u.Binds x := by
  have hIff : ∀ w : Stmt, w.Binds x ↔ ∃ y ∈ w.nodes, ∃ s head body, y = .loop s head body
      ∧ head.iter = x := by
    intro w
    constructor
    · rintro ⟨s, head, body, hLoop, hIter⟩
      exact ⟨_, hLoop, s, head, body, rfl, hIter⟩
    · rintro ⟨_, hLoop, s, head, body, rfl, hIter⟩
      exact ⟨s, head, body, hLoop, hIter⟩
  rw [hIff] at h
  rw [hIff, hIff]
  refine exists_mem_update (fun w f hw => ?_) h
  obtain ⟨s, head, body, hEq, hIter⟩ := hw
  obtain ⟨body', rfl, _⟩ := loop_of_mapChildren hEq
  exact ⟨s, head, body', rfl, hIter⟩

theorem declares_update {b : String} (h : (t.update p fun _ => u).Declares b) :
    t.Declares b ∨ p ∈ t.ids ∧ u.Declares b := by
  have hIff : ∀ w : Stmt, w.Declares b ↔ ∃ y ∈ w.nodes, ∃ s buffer body,
      y = .decl s b buffer body := by
    intro w
    constructor
    · rintro ⟨s, buffer, body, hDecl⟩
      exact ⟨_, hDecl, s, buffer, body, rfl⟩
    · rintro ⟨_, hDecl, s, buffer, body, rfl⟩
      exact ⟨s, buffer, body, hDecl⟩
  rw [hIff] at h
  rw [hIff, hIff]
  refine exists_mem_update (fun w f hw => ?_) h
  obtain ⟨s, buffer, body, hEq⟩ := hw
  obtain ⟨body', rfl, _⟩ := decl_of_mapChildren hEq
  exact ⟨s, buffer, body', rfl⟩

theorem writes_update {b : String} (h : (t.update p fun _ => u).Writes b) :
    t.Writes b ∨ p ∈ t.ids ∧ u.Writes b := by
  have hIff : ∀ w : Stmt, w.Writes b ↔ ∃ y ∈ w.nodes, ∃ s is v, y = .store s b is v := by
    intro w
    constructor
    · rintro ⟨s, is, v, hStore⟩
      exact ⟨_, hStore, s, is, v, rfl⟩
    · rintro ⟨_, hStore, s, is, v, rfl⟩
      exact ⟨s, is, v, hStore⟩
  rw [hIff] at h
  rw [hIff, hIff]
  refine exists_mem_update (fun w f hw => ?_) h
  obtain ⟨s, is, v, hEq⟩ := hw
  exact ⟨s, is, v, store_of_mapChildren hEq⟩

theorem localsOnly_update (ht : t.localsOnly = true) (hu : u.localsOnly = true) :
    (t.update p fun _ => u).localsOnly = true := by
  refine everywhere_iff.mpr fun x hx => ?_
  rcases mem_nodes_update t hx with hNew | ⟨y, hy, hne, rfl⟩
  · exact everywhere_iff.mp hu x hNew
  · have hOld := everywhere_iff.mp ht y hy
    rw [update_eq, if_neg hne]
    cases y <;> exact hOld

end update

/-- What takes the place of a statement introduces only what is new.

    * **ids**: numbers that were not used before;
    * **binds**, **declares**, **writes**: names that were not in use before;
    * **locals**: local buffers. -/
structure Inherits (used : List String) (next : Nat) (l u : Stmt) : Prop where
  ids : ∀ i ∈ u.ids, i ∈ l.ids ∨ next ≤ i
  binds : ∀ x, u.Binds x → l.Binds x ∨ x ∉ used
  declares : ∀ b, u.Declares b → l.Declares b ∨ b ∉ used
  writes : ∀ b, u.Writes b → l.Writes b ∨ b ∉ used
  locals : u.localsOnly = true

section ids

variable (s : Site)

@[simp] theorem ids_decl (n : String) (b : Buffer) (body : Stmt) :
    (Stmt.decl s n b body).ids = s.id :: body.ids := by
  simp [ids, id, site]

@[simp] theorem ids_loop (head : LoopHead) (body : Stmt) :
    (Stmt.loop s head body).ids = s.id :: body.ids := by
  simp [ids, id, site]

@[simp] theorem ids_guard (e : Expr) (body : Stmt) :
    (Stmt.guard s e body).ids = s.id :: body.ids := by
  simp [ids, id, site]

@[simp] theorem ids_branch (e : Expr) (yes no : Stmt) :
    (Stmt.branch s e yes no).ids = s.id :: (yes.ids ++ no.ids) := by
  simp [ids, id, site]

@[simp] theorem ids_block (ts : List Stmt) :
    (Stmt.block s ts).ids = s.id :: ts.flatMap ids := ids_eq_cons _

@[simp] theorem ids_store (b : String) (is : List Expr) (v : Expr) :
    (Stmt.store s b is v).ids = [s.id] := rfl

end ids

/-- The numbers around a replaced statement stay. -/
theorem Replaces.exists_ids {u v t t' : Stmt} (h : Replaces u v t t') :
    ∃ before after, t.ids = before ++ u.ids ++ after ∧ t'.ids = before ++ v.ids ++ after := by
  have hAround := h.exists_around (g := fun w => some w.id) fun _ _ hOutline => by
    cases hOutline <;> rfl
  simp only [List.filterMap_eq_map'] at hAround
  exact hAround

/-- What is below a statement is found there by its number. -/
theorem mem_nodes_of_id {t u w : Stmt} (hIds : t.ids.Nodup) (hu : u ∈ t.nodes) (hw : w ∈ t.nodes)
    (hId : u.id ∈ w.ids) : u ∈ w.nodes := by
  obtain ⟨x, hx, hEq⟩ := List.mem_map.mp hId
  rw [← List.inj_on_of_nodup_map hIds (mem_nodes_trans hx hw) hu hEq]
  exact hx

/-- Different numbers stay different when a statement is replaced by one with its own and with new
    numbers. -/
theorem nodup_ids_update {t l u : Stmt} {next : Nat} (hIds : t.ids.Nodup) (hOld : ∀ i ∈ t.ids, i < next)
    (hl : l ∈ t.nodes) (hu : u.ids.Nodup) (hNew : ∀ i ∈ u.ids, i ∈ l.ids ∨ next ≤ i) :
    (t.update l.id fun _ => u).ids.Nodup := by
  obtain ⟨before, after, hAround, hAfterwards⟩ := (replaces_update (v := u) t hIds hl).exists_ids
  have hNodup := hIds
  rw [hAround, List.append_assoc, List.nodup_append, List.nodup_append] at hNodup
  obtain ⟨hBefore, ⟨_, hAfter, hRight⟩, hLeft⟩ := hNodup
  -- a number of the new statement stands neither before nor after it
  have hBeside : ∀ i ∈ u.ids, i ∉ before ∧ i ∉ after := by
    intro i hi
    rcases hNew i hi with hi | hi
    · exact ⟨fun hMem => hLeft i hMem i (List.mem_append_left _ hi) rfl,
        fun hMem => hRight i hi i hMem rfl⟩
    · have hLarge : ∀ j ∈ t.ids, j ≠ i := fun j hj =>
        Nat.ne_of_lt (Nat.lt_of_lt_of_le (hOld j hj) hi)
      exact ⟨fun hMem => hLarge i (by simp [hAround, hMem]) rfl,
        fun hMem => hLarge i (by simp [hAround, hMem]) rfl⟩
  rw [hAfterwards, List.append_assoc, List.nodup_append, List.nodup_append]
  refine ⟨hBefore, ⟨hu, hAfter, fun i hi j hj hEq => ?_⟩, fun i hi j hj hEq => ?_⟩
  · exact (hBeside i hi).2 (hEq ▸ hj)
  · rcases List.mem_append.mp hj with hj | hj
    · exact (hBeside j hj).1 (hEq ▸ hi)
    · exact hLeft i hi j (List.mem_append_right _ hj) hEq

/-- The names of an updated program. -/
theorem mem_usedNames_update {t u : Stmt} {p : Nat} {x : String}
    (hx : x ∈ (t.update p fun _ => u).usedNames) : x ∈ u.usedNames ∨ x ∈ t.usedNames := by
  obtain ⟨w, hw, hName⟩ := mem_usedNames.mp hx
  rcases mem_nodes_update t hw with hw | ⟨y, hy, hne, rfl⟩
  · exact .inl (mem_usedNames.mpr ⟨w, hw, hName⟩)
  · rw [update_eq, if_neg hne, ownNames_mapChildren, exprs_mapChildren] at hName
    exact .inr (mem_usedNames.mpr ⟨y, hy, hName⟩)

namespace Tidy

variable {own used used' : List String} {next next' : Nat} {t l u : Stmt}

theorem of_mem {w : Stmt} (hw : w ∈ t.nodes) (h : t.Tidy own used next) :
    w.Tidy own used next where
  ids := nodup_ids_of_mem h.ids hw
  old i hi := h.old i (ids_subset hw hi)
  used x hx := h.used x (usedNames_subset hw hx)
  names := h.names.of_mem hw
  noDeps s head body hLoop := h.noDeps s head body (mem_nodes_trans hLoop hw)
  locals s head body hLoop := h.locals s head body (mem_nodes_trans hLoop hw)
  bounds s head body hLoop := h.bounds s head body (mem_nodes_trans hLoop hw)
  shapes s n b body hDecl := h.shapes s n b body (mem_nodes_trans hDecl hw)

/-- Names mean one thing in an updated program. -/
theorem cleanNames_update (h : t.Tidy own used next) (hl : l ∈ t.nodes) (hu : u.CleanNames)
    (hNew : Inherits used next l u) : (t.update l.id fun _ => u).CleanNames := by
  -- below an old statement, new names are not those that it uses
  have hChild : ∀ {y w : Stmt}, y ∈ t.nodes → y.id ≠ l.id →
      w ∈ (y.update l.id fun _ => u).children →
      ∃ w' ∈ y.children, w = w'.update l.id fun _ => u := by
    intro y w hy hne hw
    rw [children_update hne] at hw
    obtain ⟨w', hw', rfl⟩ := List.mem_map.mp hw
    exact ⟨w', hw', rfl⟩
  have hBelow : ∀ {y w : Stmt}, y ∈ t.nodes → w ∈ y.children → l.id ∈ w.ids → l ∈ w.nodes :=
    fun hy hw hMem => mem_nodes_of_id h.ids hl
      (mem_nodes_trans (mem_nodes_of_child hw (self_mem_nodes _)) hy) hMem
  refine ⟨fun x hx a ha w hw => ?_, fun x hx b hb w hw => ?_, fun s head body hLoop => ?_⟩
  · rcases mem_nodes_update t hx with hx | ⟨y, hy, hne, rfl⟩
    · exact hu.scalars x hx a ha w hw
    · obtain ⟨w, hw', rfl⟩ := hChild hy hne hw
      have hOwn : y.OwnScalar a := by
        rw [update_eq, if_neg hne] at ha
        simpa [OwnScalar] using ha
      have hUsed : a ∈ used := by
        refine h.used a (mem_usedNames.mpr ⟨y, hy, ?_⟩)
        rcases hOwn with ⟨e, he, hMem⟩ | ⟨head, hHead, rfl⟩
        · exact .inr ⟨e, he, .inl hMem⟩
        · cases y <;> simp only [head?, Option.mem_def, reduceCtorEq, Option.some.injEq] at hHead
          subst hHead
          exact .inl (by simp [ownNames])
      intro hBinds
      rcases binds_update hBinds with hBinds | ⟨hMem, hBinds⟩
      · exact h.names.scalars y hy a hOwn w hw' hBinds
      · rcases hNew.binds a hBinds with hBinds | hFresh
        · exact h.names.scalars y hy a hOwn w hw' (hBinds.of_mem (hBelow hy hw' hMem))
        · exact hFresh hUsed
  · rcases mem_nodes_update t hx with hx | ⟨y, hy, hne, rfl⟩
    · exact hu.buffers x hx b hb w hw
    · obtain ⟨w, hw', rfl⟩ := hChild hy hne hw
      have hOwn : y.OwnBuffer b := by
        rw [update_eq, if_neg hne] at hb
        rcases hb with ⟨e, he, hMem⟩ | ⟨s, buffer, body, hEq⟩
        · exact .inl ⟨e, by simpa using he, hMem⟩
        · obtain ⟨body', rfl, _⟩ := decl_of_mapChildren hEq
          exact .inr ⟨s, buffer, body', rfl⟩
      have hUsed : b ∈ used := by
        refine h.used b (mem_usedNames.mpr ⟨y, hy, ?_⟩)
        rcases hOwn with ⟨e, he, hMem⟩ | ⟨s, buffer, body, rfl⟩
        · exact .inr ⟨e, he, .inr hMem⟩
        · exact .inl (by simp [ownNames])
      intro hDeclares
      rcases declares_update hDeclares with hDeclares | ⟨hMem, hDeclares⟩
      · exact h.names.buffers y hy b hOwn w hw' hDeclares
      · rcases hNew.declares b hDeclares with hDeclares | hFresh
        · exact h.names.buffers y hy b hOwn w hw' (hDeclares.of_mem (hBelow hy hw' hMem))
        · exact hFresh hUsed
  · rcases mem_nodes_update t hLoop with hLoop | ⟨y, hy, hne, hEq⟩
    · exact hu.bounds s head body hLoop
    · rw [update_eq, if_neg hne] at hEq
      obtain ⟨body', rfl, _⟩ := loop_of_mapChildren hEq.symm
      exact h.names.bounds s head body' hy

/-- **Updates**: a program with a tidy statement in the place of another one is tidy when the new
    one introduces only what is new. -/
theorem update (h : t.Tidy own used next) (hl : l ∈ t.nodes) (hu : u.Tidy own used' next')
    (hNext : next ≤ next') (hUsed : used ⊆ used') (hNew : Inherits used next l u) :
    (t.update l.id fun _ => u).Tidy own used' next' := by
  have hLoopBelow : ∀ {s : Site} {head : LoopHead} {body : Stmt}, .loop s head body ∈ t.nodes →
      l.id ∈ body.ids → l ∈ body.nodes := fun hLoop hMem =>
    mem_nodes_of_id h.ids hl (mem_nodes_trans (by simp [self_mem_nodes]) hLoop) hMem
  -- a loop is new, or an old one with an updated body
  have hLoops : ∀ {s : Site} {head : LoopHead} {body : Stmt},
      .loop s head body ∈ (t.update l.id fun _ => u).nodes → .loop s head body ∈ u.nodes
        ∨ ∃ body', .loop s head body' ∈ t.nodes ∧ body = body'.update l.id fun _ => u := by
    intro s head body hLoop
    rcases mem_nodes_update t hLoop with hLoop | ⟨y, hy, hne, hEq⟩
    · exact .inl hLoop
    · rw [update_eq, if_neg hne] at hEq
      obtain ⟨body', rfl, hBody⟩ := loop_of_mapChildren hEq.symm
      exact .inr ⟨body', hy, hBody⟩
  refine ⟨nodup_ids_update h.ids h.old hl hu.ids hNew.ids, fun i hi => ?_, fun x hx => ?_,
    h.cleanNames_update hl hu.names hNew, fun s head body hLoop => ?_, fun s head body hLoop => ?_,
    fun s head body hLoop hParallel e he b hb hWrites => ?_, fun s n b body hDecl => ?_⟩
  · rcases mem_ids_update hi with hi | hi
    · exact hu.old i hi
    · exact Nat.lt_of_lt_of_le (h.old i hi) hNext
  · rcases mem_usedNames_update hx with hx | hx
    · exact hu.used x hx
    · exact hUsed (h.used x hx)
  · rcases hLoops hLoop with hLoop | ⟨body', hLoop, _⟩
    · exact hu.noDeps s head body hLoop
    · exact h.noDeps s head body' hLoop
  · rcases hLoops hLoop with hLoop | ⟨body', hOldLoop, rfl⟩
    · exact hu.locals s head body hLoop
    · exact localsOnly_update (h.locals s head body' hOldLoop) hNew.locals
  · rcases hLoops hLoop with hLoop | ⟨body', hOldLoop, rfl⟩
    · exact hu.bounds s head body hLoop hParallel e he b hb hWrites
    · have hOld := h.bounds s head body' hOldLoop hParallel e he b hb
      rcases writes_update hWrites with hWrites | ⟨hMem, hWrites⟩
      · exact hOld hWrites
      · rcases hNew.writes b hWrites with hWrites | hFresh
        · exact hOld (hWrites.of_mem (hLoopBelow hOldLoop hMem))
        · exact hFresh (h.used b (mem_usedNames.mpr ⟨_, hOldLoop, .inr ⟨e, he, .inr hb⟩⟩))
  · rcases mem_nodes_update t hDecl with hDecl | ⟨y, hy, hne, hEq⟩
    · exact hu.shapes s n b body hDecl
    · rw [update_eq, if_neg hne] at hEq
      obtain ⟨body', rfl, _⟩ := decl_of_mapChildren hEq.symm
      exact h.shapes s n b body' hy

end Tidy

end Stmt

end LoopNest

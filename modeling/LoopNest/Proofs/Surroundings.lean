import Mathlib.Data.List.Nodup
import LoopNest.Proofs.Touches
import LoopNest.Proofs.Walks

/-! # What surrounds two accesses

  When the loops of a program have different numbers, the loops around two accesses branch like the
  paths of a tree: they share some outer loops and have none of the others in common (`Forked`). A
  number then stands for one loop at one depth (`Forked.index_eq`).

  The owner of a touched cell tells in which iteration of the loops around its declaration the cell
  came into being (`Touch.Owned`). Touches of one local buffer therefore agree on these loops. -/

namespace LoopNest

/-! ## Forks -/

/-- Two lists of loops share their outer loops and have none of the others in common. -/
def Forked (p q : List Enclosing) : Prop :=
  ∃ shared p' q', p = shared ++ p' ∧ q = shared ++ q' ∧ ∀ a ∈ p', ∀ b ∈ q', a.id ≠ b.id

namespace Forked

theorem of_disjoint {p q : List Enclosing} (h : ∀ a ∈ p, ∀ b ∈ q, a.id ≠ b.id) : Forked p q :=
  ⟨[], p, q, rfl, rfl, h⟩

theorem nil_left (q : List Enclosing) : Forked [] q :=
  of_disjoint fun _ h => absurd h List.not_mem_nil

theorem nil_right (p : List Enclosing) : Forked p [] :=
  of_disjoint fun _ _ _ h => absurd h List.not_mem_nil

theorem symm {p q : List Enclosing} (h : Forked p q) : Forked q p := by
  obtain ⟨shared, p', q', rfl, rfl, hDisjoint⟩ := h
  exact ⟨shared, q', p', rfl, rfl, fun a ha b hb => (hDisjoint b hb a ha).symm⟩

theorem cons {p q : List Enclosing} (h : Forked p q) (l : Enclosing) :
    Forked (l :: p) (l :: q) := by
  obtain ⟨shared, p', q', rfl, rfl, hDisjoint⟩ := h
  exact ⟨l :: shared, p', q', rfl, rfl, hDisjoint⟩

/-- A number that occurs on both sides belongs to one of the shared loops. -/
theorem index_eq {p q : List Enclosing} (h : Forked p q) (hp : (p.map (·.id)).Nodup)
    (hq : (q.map (·.id)).Nodup) {i j : Nat} {a b : Enclosing} (ha : p[i]? = some a)
    (hb : q[j]? = some b) (hid : a.id = b.id) : i = j ∧ a = b := by
  obtain ⟨shared, p', q', rfl, rfl, hDisjoint⟩ := h
  -- in one list without repetitions the number decides the place
  have hUnique : ∀ (l : List Enclosing), (l.map (·.id)).Nodup → ∀ (i j : Nat) (a b : Enclosing),
      l[i]? = some a → l[j]? = some b → a.id = b.id → i = j := by
    intro l hl i j a b ha hb hid
    have hi : i < (l.map (·.id)).length := by
      rw [List.length_map]
      exact (List.getElem?_eq_some_iff.mp ha).1
    apply (List.getElem?_inj hi hl).mp
    rw [List.getElem?_map, List.getElem?_map, ha, hb, Option.map_some, Option.map_some, hid]
  by_cases hi : i < shared.length
  · have ha' : (shared ++ q')[i]? = some a := by
      rw [List.getElem?_append_left hi] at ha ⊢
      exact ha
    obtain rfl := hUnique _ hq i j a b ha' hb hid
    rw [ha', Option.some.injEq] at hb
    exact ⟨rfl, hb⟩
  · by_cases hj : j < shared.length
    · have hb' : (shared ++ p')[j]? = some b := by
        rw [List.getElem?_append_left hj] at hb ⊢
        exact hb
      obtain rfl := hUnique _ hp i j a b ha hb' hid
      exact absurd hj hi
    · rw [List.getElem?_append_right (Nat.le_of_not_lt hi)] at ha
      rw [List.getElem?_append_right (Nat.le_of_not_lt hj)] at hb
      exact absurd hid
        (hDisjoint a (List.mem_of_getElem? ha) b (List.mem_of_getElem? hb))

end Forked

namespace Stmt

/-- The loops around an access inside a statement are loops of the statement, each once. -/
structure Inner (t : Stmt) (s : Scope) (a : Access) (p : List Enclosing) : Prop where
  loops : a.loops = s.loops ++ p
  ids : ∀ l ∈ p, l.id ∈ t.loopIds
  nodup : t.loopIds.Nodup → (p.map (·.id)).Nodup

theorem exists_inner_of_mem_accessesIn :
    ∀ (t : Stmt) (s : Scope) (a : Access), a ∈ t.accessesIn s → ∃ p, t.Inner s a p := by
  have hHere : ∀ (t : Stmt) (s : Scope) (a : Access), a.loops = s.loops → t.Inner s a [] :=
    fun t s a h => ⟨by rw [h, List.append_nil], fun _ h => absurd h List.not_mem_nil,
      fun _ => List.nodup_nil⟩
  refine Stmt.ind ?_ ?_ ?_ ?_ ?_ ?_ ?_ ?_
  · intro site n b body ih s a ha
    rw [accessesIn] at ha
    obtain ⟨p, h⟩ := ih _ a ha
    refine ⟨p, h.loops, ?_, ?_⟩
    · rw [loopIds_decl]
      exact h.ids
    · rw [loopIds_decl]
      exact h.nodup
  · intro site head body ih s a ha
    simp only [accessesIn, List.mem_append] at ha
    rcases ha with (ha | ha) | ha
    · exact ⟨[], hHere _ s a (Scope.loops_of_mem_reads ha)⟩
    · exact ⟨[], hHere _ s a (Scope.loops_of_mem_reads ha)⟩
    · obtain ⟨p, h⟩ := ih _ a ha
      refine ⟨⟨site.id, head⟩ :: p, ?_, ?_, ?_⟩
      · rw [h.loops, List.append_assoc]
        rfl
      · rw [loopIds_loop]
        intro l hl
        rcases List.mem_cons.mp hl with rfl | hl
        · exact List.mem_cons_self
        · exact List.mem_cons_of_mem _ (h.ids l hl)
      · rw [loopIds_loop, List.map_cons]
        intro hNodup
        obtain ⟨hSite, hBody⟩ := List.nodup_cons.mp hNodup
        refine List.nodup_cons.mpr ⟨?_, h.nodup hBody⟩
        rw [List.mem_map]
        rintro ⟨l, hl, hid⟩
        have hMem := h.ids l hl
        rw [hid] at hMem
        exact hSite hMem
  · intro site e body ih s a ha
    simp only [accessesIn, List.mem_append] at ha
    rcases ha with ha | ha
    · exact ⟨[], hHere _ s a (Scope.loops_of_mem_reads ha)⟩
    · obtain ⟨p, h⟩ := ih _ a ha
      refine ⟨p, h.loops, ?_, ?_⟩
      · rw [loopIds_guard]
        exact h.ids
      · rw [loopIds_guard]
        exact h.nodup
  · intro site e yes no ihYes ihNo s a ha
    simp only [accessesIn, List.mem_append] at ha
    rcases ha with (ha | ha) | ha
    · exact ⟨[], hHere _ s a (Scope.loops_of_mem_reads ha)⟩
    · obtain ⟨p, h⟩ := ihYes _ a ha
      refine ⟨p, h.loops, ?_, ?_⟩
      · rw [loopIds_branch]
        exact fun l hl => List.mem_append_left _ (h.ids l hl)
      · rw [loopIds_branch]
        exact fun hNodup => h.nodup (List.nodup_append.mp hNodup).1
    · obtain ⟨p, h⟩ := ihNo _ a ha
      refine ⟨p, h.loops, ?_, ?_⟩
      · rw [loopIds_branch]
        exact fun l hl => List.mem_append_right _ (h.ids l hl)
      · rw [loopIds_branch]
        exact fun hNodup => h.nodup (List.nodup_append.mp hNodup).2.1
  · exact fun site b is v s a ha => ⟨[], hHere _ s a (loops_of_mem_accessesIn_store ha)⟩
  · intro site f args s a ha
    cases ha
  · intro site ts ih s a ha
    rw [accessesIn, accessesInAll_eq_flatMap] at ha
    obtain ⟨t, ht, ha⟩ := List.mem_flatMap.mp ha
    obtain ⟨p, h⟩ := ih t ht _ a ha
    refine ⟨p, h.loops, ?_, ?_⟩
    · rw [loopIds_block]
      exact fun l hl => List.mem_flatMap.mpr ⟨t, ht, h.ids l hl⟩
    · rw [loopIds_block]
      exact fun hNodup => h.nodup ((List.nodup_flatMap.mp hNodup).1 t ht)
  · intro site s a ha
    cases ha

/-- Accesses in parts of a program without common loops have no inner loops in common. -/
theorem forked_of_disjoint {t u : Stmt} {s : Scope} {a b : Access} {p q : List Enclosing}
    (ha : t.Inner s a p) (hb : u.Inner s b q)
    (h : ∀ x ∈ t.loopIds, ∀ y ∈ u.loopIds, x ≠ y) : Forked p q :=
  .of_disjoint fun l hl l' hl' => h l.id (ha.ids l hl) l'.id (hb.ids l' hl')

/-- **Forks**: the loops around two accesses of a program branch. -/
theorem forked_of_mem_accessesIn :
    ∀ (t : Stmt) (s : Scope) (a b : Access) (p q : List Enclosing), t.loopIds.Nodup →
      a ∈ t.accessesIn s → b ∈ t.accessesIn s → a.loops = s.loops ++ p → b.loops = s.loops ++ q →
        Forked p q := by
  have hHere : ∀ {s : Scope} {a : Access} {p : List Enclosing}, a.loops = s.loops →
      a.loops = s.loops ++ p → p = [] := by
    intro s a p h hp
    rw [h] at hp
    exact List.self_eq_append_right.mp hp
  refine Stmt.ind ?_ ?_ ?_ ?_ ?_ ?_ ?_ ?_
  · intro site n buffer body ih s a b p q hNodup ha hb hp hq
    rw [accessesIn] at ha hb
    rw [loopIds_decl] at hNodup
    exact ih _ a b p q hNodup ha hb hp hq
  · intro site head body ih s a b p q hNodup ha hb hp hq
    rw [loopIds_loop] at hNodup
    simp only [accessesIn, List.mem_append] at ha hb
    rcases ha with (ha | ha) | ha
    · exact hHere (Scope.loops_of_mem_reads ha) hp ▸ Forked.nil_left q
    · exact hHere (Scope.loops_of_mem_reads ha) hp ▸ Forked.nil_left q
    · rcases hb with (hb | hb) | hb
      · exact hHere (Scope.loops_of_mem_reads hb) hq ▸ Forked.nil_right p
      · exact hHere (Scope.loops_of_mem_reads hb) hq ▸ Forked.nil_right p
      · -- both are in the body, below this loop
        obtain ⟨p', hp'⟩ := exists_inner_of_mem_accessesIn body _ a ha
        obtain ⟨q', hq'⟩ := exists_inner_of_mem_accessesIn body _ b hb
        have hFork := ih _ a b p' q' (List.nodup_cons.mp hNodup).2 ha hb hp'.loops hq'.loops
        have hpp : p = ⟨site.id, head⟩ :: p' := by
          have h := hp.symm.trans hp'.loops
          rw [List.append_assoc] at h
          exact List.append_cancel_left h
        have hqq : q = ⟨site.id, head⟩ :: q' := by
          have h := hq.symm.trans hq'.loops
          rw [List.append_assoc] at h
          exact List.append_cancel_left h
        rw [hpp, hqq]
        exact hFork.cons _
  · intro site e body ih s a b p q hNodup ha hb hp hq
    rw [loopIds_guard] at hNodup
    simp only [accessesIn, List.mem_append] at ha hb
    rcases ha with ha | ha
    · exact hHere (Scope.loops_of_mem_reads ha) hp ▸ Forked.nil_left q
    · rcases hb with hb | hb
      · exact hHere (Scope.loops_of_mem_reads hb) hq ▸ Forked.nil_right p
      · exact ih s a b p q hNodup ha hb hp hq
  · intro site e yes no ihYes ihNo s a b p q hNodup ha hb hp hq
    rw [loopIds_branch] at hNodup
    obtain ⟨hYes, hNo, hDisjoint⟩ := List.nodup_append.mp hNodup
    have hInner : ∀ {t : Stmt} {a : Access} {p : List Enclosing}, a ∈ t.accessesIn s →
        a.loops = s.loops ++ p → t.Inner s a p := by
      intro t a p ha hp
      obtain ⟨p', hp'⟩ := exists_inner_of_mem_accessesIn t s a ha
      rwa [List.append_cancel_left (hp.symm.trans hp'.loops)]
    simp only [accessesIn, List.mem_append] at ha hb
    rcases ha with (ha | ha) | ha
    · exact hHere (Scope.loops_of_mem_reads ha) hp ▸ Forked.nil_left q
    · rcases hb with (hb | hb) | hb
      · exact hHere (Scope.loops_of_mem_reads hb) hq ▸ Forked.nil_right p
      · exact ihYes s a b p q hYes ha hb hp hq
      · exact forked_of_disjoint (hInner ha hp) (hInner hb hq) hDisjoint
    · rcases hb with (hb | hb) | hb
      · exact hHere (Scope.loops_of_mem_reads hb) hq ▸ Forked.nil_right p
      · exact forked_of_disjoint (hInner ha hp) (hInner hb hq)
          fun x hx y hy => (hDisjoint y hy x hx).symm
      · exact ihNo s a b p q hNo ha hb hp hq
  · intro site buffer is v s a b p q _ ha _ hp _
    exact hHere (loops_of_mem_accessesIn_store ha) hp ▸ Forked.nil_left q
  · intro site f args s a b p q _ ha
    cases ha
  · intro site ts ih s a b p q hNodup ha hb hp hq
    rw [loopIds_block] at hNodup
    obtain ⟨hEach, hDisjoint⟩ := List.nodup_flatMap.mp hNodup
    rw [accessesIn, accessesInAll_eq_flatMap] at ha hb
    obtain ⟨t, ht, ha⟩ := List.mem_flatMap.mp ha
    obtain ⟨u, hu, hb⟩ := List.mem_flatMap.mp hb
    obtain ⟨i, hi, rfl⟩ := List.mem_iff_getElem.mp ht
    obtain ⟨j, hj, rfl⟩ := List.mem_iff_getElem.mp hu
    by_cases hij : i = j
    · subst hij
      exact ih _ ht s a b p q (hEach _ ht) ha hb hp hq
    · obtain ⟨p', hp'⟩ := exists_inner_of_mem_accessesIn _ s a ha
      obtain ⟨q', hq'⟩ := exists_inner_of_mem_accessesIn _ s b hb
      rw [List.append_cancel_left (hp.symm.trans hp'.loops),
        List.append_cancel_left (hq.symm.trans hq'.loops)]
      apply forked_of_disjoint hp' hq'
      rcases Nat.lt_or_gt_of_ne hij with h | h
      · have hApart := List.pairwise_iff_getElem.mp hDisjoint i j hi hj h
        exact fun x hx y hy hxy => hApart hx (hxy ▸ hy)
      · have hApart := List.pairwise_iff_getElem.mp hDisjoint j i hj hi h
        exact fun x hx y hy hxy => hApart hy (hxy ▸ hx)
  · intro site s a b p q _ ha
    cases ha

end Stmt

/-! ## Owners -/

/-- When a name is declared at a place, it has an owner there, which came into being in the iterations
    around the declaration. -/
def Place.OwnedAt (p : Place) (b : String) : Prop :=
  ∀ d, p.scope.decls.lookup b = some d →
    ∃ o, p.owners.lookup b = some o ∧ o.turn = p.turn.take d ∧ d ≤ p.turn.length

/-- Below declarations of local buffers every declared name has an owner, which came into being in
    the iterations around its declaration. -/
def Place.Owned (p : Place) : Prop :=
  ∀ b d, p.scope.decls.lookup b = some d →
    ∃ o, p.owners.lookup b = some o ∧ o.turn = p.turn.take d ∧ d ≤ p.turn.length

/-- The owner of a touched cell came into being in the iterations around its declaration. -/
def Touch.Owned (x : Touch) : Prop :=
  ∀ d, x.access.declDepth = some d →
    ∃ o, x.owner = some o ∧ o.turn = x.turn.take d ∧ d ≤ x.turn.length

namespace Place

variable {p : Place} {b : String}

theorem OwnedAt.enter (h : p.OwnedAt b) (l : Enclosing) (v : Int) : (p.enter l v).OwnedAt b := by
  intro d hd
  obtain ⟨o, hOwner, hTurn, hDepth⟩ := h d hd
  refine ⟨o, hOwner, ?_, ?_⟩
  · show o.turn = (p.turn ++ [v]).take d
    rw [List.take_append_of_le_length hDepth, hTurn]
  · show d ≤ (p.turn ++ [v]).length
    rw [List.length_append]
    omega

theorem OwnedAt.declare (h : p.OwnedAt b) (hLength : p.turn.length = p.scope.loops.length)
    (n : String) (id : Nat) : (p.declare n id).OwnedAt b := by
  intro d hd
  by_cases hb : b = n
  · subst hb
    have hLookup : some p.scope.loops.length = some d := by
      rw [← hd]
      simp [Place.declare, declared]
    cases hLookup
    refine ⟨⟨id, p.turn⟩, ?_, ?_, ?_⟩
    · simp [Place.declare]
    · show p.turn = p.turn.take p.scope.loops.length
      rw [← hLength, List.take_length]
    · exact Nat.le_of_eq hLength.symm
  · have hbn : (b == n) = false := beq_eq_false_iff_ne.mpr hb
    have hOuter : p.scope.decls.lookup b = some d := by
      rw [← hd]
      simp [Place.declare, declared, List.lookup_cons, hbn]
    obtain ⟨o, hOwner, hRest⟩ := h d hOuter
    refine ⟨o, ?_, hRest⟩
    rw [← hOwner]
    simp [Place.declare, List.lookup_cons, hbn]

/-- The declaration of a visible buffer changes nothing for the other names. -/
theorem OwnedAt.expose (h : p.OwnedAt b) {n : String} (hn : b ≠ n) : (p.expose n).OwnedAt b := by
  intro d hd
  refine h d ?_
  rw [← hd]
  simp [Place.expose, declared, List.lookup_cons, beq_eq_false_iff_ne.mpr hn]

theorem Owned.start : Owned {} := by
  intro b d h
  cases h

theorem Owned.enter (h : p.Owned) (l : Enclosing) (v : Int) : (p.enter l v).Owned :=
  fun b => OwnedAt.enter (h b) l v

theorem Owned.declare (h : p.Owned) (hLength : p.turn.length = p.scope.loops.length)
    (n : String) (id : Nat) : (p.declare n id).Owned :=
  fun b => OwnedAt.declare (h b) hLength n id

/-- What an owned place touches is owned. -/
theorem OwnedAt.of_mem_touch {c : Conventions} {env : Env} {m : Memory}
    {as : List Access} (hMade : ∀ a ∈ as, a.declDepth = p.scope.decls.lookup a.buffer) {x : Touch}
    (h : p.OwnedAt x.access.buffer) (hx : x ∈ p.touch c env m as) : x.Owned := by
  obtain ⟨a, ha, hTouch⟩ := List.mem_filterMap.mp hx
  obtain ⟨cell, _, rfl⟩ := Option.map_eq_some_iff.mp hTouch
  intro d hd
  exact h d ((hMade a ha).symm.trans hd)

end Place

theorem Scope.declDepth_of_mem_reads {s : Scope} {stmt : Nat}
    {reduced : Option (String × ReduceOp)} {e : Expr} {a : Access} (h : a ∈ s.reads stmt reduced e) :
    a.declDepth = s.decls.lookup a.buffer := by
  obtain ⟨b, is, _, rfl⟩ := Scope.mem_reads.mp h
  rfl

namespace Stmt

/-- The name of a declared buffer that is visible outside. -/
def visibleName? : Stmt → Option String
  | .decl _ n b _ => if b.access = .cache then none else some n
  | _ => none

/-- The declared buffers that are visible outside. -/
def visibleNames (t : Stmt) : List String := t.nodes.filterMap visibleName?

theorem visibleNames_subset {t u : Stmt} (hu : u ∈ t.children) : u.visibleNames ⊆ t.visibleNames := by
  intro b hb
  obtain ⟨v, hv, hName⟩ := List.mem_filterMap.mp hb
  exact List.mem_filterMap.mpr ⟨v, mem_nodes_of_child hu hv, hName⟩

theorem visibleNames_of_localsOnly {t : Stmt} (h : t.localsOnly = true) : t.visibleNames = [] := by
  refine List.filterMap_eq_nil_iff.mpr fun u hu => ?_
  have hLocal := everywhere_iff.mp h u hu
  unfold visibleName?
  split
  · rw [if_pos (eq_of_beq hLocal)]
  · rfl

theorem declDepth_of_mem_accessesIn_store {s : Scope} {site : Site} {b : String} {is : List Expr}
    {v : Expr} {a : Access} (h : a ∈ (Stmt.store site b is v).accessesIn s) :
    a.declDepth = s.decls.lookup a.buffer := by
  simp only [accessesIn, List.mem_append, List.mem_flatMap, List.mem_singleton] at h
  rcases h with (⟨i, _, h⟩ | h) | rfl
  · exact Scope.declDepth_of_mem_reads h
  · exact Scope.declDepth_of_mem_reads h
  · rfl

/-- **Owners of touches**: a touch is owned unless its buffer is declared as a visible one. -/
theorem owned_of_not_visible {c : Conventions} :
    ∀ (t : Stmt) (p : Place) (env : Env) (m : Memory) (x : Touch), x.access.buffer ∉ t.visibleNames →
      p.OwnedAt x.access.buffer → p.turn.length = p.scope.loops.length →
        x ∈ t.touchesWith c p env m → x.Owned := by
  have hBelow : ∀ {t u : Stmt} {b : String}, u ∈ t.children → b ∉ t.visibleNames →
      b ∉ u.visibleNames := fun hu hb hMem => hb (visibleNames_subset hu hMem)
  refine Stmt.ind ?_ ?_ ?_ ?_ ?_ ?_ ?_ ?_
  · intro s n b body ih p env m x hLocal hOwned hLength hx
    have hBody := hBelow (u := body) (by simp [children]) hLocal
    by_cases hCache : b.access = .cache
    · simp only [touchesWith, if_pos hCache] at hx
      exact ih _ _ _ x hBody (hOwned.declare hLength n s.id) hLength hx
    · simp only [touchesWith, if_neg hCache] at hx
      refine ih _ _ _ x hBody (hOwned.expose ?_) hLength hx
      rintro rfl
      refine hLocal (List.mem_filterMap.mpr ⟨_, self_mem_nodes _, ?_⟩)
      rw [visibleName?, if_neg hCache]
  · intro s h body ih p env m x hLocal hOwned hLength hx
    simp only [touchesWith, List.mem_append] at hx
    rcases hx with hx | hx
    · refine hOwned.of_mem_touch ?_ hx
      intro a ha
      rcases List.mem_append.mp ha with ha | ha
      · exact Scope.declDepth_of_mem_reads ha
      · exact Scope.declDepth_of_mem_reads ha
    · split at hx
      · obtain ⟨v, _, m', hx⟩ := Trace.mem_inTurn hx
        refine ih _ _ m' x (hBelow (by simp [children]) hLocal) (hOwned.enter _ v) ?_ hx
        simp [Place.enter, hLength]
      · cases hx
  · intro s e body ih p env m x hLocal hOwned hLength hx
    simp only [touchesWith, List.mem_append] at hx
    rcases hx with hx | hx
    · exact hOwned.of_mem_touch (fun a => Scope.declDepth_of_mem_reads) hx
    · split at hx
      · split at hx
        · cases hx
        · exact ih p env m x (hBelow (by simp [children]) hLocal) hOwned hLength hx
      · cases hx
  · intro s e yes no ihYes ihNo p env m x hLocal hOwned hLength hx
    simp only [touchesWith, List.mem_append] at hx
    rcases hx with hx | hx
    · exact hOwned.of_mem_touch (fun a => Scope.declDepth_of_mem_reads) hx
    · split at hx
      · split at hx
        · exact ihNo p env m x (hBelow (by simp [children]) hLocal) hOwned hLength hx
        · exact ihYes p env m x (hBelow (by simp [children]) hLocal) hOwned hLength hx
      · cases hx
  · intro s b is v p env m x _ hOwned _ hx
    exact hOwned.of_mem_touch (fun a => declDepth_of_mem_accessesIn_store) hx
  · intro s f args p env m x _ _ _ hx
    cases hx
  · intro s ts ih p env m x hLocal hOwned hLength hx
    rw [touchesWith, touchesAllWith_eq_inTurn] at hx
    obtain ⟨t, ht, m', hx⟩ := Trace.mem_inTurn hx
    exact ih t ht p env m' x (hBelow (by simpa [children] using ht) hLocal) hOwned hLength hx
  · intro s p env m x _ _ _ hx
    cases hx

/-- When all declared buffers are local, every touch is owned. -/
theorem owned_of_mem_touchesWith {c : Conventions} (t : Stmt) (p : Place) (env : Env) (m : Memory)
    (x : Touch) (hLocal : t.localsOnly = true) (hOwned : p.Owned)
    (hLength : p.turn.length = p.scope.loops.length) (hx : x ∈ t.touchesWith c p env m) : x.Owned :=
  owned_of_not_visible t p env m x (by simp [visibleNames_of_localsOnly hLocal])
    (hOwned x.access.buffer) hLength hx

end Stmt

end LoopNest

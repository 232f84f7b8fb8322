import Mathlib
import LoopNest.Proofs.PermutedNests

/-! # Reordered loops

  An accepted request to reorder loops keeps what a program does.

  * **Requests**: what `Restructure.reorder` has checked when it succeeds (`Reordered`).
  * **The nest**: the new nest runs like the old one wherever the bounds of its loops and the
    conditions in it have values (`Reordered.alike`).
  * **Programs**: what this means for the memory a program leaves (`reorder_preserves`). -/

namespace LoopNest

/-! ## Expressions with values -/

namespace Expr

variable {c : Conventions} {E : Env → Prop} {a b : Expr}

theorem DefinedOn.both (ha : a.DefinedOn c E) (hb : b.DefinedOn c E) :
    (a.both b).DefinedOn c E := by
  intro env hEnv m hm
  obtain ⟨x, hx⟩ := Option.isSome_iff_exists.mp (ha env hEnv m hm)
  obtain ⟨y, hy⟩ := Option.isSome_iff_exists.mp (hb env hEnv m hm)
  simp [Expr.both, valueWith?, hx, hy, BinaryOp.valueWith?, BinaryOp.value?]

theorem DefinedOn.var_equals (hb : b.DefinedOn c E) (x : String) :
    ((var x).equals b).DefinedOn c E := by
  intro env hEnv m hm
  obtain ⟨y, hy⟩ := Option.isSome_iff_exists.mp (hb env hEnv m hm)
  simp [Expr.equals, valueWith?, hy, BinaryOp.valueWith?, BinaryOp.value?]

theorem DefinedOn.minus_one (ha : a.DefinedOn c E) : (a.minus (.int 1)).DefinedOn c E := by
  intro env hEnv m hm
  obtain ⟨x, hx⟩ := Option.isSome_iff_exists.mp (ha env hEnv m hm)
  rw [valueWith?_minus hx (b := .int 1) rfl]
  rfl

end Expr

namespace Restructure

open Stmt (LabelledLoop mem_of_loopAt)

variable {t t' : Stmt}

/-! ## Requests -/

/-- What is in the body of a loop is in the loop. -/
theorem mem_nodes_stmt {l : LabelledLoop} {u : Stmt} (h : u ∈ l.body.nodes) : u ∈ l.stmt.nodes := by
  rw [LabelledLoop.stmt, Stmt.nodes_loop]
  exact List.mem_cons_of_mem _ h

/-- The loops that a request names are different from each other. -/
theorem of_namedLoops : ∀ (labels : List String) (found named : List LabelledLoop),
    namedLoops t found labels = .ok named → (found.map (·.site.id)).Nodup →
      (named.map (·.site.id)).Nodup
        ∧ ∀ l ∈ named, l ∈ found ∨ ∃ label ∈ labels, t.loopAt label = .ok l := by
  intro labels
  induction labels with
  | nil =>
    intro found named h hNodup
    cases h
    exact ⟨hNodup, fun l hl => .inl hl⟩
  | cons label labels ih =>
    intro found named h hNodup
    obtain ⟨l, hAt, h⟩ := Outcome.bind_eq_ok.mp h
    split at h
    · cases h
    · rename_i hNew
      have hNext : ((found ++ [l]).map (·.site.id)).Nodup := by
        rw [List.map_append, List.nodup_append]
        refine ⟨hNodup, List.nodup_singleton _, ?_⟩
        rintro a ha b hb rfl
        obtain ⟨l', hl', rfl⟩ := List.mem_map.mp ha
        apply hNew
        rw [List.any_eq_true]
        exact ⟨l', hl', by simpa using hb⟩
      obtain ⟨hNamed, hEach⟩ := ih _ _ h hNext
      refine ⟨hNamed, fun l' hl' => ?_⟩
      rcases hEach l' hl' with hl' | ⟨label', hLabel, hAt'⟩
      · rcases List.mem_append.mp hl' with hl' | hl'
        · exact .inl hl'
        · rw [List.mem_singleton.mp hl']
          exact .inr ⟨label, List.mem_cons_self, hAt⟩
      · exact .inr ⟨label', List.mem_cons_of_mem _ hLabel, hAt'⟩

/-- The places of the members of a list in another order of it are all places. -/
theorem places_perm {named chain : List LabelledLoop} (hPerm : chain.Perm named)
    (hNodup : (named.map (·.site.id)).Nodup) :
    (named.map fun l => chain.findIdx (·.site.id == l.site.id)).Perm
      (List.range chain.length) := by
  have hFound : ∀ l ∈ named, ∃ h : chain.findIdx (·.site.id == l.site.id) < chain.length,
      chain[chain.findIdx (·.site.id == l.site.id)].site.id = l.site.id := by
    intro l hl
    have hLess : chain.findIdx (·.site.id == l.site.id) < chain.length :=
      List.findIdx_lt_length_of_exists ⟨l, hPerm.symm.subset hl, beq_self_eq_true _⟩
    exact ⟨hLess, by simpa using List.findIdx_getElem (w := hLess)⟩
  have hPlaces : (named.map fun l => chain.findIdx (·.site.id == l.site.id)).Nodup := by
    apply List.Nodup.map_on _ hNodup.of_map
    intro l hl l' hl' hEq
    obtain ⟨_, hId⟩ := hFound l hl
    obtain ⟨_, hId'⟩ := hFound l' hl'
    apply List.inj_on_of_nodup_map hNodup hl hl'
    rw [← hId, ← hId']
    simp only [hEq]
  apply (List.subperm_of_subset hPlaces ?_).perm_of_length_le
  · simp [hPerm.length_eq]
  · intro k hk
    obtain ⟨l, hl, rfl⟩ := List.mem_map.mp hk
    exact List.mem_range.mpr (hFound l hl).1

/-- The loops that a request names, outermost first. -/
def chainOf (t : Stmt) (labels : List String) : Outcome (List LabelledLoop) := do
  let named ← namedLoops t [] labels
  return named.mergeSort fun a b => depth t a ≤ depth t b

/-- What an accepted request to reorder loops has come to, unless the loops have the order already.

    * **chain**, **named**, **ids**: the loops of the chain, outermost first, are those of the
      request, each once;
    * **nested**: each of them lies in the one before;
    * **requested**, **places**: the new order is the requested one, it has every loop once;
    * **bounds**: no bound depends on other loops of the chain or on what is written in it;
    * **perfect**: the chain has become a perfect nest;
    * **obstacle**: no dependence stands against the new order;
    * **result**: the permuted nest takes the place of the chain. -/
structure Reordered (maxLevels : Nat) (t t' : Stmt) (labels : List String) (outer : LabelledLoop)
    (rest : List LabelledLoop) (order : List Nat) (nest : PerfectNest) : Prop where
  chain : chainOf t labels = .ok (outer :: rest)
  named : ∀ l ∈ outer :: rest, ∃ label ∈ labels, t.loopAt label = .ok l
  ids : ((outer :: rest).map (·.site.id)).Nodup
  nested : nested (outer :: rest) = true
  requested : ∀ request, namedLoops t [] labels = .ok request →
    order = request.map fun l => (outer :: rest).findIdx (·.site.id == l.site.id)
  places : order.Perm (List.range (outer :: rest).length)
  bounds : ∀ l ∈ outer :: rest,
    checkBounds outer.stmt.written ((outer :: rest).map (·.head.iter)) l = .ok ()
  perfect : perfect outer.stmt.written t.size outer rest = .ok nest
  obstacle : nest.stmt.reorderObstacle? maxLevels nest.levels order = none
  result : t' = t.update outer.site.id fun _ => nestOf (order.filterMap (nest.loops[·]?)) nest.body

theorem reorder_cases {maxLevels : Nat} {labels : List String}
    (h : reorder maxLevels t labels = .ok t') :
    t' = t ∨ ∃ outer rest order nest, Reordered maxLevels t t' labels outer rest order nest := by
  unfold reorder at h
  split at h
  · cases h
  · obtain ⟨named, hNamed, h⟩ := Outcome.bind_eq_ok.mp h
    obtain ⟨hNodup, hEach⟩ := of_namedLoops labels [] named hNamed List.nodup_nil
    dsimp only at h
    have hPerm := List.mergeSort_perm named fun a b => decide (depth t a ≤ depth t b)
    have hChain : chainOf t labels
        = .ok (named.mergeSort fun a b => decide (depth t a ≤ depth t b)) := by
      rw [chainOf, hNamed]
      rfl
    generalize named.mergeSort (fun a b => decide (depth t a ≤ depth t b)) = chain at h hPerm hChain
    split at h
    · cases h
    · rename_i hNested
      split at h
      · cases h
        exact .inl rfl
      · split at h
        · cases h
          exact .inl rfl
        · rename_i outer rest _
          obtain ⟨⟨⟩, hBounds, h⟩ := Outcome.bind_eq_ok.mp h
          obtain ⟨nest, hPerfect, h⟩ := Outcome.bind_eq_ok.mp h
          split at h
          · cases h
          · rename_i hObstacle
            cases h
            refine .inr ⟨outer, rest, _, nest, hChain, ?_, (hPerm.map _).nodup_iff.mpr hNodup, ?_,
              fun request hRequest => by rw [Except.ok.inj (hNamed.symm.trans hRequest)],
              places_perm hPerm hNodup, Outcome.forM_eq_ok.mp hBounds, hPerfect, hObstacle, rfl⟩
            · intro l hl
              exact (hEach l (hPerm.subset hl)).resolve_left List.not_mem_nil
            · simpa using hNested

/-- The inner loops of a chain lie in the body of the outermost one. -/
theorem mem_of_nested (hIds : t.ids.Nodup) :
    ∀ (rest : List LabelledLoop) (outer : LabelledLoop), nested (outer :: rest) = true →
      (∀ l ∈ outer :: rest, l.stmt ∈ t.nodes) → ∀ l ∈ rest, l.stmt ∈ outer.body.nodes := by
  intro rest
  induction rest with
  | nil =>
    intro _ _ _ l hl
    cases hl
  | cons inner rest ih =>
    intro outer hNested hMem l hl
    obtain ⟨hHolds, hRest⟩ := Bool.and_eq_true_iff.mp hNested
    have hInner : inner.stmt ∈ outer.body.nodes := by
      obtain ⟨w, hw, hId⟩ := List.mem_map.mp (List.contains_iff_mem.mp hHolds)
      have hOuter := hMem outer List.mem_cons_self
      have hTree : w ∈ t.nodes :=
        Stmt.mem_nodes_trans (mem_nodes_stmt hw) hOuter
      have hSame : w = inner.stmt :=
        List.inj_on_of_nodup_map hIds hTree (hMem inner (by simp)) hId
      rwa [← hSame]
    rcases List.mem_cons.mp hl with rfl | hl
    · exact hInner
    · have hBelow := ih inner hRest (fun l hl => hMem l (List.mem_cons_of_mem outer hl)) l hl
      exact Stmt.mem_nodes_trans (mem_nodes_stmt hBelow) hInner

theorem of_checkBounds {writes iters : List String} {l : LabelledLoop}
    (h : checkBounds writes iters l = .ok ()) :
    ∀ bound ∈ [l.head.lower, l.head.upper], bound.Avoids writes
      ∧ ∀ x ∈ iters, x ≠ l.head.iter → bound.mentions x = false := by
  intro bound hBound
  have hHere := Outcome.forM_eq_ok.mp h bound hBound
  split at hHere
  · cases hHere
  · rename_i hFind
    split at hHere
    · cases hHere
    · rename_i hReads
      refine ⟨Expr.avoids_of_any hReads, ?_⟩
      intro x hx hne
      have hNot := List.find?_eq_none.mp hFind x hx
      simpa [hne] using hNot

/-! ## The nest -/

/-- Loops that a reordering can take apart.

    * **locals**: all buffers that are declared inside are local;
    * **lower**, **upper**: no bound mentions the iterator of its own loop. -/
structure Neat (l : LabelledLoop) : Prop where
  locals : l.stmt.localsOnly = true
  lower : l.head.lower.mentions l.head.iter = false
  upper : l.head.upper.mentions l.head.iter = false

/-- Loops that may be reordered without a change of what they do.

    * **locals**: all buffers that are declared inside are local;
    * **noDeps**: nothing is asserted about dependences;
    * **lower**, **upper**: no bound mentions the iterator of its own loop. -/
structure Tidy (l : LabelledLoop) : Prop where
  locals : l.stmt.localsOnly = true
  noDeps : l.head.noDeps = []
  lower : l.head.lower.mentions l.head.iter = false
  upper : l.head.upper.mentions l.head.iter = false

theorem Tidy.neat {l : LabelledLoop} (h : Tidy l) : Neat l := ⟨h.locals, h.lower, h.upper⟩

/-- The bounds of a loop and the conditions in it have values in some environments. -/
structure Settled (c : Conventions) (E : Env → Prop) (l : LabelledLoop) : Prop where
  lower : l.head.lower.DefinedOn c E
  upper : l.head.upper.DefinedOn c E
  conds : ∀ s e body, Stmt.guard s e body ∈ l.stmt.nodes → e.DefinedOn c E

variable {maxLevels : Nat} {labels : List String} {outer : LabelledLoop} {rest : List LabelledLoop}
  {order : List Nat} {nest : PerfectNest} {c : Conventions} {E : Env → Prop}

theorem Settled.closed {l : LabelledLoop} (hLower : l.head.lower.DefinedOn c E)
    (hUpper : l.head.upper.DefinedOn c E) {olds : List Stmt}
    (hConds : ∀ s e body, Stmt.guard s e body ∈ olds → e.DefinedOn c E) :
    CondClosed olds (fun e => e.DefinedOn c E) l where
  old := hConds
  both _ _ ha hb := ha.both hb
  first := hLower.var_equals _
  last := hUpper.minus_one.var_equals _

/-- What is true of the loops that a request names is true of the chain. -/
theorem Reordered.forall_chain (h : Reordered maxLevels t t' labels outer rest order nest)
    {P : LabelledLoop → Prop} (hP : ∀ label ∈ labels, ∀ l, t.loopAt label = .ok l → P l) :
    ∀ l ∈ outer :: rest, P l := by
  intro l hl
  obtain ⟨label, hLabel, hAt⟩ := h.named l hl
  exact hP label hLabel l hAt

theorem Reordered.mem_nodes (h : Reordered maxLevels t t' labels outer rest order nest) :
    ∀ l ∈ outer :: rest, l.stmt ∈ t.nodes := h.forall_chain fun _ _ _ hAt => mem_of_loopAt hAt

/-- Loops of the chain lead to environments that the program reaches. -/
theorem Reordered.reaches_set (h : Reordered maxLevels t t' labels outer rest order nest) {env : Env} :
    ∀ l ∈ outer :: rest, ∀ env' v, t.Reaches env env' → t.Reaches env (env'.set l.head.iter v) := by
  intro l hl env' v hReach x hx
  rw [Env.set_ne, hReach x hx]
  rintro rfl
  exact hx ⟨l.site, l.head, l.body, h.mem_nodes l hl, rfl⟩

/-- The chain has different iterators when a request names no two loops with one iterator. -/
theorem Reordered.nodup_iters (h : Reordered maxLevels t t' labels outer rest order nest)
    (hIters : ∀ label ∈ labels, ∀ label' ∈ labels, ∀ l l', t.loopAt label = .ok l →
      t.loopAt label' = .ok l' → l.head.iter = l'.head.iter → l.site.id = l'.site.id) :
    ((outer :: rest).map (·.head.iter)).Nodup := by
  apply List.Nodup.map_on _ h.ids.of_map
  intro l hl l' hl' hIter
  obtain ⟨label, hLabel, hAt⟩ := h.named l hl
  obtain ⟨label', hLabel', hAt'⟩ := h.named l' hl'
  exact List.inj_on_of_nodup_map h.ids hl hl' (hIters label hLabel label' hLabel' l l' hAt hAt' hIter)

/-- The perfect nest of an accepted request runs like the chain. -/
theorem Reordered.perfected (h : Reordered maxLevels t t' labels outer rest order nest)
    (hIds : t.ids.Nodup) (hLess : ∀ w ∈ t.nodes, w.id < t.size)
    (hNeat : ∀ l ∈ outer :: rest, Neat l) (hSettled : ∀ l ∈ outer :: rest, Settled c E l)
    (hEnv : ∀ l ∈ outer :: rest, ∀ env v, E env → E (env.set l.head.iter v)) :
    Perfected outer.stmt.nodes t.size (fun e => e.DefinedOn c E) c E outer rest nest := by
  have hOuter := h.mem_nodes outer List.mem_cons_self
  have hInside := mem_of_nested hIds rest outer h.nested h.mem_nodes
  refine perfect_perfected (Stmt.nodup_ids_of_mem hIds hOuter)
    (fun w hw => hLess w (Stmt.mem_nodes_trans hw hOuter)) ?_ (fun _ he => he) rest outer t.size nest
    (Nat.le_refl _) (fun u hu => .old (mem_nodes_stmt hu)) ?_ hEnv h.perfect
  · intro s x is v hStore
    exact Stmt.mem_written ⟨s, is, v, hStore⟩
  · intro l hl
    have hl' : l ∈ outer :: rest := List.mem_cons_of_mem _ hl
    have hBounds := of_checkBounds (h.bounds l hl')
    have hHere := hSettled l hl'
    refine ⟨mem_nodes_stmt (hInside l hl), ⟨?_, ?_, ?_, ?_⟩, hHere.lower, hHere.upper, ?_⟩
    · exact (hBounds _ (by simp)).1
    · exact (hBounds _ (by simp)).1
    · exact (hNeat l hl').lower
    · exact (hNeat l hl').upper
    · exact Settled.closed hHere.lower hHere.upper (hSettled outer List.mem_cons_self).conds

/-- The loops of the chain do not depend on each other. -/
theorem Reordered.fixed (h : Reordered maxLevels t t' labels outer rest order nest)
    (hNeat : ∀ l ∈ outer :: rest, Neat l) (hSettled : ∀ l ∈ outer :: rest, Settled c E l)
    {env : Env} (hE : E env) {m : Memory} (hm : m.Full) :
    ∀ l ∈ outer :: rest, Fixed c outer.stmt.written ((outer :: rest).map (·.head.iter)) env m
      l.head := by
  intro l hl
  have hBounds := of_checkBounds (h.bounds l hl)
  have hFree : ∀ bound ∈ [l.head.lower, l.head.upper], bound.mentions l.head.iter = false →
      ∀ x ∈ (outer :: rest).map (·.head.iter), bound.mentions x = false := by
    intro bound hBound hOwn x hx
    by_cases hSame : x = l.head.iter
    · rw [hSame]
      exact hOwn
    · exact (hBounds bound hBound).2 x hx hSame
  exact {
    lowerAvoids := (hBounds _ (by simp)).1
    upperAvoids := (hBounds _ (by simp)).1
    lowerFree := hFree _ (by simp) (hNeat l hl).lower
    upperFree := hFree _ (by simp) (hNeat l hl).upper
    lower := (hSettled l hl).lower env hE m hm
    upper := (hSettled l hl).upper env hE m hm }

/-- The perfect nest may be looked at one iteration at a time. -/
theorem Reordered.regular (h : Reordered maxLevels t t' labels outer rest order nest)
    (hIds : t.ids.Nodup) (hLess : ∀ w ∈ t.nodes, w.id < t.size)
    (hIters : ((outer :: rest).map (·.head.iter)).Nodup)
    (hNeat : ∀ l ∈ outer :: rest, Neat l) (hSettled : ∀ l ∈ outer :: rest, Settled c E l)
    (hEnv : ∀ l ∈ outer :: rest, ∀ env v, E env → E (env.set l.head.iter v)) {env : Env}
    (hE : E env) {m : Memory} (hm : m.Full) :
    Regular c outer.stmt.written ((outer :: rest).map (·.head.iter)) env m nest.loops nest.body := by
  have hMade := h.perfected hIds hLess hNeat hSettled hEnv
  have hOuter := h.mem_nodes outer List.mem_cons_self
  have hLoop : ∀ l ∈ nest.loops, ∃ l' ∈ outer :: rest, l.2 = l'.head := by
    intro l hl
    rw [hMade.loops] at hl
    obtain ⟨l', hl', rfl⟩ := List.mem_map.mp hl
    exact ⟨l', hl', rfl⟩
  refine ⟨hm, hMade.ids.nodup (Stmt.nodup_loopIds (Stmt.nodup_ids_of_mem hIds hOuter)), ?_, ?_, ?_,
    ?_, ?_⟩
  · rw [hMade.loops, List.map_map]
    exact hIters
  · apply Stmt.everywhere_iff.mpr
    intro u hu
    cases hMade.body u hu with
    | old hOld => exact Stmt.everywhere_iff.mp (hNeat outer List.mem_cons_self).locals u hOld
    | block s ts hBlock _ => rw [hBlock]; rfl
    | guard s e body hGuard _ _ => rw [hGuard]; rfl
  · rintro x ⟨s, is, v, hStore⟩
    cases hMade.body _ hStore with
    | old hOld => exact Stmt.mem_written ⟨s, is, v, hOld⟩
    | block s ts hBlock _ => cases hBlock
    | guard s e body hGuard _ _ => cases hGuard
  · intro l hl
    obtain ⟨l', hl', hHead⟩ := hLoop l hl
    rw [hHead]
    exact h.fixed hNeat hSettled hE hm l' hl'
  · intro l hl
    obtain ⟨l', hl', hHead⟩ := hLoop l hl
    rw [hHead]
    exact List.mem_map_of_mem hl'

/-- The new order has every loop of the perfect nest once. -/
theorem Reordered.order_perm (h : Reordered maxLevels t t' labels outer rest order nest)
    (hLoops : nest.loops = (outer :: rest).map fun l => (l.site, l.head)) :
    order.Perm (List.range nest.loops.length) := by
  rw [hLoops, List.length_map]
  exact h.places

/-- **Reordered nests**: the permuted nest runs like the chain where all bounds and conditions have
    values. -/
theorem Reordered.alike (h : Reordered maxLevels t t' labels outer rest order nest)
    (hIds : t.ids.Nodup) (hLess : ∀ w ∈ t.nodes, w.id < t.size)
    (hIters : ((outer :: rest).map (·.head.iter)).Nodup)
    (hTidy : ∀ l ∈ outer :: rest, Tidy l) (hSettled : ∀ l ∈ outer :: rest, Settled c E l)
    (hEnv : ∀ l ∈ outer :: rest, ∀ env v, E env → E (env.set l.head.iter v)) {env : Env}
    (hE : E env) : (outer.stmt.change c env).Alike
      ((nestOf (order.filterMap (nest.loops[·]?)) nest.body).change c env) := by
  have hNeat : ∀ l ∈ outer :: rest, Neat l := fun l hl => (hTidy l hl).neat
  have hMade := h.perfected hIds hLess hNeat hSettled hEnv
  intro m hm
  rw [hMade.runs env hE m hm]
  refine change_permuted (h.regular hIds hLess hIters hNeat hSettled hEnv hE hm) ?_
    (h.order_perm hMade.loops) h.obstacle
  intro l hl
  rw [hMade.loops] at hl
  obtain ⟨l', hl', rfl⟩ := List.mem_map.mp hl
  exact (hTidy l' hl').noDeps

/-! ## Programs -/

/-- The loops that a request names are tidy, hold no float constants and have different iterators. -/
structure Suited (t : Stmt) (labels : List String) : Prop where
  tidy : ∀ label ∈ labels, ∀ l, t.loopAt label = .ok l → Tidy l
  floats : ∀ label ∈ labels, ∀ l, t.loopAt label = .ok l →
    ∀ u ∈ l.stmt.nodes, ∀ e ∈ u.exprs, e.hasFloat = false
  iters : ∀ label ∈ labels, ∀ label' ∈ labels, ∀ l l', t.loopAt label = .ok l →
    t.loopAt label' = .ok l' → l.head.iter = l'.head.iter → l.site.id = l'.site.id

/-- The program runs as before with the permuted nest in the place of the chain, where the bounds of
    its loops and the conditions in them have values. -/
theorem Reordered.change_alike (h : Reordered maxLevels t t' labels outer rest order nest)
    (hIds : t.ids.Nodup) (hLess : ∀ w ∈ t.nodes, w.id < t.size) (hc : c.Full)
    (hIters : ((outer :: rest).map (·.head.iter)).Nodup) (hTidy : ∀ l ∈ outer :: rest, Tidy l)
    {env : Env} (hSettled : ∀ l ∈ outer :: rest, Settled c (t.Reaches env) l) :
    (t.change c env).Alike (t'.change c env) := by
  rw [h.result]
  have hReplaces := Stmt.replaces_update (u := outer.stmt)
    (v := nestOf (order.filterMap (nest.loops[·]?)) nest.body) t hIds (h.mem_nodes outer List.mem_cons_self)
  exact hReplaces.change_alike hIds hc rfl (fun _ _ _ => rfl) env fun env' hReach =>
    h.alike hIds hLess hIters hTidy hSettled h.reaches_set hReach

/-- The program runs as before after its loops were reordered, where all bounds and conditions have
    values. -/
theorem change_reorder (hIds : t.ids.Nodup) (hLess : ∀ w ∈ t.nodes, w.id < t.size)
    (h : reorder maxLevels t labels = .ok t') (hSuited : Suited t labels) (hc : c.Full) {env : Env}
    (hSettled : ∀ label ∈ labels, ∀ l, t.loopAt label = .ok l → Settled c (t.Reaches env) l) :
    (t.change c env).Alike (t'.change c env) := by
  rcases reorder_cases h with rfl | ⟨outer, rest, order, nest, hReordered⟩
  · exact .refl _
  · exact hReordered.change_alike hIds hLess hc (hReordered.nodup_iters hSuited.iters)
      (hReordered.forall_chain hSuited.tidy) (hReordered.forall_chain hSettled)

/-- Without float constants bounds and conditions have values when divisions by zero have one. -/
theorem Settled.of_floats (hQuotient : c.quotient.isSome) {l : LabelledLoop}
    (hFloats : ∀ u ∈ l.stmt.nodes, ∀ e ∈ u.exprs, e.hasFloat = false) : Settled c E l := by
  have hDefined : ∀ u ∈ l.stmt.nodes, ∀ e ∈ u.exprs, e.DefinedOn c E := by
    intro u hu e he env _ m hm
    exact Expr.valueWith?_isSome hQuotient hm e (Expr.not_hasFloat_iff.mp (hFloats u hu e he))
  refine ⟨hDefined _ (Stmt.self_mem_nodes _) _ ?_, hDefined _ (Stmt.self_mem_nodes _) _ ?_, ?_⟩
  · exact List.mem_cons_self
  · exact List.mem_cons_of_mem _ List.mem_cons_self
  · exact fun s e body hGuard => hDefined _ hGuard e List.mem_cons_self

theorem Suited.settled (h : Suited t labels) (hQuotient : c.quotient.isSome) {label : String}
    (hLabel : label ∈ labels) {l : LabelledLoop} (hAt : t.loopAt label = .ok l) :
    Settled c E l := .of_floats hQuotient (h.floats label hLabel l hAt)

/-- **Reordering keeps results**: when a program and the one with reordered loops both leave a
    memory, it is the same one. They fail on the same memories when the bounds of the loops and the
    conditions in them have values. -/
theorem reorder_preserves {t t' : Stmt} {maxLevels : Nat} {labels : List String}
    (h : reorder maxLevels t.number labels = .ok t') (hSuited : Suited t.number labels)
    {fresh m : Memory} (hFresh : fresh.Full) (hm : m.Full) (env : Env) :
    (∀ before after, (t.number.run fresh env m).map Prod.fst = some before →
      (t'.run fresh env m).map Prod.fst = some after → after = before)
    ∧ ((∀ label ∈ labels, ∀ l, t.number.loopAt label = .ok l →
        Settled (.reference fresh) (t.number.Reaches env) l) →
      (t'.run fresh env m).map Prod.fst = (t.number.run fresh env m).map Prod.fst) := by
  have hIds := Stmt.nodup_ids_number t
  have hLess : ∀ w ∈ t.number.nodes, w.id < t.number.size := fun w hw =>
    Stmt.lt_size_number _ (List.mem_map_of_mem hw)
  simp only [← Stmt.change_reference]
  constructor
  · -- both runs go on when divisions by zero have a value, and then they are the same
    intro before after hBefore hAfter
    let total : Conventions := ⟨fun _ => fresh, some 0⟩
    have hTotal : total.Extends (.reference fresh) := by
      constructor
      · intro l b cell v hv
        exact hv
      · intro q hq
        cases hq
    have hEach : ∀ {u : Stmt} {m' : Memory}, u.change (.reference fresh) env m = some m' →
        u.change total env m = some m' := by
      intro u m' hRun
      obtain ⟨M, hM, hExtends⟩ := Stmt.change_within hTotal u env m m' m hRun (fun _ _ _ hv => hv)
      have hFull : m'.Full := Stmt.full_of_change hm hRun
      rw [hM, hExtends.eq_of_full hFull]
    have hAlike : (t.number.change total env).Alike (t'.change total env) :=
      change_reorder hIds hLess h hSuited (fun _ => hFresh)
        fun label hLabel l hAt => hSuited.settled rfl hLabel hAt
    have hSame := hAlike m hm
    rw [hEach hBefore, hEach hAfter] at hSame
    exact (Option.some.inj hSame).symm
  · intro hSettled
    exact (change_reorder hIds hLess h hSuited (fun _ => hFresh) hSettled m hm).symm

/-! ### Two nests -/

/-- A request for two loops is about no others. -/
theorem eq_of_loopAt_pair {a b label : String} {l l' w : LabelledLoop} (ha : t.loopAt a = .ok l)
    (hb : t.loopAt b = .ok l') (hLabel : label ∈ [a, b]) (hAt : t.loopAt label = .ok w) :
    w = l ∨ w = l' := by
  rcases List.mem_pair.mp hLabel with rfl | rfl
  · exact .inl (Except.ok.inj (hAt.symm.trans ha))
  · exact .inr (Except.ok.inj (hAt.symm.trans hb))

theorem forall_of_pair {P : LabelledLoop → Prop} {a b : String} {l l' : LabelledLoop}
    (ha : t.loopAt a = .ok l) (hb : t.loopAt b = .ok l') (h : P l) (h' : P l') :
    ∀ label ∈ [a, b], ∀ w, t.loopAt label = .ok w → P w := by
  intro label hLabel w hAt
  rcases eq_of_loopAt_pair ha hb hLabel hAt with rfl | rfl
  · exact h
  · exact h'

/-- Of two loops with different iterators, those with one iterator are one. -/
theorem iters_of_pair {a b : String} {l l' : LabelledLoop} (ha : t.loopAt a = .ok l)
    (hb : t.loopAt b = .ok l') (hIters : l.head.iter ≠ l'.head.iter) :
    ∀ label ∈ [a, b], ∀ label' ∈ [a, b], ∀ w w', t.loopAt label = .ok w → t.loopAt label' = .ok w' →
      w.head.iter = w'.head.iter → w.site.id = w'.site.id := by
  intro label hLabel label' hLabel' w w' hAt hAt' hSame
  rcases eq_of_loopAt_pair ha hb hLabel hAt with rfl | rfl
  · rcases eq_of_loopAt_pair ha hb hLabel' hAt' with rfl | rfl
    · rfl
    · exact absurd hSame hIters
  · rcases eq_of_loopAt_pair ha hb hLabel' hAt' with rfl | rfl
    · exact absurd hSame.symm hIters
    · rfl

theorem Suited.pair {a b : String} {l l' : LabelledLoop} (ha : t.loopAt a = .ok l)
    (hb : t.loopAt b = .ok l') (hTidy : Tidy l) (hTidy' : Tidy l')
    (hFloats : ∀ u ∈ l.stmt.nodes, ∀ e ∈ u.exprs, e.hasFloat = false)
    (hFloats' : ∀ u ∈ l'.stmt.nodes, ∀ e ∈ u.exprs, e.hasFloat = false)
    (hIters : l.head.iter ≠ l'.head.iter) : Suited t [a, b] :=
  ⟨forall_of_pair ha hb hTidy hTidy', forall_of_pair ha hb hFloats hFloats',
    iters_of_pair ha hb hIters⟩

/-- The inner loop of `framedOuter`: it adds the outer iterator to the cells from 1 on. -/
def framedInner : LabelledLoop where
  site := ⟨3, some "L2"⟩
  head := { iter := "j", lower := .int 0, upper := .int 3 }
  body := .guard ⟨4, none⟩ (.lessThan (.int 0) (.var "j"))
    (.store ⟨5, none⟩ "y" [.var "j"] (.add (.load "y" [.var "j"]) (.var "i")))

/-- A nest with a statement in front of the inner loop. -/
def framedOuter : LabelledLoop where
  site := ⟨0, some "L1"⟩
  head := { iter := "i", lower := .int 0, upper := .int 2 }
  body := .block ⟨1, none⟩ [.store ⟨2, none⟩ "z" [.var "i"] (.var "i"), framedInner.stmt]

/-- The nest with the loops in the other order: the statement runs in the first iteration of the loop
    that was the inner one. -/
def framedSwapped : Stmt :=
  .loop framedInner.site framedInner.head (.loop framedOuter.site framedOuter.head
    (.block ⟨7, none⟩ [.guard ⟨6, none⟩ (.equals (.var "j") (.int 0))
      (.store ⟨2, none⟩ "z" [.var "i"] (.var "i")), framedInner.body]))

theorem framed_suited : Suited framedOuter.stmt ["L2", "L1"] :=
  have hInner : framedOuter.stmt.loopAt "L2" = .ok framedInner := rfl
  have hOuter : framedOuter.stmt.loopAt "L1" = .ok framedOuter := rfl
  .pair hInner hOuter ⟨rfl, rfl, rfl, rfl⟩ ⟨rfl, rfl, rfl, rfl⟩
    (by decide) (by decide) (by decide)

/-- The bounds and the condition of the nest have values everywhere: they hold no division. -/
theorem framed_settled (c : Conventions) (E : Env → Prop) {label : String}
    (hLabel : label ∈ ["L2", "L1"]) {l : LabelledLoop}
    (hAt : framedOuter.stmt.loopAt label = .ok l) : Settled c E l := by
  have hConds : ∀ s e body, Stmt.guard s e body ∈ framedOuter.stmt.nodes → e.DefinedOn c E := by
    intro s e body hGuard
    simp only [framedOuter, framedInner, LabelledLoop.stmt, Stmt.nodes, Stmt.nodesAll,
      List.append_nil, List.mem_cons, List.not_mem_nil, or_false, reduceCtorEq, false_or,
      List.cons_append, List.nil_append] at hGuard
    obtain ⟨_, rfl, _⟩ := Stmt.guard.inj hGuard
    exact fun _ _ _ _ => rfl
  have hInner : framedInner.stmt ∈ framedOuter.stmt.nodes :=
    List.mem_of_getElem? (i := 3) rfl
  have hOuter : framedOuter.stmt.loopAt "L1" = .ok framedOuter := rfl
  have hInnerAt : framedOuter.stmt.loopAt "L2" = .ok framedInner := rfl
  rcases eq_of_loopAt_pair hInnerAt hOuter hLabel hAt with rfl | rfl
  · exact ⟨fun _ _ _ _ => rfl, fun _ _ _ _ => rfl,
      fun s e body hGuard => hConds s e body (Stmt.mem_nodes_trans hGuard hInner)⟩
  · exact ⟨fun _ _ _ _ => rfl, fun _ _ _ _ => rfl, hConds⟩

theorem framed_preserved :
    reorder defaultLevels framedOuter.stmt.number ["L2", "L1"] = .ok framedSwapped
      ∧ (framedSwapped.run (fun _ _ => some 0) (fun _ => 0) fun _ _ => some 0).map Prod.fst
        = (framedOuter.stmt.number.run (fun _ _ => some 0) (fun _ => 0)
            fun _ _ => some 0).map Prod.fst := by
  have hAccepted : reorder defaultLevels framedOuter.stmt.number ["L2", "L1"]
      = .ok framedSwapped := by cbv
  refine ⟨hAccepted, ?_⟩
  exact (reorder_preserves hAccepted framed_suited (fun _ _ => rfl) (fun _ _ => rfl) _).2
    fun label hLabel l hAt => framed_settled _ _ hLabel hAt

/-- The inner loop of `hollowOuter`, whose upper bound divides by the scalar `n`. -/
def hollowInner : LabelledLoop where
  site := ⟨1, some "L2"⟩
  head := { iter := "j", lower := .int 0, upper := .binary .floorDiv (.int 4) (.var "n") }
  body := .store ⟨2, none⟩ "y" [.var "i", .var "j"] (.int 1)

/-- A loop without iterations around another one. -/
def hollowOuter : LabelledLoop where
  site := ⟨0, some "L1"⟩
  head := { iter := "i", lower := .int 0, upper := .int 0 }
  body := hollowInner.stmt

/-- The loops of `hollowOuter` in the other order. -/
def hollowSwapped : Stmt :=
  .loop hollowInner.site hollowInner.head (.loop hollowOuter.site hollowOuter.head hollowInner.body)

/-- The nest leaves every memory as it is, also when `n` is 0. With its loops in the other order it
    divides by `n`. -/
theorem hollow_not_preserved :
    reorder defaultLevels hollowOuter.stmt.number ["L2", "L1"] = .ok hollowSwapped
      ∧ Suited hollowOuter.stmt.number ["L2", "L1"]
      ∧ (hollowOuter.stmt.number.run (fun _ _ => some 0) (fun _ => 0)
          fun _ _ => some 0).map Prod.fst = some (fun _ _ => some 0)
      ∧ (hollowSwapped.run (fun _ _ => some 0) (fun _ => 0) fun _ _ => some 0).map Prod.fst
        = none := by
  refine ⟨by cbv, ?_, rfl, rfl⟩
  have hInner : hollowOuter.stmt.number.loopAt "L2" = .ok hollowInner := rfl
  have hOuter : hollowOuter.stmt.number.loopAt "L1" = .ok hollowOuter := rfl
  exact .pair hInner hOuter ⟨rfl, rfl, rfl, rfl⟩ ⟨rfl, rfl, rfl, rfl⟩ (by decide) (by decide) (by decide)

end Restructure

end LoopNest

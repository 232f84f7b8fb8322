import LoopNest.Proofs.ComposedOrders
import LoopNest.Proofs.KeptBindings
import LoopNest.Proofs.ReadTables
import LoopNest.Proofs.TypedRuns

/-! # Reordering perfect chains

  In a perfect chain of loops each loop is all that is in the one before (`PerfectChain`). Nothing has
  to be moved to reorder it, so a request comes down to the question whether a dependence stands
  against it.

  * **Requests**: what becomes of every request for all loops of a chain
    (`PerfectChain.reorder_eq`).
  * **Seats**: after the program has been numbered again the loops have their numbers by place. So the
    new program has a perfect chain again (`PerfectChain.moved`).
  * **Back again**: a request for the old order yields the old program, or a dependence stands against
    it (`PerfectChain.number_back`, `reorder_back`). -/

namespace LoopNest

namespace Stmt

/-! ## Found statements -/

/-- A statement is found under its label when labels are different. -/
theorem labelled?_of_mem {t u : Stmt} {label : String} (hLabels : t.labels.Nodup) (hu : u ∈ t.nodes)
    (hLabel : u.label? = some label) : t.labelled? label = some u := by
  unfold labels at hLabels
  unfold labelled?
  generalize t.nodes = nodes at *
  induction nodes with
  | nil => cases hu
  | cons v vs ih =>
    by_cases hHere : v.label? = some label
    · rw [List.filterMap_cons_some hHere, List.nodup_cons] at hLabels
      rcases List.mem_cons.mp hu with rfl | hu
      · rw [List.find?_cons_of_pos (by simp [hLabel])]
      · exact absurd (List.mem_filterMap.mpr ⟨u, hu, hLabel⟩) hLabels.1
    · rw [List.find?_cons_of_neg (by simpa using hHere)]
      rcases List.mem_cons.mp hu with rfl | hu
      · exact absurd hLabel hHere
      · refine ih (hLabels.sublist ?_) hu
        exact (List.sublist_cons_self v vs).filterMap _

theorem loopAt_of_mem {t : Stmt} {l : LabelledLoop} {label : String} (hLabels : t.labels.Nodup)
    (hl : l.stmt ∈ t.nodes) (hLabel : l.site.label = some label) : t.loopAt label = .ok l := by
  rw [loopAt, labelled?_of_mem hLabels hl hLabel]
  rfl

/-- The statements around something in a statement are those around the statement and those in it. -/
theorem path?_append {u : Stmt} {i : Nat} : ∀ t : Stmt, t.ids.Nodup → u ∈ t.nodes → i ∈ u.ids →
    ∃ p q, t.path? u.id = some p ∧ u.path? i = some q ∧ t.path? i = some (p ++ q) := by
  refine children_ind fun t ih hIds hu hi => ?_
  rw [nodes_eq_cons, List.mem_cons] at hu
  rcases hu with rfl | hu
  · obtain ⟨q, hq⟩ := exists_path? u hIds hi
    exact ⟨[], q, path?_self u, hq, hq⟩
  · obtain ⟨w, hw, hu⟩ := List.mem_flatMap.mp hu
    obtain ⟨p, q, hp, hq, hBoth⟩ :=
      ih w hw (nodup_ids_of_mem hIds (mem_nodes_of_child hw (self_mem_nodes w))) hu hi
    exact ⟨t :: p, q, path?_of_child hIds hw (List.mem_map_of_mem hu) hp, hq,
      path?_of_child hIds hw (ids_subset hu hi) hBoth⟩

end Stmt

namespace Stmt

/-! ## Numbers of replaced statements -/

theorem Replaces.ids_eq {u v t t' : Stmt} (h : Replaces u v t t') (hIds : v.ids = u.ids) :
    t'.ids = t.ids := by
  induction h with
  | here => exact hIds
  | decl _ _ _ _ ih => rw [ids_decl, ids_decl, ih]
  | loop _ _ _ ih => rw [ids_loop, ids_loop, ih]
  | guard _ _ _ ih => rw [ids_guard, ids_guard, ih]
  | yes _ _ _ _ ih => rw [ids_branch, ids_branch, ih]
  | no _ _ _ _ ih => rw [ids_branch, ids_branch, ih]
  | block _ _ _ _ ih => simp only [ids_block, List.flatMap_append, List.flatMap_cons, ih]

/-- Statements that are numbered alike may stand for each other in a program that is numbered. -/
theorem numberFrom_update {v w : Stmt} (hSame : ∀ n, v.numberFrom n = w.numberFrom n) {p : Nat} :
    ∀ (t : Stmt) (n : Nat),
      (t.update p fun _ => v).numberFrom n = (t.update p fun _ => w).numberFrom n := by
  refine Stmt.ind ?decl ?loop ?guard ?branch ?store ?call ?block ?hole
  case decl =>
    intro s x b body ih n
    rw [update_decl, update_decl]
    split
    · exact hSame n
    · rw [numberFrom, numberFrom, ih]
  case loop =>
    intro s head body ih n
    rw [update_loop, update_loop]
    split
    · exact hSame n
    · rw [numberFrom, numberFrom, ih]
  case guard =>
    intro s e body ih n
    rw [update_guard, update_guard]
    split
    · exact hSame n
    · rw [numberFrom, numberFrom, ih]
  case branch =>
    intro s e yes no ihYes ihNo n
    rw [update_branch, update_branch]
    split
    · exact hSame n
    · simp only [numberFrom, ihYes, ihNo]
  case block =>
    intro s ts ih n
    rw [update_block, update_block]
    split
    · exact hSame n
    · have hAll : ∀ (us : List Stmt), (∀ u ∈ us, u ∈ ts) → ∀ m,
          numberAllFrom m (us.map (update p fun _ => v))
            = numberAllFrom m (us.map (update p fun _ => w)) := by
        intro us
        induction us with
        | nil => exact fun _ _ => rfl
        | cons u us ihAll =>
          intro hMem m
          simp only [List.map_cons, numberAllFrom, ih u (hMem u List.mem_cons_self),
            ihAll fun x hx => hMem x (List.mem_cons_of_mem u hx)]
      simp only [numberFrom, hAll ts fun _ hu => hu]
  case store | call | hole =>
    intros
    rw [update_eq, update_eq]
    split
    · exact hSame _
    · rfl

end Stmt

namespace Restructure

open Stmt (LabelledLoop)

variable {t : Stmt} {body : Stmt} {names request : List String} {k : Nat}

/-! ## Chains -/

/-- The loops of a nest, each with what is in it. -/
def loopsIn (body : Stmt) : List (Site × LoopHead) → List LabelledLoop
  | [] => []
  | l :: loops => ⟨l.1, l.2, nestOf loops body⟩ :: loopsIn body loops

theorem map_loopsIn (body : Stmt) (loops : List (Site × LoopHead)) :
    (loopsIn body loops).map (fun l => (l.site, l.head)) = loops := by
  induction loops with
  | nil => rfl
  | cons l loops ih => exact congrArg (List.cons l) ih

theorem mem_nodes_of_mem_loopsIn {l : LabelledLoop} : ∀ {loops : List (Site × LoopHead)},
    l ∈ loopsIn body loops → l.stmt ∈ (nestOf loops body).nodes := by
  intro loops
  induction loops with
  | nil => exact fun h => absurd h List.not_mem_nil
  | cons a loops ih =>
    intro h
    rcases List.mem_cons.mp h with rfl | h
    · exact Stmt.self_mem_nodes _
    · exact mem_nodes_stmt (l := ⟨a.1, a.2, nestOf loops body⟩) (ih h)

/-- A perfect chain of loops in a program: each loop is all that is in the one before.

    * **labels**: the loops have these labels;
    * **iters**, **bounds**: they have different iterators, and no bound mentions that of another loop;
    * **calls**: there are no calls in it. -/
structure PerfectChain (t : Stmt) (names : List String) (loops : List (Site × LoopHead))
    (body : Stmt) : Prop where
  nest : nestOf loops body ∈ t.nodes
  labels : loops.map (·.1.label) = names.map some
  iters : (loops.map (·.2.iter)).Nodup
  bounds : BoundsFree loops
  calls : body.calls = []

/-- The levels of a nest. -/
def levelsOf (loops : List (Site × LoopHead)) : List Level := loops.map fun l => l.2.level l.1.id

/-- No bound of some loops reads what is written in a statement. -/
def BoundsAvoid (t : Stmt) (loops : List (Site × LoopHead)) : Prop :=
  ∀ l ∈ loops, ∀ e ∈ [l.2.lower, l.2.upper], e.Avoids t.written

/-- The loops of a nest lie in each other. -/
theorem nested_loopsIn (body : Stmt) : ∀ loops : List (Site × LoopHead),
    nested (loopsIn body loops) = true
  | [] => rfl
  | [_] => rfl
  | a :: b :: loops => by
    have hHolds : (nestOf (b :: loops) body).holds b.1.id = true :=
      List.contains_iff_mem.mpr (Stmt.id_mem_ids (nestOf (b :: loops) body))
    show ((nestOf (b :: loops) body).holds b.1.id && nested (loopsIn body (b :: loops))) = true
    rw [hHolds, nested_loopsIn body (b :: loops)]
    rfl

/-- A perfect chain is its own perfect nest. -/
theorem perfect_loopsIn (writes : List String) (next : Nat) (body : Stmt) :
    ∀ (loops : List (Site × LoopHead)) (l : Site × LoopHead),
      perfect writes next ⟨l.1, l.2, nestOf loops body⟩ (loopsIn body loops)
        = .ok ⟨l :: loops, body⟩ := by
  intro loops
  induction loops with
  | nil => exact fun l => rfl
  | cons inner loops ih =>
    intro l
    have hGather : gather writes ⟨inner.1, inner.2, nestOf loops body⟩ ⟨[], [], []⟩
        (nestOf (inner :: loops) body) = .ok ⟨[], [], []⟩ := if_pos rfl
    rw [loopsIn, perfect]
    exact Outcome.bind_eq_ok.mpr ⟨_, hGather, Outcome.bind_eq_ok.mpr ⟨(), rfl,
      Outcome.bind_eq_ok.mpr ⟨_, ih inner, rfl⟩⟩⟩

/-- Inner loops lie deeper. -/
theorem pairwise_depth (hIds : t.ids.Nodup) : ∀ {loops : List (Site × LoopHead)},
    nestOf loops body ∈ t.nodes → (loopsIn body loops).Pairwise fun a b => depth t a < depth t b := by
  intro loops
  induction loops with
  | nil => exact fun _ => .nil
  | cons l loops ih =>
    intro hNest
    have hBelow : nestOf loops body ∈ (nestOf (l :: loops) body).inside := by
      show nestOf loops body ∈ (Stmt.loop l.1 l.2 (nestOf loops body)).inside
      simp [Stmt.inside, Stmt.children, Stmt.self_mem_nodes]
    have hInside : nestOf loops body ∈ t.nodes :=
      Stmt.mem_nodes_trans (Stmt.mem_nodes_of_mem_inside hBelow) hNest
    refine List.pairwise_cons.mpr ⟨fun b hb => ?_, ih hInside⟩
    -- an inner loop has the outer one around it as well
    have hChild : nestOf loops body ∈ (nestOf (l :: loops) body).children := List.mem_singleton_self _
    have hMem : b.site.id ∈ (nestOf loops body).ids :=
      List.mem_map_of_mem (mem_nodes_of_mem_loopsIn hb)
    obtain ⟨p, q, hp, hq, hBoth⟩ := Stmt.path?_append t hIds hNest
      (Stmt.ids_subset (Stmt.mem_nodes_of_child hChild (Stmt.self_mem_nodes _)) hMem)
    obtain ⟨r, hr⟩ := Stmt.exists_path? (nestOf loops body) (Stmt.nodup_ids_of_mem hIds hInside) hMem
    obtain rfl : q = nestOf (l :: loops) body :: r := Option.some.inj (hq.symm.trans
      (Stmt.path?_of_child (Stmt.nodup_ids_of_mem hIds hNest) hChild hMem hr))
    have hOuter : depth t ⟨l.1, l.2, nestOf loops body⟩ = p.length := by
      have hp : t.path? l.1.id = some p := hp
      simp [depth, Stmt.around, hp]
    have hInner : depth t b = p.length + (r.length + 1) := by
      simp only [depth, Stmt.around, hBoth, Option.getD_some, List.length_reverse,
        List.length_append, List.length_cons]
    omega

/-! ## Requests for a chain -/

/-- The loops that a request names, when each is found under its label. -/
theorem namedLoops_eq : ∀ {request : List String} {named found : List LabelledLoop},
    List.Forall₂ (fun label l => t.loopAt label = .ok l) request named →
    ((found ++ named).map (·.site.id)).Nodup →
      namedLoops t found request = .ok (found ++ named) := by
  intro request
  induction request with
  | nil =>
    intro named found h _
    cases h
    rw [List.append_nil]
    rfl
  | cons label request ih =>
    intro named found h hNodup
    obtain ⟨l, named, hAt, hRest, rfl⟩ := List.forall₂_cons_left_iff.mp h
    have hSplit : found ++ l :: named = (found ++ [l]) ++ named := by simp
    have hNew : (found.any fun a => a.site.id == l.site.id) = false := by
      rw [List.any_eq_false]
      intro a ha hSame
      rw [List.map_append, List.nodup_append] at hNodup
      exact hNodup.2.2 a.site.id (List.mem_map_of_mem ha) l.site.id (by simp)
        (by simpa using hSame)
    rw [hSplit] at hNodup ⊢
    exact Outcome.bind_eq_ok.mpr ⟨l, hAt, by rw [if_neg (by simp [hNew])]; exact ih hRest hNodup⟩

/-- Sorting by depth puts the loops of a chain into their order. -/
theorem mergeSort_eq {named chain : List LabelledLoop} (hPerm : named.Perm chain)
    (hDepths : chain.Pairwise fun a b => depth t a < depth t b) :
    (named.mergeSort fun a b => depth t a ≤ depth t b) = chain := by
  have hSorted : (named.mergeSort fun a b => depth t a ≤ depth t b).Pairwise
      fun a b => depth t a ≤ depth t b :=
    (List.pairwise_mergeSort (fun a b c hab hbc => by simp only [decide_eq_true_eq] at *; omega)
      (fun a b => by simp only [Bool.or_eq_true, decide_eq_true_eq]; omega) named).imp
      fun h => of_decide_eq_true h
  have hSame := (List.mergeSort_perm named fun a b => decide (depth t a ≤ depth t b)).trans hPerm
  have hDistinct : (chain.map (depth t)).Nodup := List.pairwise_map.mpr (hDepths.imp Nat.ne_of_lt)
  exact List.Perm.eq_of_pairwise (fun a b ha hb hab hba => List.inj_on_of_nodup_map hDistinct
    (hSame.subset ha) hb (Nat.le_antisymm hab hba)) hSorted (hDepths.imp Nat.le_of_lt) hSame

/-- The place of every label of a list among those of another one. -/
def orderOf (names request : List String) : List Nat := request.map names.idxOf

/-- The places of labels tell which labels they are, so only one request keeps all places. -/
theorem orderOf_eq_range_iff (hNodup : names.Nodup) (hPerm : request.Perm names) :
    (orderOf names request == List.range (orderOf names request).length) = true
      ↔ request = names := by
  rw [beq_iff_eq, orderOf, List.length_map]
  constructor
  · intro hRange
    have hLabels : request.map some = (request.map names.idxOf).map (names[·]?) := by
      rw [List.map_map]
      exact List.map_congr_left fun x hx => (List.getElem?_idxOf (hPerm.subset hx)).symm
    refine List.map_injective_iff.mpr (Option.some_injective _) ?_
    rw [hLabels, hRange, hPerm.length_eq]
    refine List.ext_getElem (by simp) fun i hi _ => ?_
    simp only [List.length_map, List.length_range] at hi
    simp [hi]
  · rintro rfl
    exact Stmt.map_idxOf hNodup

theorem orderOf_perm (hNodup : names.Nodup) (hPerm : request.Perm names) :
    (orderOf names request).Perm (List.range names.length) := by
  rw [← Stmt.map_idxOf hNodup]
  exact hPerm.map _

section chain

variable {loops : List (Site × LoopHead)}

theorem ids_nestOf (loops : List (Site × LoopHead)) (body : Stmt) :
    (nestOf loops body).ids = loops.map (·.1.id) ++ body.ids := by
  induction loops with
  | nil => rfl
  | cons l loops ih =>
    show (Stmt.loop l.1 l.2 (nestOf loops body)).ids = _
    rw [Stmt.ids_loop, ih]
    rfl

namespace PerfectChain

theorem nodup_ids (h : PerfectChain t names loops body) (hIds : t.ids.Nodup) :
    (loops.map (·.1.id)).Nodup := by
  have hNest := Stmt.nodup_ids_of_mem hIds h.nest
  rw [ids_nestOf] at hNest
  exact (List.nodup_append.mp hNest).1

theorem nodup_names (h : PerfectChain t names loops body) (hLabels : t.labels.Nodup) :
    names.Nodup := by
  have hNest := hLabels.sublist (Stmt.labels_sublist h.nest)
  rw [labels_nestOf] at hNest
  have hOwn : loops.flatMap (·.1.label.toList) = names := by
    have hFlat : loops.flatMap (·.1.label.toList) = (loops.map (·.1.label)).flatMap Option.toList := by
      rw [List.flatMap_map]
    rw [hFlat, h.labels, List.flatMap_map]
    simp
  rw [hOwn] at hNest
  exact (List.nodup_append.mp hNest).1

/-- The loops of a chain are found under their labels. -/
theorem loopAt (h : PerfectChain t names loops body) (hLabels : t.labels.Nodup) :
    List.Forall₂ (fun name l => t.loopAt name = .ok l) names (loopsIn body loops) := by
  have hSame : (loopsIn body loops).map (·.site.label) = names.map some := by
    rw [← h.labels]
    conv_rhs => rw [← map_loopsIn body loops, List.map_map]
    rfl
  have hMapped : List.Forall₂ (fun label name => label = some name)
      ((loopsIn body loops).map (·.site.label)) names := by
    rw [hSame, List.forall₂_map_left_iff]
    exact List.forall₂_same.mpr fun _ _ => rfl
  refine (List.Forall₂.imp ?_ ((List.forall₂_and_left _ _).mpr
    ⟨fun l hl => hl, List.forall₂_map_left_iff.mp hMapped⟩)).flip
  rintro l name ⟨hl, hLabel⟩
  exact Stmt.loopAt_of_mem hLabels (Stmt.mem_nodes_trans (mem_nodes_of_mem_loopsIn hl) h.nest) hLabel

/-- Where a loop stands in a chain, its label stands in the list of the labels. -/
theorem idxOf_eq_findIdx (h : PerfectChain t names loops body) (hLabels : t.labels.Nodup)
    (hDistinct : ((loopsIn body loops).map (·.site.id)).Nodup) {name : String} {l : LabelledLoop}
    (hName : name ∈ names) (hAt : t.loopAt name = .ok l) :
    names.idxOf name = (loopsIn body loops).findIdx (·.site.id == l.site.id) := by
  have hFound := h.loopAt hLabels
  have hPlace := List.idxOf_lt_length_of_mem hName
  have hPlace' : names.idxOf name < (loopsIn body loops).length := hFound.length_eq ▸ hPlace
  have hThere : (loopsIn body loops)[names.idxOf name] = l := by
    have hHere := hFound.get hPlace hPlace'
    rw [List.get_eq_getElem, List.get_eq_getElem, List.getElem_idxOf hPlace, hAt] at hHere
    exact (Except.ok.inj hHere).symm
  have hLess : (loopsIn body loops).findIdx (·.site.id == l.site.id)
      < (loopsIn body loops).length :=
    List.findIdx_lt_length_of_exists ⟨l, hThere ▸ List.getElem_mem _, beq_self_eq_true _⟩
  -- the loop that is found has the number of `l`, and no other loop has it
  have hOther : (loopsIn body loops)[(loopsIn body loops).findIdx (·.site.id == l.site.id)] = l :=
    List.inj_on_of_nodup_map hDistinct (List.getElem_mem hLess) (hThere ▸ List.getElem_mem _)
      (by simpa using List.findIdx_getElem (w := hLess))
  exact (hDistinct.of_map.getElem_inj_iff).mp (hThere.trans hOther.symm)

/-- A request for all loops of a chain names them in the order that it has. -/
theorem exists_named (h : PerfectChain t names loops body) (hIds : t.ids.Nodup)
    (hLabels : t.labels.Nodup) (hPerm : request.Perm names) :
    ∃ named, namedLoops t [] request = .ok named ∧ named.Perm (loopsIn body loops)
      ∧ named.map (fun l => (loopsIn body loops).findIdx (·.site.id == l.site.id))
        = orderOf names request := by
  have hFound := h.loopAt hLabels
  have hDistinct : ((loopsIn body loops).map (·.site.id)).Nodup := by
    have hNodup := h.nodup_ids hIds
    rwa [← map_loopsIn body loops, List.map_map] at hNodup
  obtain ⟨named, hNamed, hSame⟩ := List.perm_comp_forall₂ hPerm hFound
  refine ⟨named, namedLoops_eq hNamed ((hSame.map _).nodup_iff.mpr hDistinct), hSame, ?_⟩
  have hPlaces : List.Forall₂ (fun name l => names.idxOf name
      = (loopsIn body loops).findIdx (·.site.id == l.site.id)) request named := by
    refine List.Forall₂.imp ?_
      ((List.forall₂_and_left _ _).mpr ⟨fun name hName => hPerm.subset hName, hNamed⟩)
    exact fun name l ⟨hName, hAt⟩ => h.idxOf_eq_findIdx hLabels hDistinct hName hAt
  rw [orderOf, eq_comm, ← List.forall₂_eq_eq_eq, List.forall₂_map_left_iff,
    List.forall₂_map_right_iff]
  exact hPlaces

/-- The bounds of a chain pass their check when they read nothing that is written in it. -/
theorem checked_iff (h : PerfectChain t names loops body) :
    (loopsIn body loops).forM (checkBounds (nestOf loops body).written
        ((loopsIn body loops).map (·.head.iter))) = .ok ()
      ↔ BoundsAvoid (nestOf loops body) loops := by
  have hMem : ∀ {l : LabelledLoop}, l ∈ loopsIn body loops → (l.site, l.head) ∈ loops := by
    intro l hl
    have hMap := List.mem_map_of_mem (f := fun l : LabelledLoop => (l.site, l.head)) hl
    rwa [map_loopsIn] at hMap
  rw [Outcome.forM_eq_ok]
  constructor
  · intro hChecked l hl e he
    rw [← map_loopsIn body loops] at hl
    obtain ⟨l', hl', rfl⟩ := List.mem_map.mp hl
    exact (of_checkBounds (hChecked l' hl') e he).1
  · intro hAvoid l hl
    refine Outcome.forM_eq_ok.mpr fun e he => ?_
    have hFind : ((loopsIn body loops).map (·.head.iter)).find?
        (fun v => v != l.head.iter && e.mentions v) = none := by
      rw [List.find?_eq_none]
      intro x hx hBad
      obtain ⟨l', hl', rfl⟩ := List.mem_map.mp hx
      rw [Bool.and_eq_true, bne_iff_ne] at hBad
      exact h.bounds _ (hMem hl) _ (hMem hl') hBad.1 e he (Expr.mentions_iff.mp hBad.2)
    have hReads : (nestOf loops body).written.any e.reads = false := by
      rw [List.any_eq_false]
      exact fun b hb => by simp [hAvoid _ (hMem hl) e he b hb]
    simp only [hFind, hReads]
    rfl

/-- **Requests** for all loops of a chain: the loops change their places, unless they have the order
    already, a bound reads what is written in them, or a dependence stands against the new order. -/
theorem reorder_eq (h : PerfectChain t names loops body) (hIds : t.ids.Nodup)
    (hLabels : t.labels.Nodup) (hPerm : request.Perm names) (hSome : request ≠ []) (k : Nat) :
    reorder k t request
      = if request = names then .ok t
        else (loopsIn body loops).forM (checkBounds (nestOf loops body).written
            ((loopsIn body loops).map (·.head.iter))) >>= fun _ =>
          match (nestOf loops body).reorderObstacle? k (levelsOf loops) (orderOf names request) with
          | some d => .error (.dependence d)
          | none => .ok (t.update (nestOf loops body).id fun _ =>
              nestOf (Expr.permuted (orderOf names request) loops) body) := by
  obtain ⟨named, hNamed, hSame, hPlaces⟩ := h.exists_named hIds hLabels hPerm
  have hSort : (named.mergeSort fun a b => depth t a ≤ depth t b) = loopsIn body loops :=
    mergeSort_eq hSame (pairwise_depth hIds h.nest)
  have hKept := orderOf_eq_range_iff (h.nodup_names hLabels) hPerm
  cases loops with
  | nil =>
    -- a chain without loops has no labels, so the request would be empty
    have hNil : names = [] := by simpa using h.labels.symm
    rw [hNil, List.perm_nil] at hPerm
    exact absurd hPerm hSome
  | cons outer loops =>
    have hNonempty : request.isEmpty = false := List.isEmpty_eq_false_iff.mpr hSome
    have hNested := nested_loopsIn body (outer :: loops)
    have hPerfect : perfect (nestOf (outer :: loops) body).written t.size
        ⟨outer.1, outer.2, nestOf loops body⟩ (loopsIn body loops) = .ok ⟨outer :: loops, body⟩ :=
      perfect_loopsIn _ _ body loops outer
    have hStmt : LabelledLoop.stmt ⟨outer.1, outer.2, nestOf loops body⟩
        = nestOf (outer :: loops) body := rfl
    rw [loopsIn] at hSort hPlaces hNested ⊢
    unfold reorder
    rw [hNonempty, if_neg Bool.false_ne_true, hNamed]
    dsimp only [bind, Except.bind]
    rw [hSort, hNested, hPlaces, if_neg (by simp)]
    by_cases hEq : request = names
    · rw [if_pos hEq, if_pos (hKept.mpr hEq)]
      rfl
    · rw [if_neg hEq, if_neg (mt hKept.mp hEq)]
      dsimp only
      rw [hStmt, hPerfect]
      rfl

end PerfectChain

/-! ## Seats -/

/-- A loop without its number. -/
def bare (l : Site × LoopHead) : Option String × LoopHead := (l.1.label, l.2)

/-- Loops with other numbers. -/
def seated (seats : List Nat) (loops : List (Site × LoopHead)) : List (Site × LoopHead) :=
  List.zipWith (fun id l => (⟨id, l.1.label⟩, l.2)) seats loops

section seats

variable {seats : List Nat}

theorem bare_seated (h : seats.length = loops.length) :
    (seated seats loops).map bare = loops.map bare := by
  induction seats generalizing loops with
  | nil => rw [List.length_eq_zero_iff.mp h.symm]; rfl
  | cons id seats ih =>
    cases loops with
    | nil => cases h
    | cons l loops => exact congrArg (List.cons _) (ih (Nat.succ.inj h))

theorem ids_seated (h : seats.length = loops.length) :
    (seated seats loops).map (·.1.id) = seats := by
  induction seats generalizing loops with
  | nil => rfl
  | cons id seats ih =>
    cases loops with
    | nil => cases h
    | cons l loops => exact congrArg (List.cons _) (ih (Nat.succ.inj h))

/-- Loops in their own seats. -/
theorem seated_self {loops' : List (Site × LoopHead)} (h : loops'.map bare = loops.map bare) :
    seated (loops.map (·.1.id)) loops' = loops := by
  induction loops generalizing loops' with
  | nil => rw [List.map_eq_nil_iff.mp h]; rfl
  | cons l loops ih =>
    obtain ⟨l', loops', rfl, hHead, hTail⟩ := List.map_eq_cons_iff.mp h
    obtain ⟨hLabel, hHead⟩ := Prod.mk.inj hHead
    show (⟨l.1.id, l'.1.label⟩, l'.2) :: seated (loops.map (·.1.id)) loops' = _
    rw [ih hTail, hLabel, hHead]

/-- Numbers are given by place. -/
theorem numberFrom_nestOf {loops' : List (Site × LoopHead)} (h : loops'.map bare = loops.map bare) :
    ∀ n, (nestOf loops' body).numberFrom n = (nestOf loops body).numberFrom n := by
  induction loops generalizing loops' with
  | nil => rw [List.map_eq_nil_iff.mp h]; exact fun _ => rfl
  | cons l loops ih =>
    obtain ⟨l', loops', rfl, hHead, hTail⟩ := List.map_eq_cons_iff.mp h
    obtain ⟨hLabel, hHead⟩ := Prod.mk.inj hHead
    intro n
    show (Stmt.loop l'.1 l'.2 (nestOf loops' body)).numberFrom n
      = (Stmt.loop l.1 l.2 (nestOf loops body)).numberFrom n
    rw [Stmt.numberFrom, Stmt.numberFrom, ih hTail, hLabel, hHead]

/-- A program in which the loops of a nest have changed places is numbered by giving them the numbers
    that the nest had. -/
theorem number_update (hIds : t.ids = List.range t.size) (hNest : nestOf loops body ∈ t.nodes)
    {loops' : List (Site × LoopHead)} (hLength : loops.length = loops'.length) :
    (t.update (nestOf loops body).id fun _ => nestOf loops' body).number
      = t.update (nestOf loops body).id fun _ => nestOf (seated (loops.map (·.1.id)) loops') body := by
  have hLength' : (loops.map (·.1.id)).length = loops'.length := by rwa [List.length_map]
  have hNodup : t.ids.Nodup := hIds ▸ List.nodup_range
  have hSame := (Stmt.replaces_update (v := nestOf (seated (loops.map (·.1.id)) loops') body) t hNodup
    hNest).ids_eq (by rw [ids_nestOf, ids_nestOf, ids_seated hLength'])
  rw [Stmt.number, Stmt.numberFrom_update
    (fun n => (numberFrom_nestOf (bare_seated hLength').symm n)) t 0]
  refine Stmt.number_eq_self ?_
  have hSize := congrArg List.length hSame
  rw [Stmt.ids, Stmt.ids, List.length_map, List.length_map] at hSize
  rw [hSame, hIds]
  exact congrArg List.range hSize.symm

end seats

/-! ## There and back -/

theorem writes_nestOf {b : String} (loops : List (Site × LoopHead)) :
    (nestOf loops body).Writes b ↔ body.Writes b := by
  induction loops with
  | nil => exact Iff.rfl
  | cons l loops ih =>
    rw [← ih]
    show (∃ s is v, Stmt.store s b is v ∈ (Stmt.loop l.1 l.2 (nestOf loops body)).nodes) ↔ _
    simp [Stmt.Writes]

/-- In the new order the loops have the labels of the request. -/
theorem permuted_orderOf (hPerm : request.Perm names) :
    Expr.permuted (orderOf names request) (names.map some) = request.map some := by
  have hEach : ∀ x ∈ request, (names.map some)[names.idxOf x]? = some (some x) := by
    intro x hx
    rw [List.getElem?_map, List.getElem?_idxOf (hPerm.subset hx)]
    rfl
  rw [Expr.permuted, orderOf, List.filterMap_map]
  exact (List.filterMap_congr hEach).trans (congrFun (List.filterMap_eq_map (f := some)) request)

theorem lt_of_mem_orderOf (hPerm : request.Perm names) {j : Nat} (hj : j ∈ orderOf names request) :
    j < names.length := by
  obtain ⟨x, hx, rfl⟩ := List.mem_map.mp hj
  exact List.idxOf_lt_length_of_mem (hPerm.subset hx)

/-- A request and the request for the old order undo each other. -/
theorem orderOf_orderOf (hNodup : names.Nodup) (hPerm : request.Perm names) :
    Expr.permuted (orderOf request names) (orderOf names request) = List.range names.length := by
  rw [← Stmt.map_idxOf hNodup, orderOf, Expr.permuted, List.filterMap_map, ← List.filterMap_eq_map]
  refine List.filterMap_congr fun x hx => ?_
  rw [Function.comp_apply, orderOf, List.getElem?_map, List.getElem?_idxOf (hPerm.symm.subset hx)]
  rfl

theorem permuted_back {α : Type} {xs : List α} (hNodup : names.Nodup) (hPerm : request.Perm names)
    (hLength : xs.length = names.length) :
    Expr.permuted (orderOf request names) (Expr.permuted (orderOf names request) xs) = xs := by
  rw [Expr.permuted_permuted fun j hj => hLength ▸ lt_of_mem_orderOf hPerm hj,
    orderOf_orderOf hNodup hPerm, ← hLength, Expr.permuted_range]

theorem PerfectChain.length_eq (h : PerfectChain t names loops body) : loops.length = names.length := by
  simpa using congrArg List.length h.labels

/-- The loops of a chain in the order of a request, with the numbers by place. -/
def turned (names request : List String) (loops : List (Site × LoopHead)) : List (Site × LoopHead) :=
  seated (loops.map (·.1.id)) (Expr.permuted (orderOf names request) loops)

/-- The program with the loops of a chain in the order of a request. -/
def turnedIn (t : Stmt) (names request : List String) (loops : List (Site × LoopHead)) (body : Stmt) :
    Stmt :=
  t.update (nestOf loops body).id fun _ => nestOf (turned names request loops) body

namespace PerfectChain

theorem permuted_perm (h : PerfectChain t names loops body) (hLabels : t.labels.Nodup)
    (hPerm : request.Perm names) : (Expr.permuted (orderOf names request) loops).Perm loops :=
  Restructure.permuted_perm (h.length_eq ▸ orderOf_perm (h.nodup_names hLabels) hPerm)

theorem bare_turned (h : PerfectChain t names loops body) (hLabels : t.labels.Nodup)
    (hPerm : request.Perm names) :
    (turned names request loops).map bare = Expr.permuted (orderOf names request) (loops.map bare) := by
  rw [turned, bare_seated (by rw [List.length_map, (h.permuted_perm hLabels hPerm).length_eq]),
    ← Expr.permuted_map]

theorem heads_turned (h : PerfectChain t names loops body) (hLabels : t.labels.Nodup)
    (hPerm : request.Perm names) :
    ((turned names request loops).map (·.2)).Perm (loops.map (·.2)) := by
  have hBare := congrArg (List.map Prod.snd) (h.bare_turned hLabels hPerm)
  rw [Expr.permuted_map, List.map_map, List.map_map] at hBare
  have hHeads : (turned names request loops).map (·.2)
      = (Expr.permuted (orderOf names request) loops).map (·.2) := hBare
  rw [hHeads]
  exact (h.permuted_perm hLabels hPerm).map _

theorem ids_turned (h : PerfectChain t names loops body) (hLabels : t.labels.Nodup)
    (hPerm : request.Perm names) :
    (turned names request loops).map (·.1.id) = loops.map (·.1.id) :=
  ids_seated (by rw [List.length_map, (h.permuted_perm hLabels hPerm).length_eq])

/-- The new program has a perfect chain, too. -/
theorem moved (h : PerfectChain t names loops body) (hIds : t.ids.Nodup) (hLabels : t.labels.Nodup)
    (hPerm : request.Perm names) :
    PerfectChain (turnedIn t names request loops body) request (turned names request loops) body := by
  have hReplaces := Stmt.replaces_update (v := nestOf (turned names request loops) body) t hIds h.nest
  have hHeads := h.heads_turned hLabels hPerm
  refine ⟨?_, ?_, ?_, ?_, h.calls⟩
  · obtain ⟨first, first', last, _, hNew, _⟩ := hReplaces.exists_nodes
    show nestOf (turned names request loops) body ∈ (t.update _ _).nodes
    rw [hNew]
    simp [Stmt.self_mem_nodes]
  · have hBare := congrArg (List.map Prod.fst) (h.bare_turned hLabels hPerm)
    have hOld : loops.map (Prod.fst ∘ bare) = names.map some := h.labels
    rw [List.map_map, ← Expr.permuted_map, List.map_map, hOld, permuted_orderOf hPerm] at hBare
    exact hBare
  · have hIters := (hHeads.map (·.iter)).nodup_iff.mpr (by rw [List.map_map]; exact h.iters)
    rwa [List.map_map] at hIters
  · intro a ha b hb
    obtain ⟨a', ha', hA⟩ := List.mem_map.mp (hHeads.subset (List.mem_map_of_mem ha))
    obtain ⟨b', hb', hB⟩ := List.mem_map.mp (hHeads.subset (List.mem_map_of_mem hb))
    rw [← hA, ← hB]
    exact h.bounds a' ha' b' hb'

theorem boundsAvoid_turned (h : PerfectChain t names loops body) (hLabels : t.labels.Nodup)
    (hPerm : request.Perm names) (hAvoid : BoundsAvoid (nestOf loops body) loops) :
    BoundsAvoid (nestOf (turned names request loops) body) (turned names request loops) := by
  intro l hl e he b hb
  obtain ⟨l', hl', hHead⟩ :=
    List.mem_map.mp ((h.heads_turned hLabels hPerm).subset (List.mem_map_of_mem hl))
  rw [← hHead] at he
  refine hAvoid l' hl' e he b (Stmt.mem_written_iff.mpr ?_)
  exact (writes_nestOf loops).mpr ((writes_nestOf _).mp (Stmt.mem_written_iff.mp hb))

/-- The new program, numbered. -/
theorem number_turned (h : PerfectChain t names loops body) (hIds : t.ids = List.range t.size)
    (hLabels : t.labels.Nodup) (hPerm : request.Perm names) :
    (t.update (nestOf loops body).id fun _ =>
        nestOf (Expr.permuted (orderOf names request) loops) body).number
      = turnedIn t names request loops body :=
  number_update hIds h.nest (h.permuted_perm hLabels hPerm).length_eq.symm

/-- The loops in the old order again. -/
theorem turned_turned (h : PerfectChain t names loops body) (hLabels : t.labels.Nodup)
    (hPerm : request.Perm names) :
    (Expr.permuted (orderOf request names) (turned names request loops)).map bare = loops.map bare := by
  rw [← Expr.permuted_map, h.bare_turned hLabels hPerm]
  exact permuted_back (h.nodup_names hLabels) hPerm (by rw [List.length_map, h.length_eq])

/-- What an accepted request for another order of a chain has come to. -/
theorem of_reorder {t' : Stmt} (h : PerfectChain t names loops body) (hIds : t.ids.Nodup)
    (hLabels : t.labels.Nodup) (hPerm : request.Perm names) (hOther : request ≠ names)
    (hReorder : reorder k t request = .ok t') :
    BoundsAvoid (nestOf loops body) loops
      ∧ (nestOf loops body).reorderObstacle? k (levelsOf loops) (orderOf names request) = none
      ∧ t' = t.update (nestOf loops body).id fun _ =>
          nestOf (Expr.permuted (orderOf names request) loops) body := by
  have hSome : request ≠ [] := by
    rintro rfl
    exact hOther (List.nil_perm.mp hPerm).symm
  rw [h.reorder_eq hIds hLabels hPerm hSome, if_neg hOther] at hReorder
  obtain ⟨⟨⟩, hChecked, hReorder⟩ := Outcome.bind_eq_ok.mp hReorder
  refine ⟨h.checked_iff.mp hChecked, ?_⟩
  split at hReorder
  · cases hReorder
  · rename_i hNone
    exact ⟨hNone, (Except.ok.inj hReorder).symm⟩

/-- The request for the old order. -/
theorem reorder_turned (h : PerfectChain t names loops body) (hIds : t.ids.Nodup)
    (hLabels : t.labels.Nodup) (hPerm : request.Perm names) (hOther : request ≠ names)
    (hAvoid : BoundsAvoid (nestOf loops body) loops)
    (hIds' : (turnedIn t names request loops body).ids.Nodup)
    (hLabels' : (turnedIn t names request loops body).labels.Nodup) :
    reorder k (turnedIn t names request loops body) names
      = match (nestOf (turned names request loops) body).reorderObstacle? k
          (levelsOf (turned names request loops)) (orderOf request names) with
        | some d => .error (.dependence d)
        | none => .ok (t.update (nestOf loops body).id fun _ =>
            nestOf (Expr.permuted (orderOf request names) (turned names request loops)) body) := by
  have hMoved := h.moved hIds hLabels hPerm
  have hSome : names ≠ [] := by
    rintro rfl
    exact hOther (List.perm_nil.mp hPerm)
  have hChecked := hMoved.checked_iff.mpr (h.boundsAvoid_turned hLabels hPerm hAvoid)
  -- the nest has its number still, which is that of the outermost seat
  have hHead : (nestOf (turned names request loops) body).id = (nestOf loops body).id := by
    have hSame := congrArg List.head? (h.ids_turned hLabels hPerm)
    cases hTurned : turned names request loops with
    | nil =>
      rw [hTurned] at hMoved
      exact absurd (hPerm.symm.trans (.of_eq (by simpa using hMoved.labels.symm))).eq_nil hSome
    | cons l' ls' =>
      cases loops with
      | nil => cases hTurned
      | cons l ls =>
        rw [hTurned] at hSame
        exact Option.some.inj hSame
  have hTwice : ∀ w, (turnedIn t names request loops body).update (nestOf loops body).id (fun _ => w)
      = t.update (nestOf loops body).id fun _ => w := fun w => Stmt.update_update hHead t
  rw [hMoved.reorder_eq hIds' hLabels' hPerm.symm hSome, if_neg (Ne.symm hOther), hChecked, hHead,
    hTwice]
  rfl

end PerfectChain

namespace PerfectChain

/-- The old program, numbered. -/
theorem number_back (h : PerfectChain t names loops body) (hIds : t.ids = List.range t.size)
    (hLabels : t.labels.Nodup) (hPerm : request.Perm names) :
    (t.update (nestOf loops body).id fun _ =>
        nestOf (Expr.permuted (orderOf request names) (turned names request loops)) body).number
      = t := by
  have hBare := h.turned_turned hLabels hPerm
  have hLength := congrArg List.length hBare
  rw [List.length_map, List.length_map] at hLength
  rw [number_update hIds h.nest hLength.symm, seated_self hBare]
  exact (Stmt.replaces_update t (hIds ▸ List.nodup_range) h.nest).eq_self

end PerfectChain

/-- **Back again**: after a request for all loops of a chain has been accepted, a request for the old
    order yields the old program, unless a dependence stands against it in the new nest. -/
theorem reorder_back {t t' : Stmt} (hLabels : t.labels.Nodup)
    (h : PerfectChain t.number names loops body) (hPerm : request.Perm names)
    (hReorder : reorder k t.number request = .ok t') :
    reorder k t'.number names = .ok t.number
      ∨ request ≠ names ∧ BoundsAvoid (nestOf loops body) loops
        ∧ (nestOf loops body).reorderObstacle? k (levelsOf loops) (orderOf names request) = none
        ∧ reorder k t'.number names
          = match (nestOf (turned names request loops) body).reorderObstacle? k
              (levelsOf (turned names request loops)) (orderOf request names) with
            | some d => .error (.dependence d)
            | none => .ok (t.number.update (nestOf loops body).id fun _ =>
                nestOf (Expr.permuted (orderOf request names) (turned names request loops)) body) := by
  have hCommitted := Stmt.committed_number hLabels
  have hIds := Stmt.nodup_ids_number t
  by_cases hEq : request = names
  · -- nothing has changed
    subst hEq
    have hSome : request ≠ [] := by
      rintro rfl
      cases hReorder
    have hSame : reorder k t.number request = .ok t.number := by
      rw [h.reorder_eq hIds hCommitted.labels hPerm hSome, if_pos rfl]
    obtain rfl : t.number = t' := Except.ok.inj (hSame.symm.trans hReorder)
    exact .inl (hCommitted.number_eq.symm ▸ hSame)
  · obtain ⟨hAvoid, hNone, hResult⟩ := h.of_reorder hIds hCommitted.labels hPerm hEq hReorder
    have hTurned : t'.number = turnedIn t.number names request loops body := by
      rw [hResult, h.number_turned hCommitted.ids hCommitted.labels hPerm]
    have hNew : t'.number.labels.Nodup := by
      rw [Stmt.labels_number]
      exact labels_reorder hCommitted.sound hReorder
    refine .inr ⟨hEq, hAvoid, hNone, ?_⟩
    rw [hTurned]
    exact h.reorder_turned hIds hCommitted.labels hPerm hEq hAvoid
      (hTurned ▸ Stmt.nodup_ids_number t') (hTurned ▸ hNew)

end chain

end Restructure

end LoopNest

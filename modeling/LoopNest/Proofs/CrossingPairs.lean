import LoopNest.Proofs.ParallelLoops
import LoopNest.Proofs.RefinedLevels

/-! # Pairs of accesses that cross iterations

  Whether a loop carries a dependence on a buffer (`Stmt.Carries`) is decided pair by pair: by an
  access and itself, and by two accesses in the order of the text (`Stmt.carries_iff`). The verdict
  lists the buffers that are carried.

  Two lists of accesses can be compared without their places. When the pairs of one list are found
  in the other one, in the same order and with at least as many subscripts (`Mirrors`), then so is
  what they carry (`Mirrors.crossing`). -/

namespace LoopNest

/-! ## Lists in order -/

theorem pair_sublist_append {α : Type} {x y : α} {l m : List α} :
    [x, y].Sublist (l ++ m) ↔ [x, y].Sublist l ∨ [x, y].Sublist m ∨ x ∈ l ∧ y ∈ m := by
  constructor
  · intro h
    obtain ⟨before, after, hSplit, hBefore, hAfter⟩ := List.sublist_append_iff.mp h
    rcases before with _ | ⟨z, _ | ⟨w, before⟩⟩
    · exact .inr (.inl (hSplit ▸ hAfter))
    · cases hSplit
      exact .inr (.inr ⟨hBefore.subset (by simp), hAfter.subset (by simp)⟩)
    · simp only [List.cons_append, List.cons.injEq] at hSplit
      obtain ⟨rfl, rfl, hRest⟩ := hSplit
      obtain ⟨rfl, rfl⟩ := List.append_eq_nil_iff.mp hRest.symm
      exact .inl hBefore
  · rintro (h | h | ⟨hx, hy⟩)
    · exact h.trans (List.sublist_append_left l m)
    · exact h.trans (List.sublist_append_right l m)
    · exact (List.singleton_sublist.mpr hx).append (List.singleton_sublist.mpr hy)

/-- Two members of a list, one member twice or two members in the order of the list. -/
inductive PairOf {α : Type} (as : List α) : Bool → α → α → Prop where
  | same {x : α} : x ∈ as → PairOf as true x x
  | apart {x y : α} : [x, y].Sublist as → PairOf as false x y

theorem PairOf.mem {α : Type} {as : List α} {same : Bool} {x y : α} (h : PairOf as same x y) :
    x ∈ as ∧ y ∈ as := by
  cases h with
  | same hx => exact ⟨hx, hx⟩
  | apart h => exact ⟨h.subset (by simp), h.subset (by simp)⟩

/-- Members that are not in the middle of a list are in the rest of it. -/
theorem PairOf.drop_middle {α : Type} {front middle rest : List α} {same : Bool} {x y : α}
    (h : PairOf (front ++ (middle ++ rest)) same x y) (hx : x ∉ middle) (hy : y ∉ middle) :
    PairOf (front ++ rest) same x y := by
  cases h with
  | same hMem =>
    refine .same ?_
    rcases List.mem_append.mp hMem with hFront | hMem
    · exact List.mem_append_left _ hFront
    · exact List.mem_append_right _ ((List.mem_append.mp hMem).resolve_left hx)
  | apart h =>
    refine .apart (pair_sublist_append.mpr ?_)
    rcases pair_sublist_append.mp h with hFront | hRest | ⟨hFront, hMem⟩
    · exact .inl hFront
    · rcases pair_sublist_append.mp hRest with hMiddle | hRest | ⟨hMiddle, _⟩
      · exact absurd (hMiddle.subset (by simp)) hx
      · exact .inr (.inl hRest)
      · exact absurd hMiddle hx
    · exact .inr (.inr ⟨hFront, (List.mem_append.mp hMem).resolve_left hy⟩)

/-- Members at places of a list. -/
theorem pairOf_iff {α : Type} {as : List α} {same : Bool} {x y : α} : PairOf as same x y ↔
    ∃ i j : Nat, as[i]? = some x ∧ as[j]? = some y ∧ i ≤ j ∧ same = (i == j) := by
  constructor
  · intro h
    cases h with
    | same hx =>
      obtain ⟨i, hi⟩ := List.mem_iff_getElem?.mp hx
      exact ⟨i, i, hi, hi, Nat.le_refl i, by simp⟩
    | apart h =>
      obtain ⟨before, after, rfl, hx, hy⟩ := List.cons_sublist_iff.mp h
      obtain ⟨i, hi⟩ := List.mem_iff_getElem?.mp hx
      obtain ⟨j, hj⟩ := List.mem_iff_getElem?.mp (List.singleton_sublist.mp hy)
      have hLt : i < before.length := (List.getElem?_eq_some_iff.mp hi).1
      refine ⟨i, before.length + j, ?_, ?_, by omega, ?_⟩
      · rw [List.getElem?_append_left hLt, hi]
      · rw [List.getElem?_append_right (Nat.le_add_right _ _), Nat.add_sub_cancel_left, hj]
      · exact (beq_eq_false_iff_ne.mpr (by omega)).symm
  · rintro ⟨i, j, hi, hj, hij, rfl⟩
    rcases Nat.eq_or_lt_of_le hij with rfl | hLt
    · obtain rfl := Option.some.inj (hi.symm.trans hj)
      rw [beq_self_eq_true]
      exact .same (List.mem_of_getElem? hi)
    · rw [beq_eq_false_iff_ne.mpr (Nat.ne_of_lt hLt)]
      refine .apart ?_
      rw [← List.take_append_drop (i + 1) as]
      refine pair_sublist_append.mpr (.inr (.inr ⟨?_, ?_⟩))
      · exact List.mem_of_getElem? ((List.getElem?_take_of_lt (Nat.lt_succ_self i)).trans hi)
      · refine List.mem_of_getElem? (i := j - (i + 1)) ?_
        rw [List.getElem?_drop, Nat.add_sub_cancel' hLt, hj]

/-! ## Crossing iterations -/

namespace Nest

variable {n : Nest}

/-- A vector of a pair crosses iterations of the first level. An access does not do so backwards
    with itself. -/
def Crosses (n : Nest) (same : Bool) (x y : Access) : Prop :=
  ∃ dirs ∈ n.vectors ⟨x, y, n.commonLevels x y⟩, dirs[0]?.any (· != .eq) = true
    ∧ (same = true → dirs.find? (· != .eq) ≠ some .gt)

theorem any_reverse (dirs : List Direction) :
    (dirs.map Direction.reverse)[0]?.any (· != .eq) = dirs[0]?.any (· != .eq) := by
  rw [List.getElem?_map]
  rcases dirs[0]? with _ | (_ | _ | _ | _) <;> rfl

theorem conflicting_iff {x y : Access} : conflicting x y = true ↔
    x.buffer = y.buffer ∧ (x.kind = .write ∨ y.kind = .write) := by
  unfold conflicting
  cases x.kind <;> cases y.kind <;> simp

/-- A pair has a dependence between iterations of the first level when it crosses them. -/
theorem exists_carried_iff {x y : Access} (hConflict : conflicting x y = true) :
    (∃ d ∈ n.between x y, d.isCarriedAt 0 = true) ↔ n.Crosses (x.position == y.position) x y := by
  constructor
  · rintro ⟨d, hd, hCarried⟩
    obtain ⟨dirs, hDirs, hd⟩ := List.mem_filterMap.mp hd
    obtain ⟨src, tgt, direction, kind, hOriented, _, rfl⟩ := dependence?_eq_some.mp hd
    refine ⟨dirs, hDirs, ?_, fun hSame hFind => ?_⟩
    · rcases oriented?_cases hOriented with ⟨_, _, rfl⟩ | ⟨_, _, rfl⟩
      · exact hCarried
      · exact (any_reverse dirs).symm.trans hCarried
    · -- an access would depend on itself backwards
      unfold oriented? at hOriented
      rw [hFind] at hOriented
      simp [hSame] at hOriented
  · rintro ⟨dirs, hDirs, hCross, hForward⟩
    have hWrite := (conflicting_iff.mp hConflict).2
    have hOriented : oriented? x y dirs = some (x, y, dirs)
        ∨ oriented? x y dirs = some (y, x, dirs.map Direction.reverse) := by
      unfold oriented?
      cases dirs with
      | nil => cases hCross
      | cons e dirs =>
        have hFirst : (e :: dirs).find? (· != .eq) = some e := List.find?_cons_of_pos hCross
        rw [hFirst] at hForward ⊢
        cases e with
        | eq => cases hCross
        | lt => exact .inl rfl
        | star => exact .inl rfl
        | gt =>
          refine .inr ?_
          dsimp only
          rw [if_neg fun hSame => hForward hSame rfl]
    rcases hOriented with hOriented | hOriented
    · obtain ⟨kind, hKind⟩ := kindBetween_isSome hWrite
      exact ⟨_, List.mem_filterMap.mpr ⟨dirs, hDirs,
        dependence?_eq_some.mpr ⟨x, y, dirs, kind, hOriented, hKind, rfl⟩⟩, hCross⟩
    · obtain ⟨kind, hKind⟩ := kindBetween_isSome hWrite.symm
      exact ⟨_, List.mem_filterMap.mpr ⟨dirs, hDirs,
        dependence?_eq_some.mpr ⟨y, x, _, kind, hOriented, hKind, rfl⟩⟩,
        (any_reverse dirs).trans hCross⟩

/-- Every dependence is one between an access and itself or a later one. -/
theorem exists_pair_of_mem_among {as : List Access} {d : Dependence} (h : d ∈ n.among as) :
    ∃ same x y, PairOf as same x y ∧ conflicting x y = true ∧ d ∈ n.between x y := by
  induction as with
  | nil => cases h
  | cons x rest ih =>
    rw [among] at h
    rcases List.mem_append.mp h with h | h
    · obtain ⟨y, hy, hd⟩ := List.mem_flatMap.mp h
      obtain ⟨hy, hConflict⟩ := List.mem_filter.mp hy
      rcases List.mem_cons.mp hy with rfl | hy
      · exact ⟨true, y, y, .same List.mem_cons_self, hConflict, hd⟩
      · refine ⟨false, x, y, .apart ?_, hConflict, hd⟩
        exact (List.singleton_sublist.mpr hy).cons_cons x
    · obtain ⟨same, y, z, hPair, hRest⟩ := ih h
      refine ⟨same, y, z, ?_, hRest⟩
      cases hPair with
      | same hy => exact .same (List.mem_cons_of_mem x hy)
      | apart hyz => exact .apart (hyz.cons x)

/-! ## Sharper pairs -/

end Nest

/-- Two subscripts have the same affine form, whatever the scalars stand for. -/
def Expr.SameForm (x y : Expr) : Prop :=
  ∀ resolve : String → Option (Affine.Form Unknown), x.linear? resolve = y.linear? resolve

theorem Expr.SameForm.refl (x : Expr) : x.SameForm x := fun _ => rfl

theorem Expr.sameForm_of_same : ∀ e f : Expr, e.same f = true → e.SameForm f := by
  refine Expr.ind ?_ ?_ ?_ ?_ ?_ ?_ ?_
  · intro v f h
    cases f <;> simp_all [same, SameForm]
  · intro v f h
    cases f <;> simp_all [same, SameForm, linear?]
  · intro v f h
    cases f <;> simp_all [same, SameForm]
  · intro x f h
    cases f <;> simp_all [same, SameForm]
  · intro b is _ f h r
    cases f <;> simp only [same, Bool.false_eq_true] at h
    rfl
  · intro op e ih f h r
    cases f <;> simp only [same, Bool.and_eq_true, beq_iff_eq, Bool.false_eq_true] at h
    obtain ⟨rfl, he⟩ := h
    cases op <;> simp only [linear?, ih _ he r]
  · intro op a b iha ihb f h r
    cases f <;> simp only [same, Bool.and_eq_true, beq_iff_eq, Bool.false_eq_true] at h
    obtain ⟨⟨rfl, ha⟩, hb⟩ := h
    simp only [linear?, iha _ ha r, ihb _ hb r]

theorem Expr.sameForms_of_sameAll {es : List Expr} :
    ∀ {fs : List Expr}, sameAll es fs = true → List.Forall₂ SameForm es fs := by
  induction es with
  | nil =>
    intro fs h
    cases fs with
    | nil => exact .nil
    | cons f fs => simp [sameAll] at h
  | cons e es ih =>
    intro fs h
    cases fs with
    | nil => simp [sameAll] at h
    | cons f fs =>
      simp only [sameAll, Bool.and_eq_true] at h
      exact .cons (sameForm_of_same e f h.1) (ih h.2)

/-- An access that is made where another one is made, with more subscripts in front. -/
structure Access.Sharpens (front : List Expr) (x y : Access) : Prop where
  loops : x.loops = y.loops
  kind : x.kind = y.kind
  depth : x.declDepth = y.declDepth
  indices : ∃ is, x.indices = front ++ is ∧ List.Forall₂ Expr.SameForm is y.indices

theorem Access.Sharpens.of_eq {x y : Access} (hLoops : x.loops = y.loops) (hKind : x.kind = y.kind)
    (hDepth : x.declDepth = y.declDepth) (hIndices : x.indices = y.indices) : x.Sharpens [] y :=
  ⟨hLoops, hKind, hDepth, y.indices, hIndices, List.forall₂_same.mpr fun e _ => .refl e⟩

namespace Nest

variable {n : Nest} {front : List Expr} {x y x' y' : Access}

/-- Subscripts with the same forms at the same loops may meet alike. -/
theorem subscriptsMayMeet_congr {common : Nat} (hx : x'.loops = x.loops) (hy : y'.loops = y.loops)
    (first second : Iterators) {e f e' f' : Expr} (he : e'.SameForm e) (hf : f'.SameForm f) :
    n.subscriptsMayMeet ⟨x', y', common⟩ first second e' f'
      = n.subscriptsMayMeet ⟨x, y, common⟩ first second e f := by
  have hRange : n.rangeOf ⟨x', y', common⟩ = n.rangeOf ⟨x, y, common⟩ := by
    funext u
    cases u with
    | offset side id => simp only [rangeOf, hx, hy]
    | _ => rfl
  unfold subscriptsMayMeet
  rw [he, hf, hRange]

theorem all_zip_congr {f g : Expr × Expr → Bool}
    (hf : ∀ e e' d d' : Expr, e'.SameForm e → d'.SameForm d → f (e', d') = g (e, d))
    {es es' : List Expr} (he : List.Forall₂ Expr.SameForm es' es) :
    ∀ {ds ds' : List Expr}, List.Forall₂ Expr.SameForm ds' ds →
      (es'.zip ds').all f = (es.zip ds).all g := by
  induction he with
  | nil => exact fun _ => rfl
  | cons hHead _ ih =>
    intro ds ds' hd
    cases hd with
    | nil => rfl
    | cons hFirst hRest =>
      rw [List.zip_cons_cons, List.zip_cons_cons, List.all_cons, List.all_cons,
        hf _ _ _ _ hHead hFirst, ih hRest]

/-- A vector that is possible with more subscripts is possible with fewer. -/
theorem mayConflict_of_sharpens {common : Nat} {dirs : List Direction} (hx : x'.Sharpens front x)
    (hy : y'.Sharpens front y) (h : n.mayConflict ⟨x', y', common⟩ dirs = true) :
    n.mayConflict ⟨x, y, common⟩ dirs = true := by
  obtain ⟨is, hIs, hFirst⟩ := hx.indices
  obtain ⟨js, hJs, hSecond⟩ := hy.indices
  unfold mayConflict at h ⊢
  rw [Bool.and_eq_true, Bool.or_eq_true] at h ⊢
  refine ⟨h.1, h.2.imp (fun hLength => ?_) fun hAll => ?_⟩
  · rw [bne_iff_ne] at hLength ⊢
    intro hEq
    refine hLength ?_
    dsimp only at hEq ⊢
    rw [hIs, hJs, List.length_append, List.length_append, hFirst.length_eq, hSecond.length_eq, hEq]
  · have hSides : n.secondIterators ⟨x', y', common⟩ dirs
        = n.secondIterators ⟨x, y, common⟩ dirs := by
      funext first
      unfold secondIterators
      dsimp only
      rw [hy.loops]
      rfl
    dsimp only at hAll ⊢
    rw [hSides, hIs, hJs, hx.loops, List.zip_append rfl, List.all_append, Bool.and_eq_true] at hAll
    refine (all_zip_congr (fun e e' d d' he hd => ?_) hFirst hSecond).symm.trans hAll.2
    exact subscriptsMayMeet_congr hx.loops hy.loops _ _ he hd

/-- A finer test of the vectors of a pair leaves fewer of them. -/
theorem refine_subset {p q : Pair} (hCommon : q.common = p.common)
    (hTest : ∀ dirs, n.mayConflict q dirs = true → n.mayConflict p dirs = true)
    {fs gs : List Bool} (hForced : List.Forall₂ (fun g f => f = true → g = true) gs fs) :
    ∀ fixed : List Direction, n.refine q fixed gs ⊆ n.refine p fixed fs := by
  have hPadded : ∀ fixed, n.padded q fixed = n.padded p fixed := fun fixed => by
    unfold padded
    rw [hCommon]
  induction hForced with
  | nil =>
    intro fixed r hr
    rw [refine] at hr ⊢
    split at hr
    · rename_i hMay
      rw [hPadded] at hMay hr
      rwa [if_pos (hTest _ hMay)]
    · cases hr
  | @cons g f gs fs hHead _ ih =>
    intro fixed r hr
    rw [refine] at hr ⊢
    split at hr
    · rename_i hMay
      rw [hPadded] at hMay
      obtain ⟨d, hd, hr⟩ := List.mem_flatMap.mp hr
      rw [if_pos (hTest _ hMay)]
      refine List.mem_flatMap.mpr ⟨d, ?_, ih _ hr⟩
      cases f with
      | true =>
        rw [hHead rfl] at hd
        exact hd
      | false =>
        cases g with
        | true => exact (List.mem_singleton.mp hd) ▸ List.mem_cons_of_mem _ List.mem_cons_self
        | false => exact hd
    · cases hr

/-- **Sharper pairs cross less**: what crosses iterations does so with fewer subscripts, when the
    loops assert no less of the new buffer. -/
theorem crosses_of_sharpens {same : Bool} (hx : x'.Sharpens front x) (hy : y'.Sharpens front y)
    (hAsserted : ∀ l ∈ n.levels, l.noDeps.contains x.buffer = true →
      l.noDeps.contains x'.buffer = true) (h : n.Crosses same x' y') : n.Crosses same x y := by
  obtain ⟨dirs, hDirs, hCross⟩ := h
  have hCommon : n.commonLevels x' y' = n.commonLevels x y := by
    unfold commonLevels
    rw [hx.loops, hy.loops]
  rw [hCommon] at hDirs
  refine ⟨dirs, refine_subset (by rfl) (fun _ => mayConflict_of_sharpens hx hy) ?_ [] hDirs, hCross⟩
  have hForced : List.Forall₂ (fun g f => f = true → g = true)
      (n.forcedEqual ⟨x', y', n.commonLevels x y⟩) (n.forcedEqual ⟨x, y, n.commonLevels x y⟩) := by
    unfold forcedEqual
    rw [List.forall₂_map_left_iff, List.forall₂_map_right_iff, List.forall₂_same]
    intro l hl hForced
    rw [Bool.or_eq_true, Bool.and_eq_true] at hForced ⊢
    refine hForced.imp (hAsserted l (List.mem_of_mem_take hl)) fun hInside => ?_
    unfold declaredInside at hInside ⊢
    dsimp only at hInside ⊢
    rwa [hx.depth, hy.depth, hx.loops, hy.loops]
  exact List.forall₂_take _ hForced

end Nest

/-! ## Mirrored lists -/

/-- The members of a list of accesses are found in another one, and those that may conflict in the
    same order. -/
structure Mirrors (R : Access → Access → Prop) (new old : List Access) : Prop where
  each : ∀ x' ∈ new, ∃ x ∈ old, R x' x
  pairs : ∀ x' y', [x', y'].Sublist new → Nest.conflicting x' y' = true →
    ∃ x y, [x, y].Sublist old ∧ R x' x ∧ R y' y

namespace Mirrors

variable {R : Access → Access → Prop} {new old new' old' : List Access}

theorem refl (h : ∀ x ∈ new, R x x) : Mirrors R new new :=
  ⟨fun x hx => ⟨x, hx, h x hx⟩, fun x y hPair _ =>
    ⟨x, y, hPair, h x (hPair.subset (by simp)), h y (hPair.subset (by simp))⟩⟩

theorem append (h : Mirrors R new old) (h' : Mirrors R new' old') :
    Mirrors R (new ++ new') (old ++ old') where
  each x' hx' := by
    rcases List.mem_append.mp hx' with hx' | hx'
    · obtain ⟨x, hx, hR⟩ := h.each x' hx'
      exact ⟨x, List.mem_append_left _ hx, hR⟩
    · obtain ⟨x, hx, hR⟩ := h'.each x' hx'
      exact ⟨x, List.mem_append_right _ hx, hR⟩
  pairs x' y' hPair hConflict := by
    rcases pair_sublist_append.mp hPair with hPair | hPair | ⟨hx', hy'⟩
    · obtain ⟨x, y, hOld, hR⟩ := h.pairs x' y' hPair hConflict
      exact ⟨x, y, pair_sublist_append.mpr (.inl hOld), hR⟩
    · obtain ⟨x, y, hOld, hR⟩ := h'.pairs x' y' hPair hConflict
      exact ⟨x, y, pair_sublist_append.mpr (.inr (.inl hOld)), hR⟩
    · obtain ⟨x, hx, hFirst⟩ := h.each x' hx'
      obtain ⟨y, hy, hSecond⟩ := h'.each y' hy'
      exact ⟨x, y, pair_sublist_append.mpr (.inr (.inr ⟨hx, hy⟩)), hFirst, hSecond⟩

/-- Reads do not conflict, so that their order does not matter. -/
theorem of_reads (hReads : ∀ x' ∈ new, x'.kind = .read) (h : ∀ x' ∈ new, ∃ x ∈ old, R x' x) :
    Mirrors R new old := by
  refine ⟨h, fun x' y' hPair hConflict => ?_⟩
  simp [Nest.conflicting_iff, hReads x' (hPair.subset (by simp)), hReads y' (hPair.subset (by simp))]
    at hConflict

theorem of_single {x' x : Access} (h : R x' x) : Mirrors R [x'] [x] where
  each z hz := ⟨x, List.mem_singleton_self x, List.mem_singleton.mp hz ▸ h⟩
  pairs _ _ hPair := absurd hPair.length_le (by simp)

theorem flatMap {α : Type} {f g : α → List Access} {ts : List α}
    (h : ∀ t ∈ ts, Mirrors R (f t) (g t)) : Mirrors R (ts.flatMap f) (ts.flatMap g) := by
  induction ts with
  | nil => exact .refl fun _ h => by cases h
  | cons t ts ih =>
    rw [List.flatMap_cons, List.flatMap_cons]
    exact (h t List.mem_cons_self).append (ih fun u hu => h u (List.mem_cons_of_mem t hu))

/-- Pairs that may conflict are found. -/
theorem pairOf (h : Mirrors R new old) {same : Bool} {x' y' : Access} (hPair : PairOf new same x' y')
    (hConflict : Nest.conflicting x' y' = true) :
    ∃ x y, PairOf old same x y ∧ R x' x ∧ R y' y := by
  cases hPair with
  | same hx' =>
    obtain ⟨x, hx, hR⟩ := h.each x' hx'
    exact ⟨x, x, .same hx, hR, hR⟩
  | apart hPair =>
    obtain ⟨x, y, hOld, hR⟩ := h.pairs x' y' hPair hConflict
    exact ⟨x, y, .apart hOld, hR⟩

end Mirrors

/-! ## Carried buffers -/

namespace Stmt

/-- A loop carries a dependence on a buffer. -/
def Carries (lp : Stmt) (b : String) : Prop :=
  ∃ d ∈ lp.carriedDependences defaultLevels, d.isCarriedAt 0 = true ∧ d.buffer = b

/-- A safe verdict lists the buffers that are carried. -/
theorem Carries.listed {lp : Stmt} {b : String} {rs : List (String × ReduceOp)} (h : lp.Carries b)
    (hSafe : lp.parallelVerdict defaultLevels = .safe rs) : ∃ op, (b, op) ∈ rs := by
  obtain ⟨d, hd, hCarried, rfl⟩ := h
  obtain ⟨op, _, hListed⟩ := (listed_of_verdictOf hSafe).2 d hd hCarried
  exact ⟨op, hListed⟩

/-- A loop that carries nothing is safe, and there is nothing to list. -/
theorem verdict_of_not_carries {lp : Stmt} (h : ∀ b, ¬ lp.Carries b) :
    lp.parallelVerdict defaultLevels = .safe [] := by
  have hNone : ∀ ds : List Dependence, (∀ d ∈ ds, d.isCarriedAt 0 = false) →
      verdictOf [] ds = .safe [] := by
    intro ds
    induction ds with
    | nil => exact fun _ => rfl
    | cons d ds ih =>
      intro hAll
      rw [verdictOf, hAll d List.mem_cons_self]
      exact ih fun e he => hAll e (List.mem_cons_of_mem d he)
  refine hNone _ fun d hd => ?_
  by_contra hCarried
  exact h d.buffer ⟨d, hd, by simpa using hCarried, rfl⟩

/-- Calls stand against a safe verdict. -/
theorem calls_of_safe {lp : Stmt} {rs : List (String × ReduceOp)}
    (hSafe : lp.parallelVerdict defaultLevels = .safe rs) : lp.calls = [] := by
  rw [List.eq_nil_iff_forall_not_mem]
  intro u hu
  have hCall : u.isCall = true := (List.mem_filter.mp hu).2
  cases u with
  | call s f args =>
    obtain ⟨op, hOp, _⟩ := (listed_of_verdictOf hSafe).2 _
      (List.mem_append_left _ (List.mem_filterMap.mpr ⟨_, hu, rfl⟩)) rfl
    cases hOp
  | _ => cases hCall

/-- An access does not say where it stands among all accesses. -/
theorem crosses_position {n : Nest} {same : Bool} {x y : Access} (i j : Nat) :
    n.Crosses same { x with position := i } { y with position := j } ↔ n.Crosses same x y := by
  constructor
  · exact Nest.crosses_of_sharpens (.of_eq rfl rfl rfl rfl) (.of_eq rfl rfl rfl rfl) fun _ _ h => h
  · exact Nest.crosses_of_sharpens (.of_eq rfl rfl rfl rfl) (.of_eq rfl rfl rfl rfl) fun _ _ h => h

/-- **Carried buffers**: without calls, a loop carries a dependence on a buffer when two of the
    accesses to it cross iterations. -/
theorem carries_iff {lp : Stmt} {b : String} (hCalls : lp.calls = []) : lp.Carries b ↔
    ∃ same x y, PairOf (lp.accessesIn {}) same x y ∧ Nest.conflicting x y = true ∧ x.buffer = b
      ∧ (lp.alone defaultLevels).Crosses same x y := by
  have hDependences : lp.carriedDependences defaultLevels
      = (lp.alone defaultLevels).among lp.accesses := by
    unfold carriedDependences dependences
    rw [hCalls]
    rfl
  have hPlace : ∀ (i : Nat), lp.accesses[i]? = (lp.accessesIn {})[i]?.map fun x =>
      { x with position := i } := by
    intro i
    unfold accesses
    rw [List.getElem?_map, List.getElem?_zipIdx, Option.map_map, Nat.zero_add]
    rfl
  unfold Carries
  rw [hDependences]
  constructor
  · rintro ⟨d, hd, hCarried, rfl⟩
    obtain ⟨same, x, y, hPair, hConflict, hd⟩ := Nest.exists_pair_of_mem_among hd
    obtain ⟨i, j, hi, hj, hij, rfl⟩ := pairOf_iff.mp hPair
    rw [hPlace] at hi hj
    obtain ⟨x, hx, rfl⟩ := Option.map_eq_some_iff.mp hi
    obtain ⟨y, hy, rfl⟩ := Option.map_eq_some_iff.mp hj
    have hCrosses := (Nest.exists_carried_iff hConflict).mp ⟨d, hd, hCarried⟩
    obtain ⟨dirs, _, hSome⟩ := List.mem_filterMap.mp hd
    exact ⟨i == j, x, y, pairOf_iff.mpr ⟨i, j, hx, hy, hij, rfl⟩, hConflict,
      (Nest.of_dependence? hSome).1.symm, (crosses_position i j).mp hCrosses⟩
  · rintro ⟨same, x, y, hPair, hConflict, rfl, hCrosses⟩
    obtain ⟨i, j, hx, hy, hij, rfl⟩ := pairOf_iff.mp hPair
    have hFirst := hPlace i
    have hSecond := hPlace j
    rw [hx, Option.map_some] at hFirst
    rw [hy, Option.map_some] at hSecond
    obtain ⟨d, hd, hCarried⟩ := (Nest.exists_carried_iff (n := lp.alone defaultLevels)
      (x := { x with position := i }) (y := { y with position := j }) hConflict).mpr
        ((crosses_position i j).mpr hCrosses)
    obtain ⟨dirs, _, hSome⟩ := List.mem_filterMap.mp hd
    exact ⟨d, Nest.mem_among hFirst hSecond hij hConflict hd, hCarried,
      (Nest.of_dependence? hSome).1⟩

end Stmt

end LoopNest

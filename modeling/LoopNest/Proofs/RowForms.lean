import LoopNest.Proofs.CrossingPairs

/-! # Forms of rows

  Lowering gives every iteration of a parallel loop a row of its own: the distance of the iterator
  from the lower bound (`Enclosing.row`). When the lower bound is affine, the analysis sees this
  distance as a form. The bound cancels (`Affine.Form.addTerms_cancel`), so the rows of two iterations
  differ by the distance of the iterations, which is not zero. So accesses to the rows of a workspace
  do not cross iterations (`Nest.not_crosses_of_rows`). -/

namespace LoopNest

open Affine (Form Interval)

namespace Affine.Form

variable {κ : Type} [Ord κ]

/-- A term between those of smaller and those of larger atoms. -/
theorem addTerm_between {k : κ} {c : Int} (hc : c ≠ 0) {front rest : List (κ × Int)}
    (hFront : ∀ t ∈ front, compare k t.1 = .gt) (hRest : ∀ t ∈ rest, compare k t.1 = .lt) :
    addTerm k c (front ++ rest) = some (front ++ (k, c) :: rest) := by
  induction front with
  | nil =>
    cases rest with
    | nil => simp only [List.nil_append, addTerm, consTerm, if_neg hc]
    | cons t rest =>
      simp only [List.nil_append, addTerm, hRest t List.mem_cons_self, consTerm, if_neg hc]
  | cons t front ih =>
    have hLater := ih fun s hs => hFront s (List.mem_cons_of_mem t hs)
    simp only [List.cons_append, addTerm, hFront t List.mem_cons_self, hLater, Option.map_some]

variable {k : κ} {front rest : List (κ × Int)} {v : Int} (hFits : Word.fits v = true)
  (hFront : ∀ t ∈ front, compare k t.1 = .gt) (hRest : ∀ t ∈ rest, compare k t.1 = .lt)

include hFits hFront hRest in
theorem add?_ofAtom :
    add? ⟨front ++ rest, v⟩ (ofAtom k) = some ⟨front ++ (k, 1) :: rest, v⟩ := by
  have hConstant : Word.add? v 0 = some v :=
    Word.add?_eq_some.mpr ⟨by rwa [Int.add_zero], Int.add_zero v⟩
  simp only [add?, ofAtom, addTerms, addTerm_between Int.one_ne_zero hFront hRest, hConstant,
    Option.bind_eq_bind, Option.bind_some, Option.pure_def]

include hFits hFront hRest in
theorem sub?_ofAtom :
    sub? ⟨front ++ rest, v⟩ (ofAtom k) = some ⟨front ++ (k, -1) :: rest, v⟩ := by
  have hConstant : Word.add? v 0 = some v :=
    Word.add?_eq_some.mpr ⟨by rwa [Int.add_zero], Int.add_zero v⟩
  have hScaled : (ofAtom k : Form κ).scale? (-1) = some ⟨[(k, -1)], 0⟩ := rfl
  simp only [sub?, add?, hScaled, addTerms,
    addTerm_between (show (-1 : Int) ≠ 0 by decide) hFront hRest, hConstant, Option.bind_eq_bind,
    Option.bind_some, Option.pure_def]

variable [Std.LawfulEqOrd κ]

/-- A term that cancels another one, behind terms of smaller atoms. -/
theorem addTerm_cancel {k : κ} {c : Int} {front rest : List (κ × Int)}
    (hFront : ∀ t ∈ front, compare k t.1 = .gt) :
    addTerm k (c * -1) (front ++ (k, c) :: rest) = some (front ++ rest) := by
  induction front with
  | nil =>
    have hZero : Word.add? c (c * -1) = some 0 :=
      Word.add?_eq_some.mpr ⟨by rw [show c + c * -1 = 0 by omega]; rfl, by omega⟩
    simp only [List.nil_append, addTerm, Std.ReflOrd.compare_self, hZero, Option.map_some,
      consTerm, if_pos]
  | cons t front ih =>
    have hRest := ih fun s hs => hFront s (List.mem_cons_of_mem t hs)
    simp only [List.cons_append, addTerm, hFront t List.mem_cons_self, hRest, Option.map_some]

/-- Negated terms cancel the terms behind those of smaller atoms. -/
theorem addTerms_cancel {front terms : List (κ × Int)} :
    ∀ {negated : List (κ × Int)}, scaleTerms (-1) terms = some negated →
      (∀ t ∈ terms, ∀ s ∈ front, compare t.1 s.1 = .gt) →
        addTerms (front ++ terms) negated = some front := by
  induction terms with
  | nil =>
    intro negated h _
    cases h
    rw [List.append_nil]
    rfl
  | cons t terms ih =>
    intro negated h hFront
    obtain ⟨k, c⟩ := t
    simp only [scaleTerms, Option.bind_eq_bind, Option.bind_eq_some_iff, Option.pure_def,
      Option.some.injEq] at h
    obtain ⟨c', hProduct, rest, hRest, rfl⟩ := h
    obtain ⟨_, rfl⟩ := Word.mul?_eq_some.mp hProduct
    rw [addTerms, addTerm_cancel (hFront (k, c) List.mem_cons_self)]
    exact ih hRest fun s hs => hFront s (List.mem_cons_of_mem _ hs)

/-- What is added in front of a form is left when the form is taken away. -/
theorem sub?_cancel {terms : List (κ × Int)} {f' : Form κ}
    (hScaled : (⟨terms, v⟩ : Form κ).scale? (-1) = some f')
    (hFront : ∀ t ∈ terms, ∀ s ∈ front, compare t.1 s.1 = .gt) :
    sub? ⟨front ++ terms, v⟩ ⟨terms, v⟩ = some ⟨front, 0⟩ := by
  have hNegated := hScaled
  simp only [scale?, Option.bind_eq_bind, Option.bind_eq_some_iff, Option.pure_def,
    show ((-1 : Int) = 0) = False by decide, if_false, Option.some.injEq] at hNegated
  obtain ⟨negated, hTerms, w, hConstant, rfl⟩ := hNegated
  obtain ⟨_, rfl⟩ := Word.mul?_eq_some.mp hConstant
  have hZero : Word.add? v (v * -1) = some 0 :=
    Word.add?_eq_some.mpr ⟨by rw [show v + v * -1 = 0 by omega]; rfl, by omega⟩
  simp only [sub?, add?, hScaled, addTerms_cancel hTerms hFront, hZero, Option.bind_eq_bind,
    Option.bind_some, Option.pure_def]

end Affine.Form

/-! ## Iterators added to others -/

namespace Iterators

variable {step : Iterators → Enclosing → Option (Form Unknown)} {loops : List Enclosing}

/-- Loops with other iterators leave a scalar alone. -/
theorem resolve_foldl {x : String} (h : ∀ l ∈ loops, l.head.iter ≠ x) : ∀ env : Iterators,
    resolve (loops.foldl (fun env l => (l, step env l) :: env) env) x = env.resolve x := by
  induction loops with
  | nil => exact fun _ => rfl
  | cons l loops ih =>
    intro env
    rw [List.foldl_cons, ih fun k hk => h k (List.mem_cons_of_mem l hk)]
    unfold resolve
    rw [List.find?_cons_of_neg (by simpa using h l List.mem_cons_self)]

/-- Loops with other numbers leave the value of a loop alone. -/
theorem valueOf_foldl {id : Nat} (h : ∀ l ∈ loops, l.id ≠ id) : ∀ env : Iterators,
    valueOf (loops.foldl (fun env l => (l, step env l) :: env) env) id = env.valueOf id := by
  induction loops with
  | nil => exact fun _ => rfl
  | cons l loops ih =>
    intro env
    rw [List.foldl_cons, ih fun k hk => h k (List.mem_cons_of_mem l hk)]
    unfold valueOf
    rw [List.find?_cons_of_neg (by simpa using h l List.mem_cons_self)]

end Iterators

theorem Expr.linear?_congr {κ : Type} [Ord κ] {r r' : String → Option (Form κ)} :
    ∀ e : Expr, (∀ x ∈ e.scalars, r x = r' x) → e.linear? r = e.linear? r' := by
  refine Expr.ind ?_ ?_ ?_ ?_ ?_ ?_ ?_
  · exact fun _ _ => rfl
  · exact fun _ _ => rfl
  · exact fun _ _ => rfl
  · exact fun x h => h x (by simp)
  · exact fun _ _ _ _ => rfl
  · intro op e ih h
    rw [scalars_unary] at h
    cases op with
    | not => rfl
    | neg => simp only [linear?, ih h]
  · intro op a b iha ihb h
    rw [scalars_binary] at h
    simp only [linear?, iha fun x hx => h x (List.mem_append_left _ hx),
      ihb fun x hx => h x (List.mem_append_right _ hx)]

/-! ## Rows -/

/-- The row of an iteration: how far the iterator is beyond the lower bound. -/
def Enclosing.row (l : Enclosing) : Expr := (Expr.var l.head.iter).minus l.head.lower

/-- The analysis sees the row of an iteration as a form. -/
structure Enclosing.Rowed (l : Enclosing) : Prop where
  affine : (l.row.linear? (firstIterators [l]).resolve).isSome = true
  iter : l.head.iter ∉ l.head.lower.scalars

namespace Enclosing.Rowed

variable {l : Enclosing}

/-- The lower bound has a form over symbols, and it cancels: the row has the form of what is added
    in front of the lower bound. -/
theorem exists_form (h : l.Rowed) : ∃ (terms : List (Unknown × Int)) (v : Int),
    l.head.lower.linear? (Iterators.resolve []) = some ⟨terms, v⟩ ∧ Word.fits v = true
    ∧ (∀ t ∈ terms, ∃ x, t.1 = .symbol x)
    ∧ ∀ (r : String → Option (Form Unknown)) (front : List (Unknown × Int)),
      r l.head.iter = some ⟨front ++ terms, v⟩ →
      (∀ x ∈ l.head.lower.scalars, r x = some (.ofAtom (.symbol x))) →
      (∀ t ∈ terms, ∀ s ∈ front, compare t.1 s.1 = .gt) →
        l.row.linear? r = some ⟨front, 0⟩ := by
  have hSymbols : ∀ {f : Form Unknown}, l.head.lower.linear? (Iterators.resolve []) = some f →
      ∀ t ∈ f.terms, ∃ x, t.1 = .symbol x := by
    intro f hf
    refine Expr.over_of_linear? (P := fun u => ∃ x, u = .symbol x) (fun x g hg => ?_) _ f hf
    cases hg
    exact Form.over_ofAtom ⟨x, rfl⟩
  -- the scalars of the lower bound are symbols for the loop alone
  have hLower : l.head.lower.linear? (firstIterators [l]).resolve
      = l.head.lower.linear? (Iterators.resolve []) := by
    refine Expr.linear?_congr _ fun x hx => ?_
    have hne : l.head.iter ≠ x := fun hEq => h.iter (hEq ▸ hx)
    simp [firstIterators, Iterators.resolve, hne]
  have hIter : (firstIterators [l]).resolve l.head.iter = l.freeValue .first [] := by
    simp [firstIterators, Iterators.resolve]
  rcases Expr.minus_cases (.var l.head.iter) l.head.lower with ⟨hRow, hZero⟩ | hRow | ⟨_, _, hInt, _⟩
  · -- nothing is subtracted
    have hConstant : l.head.lower = .int 0 := by
      cases hl : l.head.lower <;> simp_all [Expr.int?]
    have hForm : l.head.lower.linear? (Iterators.resolve []) = some (.ofConstant 0) := by
      rw [hConstant]
      rfl
    refine ⟨[], 0, hForm, rfl, hSymbols hForm, fun r front hr _ _ => ?_⟩
    rw [List.append_nil] at hr
    rw [row, hRow]
    exact hr
  · have hAffine := h.affine
    rw [row, hRow] at hAffine
    obtain ⟨g, hg⟩ := Option.isSome_iff_exists.mp hAffine
    simp only [Expr.sub, Expr.linear?, Option.bind_eq_bind, Option.bind_eq_some_iff, hIter,
      hLower] at hg
    obtain ⟨value, hValue, f, hForm, hDifference⟩ := hg
    obtain ⟨f', hScaled, _⟩ := Option.bind_eq_some_iff.mp hDifference
    refine ⟨f.terms, f.constant, hForm, ?_, hSymbols hForm, fun r front hr hScalars hFront => ?_⟩
    · -- the offset was added to the lower bound
      unfold freeValue at hValue
      rw [hForm] at hValue
      obtain ⟨_, _, hSum⟩ := Option.bind_eq_some_iff.mp hValue
      obtain ⟨_, hConstant, _⟩ := Option.bind_eq_some_iff.mp hSum
      have hFits := (Word.add?_eq_some.mp hConstant).1
      rwa [show f.constant + (Form.ofAtom (Unknown.offset .first l.id)).constant = f.constant from
        Int.add_zero _] at hFits
    · have hHere : l.head.lower.linear? r = some f :=
        (Expr.linear?_congr _ hScalars).trans hForm
      rw [row, hRow]
      simp only [Expr.sub, Expr.linear?, hr, hHere, Option.bind_eq_bind, Option.bind_some]
      exact Form.sub?_cancel hScaled hFront
  · cases hInt

end Enclosing.Rowed

/-! ## Accesses to rows -/

/-- The loops inside another one do not concern the row of its iterations. -/
def Enclosing.Leaves (l : Enclosing) (more : List Enclosing) : Prop :=
  ∀ k ∈ more, k.id ≠ l.id ∧ k.head.iter ≠ l.head.iter ∧ k.head.iter ∉ l.head.lower.scalars

/-- An access to the row of its iteration of a loop. -/
structure Access.OnRow (l : Enclosing) (x : Access) : Prop where
  indices : ∃ is, x.indices = l.row :: is
  loops : ∃ more, x.loops = l :: more ∧ l.Leaves more

/-- On both sides, only the loop itself has the iterator, and the lower bound is made of symbols. -/
theorem Enclosing.Rowed.resolve {l : Enclosing} (hl : l.Rowed)
    {step : Iterators → Enclosing → Option (Form Unknown)} {more : List Enclosing}
    (hMore : l.Leaves more) :
    Iterators.resolve ((l :: more).foldl (fun env l => (l, step env l) :: env) []) l.head.iter
        = step [] l
      ∧ ∀ x ∈ l.head.lower.scalars,
        Iterators.resolve ((l :: more).foldl (fun env l => (l, step env l) :: env) []) x
          = some (.ofAtom (.symbol x)) := by
  rw [List.foldl_cons]
  refine ⟨?_, fun x hx => ?_⟩
  · rw [Iterators.resolve_foldl fun k hk => (hMore k hk).2.1]
    simp [Iterators.resolve]
  · rw [Iterators.resolve_foldl fun k hk hEq => (hMore k hk).2.2 (hEq ▸ hx)]
    have hne : l.head.iter ≠ x := fun hEq => hl.iter (hEq ▸ hx)
    simp [Iterators.resolve, hne]

namespace Nest

variable {n : Nest} {l : Enclosing} {x y : Access}

/-- The distance of two iterations is not zero. -/
theorem reachesZero_distance (k : Nat) {s : Int} (hs : s = 1 ∨ s = -1) :
    Affine.reachesZero [s] 0 [n.distanceRange k] = false := by
  have hRange : ∃ hi, n.distanceRange k = ⟨some 1, hi⟩ := by
    unfold distanceRange
    split
    · exact ⟨_, rfl⟩
    · exact ⟨_, rfl⟩
  obtain ⟨hi, hRange⟩ := hRange
  rw [hRange]
  rcases hs with rfl | rfl
  · rfl
  · -- the upper end is -1
    exact Bool.and_false _

/-- Two offsets that differ by a distance. -/
theorem sub?_distance (o : Unknown) (k : Nat) {s : Int} (hs : s = 1 ∨ s = -1) :
    Form.sub? (⟨[(o, 1)], 0⟩ : Form Unknown) ⟨[(o, 1), (.distance k, s)], 0⟩
      = some ⟨[(.distance k, -s)], 0⟩ := by
  have hCancel : Form.addTerm o (1 * -1) ([] ++ [(o, 1)]) = some ([] ++ []) :=
    Form.addTerm_cancel fun _ ht => by cases ht
  rcases hs with rfl | rfl
  · show (do
      let terms ← (do Form.addTerms (← Form.addTerm o (1 * -1) ([] ++ [(o, 1)])) [(Unknown.distance k, -1)])
      return (⟨terms, 0⟩ : Form Unknown)) = _
    rw [hCancel]
    rfl
  · show (do
      let terms ← (do Form.addTerms (← Form.addTerm o (1 * -1) ([] ++ [(o, 1)])) [(Unknown.distance k, 1)])
      return (⟨terms, 0⟩ : Form Unknown)) = _
    rw [hCancel]
    rfl

/-- **Rows of different iterations differ**. -/
theorem subscriptsMayMeet_row (hl : l.Rowed) (hx : x.OnRow l) (hy : y.OnRow l) {common k : Nat}
    {dirs : List Direction} {d : Direction} (hDirection : d = .lt ∨ d = .gt)
    (hConstraint : n.constraint? ⟨x, y, common⟩ dirs l.id = some (k, d)) :
    n.subscriptsMayMeet ⟨x, y, common⟩ (firstIterators x.loops)
      (n.secondIterators ⟨x, y, common⟩ dirs (firstIterators x.loops)) l.row l.row = false := by
  obtain ⟨terms, v, hLower, hFits, hSymbols, hRow⟩ := hl.exists_form
  obtain ⟨inner, hxLoops, hxInner⟩ := hx.loops
  obtain ⟨inner', hyLoops, hyInner⟩ := hy.loops
  -- symbols come after offsets and distances
  let o : Unknown := .offset .first l.id
  have hOffset : ∀ t ∈ terms, compare t.1 o = .gt ∧ compare o t.1 = .lt := by
    intro t ht
    obtain ⟨z, hz⟩ := hSymbols t ht
    rw [hz]
    exact ⟨rfl, rfl⟩
  have hDistance : ∀ t ∈ terms,
      compare t.1 (.distance k) = .gt ∧ compare (.distance k) t.1 = .lt := by
    intro t ht
    obtain ⟨z, hz⟩ := hSymbols t ht
    rw [hz]
    exact ⟨rfl, rfl⟩
  have hFree : l.freeValue .first [] = some ⟨(o, 1) :: terms, v⟩ := by
    unfold Enclosing.freeValue
    rw [hLower]
    show Form.add? ⟨[] ++ terms, v⟩ (.ofAtom o) = some ⟨[] ++ (o, 1) :: terms, v⟩
    exact Form.add?_ofAtom hFits (fun _ ht => by cases ht) fun t ht => (hOffset t ht).2
  have hValue : (firstIterators x.loops).valueOf l.id = some ⟨(o, 1) :: terms, v⟩ := by
    rw [firstIterators, hxLoops, List.foldl_cons, Iterators.valueOf_foldl fun k hk => (hxInner k hk).1]
    simp [Iterators.valueOf, hFree]
  -- on the second side the iterator lies a distance apart
  have hShifted : ∃ s : Int, (s = 1 ∨ s = -1)
      ∧ shifted ⟨(o, 1) :: terms, v⟩ k d = some ⟨[(o, 1), (.distance k, s)] ++ terms, v⟩ := by
    have hFront : ∀ t ∈ [(o, (1 : Int))], compare (Unknown.distance k) t.1 = .gt := by
      intro t ht
      rw [List.mem_singleton.mp ht]
      rfl
    rcases hDirection with rfl | rfl
    · exact ⟨1, .inl rfl, Form.add?_ofAtom hFits hFront fun t ht => (hDistance t ht).2⟩
    · exact ⟨-1, .inr rfl, Form.sub?_ofAtom hFits hFront fun t ht => (hDistance t ht).2⟩
  obtain ⟨s, hs, hShifted⟩ := hShifted
  have hRowFirst : l.row.linear? (firstIterators x.loops).resolve = some ⟨[(o, 1)], 0⟩ := by
    rw [firstIterators, hxLoops]
    refine hRow _ _ ((hl.resolve hxInner).1.trans hFree) (hl.resolve hxInner).2 fun t ht u hu => ?_
    rw [List.mem_singleton.mp hu]
    exact (hOffset t ht).1
  have hRowSecond : l.row.linear? (n.secondIterators ⟨x, y, common⟩ dirs
      (firstIterators x.loops)).resolve = some ⟨[(o, 1), (.distance k, s)], 0⟩ := by
    unfold secondIterators
    dsimp only
    rw [hyLoops]
    refine hRow _ _ ((hl.resolve hyInner).1.trans ?_) (hl.resolve hyInner).2 fun t ht u hu => ?_
    · rw [hConstraint]
      dsimp only
      rw [hValue]
      exact hShifted
    · rcases List.mem_cons.mp hu with rfl | hu
      · exact (hOffset t ht).1
      · rw [List.mem_singleton.mp hu]
        exact (hDistance t ht).1
  unfold subscriptsMayMeet
  rw [hRowFirst, hRowSecond]
  have hNegated : -s = 1 ∨ -s = -1 := by omega
  simp only [Option.bind_eq_bind, Option.bind_some, sub?_distance o k hs]
  show (Affine.divisible [-s] 0 && Affine.reachesZero [-s] 0 [n.distanceRange k]) = false
  rw [reachesZero_distance k hNegated, Bool.and_false]

/-- **Rows keep iterations apart**: accesses to the rows of a loop with equally many subscripts do
    not cross its iterations. -/
theorem not_crosses_of_rows {maxLevels : Nat} (hl : l.Rowed) (hx : x.OnRow l) (hy : y.OnRow l)
    (hLength : x.indices.length = y.indices.length) (same : Bool) :
    ¬ (⟨[l.head.level l.id], maxLevels + 1⟩ : Nest).Crosses same x y := by
  rintro ⟨dirs, hDirs, hCross, _⟩
  obtain ⟨more, hxLoops, _⟩ := hx.loops
  obtain ⟨more', hyLoops, _⟩ := hy.loops
  obtain ⟨is, hIs⟩ := hx.indices
  obtain ⟨js, hJs⟩ := hy.indices
  let n : Nest := ⟨[l.head.level l.id], maxLevels + 1⟩
  have hCommon : n.commonLevels x y = 1 := by
    have hAround : ∀ (k : Enclosing) (ks : List Enclosing), (k :: ks).any (·.id == k.id) = true := by
      simp
    have hId : (l.head.level l.id).id = l.id := rfl
    unfold commonLevels
    rw [hxLoops, hyLoops, List.takeWhile_cons_of_pos (by rw [hId, hAround, hAround]; rfl)]
    rfl
  rw [hCommon] at hDirs
  obtain ⟨hTest, s, rfl, hOne, hKnown⟩ := of_mem_refine _ [] hDirs
  -- the vector has one entry, which is known
  obtain ⟨d, rfl⟩ : ∃ d, s = [d] :=
    List.length_eq_one_iff.mp (hOne.trans (by simp [forcedEqual]))
  have hDirection : d = .lt ∨ d = .gt := by
    have hStar := hKnown d (by simp)
    cases d with
    | lt => exact .inl rfl
    | gt => exact .inr rfl
    | eq => cases hCross
    | star => exact absurd rfl hStar
  have hConstraint : n.constraint? ⟨x, y, 1⟩ [d] l.id = some (0, d) := by
    have hLevel : n.levelOf? l.id = some 0 := by
      simp [levelOf?, n, LoopHead.level]
    unfold constraint?
    rw [hLevel]
    rcases hDirection with rfl | rfl <;> rfl
  have hRows := subscriptsMayMeet_row hl hx hy hDirection hConstraint
  unfold mayConflict at hTest
  rw [Bool.and_eq_true, Bool.or_eq_true] at hTest
  rcases hTest.2 with hLengths | hAll
  · rw [bne_iff_ne] at hLengths
    exact hLengths hLength
  · dsimp only at hAll
    rw [hIs, hJs, List.zip_cons_cons, List.all_cons, Bool.and_eq_true] at hAll
    exact absurd (hRows.symm.trans hAll.1) Bool.false_ne_true

end Nest

end LoopNest

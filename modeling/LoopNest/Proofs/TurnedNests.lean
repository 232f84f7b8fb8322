import LoopNest.Proofs.KeptBindings
import LoopNest.Proofs.RenamedForms
import LoopNest.Proofs.RowForms

/-! # The analysis of a nest whose loops have changed places

  When the loops of a nest change places (`Turn`), the analysis sees the same subscripts under other
  names: the offset of a loop has the number of its new seat, and the distance on a level that of its
  new level (`Unknown.moved`).

  * **Iterators** around two accesses stand for the same up to these names (`Turn.renames_first`,
    `Turn.renames_second`).
  * **Tests**: so a vector of the old nest and the same vector in the new order pass or fail alike,
    given that the sums of the range test do not depend on the order of the terms
    (`Turn.mayConflict_eq`). In another order a sum may leave the word on its way. -/

namespace LoopNest

open LoopNest.Affine (Form Interval)

/-- A member is found by its key when the keys are different. -/
theorem find?_key_of_mem {α β : Type} [BEq β] [LawfulBEq β] {key : α → β} {xs : List α}
    (hNodup : (xs.map key).Nodup) {x : α} (hx : x ∈ xs) :
    xs.find? (fun y => key y == key x) = some x := by
  cases hFind : xs.find? fun y => key y == key x with
  | none =>
    rw [List.find?_eq_none] at hFind
    exact absurd (beq_self_eq_true (key x)) (hFind x hx)
  | some y =>
    have hKey : key y = key x := by simpa using List.find?_some hFind
    rw [List.inj_on_of_nodup_map hNodup (List.mem_of_find?_eq_some hFind) hx hKey]

/-! ## Unknowns -/

namespace Unknown

def sideNumber : Unknown → Nat
  | offset s _ | hidden s _ => sideRank s
  | distance _ | symbol _ => 0

def number : Unknown → Nat
  | offset _ i | hidden _ i | distance i => i
  | symbol _ => 0

def name : Unknown → String
  | symbol x => x
  | _ => ""

/-- Unknowns are compared by their kinds, then by what they have. -/
theorem order_eq : order = compareLex (compareOn rank) (compareLex (compareOn sideNumber)
    (compareLex (compareOn number) (compareOn name))) := by
  funext a b
  cases a <;> cases b <;>
    first
    | rfl
    | simp [order, compareLex, compareOn, rank, sideNumber, number, name]

instance : Std.TransOrd Unknown := by
  show Std.TransCmp order
  rw [order_eq]
  infer_instance

/-- The unknown when the loop numbered `i` has the number `σ i` and level `k` is level `π k`. -/
def moved (σ π : Equiv.Perm Nat) : Unknown ≃ Unknown where
  toFun
    | offset s i => offset s (σ i)
    | distance k => distance (π k)
    | symbol x => symbol x
    | hidden s i => hidden s (σ i)
  invFun
    | offset s i => offset s (σ.symm i)
    | distance k => distance (π.symm k)
    | symbol x => symbol x
    | hidden s i => hidden s (σ.symm i)
  left_inv u := by cases u <;> simp
  right_inv u := by cases u <;> simp

end Unknown

/-- Two values are the same up to names, or both are absent. -/
abbrev Moved (σ π : Equiv.Perm Nat) : Option (Form Unknown) → Option (Form Unknown) → Prop :=
  Option.Rel (Form.Renames (Unknown.moved σ π))

/-! ## Values of iterators -/

namespace Iterators

variable {σ π : Equiv.Perm Nat} {env env' : Iterators}

/-- Scalars and loops stand for the same up to names. -/
structure Renames (σ π : Equiv.Perm Nat) (env env' : Iterators) : Prop where
  resolve : ∀ x, Moved σ π (env.resolve x) (env'.resolve x)
  valueOf : ∀ i, Moved σ π (env.valueOf i) (env'.valueOf (σ i))

/-- One more loop that has kept its number. -/
theorem Renames.cons (h : Renames σ π env env') {l : Enclosing} {v v' : Option (Form Unknown)}
    (hv : Moved σ π v v') (hl : σ l.id = l.id) :
    Renames σ π ((l, v) :: env) ((l, v') :: env') where
  resolve x := by
    have hRest := h.resolve x
    unfold Iterators.resolve at hRest ⊢
    by_cases hx : l.head.iter = x
    · rwa [List.find?_cons_of_pos (by simpa using hx), List.find?_cons_of_pos (by simpa using hx)]
    · rwa [List.find?_cons_of_neg (by simpa using hx), List.find?_cons_of_neg (by simpa using hx)]
  valueOf i := by
    have hRest := h.valueOf i
    unfold Iterators.valueOf at hRest ⊢
    by_cases hi : l.id = i
    · subst hi
      rw [hl]
      simpa using hv
    · have hOther : l.id ≠ σ i := fun hSame => hi (σ.injective (hl.trans hSame))
      rwa [List.find?_cons_of_neg (by simpa using hi),
        List.find?_cons_of_neg (by simpa using hOther)]

theorem Renames.foldl {step step' : Iterators → Enclosing → Option (Form Unknown)} :
    ∀ {ls : List Enclosing}, (∀ l ∈ ls, σ l.id = l.id ∧ ∀ env env' : Iterators,
      Renames σ π env env' → Moved σ π (step env l) (step' env' l)) →
      ∀ {env env' : Iterators}, Renames σ π env env' →
        Renames σ π (ls.foldl (fun env l => (l, step env l) :: env) env)
          (ls.foldl (fun env l => (l, step' env l) :: env) env') := by
  intro ls
  induction ls with
  | nil => exact fun _ _ _ h => h
  | cons l ls ih =>
    intro hSteps env env' h
    obtain ⟨⟨hl, hStep⟩, hRest⟩ := List.forall_mem_cons.mp hSteps
    exact ih hRest (h.cons (hStep env env' h) hl)

/-- Loops with values given for them, innermost first. -/
def valuesIn (v : Enclosing → Option (Form Unknown)) (ls : List Enclosing) : Iterators :=
  (ls.map fun l => (l, v l)).reverse

theorem foldl_eq_valuesIn {step : Iterators → Enclosing → Option (Form Unknown)}
    {v : Enclosing → Option (Form Unknown)} {ls : List Enclosing}
    (h : ∀ done l rest, ls = done ++ l :: rest → step (valuesIn v done) l = v l) :
    ls.foldl (fun env l => (l, step env l) :: env) [] = valuesIn v ls := by
  induction ls using List.reverseRecOn with
  | nil => rfl
  | append_singleton done l ih =>
    have hDone : ∀ done' l' rest, done = done' ++ l' :: rest →
        step (valuesIn v done') l' = v l' := by
      rintro done' l' rest rfl
      exact h done' l' (rest ++ [l]) (by simp)
    rw [List.foldl_append, ih hDone, List.foldl_cons, List.foldl_nil, h done l [] rfl]
    simp [valuesIn]

section lookup

variable {β : Type} [BEq β] [LawfulBEq β] {key : Enclosing → β}
  {v : Enclosing → Option (Form Unknown)} {ls : List Enclosing}

theorem find?_valuesIn_of_mem (hNodup : (ls.map key).Nodup) {l : Enclosing} (hl : l ∈ ls) :
    (valuesIn v ls).find? (fun e => key e.1 == key l) = some (l, v l) := by
  have hKeys : ((valuesIn v ls).map fun e => key e.1).Nodup := by
    rw [valuesIn, List.map_reverse, List.map_map]
    exact List.nodup_reverse.mpr hNodup
  exact find?_key_of_mem (x := (l, v l)) hKeys (by simp [valuesIn, hl])

theorem find?_valuesIn_of_notMem {x : β} (hx : x ∉ ls.map key) :
    (valuesIn v ls).find? (fun e => key e.1 == x) = none := by
  rw [List.find?_eq_none]
  intro e he hKey
  simp only [valuesIn, List.mem_reverse, List.mem_map] at he
  obtain ⟨l, hl, rfl⟩ := he
  exact hx (List.mem_map.mpr ⟨l, hl, beq_iff_eq.mp hKey⟩)

end lookup

end Iterators

open Iterators (valuesIn)

section values

variable {σ π : Equiv.Perm Nat} {env env' : Iterators}

/-- The iterators of a loop under both of its numbers. -/
theorem Enclosing.renames_freeValue (l : Enclosing) (side : Side)
    (h : ∀ x ∈ l.head.lower.scalars, Moved σ π (env.resolve x) (env'.resolve x)) :
    Moved σ π (l.freeValue side env) (freeValue ⟨σ l.id, l.head⟩ side env') := by
  have hLower := Expr.renames_linear? l.head.lower h
  unfold freeValue
  dsimp only
  generalize l.head.lower.linear? env.resolve = lower at hLower ⊢
  generalize l.head.lower.linear? env'.resolve = lower' at hLower ⊢
  cases hLower with
  | none => exact .some (.ofAtom _ (Unknown.hidden side l.id))
  | some hForms => exact hForms.add? (.ofAtom _ (Unknown.offset side l.id))

theorem Nest.renames_shifted {f g : Form Unknown} (h : Form.Renames (Unknown.moved σ π) f g)
    (k : Nat) (d : Direction) : Moved σ π (shifted f k d) (shifted g (π k) d) := by
  cases d with
  | lt => exact h.add? (.ofAtom _ (Unknown.distance k))
  | gt => exact h.sub? (.ofAtom _ (Unknown.distance k))
  | eq | star => exact .some h

/-- The iterator of a loop depends on the scalars of its lower bound only. -/
theorem Enclosing.freeValue_congr {l : Enclosing} (side : Side)
    (h : ∀ x ∈ l.head.lower.scalars, env.resolve x = env'.resolve x) :
    l.freeValue side env = l.freeValue side env' := by
  unfold freeValue
  rw [Expr.linear?_congr l.head.lower h]

end values

/-! ## Levels of loops -/

namespace Nest

variable {n : Nest} {p : Pair} {dirs : List Direction}

theorem levelOf?_eq (hNodup : (n.levels.map (·.id)).Nodup) {k : Nat} {l : Level}
    (hl : n.levels[k]? = some l) : n.levelOf? l.id = some k := by
  obtain ⟨hk, rfl⟩ := List.getElem?_eq_some_iff.mp hl
  refine List.findIdx?_eq_some_iff_getElem.mpr ⟨hk, beq_self_eq_true _, fun j hj hSame => ?_⟩
  have hLess : k < (n.levels.map (·.id)).length := by rwa [List.length_map]
  have hBoth : (n.levels.map (·.id))[j]? = (n.levels.map (·.id))[k]? := by
    rw [List.getElem?_map, List.getElem?_map, List.getElem?_eq_getElem (hj.trans hk),
      List.getElem?_eq_getElem hk]
    exact congrArg some (eq_of_beq hSame)
  exact absurd ((List.getElem?_inj (hj.trans hLess) hNodup).mp hBoth) (Nat.ne_of_lt hj)

theorem constraint?_eq (hNodup : (n.levels.map (·.id)).Nodup) {k : Nat} {l : Level}
    (hl : n.levels[k]? = some l) (hk : k < p.common) (hKnown : dirs.getD k .star ≠ .star) :
    n.constraint? p dirs l.id = some (k, dirs.getD k .star) := by
  unfold constraint?
  rw [levelOf?_eq hNodup hl, Option.bind_eq_bind, Option.bind_some, if_pos hk]
  dsimp only
  rw [if_neg hKnown]

theorem constraint?_eq_none {i : Nat} (h : i ∉ n.levels.map (·.id)) :
    n.constraint? p dirs i = none := by
  have hNone : n.levelOf? i = none := by
    refine List.findIdx?_eq_none_iff.mpr fun l hl => beq_eq_false_iff_ne.mpr ?_
    rintro rfl
    exact h (List.mem_map_of_mem hl)
  unfold constraint?
  rw [hNone]
  rfl

end Nest

namespace Restructure

variable {σ π : Equiv.Perm Nat} {loops loops' : List (Site × LoopHead)}

/-! ## Loops that have changed places -/

/-- The loops of the second nest are those of the first one in another order, and the seats have kept
    their numbers: the loop on level `k` has come to level `π k`, whose number is `σ` of its own one.

    * **inside**, **others**: nothing else is renamed;
    * **distinct**, **iters**, **bounds**: the loops have different numbers and iterators, and no bound
      mentions the iterator of another loop. -/
structure Turn (σ π : Equiv.Perm Nat) (loops loops' : List (Site × LoopHead)) : Prop where
  heads : (loops'.map (·.2)).Perm (loops.map (·.2))
  ids : loops'.map (·.1.id) = loops.map (·.1.id)
  seats : ∀ (k : Nat) l, loops[k]? = some l →
    ∃ l', loops'[π k]? = some l' ∧ l'.1.id = σ l.1.id ∧ l'.2 = l.2
  inside : ∀ k, π k < loops.length ↔ k < loops.length
  others : ∀ i, i ∉ loops.map (·.1.id) → σ i = i
  distinct : (loops.map (·.1.id)).Nodup
  iters : (loops.map (·.2.iter)).Nodup
  bounds : BoundsFree loops

theorem nodup_iters_enclosing (h : (loops.map (·.2.iter)).Nodup) :
    ((enclosing loops).map (·.head.iter)).Nodup := by
  rwa [enclosing, List.map_map]

theorem nodup_ids_enclosing (h : (loops.map (·.1.id)).Nodup) :
    ((enclosing loops).map (·.id)).Nodup := by
  rwa [enclosing, List.map_map]

/-- The lower bounds of the loops of a nest are made of symbols. -/
theorem symbols_of_boundsFree (hIters : (loops.map (·.2.iter)).Nodup) (hBounds : BoundsFree loops)
    {done rest : List Enclosing} {l : Enclosing} (hSplit : enclosing loops = done ++ l :: rest)
    (v : Enclosing → Option (Form Unknown)) :
    ∀ x ∈ l.head.lower.scalars, (valuesIn v done).resolve x = Iterators.resolve [] x := by
  intro x hx
  -- `BoundsFree` allows a bound its own iterator, but that one is not among those further out
  have hNone : x ∉ done.map (·.head.iter) := by
    intro hMem
    obtain ⟨a, ha, rfl⟩ := List.mem_map.mp hMem
    have hNodup := nodup_iters_enclosing hIters
    rw [hSplit, List.map_append, List.map_cons, List.nodup_append] at hNodup
    have hOther : a.head.iter ≠ l.head.iter :=
      hNodup.2.2 _ (List.mem_map_of_mem ha) _ List.mem_cons_self
    have hInNest : ∀ e ∈ done ++ l :: rest, ∃ b ∈ loops, b.2 = e.head := by
      intro e he
      rw [← hSplit] at he
      obtain ⟨b, hb, rfl⟩ := List.mem_map.mp he
      exact ⟨b, hb, rfl⟩
    obtain ⟨b, hb, hHead⟩ := hInNest a (by simp [ha])
    obtain ⟨b', hb', hHead'⟩ := hInNest l (by simp)
    have hFree := hBounds b' hb' b hb
    rw [hHead, hHead'] at hFree
    exact hFree hOther _ List.mem_cons_self hx
  unfold Iterators.resolve
  rw [Iterators.find?_valuesIn_of_notMem hNone]
  rfl

theorem firstIterators_enclosing (hIters : (loops.map (·.2.iter)).Nodup)
    (hBounds : BoundsFree loops) : firstIterators (enclosing loops)
      = valuesIn (fun l => l.freeValue .first []) (enclosing loops) :=
  Iterators.foldl_eq_valuesIn fun _ _ _ hSplit =>
    Enclosing.freeValue_congr .first (symbols_of_boundsFree hIters hBounds hSplit _)

namespace Turn

theorem length_eq (h : Turn σ π loops loops') : loops'.length = loops.length := by
  simpa using congrArg List.length h.ids

theorem iters' (h : Turn σ π loops loops') : (loops'.map (·.2.iter)).Nodup := by
  have hIters := (h.heads.map (·.iter)).nodup_iff.mpr (by rw [List.map_map]; exact h.iters)
  rwa [List.map_map] at hIters

theorem bounds' (h : Turn σ π loops loops') : BoundsFree loops' := by
  intro a ha b hb
  obtain ⟨a', ha', hA⟩ := List.mem_map.mp (h.heads.subset (List.mem_map_of_mem ha))
  obtain ⟨b', hb', hB⟩ := List.mem_map.mp (h.heads.subset (List.mem_map_of_mem hb))
  rw [← hA, ← hB]
  exact h.bounds a' ha' b' hb'

theorem mem_enclosing (h : Turn σ π loops loops') {l : Site × LoopHead} (hl : l ∈ loops) :
    (⟨σ l.1.id, l.2⟩ : Enclosing) ∈ enclosing loops' := by
  obtain ⟨k, hk⟩ := List.mem_iff_getElem?.mp hl
  obtain ⟨l', hl', hId, hHead⟩ := h.seats k l hk
  rw [← hId, ← hHead]
  exact List.mem_map_of_mem (f := fun l => (⟨l.1.id, l.2⟩ : Enclosing)) (List.mem_of_getElem? hl')

/-- Loops whose values are the same up to names. -/
theorem renames_valuesIn (h : Turn σ π loops loops') {v v' : Enclosing → Option (Form Unknown)}
    (hv : ∀ l ∈ loops, Moved σ π (v ⟨l.1.id, l.2⟩) (v' ⟨σ l.1.id, l.2⟩)) :
    Iterators.Renames σ π (valuesIn v (enclosing loops)) (valuesIn v' (enclosing loops')) where
  resolve x := by
    unfold Iterators.resolve
    by_cases hx : x ∈ loops.map (·.2.iter)
    · obtain ⟨l, hl, rfl⟩ := List.mem_map.mp hx
      have hMem : (⟨l.1.id, l.2⟩ : Enclosing) ∈ enclosing loops := List.mem_map_of_mem hl
      have hOld := Iterators.find?_valuesIn_of_mem (v := v) (nodup_iters_enclosing h.iters) hMem
      have hNew := Iterators.find?_valuesIn_of_mem (v := v') (nodup_iters_enclosing h.iters')
        (h.mem_enclosing hl)
      rw [hOld, hNew]
      exact hv l hl
    · have hNone : x ∉ (enclosing loops).map (·.head.iter) := by rwa [enclosing, List.map_map]
      have hNone' : x ∉ (enclosing loops').map (·.head.iter) := by
        rw [enclosing, List.map_map]
        have hIters := (h.heads.map (·.iter)).mem_iff (a := x)
        rw [List.map_map, List.map_map] at hIters
        exact fun hMem => hx (hIters.mp hMem)
      rw [Iterators.find?_valuesIn_of_notMem hNone, Iterators.find?_valuesIn_of_notMem hNone']
      exact .some (.ofAtom _ (Unknown.symbol x))
  valueOf i := by
    unfold Iterators.valueOf
    by_cases hi : i ∈ loops.map (·.1.id)
    · obtain ⟨l, hl, rfl⟩ := List.mem_map.mp hi
      have hMem : (⟨l.1.id, l.2⟩ : Enclosing) ∈ enclosing loops := List.mem_map_of_mem hl
      have hOld := Iterators.find?_valuesIn_of_mem (v := v) (nodup_ids_enclosing h.distinct) hMem
      have hNew := Iterators.find?_valuesIn_of_mem (v := v')
        (nodup_ids_enclosing (h.ids ▸ h.distinct)) (h.mem_enclosing hl)
      rw [hOld, hNew]
      exact hv l hl
    · have hNone : i ∉ (enclosing loops).map (·.id) := by rwa [enclosing, List.map_map]
      have hNone' : σ i ∉ (enclosing loops').map (·.id) := by
        rw [h.others i hi, enclosing, List.map_map]
        exact fun hMem => hi (h.ids ▸ hMem)
      rw [Iterators.find?_valuesIn_of_notMem hNone, Iterators.find?_valuesIn_of_notMem hNone']
      exact .none

variable {inner : List Enclosing}

/-- **Iterators around the first access** stand for the same up to names. -/
theorem renames_first (h : Turn σ π loops loops')
    (hInner : ∀ l ∈ inner, l.id ∉ loops.map (·.1.id)) :
    Iterators.Renames σ π (firstIterators (enclosing loops ++ inner))
      (firstIterators (enclosing loops' ++ inner)) := by
  have hChain : Iterators.Renames σ π (firstIterators (enclosing loops))
      (firstIterators (enclosing loops')) := by
    rw [firstIterators_enclosing h.iters h.bounds, firstIterators_enclosing h.iters' h.bounds']
    refine h.renames_valuesIn fun l _ => ?_
    exact Enclosing.renames_freeValue ⟨l.1.id, l.2⟩ .first fun x _ =>
      .some (.ofAtom _ (Unknown.symbol x))
  unfold firstIterators at hChain ⊢
  rw [List.foldl_append, List.foldl_append]
  refine Iterators.Renames.foldl (fun l hl => ?_) hChain
  have hFixed := h.others l.id (hInner l hl)
  refine ⟨hFixed, fun env env' hEnv => ?_⟩
  have hFree := Enclosing.renames_freeValue l .first fun x _ => hEnv.resolve x
  rwa [hFixed] at hFree

end Turn

/-! ## Vectors in another order -/

/-- A vector without unknown entries, and the same vector in the new order of the levels. -/
structure Rearranged (π : Equiv.Perm Nat) (size : Nat) (dirs dirs' : List Direction) : Prop where
  length : dirs.length = size
  length' : dirs'.length = size
  known : ∀ d ∈ dirs, d ≠ .star
  entries : ∀ k, k < size → dirs'[π k]? = dirs[k]?

namespace Rearranged

variable {size k : Nat} {dirs dirs' : List Direction}

theorem getD_ne_star (h : Rearranged π size dirs dirs') (hk : k < size) :
    dirs.getD k .star ≠ .star := by
  have hLess : k < dirs.length := h.length.symm ▸ hk
  rw [List.getD_eq_getElem?_getD, List.getElem?_eq_getElem hLess, Option.getD_some]
  exact h.known _ (List.getElem_mem hLess)

theorem getD_eq (h : Rearranged π size dirs dirs') (hk : k < size) :
    dirs'.getD (π k) .star = dirs.getD k .star := by
  rw [List.getD_eq_getElem?_getD, List.getD_eq_getElem?_getD, h.entries k hk]

end Rearranged

theorem ids_analysed (maxLevels : Nat) (loops : List (Site × LoopHead)) :
    (analysed maxLevels loops).levels.map (·.id) = loops.map (·.1.id) := by
  rw [analysed, List.map_map]
  rfl

theorem getElem?_analysed (maxLevels : Nat) (loops : List (Site × LoopHead)) (k : Nat) :
    (analysed maxLevels loops).levels[k]? = loops[k]?.map fun l => l.2.level l.1.id :=
  List.getElem?_map

/-- Two accesses in the body of a nest: all levels are around both, and then other loops. -/
structure InBody (loops : List (Site × LoopHead)) (more inner : List Enclosing) (p : Pair) :
    Prop where
  first : p.a.loops = enclosing loops ++ more
  second : p.b.loops = enclosing loops ++ inner
  common : p.common = loops.length

/-- The value on the second side of the iterator of a level. -/
def levelValue (n : Nest) (p : Pair) (dirs : List Direction) (first : Iterators) (l : Enclosing) :
    Option (Form Unknown) :=
  (n.constraint? p dirs l.id).bind fun c => (first.valueOf l.id).bind (Nest.shifted · c.1 c.2)

section second

variable {maxLevels : Nat} {p p' : Pair} {dirs dirs' : List Direction} {first first' : Iterators}
  {more inner : List Enclosing}

theorem constraint?_seat (maxLevels : Nat) (hDistinct : (loops.map (·.1.id)).Nodup)
    (hCommon : p.common = loops.length) {k : Nat} {l : Site × LoopHead} (hl : loops[k]? = some l)
    (hKnown : dirs.getD k .star ≠ .star) :
    (analysed maxLevels loops).constraint? p dirs l.1.id = some (k, dirs.getD k .star) := by
  have hLevel : (analysed maxLevels loops).levels[k]? = some (l.2.level l.1.id) := by
    rw [getElem?_analysed, hl]
    rfl
  have hk := (List.getElem?_eq_some_iff.mp hl).1
  exact Nest.constraint?_eq (by rwa [ids_analysed]) hLevel (hCommon ▸ hk) hKnown

/-- The iterators around the second access: first those of the levels, then the others. -/
theorem secondIterators_eq (hDistinct : (loops.map (·.1.id)).Nodup) (h : InBody loops more inner p)
    (hKnown : ∀ k, k < loops.length → dirs.getD k .star ≠ .star) :
    (analysed maxLevels loops).secondIterators p dirs first
      = inner.foldl (fun env l =>
          (l, match (analysed maxLevels loops).constraint? p dirs l.id with
            | some (k, d) => (first.valueOf l.id).bind (Nest.shifted · k d)
            | none => l.freeValue .second env) :: env)
        (valuesIn (levelValue (analysed maxLevels loops) p dirs first) (enclosing loops)) := by
  unfold Nest.secondIterators
  rw [h.second, List.foldl_append]
  congr 1
  refine Iterators.foldl_eq_valuesIn fun done l rest hSplit => ?_
  have hMem : l ∈ enclosing loops := by simp [hSplit]
  obtain ⟨l', hl', rfl⟩ := List.mem_map.mp hMem
  obtain ⟨k, hk⟩ := List.mem_iff_getElem?.mp hl'
  have hSeat := constraint?_seat maxLevels hDistinct h.common hk
    (hKnown k (List.getElem?_eq_some_iff.mp hk).1)
  unfold levelValue
  dsimp only
  rw [hSeat]
  rfl

/-- **Iterators around the second access** stand for the same up to names. -/
theorem Turn.renames_second (h : Turn σ π loops loops') (maxLevels : Nat)
    (hp : InBody loops more inner p) (hp' : InBody loops' more inner p')
    (hInner : ∀ l ∈ inner, l.id ∉ loops.map (·.1.id))
    (hDirs : Rearranged π loops.length dirs dirs') (hFirst : Iterators.Renames σ π first first') :
    Iterators.Renames σ π ((analysed maxLevels loops).secondIterators p dirs first)
      ((analysed maxLevels loops').secondIterators p' dirs' first') := by
  have hKnown : ∀ k, k < loops'.length → dirs'.getD k .star ≠ .star := by
    intro k hk
    have hSeat := (h.inside (π.symm k)).mp (by rwa [Equiv.apply_symm_apply, ← h.length_eq])
    rw [← π.apply_symm_apply k, hDirs.getD_eq hSeat]
    exact hDirs.getD_ne_star hSeat
  rw [secondIterators_eq h.distinct hp fun k => hDirs.getD_ne_star,
    secondIterators_eq (h.ids ▸ h.distinct) hp' hKnown]
  refine Iterators.Renames.foldl (fun l hl => ?_) (h.renames_valuesIn fun l hl => ?_)
  · -- a loop below the levels
    have hOther := hInner l hl
    have hFixed := h.others l.id hOther
    refine ⟨hFixed, fun env env' hEnv => ?_⟩
    rw [Nest.constraint?_eq_none (by rwa [ids_analysed]),
      Nest.constraint?_eq_none (by rwa [ids_analysed, h.ids])]
    have hFree := Enclosing.renames_freeValue l .second fun x _ => hEnv.resolve x
    rwa [hFixed] at hFree
  · -- a level
    obtain ⟨k, hk⟩ := List.mem_iff_getElem?.mp hl
    have hLess := (List.getElem?_eq_some_iff.mp hk).1
    obtain ⟨l', hk', hId, _⟩ := h.seats k l hk
    have hOld := constraint?_seat maxLevels h.distinct hp.common hk
      (hDirs.getD_ne_star hLess)
    have hNew := constraint?_seat maxLevels (h.ids ▸ h.distinct) hp'.common hk'
      (hKnown _ (h.length_eq ▸ (h.inside k).mpr hLess))
    unfold levelValue
    rw [hOld, ← hId, hNew, hId, hDirs.getD_eq hLess]
    exact rel_bind (hFirst.valueOf l.1.id) fun _ _ hForms => Nest.renames_shifted hForms k _

end second

end Restructure

/-! ## Tests -/

/-- The difference of two subscripts. -/
def subscriptDifference? (first second : Iterators) (x y : Expr) : Option (Form Unknown) :=
  (x.linear? first.resolve).bind fun a => (y.linear? second.resolve).bind fun b => a.sub? b

namespace Nest

/-- Whether the sum of a constant and of terms may be zero, by the ranges of the unknowns. -/
def rangeTest (n : Nest) (p : Pair) (constant : Int) (terms : List (Unknown × Int)) : Bool :=
  Affine.reachesZero (terms.map (·.2)) constant (terms.map fun t => n.rangeOf p t.1)

/-- The range test says the same of a form in whatever order its terms are summed up. Only a sum that
    leaves the word on its way can make a difference. -/
def Orderless (n : Nest) (p : Pair) (f : Form Unknown) : Prop :=
  ∀ terms : List (Unknown × Int), terms.Perm f.terms →
    n.rangeTest p f.constant terms = n.rangeTest p f.constant f.terms

theorem all_admits_iff {n : Nest} {dirs : List Direction} :
    (dirs.zipIdx.all fun e => n.admits e.2 e.1) = true
      ↔ ∀ k d, dirs[k]? = some d → n.admits k d = true := by
  rw [List.all_eq_true]
  constructor
  · intro hEach k d hd
    exact hEach (d, k) (List.mk_mem_zipIdx_iff_getElem?.mpr hd)
  · rintro hEach ⟨d, k⟩ hd
    exact hEach k d (List.mk_mem_zipIdx_iff_getElem?.mp hd)

/-- What the test of two subscripts comes to. -/
theorem subscriptsMayMeet_eq (n : Nest) (p : Pair) (first second : Iterators) (x y : Expr) :
    n.subscriptsMayMeet p first second x y
      = match subscriptDifference? first second x y with
        | none => true
        | some d => match Word.neg? d.constant with
          | none => true
          | some rhs =>
            Affine.divisible (d.terms.map (·.2)) rhs && n.rangeTest p d.constant d.terms := by
  unfold subscriptsMayMeet subscriptDifference?
  cases x.linear? first.resolve with
  | none => rfl
  | some a =>
    cases y.linear? second.resolve with
    | none => rfl
    | some b =>
      cases hSub : a.sub? b with
      | none => simp [hSub]
      | some d => cases hNeg : Word.neg? d.constant <;> simp [hSub, hNeg, rangeTest]

end Nest

/-- Whether an equation has a solution does not depend on the order of its terms. -/
theorem divisible_perm {cs cs' : List Int} (h : cs.Perm cs') (v : Int) :
    Affine.divisible cs v = Affine.divisible cs' v := by
  have hFold : cs.foldl (fun acc c => (Int.gcd acc c : Int)) 0
      = cs'.foldl (fun acc c => (Int.gcd acc c : Int)) 0 := by
    refine h.foldl_eq' (fun a _ b _ z => ?_) 0
    rw [Int.gcd_assoc, Int.gcd_assoc, Int.gcd_comm a b]
  unfold Affine.divisible
  rw [hFold]

namespace Restructure

section tests

variable {σ π : Equiv.Perm Nat} {loops loops' : List (Site × LoopHead)} {maxLevels : Nat}
  {p p' : Pair} {dirs dirs' : List Direction} {more inner : List Enclosing}

theorem find?_enclosing_of_mem (hDistinct : (loops.map (·.1.id)).Nodup) {l : Enclosing}
    (hl : l ∈ enclosing loops) : (enclosing loops).find? (·.id == l.id) = some l :=
  find?_key_of_mem (nodup_ids_enclosing hDistinct) hl

theorem find?_enclosing_of_notMem {i : Nat} (hi : i ∉ loops.map (·.1.id)) :
    (enclosing loops).find? (·.id == i) = none := by
  rw [List.find?_eq_none]
  rintro l hl hId
  obtain ⟨l', hl', rfl⟩ := List.mem_map.mp hl
  exact hi (List.mem_map.mpr ⟨l', hl', beq_iff_eq.mp hId⟩)

namespace Turn

theorem distanceRange_eq (h : Turn σ π loops loops') (k : Nat) :
    (analysed maxLevels loops').distanceRange (π k)
      = (analysed maxLevels loops).distanceRange k := by
  unfold Nest.distanceRange
  rw [getElem?_analysed, getElem?_analysed]
  cases hl : loops[k]? with
  | some l =>
    obtain ⟨l', hl', _, hHead⟩ := h.seats k l hl
    rw [hl', Option.map_some, Option.map_some, Option.bind_some, Option.bind_some, LoopHead.level,
      LoopHead.level, hHead]
  | none =>
    have hNone : loops'[π k]? = none := by
      rw [List.getElem?_eq_none_iff] at hl ⊢
      rw [h.length_eq]
      exact Nat.le_of_not_lt fun hLess => absurd ((h.inside k).mp hLess) (Nat.not_lt_of_le hl)
    rw [hNone, Option.map_none]

/-- The unknowns take the same values. -/
theorem rangeOf_eq (h : Turn σ π loops loops') (hp : InBody loops more inner p)
    (hp' : InBody loops' more inner p') (u : Unknown) :
    (analysed maxLevels loops').rangeOf p' (.moved σ π u)
      = (analysed maxLevels loops).rangeOf p u := by
  cases u with
  | offset s i =>
    have hExtent : ((p'.a.loops ++ p'.b.loops).find? (·.id == σ i)).bind (·.head.extent?)
        = ((p.a.loops ++ p.b.loops).find? (·.id == i)).bind (·.head.extent?) := by
      rw [hp.first, hp.second, hp'.first, hp'.second]
      simp only [List.find?_append]
      by_cases hi : i ∈ loops.map (·.1.id)
      · obtain ⟨l, hl, rfl⟩ := List.mem_map.mp hi
        have hMem : (⟨l.1.id, l.2⟩ : Enclosing) ∈ enclosing loops := List.mem_map_of_mem hl
        have hOld := find?_enclosing_of_mem h.distinct hMem
        have hNew := find?_enclosing_of_mem (h.ids ▸ h.distinct) (h.mem_enclosing hl)
        rw [hOld, hNew]
        rfl
      · rw [h.others i hi, find?_enclosing_of_notMem hi, find?_enclosing_of_notMem (h.ids ▸ hi)]
    have hMoved : Unknown.moved σ π (.offset s i) = .offset s (σ i) := rfl
    rw [hMoved]
    unfold Nest.rangeOf
    dsimp only
    rw [hExtent]
  | distance k => exact h.distanceRange_eq k
  | symbol | hidden => rfl

/-- The range test says the same of a form under other names. -/
theorem rangeTest_eq (h : Turn σ π loops loops') (hp : InBody loops more inner p)
    (hp' : InBody loops' more inner p') {f g : Form Unknown}
    (hForms : Form.Renames (Unknown.moved σ π) f g)
    (hOrderless : (analysed maxLevels loops).Orderless p f) :
    (analysed maxLevels loops').rangeTest p' g.constant g.terms
      = (analysed maxLevels loops).rangeTest p f.constant f.terms := by
  -- the terms of the second form under their old names
  have hPerm : (g.terms.map fun t => ((Unknown.moved σ π).symm t.1, t.2)).Perm f.terms := by
    have hBack := hForms.terms.map fun t => ((Unknown.moved σ π).symm t.1, t.2)
    simpa [List.map_map, Function.comp_def] using hBack
  rw [← hOrderless _ hPerm, hForms.constant]
  unfold Nest.rangeTest
  rw [List.map_map, List.map_map]
  congr 1
  refine List.map_congr_left fun t _ => ?_
  rw [Function.comp_apply, ← h.rangeOf_eq hp hp', Equiv.apply_symm_apply]

/-- A direction is possible on the new level of a loop when it was so on the old one. -/
theorem admits_eq (h : Turn σ π loops loops') (k : Nat) (d : Direction) :
    (analysed maxLevels loops').admits (π k) d = (analysed maxLevels loops).admits k d := by
  unfold Nest.admits
  rw [h.distanceRange_eq]

theorem all_admits_eq (h : Turn σ π loops loops') (hDirs : Rearranged π loops.length dirs dirs') :
    (dirs'.zipIdx.all fun e => (analysed maxLevels loops').admits e.2 e.1)
      = dirs.zipIdx.all fun e => (analysed maxLevels loops).admits e.2 e.1 := by
  rw [Bool.eq_iff_iff, Nest.all_admits_iff, Nest.all_admits_iff]
  constructor
  · intro hEach k d hd
    have hk : k < loops.length := hDirs.length ▸ (List.getElem?_eq_some_iff.mp hd).1
    rw [← h.admits_eq]
    exact hEach (π k) d ((hDirs.entries k hk).trans hd)
  · intro hEach k d hd
    have hk : k < loops.length := hDirs.length' ▸ (List.getElem?_eq_some_iff.mp hd).1
    rw [← π.apply_symm_apply k] at hd hk ⊢
    rw [h.admits_eq]
    exact hEach _ d ((hDirs.entries _ ((h.inside _).mp hk)).symm.trans hd)

theorem subscriptsMayMeet_eq (h : Turn σ π loops loops') (hp : InBody loops more inner p)
    (hp' : InBody loops' more inner p') {first first' second second' : Iterators}
    (hFirst : Iterators.Renames σ π first first') (hSecond : Iterators.Renames σ π second second')
    {x y : Expr} (hOrderless : ∀ f, subscriptDifference? first second x y = some f →
      (analysed maxLevels loops).Orderless p f) :
    (analysed maxLevels loops').subscriptsMayMeet p' first' second' x y
      = (analysed maxLevels loops).subscriptsMayMeet p first second x y := by
  have hForms : Moved σ π (subscriptDifference? first second x y)
      (subscriptDifference? first' second' x y) :=
    rel_bind (Expr.renames_linear? x fun z _ => hFirst.resolve z) fun _ _ ha =>
      rel_bind (Expr.renames_linear? y fun z _ => hSecond.resolve z) fun _ _ hb => ha.sub? hb
  rw [Nest.subscriptsMayMeet_eq, Nest.subscriptsMayMeet_eq]
  generalize hf : subscriptDifference? first second x y = difference at hForms ⊢
  generalize subscriptDifference? first' second' x y = difference' at hForms ⊢
  cases hForms with
  | none => rfl
  | @some f g hForms =>
    dsimp only
    rw [hForms.constant]
    cases Word.neg? f.constant with
    | none => rfl
    | some rhs =>
      -- both tests look at the coefficients only up to their order
      have hCoefficients : (g.terms.map (·.2)).Perm (f.terms.map (·.2)) := by
        have hMapped := hForms.terms.map (·.2)
        rwa [List.map_map] at hMapped
      have hRange := h.rangeTest_eq hp hp' hForms (hOrderless f hf)
      rw [hForms.constant] at hRange
      dsimp only
      rw [divisible_perm hCoefficients, hRange]

/-- **Tests**: a vector and the same vector in the new order of the levels pass or fail alike. -/
theorem mayConflict_eq (h : Turn σ π loops loops') (hp : InBody loops more inner p)
    (hp' : InBody loops' more inner p') (hMore : ∀ l ∈ more, l.id ∉ loops.map (·.1.id))
    (hInner : ∀ l ∈ inner, l.id ∉ loops.map (·.1.id)) (hIndices : p'.a.indices = p.a.indices)
    (hIndices' : p'.b.indices = p.b.indices) (hDirs : Rearranged π loops.length dirs dirs')
    (hOrderless : ∀ x y f, (x, y) ∈ p.a.indices.zip p.b.indices →
      subscriptDifference? (firstIterators p.a.loops)
        ((analysed maxLevels loops).secondIterators p dirs (firstIterators p.a.loops)) x y = some f →
      (analysed maxLevels loops).Orderless p f) :
    (analysed maxLevels loops').mayConflict p' dirs'
      = (analysed maxLevels loops).mayConflict p dirs := by
  have hFirst : Iterators.Renames σ π (firstIterators p.a.loops) (firstIterators p'.a.loops) := by
    rw [hp.first, hp'.first]
    exact h.renames_first hMore
  have hSecond := h.renames_second maxLevels hp hp' hInner hDirs hFirst
  have hWhole : dirs.take p.common = dirs := by
    rw [hp.common, ← hDirs.length, List.take_length]
  have hWhole' : dirs'.take p'.common = dirs' := by
    rw [hp'.common, h.length_eq, ← hDirs.length', List.take_length]
  unfold Nest.mayConflict
  rw [hWhole, hWhole', hIndices, hIndices']
  refine congrArg₂ (· && ·) (h.all_admits_eq hDirs) ?_
  congr 1
  refine Bool.eq_iff_iff.mpr ?_
  rw [List.all_eq_true, List.all_eq_true]
  refine forall₂_congr fun e he => Bool.eq_iff_iff.mp ?_
  exact h.subscriptsMayMeet_eq hp hp' hFirst hSecond fun f hf => hOrderless e.1 e.2 f he hf

end Turn

end tests

end Restructure

end LoopNest

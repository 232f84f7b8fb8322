import Mathlib.Data.List.Forall2
import Mathlib.Data.List.TakeWhile
import LoopNest.Proofs.AffineForms
import LoopNest.Proofs.Surroundings

/-! # Encounters of two touches

  The test of a direction vector is about two iterations of every loop: those of the first touch and
  those of the second one. This module gives the unknowns of the test the values that they have for
  two touches (`Encounter.valuation`).

  * **Iterators**: the forms of the analysis have the values of the iterators (`fits_foldl`), and
    their atoms stay within the ranges that the analysis assumes.
  * **The test**: when the touches reach one cell and a vector allows their iterations, the test of
    the vector succeeds (`Encounter.mayConflict`). -/

namespace LoopNest

open Affine (Form Interval)

/-! ## Directions of two iterations -/

namespace Direction

/-- How two iterations compare. -/
def sign (u w : Int) : Direction := if u < w then .lt else if w < u then .gt else .eq

/-- Whether a direction allows two iterations. -/
def Admits : Direction → Int → Int → Prop
  | .lt, u, w => u < w
  | .eq, u, w => u = w
  | .gt, u, w => w < u
  | .star, _, _ => True

theorem admits_sign (u w : Int) : (sign u w).Admits u w := by
  unfold sign
  by_cases hLt : u < w
  · rw [if_pos hLt]
    exact hLt
  · by_cases hGt : w < u
    · rw [if_neg hLt, if_pos hGt]
      exact hGt
    · rw [if_neg hLt, if_neg hGt]
      show u = w
      omega

theorem sign_eq_iff {u w : Int} : sign u w = .eq ↔ u = w := by
  unfold sign
  by_cases hLt : u < w
  · simp [hLt, Int.ne_of_lt hLt]
  · by_cases hGt : w < u
    · simp [hLt, hGt, Int.ne_of_gt hGt]
    · simp [hLt, hGt]
      omega

theorem sign_ne_star (u w : Int) : sign u w ≠ .star := by
  unfold sign
  by_cases hLt : u < w
  · simp [hLt]
  · by_cases hGt : w < u <;> simp [hLt, hGt]

@[simp] theorem reverse_sign (u w : Int) : (sign u w).reverse = sign w u := by
  unfold sign
  by_cases hLt : u < w
  · have hNot : ¬ w < u := by omega
    simp [hLt, hNot, reverse]
  · by_cases hGt : w < u <;> simp [hLt, hGt, reverse]

end Direction

/-! ## Unknowns -/

namespace Unknown

theorem then_eq_eq {a b : Ordering} : a.then b = .eq ↔ a = .eq ∧ b = .eq := by
  cases a <;> simp [Ordering.then]

theorem sideRank_injective {s t : Side} (h : compare (sideRank s) (sideRank t) = .eq) : s = t := by
  cases s <;> cases t <;> simp_all [sideRank]

instance : Std.LawfulEqOrd Unknown where
  compare_self {a} := by
    show a.order a = .eq
    cases a <;> simp [order]
  eq_of_compare {a b} h := by
    replace h : a.order b = .eq := h
    cases a <;> cases b <;> simp only [order, rank] at h
    case offset.offset s i t j =>
      obtain ⟨hSide, hLoop⟩ := then_eq_eq.mp h
      rw [sideRank_injective hSide, Std.LawfulEqOrd.eq_of_compare hLoop]
    case distance.distance k l => rw [Std.LawfulEqOrd.eq_of_compare h]
    case symbol.symbol x y => rw [Std.LawfulEqOrd.eq_of_compare h]
    case hidden.hidden s i t j =>
      obtain ⟨hSide, hLoop⟩ := then_eq_eq.mp h
      rw [sideRank_injective hSide, Std.LawfulEqOrd.eq_of_compare hLoop]
    all_goals exact absurd h (by decide)

end Unknown

/-- A form, if there is one, has a value, and its atoms satisfy a condition. -/
def Stands (ν : Unknown → Int) (good : Unknown → Prop) (f : Option (Form Unknown)) (v : Int) :
    Prop :=
  ∀ g, f = some g → g.eval ν = v ∧ g.Over good

namespace Stands

variable {ν : Unknown → Int} {good : Unknown → Prop}

theorem none (v : Int) : Stands ν good none v := by
  intro g h
  cases h

theorem ofAtom {k : Unknown} {v : Int} (hk : good k) (hv : ν k = v) :
    Stands ν good (some (.ofAtom k)) v := by
  intro g h
  cases h
  exact ⟨by rw [Form.eval_ofAtom, hv], Form.over_ofAtom hk⟩

theorem add? {f : Form Unknown} {k : Unknown} {v w : Int} (hf : Stands ν good (some f) v)
    (hk : good k) (hw : v + ν k = w) : Stands ν good (f.add? (.ofAtom k)) w := by
  intro g h
  obtain ⟨hValue, hOver⟩ := hf f rfl
  refine ⟨?_, Form.over_add? h hOver (Form.over_ofAtom hk)⟩
  rw [Form.eval_add? h, Form.eval_ofAtom, hValue, hw]

theorem sub? {f : Form Unknown} {k : Unknown} {v w : Int} (hf : Stands ν good (some f) v)
    (hk : good k) (hw : v - ν k = w) : Stands ν good (f.sub? (.ofAtom k)) w := by
  intro g h
  obtain ⟨hValue, hOver⟩ := hf f rfl
  refine ⟨?_, Form.over_sub? h hOver (Form.over_ofAtom hk)⟩
  rw [Form.eval_sub? h, Form.eval_ofAtom, hValue, hw]

/-- An affine expression stands for its value when its scalars do. -/
theorem linear? {resolve : String → Option (Form Unknown)} {c : Conventions} {env : Env}
    (hResolve : ∀ x, Stands ν good (resolve x) (env x)) {e : Expr} {m : Memory} {v : Int}
    (hv : e.valueWith? c env m = some v) : Stands ν good (e.linear? resolve) v := by
  intro g h
  refine ⟨?_, Expr.over_of_linear? (fun x f hf => (hResolve x f hf).2) e g h⟩
  have hValue := Expr.valueWith?_of_linear? (c := c) (m := m)
    (fun x f hf => (hResolve x f hf).1) e g h
  rw [hv, Option.some.injEq] at hValue
  exact hValue.symm

end Stands

/-! ## Iterators -/

/-- The iterators of the analysis, innermost first, stand for the values in the iterations of a
    path, outermost first. -/
def Iterators.Fits (ν : Unknown → Int) (good : Unknown → Prop) (path : List Turn)
    (env : Iterators) : Prop :=
  List.Forall₂ (fun r e => e.1 = r.loop ∧ Stands ν good e.2 r.value) path.reverse env

namespace Iterators.Fits

variable {ν : Unknown → Int} {good : Unknown → Prop} {path : List Turn} {env : Iterators}

theorem nil : Fits ν good [] [] := List.Forall₂.nil

theorem snoc (h : Fits ν good path env) {r : Turn} {f : Option (Form Unknown)}
    (hf : Stands ν good f r.value) : Fits ν good (path ++ [r]) ((r.loop, f) :: env) := by
  unfold Fits
  rw [List.reverse_append]
  exact List.Forall₂.cons ⟨rfl, hf⟩ h

/-- Scalars resolve to their values in the environment inside the iterations. -/
theorem resolve {start : Env} (hSymbol : ∀ x, good (.symbol x) ∧ ν (.symbol x) = start x)
    (h : Fits ν good path env) (x : String) :
    Stands ν good (env.resolve x) (start.along path x) := by
  unfold Fits at h
  rw [← List.reverse_reverse path]
  generalize path.reverse = inner at h
  induction h with
  | nil => exact Stands.ofAtom (hSymbol x).1 (hSymbol x).2
  | @cons r e inner env hHead hTail ih =>
    obtain ⟨hLoop, hStands⟩ := hHead
    rw [List.reverse_cons, Env.along_append]
    show Stands ν good _ (((start.along inner.reverse).set r.loop.head.iter r.value) x)
    unfold Iterators.resolve at ih ⊢
    by_cases hx : e.1.head.iter = x
    · rw [List.find?_cons_of_pos (by simp [hx])]
      rw [← hLoop, hx, Env.set_self]
      exact hStands
    · rw [List.find?_cons_of_neg (by simp [hx])]
      rw [Env.set_ne (by rw [← hLoop]; exact fun h => hx h.symm)]
      exact ih

/-- The form of the iterator of the loop numbered `id` stands for its value. -/
theorem valueOf (h : Fits ν good path env) (hNodup : (path.map (·.loop.id)).Nodup) {r : Turn}
    (hr : r ∈ path) : Stands ν good (env.valueOf r.loop.id) r.value := by
  unfold Fits at h
  have hMem : r ∈ path.reverse := List.mem_reverse.mpr hr
  have hUnique : (path.reverse.map (·.loop.id)).Nodup := by
    rw [List.map_reverse]
    exact List.nodup_reverse.mpr hNodup
  generalize path.reverse = inner at h hMem hUnique
  clear hr hNodup
  unfold Iterators.valueOf
  induction h with
  | nil => cases hMem
  | @cons s e inner env hHead hTail ih =>
    obtain ⟨hLoop, hStands⟩ := hHead
    rw [List.map_cons] at hUnique
    obtain ⟨hNot, hRest⟩ := List.nodup_cons.mp hUnique
    rcases List.mem_cons.mp hMem with rfl | hMem
    · rw [List.find?_cons_of_pos (by simp [hLoop])]
      exact hStands
    · have hOther : e.1.id ≠ r.loop.id := by
        rw [hLoop]
        intro hid
        apply hNot
        rw [hid]
        exact List.mem_map_of_mem hMem
      rw [List.find?_cons_of_neg (by simp [hOther])]
      exact ih hMem hRest

end Iterators.Fits

/-- Iterators that are added one loop at a time fit when each of them stands for its value. -/
theorem fits_foldl {ν : Unknown → Int} {good : Unknown → Prop} {c : Conventions} {start : Env}
    (step : Iterators → Enclosing → Option (Form Unknown)) :
    ∀ (path done : List Turn) (env : Iterators), Iterators.Fits ν good done env →
      InRange c (start.along done) path →
      (∀ done' env' r, Iterators.Fits ν good done' env' → r ∈ path →
        r.Ran c (start.along done') → Stands ν good (step env' r.loop) r.value) →
      Iterators.Fits ν good (done ++ path)
        ((path.map Turn.loop).foldl (fun env l => (l, step env l) :: env) env) := by
  intro path
  induction path with
  | nil =>
    intro done env hFits _ _
    rw [List.append_nil]
    exact hFits
  | cons r path ih =>
    intro done env hFits hRange hStep
    have hNext := hFits.snoc (hStep done env r hFits List.mem_cons_self hRange.1)
    have hAlong : start.along (done ++ [r])
        = (start.along done).set r.loop.head.iter r.value := by
      rw [Env.along_append]
      rfl
    have hRest := ih (done ++ [r]) _ hNext (hAlong ▸ hRange.2)
      fun done' env' s hFits' hs => hStep done' env' s hFits' (List.mem_cons_of_mem r hs)
    rw [List.append_assoc] at hRest
    exact hRest

/-- The iterator of a loop as its lower bound plus an offset stands for its value. -/
theorem stands_freeValue {ν : Unknown → Int} {good : Unknown → Prop} {c : Conventions}
    {start : Env} {side : Side} {path : List Turn} {env : Iterators} {r : Turn}
    (hSymbol : ∀ x, good (.symbol x) ∧ ν (.symbol x) = start x)
    (hOffset : good (.offset side r.loop.id) ∧ ν (.offset side r.loop.id) = r.value - r.lower)
    (hHidden : good (.hidden side r.loop.id) ∧ ν (.hidden side r.loop.id) = r.value)
    (hFits : Iterators.Fits ν good path env) (hRan : r.Ran c (start.along path)) :
    Stands ν good (r.loop.freeValue side env) r.value := by
  obtain ⟨m, upper, hLower, _⟩ := hRan
  unfold Enclosing.freeValue
  have hLinear := Stands.linear? (hFits.resolve hSymbol) hLower
  cases hForm : r.loop.head.lower.linear? env.resolve with
  | none => exact Stands.ofAtom hHidden.1 hHidden.2
  | some b =>
    rw [hForm] at hLinear
    exact hLinear.add? hOffset.1 (by rw [hOffset.2]; omega)

/-! ## Encounters -/

/-- The number of levels around both of two touches. -/
def Nest.common (n : Nest) (x y : Touch) : Nat := n.commonLevels x.access y.access

/-- Two touches as a pair of accesses. -/
def Nest.pair (n : Nest) (x y : Touch) : Pair := ⟨x.access, y.access, n.common x y⟩

/-- What stands in the front part of a list that passes a test passes it. -/
theorem getElem?_of_lt_takeWhile {α : Type} {f : α → Bool} {xs : List α} {k : Nat}
    (h : k < (xs.takeWhile f).length) : ∃ a, xs[k]? = some a ∧ f a = true := by
  obtain ⟨a, ha⟩ : ∃ a, (xs.takeWhile f)[k]? = some a := ⟨_, List.getElem?_eq_getElem h⟩
  refine ⟨a, ?_, List.mem_takeWhile_imp (List.mem_of_getElem? ha)⟩
  rw [← List.takeWhile_append_dropWhile (l := xs) (p := f), List.getElem?_append_left h]
  exact ha

theorem Nest.exists_of_lt_common {n : Nest} {x y : Touch} {k : Nat} (h : k < n.common x y) :
    ∃ l, n.levels[k]? = some l ∧ (∃ a ∈ x.access.loops, a.id = l.id)
      ∧ ∃ b ∈ y.access.loops, b.id = l.id := by
  obtain ⟨l, hl, hAround⟩ := getElem?_of_lt_takeWhile h
  rw [Bool.and_eq_true, List.any_eq_true, List.any_eq_true] at hAround
  obtain ⟨⟨a, ha, haId⟩, b, hb, hbId⟩ := hAround
  exact ⟨l, hl, ⟨a, ha, beq_iff_eq.mp haId⟩, b, hb, beq_iff_eq.mp hbId⟩

/-- Two touches of one execution of a nest, with the iterations in which they happen.

    * **placed**: the loops around each of them have these iterations;
    * **unique**, **forked**: a number stands for one loop at one depth;
    * **near**: two iterations of a refined level with a constant trip count lie less than that
      count apart. -/
structure Encounter (n : Nest) (c : Conventions) (start : Env) (x y : Touch) (P Q : List Turn) :
    Prop where
  first : x.Placed c start P
  second : y.Placed c start Q
  uniqueFirst : (x.access.loops.map (·.id)).Nodup
  uniqueSecond : (y.access.loops.map (·.id)).Nodup
  forked : Forked x.access.loops y.access.loops
  near : ∀ k l e u w, k < n.maxLevels → n.levels[k]? = some l → l.extent = some e →
    x.value? l.id = some u → y.value? l.id = some w → u ≠ w → u - w < e ∧ w - u < e

/-- The iteration of a path in the loop numbered `id`. -/
def turnOf? (path : List Turn) (id : Nat) : Option Turn := path.find? (·.loop.id == id)

theorem Touch.Placed.value? {c : Conventions} {start : Env} {x : Touch} {path : List Turn}
    (h : x.Placed c start path) (id : Nat) : x.value? id = (turnOf? path id).map Turn.value := by
  unfold Touch.value? turnOf?
  rw [← h.loops, ← h.turn, List.zip_map', List.find?_map, Option.map_map]
  rfl

theorem turnOf?_eq_some {path : List Turn} {id : Nat} {r : Turn} (h : turnOf? path id = some r) :
    r ∈ path ∧ r.loop.id = id :=
  ⟨List.mem_of_find?_eq_some h, by simpa using List.find?_some h⟩

theorem turnOf?_of_mem {path : List Turn} (hNodup : (path.map (·.loop.id)).Nodup) {r : Turn}
    (hr : r ∈ path) : turnOf? path r.loop.id = some r := by
  obtain ⟨s, hs⟩ : ∃ s, turnOf? path r.loop.id = some s := by
    apply Option.isSome_iff_exists.mp
    unfold turnOf?
    rw [List.find?_isSome]
    exact ⟨r, hr, beq_self_eq_true _⟩
  obtain ⟨hMem, hid⟩ := turnOf?_eq_some hs
  rw [hs, List.inj_on_of_nodup_map hNodup hMem hr hid]

/-- The one of two things that belongs to a side. -/
def Side.pick {α : Type} (a b : α) : Side → α
  | .first => a
  | .second => b

namespace Encounter

/-- What the unknowns of the analysis are for the iterations of two touches. -/
def valuation (n : Nest) (start : Env) (P Q : List Turn) : Unknown → Int
  | .offset s id => ((turnOf? (s.pick P Q) id).map fun r => r.value - r.lower).getD 0
  | .hidden s id => ((turnOf? (s.pick P Q) id).map Turn.value).getD 0
  | .symbol x => start x
  | .distance k => (n.levels[k]?.map fun l =>
      ((((turnOf? P l.id).map Turn.value).getD 0
        - ((turnOf? Q l.id).map Turn.value).getD 0).natAbs : Int)).getD 0

/-- An unknown is in the range that the analysis assumes for it. -/
def Good (n : Nest) (start : Env) (x y : Touch) (P Q : List Turn) (u : Unknown) : Prop :=
  (n.rangeOf (n.pair x y) u).Mem (valuation n start P Q u)

variable {n : Nest} {c : Conventions} {start : Env} {x y : Touch} {P Q : List Turn}

theorem symm (h : Encounter n c start x y P Q) : Encounter n c start y x Q P where
  first := h.second
  second := h.first
  uniqueFirst := h.uniqueSecond
  uniqueSecond := h.uniqueFirst
  forked := h.forked.symm
  near k l e u w hk hl he hu hw hne := (h.near k l e w u hk hl he hw hu hne.symm).symm

theorem nodupFirst (h : Encounter n c start x y P Q) : (P.map (·.loop.id)).Nodup := by
  have hNodup := h.uniqueFirst
  rw [← h.first.loops, List.map_map] at hNodup
  exact hNodup

theorem nodupSecond (h : Encounter n c start x y P Q) : (Q.map (·.loop.id)).Nodup :=
  h.symm.nodupFirst

theorem nodupPick (h : Encounter n c start x y P Q) (s : Side) :
    ((s.pick P Q).map (·.loop.id)).Nodup := by
  cases s
  · exact h.nodupFirst
  · exact h.nodupSecond

theorem same (h : Encounter n c start x y P Q) {a b : Enclosing} (ha : a ∈ x.access.loops)
    (hb : b ∈ y.access.loops) (hid : a.id = b.id) : a = b := by
  obtain ⟨i, hi⟩ := List.mem_iff_getElem?.mp ha
  obtain ⟨j, hj⟩ := List.mem_iff_getElem?.mp hb
  exact (h.forked.index_eq h.uniqueFirst h.uniqueSecond hi hj hid).2

/-- A number stands for one loop on both sides. -/
theorem loop_eq (h : Encounter n c start x y P Q) {a b : Enclosing}
    (ha : a ∈ x.access.loops ++ y.access.loops) (hb : b ∈ x.access.loops ++ y.access.loops)
    (hid : a.id = b.id) : a = b := by
  rcases List.mem_append.mp ha with ha | ha
  · rcases List.mem_append.mp hb with hb | hb
    · exact List.inj_on_of_nodup_map h.uniqueFirst ha hb hid
    · exact h.same ha hb hid
  · rcases List.mem_append.mp hb with hb | hb
    · exact (h.same hb ha hid.symm).symm
    · exact List.inj_on_of_nodup_map h.uniqueSecond ha hb hid

theorem loop_mem_pick (h : Encounter n c start x y P Q) {s : Side} {r : Turn}
    (hr : r ∈ s.pick P Q) : r.loop ∈ x.access.loops ++ y.access.loops := by
  cases s
  · exact List.mem_append_left _ (h.first.loops ▸ List.mem_map_of_mem hr)
  · exact List.mem_append_right _ (h.second.loops ▸ List.mem_map_of_mem hr)

/-- An iteration of a loop with a constant trip count is less than that count beyond the lower
    bound. -/
theorem offset_lt_extent {env : Env} {r : Turn} (hRan : r.Ran c env) {e : Int}
    (he : r.loop.head.extent? = some e) : r.value - r.lower < e := by
  obtain ⟨m, upper, hLower, hUpper, _, hLt⟩ := hRan
  have hDistance := Expr.distance_of_constantDistance? he hLower hUpper
  omega

theorem good_offset (h : Encounter n c start x y P Q) {s : Side} {r : Turn} {env : Env}
    (hr : r ∈ s.pick P Q) (hRan : r.Ran c env) :
    Good n start x y P Q (.offset s r.loop.id)
      ∧ valuation n start P Q (.offset s r.loop.id) = r.value - r.lower := by
  have hValue : valuation n start P Q (.offset s r.loop.id) = r.value - r.lower := by
    rw [valuation, turnOf?_of_mem (h.nodupPick s) hr]
    rfl
  refine ⟨?_, hValue⟩
  obtain ⟨m, upper, hLower, hUpper, hLe, hLt⟩ := hRan
  obtain ⟨l, hl⟩ : ∃ l, (x.access.loops ++ y.access.loops).find? (·.id == r.loop.id) = some l := by
    apply Option.isSome_iff_exists.mp
    rw [List.find?_isSome]
    exact ⟨r.loop, h.loop_mem_pick hr, beq_self_eq_true _⟩
  have hLoop : l = r.loop := by
    apply h.loop_eq (List.mem_of_find?_eq_some hl) (h.loop_mem_pick hr)
    simpa using List.find?_some hl
  unfold Good
  rw [hValue]
  have hFind : ((n.pair x y).a.loops ++ (n.pair x y).b.loops).find? (·.id == r.loop.id)
      = some r.loop := hl.trans (congrArg some hLoop)
  rw [Nest.rangeOf, hFind, Option.bind_some]
  cases he : r.loop.head.extent? with
  | none =>
    refine ⟨fun lo hLo => ?_, fun hi hHi => by cases hHi⟩
    cases hLo
    omega
  | some e =>
    have hExtent := offset_lt_extent ⟨m, upper, hLower, hUpper, hLe, hLt⟩ he
    refine ⟨fun lo hLo => ?_, fun hi hHi => ?_⟩
    · cases hLo
      omega
    · cases hHi
      omega

theorem good_hidden (h : Encounter n c start x y P Q) {s : Side} {r : Turn}
    (hr : r ∈ s.pick P Q) :
    Good n start x y P Q (.hidden s r.loop.id)
      ∧ valuation n start P Q (.hidden s r.loop.id) = r.value := by
  refine ⟨Interval.mem_unbounded _, ?_⟩
  rw [valuation, turnOf?_of_mem (h.nodupPick s) hr]
  rfl

theorem good_symbol (name : String) :
    Good n start x y P Q (.symbol name)
      ∧ valuation n start P Q (.symbol name) = start name :=
  ⟨Interval.mem_unbounded _, rfl⟩

/-- The distance of different iterations of a refined level is in the range of that level. -/
theorem distance_mem (h : Encounter n c start x y P Q) {k : Nat} {l : Level} {u w : Int}
    (hk : k < n.maxLevels) (hl : n.levels[k]? = some l) (hu : x.value? l.id = some u) (hw : y.value? l.id = some w)
    (hne : u ≠ w) : valuation n start P Q (.distance k) = ((u - w).natAbs : Int)
      ∧ (n.distanceRange k).Mem ((u - w).natAbs : Int) := by
  constructor
  · rw [h.first.value?] at hu
    rw [h.second.value?] at hw
    rw [valuation, hl, Option.map_some, hu, hw]
    rfl
  · unfold Nest.distanceRange
    rw [hl, Option.bind_some]
    cases he : l.extent with
    | none =>
      refine ⟨fun lo hLo => ?_, fun hi hHi => by cases hHi⟩
      cases hLo
      omega
    | some e =>
      obtain ⟨hFirst, hSecond⟩ := h.near k l e u w hk hl he hu hw hne
      refine ⟨fun lo hLo => ?_, fun hi hHi => ?_⟩
      · cases hLo
        omega
      · cases hHi
        omega

/-- The value of the iterator of the `i`-th loop around a touch. -/
theorem value?_of_getElem? (h : Encounter n c start x y P Q) {i : Nat} {a : Enclosing}
    (ha : x.access.loops[i]? = some a) : x.value? a.id = x.turn[i]? := by
  rw [← h.first.loops, List.getElem?_map] at ha
  obtain ⟨r, hr, rfl⟩ := Option.map_eq_some_iff.mp ha
  rw [h.first.value?, turnOf?_of_mem h.nodupFirst (List.mem_of_getElem? hr), ← h.first.turn,
    List.getElem?_map, hr]

/-- Touches of one local buffer are in one iteration of each loop around its declaration. -/
theorem value?_eq_of_declaredInside (h : Encounter n c start x y P Q) (hx : x.Owned)
    (hy : y.Owned) (hOwner : x.owner = y.owner) {l : Level}
    (hFirst : Nest.declaredInside l x.access = true)
    (hSecond : Nest.declaredInside l y.access = true) : x.value? l.id = y.value? l.id := by
  have hInside : ∀ z : Touch, Nest.declaredInside l z.access = true →
      ∃ d i a, z.access.declDepth = some d ∧ i < d ∧ z.access.loops[i]? = some a
        ∧ a.id = l.id := by
    intro z hz
    unfold Nest.declaredInside at hz
    cases hd : z.access.declDepth with
    | none =>
      rw [hd] at hz
      cases hz
    | some d =>
      rw [hd] at hz
      obtain ⟨a, ha, hid⟩ := List.any_eq_true.mp hz
      obtain ⟨i, hi, rfl⟩ := List.mem_take_iff_getElem.mp ha
      exact ⟨d, i, _, rfl, by omega, List.getElem?_eq_getElem (by omega), beq_iff_eq.mp hid⟩
  obtain ⟨d, i, a, hd, hi, ha, haId⟩ := hInside x hFirst
  obtain ⟨d', j, b, hd', hj, hb, hbId⟩ := hInside y hSecond
  obtain ⟨o, ho, hTurn, _⟩ := hx d hd
  obtain ⟨o', ho', hTurn', _⟩ := hy d' hd'
  rw [hOwner, ho', Option.some.injEq] at ho
  subst ho
  obtain ⟨rfl, rfl⟩ := h.forked.index_eq h.uniqueFirst h.uniqueSecond ha hb (haId.trans hbId.symm)
  rw [← haId, h.value?_of_getElem? ha, h.symm.value?_of_getElem? hb]
  have hSame : (x.turn.take d)[i]? = (y.turn.take d')[i]? := by rw [← hTurn, ← hTurn']
  rwa [List.getElem?_take_of_lt hi, List.getElem?_take_of_lt hj] at hSame

/-! ## The test of a vector -/

/-- The entries of a vector allow the iterations of two touches on every level around both. Levels
    that are not refined are open. -/
structure Allows (n : Nest) (x y : Touch) (dirs : List Direction) : Prop where
  entry : ∀ k l u w, n.levels[k]? = some l → k < n.common x y → x.value? l.id = some u →
    y.value? l.id = some w → (dirs.getD k .star).Admits u w
  rest : ∀ k, n.maxLevels ≤ k → k < n.common x y → dirs.getD k .star = .star

theorem Allows.refined {dirs : List Direction} (h : Allows n x y dirs) {k : Nat} {d : Direction}
    (hk : k < n.common x y) (hd : dirs.getD k .star = d) (hStar : d ≠ .star) : k < n.maxLevels := by
  rcases Nat.lt_or_ge k n.maxLevels with hLt | hGe
  · exact hLt
  · exact absurd (hd.symm.trans (h.rest k hGe hk)) hStar

theorem exists_value (h : Encounter n c start x y P Q) {a : Enclosing}
    (ha : a ∈ x.access.loops) : ∃ u, x.value? a.id = some u := by
  rw [← h.first.loops] at ha
  obtain ⟨r, hr, rfl⟩ := List.mem_map.mp ha
  rw [h.first.value?, turnOf?_of_mem h.nodupFirst hr]
  exact ⟨r.value, rfl⟩

/-- Both touches are in an iteration of each level around both. -/
theorem exists_values (h : Encounter n c start x y P Q) {k : Nat} (hk : k < n.common x y) :
    ∃ l u w, n.levels[k]? = some l ∧ x.value? l.id = some u ∧ y.value? l.id = some w := by
  obtain ⟨l, hl, ⟨a, ha, haId⟩, b, hb, hbId⟩ := Nest.exists_of_lt_common hk
  obtain ⟨u, hu⟩ := h.exists_value ha
  obtain ⟨w, hw⟩ := h.symm.exists_value hb
  exact ⟨l, u, w, hl, haId ▸ hu, hbId ▸ hw⟩

theorem first_fits (h : Encounter n c start x y P Q) :
    Iterators.Fits (valuation n start P Q) (Good n start x y P Q) P
      (firstIterators x.access.loops) := by
  unfold firstIterators
  rw [← h.first.loops]
  apply fits_foldl (fun env l => l.freeValue .first env) P [] [] .nil h.first.inRange
  intro done env r hFits hr hRan
  exact stands_freeValue good_symbol (h.good_offset (s := .first) hr hRan)
    (h.good_hidden (s := .first) hr) hFits hRan

theorem constraint?_eq_some {p : Pair} {dirs : List Direction} {id k : Nat} {d : Direction}
    (h : n.constraint? p dirs id = some (k, d)) :
    (∃ l, n.levels[k]? = some l ∧ l.id = id) ∧ k < p.common ∧ dirs.getD k .star = d
      ∧ d ≠ .star := by
  simp only [Nest.constraint?, Option.bind_eq_bind, Option.bind_eq_some_iff] at h
  obtain ⟨k', hLevel, h⟩ := h
  split at h
  · rename_i hCommon
    split at h
    · cases h
    · rename_i hStar
      cases h
      obtain ⟨hk, hid, _⟩ := List.findIdx?_eq_some_iff_getElem.mp hLevel
      exact ⟨⟨_, List.getElem?_eq_getElem hk, beq_iff_eq.mp hid⟩, hCommon, rfl, hStar⟩
  · cases h

/-- The value of a constrained iterator is that of the first side, moved by the distance. -/
theorem stands_shifted (h : Encounter n c start x y P Q) {k : Nat} {l : Level} {d : Direction}
    {u w : Int} (hk : k < n.maxLevels) (hl : n.levels[k]? = some l) (hu : x.value? l.id = some u)
    (hw : y.value? l.id = some w) (hd : d.Admits u w) (hStar : d ≠ .star) {f : Form Unknown}
    (hf : Stands (valuation n start P Q) (Good n start x y P Q) (some f) u) :
    Stands (valuation n start P Q) (Good n start x y P Q) (Nest.shifted f k d) w := by
  cases d with
  | lt =>
    have hLt : u < w := hd
    obtain ⟨hValue, hMem⟩ := h.distance_mem hk hl hu hw (by omega)
    apply hf.add?
    · show (n.distanceRange k).Mem _
      rw [hValue]
      exact hMem
    · rw [hValue]
      omega
  | gt =>
    have hGt : w < u := hd
    obtain ⟨hValue, hMem⟩ := h.distance_mem hk hl hu hw (by omega)
    apply hf.sub?
    · show (n.distanceRange k).Mem _
      rw [hValue]
      exact hMem
    · rw [hValue]
      omega
  | eq =>
    have hEq : u = w := hd
    rw [← hEq]
    exact hf
  | star => exact absurd rfl hStar

theorem second_fits (h : Encounter n c start x y P Q) {dirs : List Direction}
    (hDirs : Allows n x y dirs) :
    Iterators.Fits (valuation n start P Q) (Good n start x y P Q) Q
      (n.secondIterators (n.pair x y) dirs (firstIterators x.access.loops)) := by
  unfold Nest.secondIterators
  show Iterators.Fits _ _ Q (List.foldl _ [] y.access.loops)
  rw [← h.second.loops]
  apply fits_foldl _ Q [] [] .nil h.second.inRange
  intro done env r hFits hr hRan
  cases hConstraint : n.constraint? (n.pair x y) dirs r.loop.id with
  | none =>
    exact stands_freeValue good_symbol (h.good_offset (s := .second) hr hRan)
      (h.good_hidden (s := .second) hr) hFits hRan
  | some kd =>
    obtain ⟨k, d⟩ := kd
    obtain ⟨⟨l, hl, hid⟩, hk, hd, hStar⟩ := constraint?_eq_some hConstraint
    obtain ⟨l', u, w, hl', hu, hw⟩ := h.exists_values hk
    rw [hl, Option.some.injEq] at hl'
    subst hl'
    -- the second side has the value of this iteration, the first side that of another one
    have hSecond : w = r.value := by
      rw [h.second.value?, hid, turnOf?_of_mem h.nodupSecond hr] at hw
      exact (Option.some.inj hw).symm
    obtain ⟨s, hs, hsValue⟩ : ∃ s, turnOf? P l.id = some s ∧ s.value = u := by
      rw [h.first.value?] at hu
      exact Option.map_eq_some_iff.mp hu
    obtain ⟨hsMem, hsId⟩ := turnOf?_eq_some hs
    have hFirst := h.first_fits.valueOf h.nodupFirst hsMem
    rw [hsId, hid, hsValue] at hFirst
    have hRefined := hDirs.refined hk hd hStar
    have hAdmits := hDirs.entry k l u w hl hk hu hw
    rw [hd] at hAdmits
    show Stands _ _ (((firstIterators x.access.loops).valueOf r.loop.id).bind _) r.value
    cases hForm : (firstIterators x.access.loops).valueOf r.loop.id with
    | none => exact Stands.none _
    | some f =>
      rw [hForm] at hFirst
      rw [← hSecond]
      exact h.stands_shifted hRefined hl hu hw hAdmits hStar hFirst

/-- Subscripts that have one value may be equal for the analysis. -/
theorem subscriptsMayMeet {first second : Iterators} {env env' : Env}
    (hFirst : ∀ z, Stands (valuation n start P Q) (Good n start x y P Q) (first.resolve z) (env z))
    (hSecond : ∀ z, Stands (valuation n start P Q) (Good n start x y P Q) (second.resolve z)
      (env' z)) {a b : Expr} {m m' : Memory} {v : Int} (ha : a.valueWith? c env m = some v)
    (hb : b.valueWith? c env' m' = some v) :
    n.subscriptsMayMeet (n.pair x y) first second a b = true := by
  unfold Nest.subscriptsMayMeet
  cases hDiff : (do
    let a ← a.linear? first.resolve
    let b ← b.linear? second.resolve
    let d ← a.sub? b
    return (d, ← Word.neg? d.constant) : Option (Form Unknown × Int)) with
  | none => rfl
  | some dr =>
    obtain ⟨d, rhs⟩ := dr
    simp only [Option.bind_eq_bind, Option.bind_eq_some_iff] at hDiff
    obtain ⟨f, hf, g, hg, d', hd, r, hr, hPair⟩ := hDiff
    cases hPair
    obtain ⟨hfValue, hfOver⟩ := Stands.linear? hFirst ha f hf
    obtain ⟨hgValue, hgOver⟩ := Stands.linear? hSecond hb g hg
    have hZero := Form.eval_sub? hd (valuation n start P Q)
    rw [hfValue, hgValue, Form.eval_eq_total] at hZero
    obtain ⟨_, hRhs⟩ := Word.neg?_eq_some.mp hr
    have hTotal : Form.total (valuation n start P Q) d.terms = rhs := by omega
    have hDivisible := Affine.divisible_of_total (valuation n start P Q) d.terms
    rw [hTotal] at hDivisible
    have hReaches := Affine.reachesZero_of_total (ν := valuation n start P Q)
      (Form.over_sub? hd hfOver hgOver) (by omega : Form.total _ d.terms + d.constant = 0)
    exact Bool.and_eq_true_iff.mpr ⟨hDivisible, hReaches⟩

/-- **Soundness of the test**: two touches of one cell are never ruled out under a vector that allows
    their iterations. -/
theorem mayConflict (h : Encounter n c start x y P Q) (hCell : x.cell = y.cell)
    {dirs : List Direction} (hDirs : Allows n x y dirs) :
    n.mayConflict (n.pair x y) dirs = true := by
  unfold Nest.mayConflict
  apply Bool.and_eq_true_iff.mpr
  constructor
  · rw [List.all_eq_true]
    rintro ⟨d, k⟩ hMem
    obtain ⟨hk, hd⟩ := List.mem_zipIdx' hMem
    have hCommon : k < n.common x y := by
      rw [List.length_take] at hk
      exact Nat.lt_of_lt_of_le hk (Nat.min_le_left _ _)
    obtain ⟨l, u, w, hl, hu, hw⟩ := h.exists_values hCommon
    have hAdmits := hDirs.entry k l u w hl hCommon hu hw
    have hEntry : dirs.getD k .star = d := by
      rw [List.getElem_take] at hd
      rw [hd, List.getD_eq_getElem?_getD, List.getElem?_eq_getElem, Option.getD_some]
    rw [hEntry] at hAdmits
    cases d with
    | lt =>
      have hLt : u < w := hAdmits
      have hRefined := hDirs.refined hCommon hEntry (by simp)
      have hMem := (h.distance_mem hRefined hl hu hw (by omega)).2
      simp [Nest.admits, Interval.isEmpty_of_mem hMem]
    | gt =>
      have hGt : w < u := hAdmits
      have hRefined := hDirs.refined hCommon hEntry (by simp)
      have hMem := (h.distance_mem hRefined hl hu hw (by omega)).2
      simp [Nest.admits, Interval.isEmpty_of_mem hMem]
    | eq => rfl
    | star => rfl
  · apply Bool.or_eq_true_iff.mpr
    right
    rw [List.all_eq_true]
    rintro ⟨a, b⟩ hMem
    obtain ⟨m, hFirst⟩ := h.first.cell
    obtain ⟨m', hSecond⟩ := h.second.cell
    rw [← hCell] at hSecond
    obtain ⟨v, ha, hb⟩ := Expr.exists_value_of_mem_zip hFirst hSecond hMem
    exact subscriptsMayMeet (h.first_fits.resolve good_symbol)
      ((h.second_fits hDirs).resolve good_symbol) ha hb

end Encounter

end LoopNest

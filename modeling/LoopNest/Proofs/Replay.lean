import Mathlib.Data.List.Perm.Basic
import LoopNest.Expr.Reduction
import LoopNest.Proofs.Conventions

/-! # Steps on a memory

  What a run does to a memory is a sequence of steps on single cells: it finds a value in a cell, it
  puts a value there, or it combines the value there with another one by a reduction operator.

  * **Logs**: a change is logged by steps when it does on every memory on which the steps are
    possible what the steps do (`Change.LogsTo`).
  * **Independent steps** commute: they are on different cells, or both read, or both combine with
    one operator (`Step.commutes`).
  * **Exchange**: two orders of the same changes have one result when the changes that change
    places commute (`Change.inTurn_exchange`). -/

namespace LoopNest

/-! ## Reduction operators on integers -/

/-- The value of a reduction operator. -/
def ReduceOp.value (op : ReduceOp) (x y : Int) : Int :=
  match op with
  | add => x + y
  | mul => x * y
  | min => Min.min x y
  | max => Max.max x y

namespace ReduceOp

theorem valueWith?_toBinary (c : Conventions) (op : ReduceOp) (x y : Int) :
    op.toBinary.valueWith? c x y = some (op.value x y) := by
  cases op <;> rfl

theorem value_comm (op : ReduceOp) (x y : Int) : op.value x y = op.value y x := by
  cases op
  · exact Int.add_comm x y
  · exact Int.mul_comm x y
  · exact Int.min_comm x y
  · exact Int.max_comm x y

/-- Values may be combined with a cell in any order. -/
theorem value_right_comm (op : ReduceOp) (x r s : Int) :
    op.value (op.value x r) s = op.value (op.value x s) r := by
  cases op
  · exact Int.add_right_comm x r s
  · exact Int.mul_right_comm x r s
  · show Min.min (Min.min x r) s = Min.min (Min.min x s) r
    omega
  · show Max.max (Max.max x r) s = Max.max (Max.max x s) r
    omega

end ReduceOp

/-! ## Changes that commute -/

namespace Change

/-- Two changes have one result in both orders. -/
def Commutes (a b : Change) : Prop := a.seq b = b.seq a

theorem Commutes.symm {a b : Change} (h : Commutes a b) : Commutes b a := Eq.symm h

theorem commutes_skip (a : Change) : Commutes a skip := by
  show a.seq skip = skip.seq a
  rw [seq_skip, skip_seq]

theorem Commutes.seq_right {a b d : Change} (hb : Commutes a b) (hd : Commutes a d) :
    Commutes a (b.seq d) := by
  show a.seq (b.seq d) = (b.seq d).seq a
  rw [← seq_assoc, hb, seq_assoc, hd, seq_assoc]

theorem commutes_inTurn {a : Change} {bs : List Change} (h : ∀ b ∈ bs, Commutes a b) :
    Commutes a (inTurn bs) := by
  induction bs with
  | nil => exact commutes_skip a
  | cons b bs ih =>
    rw [inTurn_cons]
    apply (h b List.mem_cons_self).seq_right
    exact ih fun d hd => h d (List.mem_cons_of_mem b hd)

/-- Sequences whose members commute with each other commute. -/
theorem inTurn_commutes_inTurn {as bs : List Change} (h : ∀ a ∈ as, ∀ b ∈ bs, Commutes a b) :
    Commutes (inTurn as) (inTurn bs) :=
  (commutes_inTurn fun a ha => (commutes_inTurn fun b hb => h a ha b hb).symm).symm

/-- **Exchange**: when changes that stand in different orders in two lists commute, the lists have
    one result. -/
theorem inTurn_exchange {α : Type} {f : α → Change} {p q : List α} (hPerm : q.Perm p)
    (hNodup : p.Nodup)
    (h : ∀ v w, [v, w].Sublist p → [w, v].Sublist q → Commutes (f v) (f w)) :
    inTurn (p.map f) = inTurn (q.map f) := by
  induction q generalizing p with
  | nil => rw [hPerm.nil_eq]
  | cons w q ih =>
    -- the first one of `q` moves to the front of `p`, past what comes after it in `q`
    obtain ⟨before, after, rfl⟩ := List.append_of_mem (hPerm.subset List.mem_cons_self)
    have hRest : q.Perm (before ++ after) :=
      (hPerm.trans List.perm_middle).cons_inv
    have hSublist : (before ++ after).Sublist (before ++ w :: after) :=
      (List.sublist_cons_self w after).append_left before
    have hPast : ∀ v ∈ before, Commutes (f v) (f w) := by
      intro v hv
      apply h v w
      · exact (List.singleton_sublist.mpr hv).append
          (List.singleton_sublist.mpr (List.mem_cons_self (l := after)))
      · exact List.Sublist.cons_cons w (List.singleton_sublist.mpr
          (hRest.mem_iff.mpr (List.mem_append_left _ hv)))
    have hFront : Commutes (f w) (inTurn (before.map f)) := by
      apply commutes_inTurn
      intro a ha
      obtain ⟨v, hv, rfl⟩ := List.mem_map.mp ha
      exact (hPast v hv).symm
    have hTail : inTurn ((before ++ after).map f) = inTurn (q.map f) := by
      apply ih hRest (hSublist.nodup hNodup)
      intro v u hvu huv
      exact h v u (hvu.trans hSublist) (huv.cons w)
    calc inTurn ((before ++ w :: after).map f)
        = (inTurn (before.map f)).seq ((f w).seq (inTurn (after.map f))) := by
          rw [List.map_append, inTurn_append]
          rfl
      _ = (f w).seq ((inTurn (before.map f)).seq (inTurn (after.map f))) := by
          rw [← seq_assoc, ← hFront, seq_assoc]
      _ = (f w).seq (inTurn ((before ++ after).map f)) := by
          rw [List.map_append, inTurn_append]
      _ = inTurn ((w :: q).map f) := by
          rw [hTail]
          rfl

end Change

/-! ## Single cells -/

namespace Memory

/-- The same memory but for one cell, which may lose its content. -/
def place (m : Memory) (b : String) (cell : List Int) (v : Option Int) : Memory :=
  fun b' cell' => if b' = b ∧ cell' = cell then v else m b' cell'

variable (m : Memory)

@[simp] theorem place_self (b : String) (cell : List Int) (v : Option Int) :
    m.place b cell v b cell = v := by
  simp [place]

theorem place_ne {b b' : String} {cell cell' : List Int} (h : ¬ (b' = b ∧ cell' = cell))
    (v : Option Int) : m.place b cell v b' cell' = m b' cell' := by
  simp [place, h]

@[simp] theorem place_ne_buffer {b b' : String} (h : b' ≠ b) (cell : List Int) (v : Option Int) :
    m.place b cell v b' = m b' := by
  funext cell'
  exact m.place_ne (fun hBoth => h hBoth.1) v

@[simp] theorem place_same (b : String) (cell : List Int) : m.place b cell (m b cell) = m := by
  funext b' cell'
  by_cases h : b' = b ∧ cell' = cell
  · obtain ⟨rfl, rfl⟩ := h
    exact place_self ..
  · exact m.place_ne h _

@[simp] theorem place_place (b : String) (cell : List Int) (v w : Option Int) :
    (m.place b cell v).place b cell w = m.place b cell w := by
  funext b' cell'
  by_cases h : b' = b ∧ cell' = cell <;> simp [place, h]

theorem place_comm {b b' : String} {cell cell' : List Int} (h : ¬ (b' = b ∧ cell' = cell))
    (v w : Option Int) :
    (m.place b cell v).place b' cell' w = (m.place b' cell' w).place b cell v := by
  funext x y
  unfold place
  by_cases hFirst : x = b ∧ y = cell
  · have hSecond : ¬ (x = b' ∧ y = cell') := fun hBoth =>
      h ⟨hBoth.1.symm.trans hFirst.1, hBoth.2.symm.trans hFirst.2⟩
    rw [if_neg hSecond, if_pos hFirst, if_pos hFirst]
  · rw [if_neg hFirst, if_neg hFirst]

/-- A cell of another buffer stays when a buffer is exchanged. -/
theorem exchange_place {n b : String} (h : b ≠ n) (cells : Cells) (cell : List Int)
    (v : Option Int) :
    (m.place b cell v).exchange n cells = (m.exchange n cells).place b cell v := by
  funext x y
  unfold place exchange
  by_cases hx : x = n
  · have hNot : ¬ (x = b ∧ y = cell) := fun hBoth => h (hBoth.1.symm.trans hx)
    simp only [if_pos hx, if_neg hNot]
  · simp only [if_neg hx]

/-- A cell of a buffer is lost when the buffer is exchanged. -/
@[simp] theorem exchange_place_self (n : String) (cells : Cells) (cell : List Int)
    (v : Option Int) : (m.place n cell v).exchange n cells = m.exchange n cells := by
  funext b
  by_cases h : b = n <;> simp [exchange, h]

/-- A cell of an exchanged buffer. -/
theorem place_exchange_self (other : Memory) (n : String) (cell : List Int) (v : Option Int) :
    (m.exchange n (other n)).place n cell v = m.exchange n (other.place n cell v n) := by
  funext x y
  unfold place exchange
  by_cases hx : x = n
  · by_cases hy : y = cell <;> simp [hx, hy]
  · simp [hx]

end Memory

/-! ## Steps -/

/-- A step of a run on one cell. -/
inductive Step where
  /-- Finds a value. -/
  | read (buffer : String) (cell : List Int) (value : Int)
  /-- Puts a value. -/
  | write (buffer : String) (cell : List Int) (value : Int)
  /-- Combines the value there with another one. -/
  | update (buffer : String) (cell : List Int) (op : ReduceOp) (value : Int)

namespace Step

def buffer : Step → String
  | read b .. | write b .. | update b .. => b

def cell : Step → List Int
  | read _ cell _ | write _ cell _ | update _ cell .. => cell

/-- What a step leaves in its cell. A read is not possible when another value or none is there. -/
def act : Step → Option Int → Option (Option Int)
  | read _ _ v, old => if old = some v then some old else none
  | write _ _ v, _ => some (some v)
  | update _ _ op v, old => old.map fun x => some (op.value x v)

/-- What a step does to a memory. -/
def change (s : Step) : Change := fun m =>
  (s.act (m s.buffer s.cell)).map (m.place s.buffer s.cell)

theorem change_eq_some {s : Step} {m m' : Memory} : s.change m = some m' ↔
    ∃ v, s.act (m s.buffer s.cell) = some v ∧ m.place s.buffer s.cell v = m' :=
  Option.map_eq_some_iff

/-- Whether two steps may be made in any order. -/
def Independent (s s' : Step) : Prop :=
  s.buffer = s'.buffer → s.cell = s'.cell →
    ∀ old, (s.act old).bind s'.act = (s'.act old).bind s.act

theorem independent_read (b b' : String) (cell cell' : List Int) (v v' : Int) :
    (read b cell v).Independent (read b' cell' v') := by
  intro _ _ old
  by_cases h : old = some v
  · by_cases h' : old = some v'
    · simp only [act, if_pos h, if_pos h', Option.bind_some]
    · simp only [act, if_pos h, if_neg h', Option.bind_some, Option.bind_none]
  · by_cases h' : old = some v'
    · simp only [act, if_neg h, if_pos h', Option.bind_some, Option.bind_none]
    · simp only [act, if_neg h, if_neg h', Option.bind_none]

/-- Steps that combine with one operator are independent. -/
theorem independent_update (b b' : String) (cell cell' : List Int) (op : ReduceOp) (v v' : Int) :
    (update b cell op v).Independent (update b' cell' op v') := by
  intro _ _ old
  cases old with
  | none => rfl
  | some x =>
    show some (some (op.value (op.value x v) v')) = some (some (op.value (op.value x v') v))
    rw [ReduceOp.value_right_comm]

/-- **Independent steps** commute. -/
theorem commutes {s s' : Step} (h : s.Independent s') : Change.Commutes s.change s'.change := by
  funext m
  show (s.change m).bind s'.change = (s'.change m).bind s.change
  by_cases hSame : s'.buffer = s.buffer ∧ s'.cell = s.cell
  · obtain ⟨hBuffer, hCell⟩ := hSame
    have hActs := h hBuffer.symm hCell.symm (m s.buffer s.cell)
    unfold change
    rw [hBuffer, hCell]
    cases hFirst : s.act (m s.buffer s.cell) with
    | none =>
      rw [hFirst, Option.bind_none] at hActs
      cases hSecond : s'.act (m s.buffer s.cell) with
      | none => rfl
      | some w =>
        rw [hSecond, Option.bind_some] at hActs
        simp [← hActs]
    | some v =>
      rw [hFirst, Option.bind_some] at hActs
      cases hSecond : s'.act (m s.buffer s.cell) with
      | none =>
        rw [hSecond, Option.bind_none] at hActs
        simp [hActs]
      | some w =>
        rw [hSecond, Option.bind_some] at hActs
        have hPlaces : ∀ v, (m.place s.buffer s.cell v).place s.buffer s.cell
            = m.place s.buffer s.cell := fun v => funext fun w => m.place_place _ _ v w
        simp [hActs, hPlaces]
  · have hOther : ¬ (s.buffer = s'.buffer ∧ s.cell = s'.cell) := fun hBoth =>
      hSame ⟨hBoth.1.symm, hBoth.2.symm⟩
    unfold change
    cases hFirst : s.act (m s.buffer s.cell) with
    | none => cases hSecond : s'.act (m s'.buffer s'.cell) with
      | none => rfl
      | some w => simp [m.place_ne hOther, hFirst]
    | some v => cases hSecond : s'.act (m s'.buffer s'.cell) with
      | none => simp [m.place_ne hSame, hSecond]
      | some w => simp [m.place_ne hSame, m.place_ne hOther, hFirst, hSecond, m.place_comm hSame]

/-- What the steps of a list do. -/
def replay (steps : List Step) : Change := Change.inTurn (steps.map change)

@[simp] theorem replay_nil : replay [] = Change.skip := rfl

@[simp] theorem replay_cons (s : Step) (steps : List Step) :
    replay (s :: steps) = s.change.seq (replay steps) := rfl

theorem replay_append (steps more : List Step) :
    replay (steps ++ more) = (replay steps).seq (replay more) := by
  unfold replay
  rw [List.map_append, Change.inTurn_append]

/-- Lists of steps that are independent of each other commute. -/
theorem replay_commutes {steps steps' : List Step}
    (h : ∀ s ∈ steps, ∀ s' ∈ steps', s.Independent s') :
    Change.Commutes (replay steps) (replay steps') := by
  apply Change.inTurn_commutes_inTurn
  intro a ha b hb
  obtain ⟨s, hs, rfl⟩ := List.mem_map.mp ha
  obtain ⟨s', hs', rfl⟩ := List.mem_map.mp hb
  exact commutes (h s hs s' hs')

/-! ### Steps on a local buffer -/

/-- The steps on other buffers than `n`. -/
def beside (n : String) (steps : List Step) : List Step := steps.filter fun s => s.buffer != n

theorem beside_cons_of_ne {n : String} {s : Step} (h : s.buffer ≠ n) (steps : List Step) :
    beside n (s :: steps) = s :: beside n steps :=
  List.filter_cons_of_pos (bne_iff_ne.mpr h)

theorem beside_cons_of_eq {n : String} {s : Step} (h : s.buffer = n) (steps : List Step) :
    beside n (s :: steps) = beside n steps :=
  List.filter_cons_of_neg (by simp [h])

/-- A step on another buffer does not notice that `n` is exchanged. -/
theorem change_exchange {s : Step} {n : String} (h : s.buffer ≠ n) {m m' : Memory}
    (hStep : s.change m = some m') (cells : Cells) :
    s.change (m.exchange n cells) = some (m'.exchange n cells) := by
  obtain ⟨v, hv, rfl⟩ := change_eq_some.mp hStep
  apply change_eq_some.mpr
  refine ⟨v, ?_, (m.exchange_place h cells _ v).symm⟩
  rw [Memory.exchange_ne h]
  exact hv

/-- Without the steps on `n` the other buffers change as with them. -/
theorem replay_beside {n : String} {steps : List Step} {m m' : Memory}
    (h : replay steps m = some m') (cells : Cells) :
    replay (beside n steps) (m.exchange n cells) = some (m'.exchange n cells) := by
  induction steps generalizing m with
  | nil =>
    cases h
    rfl
  | cons s steps ih =>
    obtain ⟨between, hStep, hRest⟩ := Change.seq_eq_some.mp h
    by_cases hs : s.buffer = n
    · rw [beside_cons_of_eq hs]
      obtain ⟨v, _, rfl⟩ := change_eq_some.mp hStep
      have hNext := ih hRest
      rw [hs, Memory.exchange_place_self] at hNext
      exact hNext
    · rw [beside_cons_of_ne hs, replay_cons]
      exact Change.seq_eq_some.mpr ⟨_, change_exchange hs hStep cells, ih hRest⟩

/-- Steps on `n` do the same whatever the others do, and the others do the same whatever is in
    `n`. -/
theorem replay_of_beside {n : String} {steps : List Step} {m m' other other' : Memory}
    (h : replay steps m = some m') (hOther : replay (beside n steps) other = some other') :
    replay steps (other.exchange n (m n)) = some (other'.exchange n (m' n)) := by
  induction steps generalizing m other with
  | nil =>
    cases h
    cases hOther
    rfl
  | cons s steps ih =>
    obtain ⟨between, hStep, hRest⟩ := Change.seq_eq_some.mp h
    rw [replay_cons]
    by_cases hs : s.buffer = n
    · rw [beside_cons_of_eq hs] at hOther
      obtain ⟨v, hv, rfl⟩ := change_eq_some.mp hStep
      apply Change.seq_eq_some.mpr
      refine ⟨_, change_eq_some.mpr ⟨v, ?_, rfl⟩, ?_⟩
      · rw [hs] at hv ⊢
        rw [Memory.exchange_self]
        exact hv
      · have hNext := ih hRest hOther
        rw [hs] at hNext ⊢
        rw [Memory.place_exchange_self]
        exact hNext
    · rw [beside_cons_of_ne hs] at hOther
      obtain ⟨between', hStep', hRest'⟩ := Change.seq_eq_some.mp hOther
      apply Change.seq_eq_some.mpr
      refine ⟨_, change_exchange hs hStep' (m n), ?_⟩
      obtain ⟨v, _, rfl⟩ := change_eq_some.mp hStep
      have hNext := ih hRest hRest'
      rw [Memory.place_ne_buffer _ (Ne.symm hs)] at hNext
      exact hNext

/-- Steps on other buffers leave `n` as it is. -/
theorem replay_keeps {n : String} {steps : List Step} {m m' : Memory}
    (h : replay (beside n steps) m = some m') : m' n = m n := by
  induction steps generalizing m with
  | nil =>
    cases h
    rfl
  | cons s steps ih =>
    by_cases hs : s.buffer = n
    · rw [beside_cons_of_eq hs] at h
      exact ih h
    · rw [beside_cons_of_ne hs] at h
      obtain ⟨between, hStep, hRest⟩ := Change.seq_eq_some.mp h
      obtain ⟨v, _, rfl⟩ := change_eq_some.mp hStep
      rw [ih hRest, Memory.place_ne_buffer _ (Ne.symm hs)]

end Step

end LoopNest

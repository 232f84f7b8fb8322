import LoopNest.Proofs.Replacements
import LoopNest.Proofs.Replay

/-! # Rows of a workspace

  A row of a buffer `ws` can take the place of a buffer `y`: its cells are those of `ws` with one
  more subscript in front. `Memory.fromRow` is the memory that is seen then, and `Memory.toRow` puts
  back what is left.

  A change made on a row (`Change.onRow`) does what the change does on the memory that is seen, and
  leaves `y` alone. A sequence is made on a row member by member (`Change.inTurn_onRow`), and steps
  on `y` are made on the row (`Step.replay_toRow`). -/

namespace LoopNest

/-! ## Rows -/

namespace Memory

/-- What is seen when row `r` of `ws` takes the place of `y`. Nothing is seen of `ws` itself. -/
def fromRow (m : Memory) (y ws : String) (r : Int) : Memory := fun b =>
  if b = y then fun cell => m ws (r :: cell) else if b = ws then fun _ => none else m b

/-- Row `r` of `ws` gets what `after` has in `y`, and `y` and the other rows are as in `m`. -/
def toRow (m : Memory) (y ws : String) (r : Int) (after : Memory) : Memory := fun b =>
  if b = y then m y
  else if b = ws then fun cell => if cell.head? = some r then after y cell.tail else m ws cell
  else after b

variable {m after : Memory} {y ws n : String} {r : Int}

@[simp] theorem fromRow_buffer (cell : List Int) : m.fromRow y ws r y cell = m ws (r :: cell) := by
  simp [fromRow]

theorem fromRow_space (h : ws ≠ y) : m.fromRow y ws r ws = fun _ => none := by
  simp [fromRow, h]

theorem fromRow_other {b : String} (hy : b ≠ y) (hws : b ≠ ws) : m.fromRow y ws r b = m b := by
  simp [fromRow, hy, hws]

@[simp] theorem toRow_buffer : m.toRow y ws r after y = m y := by
  simp [toRow]

theorem toRow_space (h : ws ≠ y) (cell : List Int) : m.toRow y ws r after ws cell
    = if cell.head? = some r then after y cell.tail else m ws cell := by
  simp [toRow, h]

theorem toRow_other {b : String} (hy : b ≠ y) (hws : b ≠ ws) : m.toRow y ws r after b = after b := by
  simp [toRow, hy, hws]

/-- What was put back is seen again. -/
theorem fromRow_toRow (h : ws ≠ y) (hBlank : after ws = fun _ => none) :
    (m.toRow y ws r after).fromRow y ws r = after := by
  funext b
  by_cases hy : b = y
  · funext cell
    rw [hy, fromRow_buffer, toRow_space h, List.head?_cons, if_pos rfl, List.tail_cons]
  · by_cases hws : b = ws
    · rw [hws, fromRow_space h, hBlank]
    · rw [fromRow_other hy hws, toRow_other hy hws]

@[simp] theorem toRow_toRow (h : ws ≠ y) (last : Memory) :
    (m.toRow y ws r after).toRow y ws r last = m.toRow y ws r last := by
  funext b
  by_cases hy : b = y
  · rw [hy, toRow_buffer, toRow_buffer, toRow_buffer]
  · by_cases hws : b = ws
    · funext cell
      rw [hws, toRow_space h, toRow_space h, toRow_space h]
      split
      · rfl
      · rfl
    · rw [toRow_other hy hws, toRow_other hy hws]

/-- Nothing changes when what was seen is put back. -/
theorem toRow_fromRow (h : ws ≠ y) : m.toRow y ws r (m.fromRow y ws r) = m := by
  funext b
  by_cases hy : b = y
  · rw [hy, toRow_buffer]
  · by_cases hws : b = ws
    · funext cell
      rw [hws, toRow_space h]
      split
      · rename_i hHead
        obtain ⟨rest, rfl⟩ := List.head?_eq_some_iff.mp hHead
        rw [List.tail_cons, fromRow_buffer]
      · rfl
    · rw [toRow_other hy hws, fromRow_other hy hws]

theorem exchange_fromRow (hy : n ≠ y) (hws : n ≠ ws) (cells : Cells) :
    (m.exchange n cells).fromRow y ws r = (m.fromRow y ws r).exchange n cells := by
  funext b
  by_cases hn : b = n
  · rw [hn, fromRow_other hy hws, exchange_self, exchange_self]
  · rw [exchange_ne hn]
    unfold fromRow
    rw [exchange_ne (Ne.symm hws), exchange_ne hn]

theorem exchange_toRow (hy : n ≠ y) (hws : n ≠ ws) (cells cells' : Cells) :
    ((m.exchange n cells).toRow y ws r after).exchange n cells'
      = m.toRow y ws r (after.exchange n cells') := by
  funext b
  by_cases hn : b = n
  · rw [hn, exchange_self, toRow_other hy hws, exchange_self]
  · rw [exchange_ne hn]
    unfold toRow
    rw [exchange_ne (Ne.symm hy), exchange_ne (Ne.symm hws), exchange_ne (Ne.symm hy),
      exchange_ne hn]

/-- A cell of the row is a cell of the buffer that is seen. -/
theorem toRow_place (h : ws ≠ y) (cell : List Int) (v : Option Int) :
    m.toRow y ws r (after.place y cell v) = (m.toRow y ws r after).place ws (r :: cell) v := by
  funext b k
  by_cases hy : b = y
  · rw [hy, toRow_buffer, place_ne_buffer _ (Ne.symm h), toRow_buffer]
  · by_cases hws : b = ws
    · rw [hws, toRow_space h]
      by_cases hCell : k = r :: cell
      · rw [hCell, List.head?_cons, if_pos rfl, List.tail_cons, place_self, place_self]
      · rw [place_ne _ (fun hBoth => hCell hBoth.2), toRow_space h]
        split
        · rename_i hHead
          obtain ⟨rest, rfl⟩ := List.head?_eq_some_iff.mp hHead
          refine place_ne _ (fun hBoth => hCell ?_) v
          rw [← hBoth.2, List.tail_cons]
        · rfl
    · rw [toRow_other hy hws, place_ne_buffer _ hy, place_ne_buffer _ hws, toRow_other hy hws]

theorem toRow_place_other {b : String} (hy : b ≠ y) (hws : b ≠ ws) (cell : List Int)
    (v : Option Int) :
    m.toRow y ws r (after.place b cell v) = (m.toRow y ws r after).place b cell v := by
  funext b' k
  unfold toRow
  rw [place_ne_buffer _ (Ne.symm hy)]
  by_cases hy' : b' = y
  · rw [if_pos hy', place_ne _ (fun hBoth => hy (hBoth.1.symm.trans hy')), if_pos hy']
  · rw [if_neg hy']
    by_cases hws' : b' = ws
    · rw [if_pos hws', place_ne _ (fun hBoth => hws (hBoth.1.symm.trans hws')), if_neg hy',
        if_pos hws']
    · rw [if_neg hws']
      unfold place
      split
      · rfl
      · exact (congrFun (toRow_other hy' hws') k).symm

end Memory

/-! ## Changes on a row -/

namespace Change

/-- A change that is made on row `r` of `ws` instead of `y`. -/
def onRow (y ws : String) (r : Int) (a : Change) : Change := fun m =>
  (a (m.fromRow y ws r)).map (m.toRow y ws r)

/-- Nothing is put into a buffer that is not seen. -/
def Blank (ws : String) (a : Change) : Prop := a.Keeps fun m => m ws = fun _ => none

variable {y ws : String} {r : Int}

theorem skip_onRow (h : ws ≠ y) : skip.onRow y ws r = skip := by
  funext m
  show some (m.toRow y ws r (m.fromRow y ws r)) = some m
  rw [Memory.toRow_fromRow h]

theorem onRow_seq (h : ws ≠ y) {a b : Change} (ha : a.Blank ws) :
    (a.seq b).onRow y ws r = (a.onRow y ws r).seq (b.onRow y ws r) := by
  funext m
  show ((a (m.fromRow y ws r)).bind b).map (m.toRow y ws r)
    = ((a (m.fromRow y ws r)).map (m.toRow y ws r)).bind fun m' =>
      (b (m'.fromRow y ws r)).map (m'.toRow y ws r)
  cases hFirst : a (m.fromRow y ws r) with
  | none => rfl
  | some between =>
    have hBlank := ha _ _ (Memory.fromRow_space h) hFirst
    rw [Option.bind_some, Option.map_some, Option.bind_some, Memory.fromRow_toRow h hBlank]
    cases b between with
    | none => rfl
    | some last => rw [Option.map_some, Option.map_some, Memory.toRow_toRow h]

/-- Changes in turn that are made on a row each. -/
theorem inTurn_onRow (h : ws ≠ y) {P : Memory → Prop} {α : Type} {f g : α → Change} {xs : List α}
    (hEach : ∀ x ∈ xs, (g x).EqOn P ((f x).onRow y ws r)) (hKeeps : ∀ x ∈ xs, (g x).Keeps P)
    (hBlank : ∀ x ∈ xs, (f x).Blank ws) :
    (inTurn (xs.map g)).EqOn P ((inTurn (xs.map f)).onRow y ws r) := by
  induction xs with
  | nil =>
    rw [List.map_nil, List.map_nil, inTurn_nil, skip_onRow h]
    exact EqOn.refl _
  | cons x xs ih =>
    rw [List.map_cons, List.map_cons, inTurn_cons, inTurn_cons, onRow_seq h (hBlank x (by simp))]
    refine (hEach x (by simp)).seq (ih ?_ ?_ ?_) (hKeeps x (by simp))
    · exact fun z hz => hEach z (List.mem_cons_of_mem x hz)
    · exact fun z hz => hKeeps z (List.mem_cons_of_mem x hz)
    · exact fun z hz => hBlank z (List.mem_cons_of_mem x hz)

end Change

/-! ## Steps on a row -/

namespace Step

/-- The step on another cell. -/
def at_ (b : String) (cell : List Int) : Step → Step
  | read _ _ v => read b cell v
  | write _ _ v => write b cell v
  | update _ _ op v => update b cell op v

/-- The step on row `r` of `ws`, when it is one on `y`. -/
def toRow (y ws : String) (r : Int) (s : Step) : Step :=
  if s.buffer = y then s.at_ ws (r :: s.cell) else s

@[simp] theorem act_at_ (b : String) (cell : List Int) (s : Step) : (s.at_ b cell).act = s.act := by
  cases s <;> rfl

@[simp] theorem buffer_at_ (b : String) (cell : List Int) (s : Step) : (s.at_ b cell).buffer = b := by
  cases s <;> rfl

@[simp] theorem cell_at_ (b : String) (cell : List Int) (s : Step) : (s.at_ b cell).cell = cell := by
  cases s <;> rfl

variable {y ws : String} {r : Int} {s : Step}

theorem toRow_of_eq (h : s.buffer = y) : s.toRow y ws r = s.at_ ws (r :: s.cell) := if_pos h

theorem toRow_of_ne (h : s.buffer ≠ y) : s.toRow y ws r = s := if_neg h

/-- A step does nothing to a buffer of another name. -/
theorem blank (h : s.buffer ≠ ws) : s.change.Blank ws := by
  intro m m' hm hStep
  obtain ⟨v, _, rfl⟩ := change_eq_some.mp hStep
  rw [Memory.place_ne_buffer _ (Ne.symm h)]
  exact hm

/-- What a step does on a row is what it does in place of the buffer. -/
theorem change_toRow (hne : ws ≠ y) (h : s.buffer ≠ ws) :
    (s.toRow y ws r).change = s.change.onRow y ws r := by
  funext m
  unfold Change.onRow
  by_cases hy : s.buffer = y
  · rw [toRow_of_eq hy]
    unfold change
    rw [act_at_, buffer_at_, cell_at_, hy, Memory.fromRow_buffer, Option.map_map]
    congr 1
    funext v
    rw [Function.comp_apply, Memory.toRow_place hne, Memory.toRow_fromRow hne]
  · rw [toRow_of_ne hy]
    unfold change
    rw [Memory.fromRow_other hy h, Option.map_map]
    congr 1
    funext v
    rw [Function.comp_apply, Memory.toRow_place_other hy h, Memory.toRow_fromRow hne]

theorem replay_toRow (hne : ws ≠ y) {steps : List Step} (h : ∀ s ∈ steps, s.buffer ≠ ws) :
    replay (steps.map (toRow y ws r)) = (replay steps).onRow y ws r := by
  induction steps with
  | nil => exact (Change.skip_onRow hne).symm
  | cons s steps ih =>
    have hHead := h s List.mem_cons_self
    rw [List.map_cons, replay_cons, replay_cons, Change.onRow_seq hne (blank hHead),
      change_toRow hne hHead, ih fun s' hs' => h s' (List.mem_cons_of_mem s hs')]

theorem Independent.symm {s' : Step} (h : s.Independent s') : s'.Independent s :=
  fun hBuffer hCell old => (h hBuffer.symm hCell.symm old).symm

/-- Independent steps are independent on rows, whether these are the same or not. -/
theorem Independent.toRow {s' : Step} (h : s.Independent s') (hs : s.buffer ≠ ws)
    (hs' : s'.buffer ≠ ws) (r r' : Int) : (s.toRow y ws r).Independent (s'.toRow y ws r') := by
  by_cases hy : s.buffer = y
  · by_cases hy' : s'.buffer = y
    · rw [toRow_of_eq hy, toRow_of_eq hy']
      intro _ hCell old
      rw [cell_at_, cell_at_] at hCell
      rw [act_at_, act_at_]
      exact h (hy.trans hy'.symm) (List.cons_eq_cons.mp hCell).2 old
    · rw [toRow_of_eq hy, toRow_of_ne hy']
      intro hBuffer
      rw [buffer_at_] at hBuffer
      exact absurd hBuffer.symm hs'
  · by_cases hy' : s'.buffer = y
    · rw [toRow_of_ne hy, toRow_of_eq hy']
      intro hBuffer
      rw [buffer_at_] at hBuffer
      exact absurd hBuffer hs
    · rw [toRow_of_ne hy, toRow_of_ne hy']
      exact h

end Step

end LoopNest

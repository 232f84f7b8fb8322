import LoopNest.Proofs.Evaluation
import LoopNest.Proofs.Replay

/-! # Logs of changes

  A change of a memory is logged by steps when it does on every memory on which the steps are
  possible what the steps do (`Change.LogsTo`). Logs of parts make logs of the whole:

  * **Sequences** have the steps of one part after those of the other (`LogsTo.seq`).
  * **Local buffers** hide the steps on them (`LogsTo.withLocal`).
  * **Expressions** read cells (`LogsTo.evaluate`): where the same contents are found, the
    expression has the same value. -/

namespace LoopNest

/-- A change on a memory is logged by steps: they do there what it does, and it does what they do on
    every memory on which they are possible. -/
structure Change.LogsTo (a : Change) (m : Memory) (steps : List Step) (m' : Memory) : Prop where
  here : Step.replay steps m = some m'
  again : ∀ other other', Step.replay steps other = some other' → a other = some other'

namespace Change.LogsTo

theorem skip (m : Memory) : Change.skip.LogsTo m [] m := ⟨rfl, fun _ _ h => h⟩

theorem seq {a b : Change} {m between m' : Memory} {steps more : List Step}
    (ha : a.LogsTo m steps between) (hb : b.LogsTo between more m') :
    (a.seq b).LogsTo m (steps ++ more) m' where
  here := by
    rw [Step.replay_append]
    exact Change.seq_eq_some.mpr ⟨between, ha.here, hb.here⟩
  again other other' h := by
    rw [Step.replay_append] at h
    obtain ⟨middle, hFirst, hSecond⟩ := Change.seq_eq_some.mp h
    exact Change.seq_eq_some.mpr ⟨middle, ha.again _ _ hFirst, hb.again _ _ hSecond⟩

/-- A change of a local buffer is logged by the steps on the other buffers. -/
theorem withLocal {a : Change} {n : String} {cells : Cells} {m m' : Memory} {steps : List Step}
    (h : a.LogsTo (m.exchange n cells) steps m') :
    (a.withLocal n cells).LogsTo m (Step.beside n steps) (m'.exchange n (m n)) where
  here := by
    have hBeside := Step.replay_beside (n := n) h.here (m n)
    rw [Memory.exchange_exchange, Memory.exchange_same] at hBeside
    exact hBeside
  again other other' hOther := by
    have hLocal := Step.replay_of_beside h.here hOther
    rw [Memory.exchange_self] at hLocal
    apply Change.withLocal_eq_some.mpr
    refine ⟨_, h.again _ _ hLocal, ?_⟩
    rw [Memory.exchange_exchange, ← Step.replay_keeps hOther, Memory.exchange_same]

end Change.LogsTo

/-! ## Reads -/

namespace Step

/-- The reads of cells that have a content. -/
def finds (m : Memory) (cells : List (String × List Int)) : List Step :=
  cells.filterMap fun (b, cell) => (m b cell).map (.read b cell)

theorem mem_finds {m : Memory} {cells : List (String × List Int)} {s : Step}
    (h : s ∈ finds m cells) : ∃ b cell v, (b, cell) ∈ cells ∧ s = .read b cell v := by
  obtain ⟨⟨b, cell⟩, hCell, hs⟩ := List.mem_filterMap.mp h
  obtain ⟨v, _, rfl⟩ := Option.map_eq_some_iff.mp hs
  exact ⟨b, cell, v, hCell, rfl⟩

theorem finds_cons_of_none {m : Memory} {b : String} {cell : List Int} (h : m b cell = none)
    (cells : List (String × List Int)) : finds m ((b, cell) :: cells) = finds m cells := by
  simp [finds, h]

theorem finds_cons_of_some {m : Memory} {b : String} {cell : List Int} {v : Int}
    (h : m b cell = some v) (cells : List (String × List Int)) :
    finds m ((b, cell) :: cells) = .read b cell v :: finds m cells := by
  simp [finds, h]

theorem change_read {b : String} {cell : List Int} {v : Int} {m m' : Memory} :
    (read b cell v).change m = some m' ↔ m b cell = some v ∧ m' = m := by
  show ((if m b cell = some v then some (m b cell) else none).map (m.place b cell)) = some m' ↔ _
  by_cases h : m b cell = some v
  · rw [if_pos h, Option.map_some, m.place_same, Option.some.injEq]
    exact ⟨fun hm => ⟨h, hm.symm⟩, fun hm => hm.2.symm⟩
  · rw [if_neg h]
    exact ⟨fun hm => absurd hm (by simp), fun hm => absurd hm.1 h⟩

theorem replay_finds (m : Memory) (cells : List (String × List Int)) :
    replay (finds m cells) m = some m := by
  induction cells with
  | nil => rfl
  | cons bc cells ih =>
    obtain ⟨b, cell⟩ := bc
    cases hContent : m b cell with
    | none =>
      rw [finds_cons_of_none hContent]
      exact ih
    | some v =>
      rw [finds_cons_of_some hContent, replay_cons]
      exact Change.seq_eq_some.mpr ⟨m, change_read.mpr ⟨hContent, rfl⟩, ih⟩

/-- Reads change nothing, and they are possible where the same contents are found. -/
theorem of_replay_finds {m : Memory} {cells : List (String × List Int)} {other other' : Memory}
    (h : replay (finds m cells) other = some other') :
    other' = other ∧ ∀ b cell v, (b, cell) ∈ cells → m b cell = some v →
      other b cell = some v := by
  induction cells with
  | nil =>
    cases h
    exact ⟨rfl, fun _ _ _ hMem => nomatch hMem⟩
  | cons bc cells ih =>
    obtain ⟨b, cell⟩ := bc
    have hHead : ∀ v, m b cell = some v → other b cell = some v := by
      intro v hv
      rw [finds_cons_of_some hv, replay_cons] at h
      obtain ⟨between, hStep, _⟩ := Change.seq_eq_some.mp h
      exact (change_read.mp hStep).1
    have hTail : replay (finds m cells) other = some other' := by
      cases hContent : m b cell with
      | none => rwa [finds_cons_of_none hContent] at h
      | some v =>
        rw [finds_cons_of_some hContent, replay_cons] at h
        obtain ⟨between, hStep, hRest⟩ := Change.seq_eq_some.mp h
        rwa [(change_read.mp hStep).2] at hRest
    obtain ⟨hSame, hRest⟩ := ih hTail
    refine ⟨hSame, ?_⟩
    intro b' cell' v hMem hv
    rcases List.mem_cons.mp hMem with hEq | hMem
    · cases hEq
      exact hHead v hv
    · exact hRest b' cell' v hMem hv

end Step

namespace Expr

variable {c : Conventions} {env : Env} {m : Memory}

theorem isSome_of_mem_values {es : List Expr} {vs : List Int}
    (h : valuesWith? c env m es = some vs) {e : Expr} (he : e ∈ es) :
    (e.valueWith? c env m).isSome := by
  induction es generalizing vs with
  | nil => cases he
  | cons e' es ih =>
    simp only [valuesWith?, Option.bind_eq_bind, Option.bind_eq_some_iff] at h
    obtain ⟨v, hv, ws, hws, _⟩ := h
    rcases List.mem_cons.mp he with rfl | he
    · rw [hv]
      rfl
    · exact ih hws he

/-- All parts of an expression with a value have values. -/
theorem isSome_of_mem_parts :
    ∀ e : Expr, (e.valueWith? c env m).isSome → ∀ p ∈ e.parts, (p.valueWith? c env m).isSome := by
  have hAtom : ∀ e : Expr, e.parts = [e] → (e.valueWith? c env m).isSome →
      ∀ p ∈ e.parts, (p.valueWith? c env m).isSome := by
    intro e hParts h p hp
    rw [hParts, List.mem_singleton] at hp
    exact hp ▸ h
  refine Expr.ind ?_ ?_ ?_ ?_ ?_ ?_ ?_
  · exact fun v => hAtom _ rfl
  · exact fun v => hAtom _ rfl
  · exact fun v => hAtom _ rfl
  · exact fun x => hAtom _ rfl
  · intro b is ih h p hp
    rw [parts] at hp
    rcases List.mem_cons.mp hp with rfl | hp
    · exact h
    · obtain ⟨i, hi, hp⟩ := mem_partsAll.mp hp
      obtain ⟨v, hv⟩ := Option.isSome_iff_exists.mp h
      simp only [valueWith?, Option.bind_eq_bind, Option.bind_eq_some_iff] at hv
      obtain ⟨cell, hCell, _⟩ := hv
      exact ih i hi (isSome_of_mem_values hCell hi) p hp
  · intro op e ih h p hp
    rw [parts] at hp
    rcases List.mem_cons.mp hp with rfl | hp
    · exact h
    · obtain ⟨v, hv⟩ := Option.isSome_iff_exists.mp h
      simp only [valueWith?, Option.bind_eq_bind, Option.bind_eq_some_iff] at hv
      obtain ⟨w, hw, _⟩ := hv
      exact ih (by rw [hw]; rfl) p hp
  · intro op a b iha ihb h p hp
    rw [parts] at hp
    rcases List.mem_cons.mp hp with rfl | hp
    · exact h
    · obtain ⟨v, hv⟩ := Option.isSome_iff_exists.mp h
      simp only [valueWith?, Option.bind_eq_bind, Option.bind_eq_some_iff] at hv
      obtain ⟨x, hx, y, hy, _⟩ := hv
      rcases List.mem_append.mp hp with hp | hp
      · exact iha (by rw [hx]; rfl) p hp
      · exact ihb (by rw [hy]; rfl) p hp

/-- The cells that an expression with a value reads have contents. -/
theorem exists_of_mem_cells {e : Expr} {v : Int} (h : e.valueWith? c env m = some v) {b : String}
    {cell : List Int} (hCell : (b, cell) ∈ e.cells c env m) : ∃ w, m b cell = some w := by
  obtain ⟨is, hPart, hValues⟩ := mem_cells.mp hCell
  have hSome := isSome_of_mem_parts e (by rw [h]; rfl) _ hPart
  obtain ⟨w, hw⟩ := Option.isSome_iff_exists.mp hSome
  simp only [valueWith?, Option.bind_eq_bind, Option.bind_eq_some_iff] at hw
  obtain ⟨cell', hCell', hw⟩ := hw
  rw [hValues, Option.some.injEq] at hCell'
  exact ⟨w, hCell' ▸ hw⟩

/-- Where the reads of an expression are possible it has the value that it has here. -/
theorem value_of_replay_finds {e : Expr} {v : Int} (h : e.valueWith? c env m = some v)
    {other other' : Memory} (hReads : Step.replay (Step.finds m (e.cells c env m)) other = some other') :
    other' = other ∧ e.valueWith? c env other = some v := by
  obtain ⟨hSame, hFound⟩ := Step.of_replay_finds hReads
  refine ⟨hSame, ?_⟩
  rw [← h]
  apply valueWith?_eq_of_cells
  intro b cell hCell
  obtain ⟨w, hw⟩ := exists_of_mem_cells h hCell
  rw [hw, hFound b cell w hCell hw]

/-- The same for the subscripts of a cell. -/
theorem values_of_replay_finds {es : List Expr} {vs : List Int}
    (h : valuesWith? c env m es = some vs) {other other' : Memory}
    (hReads : Step.replay (Step.finds m (es.flatMap (cells c env m))) other = some other') :
    other' = other ∧ valuesWith? c env other es = some vs := by
  obtain ⟨hSame, hFound⟩ := Step.of_replay_finds hReads
  refine ⟨hSame, ?_⟩
  rw [← h]
  apply valuesWith?_eq_of_cells
  intro e he b cell hCell
  obtain ⟨v, hv⟩ := Option.isSome_iff_exists.mp (isSome_of_mem_values h he)
  obtain ⟨w, hw⟩ := exists_of_mem_cells hv hCell
  rw [hw, hFound b cell w (List.mem_flatMap.mpr ⟨e, he, hCell⟩) hw]

end Expr

/-- A change that first evaluates an expression is logged by its reads and by what comes next. -/
theorem Change.LogsTo.evaluate {c : Conventions} {env : Env} {m m' : Memory} {e : Expr} {v : Int}
    {a : Int → Change} {steps : List Step} (he : e.valueWith? c env m = some v)
    (h : (a v).LogsTo m steps m') :
    Change.LogsTo (fun m => (e.valueWith? c env m).bind fun v => a v m) m
      (Step.finds m (e.cells c env m) ++ steps) m' where
  here := by
    rw [Step.replay_append]
    exact Change.seq_eq_some.mpr ⟨m, Step.replay_finds m _, h.here⟩
  again other other' hOther := by
    rw [Step.replay_append] at hOther
    obtain ⟨between, hReads, hRest⟩ := Change.seq_eq_some.mp hOther
    obtain ⟨rfl, hValue⟩ := Expr.value_of_replay_finds he hReads
    show (e.valueWith? c env between).bind _ = _
    rw [hValue]
    exact h.again _ _ hRest

/-- A change that first evaluates subscripts. -/
theorem Change.LogsTo.evaluateAll {c : Conventions} {env : Env} {m m' : Memory} {es : List Expr}
    {vs : List Int} {a : List Int → Change} {steps : List Step}
    (he : Expr.valuesWith? c env m es = some vs) (h : (a vs).LogsTo m steps m') :
    Change.LogsTo (fun m => (Expr.valuesWith? c env m es).bind fun vs => a vs m) m
      (Step.finds m (es.flatMap (Expr.cells c env m)) ++ steps) m' where
  here := by
    rw [Step.replay_append]
    exact Change.seq_eq_some.mpr ⟨m, Step.replay_finds m _, h.here⟩
  again other other' hOther := by
    rw [Step.replay_append] at hOther
    obtain ⟨between, hReads, hRest⟩ := Change.seq_eq_some.mp hOther
    obtain ⟨rfl, hValues⟩ := Expr.values_of_replay_finds he hReads
    show (Expr.valuesWith? c env between es).bind _ = _
    rw [hValues]
    exact h.again _ _ hRest

theorem Change.LogsTo.step {s : Step} {m m' : Memory} (h : s.change m = some m') :
    s.change.LogsTo m [s] m' where
  here := by
    rw [Step.replay_cons, Step.replay_nil, Change.seq_skip]
    exact h
  again other other' hOther := by
    rw [Step.replay_cons, Step.replay_nil, Change.seq_skip] at hOther
    exact hOther

end LoopNest

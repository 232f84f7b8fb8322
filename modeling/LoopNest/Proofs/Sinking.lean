import LoopNest.Proofs.AffineForms
import LoopNest.Proofs.Replacements
import LoopNest.Restructure.Reorder

/-! # Moving statements into an inner loop

  Before the loops of a chain change places, everything between two of them moves into the inner one.
  This module says that the outer body runs as before (`Restructure.change_innerBody`).

  * **Gathering**: what lies between two loops is a list of conditions, and below them statements in
    front of the inner loop and behind it (`Restructure.gather_gathers`).
  * **First and last iteration**: what runs in front of a loop may run in its first iteration, and
    what runs behind it in its last one (`Change.inTurn_first`, `Change.inTurn_last`). -/

namespace LoopNest

/-! ## Changes -/

namespace Change

/-- A change under conditions, which are evaluated one after the other. -/
def under (c : Conventions) (env : Env) (conds : List Expr) (a : Change) : Change :=
  conds.foldr (fun e a m => (e.valueWith? c env m).bind fun v => if v = 0 then some m else a m) a

@[simp] theorem under_nil (c : Conventions) (env : Env) (a : Change) : under c env [] a = a := rfl

theorem under_cons (c : Conventions) (env : Env) (e : Expr) (conds : List Expr) (a : Change)
    (m : Memory) : under c env (e :: conds) a m =
      (e.valueWith? c env m).bind fun v => if v = 0 then some m else under c env conds a m := rfl

/-- Doing nothing several times is doing nothing. -/
theorem inTurn_skips {α : Type} (xs : List α) : inTurn (xs.map fun _ => skip) = skip := by
  induction xs with
  | nil => rfl
  | cons x xs ih => rw [List.map_cons, inTurn_cons, ih, skip_seq]

/-- What runs in front of a loop may run in its first iteration. -/
theorem inTurn_first {lower upper : Int} (h : lower < upper) (first : Change)
    (each : Int → Change) :
    inTurn ((counting lower upper).map fun v => (if v = lower then first else skip).seq (each v))
      = first.seq (inTurn ((counting lower upper).map each)) := by
  rw [counting_cons h, List.map_cons, List.map_cons, inTurn_cons, inTurn_cons, if_pos rfl,
    seq_assoc]
  congr 3
  apply List.map_congr_left
  intro v hv
  have hNe : v ≠ lower := by
    have := mem_counting.mp hv
    omega
  rw [if_neg hNe, skip_seq]

/-- What runs behind a loop may run in its last iteration. -/
theorem inTurn_last {lower upper : Int} (h : lower < upper) (last : Change) (each : Int → Change) :
    inTurn ((counting lower upper).map fun v => (each v).seq (if v = upper - 1 then last else skip))
      = (inTurn ((counting lower upper).map each)).seq last := by
  rw [counting_snoc h, List.map_append, List.map_append, inTurn_append, inTurn_append, seq_assoc]
  have hEarlier : (counting lower (upper - 1)).map (fun v =>
        (each v).seq (if v = upper - 1 then last else skip))
      = (counting lower (upper - 1)).map each := by
    apply List.map_congr_left
    intro v hv
    have hNe : v ≠ upper - 1 := by
      have := mem_counting.mp hv
      omega
    rw [if_neg hNe, seq_skip]
  rw [hEarlier]
  simp

end Change

namespace Restructure

open Stmt (LabelledLoop)

/-! ## Gathering -/

/-- What is gathered between an outer body and the inner loop: the conditions and statements on the
    way are added to those that were there before.

    * **alone**: conditions are only passed when there are no statements around them;
    * **runs**: the outer body runs them as they were gathered. -/
structure Gathers (writes : List String) (inner : LabelledLoop) (below : List Stmt)
    (b b' : Between) (run : Conventions → Env → Change) (conds : List Expr)
    (before after : List Stmt) : Prop where
  result : b' = ⟨b.conds ++ conds, b.before ++ before, after ++ b.after⟩
  alone : conds ≠ [] → b.before = [] ∧ b.after = []
  checked : ∀ e ∈ conds, checkCondition writes inner.head e = .ok ()
  guards : ∀ e ∈ conds, ∃ s body, Stmt.guard s e body ∈ below
  inside : ∀ t ∈ before ++ after, ∀ u ∈ t.nodes, u ∈ below
  holds : inner.stmt ∈ below
  runs : ∀ c env, run c env = Change.under c env conds
    ((Change.inTurn (before.map (Stmt.change c env))).seq
      ((inner.stmt.change c env).seq (Change.inTurn (after.map (Stmt.change c env)))))

variable {writes : List String} {inner : LabelledLoop}

/-- The statements of a block in turn, when those around one of them are gathered with it. -/
theorem gathers_all {ts : List Stmt}
    (ih : ∀ t ∈ ts, ∀ b b', gather writes inner b t = .ok b' →
      (∀ u ∈ t.nodes, u.id = inner.site.id → u = inner.stmt) →
        ∃ conds before after,
          Gathers writes inner t.nodes b b' (fun c env => t.change c env) conds before after) :
    ∀ b b', gatherAll writes inner b ts = .ok b' →
      (∀ u ∈ ts.flatMap Stmt.nodes, u.id = inner.site.id → u = inner.stmt) →
        ∃ conds before after, Gathers writes inner (ts.flatMap Stmt.nodes) b b'
          (fun c env => Change.inTurn (ts.map (Stmt.change c env))) conds before after := by
  induction ts with
  | nil =>
    intro b b' h
    cases h
  | cons t ts ihList =>
    intro b b' h hSole
    rw [List.flatMap_cons] at hSole ⊢
    have hHead : ∀ u ∈ t.nodes, u ∈ t.nodes ++ ts.flatMap Stmt.nodes :=
      fun u hu => List.mem_append_left _ hu
    have hTail : ∀ u ∈ ts.flatMap Stmt.nodes, u ∈ t.nodes ++ ts.flatMap Stmt.nodes :=
      fun u hu => List.mem_append_right _ hu
    rw [gatherAll] at h
    split at h
    · -- the inner loop is below this statement, and all others run after it
      obtain ⟨conds, before, after, hGathers⟩ := ih t List.mem_cons_self _ _ h
        fun u hu => hSole u (hHead u hu)
      refine ⟨conds, before, after ++ ts, ?_, ?_, hGathers.checked, ?_, ?_, ?_, ?_⟩
      · rw [hGathers.result, List.append_assoc]
      · intro hConds
        obtain ⟨hBefore, hAfter⟩ := hGathers.alone hConds
        exact ⟨hBefore, (List.append_eq_nil_iff.mp hAfter).2⟩
      · intro e he
        obtain ⟨s, body, hGuard⟩ := hGathers.guards e he
        exact ⟨s, body, hHead _ hGuard⟩
      · intro w hw u hu
        rw [← List.append_assoc] at hw
        rcases List.mem_append.mp hw with hw | hw
        · exact hHead u (hGathers.inside w hw u hu)
        · exact hTail u (List.mem_flatMap.mpr ⟨w, hw, hu⟩)
      · exact hHead _ hGathers.holds
      · intro c env
        rw [List.map_cons, Change.inTurn_cons, hGathers.runs, List.map_append,
          Change.inTurn_append]
        cases conds with
        | nil => simp only [Change.under_nil, Change.seq_assoc]
        | cons e conds =>
          obtain ⟨_, hAfter⟩ := hGathers.alone (by simp)
          obtain rfl : ts = [] := (List.append_eq_nil_iff.mp hAfter).1
          simp
    · -- this statement runs before the inner loop
      obtain ⟨conds, before, after, hGathers⟩ := ihList
        (fun u hu => ih u (List.mem_cons_of_mem t hu)) _ _ h fun u hu => hSole u (hTail u hu)
      have hConds : conds = [] := by
        cases conds with
        | nil => rfl
        | cons e conds =>
          obtain ⟨hBefore, _⟩ := hGathers.alone (by simp)
          simp at hBefore
      subst hConds
      refine ⟨[], t :: before, after, ?_, fun h => absurd rfl h, hGathers.checked, ?_, ?_, ?_, ?_⟩
      · rw [hGathers.result]
        simp
      · intro e he
        cases he
      · intro w hw u hu
        rcases List.mem_cons.mp hw with rfl | hw
        · exact hHead u hu
        · exact hTail u (hGathers.inside w hw u hu)
      · exact hTail _ hGathers.holds
      · intro c env
        rw [List.map_cons, Change.inTurn_cons, hGathers.runs, List.map_cons, Change.inTurn_cons,
          Change.under_nil, Change.under_nil, Change.seq_assoc]

/-- **Gathering**: an outer body in which only the inner loop has its number runs the conditions,
    and below them the statements and the inner loop in between. -/
theorem gather_gathers : ∀ (t : Stmt) (b b' : Between), gather writes inner b t = .ok b' →
    (∀ u ∈ t.nodes, u.id = inner.site.id → u = inner.stmt) →
      ∃ conds before after,
        Gathers writes inner t.nodes b b' (fun c env => t.change c env) conds before after := by
  -- a statement that is neither a block nor a guard is the inner loop
  have hLoop : ∀ {t : Stmt} {b b' : Between},
      (if t.id = inner.site.id then .ok b
        else if !b.before.isEmpty || !b.after.isEmpty then .error .besideBranch
        else .error (.between t.kindName) : Outcome Between) = .ok b' →
      (∀ u ∈ t.nodes, u.id = inner.site.id → u = inner.stmt) →
      ∃ conds before after,
        Gathers writes inner t.nodes b b' (fun c env => t.change c env) conds before after := by
    intro t b b' h hSole
    split at h
    · rename_i hId
      obtain rfl := hSole t (Stmt.self_mem_nodes t) hId
      cases h
      refine ⟨[], [], [], by simp, fun h => absurd rfl h, ?_, ?_, ?_, Stmt.self_mem_nodes _, ?_⟩
      · intro e he
        cases he
      · intro e he
        cases he
      · intro w hw
        cases hw
      · intro c env
        simp
    · split at h <;> cases h
  refine Stmt.ind ?_ ?_ ?_ ?_ ?_ ?_ ?_ ?_
  · intro s n buffer body _ b b' h
    simp only [gather] at h
    exact hLoop h
  · intro s head body _ b b' h
    simp only [gather] at h
    exact hLoop h
  · intro s e body ih b b' h hSole
    rw [gather] at h
    split at h
    · cases h
    · rename_i hAlone
      have hEmpty : b.before = [] ∧ b.after = [] := by simpa using hAlone
      obtain ⟨⟨⟩, hCheck, h⟩ := Outcome.bind_eq_ok.mp h
      obtain ⟨conds, before, after, hGathers⟩ := ih _ _ h
        fun u hu => hSole u (by simp [hu])
      have hBelow : ∀ u ∈ body.nodes, u ∈ (Stmt.guard s e body).nodes := fun u hu => by simp [hu]
      refine ⟨e :: conds, before, after, ?_, fun _ => hEmpty, ?_, ?_, ?_, ?_, ?_⟩
      · rw [hGathers.result]
        simp
      · intro e' he'
        rcases List.mem_cons.mp he' with rfl | he'
        · exact hCheck
        · exact hGathers.checked e' he'
      · intro e' he'
        rcases List.mem_cons.mp he' with rfl | he'
        · exact ⟨s, body, Stmt.self_mem_nodes _⟩
        · obtain ⟨s', body', hGuard⟩ := hGathers.guards e' he'
          exact ⟨s', body', hBelow _ hGuard⟩
      · exact fun w hw u hu => hBelow u (hGathers.inside w hw u hu)
      · exact hBelow _ hGathers.holds
      · intro c env
        funext m
        rw [Stmt.change_guard, Change.under_cons, hGathers.runs]
  · intro s e yes no _ _ b b' h
    simp only [gather] at h
    exact hLoop h
  · intro s buffer is v b b' h
    simp only [gather] at h
    exact hLoop h
  · intro s f args b b' h
    simp only [gather] at h
    exact hLoop h
  · intro s ts ih b b' h hSole
    rw [gather] at h
    have hBelow : ∀ u ∈ ts.flatMap Stmt.nodes, u ∈ (Stmt.block s ts).nodes := by
      intro u hu
      rw [Stmt.nodes_block]
      exact List.mem_cons_of_mem _ hu
    obtain ⟨conds, before, after, hGathers⟩ := gathers_all ih b b' h
      fun u hu => hSole u (hBelow u hu)
    refine ⟨conds, before, after, hGathers.result, hGathers.alone, hGathers.checked, ?_, ?_, ?_, ?_⟩
    · intro e he
      obtain ⟨s', body, hGuard⟩ := hGathers.guards e he
      exact ⟨s', body, hBelow _ hGuard⟩
    · exact fun w hw u hu => hBelow u (hGathers.inside w hw u hu)
    · exact hBelow _ hGathers.holds
    · intro c env
      rw [Stmt.change_block, hGathers.runs]
  · intro s b b' h
    simp only [gather] at h
    exact hLoop h

/-! ## Conditions -/

/-- What holds of the conditions that may move into an inner loop. -/
theorem of_checkCondition {h : LoopHead} {e : Expr} (hCheck : checkCondition writes h e = .ok ()) :
    e.Avoids writes ∧ e.mentions h.iter = false := by
  unfold checkCondition at hCheck
  split at hCheck
  · cases hCheck
  · rename_i hReads
    split at hCheck
    · cases hCheck
    · rename_i hMentions
      exact ⟨Expr.avoids_of_any hReads, by simpa using hMentions⟩

/-- A conjunction has a value when its parts have one, and it is zero when one of them is. -/
theorem valueWith?_allOf {c : Conventions} {env : Env} {m : Memory} {last : Expr} {y : Int}
    (hLast : last.valueWith? c env m = some y) {conds : List Expr}
    (hConds : ∀ e ∈ conds, (e.valueWith? c env m).isSome) :
    ∃ z, (allOf conds last).valueWith? c env m = some z
      ∧ (z = 0 ↔ (∃ e ∈ conds, e.valueWith? c env m = some 0) ∨ y = 0) := by
  induction conds with
  | nil => exact ⟨y, hLast, by simp⟩
  | cons e conds ih =>
    obtain ⟨z, hz, hZero⟩ := ih fun e' he' => hConds e' (List.mem_cons_of_mem e he')
    obtain ⟨x, hx⟩ := Option.isSome_iff_exists.mp (hConds e List.mem_cons_self)
    refine ⟨flag (x ≠ 0 ∧ z ≠ 0), ?_, ?_⟩
    · show (Expr.both e (allOf conds last)).valueWith? c env m = _
      simp [Expr.both, Expr.valueWith?, hx, hz, BinaryOp.valueWith?, BinaryOp.value?]
    · have hFlag : flag (x ≠ 0 ∧ z ≠ 0) = 0 ↔ x = 0 ∨ z = 0 := by
        by_cases hx0 : x = 0 <;> by_cases hz0 : z = 0 <;> simp [flag, hx0, hz0]
      rw [hFlag, hZero]
      simp only [List.mem_cons, exists_eq_or_imp, hx, Option.some.injEq, or_assoc]

/-- Under conditions of which one is zero nothing happens. -/
theorem under_of_zero {c : Conventions} {env : Env} {m : Memory} {a : Change} {conds : List Expr}
    (hConds : ∀ e ∈ conds, (e.valueWith? c env m).isSome)
    (hZero : ∃ e ∈ conds, e.valueWith? c env m = some 0) :
    Change.under c env conds a m = some m := by
  induction conds with
  | nil =>
    obtain ⟨e, he, _⟩ := hZero
    cases he
  | cons e conds ih =>
    obtain ⟨x, hx⟩ := Option.isSome_iff_exists.mp (hConds e List.mem_cons_self)
    rw [Change.under_cons, hx, Option.bind_some]
    by_cases hx0 : x = 0
    · rw [if_pos hx0]
    · rw [if_neg hx0]
      apply ih fun e' he' => hConds e' (List.mem_cons_of_mem e he')
      obtain ⟨e', he', hValue⟩ := hZero
      rcases List.mem_cons.mp he' with rfl | he'
      · exact absurd (Option.some.inj (hx.symm.trans hValue)) hx0
      · exact ⟨e', he', hValue⟩

/-- Under conditions of which none is zero everything happens. -/
theorem under_of_nonzero {c : Conventions} {env : Env} {m : Memory} {a : Change}
    {conds : List Expr} (hConds : ∀ e ∈ conds, (e.valueWith? c env m).isSome)
    (hZero : ¬ ∃ e ∈ conds, e.valueWith? c env m = some 0) :
    Change.under c env conds a m = a m := by
  induction conds with
  | nil => rfl
  | cons e conds ih =>
    obtain ⟨x, hx⟩ := Option.isSome_iff_exists.mp (hConds e List.mem_cons_self)
    have hx0 : x ≠ 0 := by
      rintro rfl
      exact hZero ⟨e, List.mem_cons_self, hx⟩
    rw [Change.under_cons, hx, Option.bind_some, if_neg hx0]
    apply ih fun e' he' => hConds e' (List.mem_cons_of_mem e he')
    rintro ⟨e', he', hValue⟩
    exact hZero ⟨e', List.mem_cons_of_mem e he', hValue⟩

/-! ## The new inner body -/

theorem change_sequenceAt (c : Conventions) (env : Env) (next : Nat) (ts : List Stmt) :
    (sequenceAt next ts).1.change c env = Change.inTurn (ts.map (Stmt.change c env)) := by
  unfold sequenceAt
  split
  · simp
  · exact Stmt.change_block c env _ _

/-- What a guard of several statements does. -/
theorem change_guardedAt (c : Conventions) (env : Env) (next : Nat) (e : Expr) (ts : List Stmt)
    {m : Memory} {z : Int} (hz : e.valueWith? c env m = some z) :
    Change.inTurn ((guardedAt next e ts).1.map (Stmt.change c env)) m
      = if z = 0 then some m else Change.inTurn (ts.map (Stmt.change c env)) m := by
  cases ts with
  | nil =>
    show some m = _
    split
    · rfl
    · rfl
  | cons t ts =>
    simp only [guardedAt, List.map_cons, List.map_nil, Change.inTurn_cons, Change.inTurn_nil,
      Change.seq_skip]
    rw [Stmt.change_guard, hz, Option.bind_some, change_sequenceAt, List.map_cons,
      Change.inTurn_cons]

/-- Created statements get numbers from the first free one on. -/
theorem le_sequenceAt (next : Nat) (ts : List Stmt) : next ≤ (sequenceAt next ts).2 := by
  unfold sequenceAt
  split
  · exact Nat.le_refl next
  · exact Nat.le_succ next

theorem le_guardedAt (next : Nat) (e : Expr) (ts : List Stmt) : next ≤ (guardedAt next e ts).2 := by
  unfold guardedAt
  split
  · exact Nat.le_refl next
  · exact Nat.le_succ_of_le (le_sequenceAt next ts)

/-- What the new inner body is made of. -/
theorem innerBody_eq (b : Between) (inner : LabelledLoop) (next : Nat) :
    ∃ (guarded : Stmt) (k l : Nat), next ≤ k ∧ k ≤ l
      ∧ (b.innerBody inner next).1 = (sequenceAt l
        ((guardedAt next (allOf b.conds ((Expr.var inner.head.iter).equals inner.head.lower))
            b.before).1
          ++ [guarded] ++ (guardedAt k (allOf b.conds ((Expr.var inner.head.iter).equals
            (inner.head.upper.minus (.int 1)))) b.after).1)).1
      ∧ l ≤ (b.innerBody inner next).2
      ∧ (b.conds = [] ∧ guarded = inner.body ∨ ∃ outer e id, b.conds = outer ++ [e] ∧ next ≤ id
        ∧ guarded = .guard ⟨id, none⟩ (allOf outer e) inner.body) := by
  have hFirst := le_guardedAt next (allOf b.conds ((Expr.var inner.head.iter).equals
    inner.head.lower)) b.before
  have hSecond := le_guardedAt (guardedAt next (allOf b.conds ((Expr.var inner.head.iter).equals
    inner.head.lower)) b.before).2 (allOf b.conds ((Expr.var inner.head.iter).equals
    (inner.head.upper.minus (.int 1)))) b.after
  cases hReverse : b.conds.reverse with
  | nil =>
    refine ⟨inner.body, _, _, hFirst, hSecond, ?_, ?_, .inl ⟨List.reverse_eq_nil_iff.mp hReverse, rfl⟩⟩
    · simp only [Between.innerBody, hReverse]
    · simp only [Between.innerBody, hReverse]
      exact le_sequenceAt _ _
  | cons e outer =>
    have hSplit : b.conds = outer.reverse ++ [e] := by
      rw [← List.reverse_reverse b.conds, hReverse, List.reverse_cons]
    refine ⟨_, _, _, hFirst, Nat.le_succ_of_le hSecond, ?_, ?_,
      .inr ⟨_, e, _, hSplit, Nat.le_trans hFirst hSecond, rfl⟩⟩
    · simp only [Between.innerBody, hReverse]
    · simp only [Between.innerBody, hReverse]
      exact le_sequenceAt _ _

theorem le_innerBody (b : Between) (inner : LabelledLoop) (next : Nat) :
    next ≤ (b.innerBody inner next).2 := by
  obtain ⟨_, k, l, hk, hl, _, hLast, _⟩ := innerBody_eq b inner next
  exact Nat.le_trans hk (Nat.le_trans hl hLast)

/-- Memories without gaps that differ from a given one only in some buffers. -/
def OffBuffers (writes : List String) (start m : Memory) : Prop :=
  m.Full ∧ ∀ b, b ∉ writes → m b = start b

theorem keeps_offBuffers {c : Conventions} {writes : List String} {start : Memory}
    {t : Stmt} (hWrites : ∀ b, t.Writes b → b ∈ writes) (env : Env) :
    (t.change c env).Keeps (OffBuffers writes start) := by
  intro m m' hm hRun
  refine ⟨Stmt.full_of_change hm.1 hRun, fun b hb => ?_⟩
  rw [Stmt.keeps_of_change hRun fun hWrite => hb (hWrites b hWrite), hm.2 b hb]

/-- Bounds that mean the same inside a loop as in front of it. -/
structure Steady (writes : List String) (h : LoopHead) : Prop where
  lowerAvoids : h.lower.Avoids writes
  upperAvoids : h.upper.Avoids writes
  lowerMentions : h.lower.mentions h.iter = false
  upperMentions : h.upper.mentions h.iter = false

section innerBody

variable {c : Conventions} {b : Between} {env : Env} {P : Memory → Prop} {F : Prop} [Decidable F]

/-- In some memories conditions have values, and one of them is zero just when `F` holds. -/
structure Decided (c : Conventions) (env : Env) (P : Memory → Prop) (conds : List Expr) (F : Prop) :
    Prop where
  isSome : ∀ m, P m → ∀ e ∈ conds, (e.valueWith? c env m).isSome
  zero : ∀ m, P m → ((∃ e ∈ conds, e.valueWith? c env m = some 0) ↔ F)

/-- A guard of statements with one more condition. -/
theorem eqOn_guardedAt (hConds : Decided c env P b.conds F) {last : Expr} {G : Prop} [Decidable G]
    (hLast : ∀ m, P m → last.valueWith? c env m = some (flag G)) (next : Nat) (ts : List Stmt) :
    (Change.inTurn ((guardedAt next (allOf b.conds last) ts).1.map (Stmt.change c env))).EqOn P
      (if F then .skip else if G then Change.inTurn (ts.map (Stmt.change c env)) else .skip) := by
  intro m hm
  obtain ⟨z, hz, hZero⟩ := valueWith?_allOf (hLast m hm) (hConds.isSome m hm)
  rw [change_guardedAt c env next _ ts hz]
  rw [hConds.zero m hm] at hZero
  by_cases hF : F
  · rw [if_pos hF, if_pos (hZero.mpr (.inl hF))]
    rfl
  · by_cases hG : G
    · have hz0 : z ≠ 0 := by simp [hZero, hF, hG, flag]
      rw [if_neg hF, if_pos hG, if_neg hz0]
    · have hz0 : z = 0 := by simp [hZero, hF, hG, flag]
      rw [if_neg hF, if_neg hG, if_pos hz0]
      rfl

/-- The old inner body under a guard of all conditions, if there are any. -/
theorem eqOn_guarded (hConds : Decided c env P b.conds F) {body guarded : Stmt}
    (hGuarded : b.conds = [] ∧ guarded = body ∨ ∃ outer e s, b.conds = outer ++ [e]
      ∧ guarded = .guard s (allOf outer e) body) :
    (guarded.change c env).EqOn P (if F then .skip else body.change c env) := by
  intro m hm
  have hIsSome := hConds.isSome m hm
  have hZero := hConds.zero m hm
  rcases hGuarded with ⟨hNil, rfl⟩ | ⟨outer, e, s, hSplit, rfl⟩
  · rw [hNil] at hZero
    rw [if_neg (by simpa using hZero)]
  · rw [hSplit] at hIsSome hZero
    obtain ⟨y, hy⟩ := Option.isSome_iff_exists.mp (hIsSome e (by simp))
    obtain ⟨z, hz, hz0⟩ := valueWith?_allOf hy fun e' he' => hIsSome e' (List.mem_append_left _ he')
    have hIff : z = 0 ↔ F := by
      rw [hz0, ← hZero]
      simp only [List.mem_append, List.mem_singleton, or_and_right, exists_or, exists_eq_left, hy,
        Option.some.injEq]
    rw [Stmt.change_guard, hz, Option.bind_some]
    by_cases hF : F
    · rw [if_pos hF, if_pos (hIff.mpr hF)]
      rfl
    · rw [if_neg hF, if_neg (fun h => hF (hIff.mp h))]

/-- **The new inner body**: when no condition is zero, the statements in front of the loop happen in
    the first iteration and those behind it in the last one, around the old body; otherwise nothing
    happens. -/
theorem eqOn_innerBody (inner : LabelledLoop) (b : Between) (hConds : Decided c env P b.conds F) {lower upper v : Int}
    (hFirst : ∀ m, P m → ((Expr.var inner.head.iter).equals inner.head.lower).valueWith? c env m
      = some (flag (v = lower)))
    (hLast : ∀ m, P m → ((Expr.var inner.head.iter).equals
      (inner.head.upper.minus (.int 1))).valueWith? c env m = some (flag (v = upper - 1)))
    (hBefore : (Change.inTurn (b.before.map (Stmt.change c env))).Keeps P)
    (hBody : (inner.body.change c env).Keeps P) (next : Nat) :
    ((b.innerBody inner next).1.change c env).EqOn P
      (if F then .skip else
        (if v = lower then Change.inTurn (b.before.map (Stmt.change c env)) else .skip).seq
          ((inner.body.change c env).seq
            (if v = upper - 1 then Change.inTurn (b.after.map (Stmt.change c env)) else .skip))) := by
  have hKeepsBefore : (if F then Change.skip else if v = lower then
      Change.inTurn (b.before.map (Stmt.change c env)) else .skip).Keeps P := by
    split
    · exact Change.keeps_skip
    · split
      · exact hBefore
      · exact Change.keeps_skip
  have hKeepsBody : (if F then Change.skip else inner.body.change c env).Keeps P := by
    split
    · exact Change.keeps_skip
    · exact hBody
  obtain ⟨guarded, k, l, _, _, hEq, _, hGuarded⟩ := innerBody_eq b inner next
  have hCore : b.conds = [] ∧ guarded = inner.body ∨ ∃ outer e s, b.conds = outer ++ [e]
      ∧ guarded = .guard s (allOf outer e) inner.body := by
    rcases hGuarded with hNone | ⟨outer, e, id, hSplit, _, hGuard⟩
    · exact .inl hNone
    · exact .inr ⟨outer, e, _, hSplit, hGuard⟩
  have hSeq := (eqOn_guardedAt hConds hFirst next b.before).symm.seq
    ((eqOn_guarded hConds hCore).symm.seq (eqOn_guardedAt hConds hLast k b.after).symm
      hKeepsBody) hKeepsBefore
  rw [hEq, change_sequenceAt, List.map_append, List.map_append, Change.inTurn_append,
    Change.inTurn_append, Change.seq_assoc, List.map_singleton, Change.inTurn_cons,
    Change.inTurn_nil, Change.seq_skip]
  refine hSeq.symm.trans ?_
  intro m _
  by_cases hF : F
  · simp [hF]
  · simp [hF]

end innerBody

/-! ## The inner loop -/

/-- What holds of a statement that may move into a loop. -/
theorem of_movable {iter : String} {t : Stmt} (h : movable iter t = .ok ()) :
    ¬ t.Uses iter ∧ ∀ u ∈ t.nodes, u.isLoop = false ∧ u.isCall = false := by
  have hEach := Outcome.forM_eq_ok.mp h
  constructor
  · rintro ⟨u, hu, e, he, hx⟩
    have hHere := hEach u hu
    have hMentions : u.exprs.any (·.mentions iter) = true :=
      List.any_eq_true.mpr ⟨e, he, Expr.mentions_iff.mpr hx⟩
    split at hHere
    · cases hHere
    · cases hHere
    · cases hHere
    · rw [if_pos hMentions] at hHere
      cases hHere
  · intro u hu
    have hHere := hEach u hu
    cases u <;> first | exact ⟨rfl, rfl⟩ | cases hHere

/-- What holds when the statements beside an inner loop may move into it. -/
theorem Between.of_check {b : Between} {h : LoopHead} (hCheck : b.check h = .ok ()) :
    (b.before = [] ∧ b.after = [])
      ∨ (∀ t ∈ b.before ++ b.after, movable h.iter t = .ok ()) ∧ ∃ n, h.extent? = some n ∧ 1 ≤ n := by
  unfold Between.check at hCheck
  split at hCheck
  · rename_i hEmpty
    exact .inl (by simpa using hEmpty)
  · obtain ⟨⟨⟩, hMovable, hExtent⟩ := Outcome.bind_eq_ok.mp hCheck
    refine .inr ⟨Outcome.forM_eq_ok.mp hMovable, ?_⟩
    split at hExtent
    · rename_i n hn
      split at hExtent
      · cases hExtent
      · exact ⟨n, hn, by omega⟩
    · cases hExtent

section sunk

variable {c : Conventions} {env : Env} {m : Memory} {lower upper : Int}

/-- An inner loop runs through its values in all memories that differ in written buffers only. -/
theorem eqOn_loop (hSteady : Steady writes inner.head)
    (hLower : inner.head.lower.valueWith? c env m = some lower)
    (hUpper : inner.head.upper.valueWith? c env m = some upper) :
    (inner.stmt.change c env).EqOn (OffBuffers writes m)
      (Change.inTurn ((counting lower upper).map fun v =>
        inner.body.change c (env.set inner.head.iter v))) := by
  intro m' hm'
  rw [LabelledLoop.stmt, Stmt.change_loop, hSteady.lowerAvoids.valueWith?_eq c env hm'.2, hLower,
    hSteady.upperAvoids.valueWith?_eq c env hm'.2, hUpper]
  rfl

/-- What runs around a loop may run in its first and last iteration, when it does not depend on the
    iterator and there is an iteration. -/
theorem eqOn_around {before after : List Stmt} {each : Int → Change}
    (hSunk : (before = [] ∧ after = []) ∨
      (∀ t ∈ before ++ after, ¬ t.Uses inner.head.iter) ∧ lower < upper) :
    Change.inTurn ((counting lower upper).map fun v =>
        (if v = lower then
          Change.inTurn (before.map (Stmt.change c (env.set inner.head.iter v))) else .skip).seq
        ((each v).seq (if v = upper - 1 then
          Change.inTurn (after.map (Stmt.change c (env.set inner.head.iter v))) else .skip)))
      = (Change.inTurn (before.map (Stmt.change c env))).seq
          ((Change.inTurn ((counting lower upper).map each)).seq
            (Change.inTurn (after.map (Stmt.change c env)))) := by
  rcases hSunk with ⟨rfl, rfl⟩ | ⟨hUses, hLess⟩
  · simp
  · have hSame : ∀ ts : List Stmt, (∀ t ∈ ts, t ∈ before ++ after) → ∀ v : Int,
        ts.map (Stmt.change c (env.set inner.head.iter v)) = ts.map (Stmt.change c env) :=
      fun ts hts v => List.map_congr_left fun t ht => Stmt.change_set (hUses t (hts t ht)) env v
    simp only [hSame before fun t ht => List.mem_append_left _ ht,
      hSame after fun t ht => List.mem_append_right _ ht]
    rw [Change.inTurn_first hLess, Change.inTurn_last hLess]

end sunk

/-- **Sinking**: an outer body runs as before when everything in it moves into the inner loop. -/
theorem alike_innerBody {c : Conventions} {E : Env → Prop} {t : Stmt} {b : Between}
    {conds : List Expr} {before after : List Stmt}
    (h : Gathers writes inner t.nodes ⟨[], [], []⟩ b (fun c env => t.change c env) conds before
      after)
    (hCheck : b.check inner.head = .ok ()) (hSteady : Steady writes inner.head)
    (hWrites : ∀ x, t.Writes x → x ∈ writes) (hConds : ∀ e ∈ conds, e.DefinedOn c E)
    (hLower : inner.head.lower.DefinedOn c E) (hUpper : inner.head.upper.DefinedOn c E) {env : Env}
    (hEnv : E env) (next : Nat) : (t.change c env).Alike
      ((Stmt.loop inner.site inner.head (b.innerBody inner next).1).change c env) := by
  classical
  obtain rfl : b = ⟨conds, before, after⟩ := by simpa using h.result
  intro m hm
  obtain ⟨lower, hLower⟩ := Option.isSome_iff_exists.mp (hLower env hEnv m hm)
  obtain ⟨upper, hUpper⟩ := Option.isSome_iff_exists.mp (hUpper env hEnv m hm)
  have hDefined : ∀ e ∈ conds, (e.valueWith? c env m).isSome :=
    fun e he => hConds e he env hEnv m hm
  have hStart : OffBuffers writes m m := ⟨hm, fun _ _ => rfl⟩
  -- conditions and bounds have one value in all these memories, inside the loop and in front of it
  have hSame : ∀ {e : Expr} {m' : Memory} (v : Int), e.Avoids writes →
      e.mentions inner.head.iter = false → OffBuffers writes m m' →
        e.valueWith? c (env.set inner.head.iter v) m' = e.valueWith? c env m := by
    intro e m' v hAvoids hMentions hm'
    rw [Expr.valueWith?_set hMentions, hAvoids.valueWith?_eq c env hm'.2]
  have hDecided : ∀ v, Decided c (env.set inner.head.iter v) (OffBuffers writes m) conds
      (∃ e ∈ conds, e.valueWith? c env m = some 0) := by
    intro v
    have hCond : ∀ m', OffBuffers writes m m' → ∀ e ∈ conds,
        e.valueWith? c (env.set inner.head.iter v) m' = e.valueWith? c env m := by
      intro m' hm' e he
      obtain ⟨hAvoids, hMentions⟩ := of_checkCondition (h.checked e he)
      exact hSame v hAvoids hMentions hm'
    constructor
    · intro m' hm' e he
      rw [hCond m' hm' e he]
      exact hDefined e he
    · intro m' hm'
      constructor
      · rintro ⟨e, he, hZero⟩
        exact ⟨e, he, by rw [← hCond m' hm' e he, hZero]⟩
      · rintro ⟨e, he, hZero⟩
        exact ⟨e, he, by rw [hCond m' hm' e he, hZero]⟩
  have hFirst : ∀ v m', OffBuffers writes m m' →
      ((Expr.var inner.head.iter).equals inner.head.lower).valueWith? c
        (env.set inner.head.iter v) m' = some (flag (v = lower)) := by
    intro v m' hm'
    have hValue := hSame v hSteady.lowerAvoids hSteady.lowerMentions hm'
    rw [hLower] at hValue
    simp [Expr.equals, Expr.valueWith?, hValue, BinaryOp.valueWith?, BinaryOp.value?]
  have hLast : ∀ v m', OffBuffers writes m m' →
      ((Expr.var inner.head.iter).equals (inner.head.upper.minus (.int 1))).valueWith? c
        (env.set inner.head.iter v) m' = some (flag (v = upper - 1)) := by
    intro v m' hm'
    have hValue := hSame v hSteady.upperAvoids hSteady.upperMentions hm'
    rw [hUpper] at hValue
    have hMinus := Expr.valueWith?_minus hValue (b := .int 1) rfl
    simp [Expr.equals, Expr.valueWith?, hMinus, BinaryOp.valueWith?, BinaryOp.value?]
  have hKeeps : ∀ {u : Stmt} (env' : Env), (∀ w ∈ u.nodes, w ∈ t.nodes) →
      (u.change c env').Keeps (OffBuffers writes m) := by
    intro u env' hBelow
    apply keeps_offBuffers
    rintro x ⟨s, is, w, hStore⟩
    exact hWrites x ⟨s, is, w, hBelow _ hStore⟩
  have hKeepsAll : ∀ (env' : Env) (ts : List Stmt), (∀ u ∈ ts, u ∈ before ++ after) →
      (Change.inTurn (ts.map (Stmt.change c env'))).Keeps (OffBuffers writes m) := by
    intro env' ts hts
    apply Change.Keeps.inTurn
    intro a ha
    obtain ⟨u, hu, rfl⟩ := List.mem_map.mp ha
    exact hKeeps env' (h.inside u (hts u hu))
  have hKeepsBefore : ∀ env', (Change.inTurn (before.map (Stmt.change c env'))).Keeps
      (OffBuffers writes m) := fun env' => hKeepsAll env' before fun u hu => List.mem_append_left _ hu
  have hKeepsAfter : ∀ env', (Change.inTurn (after.map (Stmt.change c env'))).Keeps
      (OffBuffers writes m) := fun env' => hKeepsAll env' after fun u hu => List.mem_append_right _ hu
  have hKeepsBody : ∀ env', (inner.body.change c env').Keeps (OffBuffers writes m) := by
    intro env'
    apply hKeeps env'
    intro u hu
    exact Stmt.mem_nodes_trans (by simp [LabelledLoop.stmt, hu]) h.holds
  have hBody := fun v => eqOn_innerBody inner ⟨conds, before, after⟩ (hDecided v) (hFirst v)
    (hLast v) (hKeepsBefore _) (hKeepsBody _) next
  -- one iteration of the new loop keeps to these memories, because the old parts do
  have hKeepsTurn : ∀ v, (if ∃ e ∈ conds, e.valueWith? c env m = some 0 then Change.skip else
      (if v = lower then Change.inTurn (before.map (Stmt.change c (env.set inner.head.iter v)))
        else .skip).seq ((inner.body.change c (env.set inner.head.iter v)).seq
          (if v = upper - 1 then Change.inTurn (after.map (Stmt.change c
            (env.set inner.head.iter v))) else .skip))).Keeps (OffBuffers writes m) := by
    intro v
    split
    · exact Change.keeps_skip
    · refine Change.Keeps.seq ?_ ((hKeepsBody _).seq ?_)
      · split
        · exact hKeepsBefore _
        · exact Change.keeps_skip
      · split
        · exact hKeepsAfter _
        · exact Change.keeps_skip
  have hTurns := Change.EqOn.inTurn (fun v (_ : v ∈ counting lower upper) => (hBody v).symm)
    fun v _ => hKeepsTurn v
  rw [h.runs, Stmt.change_loop, hLower, hUpper, Option.bind_some, Option.bind_some,
    ← hTurns m hStart]
  by_cases hZero : ∃ e ∈ conds, e.valueWith? c env m = some 0
  · simp only [if_pos hZero]
    rw [under_of_zero hDefined hZero, Change.inTurn_skips]
    rfl
  · simp only [if_neg hZero]
    have hSunk : (before = [] ∧ after = []) ∨
        (∀ u ∈ before ++ after, ¬ u.Uses inner.head.iter) ∧ lower < upper := by
      rcases Between.of_check hCheck with hEmpty | ⟨hMovable, n, hn, hPos⟩
      · exact .inl hEmpty
      · have hDistance := Expr.distance_of_constantDistance? hn hLower hUpper
        exact .inr ⟨fun u hu => (of_movable (hMovable u hu)).1, by omega⟩
    rw [under_of_nonzero hDefined hZero, eqOn_around hSunk]
    exact (Change.EqOn.refl _).seq ((eqOn_loop hSteady hLower hUpper).seq (.refl _)
      (hKeeps env fun u hu => Stmt.mem_nodes_trans hu h.holds)) (hKeepsBefore env) m hStart

end Restructure

end LoopNest

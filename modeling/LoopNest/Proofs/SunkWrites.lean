import LoopNest.Proofs.DistinctLabels
import LoopNest.Proofs.RoundedRuns
import LoopNest.Proofs.SplitLoops

/-! # Writes of sunk statements

  When everything between two loops moves into the inner one, a program makes the same writes in the
  same order. `Restructure.alike_innerBody` says this of the memory alone; here the writes count, and
  no element needs a content.

  * **On the way**: what lies between the loops runs as conditions, and below them statements around
    the inner loop (`Restructure.Peels.run_around`).
  * **New inner bodies** run the statements in front in the first iteration and those behind in the
    last one (`Restructure.Sinkable.eqOn_innerBody`).
  * **Sunk statements**: where the bounds of the inner loop and the conditions on the way have values,
    the outer body runs as before (`Restructure.Sinkable.run_eq`). If both come to an end, they make
    the same writes in any case (`Restructure.Sinkable.agrees`).

  Float constants may be rounded in any way. -/

namespace LoopNest

namespace Restructure

open Stmt (LabelledLoop)

variable {round : Float → Int} {fresh : Memory} {writes : List String} {inner : LabelledLoop}

/-! ## On the way -/

/-- The search for an inner loop below a statement, with what has been gathered before and after it.
    Conditions are only passed when there are no statements around them. -/
inductive Peels (inner : Stmt) : Between → Stmt → Between → Prop where
  | here (b : Between) : Peels inner b inner b
  | guard {b b' : Between} {body : Stmt} (s : Site) (e : Expr) (hBefore : b.before = [])
    (hAfter : b.after = []) (h : Peels inner { b with conds := b.conds ++ [e] } body b') :
    Peels inner b (.guard s e body) b'
  | block {b b' : Between} {t : Stmt} (s : Site) (first last : List Stmt)
    (h : Peels inner ⟨b.conds, b.before ++ first, last ++ b.after⟩ t b') :
    Peels inner b (.block s (first ++ t :: last)) b'

theorem gather_peels : ∀ (t : Stmt) (b b' : Between), gather writes inner b t = .ok b' →
    (∀ u ∈ t.nodes, u.id = inner.site.id → u = inner.stmt) → Peels inner.stmt b t b' := by
  -- a statement that is neither a block nor a guard is the inner loop
  have hLoop : ∀ {t : Stmt} {b b' : Between},
      (if t.id = inner.site.id then .ok b
        else if !b.before.isEmpty || !b.after.isEmpty then .error .besideBranch
        else .error (.between t.kindName) : Outcome Between) = .ok b' →
      (∀ u ∈ t.nodes, u.id = inner.site.id → u = inner.stmt) → Peels inner.stmt b t b' := by
    intro t b b' h hSole
    split at h
    · rename_i hId
      obtain rfl := hSole t (Stmt.self_mem_nodes t) hId
      cases h
      exact .here _
    · split at h <;> cases h
  refine Stmt.ind ?decl ?loop ?guard ?branch ?store ?call ?block ?hole
  case decl => exact fun s n buffer body _ b b' h => hLoop (by simpa only [gather] using h)
  case loop => exact fun s head body _ b b' h => hLoop (by simpa only [gather] using h)
  case branch => exact fun s e yes no _ _ b b' h => hLoop (by simpa only [gather] using h)
  case store => exact fun s buffer is v b b' h => hLoop (by simpa only [gather] using h)
  case call => exact fun s f args b b' h => hLoop (by simpa only [gather] using h)
  case hole => exact fun s b b' h => hLoop (by simpa only [gather] using h)
  case guard =>
    intro s e body ih b b' h hSole
    rw [gather] at h
    split at h
    · cases h
    · rename_i hAlone
      obtain ⟨hBefore, hAfter⟩ : b.before = [] ∧ b.after = [] := by simpa using hAlone
      obtain ⟨⟨⟩, _, h⟩ := Outcome.bind_eq_ok.mp h
      exact .guard s e hBefore hAfter (ih _ b' h fun u hu => hSole u (by simp [hu]))
  case block =>
    intro s ts ih b b' h hSole
    rw [gather] at h
    obtain ⟨first, t, last, rfl, hFound⟩ := gatherAll_cases ts b h
    exact .block s first last (ih t (by simp) _ b' hFound fun u hu => hSole u (by simp [hu]))

/-- Gathered conditions and statements around an action. -/
def Between.around (round : Float → Int) (fresh : Memory) (env : Env) (b : Between) (a : Action) :
    Action :=
  Action.under (b.conds.map fun e m => e.roundedValue? round env m)
    ((Action.inTurn (b.before.map (Stmt.runRounded round fresh env))).seq
      (a.seq (Action.inTurn (b.after.map (Stmt.runRounded round fresh env)))))

/-- **On the way** nothing changes: what has been gathered runs around the inner loop. -/
theorem Peels.run_around {u t : Stmt} {b b' : Between} (h : Peels u b t b') (env : Env) :
    b.around round fresh env (t.runRounded round fresh env)
      = b'.around round fresh env (u.runRounded round fresh env) := by
  induction h with
  | here => rfl
  | guard s e hBefore hAfter _ ih =>
    rw [← ih]
    simp only [Between.around, hBefore, hAfter, List.map_append, Action.under_append, List.map_nil,
      Action.inTurn_nil, Action.skip_seq, Action.seq_skip, Stmt.runRounded_guard]
    rfl
  | block s first last _ ih =>
    rw [← ih]
    simp only [Between.around, Stmt.runRounded_block, List.map_append, List.map_cons,
      Action.inTurn_append, Action.inTurn_cons, Action.seq_assoc]

/-- A gathered condition is that of a statement around the inner loop. -/
theorem Peels.conds {u t : Stmt} {b b' : Between} (h : Peels u b t b') : u ∈ t.nodes ∧
    ∀ e ∈ b'.conds, e ∈ b.conds ∨ ∃ s body, Stmt.guard s e body ∈ t.nodes ∧ u ∈ body.nodes := by
  induction h with
  | here b => exact ⟨Stmt.self_mem_nodes _, fun e he => .inl he⟩
  | guard s e _ _ _ ih =>
    obtain ⟨hMem, hConds⟩ := ih
    refine ⟨by simp [hMem], fun e' he' => ?_⟩
    rcases hConds e' he' with hOld | ⟨s', body, hGuard, hBody⟩
    · rcases List.mem_append.mp hOld with hOld | hHere
      · exact .inl hOld
      · obtain rfl := List.mem_singleton.mp hHere
        exact .inr ⟨s, _, Stmt.self_mem_nodes _, hMem⟩
    · exact .inr ⟨s', body, by simp [hGuard], hBody⟩
  | @block b b' t s first last _ ih =>
    obtain ⟨hMem, hConds⟩ := ih
    have hBelow : ∀ w ∈ t.nodes, w ∈ (Stmt.block s (first ++ t :: last)).nodes := fun w hw => by
      rw [Stmt.nodes_block]
      exact List.mem_cons_of_mem _ (List.mem_flatMap.mpr ⟨t, by simp, hw⟩)
    refine ⟨hBelow _ hMem, fun e he => (hConds e he).imp_right ?_⟩
    rintro ⟨s', body, hGuard, hBody⟩
    exact ⟨s', body, hBelow _ hGuard, hBody⟩

/-! ## New inner bodies -/

section newBody

variable {env : Env} {m : Memory} {P : Memory → Prop} {F : Prop} [Decidable F] {conds : List Expr}

theorem runRounded_sequenceAt (next : Nat) (ts : List Stmt) (env : Env) :
    (sequenceAt next ts).1.runRounded round fresh env
      = Action.inTurn (ts.map (Stmt.runRounded round fresh env)) := by
  unfold sequenceAt
  split
  · simp [Action.seq_skip]
  · exact Stmt.runRounded_block env _ _

/-- What a guard of several statements does. -/
theorem runRounded_guardedAt (next : Nat) (e : Expr) (ts : List Stmt) {z : Int}
    (hz : e.roundedValue? round env m = some z) :
    Action.inTurn ((guardedAt next e ts).1.map (Stmt.runRounded round fresh env)) m
      = if z = 0 then Action.skip m
        else Action.inTurn (ts.map (Stmt.runRounded round fresh env)) m := by
  cases ts with
  | nil =>
    show Action.skip m = _
    split <;> rfl
  | cons t ts =>
    simp only [guardedAt, List.map_cons, List.map_nil, Action.inTurn_cons, Action.inTurn_nil,
      Action.seq_skip]
    rw [Stmt.runRounded_guard, Action.guardedBy, hz, Option.bind_some, runRounded_sequenceAt,
      List.map_cons, Action.inTurn_cons]

theorem rounded_allOf (last : Expr) :
    (allOf conds last).rounded round
      = allOf (conds.map (Expr.rounded round)) (last.rounded round) := by
  induction conds with
  | nil => rfl
  | cons e conds ih =>
    show Expr.rounded round (e.both (allOf conds last)) = _
    rw [Expr.both, Expr.rounded, ih]
    rfl

/-- A conjunction has a value when its parts have one, and it is zero when one of them is. -/
theorem roundedValue?_allOf {last : Expr} {y : Int} (hLast : last.roundedValue? round env m = some y)
    (hConds : ∀ e ∈ conds, (e.roundedValue? round env m).isSome) :
    ∃ z, (allOf conds last).roundedValue? round env m = some z
      ∧ (z = 0 ↔ (∃ e ∈ conds, e.roundedValue? round env m = some 0) ∨ y = 0) := by
  simp only [Expr.roundedValue?_eq, rounded_allOf] at hLast hConds ⊢
  have hRounded : ∀ e ∈ conds.map (Expr.rounded round),
      (e.valueWith? (.reference .blank) env m).isSome := List.forall_mem_map.mpr hConds
  obtain ⟨z, hz, hZero⟩ := valueWith?_allOf hLast hRounded
  exact ⟨z, hz, by simpa using hZero⟩

/-- The parts of a conjunction that has a value have values. -/
theorem isSome_of_allOf {last : Expr} (h : ((allOf conds last).roundedValue? round env m).isSome) :
    (∀ e ∈ conds, (e.roundedValue? round env m).isSome) ∧ (last.roundedValue? round env m).isSome := by
  induction conds with
  | nil => exact ⟨fun e he => absurd he List.not_mem_nil, h⟩
  | cons e conds ih =>
    obtain ⟨z, hz⟩ := Option.isSome_iff_exists.mp h
    obtain ⟨x, hx, hRest⟩ := Option.bind_eq_some_iff.mp hz
    obtain ⟨y, hy, _⟩ := Option.bind_eq_some_iff.mp hRest
    obtain ⟨hConds, hLast⟩ := ih (Option.isSome_iff_exists.mpr ⟨y, hy⟩)
    exact ⟨List.forall_mem_cons.mpr ⟨Option.isSome_iff_exists.mpr ⟨x, hx⟩, hConds⟩, hLast⟩

/-- Whether an iterator has the value of a bound. -/
theorem roundedValue?_iterator {e : Expr} {x : String} {v y : Int}
    (h : e.roundedValue? round (env.set x v) m = some y) :
    ((Expr.var x).equals e).roundedValue? round (env.set x v) m = some (flag (v = y)) := by
  rw [Expr.roundedValue?] at h
  simp [Expr.roundedValue?, Expr.equals, Expr.rounded, Expr.value?, h, BinaryOp.value?]

/-- In some memories conditions have values, and one of them is zero just when `F` holds. -/
structure Settles (round : Float → Int) (env : Env) (P : Memory → Prop) (conds : List Expr)
    (F : Prop) : Prop where
  isSome : ∀ m, P m → ∀ e ∈ conds, (e.roundedValue? round env m).isSome
  zero : ∀ m, P m → ((∃ e ∈ conds, e.roundedValue? round env m = some 0) ↔ F)

/-- A guard of statements with one more condition. -/
theorem Settles.eqOn_guardedAt (hConds : Settles round env P conds F) (fresh : Memory) {last : Expr}
    {G : Prop} [Decidable G] (hLast : ∀ m, P m → last.roundedValue? round env m = some (flag G))
    (next : Nat) (ts : List Stmt) :
    (Action.inTurn ((guardedAt next (allOf conds last) ts).1.map
        (Stmt.runRounded round fresh env))).EqOn P
      (if F then .skip else if G then Action.inTurn (ts.map (Stmt.runRounded round fresh env))
        else .skip) := by
  intro m hm
  obtain ⟨z, hz, hZero⟩ := roundedValue?_allOf (hLast m hm) (hConds.isSome m hm)
  rw [runRounded_guardedAt next _ ts hz]
  rw [hConds.zero m hm] at hZero
  by_cases hF : F
  · rw [if_pos hF, if_pos (hZero.mpr (.inl hF))]
  · by_cases hG : G
    · have hz0 : z ≠ 0 := by simp [hZero, hF, hG, flag]
      rw [if_neg hF, if_pos hG, if_neg hz0]
    · have hz0 : z = 0 := by simp [hZero, hF, hG, flag]
      rw [if_neg hF, if_neg hG, if_pos hz0]

/-- The old inner body under a guard of all conditions, if there are any. -/
theorem Settles.eqOn_guarded (hConds : Settles round env P conds F) (fresh : Memory)
    {body guarded : Stmt}
    (hGuarded : conds = [] ∧ guarded = body ∨ ∃ outer e s, conds = outer ++ [e]
      ∧ guarded = .guard s (allOf outer e) body) :
    (guarded.runRounded round fresh env).EqOn P
      (if F then .skip else body.runRounded round fresh env) := by
  intro m hm
  have hIsSome := hConds.isSome m hm
  have hZero := hConds.zero m hm
  rcases hGuarded with ⟨rfl, rfl⟩ | ⟨outer, e, s, rfl, rfl⟩
  · rw [if_neg (by simpa using hZero)]
  · obtain ⟨y, hy⟩ := Option.isSome_iff_exists.mp (hIsSome e (by simp))
    obtain ⟨z, hz, hz0⟩ := roundedValue?_allOf hy fun e' he' => hIsSome e' (List.mem_append_left _ he')
    have hIff : z = 0 ↔ F := by
      rw [hz0, ← hZero]
      simp only [List.mem_append, List.mem_singleton, or_and_right, exists_or, exists_eq_left, hy,
        Option.some.injEq]
    rw [Stmt.runRounded_guard, Action.guardedBy, hz, Option.bind_some]
    by_cases hF : F
    · rw [if_pos hF, if_pos (hIff.mpr hF)]
    · rw [if_neg hF, if_neg fun h => hF (hIff.mp h)]

end newBody

/-! ## Sunk statements -/

/-- An outer body in which everything may move into the inner loop.

    * **peels**: the search for the inner loop has gathered what is around it;
    * **inside**: what has been gathered is part of the body;
    * **check**: the gathered statements may move into the loop;
    * **conds**, **steady**: the conditions and the bounds of the loop mean the same inside of the loop
      as in front of it, where some buffers may have changed;
    * **writes**: the body writes these buffers only. -/
structure Sinkable (buffers : List String) (inner : LabelledLoop) (t : Stmt) (b : Between) : Prop where
  peels : Peels inner.stmt ⟨[], [], []⟩ t b
  inside : ∀ w ∈ b.before ++ b.after, ∀ u ∈ w.nodes, u ∈ t.nodes
  check : b.check inner.head = .ok ()
  conds : ∀ e ∈ b.conds, e.Avoids buffers ∧ e.mentions inner.head.iter = false
  steady : Steady buffers inner.head
  writes : ∀ x, t.Writes x → x ∈ buffers

namespace Sinkable

variable {buffers : List String} {t : Stmt} {b : Between} {env : Env} {m : Memory}
  {lower upper : Int}

/-- Memories that differ from a given one in written buffers only. -/
def Off (buffers : List String) (start m : Memory) : Prop := ∀ x, x ∉ buffers → m x = start x

/-- What has been gathered runs around the inner loop. -/
theorem run_around (h : Sinkable buffers inner t b) : t.runRounded round fresh env
    = b.around round fresh env (inner.stmt.runRounded round fresh env) := by
  rw [← h.peels.run_around]
  simp [Between.around, Action.skip_seq, Action.seq_skip]

theorem mem_nodes_body {u : Stmt} (h : Sinkable buffers inner t b) (hu : u ∈ inner.body.nodes) :
    u ∈ t.nodes := Stmt.mem_nodes_trans (mem_nodes_stmt hu) h.peels.conds.1

theorem keeps (h : Sinkable buffers inner t b) {w : Stmt} (hw : ∀ u ∈ w.nodes, u ∈ t.nodes)
    (env : Env) (start : Memory) : (w.runRounded round fresh env).Keeps (Off buffers start) := by
  refine Stmt.keeps_runRounded (fun x hx => h.writes x ?_) env start
  obtain ⟨s, is, v, hStore⟩ := hx
  exact ⟨s, is, v, hw _ hStore⟩

theorem keepsAll (h : Sinkable buffers inner t b) {ts : List Stmt}
    (hts : ∀ w ∈ ts, w ∈ b.before ++ b.after) (env : Env) (start : Memory) :
    (Action.inTurn (ts.map (Stmt.runRounded round fresh env))).Keeps (Off buffers start) := by
  refine Action.Keeps.inTurn fun a ha => ?_
  obtain ⟨w, hw, rfl⟩ := List.mem_map.mp ha
  exact h.keeps (h.inside w (hts w hw)) env start

/-- Conditions and bounds have one value in front of the loop and inside of it. -/
theorem value_eq {e : Expr} (hAvoids : e.Avoids buffers)
    (hMentions : e.mentions inner.head.iter = false) {m' : Memory} (hm : Off buffers m m') (v : Int) :
    e.roundedValue? round (env.set inner.head.iter v) m' = e.roundedValue? round env m := by
  rw [Expr.roundedValue?_set hMentions, hAvoids.roundedValue?_eq env hm]

/-- What the conditions come to inside of the loop. -/
theorem settles (h : Sinkable buffers inner t b)
    (hDefined : ∀ e ∈ b.conds, (e.roundedValue? round env m).isSome) (v : Int) :
    Settles round (env.set inner.head.iter v) (Off buffers m) b.conds
      (∃ e ∈ b.conds, e.roundedValue? round env m = some 0) := by
  have hSame : ∀ m', Off buffers m m' → ∀ e ∈ b.conds,
      e.roundedValue? round (env.set inner.head.iter v) m' = e.roundedValue? round env m :=
    fun m' hm e he => value_eq (h.conds e he).1 (h.conds e he).2 hm v
  refine ⟨fun m' hm e he => by rw [hSame m' hm e he]; exact hDefined e he, fun m' hm => ?_⟩
  constructor
  · rintro ⟨e, he, hZero⟩
    exact ⟨e, he, by rw [← hSame m' hm e he, hZero]⟩
  · rintro ⟨e, he, hZero⟩
    exact ⟨e, he, by rw [hSame m' hm e he, hZero]⟩

/-- One iteration after the statements have moved into the loop. -/
def turn (round : Float → Int) (fresh : Memory) (inner : LabelledLoop) (b : Between)
    (lower upper : Int) (env : Env) (v : Int) : Action :=
  (if v = lower then
      Action.inTurn (b.before.map (Stmt.runRounded round fresh (env.set inner.head.iter v)))
    else .skip).seq
    ((inner.body.runRounded round fresh (env.set inner.head.iter v)).seq
      (if v = upper - 1 then
        Action.inTurn (b.after.map (Stmt.runRounded round fresh (env.set inner.head.iter v)))
      else .skip))

theorem keeps_turn (h : Sinkable buffers inner t b) (v : Int) :
    (turn round fresh inner b lower upper env v).Keeps (Off buffers m) := by
  refine Action.Keeps.seq ?_ ((h.keeps (fun u hu => h.mem_nodes_body hu) _ m).seq ?_)
  · split
    · exact h.keepsAll (fun w hw => List.mem_append_left _ hw) _ m
    · exact Action.keeps_skip
  · split
    · exact h.keepsAll (fun w hw => List.mem_append_right _ hw) _ m
    · exact Action.keeps_skip

/-- **New inner bodies**: when no condition is zero, the statements in front of the loop run in the
    first iteration and those behind it in the last one, around the old body; otherwise nothing runs. -/
theorem eqOn_innerBody (h : Sinkable buffers inner t b)
    (hLower : inner.head.lower.roundedValue? round env m = some lower)
    (hUpper : inner.head.upper.roundedValue? round env m = some upper)
    (hDefined : ∀ e ∈ b.conds, (e.roundedValue? round env m).isSome) (next : Nat) (v : Int) :
    ((b.innerBody inner next).1.runRounded round fresh (env.set inner.head.iter v)).EqOn
      (Off buffers m)
      (if ∃ e ∈ b.conds, e.roundedValue? round env m = some 0 then .skip
        else turn round fresh inner b lower upper env v) := by
  have hSettles := h.settles hDefined v
  have hFirst : ∀ m', Off buffers m m' → ((Expr.var inner.head.iter).equals
      inner.head.lower).roundedValue? round (env.set inner.head.iter v) m'
        = some (flag (v = lower)) := fun m' hm =>
    roundedValue?_iterator ((value_eq h.steady.lowerAvoids h.steady.lowerMentions hm v).trans hLower)
  have hLast : ∀ m', Off buffers m m' → ((Expr.var inner.head.iter).equals
      (inner.head.upper.minus (.int 1))).roundedValue? round (env.set inner.head.iter v) m'
        = some (flag (v = upper - 1)) := fun m' hm =>
    roundedValue?_iterator (Expr.roundedValue?_minus_one
      ((value_eq h.steady.upperAvoids h.steady.upperMentions hm v).trans hUpper))
  obtain ⟨guarded, k, l, _, _, hEq, _, hGuarded⟩ := innerBody_eq b inner next
  have hCore : b.conds = [] ∧ guarded = inner.body ∨ ∃ outer e s, b.conds = outer ++ [e]
      ∧ guarded = .guard s (allOf outer e) inner.body := by
    rcases hGuarded with hNone | ⟨outer, e, id, hSplit, _, hGuard⟩
    · exact .inl hNone
    · exact .inr ⟨outer, e, _, hSplit, hGuard⟩
  -- the three parts of the new body, one after the other
  intro m' hm
  have hBefore := (hSettles.eqOn_guardedAt fresh hFirst next b.before).symm
  have hBody := (hSettles.eqOn_guarded fresh hCore).symm
  have hAfter := (hSettles.eqOn_guardedAt fresh hLast k b.after).symm
  rw [hEq, runRounded_sequenceAt, List.map_append, List.map_append, Action.inTurn_append,
    Action.inTurn_append, Action.seq_assoc, List.map_singleton, Action.inTurn_cons,
    Action.inTurn_nil, Action.seq_skip, ← hBefore.seq (hBody.seq hAfter ?_) ?_ m' hm]
  · by_cases hZero : ∃ e ∈ b.conds, e.roundedValue? round env m = some 0
    · simp only [if_pos hZero, Action.skip_seq]
    · simp only [if_neg hZero]
      rfl
  · split
    · exact Action.keeps_skip
    · exact h.keeps (fun u hu => h.mem_nodes_body hu) _ m
  · split
    · exact Action.keeps_skip
    · split
      · exact h.keepsAll (fun w hw => List.mem_append_left _ hw) _ m
      · exact Action.keeps_skip

/-- What runs around a loop may run in its first and last iteration, when it does not depend on the
    iterator and there is an iteration. -/
theorem inTurn_turn (hSunk : (b.before = [] ∧ b.after = []) ∨
      (∀ w ∈ b.before ++ b.after, ¬ w.Uses inner.head.iter) ∧ lower < upper) :
    Action.inTurn ((counting lower upper).map (turn round fresh inner b lower upper env))
      = (Action.inTurn (b.before.map (Stmt.runRounded round fresh env))).seq
          ((Action.inTurn ((counting lower upper).map fun v =>
            inner.body.runRounded round fresh (env.set inner.head.iter v))).seq
              (Action.inTurn (b.after.map (Stmt.runRounded round fresh env)))) := by
  unfold turn
  rcases hSunk with ⟨hBefore, hAfter⟩ | ⟨hUses, hLess⟩
  · simp [hBefore, hAfter, Action.skip_seq, Action.seq_skip]
  · have hSame : ∀ ts : List Stmt, (∀ w ∈ ts, w ∈ b.before ++ b.after) → ∀ v : Int,
        ts.map (Stmt.runRounded round fresh (env.set inner.head.iter v))
          = ts.map (Stmt.runRounded round fresh env) := fun ts hts v =>
      List.map_congr_left fun w hw => Stmt.runRounded_set (hUses w (hts w hw)) env v
    simp only [hSame b.before fun w hw => List.mem_append_left _ hw,
      hSame b.after fun w hw => List.mem_append_right _ hw]
    rw [Action.inTurn_first hLess, Action.inTurn_last hLess]

/-- Statements beside the loop do not use its iterator, and the loop has an iteration. -/
theorem sunk (h : Sinkable buffers inner t b)
    (hLower : inner.head.lower.roundedValue? round env m = some lower)
    (hUpper : inner.head.upper.roundedValue? round env m = some upper) :
    (b.before = [] ∧ b.after = []) ∨
      (∀ w ∈ b.before ++ b.after, ¬ w.Uses inner.head.iter) ∧ lower < upper := by
  rcases Between.of_check h.check with hEmpty | ⟨hMovable, n, hn, hPos⟩
  · exact .inl hEmpty
  · have hDistance := Expr.distance_of_rounded hn hLower hUpper
    exact .inr ⟨fun w hw => (of_movable (hMovable w hw)).1, by omega⟩

/-- What runs under conditions that have values runs if none of them is zero. -/
theorem under_eq {conds : List Expr} (hDefined : ∀ e ∈ conds, (e.roundedValue? round env m).isSome)
    (a : Action) : Action.under (conds.map fun e m => e.roundedValue? round env m) a m
      = if ∃ e ∈ conds, e.roundedValue? round env m = some 0 then Action.skip m else a m := by
  induction conds with
  | nil => simp
  | cons e conds ih =>
    obtain ⟨x, hx⟩ := Option.isSome_iff_exists.mp (hDefined e List.mem_cons_self)
    rw [List.map_cons, Action.under_cons, Action.guardedBy, hx, Option.bind_some,
      ih fun e' he' => hDefined e' (List.mem_cons_of_mem e he')]
    by_cases hx0 : x = 0
    · rw [if_pos hx0, if_pos ⟨e, List.mem_cons_self, by rw [hx, hx0]⟩]
    · have hIff : (∃ e' ∈ e :: conds, e'.roundedValue? round env m = some 0)
          ↔ ∃ e' ∈ conds, e'.roundedValue? round env m = some 0 := by
        rw [List.exists_mem_cons_iff, hx, Option.some.injEq, or_iff_right hx0]
      simp only [if_neg hx0, hIff]

/-- **Sunk statements** run as before where the bounds of the inner loop and the conditions around it
    have values. -/
theorem run_eq (h : Sinkable buffers inner t b)
    (hLower : (inner.head.lower.roundedValue? round env m).isSome)
    (hUpper : (inner.head.upper.roundedValue? round env m).isSome)
    (hDefined : ∀ e ∈ b.conds, (e.roundedValue? round env m).isSome) (next : Nat) :
    (Stmt.loop inner.site inner.head (b.innerBody inner next).1).runRounded round fresh env m
      = t.runRounded round fresh env m := by
  obtain ⟨lower, hLower⟩ := Option.isSome_iff_exists.mp hLower
  obtain ⟨upper, hUpper⟩ := Option.isSome_iff_exists.mp hUpper
  have hStart : Off buffers m m := fun _ _ => rfl
  have hTurns : (Action.inTurn ((counting lower upper).map fun v =>
        if ∃ e ∈ b.conds, e.roundedValue? round env m = some 0 then .skip
          else turn round fresh inner b lower upper env v)).EqOn (Off buffers m)
      (Action.inTurn ((counting lower upper).map fun v =>
        (b.innerBody inner next).1.runRounded round fresh (env.set inner.head.iter v))) := by
    refine .inTurn (fun v _ => (h.eqOn_innerBody hLower hUpper hDefined next v).symm) fun v _ => ?_
    split
    · exact Action.keeps_skip
    · exact h.keeps_turn v
  rw [Stmt.runRounded_loop, hLower, hUpper, Option.bind_some, Option.bind_some, ← hTurns m hStart,
    h.run_around, Between.around, under_eq hDefined]
  by_cases hZero : ∃ e ∈ b.conds, e.roundedValue? round env m = some 0
  · simp only [if_pos hZero, Action.inTurn_skips]
  · simp only [if_neg hZero]
    rw [inTurn_turn (h.sunk hLower hUpper)]
    -- the bounds have the same values after the statements in front of the loop
    have hLoop : (inner.stmt.runRounded round fresh env).EqOn (Off buffers m)
        (Action.inTurn ((counting lower upper).map fun v =>
          inner.body.runRounded round fresh (env.set inner.head.iter v))) := by
      intro m' hm
      rw [LabelledLoop.stmt, Stmt.runRounded_loop, h.steady.lowerAvoids.roundedValue?_eq env hm, hLower,
        h.steady.upperAvoids.roundedValue?_eq env hm, hUpper]
      rfl
    exact ((Action.EqOn.symm fun _ _ => rfl).seq (hLoop.symm.seq (fun _ _ => rfl)
      (Action.Keeps.inTurn fun a ha => by
        obtain ⟨v, _, rfl⟩ := List.mem_map.mp ha
        exact h.keeps (fun u hu => h.mem_nodes_body hu) _ m))
      (h.keepsAll (fun w hw => List.mem_append_left _ hw) env m)) m hStart

/-- A new inner body that runs has looked at all conditions. -/
theorem isSome_of_innerBody {next : Nat} {r : Memory × List Write}
    (hRun : (b.innerBody inner next).1.runRounded round fresh env m = some r) :
    ∀ e ∈ b.conds, (e.roundedValue? round env m).isSome := by
  -- a guard that runs has looked at its condition
  have hLooked : ∀ {s : Site} {e : Expr} {body : Stmt} {a : Action},
      ((Stmt.guard s e body).runRounded round fresh env).seq a m = some r →
        (e.roundedValue? round env m).isSome := by
    intro s e body a h
    obtain ⟨between, before, after, hHead, _⟩ := Action.seq_eq_some.mp h
    obtain ⟨x, hx, _⟩ := Option.bind_eq_some_iff.mp hHead
    exact Option.isSome_iff_exists.mpr ⟨x, hx⟩
  obtain ⟨guarded, k, l, _, _, hEq, _, hGuarded⟩ := innerBody_eq b inner next
  rw [hEq, runRounded_sequenceAt, List.append_assoc, List.map_append, List.map_append] at hRun
  cases hBefore : b.before with
  | cons w ws =>
    rw [hBefore] at hRun
    exact (isSome_of_allOf (hLooked hRun)).1
  | nil =>
    rw [hBefore] at hRun
    rcases hGuarded with ⟨hNil, _⟩ | ⟨outer, e, id, hSplit, _, rfl⟩
    · intro e he
      rw [hNil] at he
      cases he
    · obtain ⟨hOuter, hLast⟩ := isSome_of_allOf (hLooked hRun)
      rw [hSplit]
      exact List.forall_mem_append.mpr ⟨hOuter, List.forall_mem_singleton.mpr hLast⟩

/-- **Sunk statements agree** with what they were: if both come to an end they make the same writes. -/
theorem agrees (h : Sinkable buffers inner t b) (next : Nat) (env : Env) :
    (t.runRounded round fresh env).Agrees
      ((Stmt.loop inner.site inner.head (b.innerBody inner next).1).runRounded round fresh env) := by
  intro m r r' hOld hNew
  have hTurns := hNew
  rw [Stmt.runRounded_loop] at hTurns
  obtain ⟨lower, hLower, hTurns⟩ := Option.bind_eq_some_iff.mp hTurns
  obtain ⟨upper, hUpper, hTurns⟩ := Option.bind_eq_some_iff.mp hTurns
  by_cases hLess : lower < upper
  · -- the first iteration has looked at all conditions
    have hDefined : ∀ e ∈ b.conds, (e.roundedValue? round env m).isSome := by
      intro e he
      rw [counting_cons hLess, List.map_cons, Action.inTurn_cons] at hTurns
      obtain ⟨between, before, after, hFirst, _⟩ := Action.seq_eq_some.mp hTurns
      rw [← value_eq (h.conds e he).1 (h.conds e he).2 (fun _ _ => rfl) lower]
      exact isSome_of_innerBody hFirst e he
    rw [h.run_eq (by rw [hLower]; rfl) (by rw [hUpper]; rfl) hDefined] at hNew
    exact Option.some.inj (hNew.symm.trans hOld)
  · -- without iterations nothing has moved into the loop
    have hNone : counting lower upper = [] := counting_eq_nil (Int.not_lt.mp hLess)
    obtain ⟨hBefore, hAfter⟩ := (h.sunk hLower hUpper).resolve_right fun hSunk => hLess hSunk.2
    have hInner : inner.stmt.runRounded round fresh env m = Action.skip m := by
      rw [LabelledLoop.stmt, Stmt.runRounded_loop, hLower, hUpper, Option.bind_some, Option.bind_some,
        hNone]
      rfl
    rw [hNone] at hTurns
    rw [h.run_around, Between.around, hBefore, hAfter, List.map_nil, Action.inTurn_nil,
      Action.skip_seq, Action.seq_skip] at hOld
    exact (Option.some.inj hTurns).symm.trans (Action.under_skip hInner hOld).symm

end Sinkable

/-- What making two loops a perfect nest comes to. -/
theorem perfect_pair {next : Nat} {outer : LabelledLoop} {nest : PerfectNest}
    (h : perfect writes next outer [inner] = .ok nest) :
    ∃ b, gather writes inner ⟨[], [], []⟩ outer.body = .ok b ∧ b.check inner.head = .ok ()
      ∧ nest = ⟨[(outer.site, outer.head), (inner.site, inner.head)], (b.innerBody inner next).1⟩ := by
  rw [perfect] at h
  obtain ⟨b, hGather, h⟩ := Outcome.bind_eq_ok.mp h
  obtain ⟨⟨⟩, hCheck, h⟩ := Outcome.bind_eq_ok.mp h
  obtain ⟨rest, hRest, h⟩ := Outcome.bind_eq_ok.mp h
  cases hRest
  cases h
  exact ⟨b, hGather, hCheck, rfl⟩

/-- The body of an outer loop may sink when the search has succeeded. -/
theorem sinkable_of_perfect {outer : LabelledLoop} {b : Between} {buffers : List String}
    (hGather : gather writes inner ⟨[], [], []⟩ outer.body = .ok b) (hCheck : b.check inner.head = .ok ())
    (hSole : ∀ u ∈ outer.body.nodes, u.id = inner.site.id → u = inner.stmt)
    (hWrites : ∀ x, outer.body.Writes x → x ∈ buffers) (hListed : buffers ⊆ writes)
    (hSteady : Steady buffers inner.head) : Sinkable buffers inner outer.body b := by
  obtain ⟨conds, before, after, hGathers⟩ := gather_gathers outer.body _ b hGather hSole
  obtain rfl : b = ⟨conds, before, after⟩ := by simpa using hGathers.result
  refine ⟨gather_peels _ _ _ hGather hSole, hGathers.inside, hCheck, fun e he => ?_, hSteady, hWrites⟩
  obtain ⟨hAvoids, hMentions⟩ := of_checkCondition (hGathers.checked e he)
  exact ⟨fun x hx => hAvoids x (hListed hx), hMentions⟩

/-- **Making a nest perfect keeps the writes**: when everything between two loops moves into the inner
    one, the inner loop becomes the whole body of the outer one, and if the program comes to an end
    before and after it makes the same writes in the same order. The program does the same in any case
    when, wherever it comes to the outer body, the bounds of the inner loop and the conditions around it
    have values. -/
theorem perfect_preserves_writes {t : Stmt} {next : Nat} {outer : LabelledLoop} {nest : PerfectNest}
    (hIds : t.ids.Nodup) (hOuter : outer.stmt ∈ t.nodes) (hInner : inner.stmt ∈ outer.body.nodes)
    (h : perfect writes next outer [inner] = .ok nest) (hListed : outer.stmt.written ⊆ writes)
    (hSteady : Steady outer.stmt.written inner.head) (round : Float → Int) (fresh : Memory) (env : Env)
    (m : Memory) :
    nest.stmt = .loop outer.site outer.head (.loop inner.site inner.head nest.body)
    ∧ (∀ r r', (t.rounded round).run fresh env m = some r →
        ((t.update outer.site.id fun _ => nest.stmt).rounded round).run fresh env m = some r' → r' = r)
    ∧ ((∀ env' m', Stmt.Enters fresh (outer.body.rounded round) (t.rounded round) env m env' m' →
          (∀ e ∈ [inner.head.lower, inner.head.upper], ((e.rounded round).value? env' m').isSome)
          ∧ ∀ s e body, Stmt.guard s e body ∈ outer.body.nodes → inner.stmt ∈ body.nodes →
              ((e.rounded round).value? env' m').isSome) →
        ((t.update outer.site.id fun _ => nest.stmt).rounded round).run fresh env m
          = (t.rounded round).run fresh env m) := by
  obtain ⟨b, hGather, hCheck, rfl⟩ := perfect_pair h
  have hBelow : ∀ u ∈ outer.body.nodes, u ∈ t.nodes :=
    fun u hu => Stmt.mem_nodes_trans (mem_nodes_stmt hu) hOuter
  have hSole : ∀ u ∈ outer.body.nodes, u.id = inner.site.id → u = inner.stmt := fun u hu hId =>
    List.inj_on_of_nodup_map hIds (hBelow u hu) (hBelow _ hInner) hId
  have hSinkable : Sinkable outer.stmt.written inner outer.body b := by
    refine sinkable_of_perfect hGather hCheck hSole (fun x hx => Stmt.mem_written ?_) hListed hSteady
    obtain ⟨s, is, v, hStore⟩ := hx
    exact ⟨s, is, v, mem_nodes_stmt hStore⟩
  -- the new inner loop takes the place of the outer body
  have hReplaces : Stmt.Replaces outer.body (.loop inner.site inner.head (b.innerBody inner next).1) t
      (t.update outer.site.id fun _ => .loop outer.site outer.head
        (.loop inner.site inner.head (b.innerBody inner next).1)) :=
    (Stmt.Replaces.loop outer.site outer.head .here).trans (Stmt.replaces_update t hIds hOuter)
  refine ⟨rfl, fun r r' => ?_, fun hDefined => ?_⟩
  · exact hReplaces.rounded.run_agrees (fun env => hSinkable.agrees next env) env m r r'
  · refine hReplaces.rounded.run_eq env m fun env' m' hEnters => ?_
    obtain ⟨hBounds, hConds⟩ := hDefined env' m' hEnters
    refine hSinkable.run_eq (hBounds _ (by simp)) (hBounds _ (by simp)) (fun e he => ?_) next
    rcases hSinkable.peels.conds.2 e he with hNil | ⟨s, body, hGuard, hBody⟩
    · cases hNil
    · exact hConds s e body hGuard hBody

/-- The inner loop of `rimmed`. -/
def rimmedInner : LabelledLoop where
  site := ⟨4, none⟩
  head := { iter := "j", lower := .int 0, upper := .int 3 }
  body := .store ⟨5, none⟩ "y" [.var "i", .var "j"] (.load "z" [.var "i"])

/-- A loop below a condition, with a statement in front of it and one behind it. -/
def rimmed : LabelledLoop where
  site := ⟨0, none⟩
  head := { iter := "i", lower := .int 0, upper := .var "n" }
  body := .guard ⟨1, none⟩ (.binary .gt (.var "n") (.int 0)) (.block ⟨2, none⟩
    [.store ⟨3, none⟩ "z" [.var "i"] (.int 5), rimmedInner.stmt,
      .store ⟨6, none⟩ "w" [.var "i"] (.load "y" [.var "i", .int 2])])

/-- The nest of two loops that `rimmed` becomes. -/
def rimmedNest : PerfectNest where
  loops := [(rimmed.site, rimmed.head), (rimmedInner.site, rimmedInner.head)]
  body := .block ⟨10, none⟩
    [.guard ⟨7, none⟩ ((Expr.binary .gt (.var "n") (.int 0)).both ((Expr.var "j").equals (.int 0)))
        (.store ⟨3, none⟩ "z" [.var "i"] (.int 5)),
      .guard ⟨9, none⟩ (.binary .gt (.var "n") (.int 0)) rimmedInner.body,
      .guard ⟨8, none⟩ ((Expr.binary .gt (.var "n") (.int 0)).both ((Expr.var "j").equals (.int 2)))
        (.store ⟨6, none⟩ "w" [.var "i"] (.load "y" [.var "i", .int 2]))]

theorem rimmed_writes_preserved :
    rimmed.stmt.ids.Nodup ∧ rimmedInner.stmt ∈ rimmed.body.nodes
      ∧ perfect ["w", "y", "z"] 7 rimmed [rimmedInner] = .ok rimmedNest
      ∧ rimmed.stmt.written ⊆ ["w", "y", "z"] ∧ Steady rimmed.stmt.written rimmedInner.head
      ∧ (rimmedNest.stmt.rounded fun _ => 1).run .blank (fun _ => 2) .blank
        = (rimmed.stmt.rounded fun _ => 1).run .blank (fun _ => 2) .blank := by
  have hIds : rimmed.stmt.ids.Nodup := by decide
  have hInner : rimmedInner.stmt ∈ rimmed.body.nodes := by
    simp [rimmed, Stmt.nodes_block, Stmt.self_mem_nodes]
  have hPerfect : perfect ["w", "y", "z"] 7 rimmed [rimmedInner] = .ok rimmedNest := by cbv
  have hListed : rimmed.stmt.written ⊆ ["w", "y", "z"] := by
    have hWritten : rimmed.stmt.written = ["w", "y", "z"] := by cbv
    rw [hWritten]
    exact fun _ h => h
  have hSteady : Steady rimmed.stmt.written rimmedInner.head :=
    ⟨fun _ _ => rfl, fun _ _ => rfl, rfl, rfl⟩
  refine ⟨hIds, hInner, hPerfect, hListed, hSteady, ?_⟩
  refine (perfect_preserves_writes hIds (Stmt.self_mem_nodes _) hInner hPerfect hListed hSteady
    (fun _ => 1) .blank (fun _ => 2) .blank).2.2 fun env' m' _ => ⟨fun e he => ?_, ?_⟩
  · rcases List.mem_pair.mp he with rfl | rfl <;> rfl
  · intro s e body hGuard _
    simp [rimmed, rimmedInner, LabelledLoop.stmt, Stmt.nodes_block] at hGuard
    obtain ⟨_, rfl, _⟩ := hGuard
    rfl

/-- The inner loop of `shielded`, whose upper bound divides by the scalar `n`. -/
def shieldedInner : LabelledLoop where
  site := ⟨4, some "L2"⟩
  head := { iter := "j", lower := .int 0, upper := .binary .floorDiv (.int 4) (.var "n") }
  body := .store ⟨5, none⟩ "y" [.var "i", .var "j"] (.int 1)

/-- A loop around a condition that shields the loop below it from a division by zero. -/
def shielded : LabelledLoop where
  site := ⟨2, some "L1"⟩
  head := { iter := "i", lower := .int 0, upper := .int 2 }
  body := .guard ⟨3, none⟩ (.binary .ne (.var "n") (.int 0)) shieldedInner.stmt

/-- A store in front of `shielded`. -/
def shieldedProgram : Stmt := .block ⟨0, none⟩ [.store ⟨1, none⟩ "z" [] (.int 1), shielded.stmt]

/-- The nest of two loops that `shielded` becomes. -/
def bareNest : PerfectNest where
  loops := [(shielded.site, shielded.head), (shieldedInner.site, shieldedInner.head)]
  body := .guard ⟨6, none⟩ (.binary .ne (.var "n") (.int 0)) shieldedInner.body

/-- When `n` is 0 the program makes one write. After the condition has moved into the inner loop, whose
    bounds are evaluated in front of it, the program divides by `n`. -/
theorem shielded_writes_lost :
    (shieldedProgram.ids.Nodup ∧ shielded.stmt ∈ shieldedProgram.nodes
      ∧ shieldedInner.stmt ∈ shielded.body.nodes
      ∧ perfect shielded.stmt.written 6 shielded [shieldedInner] = .ok bareNest
      ∧ Steady shielded.stmt.written shieldedInner.head)
    ∧ (shieldedProgram.run .blank (fun _ => 0) .blank).map Prod.snd = some [⟨"z", [], 1⟩]
    ∧ (shieldedProgram.update shielded.site.id fun _ => bareNest.stmt).run .blank (fun _ => 0) .blank
      = none := by
  refine ⟨⟨by decide, ?_, ?_, by cbv, ⟨fun _ _ => rfl, fun _ _ => rfl, rfl, rfl⟩⟩, rfl, rfl⟩
  · simp [shieldedProgram, Stmt.nodes_block, Stmt.self_mem_nodes]
  · simp [shielded, Stmt.self_mem_nodes]

end Restructure

end LoopNest

import LoopNest.Proofs.AffineForms
import LoopNest.Proofs.CapturedScalars
import LoopNest.Proofs.EnteredStatements

/-! # Runs of rounded programs, write by write

  A change forgets the writes of a run. This module compares runs with their writes.

  * **Actions** that are the same on some memories (`Action.EqOn`), and actions that have the same
    result where both have one (`Action.Agrees`). When a statement and what takes its place agree, the
    whole programs do (`Stmt.Replaces.run_agrees`).
  * **Rounded programs**: `Stmt.runRounded` is the run of a program whose float constants are rounded.
    It goes by the program itself, without the rounded one. -/

namespace LoopNest

/-! ## Actions -/

namespace Action

section eqOn

variable {P : Memory → Prop} {a a' b b' : Action}

/-- An action does not lead out of some memories. -/
def Keeps (P : Memory → Prop) (a : Action) : Prop := ∀ m m' w, P m → a m = some (m', w) → P m'

/-- Two actions are the same on some memories. -/
def EqOn (P : Memory → Prop) (a b : Action) : Prop := ∀ m, P m → a m = b m

theorem seq_eq_some {m : Memory} {r : Memory × List Write} : a.seq b m = some r ↔
    ∃ between before after, a m = some (between, before) ∧ b between = some (r.1, after)
      ∧ r.2 = before ++ after := by
  unfold seq
  simp only [Option.bind_eq_bind, Option.bind_eq_some_iff]
  constructor
  · rintro ⟨⟨between, before⟩, ha, ⟨last, after⟩, hb, hr⟩
    cases hr
    exact ⟨between, before, after, ha, hb, rfl⟩
  · rintro ⟨between, before, after, ha, hb, hr⟩
    exact ⟨_, ha, _, hb, congrArg some (Prod.ext rfl hr.symm)⟩

theorem keeps_skip : skip.Keeps P := by
  intro m m' w hm h
  cases h
  exact hm

theorem Keeps.seq (ha : a.Keeps P) (hb : b.Keeps P) : (a.seq b).Keeps P := by
  intro m m' w hm h
  obtain ⟨between, before, after, hBefore, hAfter, _⟩ := seq_eq_some.mp h
  exact hb _ _ _ (ha _ _ _ hm hBefore) hAfter

theorem Keeps.inTurn {as : List Action} (h : ∀ a ∈ as, a.Keeps P) : (inTurn as).Keeps P := by
  induction as with
  | nil => exact keeps_skip
  | cons a as ih =>
    exact (h a List.mem_cons_self).seq (ih fun b hb => h b (List.mem_cons_of_mem a hb))

theorem EqOn.symm (h : a.EqOn P b) : b.EqOn P a := fun m hm => (h m hm).symm

theorem EqOn.seq (ha : a.EqOn P a') (hb : b.EqOn P b') (hKeeps : a.Keeps P) :
    (a.seq b).EqOn P (a'.seq b') := by
  intro m hm
  unfold Action.seq
  rw [← ha m hm]
  cases hRun : a m with
  | none => rfl
  | some r => simp only [Option.bind_eq_bind, Option.bind_some, hb r.1 (hKeeps _ _ _ hm hRun)]

theorem EqOn.inTurn {α : Type} {f g : α → Action} {xs : List α} (h : ∀ x ∈ xs, (f x).EqOn P (g x))
    (hKeeps : ∀ x ∈ xs, (f x).Keeps P) :
    (inTurn (xs.map f)).EqOn P (inTurn (xs.map g)) := by
  intro m hm
  refine (inTurn_congr fun before x after between w hSplit hBefore => ?_).symm
  subst hSplit
  refine (h x (by simp) between (Keeps.inTurn ?_ m between w hm hBefore)).symm
  intro a ha
  obtain ⟨y, hy, rfl⟩ := List.mem_map.mp ha
  exact hKeeps y (List.mem_append_left _ hy)

end eqOn

/-! ### First and last iteration -/

section turns

variable {lower upper : Int}

/-- What runs in front of a loop may run in its first iteration. -/
theorem inTurn_first (h : lower < upper) (first : Action) (each : Int → Action) :
    inTurn ((counting lower upper).map fun v => (if v = lower then first else skip).seq (each v))
      = first.seq (inTurn ((counting lower upper).map each)) := by
  rw [counting_cons h, List.map_cons, List.map_cons, inTurn_cons, inTurn_cons, if_pos rfl, seq_assoc]
  congr 3
  refine List.map_congr_left fun v hv => ?_
  have hNe : v ≠ lower := by
    have := mem_counting.mp hv
    omega
  rw [if_neg hNe, skip_seq]

/-- What runs behind a loop may run in its last iteration. -/
theorem inTurn_last (h : lower < upper) (last : Action) (each : Int → Action) :
    inTurn ((counting lower upper).map fun v => (each v).seq (if v = upper - 1 then last else skip))
      = (inTurn ((counting lower upper).map each)).seq last := by
  rw [counting_snoc h, List.map_append, List.map_append, inTurn_append, inTurn_append, seq_assoc]
  have hEarlier : (counting lower (upper - 1)).map (fun v =>
      (each v).seq (if v = upper - 1 then last else skip))
        = (counting lower (upper - 1)).map each := by
    refine List.map_congr_left fun v hv => ?_
    have hNe : v ≠ upper - 1 := by
      have := mem_counting.mp hv
      omega
    rw [if_neg hNe, seq_skip]
  rw [hEarlier]
  simp [seq_skip]

end turns

/-! ### Conditions -/

/-- An action that runs when a value is not zero. -/
def guardedBy (value : Memory → Option Int) (a : Action) : Action :=
  fun m => (value m).bind fun v => if v = 0 then skip m else a m

/-- An action under conditions, whose values are looked at one after the other. -/
def under (values : List (Memory → Option Int)) (a : Action) : Action := values.foldr guardedBy a

@[simp] theorem under_nil (a : Action) : under [] a = a := rfl

theorem under_cons (value : Memory → Option Int) (values : List (Memory → Option Int)) (a : Action) :
    under (value :: values) a = guardedBy value (under values a) := rfl

theorem under_append (values more : List (Memory → Option Int)) (a : Action) :
    under (values ++ more) a = under values (under more a) := List.foldr_append

/-- Under conditions nothing happens where nothing would happen without them. -/
theorem under_skip {values : List (Memory → Option Int)} {a : Action} {m : Memory}
    {r : Memory × List Write} (hSkip : a m = skip m) (h : under values a m = some r) : r = (m, []) := by
  induction values with
  | nil => exact Option.some.inj (h.symm.trans hSkip)
  | cons value values ih =>
    obtain ⟨v, _, hRest⟩ := Option.bind_eq_some_iff.mp h
    split at hRest
    · exact (Option.some.inj hRest).symm
    · exact ih hRest

/-! ### Agreement -/

section agrees

variable {a a' b b' : Action}

/-- Where both actions have a result they have the same. -/
def Agrees (a b : Action) : Prop := ∀ m r r', a m = some r → b m = some r' → r' = r

theorem Agrees.refl (a : Action) : a.Agrees a := fun _ _ _ h h' => Option.some.inj (h'.symm.trans h)

theorem Agrees.seq (ha : a.Agrees a') (hb : b.Agrees b') : (a.seq b).Agrees (a'.seq b') := by
  intro m r r' h h'
  obtain ⟨between, before, after, hBefore, hAfter, hr⟩ := seq_eq_some.mp h
  obtain ⟨between', before', after', hBefore', hAfter', hr'⟩ := seq_eq_some.mp h'
  obtain ⟨rfl, rfl⟩ := Prod.mk.inj (ha _ _ _ hBefore hBefore')
  obtain ⟨hLast, rfl⟩ := Prod.mk.inj (hb _ _ _ hAfter hAfter')
  exact Prod.ext hLast (hr'.trans hr.symm)

theorem Agrees.inTurn {α : Type} {f g : α → Action} {xs : List α}
    (h : ∀ x ∈ xs, (f x).Agrees (g x)) :
    (Action.inTurn (xs.map f)).Agrees (Action.inTurn (xs.map g)) := by
  induction xs with
  | nil => exact .refl _
  | cons x xs ih =>
    exact (h x List.mem_cons_self).seq (ih fun y hy => h y (List.mem_cons_of_mem x hy))

theorem Agrees.withLocal (h : a.Agrees b) (n : String) (cells : Cells) :
    (a.withLocal n cells).Agrees (b.withLocal n cells) := by
  intro m r r' hRun hRun'
  simp only [Action.withLocal, Option.bind_eq_bind, Option.bind_eq_some_iff] at hRun hRun'
  obtain ⟨⟨after, w⟩, hBody, hr⟩ := hRun
  obtain ⟨⟨after', w'⟩, hBody', hr'⟩ := hRun'
  obtain ⟨rfl, rfl⟩ := Prod.mk.inj (h _ _ _ hBody hBody')
  exact Option.some.inj (hr'.symm.trans hr)

/-- Conditions that are looked at in both actions. -/
theorem Agrees.bind {α : Type} {value : Memory → Option α} {f g : α → Action}
    (h : ∀ v, (f v).Agrees (g v)) :
    Agrees (fun m => (value m).bind fun v => f v m) fun m => (value m).bind fun v => g v m := by
  intro m r r' hRun hRun'
  obtain ⟨v, hv, hr⟩ := Option.bind_eq_some_iff.mp hRun
  obtain ⟨v', hv', hr'⟩ := Option.bind_eq_some_iff.mp hRun'
  obtain rfl : v' = v := Option.some.inj (hv'.symm.trans hv)
  exact h v' m r r' hr hr'

end agrees

end Action

namespace Stmt

/-- **Agreement of programs**: when a statement and what takes its place agree, the whole programs
    agree. -/
theorem Replaces.run_agrees {u v t t' : Stmt} {fresh : Memory} (h : Replaces u v t t')
    (hSame : ∀ env, (u.run fresh env).Agrees (v.run fresh env)) :
    ∀ env, (t.run fresh env).Agrees (t'.run fresh env) := by
  induction h with
  | here => exact hSame
  | decl s n b _ ih =>
    intro env
    simp only [run]
    split
    · exact (ih env).withLocal _ _
    · exact ih env
  | loop s head _ ih =>
    exact fun env => .bind fun lower => .bind fun upper => .inTurn fun v _ => ih _
  | guard s e _ ih =>
    refine fun env => .bind fun x => ?_
    split
    · exact .refl _
    · exact ih env
  | yes s e no _ ih =>
    refine fun env => .bind fun x => ?_
    split
    · exact .refl _
    · exact ih env
  | no s e yes _ ih =>
    refine fun env => .bind fun x => ?_
    split
    · exact ih env
    · exact .refl _
  | block s before after _ ih =>
    intro env
    simp only [run, runAll_eq_inTurn, List.map_append, List.map_cons, Action.inTurn_append,
      Action.inTurn_cons]
    exact (Action.Agrees.refl _).seq ((ih env).seq (.refl _))

/-- What takes the place of something in a statement takes its place in the program as well. -/
theorem Replaces.trans {u v w w' t t' : Stmt} (h : Replaces u v w w') (h' : Replaces w w' t t') :
    Replaces u v t t' := by
  induction h' with
  | here => exact h
  | decl s n b _ ih => exact .decl s n b ih
  | loop s head _ ih => exact .loop s head ih
  | guard s e _ ih => exact .guard s e ih
  | yes s e no _ ih => exact .yes s e no ih
  | no s e yes _ ih => exact .no s e yes ih
  | block s before after _ ih => exact .block s before after ih

end Stmt

/-! ## Rounded programs -/

section rounded

variable (round : Float → Int)

/-- The value of an expression in which float constants are rounded. -/
def Expr.roundedValue? (env : Env) (m : Memory) (e : Expr) : Option Int :=
  (e.rounded round).value? env m

/-- What a program does when its float constants are rounded. -/
def Stmt.runRounded (fresh : Memory) (env : Env) (t : Stmt) : Action :=
  (t.rounded round).run fresh env

namespace Expr

variable {round}

theorem roundedValue?_eq (env : Env) (m : Memory) (e : Expr) :
    e.roundedValue? round env m = (e.rounded round).valueWith? (.reference .blank) env m :=
  (valueWith?_reference .blank env m _).symm

theorem roundedValue?_set {e : Expr} {x : String} (h : e.mentions x = false) (env : Env) (v : Int)
    (m : Memory) : e.roundedValue? round (env.set x v) m = e.roundedValue? round env m := by
  rw [roundedValue?_eq, roundedValue?_eq]
  refine valueWith?_set ?_ _ env v m
  rw [Bool.eq_false_iff, Ne, mentions_iff] at h ⊢
  rwa [scalars_rounded]

theorem Avoids.roundedValue?_eq {e : Expr} {buffers : List String} (h : e.Avoids buffers) (env : Env)
    {m m' : Memory} (hSame : ∀ b, b ∉ buffers → m' b = m b) :
    e.roundedValue? round env m' = e.roundedValue? round env m := by
  rw [Expr.roundedValue?_eq, Expr.roundedValue?_eq]
  have hRounded : (e.rounded round).Avoids buffers := by
    intro b hb
    have hNot := h b hb
    rw [Bool.eq_false_iff, Ne, reads_iff] at hNot ⊢
    rwa [buffers_rounded]
  exact hRounded.valueWith?_eq _ env hSame

/-- Expressions with affine forms have no float constants. -/
theorem rounded_of_linear? {κ : Type} [Ord κ] {resolve : String → Option (Affine.Form κ)} :
    ∀ (e : Expr) {f : Affine.Form κ}, e.linear? resolve = some f → e.rounded round = e := by
  refine Expr.ind ?int ?float ?bool ?var ?load ?unary ?binary
  case int => exact fun _ _ _ => rfl
  case float => exact fun _ _ h => by cases h
  case bool => exact fun _ _ _ => rfl
  case var => exact fun _ _ _ => rfl
  case load => exact fun _ _ _ _ h => by cases h
  case unary =>
    intro op e ih f h
    cases op with
    | neg =>
      obtain ⟨g, hg, _⟩ := Option.bind_eq_some_iff.mp h
      rw [rounded, ih hg]
    | not => cases h
  case binary =>
    intro op a b iha ihb f h
    obtain ⟨g, hg, h⟩ := Option.bind_eq_some_iff.mp h
    obtain ⟨g', hg', _⟩ := Option.bind_eq_some_iff.mp h
    rw [rounded, iha hg, ihb hg']

/-- Bounds with a constant distance have values that far apart, also when they are rounded. -/
theorem distance_of_rounded {begin stop : Expr} {n : Int} (h : constantDistance? begin stop = some n)
    {env : Env} {m : Memory} {lower upper : Int} (hLower : begin.roundedValue? round env m = some lower)
    (hUpper : stop.roundedValue? round env m = some upper) : upper - lower = n := by
  obtain ⟨f, hf, hRest⟩ := Option.bind_eq_some_iff.mp h
  obtain ⟨g, hg, _⟩ := Option.bind_eq_some_iff.mp hRest
  rw [roundedValue?_eq, rounded_of_linear? _ hf] at hLower
  rw [roundedValue?_eq, rounded_of_linear? _ hg] at hUpper
  exact distance_of_constantDistance? h hLower hUpper

/-- One less than a bound. -/
theorem roundedValue?_minus_one {e : Expr} {env : Env} {m : Memory} {x : Int}
    (h : e.roundedValue? round env m = some x) :
    (e.minus (.int 1)).roundedValue? round env m = some (x - 1) := by
  rcases minus_cases e (.int 1) with ⟨_, hZero⟩ | hEq | ⟨x', y', hx, hy, hEq⟩
  · cases hZero
  · rw [hEq, roundedValue?, sub, rounded, value?]
    rw [roundedValue?] at h
    simp [h, rounded, value?, BinaryOp.value?]
  · cases hy
    cases e <;> cases hx
    cases h
    rw [hEq]
    rfl

end Expr

namespace Stmt

variable {round} {fresh : Memory} {t : Stmt}

theorem nodes_rounded : ∀ t : Stmt, (t.rounded round).nodes = t.nodes.map (rounded round) := by
  refine children_ind fun t ih => ?_
  have hChildren : (t.rounded round).children = t.children.map (rounded round) := by
    cases t <;> simp [children]
  rw [nodes_eq_cons, nodes_eq_cons t, inside, inside, hChildren, List.flatMap_map, List.map_cons,
    List.map_flatMap, List.flatMap_congr ih]

theorem Uses.of_rounded {x : String} (h : (t.rounded round).Uses x) : t.Uses x := by
  obtain ⟨u, hu, e, he, hx⟩ := h
  rw [nodes_rounded] at hu
  obtain ⟨w, hw, rfl⟩ := List.mem_map.mp hu
  have hExprs : (w.rounded round).exprs = w.exprs.map (Expr.rounded round) := by
    have hHead := congrArg List.head? (phrases_mapExprs (Expr.rounded round) w)
    rw [phrases_eq_cons, phrases_eq_cons w] at hHead
    exact Option.some.inj hHead
  rw [hExprs] at he
  obtain ⟨d, hd, rfl⟩ := List.mem_map.mp he
  rw [Expr.scalars_rounded] at hx
  exact ⟨w, hw, d, hd, hx⟩

theorem Writes.of_rounded {x : String} (h : (t.rounded round).Writes x) : t.Writes x := by
  obtain ⟨s, is, v, hStore⟩ := h
  rw [nodes_rounded] at hStore
  obtain ⟨w, hw, hEq⟩ := List.mem_map.mp hStore
  cases w with
  | store s' b is' v' =>
    rw [rounded_store] at hEq
    cases hEq
    exact ⟨_, _, _, hw⟩
  | block s' ts =>
    rw [rounded_block] at hEq
    cases hEq
  | _ => cases hEq

theorem runRounded_loop (env : Env) (s : Site) (h : LoopHead) (body : Stmt) (m : Memory) :
    (Stmt.loop s h body).runRounded round fresh env m
      = (h.lower.roundedValue? round env m).bind fun lower =>
          (h.upper.roundedValue? round env m).bind fun upper => Action.inTurn
            ((counting lower upper).map fun v => body.runRounded round fresh (env.set h.iter v)) m := rfl

theorem runRounded_guard (env : Env) (s : Site) (e : Expr) (body : Stmt) :
    (Stmt.guard s e body).runRounded round fresh env
      = Action.guardedBy (fun m => e.roundedValue? round env m) (body.runRounded round fresh env) := rfl

theorem runRounded_block (env : Env) (s : Site) (ts : List Stmt) :
    (Stmt.block s ts).runRounded round fresh env
      = Action.inTurn (ts.map (runRounded round fresh env)) := by
  rw [runRounded, rounded_block, run, runAll_eq_inTurn, List.map_map]
  rfl

/-- Setting a scalar that a program does not use changes nothing. -/
theorem runRounded_set {x : String} (hx : ¬ t.Uses x) (env : Env) (v : Int) :
    t.runRounded round fresh (env.set x v) = t.runRounded round fresh env := by
  refine run_congr _ _ _ fun y hy => Env.set_ne ?_
  rintro rfl
  exact hx hy.of_rounded

/-- A run changes no other buffers than those that the program writes. -/
theorem keeps_runRounded {buffers : List String} (hWrites : ∀ x, t.Writes x → x ∈ buffers)
    (env : Env) (start : Memory) :
    (t.runRounded round fresh env).Keeps fun m => ∀ x, x ∉ buffers → m x = start x := by
  intro m m' w hm hRun x hx
  have hChange : (t.rounded round).change (.reference fresh) env m = some m' := by
    rw [change_reference, show (t.rounded round).run fresh env m = some (m', w) from hRun]
    rfl
  rw [keeps_of_change hChange fun h => hx (hWrites x h.of_rounded), hm x hx]

/-- Rounding goes over to replaced statements. -/
theorem Replaces.rounded {u v t t' : Stmt} (h : Replaces u v t t') :
    Replaces (u.rounded round) (v.rounded round) (t.rounded round) (t'.rounded round) := by
  induction h with
  | here => exact .here
  | decl s n b _ ih => exact .decl s n _ ih
  | loop s head _ ih => exact .loop s _ ih
  | guard s e _ ih => exact .guard s _ ih
  | yes s e no _ ih => exact .yes s _ _ ih
  | no s e yes _ ih => exact .no s _ _ ih
  | block s before after _ ih =>
    rw [rounded_block, rounded_block, List.map_append, List.map_cons, List.map_append, List.map_cons]
    exact .block s _ _ ih

end Stmt

end rounded

end LoopNest

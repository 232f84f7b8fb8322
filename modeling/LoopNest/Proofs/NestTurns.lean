import Mathlib.Data.List.Nodup
import LoopNest.Proofs.LoggedRuns
import LoopNest.Proofs.PerfectNests

/-! # The iterations of a perfect nest

  A nest whose bounds mean the same everywhere runs through one environment after the other
  (`turns`). This module is about their order.

  * **Membership**: which environments they are does not depend on the order of the loops
    (`mem_turns`, `turns_perm`).
  * **Order**: they come in lexicographic order (`pairwise_turns`).
  * **Runs**: the nest runs its innermost body in each of them (`eqOn_nest`). -/

namespace LoopNest

/-! ## Environments -/

/-- The environments of the innermost body of loops that run through given values. -/
def turns (values : LoopHead → List Int) (env : Env) : List LoopHead → List Env
  | [] => [env]
  | h :: rest => (values h).flatMap fun v => turns values (env.set h.iter v) rest

/-- The first scalar of a list that differs in two environments is less in the first one. -/
def Precedes : List String → Env → Env → Prop
  | [], _, _ => False
  | x :: rest, e, e' => e x < e' x ∨ e x = e' x ∧ Precedes rest e e'

variable {values : LoopHead → List Int}

/-- Which environments a nest runs through. -/
theorem mem_turns {hs : List LoopHead} {env e : Env} (hIters : (hs.map (·.iter)).Nodup) :
    e ∈ turns values env hs ↔
      (∀ x, x ∉ hs.map (·.iter) → e x = env x) ∧ ∀ h ∈ hs, e h.iter ∈ values h := by
  induction hs generalizing env with
  | nil =>
    simp only [turns, List.mem_singleton, List.map_nil, List.not_mem_nil, not_false_eq_true,
      forall_const, false_imp_iff, and_true]
    exact ⟨fun h x => by rw [h], fun h => funext h⟩
  | cons h rest ih =>
    obtain ⟨hFirst, hRest⟩ := List.nodup_cons.mp hIters
    simp only [turns, List.mem_flatMap, ih hRest]
    constructor
    · rintro ⟨v, hv, hOff, hIn⟩
      have hHere : e h.iter = v := by rw [hOff _ hFirst, Env.set_self]
      refine ⟨fun x hx => ?_, ?_⟩
      · rw [List.map_cons, List.mem_cons, not_or] at hx
        rw [hOff x hx.2, Env.set_ne hx.1]
      · intro h' hh'
        rcases List.mem_cons.mp hh' with rfl | hh'
        · rwa [hHere]
        · exact hIn h' hh'
    · rintro ⟨hOff, hIn⟩
      refine ⟨e h.iter, hIn h List.mem_cons_self, fun x hx => ?_,
        fun h' hh' => hIn h' (List.mem_cons_of_mem h hh')⟩
      by_cases hHere : x = h.iter
      · rw [hHere, Env.set_self]
      · rw [Env.set_ne hHere, hOff x]
        rw [List.map_cons, List.mem_cons, not_or]
        exact ⟨hHere, hx⟩

theorem Precedes.irrefl {names : List String} {e : Env} : ¬ Precedes names e e := by
  induction names with
  | nil => exact fun h => h
  | cons x rest ih =>
    rintro (h | ⟨_, h⟩)
    · omega
    · exact ih h

/-- The environments of a nest come in lexicographic order. -/
theorem pairwise_turns {hs : List LoopHead} {env : Env} (hIters : (hs.map (·.iter)).Nodup)
    (hValues : ∀ h ∈ hs, (values h).Pairwise (· < ·)) :
    (turns values env hs).Pairwise (Precedes (hs.map (·.iter))) := by
  induction hs generalizing env with
  | nil => exact List.pairwise_singleton _ _
  | cons h rest ih =>
    obtain ⟨hFirst, hRest⟩ := List.nodup_cons.mp hIters
    have hHere : ∀ {v : Int} {e : Env}, e ∈ turns values (env.set h.iter v) rest →
        e h.iter = v := by
      intro v e he
      rw [((mem_turns hRest).mp he).1 _ hFirst, Env.set_self]
    simp only [turns, List.map_cons]
    rw [List.pairwise_flatMap]
    constructor
    · intro v _
      have hInner : (turns values (env.set h.iter v) rest).Pairwise (Precedes (rest.map (·.iter))) :=
        ih hRest fun h' hh' => hValues h' (List.mem_cons_of_mem h hh')
      refine List.Pairwise.imp_of_mem ?_ hInner
      intro e e' he he' hPrecedes
      exact .inr ⟨by rw [hHere he, hHere he'], hPrecedes⟩
    · refine List.Pairwise.imp ?_ (hValues h List.mem_cons_self)
      intro v w hvw e he e' he'
      refine .inl ?_
      rw [hHere he, hHere he']
      exact hvw

theorem nodup_turns {hs : List LoopHead} {env : Env} (hIters : (hs.map (·.iter)).Nodup)
    (hValues : ∀ h ∈ hs, (values h).Pairwise (· < ·)) : (turns values env hs).Nodup := by
  refine List.Pairwise.imp ?_ (pairwise_turns hIters hValues)
  rintro e e' hPrecedes rfl
  exact hPrecedes.irrefl

/-- Loops in another order run through the same environments. -/
theorem turns_perm {hs hs' : List LoopHead} (hPerm : hs'.Perm hs) {env : Env}
    (hIters : (hs.map (·.iter)).Nodup) (hValues : ∀ h ∈ hs, (values h).Pairwise (· < ·)) :
    (turns values env hs').Perm (turns values env hs) := by
  have hIters' : (hs'.map (·.iter)).Nodup := (hPerm.map _).nodup_iff.mpr hIters
  rw [List.perm_ext_iff_of_nodup
    (nodup_turns hIters' fun h hh => hValues h (hPerm.subset hh)) (nodup_turns hIters hValues)]
  intro e
  rw [mem_turns hIters', mem_turns hIters]
  have hNames : ∀ x, x ∈ hs'.map (·.iter) ↔ x ∈ hs.map (·.iter) := fun x => (hPerm.map _).mem_iff
  simp only [hNames, hPerm.mem_iff]

/-! ## Traces -/

namespace Trace

theorem inTurn_append (as bs : List (Change × Trace)) (m : Memory) :
    inTurn (as ++ bs) m
      = inTurn as m ++ (Change.inTurn (as.map Prod.fst) m).elim [] (inTurn bs) := by
  induction as generalizing m with
  | nil => rfl
  | cons a as ih =>
    rw [List.cons_append, inTurn, inTurn, List.map_cons, Change.inTurn_cons, Change.seq]
    cases a.1 m with
    | none => simp
    | some between =>
      rw [Option.elim_some, Option.elim_some, ih, List.append_assoc]
      rfl

theorem inTurn_flatMap {α : Type} (f : α → List (Change × Trace)) (xs : List α) :
    inTurn (xs.flatMap f)
      = inTurn (xs.map fun x => (Change.inTurn ((f x).map Prod.fst), inTurn (f x))) := by
  induction xs with
  | nil => rfl
  | cons x xs ih =>
    funext m
    rw [List.flatMap_cons, inTurn_append, ih]
    rfl

/-- Changes that are the same touch no less when each touches no less. -/
theorem inTurn_subset {α : Type} {f g : α → Change × Trace} {P : Memory → Prop} {xs : List α}
    (hSame : ∀ x ∈ xs, (f x).1.EqOn P (g x).1) (hKeeps : ∀ x ∈ xs, (g x).1.Keeps P)
    (hTouches : ∀ x ∈ xs, ∀ m, P m → (f x).2 m ⊆ (g x).2 m) {m : Memory} (hm : P m) :
    inTurn (xs.map f) m ⊆ inTurn (xs.map g) m := by
  induction xs generalizing m with
  | nil => exact List.Subset.refl _
  | cons x xs ih =>
    rw [List.map_cons, List.map_cons]
    refine List.append_subset.mpr ⟨List.subset_append_of_subset_left _
      (hTouches x List.mem_cons_self m hm), List.subset_append_of_subset_right _ ?_⟩
    rw [hSame x List.mem_cons_self m hm]
    cases hRun : (g x).1 m with
    | none => exact List.nil_subset _
    | some between =>
      exact ih (fun y hy => hSame y (List.mem_cons_of_mem x hy))
        (fun y hy => hKeeps y (List.mem_cons_of_mem x hy))
        (fun y hy => hTouches y (List.mem_cons_of_mem x hy))
        (hKeeps x List.mem_cons_self m between hm hRun)

end Trace

/-! ## Runs -/

namespace Restructure

/-- Loops around a body, outermost first. -/
def nestOf (loops : List (Site × LoopHead)) (body : Stmt) : Stmt :=
  loops.foldr (fun l body => .loop l.1 l.2 body) body

theorem PerfectNest.stmt_eq (n : PerfectNest) : n.stmt = nestOf n.loops n.body := rfl

/-- The values of a loop as its bounds have them at the start. -/
def valuesAt (c : Conventions) (env : Env) (m : Memory) (h : LoopHead) : List Int :=
  counting ((h.lower.valueWith? c env m).getD 0) ((h.upper.valueWith? c env m).getD 0)

/-- Bounds that have values at the start and neither mention some scalars nor read some buffers. -/
structure Fixed (c : Conventions) (writes names : List String) (env : Env) (m : Memory)
    (h : LoopHead) : Prop where
  lowerAvoids : h.lower.Avoids writes
  upperAvoids : h.upper.Avoids writes
  lowerFree : ∀ x ∈ names, h.lower.mentions x = false
  upperFree : ∀ x ∈ names, h.upper.mentions x = false
  lower : (h.lower.valueWith? c env m).isSome
  upper : (h.upper.valueWith? c env m).isSome

variable {c : Conventions} {writes names : List String} {start : Env} {first : Memory}

/-- Expressions that depend on nothing that a nest changes have the value they had at the start. -/
theorem value_of_fixed {e : Expr} (hAvoids : e.Avoids writes)
    (hFree : ∀ x ∈ names, e.mentions x = false) {env : Env} (hEnv : ∀ x, x ∉ names → env x = start x)
    {m : Memory} (hm : OffBuffers writes first m) :
    e.valueWith? c env m = e.valueWith? c start first := by
  rw [hAvoids.valueWith?_eq c env hm.2]
  refine Expr.valueWith?_congr_names ?_ fun _ _ => rfl
  intro x hx
  apply hEnv
  intro hName
  exact absurd (Expr.mentions_iff.mpr hx) (by rw [hFree x hName]; decide)

theorem Fixed.lower_eq {h : LoopHead} (hFixed : Fixed c writes names start first h) {env : Env}
    (hEnv : ∀ x, x ∉ names → env x = start x) {m : Memory} (hm : OffBuffers writes first m) :
    h.lower.valueWith? c env m = some ((h.lower.valueWith? c start first).getD 0) := by
  obtain ⟨v, hv⟩ := Option.isSome_iff_exists.mp hFixed.lower
  rw [value_of_fixed hFixed.lowerAvoids hFixed.lowerFree hEnv hm, hv]
  rfl

theorem Fixed.upper_eq {h : LoopHead} (hFixed : Fixed c writes names start first h) {env : Env}
    (hEnv : ∀ x, x ∉ names → env x = start x) {m : Memory} (hm : OffBuffers writes first m) :
    h.upper.valueWith? c env m = some ((h.upper.valueWith? c start first).getD 0) := by
  obtain ⟨v, hv⟩ := Option.isSome_iff_exists.mp hFixed.upper
  rw [value_of_fixed hFixed.upperAvoids hFixed.upperFree hEnv hm, hv]
  rfl

/-- A nest changes no other buffers than its body. -/
theorem keeps_nest {body : Stmt} (hWrites : ∀ x, body.Writes x → x ∈ writes)
    (loops : List (Site × LoopHead)) (env : Env) :
    ((nestOf loops body).change c env).Keeps (OffBuffers writes first) := by
  apply keeps_offBuffers
  rintro x ⟨s, is, v, hStore⟩
  apply hWrites x
  refine ⟨s, is, v, ?_⟩
  induction loops with
  | nil => exact hStore
  | cons l rest ih =>
    apply ih
    simpa [nestOf] using hStore

/-- **Runs of a nest**: a nest runs its body in one environment after the other. -/
theorem eqOn_nest {body : Stmt} (hWrites : ∀ x, body.Writes x → x ∈ writes) :
    ∀ (loops : List (Site × LoopHead)) (env : Env),
      (∀ l ∈ loops, Fixed c writes names start first l.2) → (∀ l ∈ loops, l.2.iter ∈ names) →
      (∀ x, x ∉ names → env x = start x) →
      ((nestOf loops body).change c env).EqOn (OffBuffers writes first)
        (Change.inTurn ((turns (valuesAt c start first) env (loops.map (·.2))).map
          fun e => body.change c e)) := by
  intro loops
  induction loops with
  | nil =>
    intro env _ _ _
    show (body.change c env).EqOn _ ((body.change c env).seq .skip)
    rw [Change.seq_skip]
    exact .refl _
  | cons l rest ih =>
    intro env hFixed hNames hEnv m hm
    obtain ⟨s, h⟩ := l
    have hHere := hFixed (s, h) List.mem_cons_self
    have hInner : ∀ v, ((nestOf rest body).change c (env.set h.iter v)).EqOn
        (OffBuffers writes first) (Change.inTurn
          ((turns (valuesAt c start first) (env.set h.iter v) (rest.map (·.2))).map
            fun e => body.change c e)) := by
      intro v
      refine ih _ (fun l hl => hFixed l (List.mem_cons_of_mem _ hl))
        (fun l hl => hNames l (List.mem_cons_of_mem _ hl)) ?_
      intro x hx
      rw [Env.set_ne, hEnv x hx]
      rintro rfl
      exact hx (hNames (s, h) List.mem_cons_self)
    show (Stmt.loop s h (nestOf rest body)).change c env m = _
    rw [Stmt.change_loop, hHere.lower_eq hEnv hm, hHere.upper_eq hEnv hm, Option.bind_some,
      Option.bind_some]
    rw [Change.EqOn.inTurn (fun v _ => hInner v) (fun v _ => keeps_nest hWrites rest _) m hm,
      List.map_cons, turns, List.map_flatMap, Change.inTurn_flatMap]
    rfl

end Restructure

end LoopNest

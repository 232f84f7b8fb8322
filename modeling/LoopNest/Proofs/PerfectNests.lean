import Mathlib.Data.List.Nodup
import LoopNest.Proofs.Sinking

/-! # Perfect nests

  `Restructure.perfect` makes a chain of loops perfect, one inner loop after the other. The perfect
  nest runs as the chain did (`Restructure.PerfectNest.Makes.runs`).

  The statements of the new innermost body are old ones, or they are blocks and guards that hold old
  ones (`Restructure.Provenance`). Nothing else is created, so whatever is true of the old statements
  and of the conditions of the guards stays true. -/

namespace LoopNest.Restructure

open Stmt (LabelledLoop)

/-! ## Where statements come from -/

/-- One of some old statements, or one that was created with a number from `first` on to hold
    others. The conditions of created guards have a property. -/
inductive Provenance (olds : List Stmt) (first : Nat) (C : Expr → Prop) (u : Stmt) : Prop where
  | old (h : u ∈ olds)
  | block (s : Site) (ts : List Stmt) (h : u = .block s ts) (hNew : first ≤ s.id)
  | guard (s : Site) (e : Expr) (body : Stmt) (h : u = .guard s e body) (hNew : first ≤ s.id)
    (hCond : C e)

/-- What the conditions of created guards have in common. -/
structure CondClosed (olds : List Stmt) (C : Expr → Prop) (inner : LabelledLoop) : Prop where
  old : ∀ s e body, Stmt.guard s e body ∈ olds → C e
  both : ∀ a b, C a → C b → C (a.both b)
  first : C ((Expr.var inner.head.iter).equals inner.head.lower)
  last : C ((Expr.var inner.head.iter).equals (inner.head.upper.minus (.int 1)))

variable {olds : List Stmt} {first : Nat} {C : Expr → Prop}

theorem Provenance.cond (hOld : ∀ s e body, Stmt.guard s e body ∈ olds → C e) {s : Site}
    {e : Expr} {body : Stmt} (h : Provenance olds first C (.guard s e body)) : C e := by
  cases h with
  | old h => exact hOld s e body h
  | block s' ts h => cases h
  | guard s' e' body' h _ hCond =>
    cases h
    exact hCond

/-- A statement with the number of an old one is that one. -/
theorem Provenance.eq_of_id {u v : Stmt} (hIds : (olds.map Stmt.id).Nodup)
    (hLess : ∀ w ∈ olds, w.id < first) (hu : Provenance olds first C u) (hv : v ∈ olds)
    (hId : u.id = v.id) : u = v := by
  have hv' := hLess v hv
  cases hu with
  | old h => exact List.inj_on_of_nodup_map hIds h hv hId
  | block s ts h hNew =>
    subst h
    exact absurd (show s.id = v.id from hId) (by omega)
  | guard s e body h hNew _ =>
    subst h
    exact absurd (show s.id = v.id from hId) (by omega)

theorem allOf_closed (hBoth : ∀ a b, C a → C b → C (a.both b)) {last : Expr} (hLast : C last)
    {conds : List Expr} (h : ∀ e ∈ conds, C e) : C (allOf conds last) := by
  induction conds with
  | nil => exact hLast
  | cons e conds ih =>
    exact hBoth e _ (h e List.mem_cons_self) (ih fun e' he' => h e' (List.mem_cons_of_mem e he'))

/-! ## The new inner body -/

/-- A property of statements goes over to blocks and guards that are created with numbers from `first`
    on, when their conditions have a property, too. -/
structure PartClosed (first : Nat) (C : Expr → Prop) (P : Stmt → Prop) : Prop where
  block : ∀ s ts, first ≤ s.id → (∀ t ∈ ts, P t) → P (.block s ts)
  guard : ∀ s e body, first ≤ s.id → C e → P body → P (.guard s e body)

namespace PartClosed

variable {P : Stmt → Prop} {next : Nat} {ts : List Stmt}

theorem sequenceAt (h : PartClosed first C P) (hNext : first ≤ next) (hts : ∀ t ∈ ts, P t) :
    P (sequenceAt next ts).1 := by
  unfold Restructure.sequenceAt
  split
  · exact hts _ (by simp)
  · exact h.block _ _ hNext hts

theorem guardedAt (h : PartClosed first C P) (hNext : first ≤ next) {e : Expr} (he : C e)
    (hts : ∀ t ∈ ts, P t) : ∀ t ∈ (guardedAt next e ts).1, P t := by
  cases ts with
  | nil => exact fun t ht => absurd ht List.not_mem_nil
  | cons w ts =>
    intro t ht
    rw [Restructure.guardedAt] at ht
    · rw [List.mem_singleton.mp ht]
      exact h.guard _ _ _ (Nat.le_trans hNext (le_sequenceAt _ _)) he (h.sequenceAt hNext hts)
    · exact List.cons_ne_nil w ts

/-- **New inner bodies** have the property when what they are made of has it. -/
theorem innerBody (h : PartClosed first C P) (hNext : first ≤ next) {b : Between}
    {inner : LabelledLoop} (hBoth : ∀ a b, C a → C b → C (a.both b))
    (hFirst : C ((Expr.var inner.head.iter).equals inner.head.lower))
    (hLast : C ((Expr.var inner.head.iter).equals (inner.head.upper.minus (.int 1))))
    (hConds : ∀ e ∈ b.conds, C e) (hParts : ∀ t ∈ b.before ++ b.after, P t) (hBody : P inner.body) :
    P (b.innerBody inner next).1 := by
  obtain ⟨guarded, k, l, hk, hl, hEq, _, hGuarded⟩ := innerBody_eq b inner next
  have hGuard : P guarded := by
    rcases hGuarded with ⟨_, rfl⟩ | ⟨outer, e, id, hSplit, hId, rfl⟩
    · exact hBody
    · rw [hSplit, List.forall_mem_append, List.forall_mem_singleton] at hConds
      exact h.guard _ _ _ (Nat.le_trans hNext hId) (allOf_closed hBoth hConds.2 hConds.1) hBody
  rw [hEq]
  refine h.sequenceAt (by omega) fun t ht => ?_
  rcases List.mem_append.mp ht with ht | ht
  · rcases List.mem_append.mp ht with ht | ht
    · exact h.guardedAt hNext (allOf_closed hBoth hFirst hConds)
        (fun t ht => hParts t (List.mem_append_left _ ht)) t ht
    · rw [List.mem_singleton.mp ht]
      exact hGuard
  · exact h.guardedAt (Nat.le_trans hNext hk) (allOf_closed hBoth hLast hConds)
      (fun t ht => hParts t (List.mem_append_right _ ht)) t ht

end PartClosed

section innerBody

variable {next : Nat} {ts : List Stmt}

/-- The new inner body holds old statements, blocks and guards. -/
theorem provenance_innerBody {b : Between} {inner : LabelledLoop} (hClosed : CondClosed olds C inner)
    (hNext : first ≤ next) (hConds : ∀ e ∈ b.conds, C e)
    (hParts : ∀ t ∈ b.before ++ b.after, ∀ u ∈ t.nodes, Provenance olds first C u)
    (hBody : ∀ u ∈ inner.body.nodes, Provenance olds first C u) :
    ∀ u ∈ (b.innerBody inner next).1.nodes, Provenance olds first C u := by
  have hNew : PartClosed first C fun t => ∀ u ∈ t.nodes, Provenance olds first C u := by
    constructor
    · intro s ts hId hts u hu
      rw [Stmt.nodes_block] at hu
      rcases List.mem_cons.mp hu with rfl | hu
      · exact .block _ _ rfl hId
      · obtain ⟨t, ht, hu⟩ := List.mem_flatMap.mp hu
        exact hts t ht u hu
    · intro s e body hId he hBody u hu
      rw [Stmt.nodes_guard] at hu
      rcases List.mem_cons.mp hu with rfl | hu
      · exact .guard _ _ _ rfl hId he
      · exact hBody u hu
  exact hNew.innerBody hNext hClosed.both hClosed.first hClosed.last hConds hParts hBody

theorem loops_sequenceAt (next : Nat) (ts : List Stmt) :
    (sequenceAt next ts).1.loops = ts.flatMap Stmt.loops := by
  unfold sequenceAt
  split <;> simp

theorem loops_guardedAt (next : Nat) (e : Expr) (ts : List Stmt) :
    (guardedAt next e ts).1.flatMap Stmt.loops = ts.flatMap Stmt.loops := by
  cases ts with
  | nil => rfl
  | cons w ts => simp [guardedAt, loops_sequenceAt]

/-- The loops of the new inner body are those of the old one when no others move into it. -/
theorem loops_innerBody {b : Between} (hBefore : b.before.flatMap Stmt.loops = [])
    (hAfter : b.after.flatMap Stmt.loops = []) (inner : LabelledLoop) (next : Nat) :
    (b.innerBody inner next).1.loops = inner.body.loops := by
  obtain ⟨guarded, k, l, _, _, hEq, _, hGuarded⟩ := innerBody_eq b inner next
  have hGuard : guarded.loops = inner.body.loops := by
    rcases hGuarded with ⟨_, rfl⟩ | ⟨outer, e, id, _, _, rfl⟩
    · rfl
    · exact Stmt.loops_guard _ _ _
  rw [hEq, loops_sequenceAt, List.flatMap_append, List.flatMap_append, loops_guardedAt,
    loops_guardedAt, hBefore, hAfter, List.flatMap_singleton, List.nil_append, List.append_nil,
    hGuard]

theorem loops_of_movable {iter : String} (h : ∀ w ∈ ts, movable iter w = .ok ()) :
    ts.flatMap Stmt.loops = [] := by
  rw [List.flatMap_eq_nil_iff]
  intro w hw
  unfold Stmt.loops
  rw [List.filter_eq_nil_iff]
  intro u hu
  simp [((of_movable (h w hw)).2 u hu).1]

/-- What moves into an inner loop when it may holds no loops. -/
theorem loops_of_check {b : Between} {h : LoopHead} (hCheck : b.check h = .ok ()) :
    b.before.flatMap Stmt.loops = [] ∧ b.after.flatMap Stmt.loops = [] := by
  rcases Between.of_check hCheck with ⟨hBefore, hAfter⟩ | ⟨hMovable, _⟩
  · rw [hBefore, hAfter]
    exact ⟨rfl, rfl⟩
  · exact ⟨loops_of_movable fun w hw => hMovable w (List.mem_append_left _ hw),
      loops_of_movable fun w hw => hMovable w (List.mem_append_right _ hw)⟩

end innerBody

/-! ## Chains -/

/-- A perfect nest made from a chain of loops.

    * **loops**: it has the loops of the chain;
    * **body**: its innermost body is made of old statements, blocks and guards;
    * **inside**: the loops in it are those inside the whole chain;
    * **ids**: it has no more loops than the chain;
    * **runs**: it runs like the outermost loop of the chain. -/
structure Perfected (olds : List Stmt) (first : Nat) (C : Expr → Prop) (c : Conventions)
    (E : Env → Prop) (outer : LabelledLoop) (rest : List LabelledLoop) (nest : PerfectNest) : Prop where
  loops : nest.loops = (outer :: rest).map fun l => (l.site, l.head)
  body : ∀ u ∈ nest.body.nodes, Provenance olds first C u
  inside : ∀ u ∈ nest.body.loops, ∀ l ∈ outer :: rest, u ∈ l.body.loops
  ids : nest.stmt.loopIds.Sublist outer.stmt.loopIds
  runs : ∀ env, E env → (outer.stmt.change c env).Alike (nest.stmt.change c env)

/-- What a loop needs to become the inner loop of a perfect nest without a change of its runs. -/
structure Chained (olds : List Stmt) (C : Expr → Prop) (c : Conventions) (E : Env → Prop)
    (writes : List String) (l : LabelledLoop) : Prop where
  mem : l.stmt ∈ olds
  steady : Steady writes l.head
  lower : l.head.lower.DefinedOn c E
  upper : l.head.upper.DefinedOn c E
  closed : CondClosed olds C l

variable {c : Conventions} {E : Env → Prop} {writes : List String}

/-- Loops with bodies that run alike run alike. -/
theorem alike_loop (s : Site) (h : LoopHead) {body body' : Stmt} {env : Env}
    (hBody : ∀ v, (body.change c (env.set h.iter v)).Alike (body'.change c (env.set h.iter v))) :
    ((Stmt.loop s h body).change c env).Alike ((Stmt.loop s h body').change c env) := by
  intro m hm
  rw [Stmt.change_loop, Stmt.change_loop]
  cases h.lower.valueWith? c env m with
  | none => rfl
  | some lower =>
    cases h.upper.valueWith? c env m with
    | none => rfl
    | some upper =>
      exact Change.EqOn.inTurn (fun v _ => hBody v) (fun _ _ => Stmt.keeps_full c _ _) m hm

/-- **Perfect nests**: making a chain of loops perfect keeps its loops and its runs. -/
theorem perfect_perfected (hIds : (olds.map Stmt.id).Nodup)
    (hLess : ∀ w ∈ olds, w.id < first) (hWrites : ∀ s x is v, Stmt.store s x is v ∈ olds → x ∈ writes)
    (hDefined : ∀ e, C e → e.DefinedOn c E) :
    ∀ (rest : List LabelledLoop) (outer : LabelledLoop) (next : Nat) (nest : PerfectNest),
      first ≤ next → (∀ u ∈ outer.body.nodes, Provenance olds first C u) →
      (∀ l ∈ rest, Chained olds C c E writes l) →
      (∀ l ∈ outer :: rest, ∀ env v, E env → E (env.set l.head.iter v)) →
      perfect writes next outer rest = .ok nest → Perfected olds first C c E outer rest nest := by
  intro rest
  induction rest with
  | nil =>
    intro outer next nest _ hBody _ _ h
    cases h
    refine ⟨rfl, hBody, ?_, List.Sublist.refl _, fun env _ => .refl _⟩
    intro u hu l hl
    rwa [List.mem_singleton.mp hl]
  | cons inner rest ih =>
    intro outer next nest hNext hBody hRest hEnv h
    rw [perfect] at h
    obtain ⟨b, hGather, h⟩ := Outcome.bind_eq_ok.mp h
    obtain ⟨⟨⟩, hCheck, h⟩ := Outcome.bind_eq_ok.mp h
    obtain ⟨nest', hPerfect, h⟩ := Outcome.bind_eq_ok.mp h
    cases h
    have hInner := hRest inner List.mem_cons_self
    obtain ⟨conds, before, after, hGathers⟩ := gather_gathers outer.body _ b hGather
      fun u hu hId => (hBody u hu).eq_of_id hIds hLess hInner.mem hId
    obtain rfl : b = ⟨conds, before, after⟩ := by simpa using hGathers.result
    have hConds : ∀ e ∈ conds, C e := by
      intro e he
      obtain ⟨s, body, hGuard⟩ := hGathers.guards e he
      exact (hBody _ hGuard).cond hInner.closed.old
    have hInside : ∀ u ∈ inner.stmt.nodes, u ∈ outer.body.nodes :=
      fun u hu => Stmt.mem_nodes_trans hu hGathers.holds
    have hNew : ∀ u ∈ (Between.innerBody ⟨conds, before, after⟩ inner next).1.nodes,
        Provenance olds first C u :=
      provenance_innerBody hInner.closed hNext hConds
        (fun w hw u hu => hBody u (hGathers.inside w hw u hu))
        fun u hu => hBody u (hInside u (by simp [LabelledLoop.stmt, hu]))
    obtain ⟨hBefore, hAfter⟩ := loops_of_check hCheck
    have hLoops := loops_innerBody (b := ⟨conds, before, after⟩) hBefore hAfter inner next
    have hMade := ih { inner with body := (Between.innerBody ⟨conds, before, after⟩ inner next).1 }
      _ nest' (Nat.le_trans hNext (le_innerBody _ inner next)) hNew (fun l hl => hRest l (List.mem_cons_of_mem inner hl))
      (fun l hl => by
        rcases List.mem_cons.mp hl with rfl | hl
        · exact hEnv inner (by simp)
        · exact hEnv l (by simp [hl])) hPerfect
    have hWritten : ∀ x, outer.body.Writes x → x ∈ writes := by
      rintro x ⟨s, is, v, hStore⟩
      cases hBody _ hStore with
      | old h => exact hWrites s x is v h
      | block s' ts h => cases h
      | guard s' e body h => cases h
    refine ⟨?_, hMade.body, ?_, ?_, ?_⟩
    · rw [hMade.loops]
      rfl
    · intro u hu l hl
      have hInner : u ∈ inner.body.loops := by
        rw [← hLoops]
        exact hMade.inside u hu _ List.mem_cons_self
      rcases List.mem_cons.mp hl with rfl | hl
      · obtain ⟨hNode, hLoop⟩ := Stmt.mem_loops.mp hInner
        exact Stmt.mem_loops.mpr ⟨hInside u (by simp [LabelledLoop.stmt, hNode]), hLoop⟩
      · rcases List.mem_cons.mp hl with rfl | hl
        · exact hInner
        · exact hMade.inside u hu l (List.mem_cons_of_mem _ hl)
    · -- the new inner loop has the numbers of the old one
      have hSame : (Stmt.loop inner.site inner.head (Between.innerBody ⟨conds, before, after⟩ inner
          next).1).loopIds = inner.stmt.loopIds := by
        rw [LabelledLoop.stmt, Stmt.loopIds_loop, Stmt.loopIds_loop, Stmt.loopIds, hLoops]
        rfl
      have hSub : inner.stmt.loopIds.Sublist outer.body.loopIds :=
        ((Stmt.nodes_sublist outer.body hGathers.holds).filter _).map _
      have hIds := hMade.ids.trans (hSame ▸ hSub)
      rw [LabelledLoop.stmt, Stmt.loopIds_loop]
      show (Stmt.loop outer.site outer.head nest'.stmt).loopIds.Sublist _
      rw [Stmt.loopIds_loop]
      exact hIds.cons_cons outer.site.id
    · intro env hE
      have hSunk := fun (env : Env) (hE : E env) => alike_innerBody hGathers hCheck
        hInner.steady hWritten (fun e he => hDefined e (hConds e he)) hInner.lower hInner.upper hE
        next
      have hStep : (outer.stmt.change c env).Alike ((Stmt.loop outer.site outer.head
          (.loop inner.site inner.head (Between.innerBody ⟨conds, before, after⟩ inner next).1)).change
            c env) :=
        alike_loop outer.site outer.head
          fun v => hSunk _ (hEnv outer List.mem_cons_self env v hE)
      exact hStep.trans (alike_loop outer.site outer.head
        fun v => hMade.runs _ (hEnv outer List.mem_cons_self env v hE))

end LoopNest.Restructure

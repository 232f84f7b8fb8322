import LoopNest.Dependence.Legality
import LoopNest.Proofs.FoundDependences
import LoopNest.Proofs.LoggedRuns

/-! # Loops that may run in parallel

  When the analysis finds that the iterations of a loop may run at the same time, they may run one
  after the other in any order: all orders leave one memory.

  Dependences that a loop asserts away with `noDeps` are not looked for, so the assertions have to
  be true: different iterations must not meet on the buffers of the list (`Stmt.Truthful`).

  A buffer that the body declares is taken for a new one in each iteration, whatever its access class.
  This is so for local buffers only. A visible buffer keeps what it holds, so different iterations must
  not meet on it either (`Stmt.any_order_of_visible`), which the analysis does not find out
  (`Stmt.lastWriter_depends_on_order`). -/

namespace LoopNest.Stmt

/-! ## Iterations -/

/-- One iteration of a loop with what it touches. -/
def iteration (c : Conventions) (env : Env) (s : Site) (h : LoopHead) (body : Stmt) (v : Int) :
    Change × Trace :=
  (body.change c (env.set h.iter v),
    body.touchesWith c (({} : Place).enter ⟨s.id, h⟩ v) (env.set h.iter v))

/-- Among some touches, those in different iterations of the loop numbered `id` do not meet on the
    buffers of a list. -/
def Truthful (id : Nat) (noDeps : List String) (touches : List Touch) : Prop :=
  ∀ x ∈ touches, ∀ y ∈ touches, ∀ v w, x.value? id = some v → y.value? id = some w → v ≠ w →
    x.access.buffer ∈ noDeps → ¬ x.Meets y

theorem truthful_nil (id : Nat) (touches : List Touch) : Truthful id [] touches := by
  intro x _ y _ v w _ _ _ h
  cases h

theorem Truthful.mono {id : Nat} {noDeps : List String} {touches touches' : List Touch}
    (h : Truthful id noDeps touches) (hSubset : touches' ⊆ touches) : Truthful id noDeps touches' :=
  fun x hx y hy => h x (hSubset hx) y (hSubset hy)

/-! ## The verdict -/

/-- A safe verdict lists every dependence that the loop carries, which is a reduction. -/
theorem listed_of_verdictOf {ds : List Dependence} :
    ∀ {found rs : List (String × ReduceOp)}, verdictOf found ds = .safe rs → found ⊆ rs
      ∧ ∀ d ∈ ds, d.isCarriedAt 0 = true → ∃ op, d.reduction = some op ∧ (d.buffer, op) ∈ rs := by
  induction ds with
  | nil =>
    intro found rs h
    cases h
    exact ⟨fun _ hr => hr, fun d hd => by cases hd⟩
  | cons e ds ih =>
    intro found rs h
    rw [verdictOf] at h
    by_cases hFirst : e.isCarriedAt 0 = true
    · rw [hFirst, if_neg (by simp)] at h
      cases hReduction : e.reduction with
      | none =>
        rw [hReduction] at h
        cases h
      | some op =>
        rw [hReduction] at h
        have hRest : ∃ found', found ⊆ found' ∧ (e.buffer, op) ∈ found'
            ∧ verdictOf found' ds = .safe rs := by
          by_cases hFound : found.contains (e.buffer, op) = true
          · exact ⟨found, fun _ hr => hr, by simpa using hFound, by simpa only [if_pos hFound] using h⟩
          · exact ⟨found ++ [(e.buffer, op)], List.subset_append_left _ _, by simp,
              by simpa only [if_neg hFound] using h⟩
        obtain ⟨found', hOld, hHere, h⟩ := hRest
        obtain ⟨hListed, hLater⟩ := ih h
        refine ⟨fun _ hr => hListed (hOld hr), fun d hd hCarried => ?_⟩
        rcases List.mem_cons.mp hd with rfl | hd
        · exact ⟨op, hReduction, hListed hHere⟩
        · exact hLater d hd hCarried
    · have hNot : (!e.isCarriedAt 0) = true := by simpa using hFirst
      rw [if_pos hNot] at h
      obtain ⟨hListed, hLater⟩ := ih h
      refine ⟨hListed, fun d hd hCarried => ?_⟩
      rcases List.mem_cons.mp hd with rfl | hd
      · exact absurd hCarried hFirst
      · exact hLater d hd hCarried

/-- The loop as a chain of one level. -/
def alone (maxLevels : Nat) (lp : Stmt) : Nest := ⟨[lp.level], maxLevels⟩

/-- Iterations with their place in the loop. -/
theorem iteration_placed {c : Conventions} {env : Env} {s : Site} {h : LoopHead} {body : Stmt}
    {v lower upper : Int} {before at_ : Memory} (hLower : h.lower.valueWith? c env at_ = some lower)
    (hUpper : h.upper.valueWith? c env at_ = some upper) (hv : v ∈ counting lower upper) {x : Touch}
    (hx : x ∈ (iteration c env s h body v).2 before) :
    x.access ∈ (Stmt.loop s h body).accessesIn {}
      ∧ ∃ more, x.Placed c env (⟨⟨s.id, h⟩, lower, v⟩ :: more) := by
  obtain ⟨hAccess, more, hPlaced⟩ := placed_of_mem_touchesWith body _ _ _ before x
    ((Place.At.start c env).enter (l := ⟨s.id, h⟩) hLower hUpper hv) hx
  exact ⟨List.mem_append_right _ hAccess, more, hPlaced⟩

theorem value?_of_placed {c : Conventions} {env : Env} {x : Touch} {r : Turn} {more : List Turn}
    (h : x.Placed c env (r :: more)) : x.value? r.loop.id = some r.value := by
  rw [h.value?]
  unfold turnOf?
  rw [List.find?_cons_of_pos (by simp)]
  rfl

/-- A dependence of a loop leads from a touch in iteration `v` to a touch in iteration `w`.

    * **reduction**: when it is called a reduction, both accesses belong to one;
    * **onward**: it does not lead to an earlier iteration, as far as its vector is known. -/
structure Leads (d : Dependence) (x y : Touch) (v w : Int) : Prop where
  source : d.source = x.access.stmt
  target : d.target = y.access.stmt
  carried : d.isCarriedAt 0 = true
  reduction : ∀ op, d.reduction = some op →
    x.access.reduction = some op ∧ y.access.reduction = some op
  onward : d.direction.head? = some .star ∨ v < w

/-- A dependence between touches in different iterations of a loop leads from one to the other. -/
theorem leads_of_joins {lp : Stmt} {maxLevels : Nat} {d : Dependence} {x y : Touch} {v w : Int}
    (hJoins : d.Joins (alone maxLevels lp) x y)
    (hx : x.access.loops.any (·.id == lp.level.id) = true)
    (hy : y.access.loops.any (·.id == lp.level.id) = true) (hv : x.value? lp.level.id = some v)
    (hw : y.value? lp.level.id = some w) (hne : v ≠ w) : Leads d x y v w := by
  have hCommon : 0 < (alone maxLevels lp).common x y := by
    unfold Nest.common Nest.commonLevels alone
    rw [List.takeWhile_cons_of_pos (by rw [hx, hy]; rfl)]
    exact Nat.zero_lt_succ _
  obtain ⟨e, he, hSign⟩ := Nest.entry_directions (n := alone maxLevels lp) (k := 0) (l := lp.level)
    rfl hCommon
  rw [Touch.valueIn, Touch.valueIn, hv, hw, Option.getD_some, Option.getD_some] at hSign
  have hNot : e ≠ .eq := by
    rcases hSign with rfl | rfl
    · exact fun hEq => hne (Direction.sign_eq_iff.mp hEq)
    · exact fun hEq => nomatch hEq
  rw [← List.head?_eq_getElem?] at he
  refine ⟨hJoins.source, hJoins.target, ?_, hJoins.reduction, ?_⟩
  · unfold Dependence.isCarriedAt
    rw [hJoins.direction, ← List.head?_eq_getElem?, he]
    exact bne_iff_ne.mpr hNot
  · rw [hJoins.direction, he]
    rcases hSign with rfl | rfl
    · right
      by_contra hBack
      -- the first entry would be `gt`, and the dependence would lead the other way
      have hGt : Direction.sign v w = .gt := by
        unfold Direction.sign
        rw [if_neg hBack, if_pos (by omega)]
      apply hJoins.onward
      obtain ⟨ds, hds⟩ := List.head?_eq_some_iff.mp he
      rw [hds, hGt]
      rfl
    · exact Or.inl rfl

variable {c : Conventions} {env : Env} {s : Site} {h : LoopHead} {body : Stmt}

/-- **Dependences of a loop**: touches in different iterations that meet have one. -/
theorem exists_leads_of_meets (hIds : (Stmt.loop s h body).loopIds.Nodup) (maxLevels : Nat)
    {lower upper : Int} {at_ : Memory} (hLower : h.lower.valueWith? c env at_ = some lower)
    (hUpper : h.upper.valueWith? c env at_ = some upper) {v w : Int}
    (hv : v ∈ counting lower upper) (hw : w ∈ counting lower upper) (hne : v ≠ w) {x y : Touch}
    (hxMem : x.access ∈ (Stmt.loop s h body).accessesIn {})
    (hyMem : y.access ∈ (Stmt.loop s h body).accessesIn {}) {P Q : List Turn}
    (hP : x.Placed c env (⟨⟨s.id, h⟩, lower, v⟩ :: P))
    (hQ : y.Placed c env (⟨⟨s.id, h⟩, lower, w⟩ :: Q)) (hxOwned : x.Owned) (hyOwned : y.Owned)
    (hMeets : x.Meets y) (hAsserted : x.access.buffer ∉ h.noDeps) :
    ∃ d ∈ (Stmt.loop s h body).carriedDependences maxLevels,
      Leads d x y v w ∨ Leads d y x w v := by
  have hxValue : x.value? s.id = some v := value?_of_placed hP
  have hyValue : y.value? s.id = some w := value?_of_placed hQ
  have hLevel : (Stmt.loop s h body).level = ⟨s.id, h.iter, h.extent?, h.noDeps⟩ := rfl
  have hEncounter : Encounter (alone maxLevels (.loop s h body)) c env x y
      (⟨⟨s.id, h⟩, lower, v⟩ :: P) (⟨⟨s.id, h⟩, lower, w⟩ :: Q) := by
    apply Encounter.of_placed hIds hxMem hyMem hP hQ
    intro k l e u' w' _ hl he hu hw' _
    -- the only level is the loop, and both iterations are between its bounds
    obtain rfl : l = (Stmt.loop s h body).level := by
      rw [← List.mem_singleton]
      exact List.mem_of_getElem? hl
    have hExtent : h.extent? = some e := he
    have hDistance := Expr.distance_of_constantDistance? hExtent hLower hUpper
    have hvRange := mem_counting.mp hv
    have hwRange := mem_counting.mp hw
    obtain rfl : v = u' := Option.some.inj (hxValue.symm.trans hu)
    obtain rfl : w = w' := Option.some.inj (hyValue.symm.trans hw')
    omega
  have hAround : ∀ {z : Touch} {turn : Turn} {more : List Turn}, turn.loop.id = s.id →
      z.Placed c env (turn :: more) → z.access.loops.any (·.id == s.id) = true := by
    intro z turn more hid hPlaced
    rw [← hPlaced.loops]
    simp [hid]
  have hxAround := hAround rfl hP
  have hyAround := hAround rfl hQ
  have hValues : x.valueIn s.id ≠ y.valueIn s.id := by
    unfold Touch.valueIn
    rw [hxValue, hyValue]
    exact hne
  have hDiffer : (alone maxLevels (.loop s h body)).Differ x y := by
    refine ⟨(Stmt.loop s h body).level, ?_, hValues⟩
    unfold Nest.common Nest.commonLevels alone
    rw [hLevel, List.takeWhile_cons_of_pos (by rw [hxAround, hyAround]; rfl)]
    exact List.mem_cons_self
  have hForced : (alone maxLevels (.loop s h body)).Forced x y := by
    apply Nest.forced_of_owned hEncounter hxOwned hyOwned hMeets.owner
    intro l hl hContains
    rw [List.mem_singleton.mp hl, hLevel] at hContains
    exact absurd (by simpa using hContains) hAsserted
  obtain ⟨d, hd, hJoins⟩ := hEncounter.exists_joins hMeets hForced hDiffer hxMem hyMem
  refine ⟨d, List.mem_append_right _ hd, ?_⟩
  rcases hJoins with hJoins | hJoins
  · exact .inl (leads_of_joins hJoins hxAround hyAround hxValue hyValue hne)
  · exact .inr (leads_of_joins hJoins hyAround hxAround hyValue hxValue hne.symm)

/-- **Reductions**: under a safe verdict touches in different iterations that meet belong to
    reductions with one operator, unless their buffer is one that the body declares as visible. -/
theorem reduction_of_meets (hIds : (Stmt.loop s h body).loopIds.Nodup) {maxLevels : Nat}
    {rs : List (String × ReduceOp)}
    (hSafe : (Stmt.loop s h body).parallelVerdict maxLevels = .safe rs) {lower upper : Int}
    {at_ : Memory} (hLower : h.lower.valueWith? c env at_ = some lower)
    (hUpper : h.upper.valueWith? c env at_ = some upper) {v w : Int}
    (hv : v ∈ counting lower upper) (hw : w ∈ counting lower upper) (hne : v ≠ w) {x y : Touch}
    {before before' : Memory} (hx : x ∈ (iteration c env s h body v).2 before)
    (hy : y ∈ (iteration c env s h body w).2 before') (hMeets : x.Meets y)
    (hVisible : x.access.buffer ∉ body.visibleNames) (hAsserted : x.access.buffer ∉ h.noDeps) :
    ∃ op, x.access.reduction = some op ∧ y.access.reduction = some op := by
  obtain ⟨hxMem, P, hP⟩ := iteration_placed hLower hUpper hv hx
  obtain ⟨hyMem, Q, hQ⟩ := iteration_placed hLower hUpper hw hy
  have hxOwned := owned_of_not_visible body _ _ before x hVisible
    (Place.Owned.start.enter ⟨s.id, h⟩ v _) rfl hx
  have hyOwned := owned_of_not_visible body _ _ before' y (hMeets.buffer ▸ hVisible)
    (Place.Owned.start.enter ⟨s.id, h⟩ w _) rfl hy
  obtain ⟨d, hd, hLeads⟩ := exists_leads_of_meets hIds maxLevels hLower hUpper hv hw hne hxMem hyMem
    hP hQ hxOwned hyOwned hMeets hAsserted
  -- the dependence is carried by the loop, so it is a reduction
  rcases hLeads with hLeads | hLeads
  · obtain ⟨op, hOp, _⟩ := (listed_of_verdictOf hSafe).2 d hd hLeads.carried
    exact ⟨op, hLeads.reduction op hOp⟩
  · obtain ⟨op, hOp, _⟩ := (listed_of_verdictOf hSafe).2 d hd hLeads.carried
    exact ⟨op, (hLeads.reduction op hOp).symm⟩

/-! ## Orders -/

/-- **Exchange of iterations**: under a safe verdict, when the iterations in one order leave a
    memory, they leave the same memory in every other order. What the analysis does not look at has
    to be true: what is asserted, and that visible buffers of the body are used apart. -/
theorem exchange_of_truthful (hIds : (Stmt.loop s h body).loopIds.Nodup) {maxLevels : Nat}
    {rs : List (String × ReduceOp)}
    (hSafe : (Stmt.loop s h body).parallelVerdict maxLevels = .safe rs) {lower upper : Int}
    {at_ : Memory} (hLower : h.lower.valueWith? c env at_ = some lower)
    (hUpper : h.upper.valueWith? c env at_ = some upper) {p q : List Int}
    (hp : p.Perm (counting lower upper)) (hq : q.Perm (counting lower upper)) {m m' : Memory}
    (hTruthful : Truthful s.id (h.noDeps ++ body.visibleNames)
      (Trace.inTurn (p.map (iteration c env s h body)) m))
    (hRun : Change.inTurn (p.map fun v => (iteration c env s h body v).1) m = some m') :
    Change.inTurn (q.map fun v => (iteration c env s h body v).1) m = some m' := by
  have hNodup : p.Nodup := hp.nodup_iff.mpr nodup_counting
  have hLogged : ∀ v ∈ p, Logged (iteration c env s h body v) ({} : Place).Reaches := fun v _ =>
    (logged_reaches body _ _).imp fun _ _ h => ⟨h.makes, h.owner⟩
  apply exchange_tasks (hq.trans hp.symm) hNodup hLogged _ hRun
  rintro v w hvw _ x y t t' ⟨before, hx⟩ ⟨before', hy⟩ hxRun hyRun hReaches hReaches'
  have hv : v ∈ counting lower upper := hp.subset (hvw.subset List.mem_cons_self)
  have hw : w ∈ counting lower upper :=
    hp.subset (hvw.subset (List.mem_cons_of_mem v List.mem_cons_self))
  have hne : v ≠ w := by
    rintro rfl
    exact (List.nodup_cons.mp (hvw.nodup hNodup)).1 List.mem_cons_self
  apply Step.independent_of_by hReaches.makes hReaches'.makes
  intro hBuffer hCell hWrite
  have hOwner : x.owner = y.owner := by
    rw [hReaches.owner, hReaches'.owner]
    rfl
  have hMeets : x.Meets y := ⟨hBuffer, hOwner, hCell, hWrite⟩
  -- two touches that meet are on a buffer that the analysis has looked at
  obtain ⟨_, P, hP⟩ := iteration_placed hLower hUpper hv hx
  obtain ⟨_, Q, hQ⟩ := iteration_placed hLower hUpper hw hy
  have hTested : x.access.buffer ∉ h.noDeps ++ body.visibleNames := fun hMem =>
    hTruthful x hxRun y hyRun v w (value?_of_placed hP) (value?_of_placed hQ) hne hMem hMeets
  obtain ⟨hAsserted, hVisible⟩ := not_or.mp fun h => hTested (List.mem_append.mpr h)
  exact reduction_of_meets hIds hSafe hLower hUpper hv hw hne hx hy hMeets hVisible hAsserted

/-- Where all declared buffers are local, only the assertions have to be true. -/
theorem exchange_iterations (hIds : (Stmt.loop s h body).loopIds.Nodup)
    (hLocals : body.localsOnly = true) {maxLevels : Nat} {rs : List (String × ReduceOp)}
    (hSafe : (Stmt.loop s h body).parallelVerdict maxLevels = .safe rs) {lower upper : Int}
    {at_ : Memory} (hLower : h.lower.valueWith? c env at_ = some lower)
    (hUpper : h.upper.valueWith? c env at_ = some upper) {p q : List Int}
    (hp : p.Perm (counting lower upper)) (hq : q.Perm (counting lower upper)) {m m' : Memory}
    (hTruthful : Truthful s.id h.noDeps (Trace.inTurn (p.map (iteration c env s h body)) m))
    (hRun : Change.inTurn (p.map fun v => (iteration c env s h body v).1) m = some m') :
    Change.inTurn (q.map fun v => (iteration c env s h body v).1) m = some m' := by
  refine exchange_of_truthful hIds hSafe hLower hUpper hp hq ?_ hRun
  rwa [visibleNames_of_localsOnly hLocals, List.append_nil]

/-- The iterations of a loop one after the other, in some order. -/
def runInOrder (fresh : Memory) (env : Env) (h : LoopHead) (body : Stmt) (order : List Int) :
    Action := Action.inTurn (order.map fun v => body.run fresh (env.set h.iter v))

/-- What the iterations of a loop touch in some order. -/
def touchesInOrder (fresh : Memory) (env : Env) (s : Site) (h : LoopHead) (body : Stmt)
    (order : List Int) : Trace :=
  Trace.inTurn (order.map (iteration (.reference fresh) env s h body))

theorem runInOrder_change (fresh : Memory) (env : Env) (s : Site) (h : LoopHead) (body : Stmt)
    (order : List Int) (m : Memory) : (runInOrder fresh env h body order m).map Prod.fst
      = Change.inTurn (order.map fun v => (iteration (.reference fresh) env s h body v).1) m := by
  show (runInOrder fresh env h body order).change m = _
  rw [runInOrder, Action.change_inTurn, List.map_map]
  congr 2
  funext v
  show (body.run fresh (env.set h.iter v)).change = body.change (.reference fresh) _
  rw [change, runWith_reference]

/-- **Any order**: a loop whose iterations may run at the same time leaves in every order of the
    iterations the memory that it leaves in increasing order, if its assertions are true. When they
    are true in the other order as well, the iterations fail in both orders or in none. -/
theorem any_order_of_safe {t : Stmt} (hLoop : Stmt.loop s h body ∈ t.number.nodes)
    (hLocals : body.localsOnly = true) {maxLevels : Nat} {rs : List (String × ReduceOp)}
    (hSafe : (Stmt.loop s h body).parallelVerdict maxLevels = .safe rs) {fresh m : Memory}
    {lower upper : Int} (hLower : h.lower.value? env m = some lower)
    (hUpper : h.upper.value? env m = some upper)
    (hTruthful : Truthful s.id h.noDeps
      (touchesInOrder fresh env s h body (counting lower upper) m))
    {order : List Int} (hOrder : order.Perm (counting lower upper)) :
    (∀ m', (runInOrder fresh env h body (counting lower upper) m).map Prod.fst = some m' →
      (runInOrder fresh env h body order m).map Prod.fst = some m')
    ∧ (Truthful s.id h.noDeps (touchesInOrder fresh env s h body order m) →
      (runInOrder fresh env h body order m).map Prod.fst
        = (runInOrder fresh env h body (counting lower upper) m).map Prod.fst) := by
  have hIds : (Stmt.loop s h body).loopIds.Nodup :=
    nodup_loopIds (nodup_ids_of_mem (nodup_ids_number t) hLoop)
  have hLower' : h.lower.valueWith? (.reference fresh) env m = some lower := by
    rwa [Expr.valueWith?_reference]
  have hUpper' : h.upper.valueWith? (.reference fresh) env m = some upper := by
    rwa [Expr.valueWith?_reference]
  have hSame : counting lower upper |>.Perm (counting lower upper) := List.Perm.refl _
  rw [runInOrder_change fresh env s, runInOrder_change fresh env s]
  have hForth : ∀ m', Change.inTurn ((counting lower upper).map fun v =>
        (iteration (.reference fresh) env s h body v).1) m = some m' →
      Change.inTurn (order.map fun v => (iteration (.reference fresh) env s h body v).1) m
        = some m' := fun _ hRun =>
    exchange_iterations hIds hLocals hSafe hLower' hUpper' hSame hOrder hTruthful hRun
  refine ⟨hForth, ?_⟩
  intro hOther
  have hBack : ∀ m', Change.inTurn (order.map fun v =>
        (iteration (.reference fresh) env s h body v).1) m = some m' →
      Change.inTurn ((counting lower upper).map fun v =>
        (iteration (.reference fresh) env s h body v).1) m = some m' := fun _ hRun =>
    exchange_iterations hIds hLocals hSafe hLower' hUpper' hOrder hSame hOther hRun
  exact Option.ext fun m' => ⟨hBack m', hForth m'⟩

/-- A loop from 0 to 3 that adds up a buffer. -/
def summing : Stmt :=
  .loop ⟨0, none⟩ { iter := "i", lower := .int 0, upper := .int 3 }
    (.store ⟨1, none⟩ "sum" [] (.add (.load "sum" []) (.load "x" [.var "i"])))

theorem summing_any_order :
    (runInOrder .blank (fun _ => 0) { iter := "i", lower := .int 0, upper := .int 3 }
      (.store ⟨1, none⟩ "sum" [] (.add (.load "sum" []) (.load "x" [.var "i"]))) [2, 0, 1]
        fun _ _ => some 1).map Prod.fst
    = (runInOrder .blank (fun _ => 0) { iter := "i", lower := .int 0, upper := .int 3 }
      (.store ⟨1, none⟩ "sum" [] (.add (.load "sum" []) (.load "x" [.var "i"]))) (counting 0 3)
        fun _ _ => some 1).map Prod.fst := by
  have hLoop : summing ∈ summing.number.nodes := self_mem_nodes summing
  have hSafe : summing.parallelVerdict defaultLevels = .safe [("sum", .add)] := by decide +kernel
  have hOrder : [2, 0, 1].Perm (counting 0 3) := by decide
  exact (any_order_of_safe hLoop rfl hSafe rfl rfl (truthful_nil _ _) hOrder).2 (truthful_nil _ _)

/-! ## Visible buffers -/

/-- What the iterations of a safe loop leave in one order they leave in every other order. -/
theorem runInOrder_exchange {t : Stmt} (hLoop : Stmt.loop s h body ∈ t.number.nodes)
    {maxLevels : Nat} {rs : List (String × ReduceOp)}
    (hSafe : (Stmt.loop s h body).parallelVerdict maxLevels = .safe rs) {fresh m m' : Memory}
    {lower upper : Int} (hLower : h.lower.value? env m = some lower)
    (hUpper : h.upper.value? env m = some upper) {p q : List Int}
    (hp : p.Perm (counting lower upper)) (hq : q.Perm (counting lower upper))
    (hTruthful : Truthful s.id (h.noDeps ++ body.visibleNames) (touchesInOrder fresh env s h body p m))
    (hRun : (runInOrder fresh env h body p m).map Prod.fst = some m') :
    (runInOrder fresh env h body q m).map Prod.fst = some m' := by
  have hIds : (Stmt.loop s h body).loopIds.Nodup :=
    nodup_loopIds (nodup_ids_of_mem (nodup_ids_number t) hLoop)
  rw [runInOrder_change fresh env s] at hRun ⊢
  rw [← Expr.valueWith?_reference] at hLower hUpper
  exact exchange_of_truthful hIds hSafe hLower hUpper hp hq hTruthful hRun

/-- **Visible buffers**: a loop whose iterations may run at the same time leaves one memory in every
    order, the buffers included that its body declares as visible, if different iterations do not
    meet on these (and its assertions are true). -/
theorem any_order_of_visible {t : Stmt} (hLoop : Stmt.loop s h body ∈ t.number.nodes)
    {maxLevels : Nat} {rs : List (String × ReduceOp)}
    (hSafe : (Stmt.loop s h body).parallelVerdict maxLevels = .safe rs) {fresh m : Memory}
    {lower upper : Int} (hLower : h.lower.value? env m = some lower)
    (hUpper : h.upper.value? env m = some upper)
    (hTruthful : Truthful s.id (h.noDeps ++ body.visibleNames)
      (touchesInOrder fresh env s h body (counting lower upper) m))
    {order : List Int} (hOrder : order.Perm (counting lower upper)) :
    (∀ m', (runInOrder fresh env h body (counting lower upper) m).map Prod.fst = some m' →
      (runInOrder fresh env h body order m).map Prod.fst = some m')
    ∧ (Truthful s.id (h.noDeps ++ body.visibleNames) (touchesInOrder fresh env s h body order m) →
      (runInOrder fresh env h body order m).map Prod.fst
        = (runInOrder fresh env h body (counting lower upper) m).map Prod.fst) := by
  have hSame : (counting lower upper).Perm (counting lower upper) := List.Perm.refl _
  have hForth : ∀ m', (runInOrder fresh env h body (counting lower upper) m).map Prod.fst = some m' →
      (runInOrder fresh env h body order m).map Prod.fst = some m' := fun _ =>
    runInOrder_exchange hLoop hSafe hLower hUpper hSame hOrder hTruthful
  refine ⟨hForth, fun hOther => Option.ext fun m' => ⟨?_, hForth m'⟩⟩
  exact runInOrder_exchange hLoop hSafe hLower hUpper hOrder hSame hOther

/-- Touches of which those of one cell are in one iteration do not meet in different ones. -/
theorem truthful_of_cells {id : Nat} {noDeps : List String} {touches : List Touch}
    (h : ∀ x ∈ touches, ∀ y ∈ touches, x.access.buffer ∈ noDeps → x.access.buffer = y.access.buffer →
      x.cell = y.cell → x.value? id = y.value? id) : Truthful id noDeps touches := by
  intro x hx y hy v w hv hw hne hBuffer hMeets
  have hSame := h x hx y hy hBuffer hMeets.buffer hMeets.cell
  rw [hv, hw] at hSame
  exact hne (Option.some.inj hSame)

/-- The head of a loop from 0 to 3. -/
def thrice : LoopHead := { iter := "i", lower := .int 0, upper := .int 3 }

/-- Copies one element into a buffer that is declared here and visible outside. -/
def copying : Stmt :=
  .decl ⟨1, none⟩ "y" ⟨[.int 3], .int32, .output, .cpu⟩
    (.store ⟨2, none⟩ "y" [.var "i"] (.load "x" [.var "i"]))

theorem copying_any_order :
    copying.visibleNames = ["y"]
      ∧ (runInOrder .blank (fun _ => 0) thrice copying [2, 0, 1] fun _ _ => some 1).map Prod.fst
        = (runInOrder .blank (fun _ => 0) thrice copying (counting 0 3) fun _ _ => some 1).map
          Prod.fst := by
  have hLoop : Stmt.loop ⟨0, none⟩ thrice copying ∈ (Stmt.loop ⟨0, none⟩ thrice copying).number.nodes :=
    self_mem_nodes _
  have hSafe : (Stmt.loop ⟨0, none⟩ thrice copying).parallelVerdict defaultLevels = .safe [] := by
    decide +kernel
  have hOrder : [2, 0, 1].Perm (counting 0 3) := by decide
  refine ⟨rfl, (any_order_of_visible hLoop hSafe rfl rfl (truthful_of_cells ?_) hOrder).2
    (truthful_of_cells ?_)⟩
  · decide +kernel
  · decide +kernel

/-- Leaves the number of the iteration in a buffer that is declared here and visible outside. -/
def lastWriter : Stmt :=
  .decl ⟨1, none⟩ "y" ⟨[], .int32, .output, .cpu⟩ (.store ⟨2, none⟩ "y" [] (.var "i"))

/-- The buffer holds what the last iteration has left, and the iterations are called independent. -/
theorem lastWriter_depends_on_order :
    (Stmt.loop ⟨0, none⟩ thrice lastWriter).parallelVerdict defaultLevels = .safe []
      ∧ ((runInOrder .blank (fun _ => 0) thrice lastWriter (counting 0 3) .blank).bind
          fun r => r.1 "y" []) = some 2
      ∧ ((runInOrder .blank (fun _ => 0) thrice lastWriter [2, 1, 0] .blank).bind
          fun r => r.1 "y" []) = some 0 := by
  exact ⟨by decide +kernel, by decide +kernel, by decide +kernel⟩

end LoopNest.Stmt

import LoopNest.Proofs.PermutedCells
import LoopNest.Proofs.ScopedCommands

/-! # Programs that stay fit for transformation

  Transformations keep what a program does as long as bounds and conditions have values wherever they
  may be evaluated, bounds read no buffer, and only local buffers are declared inside loops. A program
  like that is fit, and the transformations of a schedule leave it fit.

  * **Expressions** that have values everywhere (`Expr.Defined`), and what is built from them.
  * **Fit programs** (`Stmt.Fit`): statements inside loops and outside of them. What keeps a statement
    fit may be done anywhere in a program (`Stmt.Replaces.fit`).
  * **Walks**: replaced scalars, permuted accesses and numbering keep programs fit.
  * **Commands**: an accepted command leaves a fit program fit (`Command.Made.keepsFit`). -/

namespace LoopNest

variable {q : Option Int}

/-! ## Expressions with values everywhere -/

namespace Expr

/-- An expression has a value in all environments and in all memories without gaps, when `q` is the
    value of a division by zero, if there is one. -/
def Defined (q : Option Int) (e : Expr) : Prop :=
  ∀ c : Conventions, c.quotient = q → e.DefinedOn c fun _ => True

namespace Defined

variable {a b e w : Expr}

theorem on {c : Conventions} (h : e.Defined c.quotient) (E : Env → Prop) : e.DefinedOn c E :=
  fun env _ => h c rfl env trivial

/-- The value of an expression that has one. -/
theorem exists_value (h : e.Defined q) {c : Conventions} (hc : c.quotient = q) (env : Env)
    {m : Memory} (hm : m.Full) : ∃ v, e.valueWith? c env m = some v :=
  Option.isSome_iff_exists.mp (h c hc env trivial m hm)

theorem int (v : Int) : (Expr.int v).Defined q := fun _ _ _ _ _ _ => rfl

theorem var (x : String) : (Expr.var x).Defined q := fun _ _ _ _ _ _ => rfl

/-- An operator that is defined for all numbers. -/
theorem binary {op : BinaryOp} (hOp : ∀ x y, (op.value? x y).isSome) (ha : a.Defined q)
    (hb : b.Defined q) : (Expr.binary op a b).Defined q := by
  intro c hc env _ m hm
  obtain ⟨x, hx⟩ := ha.exists_value hc env hm
  obtain ⟨y, hy⟩ := hb.exists_value hc env hm
  obtain ⟨v, hv⟩ := Option.isSome_iff_exists.mp (hOp x y)
  simp [valueWith?, hx, hy, BinaryOp.valueWith?_of_value? hv]

theorem plus (ha : a.Defined q) (hb : b.Defined q) : (a.plus b).Defined q := by
  intro c hc env _ m hm
  obtain ⟨x, hx⟩ := ha.exists_value hc env hm
  obtain ⟨y, hy⟩ := hb.exists_value hc env hm
  rw [valueWith?_plus hx hy]
  rfl

theorem minus (ha : a.Defined q) (hb : b.Defined q) : (a.minus b).Defined q := by
  intro c hc env _ m hm
  obtain ⟨x, hx⟩ := ha.exists_value hc env hm
  obtain ⟨y, hy⟩ := hb.exists_value hc env hm
  rw [valueWith?_minus hx hy]
  rfl

/-- A quotient by a positive number. -/
theorem ceilQuot (ha : a.Defined q) {k : Int} (hk : 0 < k) : (a.ceilQuot (.int k)).Defined q := by
  intro c hc env _ m hm
  obtain ⟨x, hx⟩ := ha.exists_value hc env hm
  rw [valueWith?_ceilQuot (b := .int k) rfl hk, hx]
  rfl

theorem substitute (he : e.Defined q) (hw : w.Defined q) (x : String) :
    (e.substitute [(x, w)]).Defined q := by
  intro c hc env _ m hm
  obtain ⟨v, hv⟩ := hw.exists_value hc env hm
  rw [valueWith?_substitute hv]
  exact he c hc _ trivial m hm

theorem permuteCells {order : List Nat} (hOrder : order.Perm (List.range order.length))
    (he : e.Defined q) (n : String) : (e.permuteCells n order).Defined q := by
  intro c hc env _ m' hm'
  -- the memory before the elements of the buffer went to their places
  let m : Memory := fun b cell => if b = n then m' b (place order cell) else m' b cell
  have hPlaced : m.Placed n order m' :=
    ⟨fun cell => (if_pos rfl).symm, fun b hb => funext fun cell => (if_neg hb).symm⟩
  have hm : m.Full := by
    intro b cell
    show (if b = n then _ else _ : Option Int).isSome
    split
    · exact hm' b _
    · exact hm' b cell
  rw [valueWith?_permuteCells hOrder rfl hPlaced]
  exact he c hc env trivial m hm

/-- Without float constants every expression has a value when divisions by zero have one. -/
theorem of_hasFloat (h : e.hasFloat = false) (v : Int) : e.Defined (some v) := fun _ hc _ _ _ hm =>
  valueWith?_isSome (by rw [hc]; rfl) hm e (not_hasFloat_iff.mp h)

end Defined

/-- What is made of expressions that read no buffer reads none. -/
theorem MadeOf.buffers_eq_nil {e : Expr} {es : List Expr} (h : e.MadeOf es)
    (hLoads : ∀ d ∈ es, d.buffers = []) : e.buffers = [] := by
  refine List.eq_nil_iff_forall_not_mem.mpr fun b hb => ?_
  obtain ⟨d, hd, hb⟩ := h.2 b hb
  rw [hLoads d hd] at hb
  cases hb

theorem buffers_permuteCells {e : Expr} (he : e.buffers = []) (n : String) (order : List Nat) :
    (e.permuteCells n order).buffers = [] :=
  (permuteCells_madeOf n order e).buffers_eq_nil fun _ hd => List.mem_singleton.mp hd ▸ he

end Expr

/-! ## Fit programs -/

/-- A loop with nothing asserted about dependences, whose bounds have values everywhere and read no
    buffer. -/
structure LoopHead.Fit (q : Option Int) (h : LoopHead) : Prop where
  noDeps : h.noDeps = []
  loads : ∀ e ∈ [h.lower, h.upper], e.buffers = []
  defined : ∀ e ∈ [h.lower, h.upper], e.Defined q

namespace Stmt

/-- What makes a statement itself fit, inside a loop or outside. -/
def FitHere (q : Option Int) (inside : Bool) : Stmt → Prop
  | .decl _ _ b _ => inside = true → b.access = .cache
  | .loop _ h _ => h.Fit q
  | .guard _ e _ => e.Defined q
  | _ => True

/-- A program is fit: its loops are, its guards have conditions with values everywhere, and inside
    loops all declared buffers are local. -/
inductive Fit (q : Option Int) : (inside : Bool) → Stmt → Prop where
  | intro {inside : Bool} {t : Stmt} (own : t.FitHere q inside)
      (inner : ∀ u ∈ t.children, Fit q (inside || t.isLoop) u) : Fit q inside t

variable {inside : Bool} {t t' u v : Stmt}

theorem Fit.own (h : t.Fit q inside) : t.FitHere q inside := by
  cases h with
  | intro own _ => exact own

theorem Fit.inner (h : t.Fit q inside) : ∀ u ∈ t.children, u.Fit q (inside || t.isLoop) := by
  cases h with
  | intro _ inner => exact inner

/-- A statement that is no loop, and what is below it. -/
theorem fit_iff (hLoop : t.isLoop = false) :
    t.Fit q inside ↔ t.FitHere q inside ∧ ∀ u ∈ t.children, u.Fit q inside := by
  constructor
  · intro h
    have hInner := h.inner
    rw [hLoop, Bool.or_false] at hInner
    exact ⟨h.own, hInner⟩
  · rintro ⟨hOwn, hInner⟩
    refine .intro hOwn ?_
    rw [hLoop, Bool.or_false]
    exact hInner

section forms

variable {s : Site}

theorem fit_decl {n : String} {b : Buffer} {body : Stmt} : (Stmt.decl s n b body).Fit q inside ↔
    (inside = true → b.access = .cache) ∧ body.Fit q inside := by
  rw [fit_iff rfl]
  simp [FitHere, children]

theorem fit_loop {h : LoopHead} {body : Stmt} :
    (Stmt.loop s h body).Fit q inside ↔ h.Fit q ∧ body.Fit q true := by
  have hDeeper : (inside || (Stmt.loop s h body).isLoop) = true := Bool.or_true inside
  constructor
  · intro hLoop
    have hInner := hLoop.inner
    rw [hDeeper] at hInner
    exact ⟨hLoop.own, hInner body (by simp [children])⟩
  · rintro ⟨hOwn, hBody⟩
    refine .intro hOwn fun u hu => ?_
    rwa [List.mem_singleton.mp hu, hDeeper]

theorem fit_guard {e : Expr} {body : Stmt} :
    (Stmt.guard s e body).Fit q inside ↔ e.Defined q ∧ body.Fit q inside := by
  rw [fit_iff rfl]
  simp [FitHere, children]

theorem fit_branch {e : Expr} {yes no : Stmt} :
    (Stmt.branch s e yes no).Fit q inside ↔ yes.Fit q inside ∧ no.Fit q inside := by
  rw [fit_iff rfl]
  simp [FitHere, children]

theorem fit_block {ts : List Stmt} :
    (Stmt.block s ts).Fit q inside ↔ ∀ t ∈ ts, t.Fit q inside := by
  rw [fit_iff rfl]
  simp [FitHere, children]

theorem fit_sequence {ts : List Stmt} (h : ∀ t ∈ ts, t.Fit q inside) :
    (sequence ts).Fit q inside := by
  unfold sequence
  split
  · exact h _ (by simp)
  · exact fit_block.mpr h

end forms

/-- What is inside a fit program is fit, inside a loop if the program is. -/
theorem Fit.of_mem : ∀ {t : Stmt} {inside : Bool}, t.Fit q inside → ∀ u ∈ t.nodes,
    ∃ deeper, (inside = true → deeper = true) ∧ u.Fit q deeper := by
  intro t
  induction t using children_ind with
  | step t ih =>
    intro inside h u hu
    rw [nodes_eq_cons, List.mem_cons] at hu
    rcases hu with rfl | hu
    · exact ⟨inside, fun hInside => hInside, h⟩
    · obtain ⟨w, hw, hu⟩ := List.mem_flatMap.mp hu
      obtain ⟨deeper, hDeeper, hFit⟩ := ih w hw (h.inner w hw) u hu
      exact ⟨deeper, fun hInside => hDeeper (by rw [hInside, Bool.true_or]), hFit⟩

/-- Inside a loop a fit program declares local buffers only. -/
theorem Fit.localsOnly (h : t.Fit q true) : t.localsOnly = true := by
  refine everywhere_iff.mpr fun u hu => ?_
  obtain ⟨deeper, hDeeper, hFit⟩ := h.of_mem u hu
  cases u with
  | decl s n b body => exact decide_eq_true (hFit.own (hDeeper rfl))
  | _ => rfl

theorem Fit.loop (h : t.Fit q inside) {s : Site} {head : LoopHead} {body : Stmt}
    (hLoop : Stmt.loop s head body ∈ t.nodes) : head.Fit q ∧ body.localsOnly = true := by
  obtain ⟨_, _, hFit⟩ := h.of_mem _ hLoop
  obtain ⟨hHead, hBody⟩ := fit_loop.mp hFit
  exact ⟨hHead, hBody.localsOnly⟩

theorem Fit.guard (h : t.Fit q inside) {s : Site} {e : Expr} {body : Stmt}
    (hGuard : Stmt.guard s e body ∈ t.nodes) : e.Defined q := by
  obtain ⟨_, _, hFit⟩ := h.of_mem _ hGuard
  exact hFit.own

/-! ## Rewrites -/

/-- A rewrite leaves a statement fit, inside loops and outside. -/
def KeepsFit (q : Option Int) (t t' : Stmt) : Prop := ∀ inside, t.Fit q inside → t'.Fit q inside

theorem KeepsFit.refl (q : Option Int) (t : Stmt) : t.KeepsFit q t := fun _ h => h

theorem KeepsFit.trans (h : t.KeepsFit q u) (h' : u.KeepsFit q v) : t.KeepsFit q v :=
  fun inside hFit => h' inside (h inside hFit)

/-- **Rewrites anywhere**: what keeps a statement fit keeps the program around it fit. -/
theorem Replaces.fit (h : Replaces u v t t') (hKeeps : u.KeepsFit q v) : t.KeepsFit q t' := by
  induction h with
  | here => exact hKeeps
  | decl s n b _ ih =>
    intro inside hFit
    exact fit_decl.mpr ⟨(fit_decl.mp hFit).1, ih inside (fit_decl.mp hFit).2⟩
  | loop s head _ ih =>
    intro inside hFit
    exact fit_loop.mpr ⟨(fit_loop.mp hFit).1, ih true (fit_loop.mp hFit).2⟩
  | guard s e _ ih =>
    intro inside hFit
    exact fit_guard.mpr ⟨(fit_guard.mp hFit).1, ih inside (fit_guard.mp hFit).2⟩
  | yes s e no _ ih =>
    intro inside hFit
    exact fit_branch.mpr ⟨ih inside (fit_branch.mp hFit).1, (fit_branch.mp hFit).2⟩
  | no s e yes _ ih =>
    intro inside hFit
    exact fit_branch.mpr ⟨(fit_branch.mp hFit).1, ih inside (fit_branch.mp hFit).2⟩
  | @block t t' s before after _ ih =>
    intro inside hFit
    have hEach := fit_block.mp hFit
    refine fit_block.mpr fun w hw => ?_
    rcases List.mem_append.mp hw with hw | hw
    · exact hEach w (List.mem_append_left _ hw)
    · rcases List.mem_cons.mp hw with rfl | hw
      · exact ih inside (hEach t (by simp))
      · exact hEach w (by simp [hw])

theorem KeepsFit.update (h : u.KeepsFit q v) (hIds : t.ids.Nodup) (hu : u ∈ t.nodes) :
    t.KeepsFit q (t.update u.id fun _ => v) :=
  (replaces_update t hIds hu).fit h

/-! ## Walks -/

/-- Replacing a scalar by something that has a value everywhere and reads no buffer. -/
theorem keepsFit_substitute (x : String) {w : Expr} (hw : w.Defined q) (hLoads : w.buffers = []) :
    ∀ t : Stmt, t.KeepsFit q (t.substitute x w) := by
  refine Stmt.ind ?decl ?loop ?guard ?branch ?store ?call ?block ?hole
  case decl =>
    intro s n b body ih inside h
    exact fit_decl.mpr ⟨(fit_decl.mp h).1, ih inside (fit_decl.mp h).2⟩
  case loop =>
    intro s head body ih inside h
    obtain ⟨hHead, hBody⟩ := fit_loop.mp h
    have hBounds : ∀ e ∈ [head.lower.substitute [(x, w)], head.upper.substitute [(x, w)]],
        ∃ d ∈ [head.lower, head.upper], e = d.substitute [(x, w)] := by simp
    rw [Stmt.substitute]
    refine fit_loop.mpr ⟨⟨hHead.noDeps, fun e he => ?_, fun e he => ?_⟩, ?_⟩
    · obtain ⟨d, hd, rfl⟩ := hBounds e he
      exact Expr.buffers_substitute (hHead.loads d hd) hLoads x
    · obtain ⟨d, hd, rfl⟩ := hBounds e he
      exact (hHead.defined d hd).substitute hw x
    · split
      · exact hBody
      · exact ih true hBody
  case guard =>
    intro s e body ih inside h
    obtain ⟨hCond, hBody⟩ := fit_guard.mp h
    exact fit_guard.mpr ⟨hCond.substitute hw x, ih inside hBody⟩
  case branch =>
    intro s e yes no ihYes ihNo inside h
    obtain ⟨hYes, hNo⟩ := fit_branch.mp h
    exact fit_branch.mpr ⟨ihYes inside hYes, ihNo inside hNo⟩
  case store => exact fun s b is v inside _ => .intro trivial fun u hu => absurd hu List.not_mem_nil
  case call => exact fun s f args inside _ => .intro trivial fun u hu => absurd hu List.not_mem_nil
  case block =>
    intro s ts ih inside h
    rw [Stmt.substitute, substituteAll_eq_map]
    refine fit_block.mpr fun u hu => ?_
    obtain ⟨t, ht, rfl⟩ := List.mem_map.mp hu
    exact ih t ht inside (fit_block.mp h t ht)
  case hole => exact fun s => .refl q _

/-- Permuting the subscripts of all accesses to a buffer. -/
theorem keepsFit_permuteAccesses (n : String) {order : List Nat}
    (hOrder : order.Perm (List.range order.length)) :
    ∀ t : Stmt, t.KeepsFit q (t.permuteAccesses n order) := by
  refine Stmt.ind ?decl ?loop ?guard ?branch ?store ?call ?block ?hole
  case decl =>
    intro s x b body ih inside h
    obtain ⟨hOwn, hBody⟩ := fit_decl.mp h
    rw [permuteAccesses]
    refine fit_decl.mpr ⟨hOwn, ?_⟩
    split
    · exact hBody
    · exact ih inside hBody
  case loop =>
    intro s head body ih inside h
    obtain ⟨hHead, hBody⟩ := fit_loop.mp h
    have hBounds : ∀ e ∈ [head.lower.permuteCells n order, head.upper.permuteCells n order],
        ∃ d ∈ [head.lower, head.upper], e = d.permuteCells n order := by simp
    rw [permuteAccesses]
    refine fit_loop.mpr ⟨⟨hHead.noDeps, fun e he => ?_, fun e he => ?_⟩, ih true hBody⟩
    · obtain ⟨d, hd, rfl⟩ := hBounds e he
      exact Expr.buffers_permuteCells (hHead.loads d hd) n order
    · obtain ⟨d, hd, rfl⟩ := hBounds e he
      exact (hHead.defined d hd).permuteCells hOrder n
  case guard =>
    intro s e body ih inside h
    obtain ⟨hCond, hBody⟩ := fit_guard.mp h
    exact fit_guard.mpr ⟨hCond.permuteCells hOrder n, ih inside hBody⟩
  case branch =>
    intro s e yes no ihYes ihNo inside h
    obtain ⟨hYes, hNo⟩ := fit_branch.mp h
    exact fit_branch.mpr ⟨ihYes inside hYes, ihNo inside hNo⟩
  case store => exact fun s b is v inside _ => .intro trivial fun u hu => absurd hu List.not_mem_nil
  case call => exact fun s f args inside _ => .intro trivial fun u hu => absurd hu List.not_mem_nil
  case block =>
    intro s ts ih inside h
    rw [permuteAccesses, permuteAccessesAll_eq_map]
    refine fit_block.mpr fun u hu => ?_
    obtain ⟨t, ht, rfl⟩ := List.mem_map.mp hu
    exact ih t ht inside (fit_block.mp h t ht)
  case hole => exact fun s => .refl q _

theorem keepsFit_numberFrom : ∀ (t : Stmt) (n : Nat), t.KeepsFit q (t.numberFrom n).1 := by
  refine Stmt.ind ?decl ?loop ?guard ?branch ?store ?call ?block ?hole
  case decl =>
    intro s name b body ih n inside h
    exact fit_decl.mpr ⟨(fit_decl.mp h).1, ih (n + 1) inside (fit_decl.mp h).2⟩
  case loop =>
    intro s head body ih n inside h
    exact fit_loop.mpr ⟨(fit_loop.mp h).1, ih (n + 1) true (fit_loop.mp h).2⟩
  case guard =>
    intro s e body ih n inside h
    exact fit_guard.mpr ⟨(fit_guard.mp h).1, ih (n + 1) inside (fit_guard.mp h).2⟩
  case branch =>
    intro s e yes no ihYes ihNo n inside h
    exact fit_branch.mpr ⟨ihYes _ inside (fit_branch.mp h).1, ihNo _ inside (fit_branch.mp h).2⟩
  case store => exact fun s b is v n inside h => .intro trivial h.inner
  case call => exact fun s f args n inside h => .intro trivial h.inner
  case block =>
    intro s ts ih n inside h
    have hEach := fit_block.mp h
    rw [numberFrom]
    refine fit_block.mpr ?_
    clear h
    generalize n + 1 = m
    induction ts generalizing m with
    | nil => exact fun u hu => absurd hu List.not_mem_nil
    | cons t ts ihList =>
      rw [numberAllFrom, List.forall_mem_cons]
      exact ⟨ih t List.mem_cons_self m inside (hEach t List.mem_cons_self),
        ihList (fun u hu => ih u (List.mem_cons_of_mem t hu))
          (fun u hu => hEach u (List.mem_cons_of_mem t hu)) _⟩
  case hole => exact fun s n inside h => .intro trivial h.inner

/-- **Numbering** keeps a program fit. -/
theorem keepsFit_number (t : Stmt) : t.KeepsFit q t.number := keepsFit_numberFrom t 0

end Stmt

/-! ## Transformations -/

namespace Restructure

open Stmt (LabelledLoop)

variable {t t' : Stmt} {k : Nat}

/-- **Sinking** what lies between two loops into the inner one. -/
theorem Framed.fit {inner : LabelledLoop} {b : Between} (h : Framed inner.stmt t b)
    (hFit : t.Fit q true) (next : Nat) :
    (Stmt.loop inner.site inner.head (b.innerBody inner next).1).Fit q true := by
  obtain ⟨hInner, hConds, hParts⟩ := h.parts (C := Expr.Defined q) (P := Stmt.Fit q true)
    (fun _ _ => Stmt.fit_block.mp) (fun _ _ _ => Stmt.fit_guard.mp) hFit
  obtain ⟨hHead, hBody⟩ := Stmt.fit_loop.mp hInner
  have hLower : inner.head.lower.Defined q := hHead.defined _ (by simp)
  have hUpper : inner.head.upper.Defined q := hHead.defined _ (by simp)
  have hClosed : PartClosed 0 (Expr.Defined q) (Stmt.Fit q true) :=
    ⟨fun _ _ _ => Stmt.fit_block.mpr, fun _ _ _ _ he hBody => Stmt.fit_guard.mpr ⟨he, hBody⟩⟩
  have hEquals : ∀ {e : Expr}, e.Defined q → ((Expr.var inner.head.iter).equals e).Defined q :=
    fun he => .binary (fun _ _ => rfl) (.var _) he
  exact Stmt.fit_loop.mpr ⟨hHead, hClosed.innerBody (Nat.zero_le next)
    (fun _ _ => .binary fun _ _ => rfl) (hEquals hLower) (hEquals (hUpper.minus (.int 1))) hConds hParts
    hBody⟩

/-- **Perfect nests**. -/
theorem Sinks.keepsFit {first : Nat} {outer : LabelledLoop} {rest : List LabelledLoop}
    {nest : PerfectNest} (h : Sinks first outer rest nest) : outer.stmt.KeepsFit q (nestOf nest.loops nest.body) := by
  induction h with
  | last l => exact .refl q l.stmt
  | @next outer inner rest b nest n framed _ _ _ _ ih =>
    intro inside hFit
    obtain ⟨hHead, hBody⟩ := Stmt.fit_loop.mp hFit
    exact Stmt.fit_loop.mpr ⟨hHead, ih true (framed.fit hBody n)⟩

/-- **Permuted nests**: fit loops may stand in any order. -/
theorem keepsFit_permuted {body : Stmt} {loops loops' : List (Site × LoopHead)}
    (hPerm : loops.Perm loops') : (nestOf loops body).KeepsFit q (nestOf loops' body) := by
  induction hPerm with
  | nil => exact .refl q body
  | cons l _ ih =>
    intro inside hFit
    obtain ⟨hHead, hBody⟩ := Stmt.fit_loop.mp hFit
    exact Stmt.fit_loop.mpr ⟨hHead, ih true hBody⟩
  | swap a b loops =>
    intro inside hFit
    obtain ⟨hOuter, hRest⟩ := Stmt.fit_loop.mp hFit
    obtain ⟨hInner, hBody⟩ := Stmt.fit_loop.mp hRest
    exact Stmt.fit_loop.mpr ⟨hInner, Stmt.fit_loop.mpr ⟨hOuter, hBody⟩⟩
  | trans _ _ ih ih' => exact ih.trans ih'

theorem keepsFit_reorder {labels : List String} (hIds : t.ids.Nodup)
    (hLess : ∀ i ∈ t.ids, i < t.size) (h : reorder k t labels = .ok t') : t.KeepsFit q t' := by
  rcases reorder_cases h with rfl | ⟨outer, rest, order, nest, hCases⟩
  · exact .refl q t'
  · obtain ⟨hOuter, hSinks⟩ := hCases.sinks hIds hLess
    have hPlaces := hCases.places
    rw [← List.length_map (fun l : LabelledLoop => (l.site, l.head)), ← hSinks.loops] at hPlaces
    rw [hCases.result]
    exact (hSinks.keepsFit.trans (keepsFit_permuted (permuted_perm hPlaces).symm)).update hIds hOuter

/-- **Splitting** a loop by a positive count. -/
theorem keepsFit_splitLoop {l : LabelledLoop} {s : SplitBy} {v : Int} (hCount : s.count = .int v)
    (hv : 0 < v) (names : SplitNames) : l.stmt.KeepsFit q (splitLoop l s names) := by
  intro inside hFit
  obtain ⟨hHead, hBody⟩ := Stmt.fit_loop.mp hFit
  have hLower : l.head.lower.Defined q := hHead.defined _ (by simp)
  have hUpper : l.head.upper.Defined q := hHead.defined _ (by simp)
  have hExtent : (l.head.upper.minus l.head.lower).Defined q := hUpper.minus hLower
  have hCounts : (newCounts l s).1.Defined q ∧ (newCounts l s).2.Defined q := by
    cases s with
    | factor c =>
      obtain rfl : c = .int v := hCount
      exact ⟨hExtent.ceilQuot hv, .int v⟩
    | parts c =>
      obtain rfl : c = .int v := hCount
      exact ⟨.int v, hExtent.ceilQuot hv⟩
  have hLoads : ∀ d ∈ governing l s.count, d.buffers = [] := by
    intro d hd
    simp only [governing, List.mem_cons, List.not_mem_nil, or_false] at hd
    rcases hd with rfl | rfl | rfl
    · exact hHead.loads _ (by simp)
    · exact hHead.loads _ (by simp)
    · rw [hCount]
      rfl
  obtain ⟨hOuterMade, hInnerMade⟩ := newCounts_madeOf l s
  -- the old iterator has a value everywhere
  have hOld : (oldIterator l s names).Defined q :=
    hLower.plus (.binary (fun _ _ => rfl) (.var _) (.binary (fun _ _ => rfl) hCounts.2 (.var _)))
  have hOldLoads : (oldIterator l s names).buffers = [] := by
    refine (oldIterator_madeOf l s names).buffers_eq_nil fun d hd => ?_
    rcases List.mem_cons.mp hd with rfl | hd
    · rfl
    · rcases List.mem_cons.mp hd with rfl | hd
      · rfl
      · exact hLoads d hd
  have hHeadOf : ∀ (h : LoopHead) (e : Expr), h.noDeps = [] → h.lower = .int 0 → h.upper = e →
      e.Defined q → e.buffers = [] → h.Fit q := by
    rintro h e hNoDeps hZero rfl hDefined hNone
    refine ⟨hNoDeps, fun d hd => ?_, fun d hd => ?_⟩ <;>
      rcases List.mem_cons.mp hd with rfl | hd
    · rw [hZero]
      rfl
    · rwa [List.mem_singleton.mp hd]
    · rw [hZero]
      exact .int 0
    · rwa [List.mem_singleton.mp hd]
  have hNewBody : (newBody l s names).Fit q true := by
    have hSubstituted := Stmt.keepsFit_substitute l.head.iter hOld hOldLoads l.body true hBody
    unfold newBody
    dsimp only
    split
    · exact hSubstituted
    · exact Stmt.fit_guard.mpr ⟨.binary (fun _ _ => rfl) hOld hUpper, hSubstituted⟩
  rw [splitLoop_eq]
  refine Stmt.fit_loop.mpr ⟨hHeadOf _ _ hHead.noDeps rfl rfl hCounts.1
    (hOuterMade.buffers_eq_nil hLoads), ?_⟩
  exact Stmt.fit_loop.mpr ⟨hHeadOf _ _ rfl rfl rfl hCounts.2 (hInnerMade.buffers_eq_nil hLoads),
    hNewBody⟩

/-- **Distribution** over two loops. -/
theorem keepsFit_twoLoops {l : LabelledLoop} {site : Site} {first second : List Stmt}
    (hBody : l.body = .block site (first ++ second)) (a b : String) :
    l.stmt.KeepsFit q (twoLoops l.head a b first second) := by
  intro inside hFit
  obtain ⟨hHead, hEach⟩ := Stmt.fit_loop.mp hFit
  rw [hBody, Stmt.fit_block] at hEach
  refine Stmt.fit_block.mpr fun u hu => ?_
  rcases List.mem_cons.mp hu with rfl | hu
  · exact Stmt.fit_loop.mpr
      ⟨hHead, Stmt.fit_sequence fun w hw => hEach w (List.mem_append_left _ hw)⟩
  · rw [List.mem_singleton.mp hu]
    exact Stmt.fit_loop.mpr
      ⟨hHead, Stmt.fit_sequence fun w hw => hEach w (List.mem_append_right _ hw)⟩

/-- **Permuted dimensions** of a buffer. -/
theorem keepsFit_varReorder {label : String} {order : List Nat} (hIds : t.ids.Nodup)
    (h : varReorder t label order = .ok t') : t.KeepsFit q t' := by
  obtain ⟨site, n, b, body, hDecl, _, _, hPermutation, rfl⟩ := varReorder_cases h
  refine Stmt.KeepsFit.update (u := .decl site n b body) (fun inside hFit => ?_) hIds hDecl
  obtain ⟨hOwn, hBody⟩ := Stmt.fit_decl.mp hFit
  exact Stmt.fit_decl.mpr
    ⟨hOwn, Stmt.keepsFit_permuteAccesses n (perm_of_isPermutation hPermutation) body inside hBody⟩

end Restructure

/-- **Commands**: what an accepted command makes of a fit program is fit. -/
theorem Command.Made.keepsFit {t t' : Stmt} {k : Nat} (h : Made k t t') (hIds : t.ids.Nodup)
    (hLess : ∀ i ∈ t.ids, i < t.size) : t.KeepsFit q t' := by
  cases h with
  | reorder hReorder => exact Restructure.keepsFit_reorder hIds hLess hReorder
  | split hArgs hConstant hSplit =>
    obtain ⟨l, r, hFound, hReduced, rfl⟩ := Restructure.split_cases hArgs hSplit
    obtain ⟨hCount, hv⟩ := Restructure.SplitBy.reduced_of_constant hConstant hReduced
    exact (Restructure.keepsFit_splitLoop hCount hv _).update hIds (Stmt.mem_of_loopAt hFound)
  | parallelize hParallelize =>
    obtain ⟨l, hFound, rfl⟩ := Restructure.parallelize_cases hParallelize
    refine Stmt.KeepsFit.update (u := l.stmt) (fun inside hFit => ?_) hIds (Stmt.mem_of_loopAt hFound)
    obtain ⟨hHead, hBody⟩ := Stmt.fit_loop.mp hFit
    exact Stmt.fit_loop.mpr ⟨⟨hHead.noDeps, hHead.loads, hHead.defined⟩, hBody⟩
  | fission hFission =>
    obtain ⟨l, site, first, second, hDistributed⟩ := Restructure.fission_cases hFission
    rw [hDistributed.result]
    exact (Restructure.keepsFit_twoLoops hDistributed.body _ _).update hIds
      (Stmt.mem_of_loopAt hDistributed.found)
  | varReorder hReorder => exact Restructure.keepsFit_varReorder hIds hReorder

end LoopNest

import LoopNest.Proofs.BoundNames
import LoopNest.Proofs.SplitLoops
import LoopNest.Semantics.Rounding

/-! # Captured scalars

  `Stmt.substitute` puts an expression in the place of a scalar. It leaves the bodies of loops alone
  that set the scalar themselves, but it does not look at the scalars of the expression: below a loop
  that sets one of these, the expression is read with the iterator of that loop.

  * `Stmt.Admits` says that this happens nowhere: where the scalar is used, and no loop around that
    place sets it, no loop around that place sets a scalar of the expression, either.
  * Main statement: then the program with the expression does what the program does where the scalar
    has the value of the expression (`Stmt.substitute_preserves`). An expression that reads no buffer
    has one value everywhere outside of such loops, so nothing else is needed.
  * Otherwise other elements may be written (`Stmt.writingTwice_captured`). -/

namespace LoopNest

/-! ## Rounded programs -/

namespace Expr

section rounded

variable (round : Float → Int)

@[simp] theorem scalars_rounded : ∀ e : Expr, (e.rounded round).scalars = e.scalars := by
  refine Expr.ind ?int ?float ?bool ?var ?load ?unary ?binary
  case int => exact fun _ => rfl
  case float => exact fun _ => rfl
  case bool => exact fun _ => rfl
  case var => exact fun _ => rfl
  case load =>
    intro b is ih
    rw [rounded, roundedAll_eq_map, scalars_load, scalars_load, List.flatMap_map]
    exact List.flatMap_congr ih
  case unary => exact fun op e ih => by rw [rounded, scalars_unary, scalars_unary, ih]
  case binary =>
    exact fun op a b iha ihb => by rw [rounded, scalars_binary, scalars_binary, iha, ihb]

@[simp] theorem buffers_rounded : ∀ e : Expr, (e.rounded round).buffers = e.buffers := by
  refine Expr.ind ?int ?float ?bool ?var ?load ?unary ?binary
  case int => exact fun _ => rfl
  case float => exact fun _ => rfl
  case bool => exact fun _ => rfl
  case var => exact fun _ => rfl
  case load =>
    intro b is ih
    rw [rounded, roundedAll_eq_map, buffers_load, buffers_load, List.flatMap_map]
    exact congrArg _ (List.flatMap_congr ih)
  case unary => exact fun op e ih => by rw [rounded, buffers_unary, buffers_unary, ih]
  case binary =>
    exact fun op a b iha ihb => by rw [rounded, buffers_binary, buffers_binary, iha, ihb]

theorem rounded_substitute (x : String) (w : Expr) : ∀ e : Expr,
    (e.substitute [(x, w)]).rounded round = (e.rounded round).substitute [(x, w.rounded round)] := by
  refine Expr.ind ?int ?float ?bool ?var ?load ?unary ?binary
  case int => exact fun _ => rfl
  case float => exact fun _ => rfl
  case bool => exact fun _ => rfl
  case var =>
    intro y
    by_cases hy : y = x
    · subst hy
      simp [substitute, rounded]
    · have hOther : ∀ w : Expr, List.lookup y [(x, w)] = none := fun w => by
        rw [List.lookup_cons, beq_eq_false_iff_ne.mpr hy]
        rfl
      simp [substitute, rounded, hOther]
  case load =>
    intro b is ih
    simp only [substitute, rounded, substituteAll_eq_map, roundedAll_eq_map, List.map_map]
    exact congrArg _ (List.map_congr_left ih)
  case unary => exact fun op e ih => by rw [substitute, rounded, rounded, substitute, ih]
  case binary => exact fun op a b iha ihb => by rw [substitute, rounded, rounded, substitute, iha, ihb]

end rounded

end Expr

namespace Stmt

theorem rounded_substitute (round : Float → Int) (x : String) (w : Expr) : ∀ t : Stmt,
    (t.substitute x w).rounded round = (t.rounded round).substitute x (w.rounded round) := by
  have hExprs : ∀ es : List Expr, (es.map (Expr.substitute [(x, w)])).map (Expr.rounded round)
      = (es.map (Expr.rounded round)).map (Expr.substitute [(x, w.rounded round)]) := by
    intro es
    rw [List.map_map, List.map_map]
    exact List.map_congr_left fun e _ => Expr.rounded_substitute round x w e
  refine Stmt.ind ?decl ?loop ?guard ?branch ?store ?call ?block ?hole
  case decl =>
    intro s n b body ih
    simp only [substitute, rounded_decl, ih, hExprs]
  case loop =>
    intro s h body ih
    simp only [substitute, rounded_loop, Expr.rounded_substitute]
    split
    · rfl
    · rw [ih]
  case guard =>
    intro s c body ih
    simp only [substitute, rounded_guard, ih, Expr.rounded_substitute]
  case branch =>
    intro s c yes no ihYes ihNo
    simp only [substitute, rounded_branch, ihYes, ihNo, Expr.rounded_substitute]
  case store =>
    intro s b is v
    simp only [substitute, rounded_store, hExprs, Expr.rounded_substitute]
  case call =>
    intro s f args
    simp only [substitute, rounded_call, List.map_map]
    refine congrArg _ (List.map_congr_left fun arg _ => ?_)
    cases arg with
    | buffer b => rfl
    | value e => exact congrArg Arg.value (Expr.rounded_substitute round x w e)
  case block =>
    intro s ts ih
    simp only [substitute, rounded_block, substituteAll_eq_map, List.map_map]
    exact congrArg _ (List.map_congr_left ih)
  case hole => exact fun _ => rfl

/-! ## Programs that admit an expression -/

/-- Below the loops with the iterators `around`: wherever the scalar is used and no loop around that
    place sets it, no loop around that place sets a scalar of the expression. -/
def Admits (x : String) (w : Expr) (around : List String) (t : Stmt) : Prop :=
  ∀ place ∈ t.scopedPhrases around, ∀ e ∈ place.2, x ∈ e.scalars →
    x ∈ place.1 ∨ ∀ y ∈ w.scalars, y ∉ place.1

instance (x : String) (w : Expr) (around : List String) (t : Stmt) :
    Decidable (t.Admits x w around) :=
  inferInstanceAs (Decidable (∀ place ∈ t.scopedPhrases around, ∀ e ∈ place.2, x ∈ e.scalars →
    x ∈ place.1 ∨ ∀ y ∈ w.scalars, y ∉ place.1))

section admits

variable {x : String} {w : Expr} {around : List String} {t u : Stmt}

theorem Admits.own (h : t.Admits x w around) :
    ∀ e ∈ t.exprs, x ∈ e.scalars → x ∈ around ∨ ∀ y ∈ w.scalars, y ∉ around :=
  h (around, t.exprs) (by rw [scopedPhrases_eq_cons]; exact List.mem_cons_self)

theorem Admits.child (h : t.Admits x w around) (hu : u ∈ t.children) :
    u.Admits x w (t.iterator?.toList ++ around) := by
  intro place hPlace
  refine h place ?_
  rw [scopedPhrases_eq_cons]
  exact List.mem_cons_of_mem _ (List.mem_flatMap.mpr ⟨u, hu, hPlace⟩)

/-- Translates the phrases of a program, with the iterators around them, when it translates those of
    each statement. -/
theorem scopedPhrases_bottomUp {f : Stmt → Stmt} {φ : Expr → Expr}
    (hExprs : ∀ u, (f u).exprs = u.exprs.map φ) (hChildren : ∀ u, (f u).children = u.children)
    (hIter : ∀ u, (f u).iterator? = u.iterator?) : ∀ (t : Stmt) (around : List String),
    (t.bottomUp f).scopedPhrases around
      = (t.scopedPhrases around).map fun place => (place.1, place.2.map φ) := by
  refine children_ind fun t ih around => ?_
  have hSame : (t.mapChildren (bottomUp f)).iterator? = t.iterator? := by cases t <;> rfl
  rw [bottomUp_eq, scopedPhrases_eq_cons, scopedPhrases_eq_cons around t, hExprs, hChildren, hIter,
    exprs_mapChildren, children_mapChildren, hSame, List.flatMap_map, List.map_cons, List.map_flatMap]
  exact congrArg _ (List.flatMap_congr fun u hu => ih u hu _)

theorem Admits.rounded (round : Float → Int) (h : t.Admits x w around) :
    (t.rounded round).Admits x (w.rounded round) around := by
  intro place hPlace e he hx
  have hPhrases := scopedPhrases_bottomUp (exprs_mapOwnExprs (Expr.rounded round))
    (fun u => by cases u <;> rfl) (fun u => by cases u <;> rfl) t around
  rw [Stmt.rounded, mapExprs, hPhrases] at hPlace
  obtain ⟨old, hOld, rfl⟩ := List.mem_map.mp hPlace
  obtain ⟨d, hd, rfl⟩ := List.mem_map.mp he
  rw [Expr.scalars_rounded] at hx ⊢
  exact h old hOld d hd hx

end admits

/-! ## Runs -/

section run

variable {c : Conventions} {x : String} {w : Expr} {v : Int}

theorem Admits.valueWith?_substitute {t : Stmt} {around : List String} {env : Env}
    (h : t.Admits x w around) (hOpen : x ∉ around)
    (hw : (∀ y ∈ w.scalars, y ∉ around) → ∀ m, w.valueWith? c env m = some v) {e : Expr}
    (he : e ∈ t.exprs) (m : Memory) : (e.substitute [(x, w)]).valueWith? c env m
      = e.valueWith? c (env.set x v) m := by
  by_cases hx : x ∈ e.scalars
  · exact Expr.valueWith?_substitute (hw ((h.own e he hx).resolve_left hOpen) m) e
  · rw [Expr.substitute_eq_self hx]
    refine (Expr.valueWith?_congr_names (fun y hy => ?_) fun _ _ => rfl).symm
    exact Env.set_ne (by rintro rfl; exact hx hy)

/-- **Runs without capture**: below loops that do not set the scalar, the program with the expression
    runs like the program with its value, if it admits it. The expression has its value below loops
    that set none of its scalars, and below other loops the scalar is not used. -/
theorem runWith_of_admits :
    ∀ (t : Stmt) (around : List String) (env : Env), x ∉ around → t.Admits x w around →
      ((∀ y ∈ w.scalars, y ∉ around) → ∀ m, w.valueWith? c env m = some v) →
      (t.substitute x w).runWith c env = t.runWith c (env.set x v) := by
  refine Stmt.ind ?decl ?loop ?guard ?branch ?store ?call ?block ?hole
  case decl =>
    intro s n b body ih around env hOpen hAdmits hw
    rw [substitute, runWith, runWith, ih around env hOpen (hAdmits.child (by simp [children])) hw]
  case loop =>
    intro s head body ih around env hOpen hAdmits hw
    have hBody : ∀ u : Int,
        (if head.iter = x then body else body.substitute x w).runWith c (env.set head.iter u)
          = body.runWith c ((env.set x v).set head.iter u) := by
      intro u
      by_cases hIter : head.iter = x
      · -- the loop sets the scalar itself, so its old value does not matter
        rw [if_pos hIter, hIter, Env.set_set]
      · rw [if_neg hIter, Env.set_comm env (Ne.symm hIter)]
        refine ih (head.iter :: around) _ (by simp [Ne.symm hIter, hOpen])
          (hAdmits.child (by simp [children])) fun hApart m => ?_
        rw [← hw (fun y hy hMem => hApart y hy (List.mem_cons_of_mem _ hMem)) m]
        refine Expr.valueWith?_congr_names (fun y hy => ?_) fun _ _ => rfl
        exact Env.set_ne (by rintro rfl; exact hApart _ hy List.mem_cons_self)
    funext m
    rw [substitute]
    simp only [runWith, hAdmits.valueWith?_substitute hOpen hw (e := head.lower) (by simp [exprs]),
      hAdmits.valueWith?_substitute hOpen hw (e := head.upper) (by simp [exprs]), hBody]
  case guard =>
    intro s e body ih around env hOpen hAdmits hw
    funext m
    rw [substitute]
    simp only [runWith, hAdmits.valueWith?_substitute hOpen hw (e := e) (by simp [exprs]),
      ih around env hOpen (hAdmits.child (by simp [children])) hw]
  case branch =>
    intro s e yes no ihYes ihNo around env hOpen hAdmits hw
    funext m
    rw [substitute]
    simp only [runWith, hAdmits.valueWith?_substitute hOpen hw (e := e) (by simp [exprs]),
      ihYes around env hOpen (hAdmits.child (by simp [children])) hw,
      ihNo around env hOpen (hAdmits.child (by simp [children])) hw]
  case store =>
    intro s b is u around env hOpen hAdmits hw
    funext m
    have hSubscripts : Expr.valuesWith? c env m (is.map (Expr.substitute [(x, w)]))
        = Expr.valuesWith? c (env.set x v) m is := by
      rw [Expr.valuesWith?_eq_mapM, Expr.valuesWith?_eq_mapM]
      exact Expr.mapM_map_congr fun e he =>
        hAdmits.valueWith?_substitute hOpen hw (by simp [exprs, he]) m
    rw [substitute]
    simp only [runWith, hAdmits.valueWith?_substitute hOpen hw (e := u) (by simp [exprs]),
      hSubscripts]
  case call => exact fun s f args around env _ _ _ => rfl
  case block =>
    intro s ts ih around env hOpen hAdmits hw
    rw [substitute, runWith, runWith, runAllWith_eq_inTurn, runAllWith_eq_inTurn,
      substituteAll_eq_map, List.map_map]
    refine congrArg _ (List.map_congr_left fun t ht => ?_)
    exact ih t ht around env hOpen (hAdmits.child (by simpa [children] using ht)) hw
  case hole => exact fun s around env _ _ _ => rfl

end run

/-- **Scalars without capture**: take any program that admits an expression without loads in the place
    of a scalar, and give that scalar the value of the expression. Then the program with the expression
    makes the same writes in the same order, leaves the same memory, and has no result where the
    program has none. Float constants may be rounded in any way. -/
theorem substitute_preserves {t : Stmt} {x : String} {w : Expr} (hLoads : w.buffers = [])
    (hAdmits : t.Admits x w []) (round : Float → Int) (fresh : Memory) {env : Env} {m : Memory}
    {v : Int} (hValue : (w.rounded round).value? env m = some v) :
    ((t.substitute x w).rounded round).run fresh env
      = (t.rounded round).run fresh (env.set x v) := by
  have hSteady : ∀ m', (w.rounded round).valueWith? (.reference fresh) env m' = some v := by
    intro m'
    rw [← hValue, ← Expr.valueWith?_reference fresh]
    refine Expr.valueWith?_congr_names (fun _ _ => rfl) fun b hb => ?_
    rw [Expr.buffers_rounded, hLoads] at hb
    cases hb
  have hRun := runWith_of_admits (c := .reference fresh) (t.rounded round) [] env (by simp)
    (hAdmits.rounded round) fun _ => hSteady
  rwa [← rounded_substitute, runWith_reference, runWith_reference] at hRun

/-- Three statements that use `i`, or set it, or lie in a loop over `j` without using it. -/
def sweeps : Stmt :=
  .block ⟨0, none⟩
    [.loop ⟨1, none⟩ { iter := "i", lower := .int 0, upper := .var "i" }
      (.store ⟨2, none⟩ "y" [.var "i"] (.var "j")),
    .loop ⟨3, none⟩ { iter := "j", lower := .int 0, upper := .var "i" }
      (.store ⟨4, none⟩ "y" [.var "j"] (.int 1)),
    .store ⟨5, none⟩ "y" [.var "i"] (.int 3)]

/-- The successor of `j`. -/
def successor : Expr := .add (.var "j") (.int 1)

theorem sweeps_preserved :
    successor.buffers = [] ∧ sweeps.Admits "i" successor []
      ∧ (successor.rounded fun _ => 0).value? (fun _ => 1) .blank = some 2
      ∧ ((sweeps.substitute "i" successor).rounded fun _ => 0).run .blank (fun _ => 1)
        = (sweeps.rounded fun _ => 0).run .blank (Env.set (fun _ => 1) "i" 2) := by
  have hLoads : successor.buffers = [] := rfl
  have hAdmits : sweeps.Admits "i" successor [] := by decide
  exact ⟨hLoads, hAdmits, rfl,
    substitute_preserves hLoads hAdmits (fun _ => 0) .blank (m := .blank) rfl⟩

/-- Sets two elements with the same subscript, in a loop that counts by `j`. -/
def writingTwice : Stmt :=
  .loop ⟨0, none⟩ { iter := "j", lower := .int 0, upper := .int 2 }
    (.store ⟨1, none⟩ "y" [.var "i"] (.int 1))

/-- With `j`, which is 5, in the place of `i` it writes `y[0]` and `y[1]`, not `y[5]`. -/
theorem writingTwice_captured :
    (Expr.var "j").value? (fun _ => 5) .blank = some 5
      ∧ ((writingTwice.substitute "i" (.var "j")).run .blank (fun _ => 5) .blank).map Prod.snd
        = some [⟨"y", [0], 1⟩, ⟨"y", [1], 1⟩]
      ∧ (writingTwice.run .blank (Env.set (fun _ => 5) "i" 5) .blank).map Prod.snd
        = some [⟨"y", [5], 1⟩, ⟨"y", [5], 1⟩] := ⟨rfl, rfl, rfl⟩

end Stmt

end LoopNest

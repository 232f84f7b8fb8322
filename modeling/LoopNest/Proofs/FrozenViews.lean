import LoopNest.Proofs.CopiedPrograms
import LoopNest.Restructure.Passing

/-! # Buffers that are not written

  In a frozen view some buffers keep their contents, whatever is done to them. A program that writes
  none of these buffers, itself or by way of the functions it calls, does the same in both views
  (`Stmt.execute_frozen`). -/

namespace LoopNest

variable {S : Type}

/-- A view in which some buffers keep their contents. -/
def View.frozen (V : View S) (kept : String → Bool) : View S where
  seen := V.seen
  exchange s b cells := if kept b then s else V.exchange s b cells

namespace View

variable {V : View S} {kept : String → Bool} {b : String}

@[simp] theorem frozen_seen (s : S) : (V.frozen kept).seen s = V.seen s := rfl

theorem frozen_exchange_of_kept (h : kept b = true) (s : S) (cells : Cells) :
    (V.frozen kept).exchange s b cells = s := if_pos h

theorem frozen_exchange_of_not_kept (h : kept b = false) (s : S) (cells : Cells) :
    (V.frozen kept).exchange s b cells = V.exchange s b cells :=
  if_neg (by rw [h]; exact Bool.false_ne_true)

/-- A function sees those parameters frozen that stand for a frozen buffer. -/
theorem callee_frozen (aliases : Expr.Renaming) : (V.frozen kept).callee aliases
    = (V.callee aliases).frozen fun p => (aliases.lookup p).any kept := by
  have hExchange : ∀ (x : S × Memory) (p : String) (cells : Cells),
      ((V.frozen kept).callee aliases).exchange x p cells
        = if (aliases.lookup p).any kept then x else (V.callee aliases).exchange x p cells := by
    rintro ⟨s, own⟩ p cells
    cases hAlias : aliases.lookup p with
    | none => rw [callee_exchange_of_none hAlias, callee_exchange_of_none hAlias]; rfl
    | some a =>
      rw [callee_exchange_of_some hAlias, callee_exchange_of_some hAlias]
      cases hKept : kept a with
      | true => simp [frozen, hKept]
      | false => simp [frozen, hKept]
  show View.mk _ _ = View.mk _ _
  congr 1
  funext x p cells
  exact hExchange x p cells

end View

/-- Whether a statement does the same in a frozen view: it writes no frozen buffer, and if it is a call,
    this does the same. -/
def Stmt.Spares (kept : String → Bool) (call call' : Env → String → List Arg → Transition S)
    (u : Stmt) : Prop :=
  (∀ b, u.written? = some b → kept b = false)
    ∧ ∀ s f args, u = .call s f args → ∀ env, call' env f args = call env f args

/-- **One program** does the same in a frozen view when all its statements do. -/
theorem Stmt.runOn_frozen {V : View S} {kept : String → Bool} {fresh : Memory}
    {call call' : Env → String → List Arg → Transition S} : ∀ t : Stmt,
    (∀ u ∈ t.nodes, u.Spares kept call call') →
    ∀ env, t.runOn (V.frozen kept) call' fresh env = t.runOn V call fresh env := by
  -- what is seen is the same, so only declarations, stores and calls have something to show
  refine Stmt.ind ?decl ?loop ?guard ?branch ?store ?call ?block ?hole
  case decl =>
    intro s n b body ih h env
    have hBody := ih (fun u hu => h u (by simp [hu])) env
    have hName : kept n = false := (h _ (self_mem_nodes _)).1 n rfl
    funext x
    simp only [runOn, hBody, View.frozen_exchange_of_not_kept hName, View.frozen_seen]
  case loop =>
    intro s head body ih h env
    have hBody := ih fun u hu => h u (by simp [hu])
    funext x
    simp only [runOn, hBody, View.frozen_seen]
  case guard =>
    intro s c body ih h env
    have hBody := ih (fun u hu => h u (by simp [hu])) env
    funext x
    simp only [runOn, hBody, View.frozen_seen]
  case branch =>
    intro s c yes no ihYes ihNo h env
    have hYes := ihYes (fun u hu => h u (by simp [hu])) env
    have hNo := ihNo (fun u hu => h u (by simp [hu])) env
    funext x
    simp only [runOn, hYes, hNo, View.frozen_seen]
  case store =>
    intro s b is v h env
    have hName : kept b = false := (h _ (self_mem_nodes _)).1 b rfl
    funext x
    simp only [runOn, View.put, View.frozen_exchange_of_not_kept hName, View.frozen_seen]
  case call => exact fun s f args h env => (h _ (self_mem_nodes _)).2 s f args rfl env
  case block =>
    intro s ts ih h env
    have hEach : ∀ t ∈ ts, t.runOn (V.frozen kept) call' fresh env = t.runOn V call fresh env :=
      fun t ht => ih t ht (fun u hu => h u (mem_nodes_block ht hu)) env
    rw [runOn, runOn]
    clear ih h
    induction ts with
    | nil => rfl
    | cons t ts ihList =>
      funext x
      rw [runAllOn, runAllOn, hEach t List.mem_cons_self,
        ihList fun u hu => hEach u (List.mem_cons_of_mem t hu)]
  case hole => exact fun _ _ _ => rfl

namespace Registry

variable {r : Registry} {kept : String → Bool}

/-- The statements of a program that writes no frozen buffer do the same in a frozen view, if calls do
    that write none. -/
theorem spares_of_not_writes {call call' : Env → String → List Arg → Transition S}
    (hCall : ∀ env f args, (∀ g p b, r.get? f = some g → (g.aliases args).lookup p = some b →
      kept b = true → ¬ r.Writes g.body p) → call' env f args = call env f args) {t : Stmt}
    (h : ∀ b, kept b = true → ¬ r.Writes t b) : ∀ u ∈ t.nodes, u.Spares kept call call' := by
  refine fun u hu => ⟨fun b hb => ?_, ?_⟩
  · rw [← Bool.not_eq_true]
    exact fun hKept => h b hKept (.here hu hb)
  · rintro s f args rfl env
    exact hCall env f args fun g p b hFunction hPassed hKept hBelow =>
      h b hKept (.inside hu hFunction hPassed hBelow)

/-- **Calls** that write no frozen buffer do the same in a frozen view, by induction on how deep they
    are nested. -/
theorem enter_frozen {fresh : Memory} : ∀ {depth : Nat} {S : Type} {V : View S}
    {kept : String → Bool} (env : Env) (f : String) (args : List Arg),
    (∀ g p b, r.get? f = some g → (g.aliases args).lookup p = some b → kept b = true →
      ¬ r.Writes g.body p) →
    r.enter fresh depth (V.frozen kept) env f args = r.enter fresh depth V env f args := by
  intro depth
  -- for all views at once, because a function runs in a view of its own
  induction depth with
  | zero => exact fun _ _ _ _ => rfl
  | succ depth ih =>
    intro S V kept env f args h
    funext s
    refine Option.bind_congr fun g hFunction => Option.bind_congr fun values _ => ?_
    -- parameters that stand for frozen buffers are frozen in the function
    let inside : String → Bool := fun p => ((g.aliases args).lookup p).any kept
    have hInside : ∀ p, inside p = true → ¬ r.Writes g.body p := by
      intro p hp
      cases hPassed : (g.aliases args).lookup p with
      | none => simp [inside, hPassed] at hp
      | some b => exact h g p b hFunction hPassed (by simpa [inside, hPassed] using hp)
    have hCalls := @ih _ (V.callee (g.aliases args)) inside
    have hBody : g.body.execute r fresh depth ((V.callee (g.aliases args)).frozen inside) (.entry values)
        = g.body.execute r fresh depth (V.callee (g.aliases args)) (.entry values) :=
      Stmt.runOn_frozen g.body (spares_of_not_writes hCalls hInside) _
    rw [View.callee_frozen]
    exact congrArg (Option.bind · _) (congrFun hBody _)

end Registry

/-- **Frozen buffers**: a program that writes none of them does the same in a frozen view. -/
theorem Stmt.execute_frozen {V : View S} {r : Registry} {fresh : Memory} {depth : Nat}
    {kept : String → Bool} {t : Stmt} (h : ∀ b, kept b = true → ¬ r.Writes t b) (env : Env) :
    t.execute r fresh depth (V.frozen kept) env = t.execute r fresh depth V env :=
  runOn_frozen t (r.spares_of_not_writes r.enter_frozen h) env

end LoopNest

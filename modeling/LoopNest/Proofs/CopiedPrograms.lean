import LoopNest.Proofs.Replacements
import LoopNest.Semantics.Calls
import Mathlib.Data.List.Forall2

/-! # Programs and their copies

  A copy of a program has the shape of the program, but it may use other names and other expressions,
  and it may work on another state. A `Dictionary` says which names and expressions stand for each
  other, `Stmt.CopyOf` compares two programs along it.

  When a dictionary is right about what expressions are worth and about what changes of buffers do
  (`Dictionary.Sound`), a copy does what the program does (`CopyOf.simulates`). Calls of one function
  are compared with each other in the same way, because a program is a copy of itself
  (`enter_simulates`). -/

namespace LoopNest

variable {S S' : Type}

/-! ## Transitions that follow each other -/

/-- Whenever the first transition has an answer the second one has an answer as well, and related
    states stay related. -/
def Transition.Follows (R : S → S' → Prop) (a : Transition S) (b : Transition S') : Prop :=
  ∀ s s' after, R s s' → a s = some after → ∃ after', b s' = some after' ∧ R after after'

namespace Transition

variable {R : S → S' → Prop}

/-- Both states stay as they are. -/
theorem Follows.idle : Follows R some some := by
  intro s s' after hR hRun
  cases hRun
  exact ⟨s', rfl, hR⟩

theorem Follows.seq {a a' : Transition S} {b b' : Transition S'} (h : Follows R a b)
    (h' : Follows R a' b') : Follows R (fun s => (a s).bind a') fun s' => (b s').bind b' := by
  intro s s' after hR hRun
  obtain ⟨between, hFirst, hRest⟩ := Option.bind_eq_some_iff.mp hRun
  obtain ⟨between', hFirst', hBetween⟩ := h s s' between hR hFirst
  obtain ⟨after', hRest', hAfter⟩ := h' between between' after hBetween hRest
  exact ⟨after', Option.bind_eq_some_iff.mpr ⟨between', hFirst', hRest'⟩, hAfter⟩

/-- A value is found in both states, and what is done depends on it. -/
theorem Follows.given {o : S → Option Int} {o' : S' → Option Int} {a : Int → Transition S}
    {b : Int → Transition S'} (hValue : ∀ s s', R s s' → ∀ v, o s = some v → o' s' = some v)
    (h : ∀ v, Follows R (a v) (b v)) :
    Follows R (fun s => o s >>= fun v => a v s) fun s' => o' s' >>= fun v => b v s' := by
  intro s s' after hR hRun
  obtain ⟨v, hv, hRest⟩ := Option.bind_eq_some_iff.mp hRun
  obtain ⟨after', hRest', hAfter⟩ := h v s s' after hR hRest
  exact ⟨after', Option.bind_eq_some_iff.mpr ⟨v, hValue s s' hR v hv, hRest'⟩, hAfter⟩

/-- Steps that follow each other one by one follow each other in turn. -/
theorem Follows.foldlM {α : Type} {xs : List α} {f : α → Transition S} {g : α → Transition S'}
    (h : ∀ x ∈ xs, Follows R (f x) (g x)) :
    Follows R (fun s => xs.foldlM (fun s x => f x s) s) fun s => xs.foldlM (fun s x => g x s) s := by
  induction xs with
  | nil =>
    intro s s' after hR hRun
    cases hRun
    exact ⟨s', rfl, hR⟩
  | cons x xs ih =>
    intro s s' after hR hRun
    simp only [List.foldlM_cons, Option.bind_eq_bind, Option.bind_eq_some_iff] at hRun ⊢
    obtain ⟨between, hFirst, hRest⟩ := hRun
    obtain ⟨between', hFirst', hBetween⟩ := h x List.mem_cons_self s s' between hR hFirst
    obtain ⟨after', hRest', hAfter⟩ :=
      ih (fun y hy => h y (List.mem_cons_of_mem x hy)) between between' after hBetween hRest
    exact ⟨after', ⟨between', hFirst', hRest'⟩, hAfter⟩

end Transition

/-! ## Dictionaries -/

/-- What stands for each other in a program and in a copy of it. The expressions may depend on the
    scalars that are known where they stand. -/
structure Dictionary where
  expr : List String → Expr → Expr → Prop
  iter : String → String → Prop
  buffer : String → String → Prop
  /-- Statements that need not have the same shape. -/
  stmt : Stmt → Stmt → Prop := fun _ _ => False

namespace Dictionary

/-- What stands for each other in calls. -/
def arg (D : Dictionary) (known : List String) : Arg → Arg → Prop
  | .buffer b, .buffer b' => D.buffer b b'
  | .value e, .value e' => D.expr known e e'
  | _, _ => False

/-- Everything stands for itself. -/
def same : Dictionary := ⟨fun _ => Eq, Eq, Eq, fun _ _ => False⟩

/-- A dictionary is right about two views when related states and environments give expressions the
    same value and buffers the same contents, as far as there are any, and when they stay related
    as buffers change. -/
structure Sound (D : Dictionary) (V : View S) (V' : View S') (R : S → S' → Prop)
    (Q : List String → Env → Env → Prop) : Prop where
  value : ∀ {known env env' s s' e e' v}, Q known env env' → R s s' → D.expr known e e' →
    e.value? env (V.seen s) = some v → e'.value? env' (V'.seen s') = some v
  /-- Loops that stand for each other set their iterators. -/
  iterate : ∀ {known env env' x x'} (v : Int), Q known env env' → D.iter x x' →
    Q (x :: known) (env.set x v) (env'.set x' v)
  seen : ∀ {s s' b b' is v}, R s s' → D.buffer b b' → V.seen s b is = some v →
    V'.seen s' b' is = some v
  exchange : ∀ {s s' b b'} (cells : Cells), R s s' → D.buffer b b' →
    R (V.exchange s b cells) (V'.exchange s' b' cells)
  put : ∀ {s s' b b'} (is : List Int) (v : Int), R s s' → D.buffer b b' →
    R (V.put s b is v) (V'.put s' b' is v)
  /-- A buffer gets back what it had in an earlier state. -/
  restore : ∀ {old old' s s' b b'}, R old old' → R s s' → D.buffer b b' →
    R (V.exchange s b (V.seen old b)) (V'.exchange s' b' (V'.seen old' b'))

namespace Sound

variable {D : Dictionary} {V : View S} {V' : View S'} {R : S → S' → Prop}
  {Q : List String → Env → Env → Prop}

theorem values (h : D.Sound V V' R Q) {known : List String} {env env' : Env} {s : S} {s' : S'}
    (hQ : Q known env env') (hR : R s s') {es es' : List Expr} (hEach : List.Forall₂ (D.expr known) es es')
    {vs : List Int} (hValues : Expr.values? env (V.seen s) es = some vs) :
    Expr.values? env' (V'.seen s') es' = some vs := by
  induction hEach generalizing vs with
  | nil => exact hValues
  | cons hHead _ ih =>
    simp only [Expr.values?, Option.bind_eq_bind, Option.bind_eq_some_iff] at hValues ⊢
    obtain ⟨v, hv, ws, hws, hResult⟩ := hValues
    exact ⟨v, h.value hQ hR hHead hv, ws, ih hws, hResult⟩

end Sound

end Dictionary

/-! ## Copies -/

namespace Stmt

/-- The second program is a copy of the first one along a dictionary, where some scalars are known.
    Sites do not matter, nor does what a run does not look at. -/
inductive CopyOf (D : Dictionary) : List String → Stmt → Stmt → Prop where
  | decl {known : List String} {s s' : Site} {n n' : String} {b b' : Buffer} {body body' : Stmt}
    (name : D.buffer n n') (access : b'.access = b.access) (below : CopyOf D known body body') :
    CopyOf D known (.decl s n b body) (.decl s' n' b' body')
  | loop {known : List String} {s s' : Site} {h h' : LoopHead} {body body' : Stmt}
    (iter : D.iter h.iter h'.iter) (lower : D.expr known h.lower h'.lower)
    (upper : D.expr known h.upper h'.upper) (below : CopyOf D (h.iter :: known) body body') :
    CopyOf D known (.loop s h body) (.loop s' h' body')
  | guard {known : List String} {s s' : Site} {c c' : Expr} {body body' : Stmt}
    (cond : D.expr known c c') (below : CopyOf D known body body') :
    CopyOf D known (.guard s c body) (.guard s' c' body')
  | branch {known : List String} {s s' : Site} {c c' : Expr} {yes yes' no no' : Stmt}
    (cond : D.expr known c c') (first : CopyOf D known yes yes') (second : CopyOf D known no no') :
    CopyOf D known (.branch s c yes no) (.branch s' c' yes' no')
  | store {known : List String} {s s' : Site} {b b' : String} {is is' : List Expr} {v v' : Expr}
    (name : D.buffer b b') (indices : List.Forall₂ (D.expr known) is is')
    (value : D.expr known v v') : CopyOf D known (.store s b is v) (.store s' b' is' v')
  | call {known : List String} {s s' : Site} {f : String} {args args' : List Arg}
    (each : List.Forall₂ (D.arg known) args args') :
    CopyOf D known (.call s f args) (.call s' f args')
  | nil {known : List String} {s s' : Site} : CopyOf D known (.block s []) (.block s' [])
  | cons {known : List String} {s s' : Site} {t t' : Stmt} {ts ts' : List Stmt}
    (head : CopyOf D known t t') (tail : CopyOf D known (.block s ts) (.block s' ts')) :
    CopyOf D known (.block s (t :: ts)) (.block s' (t' :: ts'))
  | hole {known : List String} {s s' : Site} : CopyOf D known (.hole s) (.hole s')
  | given {known : List String} {t t' : Stmt} (pair : D.stmt t t') : CopyOf D known t t'

theorem mem_ownNames_call {s : Site} {f b : String} {args : List Arg} (h : .buffer b ∈ args) :
    b ∈ (Stmt.call s f args).ownNames :=
  List.mem_cons_of_mem f (List.mem_filterMap.mpr ⟨.buffer b, h, rfl⟩)

theorem mem_argValues {e : Expr} {args : List Arg} (h : .value e ∈ args) : e ∈ argValues args :=
  List.mem_filterMap.mpr ⟨.value e, h, rfl⟩

theorem mem_nodes_block {s : Site} {ts : List Stmt} {t u : Stmt} (ht : t ∈ ts) (hu : u ∈ t.nodes) :
    u ∈ (Stmt.block s ts).nodes := by
  rw [nodes_block]
  exact List.mem_cons_of_mem _ (List.mem_flatMap.mpr ⟨t, ht, hu⟩)

namespace CopyOf

variable {D D' : Dictionary} {known : List String} {t t' : Stmt}

theorem block {s s' : Site} {ts ts' : List Stmt} (h : List.Forall₂ (CopyOf D known) ts ts') :
    CopyOf D known (.block s ts) (.block s' ts') := by
  induction h with
  | nil => exact .nil
  | cons hHead _ ih => exact .cons hHead ih

/-- A copy along a dictionary is a copy along a larger one. -/
theorem mono (hExpr : ∀ known e e', D.expr known e e' → D'.expr known e e')
    (hIter : ∀ x x', D.iter x x' → D'.iter x x') (hBuffer : ∀ b b', D.buffer b b' → D'.buffer b b')
    (hStmt : ∀ t t', D.stmt t t' → D'.stmt t t') (h : CopyOf D known t t') : CopyOf D' known t t' := by
  induction h with
  | decl name access _ ih => exact .decl (hBuffer _ _ name) access ih
  | loop iter lower upper _ ih =>
    exact .loop (hIter _ _ iter) (hExpr _ _ _ lower) (hExpr _ _ _ upper) ih
  | guard cond _ ih => exact .guard (hExpr _ _ _ cond) ih
  | branch cond _ _ ihYes ihNo => exact .branch (hExpr _ _ _ cond) ihYes ihNo
  | store name indices value =>
    exact .store (hBuffer _ _ name) (indices.imp fun _ _ => hExpr _ _ _) (hExpr _ _ _ value)
  | call each =>
    refine .call (each.imp fun a a' hArg => ?_)
    cases a <;> cases a'
    · exact hBuffer _ _ hArg
    · exact hArg
    · exact hArg
    · exact hExpr _ _ _ hArg
  | nil => exact .nil
  | cons _ _ ihHead ihTail => exact .cons ihHead ihTail
  | hole => exact .hole
  | given pair => exact .given (hStmt _ _ pair)

/-- Every statement below a copy is a copy of a statement below the program, when nothing else stands
    for each other. -/
theorem exists_below (hStmt : ∀ t t', ¬ D.stmt t t') (h : CopyOf D known t t') {u' : Stmt}
    (hu : u' ∈ t'.children.flatMap nodes) :
    ∃ u ∈ t.children.flatMap nodes, ∃ known', CopyOf D known' u u' := by
  have hNode : ∀ {known : List String} {t t' : Stmt}, CopyOf D known t t' →
      (u' ∈ t'.children.flatMap nodes →
        ∃ u ∈ t.children.flatMap nodes, ∃ known', CopyOf D known' u u') →
      u' ∈ t'.nodes → ∃ u ∈ t.nodes, ∃ known', CopyOf D known' u u' := by
    intro known t t' hCopy hBelow hu
    rw [nodes_eq_cons, List.mem_cons] at hu
    rcases hu with rfl | hu
    · exact ⟨t, self_mem_nodes t, known, hCopy⟩
    · obtain ⟨u, hMem, hResult⟩ := hBelow hu
      exact ⟨u, by rw [nodes_eq_cons]; exact List.mem_cons_of_mem _ hMem, hResult⟩
  induction h with
  | decl _ _ below ih | loop _ _ _ below ih | guard _ below ih =>
    simp only [children, List.flatMap_cons, List.flatMap_nil, List.append_nil] at hu ⊢
    exact hNode below ih hu
  | branch _ first second ihYes ihNo =>
    simp only [children, List.flatMap_cons, List.flatMap_nil, List.append_nil, List.mem_append]
      at hu ⊢
    rcases hu with hu | hu
    · obtain ⟨u, hMem, hResult⟩ := hNode first ihYes hu
      exact ⟨u, .inl hMem, hResult⟩
    · obtain ⟨u, hMem, hResult⟩ := hNode second ihNo hu
      exact ⟨u, .inr hMem, hResult⟩
  | store | call | nil | hole => cases hu
  | cons head tail ihHead ihTail =>
    simp only [children, List.flatMap_cons, List.mem_append] at hu ihTail ⊢
    rcases hu with hu | hu
    · obtain ⟨u, hMem, hResult⟩ := hNode head ihHead hu
      exact ⟨u, .inl hMem, hResult⟩
    · obtain ⟨u, hMem, hResult⟩ := ihTail hu
      exact ⟨u, .inr hMem, hResult⟩
  | given pair => exact absurd pair (hStmt _ _)

/-- Every statement of a copy is a copy of a statement of the program. -/
theorem exists_node (hStmt : ∀ t t', ¬ D.stmt t t') (h : CopyOf D known t t') {u' : Stmt}
    (hu : u' ∈ t'.nodes) : ∃ u ∈ t.nodes, ∃ known', CopyOf D known' u u' := by
  rw [nodes_eq_cons, List.mem_cons] at hu
  rcases hu with rfl | hu
  · exact ⟨t, self_mem_nodes t, known, h⟩
  · obtain ⟨u, hMem, hResult⟩ := h.exists_below hStmt hu
    exact ⟨u, by rw [nodes_eq_cons]; exact List.mem_cons_of_mem _ hMem, hResult⟩

/-- A program is a copy of itself when its names and expressions stand for themselves. -/
theorem self : ∀ (t : Stmt) (known : List String),
    (∀ known, ∀ u ∈ t.nodes, ∀ e ∈ u.exprs, D.expr known e e) →
    (∀ u ∈ t.nodes, ∀ x ∈ u.ownNames, D.iter x x ∧ D.buffer x x) → CopyOf D known t t := by
  refine Stmt.ind ?_ ?_ ?_ ?_ ?_ ?_ ?_ ?_
  · intro s n b body ih known hExpr hName
    refine .decl (hName _ (self_mem_nodes _) n (by simp [ownNames])).2 rfl (ih known ?_ ?_)
    · exact fun known u hu => hExpr known u (by simp [hu])
    · exact fun u hu => hName u (by simp [hu])
  · intro s head body ih known hExpr hName
    refine .loop (hName _ (self_mem_nodes _) head.iter (by simp [ownNames])).1
      (hExpr _ _ (self_mem_nodes _) _ (by simp [exprs]))
      (hExpr _ _ (self_mem_nodes _) _ (by simp [exprs])) (ih _ ?_ ?_)
    · exact fun known u hu => hExpr known u (by simp [hu])
    · exact fun u hu => hName u (by simp [hu])
  · intro s c body ih known hExpr hName
    refine .guard (hExpr _ _ (self_mem_nodes _) _ (by simp [exprs])) (ih known ?_ ?_)
    · exact fun known u hu => hExpr known u (by simp [hu])
    · exact fun u hu => hName u (by simp [hu])
  · intro s c yes no ihYes ihNo known hExpr hName
    refine .branch (hExpr _ _ (self_mem_nodes _) _ (by simp [exprs])) (ihYes known ?_ ?_)
      (ihNo known ?_ ?_)
    · exact fun known u hu => hExpr known u (by simp [hu])
    · exact fun u hu => hName u (by simp [hu])
    · exact fun known u hu => hExpr known u (by simp [hu])
    · exact fun u hu => hName u (by simp [hu])
  · intro s b is v known hExpr hName
    refine .store (hName _ (self_mem_nodes _) b (by simp [ownNames])).2 ?_
      (hExpr _ _ (self_mem_nodes _) _ (by simp [exprs]))
    exact List.forall₂_same.mpr fun e he => hExpr _ _ (self_mem_nodes _) e (by simp [exprs, he])
  · intro s f args known hExpr hName
    refine .call (List.forall₂_same.mpr fun a ha => ?_)
    cases a with
    | buffer b => exact (hName _ (self_mem_nodes _) b (mem_ownNames_call ha)).2
    | value e => exact hExpr _ _ (self_mem_nodes _) e (mem_argValues ha)
  · intro s ts ih known hExpr hName
    refine block (List.forall₂_same.mpr fun t ht => ih t ht known ?_ ?_)
    · exact fun known u hu => hExpr known u (mem_nodes_block ht hu)
    · exact fun u hu => hName u (mem_nodes_block ht hu)
  · exact fun _ _ _ _ => .hole

/-- **Copies follow their programs**: when the dictionary is right, and calls and all other pairs
    that it gives follow each other, a copy does what the program does. -/
theorem simulates {V : View S} {V' : View S'} {R : S → S' → Prop}
    {Q : List String → Env → Env → Prop} (hSound : D.Sound V V' R Q)
    {call : Env → String → List Arg → Transition S}
    {call' : Env → String → List Arg → Transition S'}
    (hCall : ∀ {known env env'} (f : String) {args args'}, Q known env env' →
      List.Forall₂ (D.arg known) args args' → Transition.Follows R (call env f args) (call' env' f args'))
    (hStmt : ∀ {known env env' t t'}, Q known env env' → D.stmt t t' →
      Transition.Follows R (t.runOn V call .blank env) (t'.runOn V' call' .blank env'))
    (h : CopyOf D known t t') : ∀ {env env' : Env}, Q known env env' →
      Transition.Follows R (t.runOn V call .blank env) (t'.runOn V' call' .blank env') := by
  induction h with
  | @decl _ _ _ n n' b b' body body' name access _ ih =>
    intro env env' hQ s s' after hR hRun
    unfold runOn at hRun ⊢
    rw [access]
    split at hRun
    · rename_i hCache
      rw [if_pos hCache]
      obtain ⟨inner, hInner, hAfter⟩ := Option.bind_eq_some_iff.mp hRun
      cases hAfter
      have hEntry : R (V.exchange s n (Memory.blank n)) (V'.exchange s' n' (Memory.blank n')) :=
        hSound.exchange (fun _ => none) hR name
      obtain ⟨inner', hInner', hBetween⟩ := ih hQ _ _ _ hEntry hInner
      exact ⟨_, Option.bind_eq_some_iff.mpr ⟨inner', hInner', rfl⟩,
        hSound.restore hR hBetween name⟩
    · rename_i hVisible
      rw [if_neg hVisible]
      exact ih hQ s s' after hR hRun
  | loop iter lower upper _ ih =>
    intro env env' hQ
    refine .given (fun s s' hR v hv => hSound.value hQ hR lower hv) fun first => ?_
    refine .given (fun s s' hR v hv => hSound.value hQ hR upper hv) fun last => ?_
    -- both loops go through the same values
    exact .foldlM fun v _ => ih (hSound.iterate v hQ iter)
  | guard cond _ ih =>
    intro env env' hQ
    refine .given (a := fun v s => if v = 0 then _ else _)
      (fun s s' hR v hv => hSound.value hQ hR cond hv) fun v => ?_
    split
    · exact .idle
    · exact ih hQ
  | branch cond _ _ ihYes ihNo =>
    intro env env' hQ
    refine .given (a := fun v s => if v = 0 then _ else _)
      (fun s s' hR v hv => hSound.value hQ hR cond hv) fun v => ?_
    split
    · exact ihNo hQ
    · exact ihYes hQ
  | store name indices value =>
    intro env env' hQ s s' after hR hRun
    simp only [runOn, Option.bind_eq_bind, Option.bind_eq_some_iff] at hRun ⊢
    obtain ⟨cell, hCell, v, hv, hAfter⟩ := hRun
    cases hAfter
    exact ⟨_, ⟨cell, hSound.values hQ hR indices hCell, v, hSound.value hQ hR value hv, rfl⟩,
      hSound.put cell v hR name⟩
  | call each =>
    intro env env' hQ
    exact hCall _ hQ each
  | nil => exact fun _ => .idle
  | cons _ _ ihHead ihTail => exact fun hQ => (ihHead hQ).seq (ihTail hQ)
  | hole =>
    intro env env' _ s s' after _ hRun
    cases hRun
  | given pair =>
    intro env env' hQ
    exact hStmt hQ pair

end CopyOf

end Stmt

/-! ## Values in larger memories -/

/-- An expression keeps its value in a memory that holds more. -/
theorem Expr.value?_mono {env : Env} {m m' : Memory} (hm : m'.Extends m) {e : Expr} {v : Int}
    (h : e.value? env m = some v) : e.value? env m' = some v := by
  have hConventions : (Conventions.reference .blank).Extends (.reference .blank) :=
    ⟨fun _ => .refl _, fun _ h => h⟩
  rw [← valueWith?_reference .blank] at h ⊢
  exact valueWith?_mono hConventions hm e v h

/-! ## Entered functions -/

namespace View

variable {V : View S} {aliases : Expr.Renaming} {b a : String}

theorem callee_seen_of_some (h : aliases.lookup b = some a) (s : S) (own : Memory) :
    (V.callee aliases).seen (s, own) b = V.seen s a := by
  simp [callee, h]

theorem callee_seen_of_none (h : aliases.lookup b = none) (s : S) (own : Memory) :
    (V.callee aliases).seen (s, own) b = own b := by
  simp [callee, h]

theorem callee_exchange_of_some (h : aliases.lookup b = some a) (s : S) (own : Memory)
    (cells : Cells) : (V.callee aliases).exchange (s, own) b cells = (V.exchange s a cells, own) := by
  simp [callee, h]

theorem callee_exchange_of_none (h : aliases.lookup b = none) (s : S) (own : Memory)
    (cells : Cells) : (V.callee aliases).exchange (s, own) b cells = (s, own.exchange b cells) := by
  simp [callee, h]

theorem callee_put_of_some (h : aliases.lookup b = some a) (s : S) (own : Memory) (is : List Int)
    (v : Int) : (V.callee aliases).put (s, own) b is v = (V.put s a is v, own) := by
  simp [put, callee_exchange_of_some h, callee_seen_of_some h]

theorem callee_put_of_none (h : aliases.lookup b = none) (s : S) (own : Memory) (is : List Int)
    (v : Int) : (V.callee aliases).put (s, own) b is v = (s, own.put b is v) := by
  rw [← whole_put]
  simp [put, callee_exchange_of_none h, callee_seen_of_none h]

end View

/-- Lists that give the same names what stands for each other. -/
abbrev Paired {α : Type} (P : α → α → Prop) : List (String × α) → List (String × α) → Prop :=
  List.Forall₂ fun x x' => x.1 = x'.1 ∧ P x.2 x'.2

namespace Paired

variable {α : Type} {P : α → α → Prop} {xs xs' : List (String × α)}

/-- Both lists know a name or none of them does. -/
theorem lookup (h : Paired P xs xs') (name : String) :
    (xs.lookup name = none ∧ xs'.lookup name = none)
      ∨ ∃ a a', xs.lookup name = some a ∧ xs'.lookup name = some a' ∧ P a a' := by
  induction h with
  | nil => exact .inl ⟨rfl, rfl⟩
  | @cons x x' xs xs' hHead _ ih =>
    obtain ⟨n, a⟩ := x
    obtain ⟨n', a'⟩ := x'
    obtain ⟨rfl, hP⟩ := hHead
    by_cases hName : name = n
    · subst hName
      exact .inr ⟨a, a', by simp, by simp, hP⟩
    · have hOther : (name == n) = false := by simpa using hName
      simpa only [List.lookup_cons, hOther] using ih

theorem fst_eq (h : Paired P xs xs') : xs'.map Prod.fst = xs.map Prod.fst := by
  induction h with
  | nil => rfl
  | cons hHead _ ih => simp [hHead.1, ih]

theorem snd (h : Paired P xs xs') : List.Forall₂ P (xs.map Prod.snd) (xs'.map Prod.snd) := by
  induction h with
  | nil => exact .nil
  | cons hHead _ ih => exact .cons hHead.2 ih

end Paired

namespace Dictionary

variable {D : Dictionary} {known : List String} {args args' : List Arg}

/-- Parameters stand for buffers that stand for each other. -/
theorem aliases_paired (f : Function) (h : List.Forall₂ (D.arg known) args args') :
    Paired D.buffer (f.aliases args) (f.aliases args') := by
  unfold Function.aliases
  refine List.forall₂_reverse_iff.mpr ?_
  generalize f.params = params
  induction h generalizing params with
  | nil => simp
  | @cons arg arg' args args' hHead _ ih =>
    cases params with
    | nil => simp
    | cons p params =>
      cases arg <;> cases arg'
      · exact .cons ⟨rfl, hHead⟩ (ih params)
      · exact hHead.elim
      · exact hHead.elim
      · exact ih params

/-- Parameters stand for expressions that stand for each other. -/
theorem passed_paired (f : Function) (h : List.Forall₂ (D.arg known) args args') :
    Paired (D.expr known) (f.passed args) (f.passed args') := by
  unfold Function.passed
  generalize f.params = params
  induction h generalizing params with
  | nil => simp
  | @cons arg arg' args args' hHead _ ih =>
    cases params with
    | nil => simp
    | cons p params =>
      cases arg <;> cases arg'
      · exact ih params
      · exact hHead.elim
      · exact hHead.elim
      · exact .cons ⟨rfl, hHead⟩ (ih params)

/-- Two functions that see related states through paired aliases, and have the same buffers of their
    own. -/
theorem Sound.callee {V : View S} {V' : View S'} {R : S → S' → Prop}
    {Q : List String → Env → Env → Prop} (h : D.Sound V V' R Q) {aliases aliases' : Expr.Renaming}
    (hAliases : Paired D.buffer aliases aliases') :
    same.Sound (V.callee aliases) (V'.callee aliases') (fun x x' => R x.1 x'.1 ∧ x.2 = x'.2)
      fun _ env env' => env = env' := by
  have hSeen : ∀ {x : S × Memory} {x' : S' × Memory}, R x.1 x'.1 ∧ x.2 = x'.2 →
      Memory.Extends ((V'.callee aliases').seen x') ((V.callee aliases).seen x) := by
    rintro ⟨s, own⟩ ⟨s', own'⟩ ⟨hR, rfl⟩ b is v hValue
    obtain ⟨hNone, hNone'⟩ | ⟨a, a', hSome, hSome', hBuffer⟩ := hAliases.lookup b
    · rw [View.callee_seen_of_none hNone'] at *
      rwa [View.callee_seen_of_none hNone] at hValue
    · rw [View.callee_seen_of_some hSome'] at *
      rw [View.callee_seen_of_some hSome] at hValue
      exact h.seen hR hBuffer hValue
  refine ⟨?_, ?_, ?_, ?_, ?_, ?_⟩
  · rintro known env _ s s' e _ v rfl hR rfl hValue
    exact Expr.value?_mono (hSeen hR) hValue
  · rintro known env _ x _ v rfl rfl
    rfl
  · rintro s s' b _ is v hR rfl hValue
    exact hSeen hR b is v hValue
  · rintro ⟨s, own⟩ ⟨s', own'⟩ b _ cells ⟨hR, rfl⟩ rfl
    obtain ⟨hNone, hNone'⟩ | ⟨a, a', hSome, hSome', hBuffer⟩ := hAliases.lookup b
    · rw [View.callee_exchange_of_none hNone, View.callee_exchange_of_none hNone']
      exact ⟨hR, rfl⟩
    · rw [View.callee_exchange_of_some hSome, View.callee_exchange_of_some hSome']
      exact ⟨h.exchange cells hR hBuffer, rfl⟩
  · rintro ⟨s, own⟩ ⟨s', own'⟩ b _ is v ⟨hR, rfl⟩ rfl
    obtain ⟨hNone, hNone'⟩ | ⟨a, a', hSome, hSome', hBuffer⟩ := hAliases.lookup b
    · rw [View.callee_put_of_none hNone, View.callee_put_of_none hNone']
      exact ⟨hR, rfl⟩
    · rw [View.callee_put_of_some hSome, View.callee_put_of_some hSome']
      exact ⟨h.put is v hR hBuffer, rfl⟩
  · rintro ⟨old, oldOwn⟩ ⟨old', oldOwn'⟩ ⟨s, own⟩ ⟨s', own'⟩ b _ ⟨hOld, rfl⟩ ⟨hR, rfl⟩ rfl
    obtain ⟨hNone, hNone'⟩ | ⟨a, a', hSome, hSome', hBuffer⟩ := hAliases.lookup b
    · rw [View.callee_exchange_of_none hNone, View.callee_exchange_of_none hNone',
        View.callee_seen_of_none hNone, View.callee_seen_of_none hNone']
      exact ⟨hR, rfl⟩
    · rw [View.callee_exchange_of_some hSome, View.callee_exchange_of_some hSome',
        View.callee_seen_of_some hSome, View.callee_seen_of_some hSome']
      exact ⟨h.restore hOld hR hBuffer, rfl⟩

/-- Values that stand for each other are passed alike. -/
theorem Sound.passed {V : View S} {V' : View S'} {R : S → S' → Prop}
    {Q : List String → Env → Env → Prop} (h : D.Sound V V' R Q) (f : Function)
    (hArgs : List.Forall₂ (D.arg known) args args') {env env' : Env} {s : S} {s' : S'}
    (hQ : Q known env env') (hR : R s s') {values : List (String × Int)}
    (hValues : f.values? args env (V.seen s) = some values) :
    f.values? args' env' (V'.seen s') = some values := by
  have hPaired := passed_paired f hArgs
  obtain ⟨vs, hEach, hZip⟩ := Option.bind_eq_some_iff.mp hValues
  refine Option.bind_eq_some_iff.mpr ⟨vs, h.values hQ hR hPaired.snd hEach, ?_⟩
  rw [hPaired.fst_eq]
  exact hZip

end Dictionary

/-- What a call entered a function for, when it has an answer. -/
theorem Registry.enter_eq_some {r : Registry} {fresh : Memory} {depth : Nat} {V : View S} {env : Env}
    {name : String} {args : List Arg} {s after : S} :
    r.enter fresh (depth + 1) V env name args s = some after ↔
      ∃ f values own, r.get? name = some f ∧ f.values? args env (V.seen s) = some values
        ∧ f.body.runOn (V.callee (f.aliases args)) (r.enter fresh depth (V.callee (f.aliases args)))
            fresh (.entry values) (s, .entry values) = some (after, own) := by
  simp only [enter, Option.bind_eq_bind, Option.bind_eq_some_iff, Option.pure_def]
  constructor
  · rintro ⟨f, hFunction, values, hValues, ⟨last, own⟩, hBody, hLast⟩
    cases hLast
    exact ⟨f, values, own, hFunction, hValues, hBody⟩
  · rintro ⟨f, values, own, hFunction, hValues, hBody⟩
    exact ⟨f, hFunction, values, hValues, (after, own), hBody, rfl⟩

/-- **Calls follow each other** when what is passed stands for each other, also with more room for
    the calls inside. -/
theorem enter_simulates (r : Registry) : ∀ {depth depth' : Nat}, depth ≤ depth' →
    ∀ {S S' : Type} {D : Dictionary} {V : View S} {V' : View S'} {R : S → S' → Prop}
      {Q : List String → Env → Env → Prop}, D.Sound V V' R Q →
    ∀ {known : List String} {env env' : Env} (f : String) {args args' : List Arg},
      Q known env env' → List.Forall₂ (D.arg known) args args' →
      Transition.Follows R (r.enter .blank depth V env f args) (r.enter .blank depth' V' env' f args')
    := by
  intro depth
  induction depth with
  | zero =>
    intro depth' _ S S' D V V' R Q _ known env env' f args args' _ _ s s' after _ hRun
    cases hRun
  | succ depth ih =>
    intro depth' hDepth S S' D V V' R Q hSound known env env' f args args' hQ hArgs s s' after hR hRun
    obtain ⟨depth', rfl⟩ : ∃ k, depth' = k + 1 := ⟨depth' - 1, by omega⟩
    obtain ⟨g, values, own, hFunction, hValues, hBody⟩ := Registry.enter_eq_some.mp hRun
    have hInside := hSound.callee (Dictionary.aliases_paired g hArgs)
    -- the body is a copy of itself, its calls are covered by the induction hypothesis
    have hCopy : Stmt.CopyOf .same [] g.body g.body :=
      .self g.body [] (fun _ _ _ _ _ => rfl) fun _ _ _ _ => ⟨rfl, rfl⟩
    obtain ⟨⟨after', own'⟩, hBody', hAfter, -⟩ := hCopy.simulates hInside
      (fun {_ _ _} h {_ _} hEnv hEach => ih (Nat.le_of_succ_le_succ hDepth) hInside h hEnv hEach)
      (fun _ pair => pair.elim) rfl
      (s, .entry values) (s', .entry values) _ ⟨hR, rfl⟩ hBody
    exact ⟨after', Registry.enter_eq_some.mpr ⟨g, values, own', hFunction,
      hSound.passed g hArgs hQ hR hValues, hBody'⟩, hAfter⟩

end LoopNest

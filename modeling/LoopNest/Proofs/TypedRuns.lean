import LoopNest.Proofs.AnyOrders
import LoopNest.Proofs.Updates

/-! # Runs inside what is declared

  A declaration says which cells a buffer of integers has and which numbers they may hold (`Limit`).
  Runs do not look at declarations. `Stmt.StaysWithin` relates a memory to the one that a run leaves
  when every store stays inside the shape and the type that are declared for its buffer, and when the
  declared buffers have contents of their types at first.

  * Such a run is a run (`Stmt.change_of_staysWithin`), and the declared buffers keep contents of
    their types (`Stmt.StaysWithin.hold`).
  * One statement can be replaced by another one that has the same such runs
    (`Stmt.Replaces.staysWithin`). There the limits of a buffer are those of the declaration that its
    name refers to. -/

namespace LoopNest

/-! ## Limits -/

/-- The cells of a buffer of integers and the numbers that they may hold. -/
structure Limit where
  extents : List Int
  least : Int
  greatest : Int

namespace Limit

/-- Whether a cell is inside the shape. -/
def Contains (l : Limit) (cell : List Int) : Prop :=
  List.Forall₂ (fun i n => 0 ≤ i ∧ i < n) cell l.extents

/-- Whether a number is one of the type. -/
def InRange (l : Limit) (v : Int) : Prop := l.least ≤ v ∧ v ≤ l.greatest

/-- Whether all cells inside the shape have contents of the type. -/
def Holds (l : Limit) (cells : Cells) : Prop :=
  ∀ cell, l.Contains cell → ∃ v, cells cell = some v ∧ l.InRange v

theorem Holds.put {l : Limit} {m : Memory} {b : String} (h : l.Holds (m b)) {cell : List Int} {v : Int}
    (hv : l.InRange v) : l.Holds (m.put b cell v b) := by
  intro k hk
  by_cases hCell : k = cell
  · exact ⟨v, hCell ▸ Memory.put_self m b cell v, hv⟩
  · rw [Memory.put_ne_indices hCell]
    exact h k hk

end Limit

/-- The least and the greatest number of an integer type. -/
def ElemType.range? : ElemType → Option (Int × Int)
  | .int32 => some (-2147483648, 2147483647)
  | .int64 => some (-9223372036854775808, 9223372036854775807)
  | _ => none

/-- The limit that a declaration sets to a buffer of integers. Shapes read no buffer. -/
def Buffer.limit? (c : Conventions) (env : Env) (b : Buffer) : Option Limit :=
  (Expr.valuesWith? c env .blank b.shape).bind fun extents =>
    b.elem.range?.map fun range => ⟨extents, range.1, range.2⟩

/-- A limit depends on the scalars of the shape. -/
theorem Buffer.limit?_congr {c : Conventions} {env env' : Env} {b : Buffer}
    (h : ∀ e ∈ b.shape, ∀ x ∈ e.scalars, env' x = env x) : b.limit? c env' = b.limit? c env := by
  unfold limit?
  rw [Expr.valuesWith?_congr fun e he => Expr.valueWith?_congr_names (h e he) fun _ _ => rfl]

/-- The limits of the declared buffers. -/
abbrev Limits := String → Option Limit

namespace Limits

def set (limits : Limits) (n : String) (l : Limit) : Limits :=
  fun b => if b = n then some l else limits b

@[simp] theorem set_self (limits : Limits) (n : String) (l : Limit) : limits.set n l n = some l := by
  simp [set]

@[simp] theorem set_ne (limits : Limits) {n b : String} (h : b ≠ n) (l : Limit) :
    limits.set n l b = limits b := by
  simp [set, h]

/-- Whether the declared buffers have contents of their types. -/
def Hold (limits : Limits) (m : Memory) : Prop := ∀ n l, limits n = some l → l.Holds (m n)

/-- Whether a number may be stored in a cell. -/
def Admit (limits : Limits) (b : String) (cell : List Int) (v : Int) : Prop :=
  ∀ l, limits b = some l → l.Contains cell ∧ l.InRange v

/-- The limits inside a declaration of a buffer that has some contents at first. Only the buffers of
    `own` have limits. -/
def Enter (own : List String) (c : Conventions) (env : Env) (limits : Limits) (n : String)
    (b : Buffer) (cells : Cells) (inner : Limits) : Prop :=
  if n ∈ own then ∃ l, b.limit? c env = some l ∧ l.Holds cells ∧ inner = limits.set n l
  else inner = limits

/-- A declaration is about its buffer only. -/
theorem Enter.other {own : List String} {c : Conventions} {env : Env} {limits : Limits} {n : String}
    {b : Buffer} {cells : Cells} {inner : Limits} (h : limits.Enter own c env n b cells inner)
    {b' : String} (hb : b' ≠ n) : inner b' = limits b' := by
  unfold Enter at h
  split at h
  · obtain ⟨l, _, _, rfl⟩ := h
    exact set_ne _ hb l
  · rw [h]

end Limits

/-! ## Runs -/

namespace Stmt

section

variable (own : List String) (c : Conventions)

mutual
/-- The memory that a run leaves when it stays inside the limits and those of its declarations. -/
def StaysWithin (limits : Limits) (env : Env) : Stmt → Effect
  | .decl s n b body => fun m m' => ∃ inner,
    if b.access = .cache then
      limits.Enter own c env n b (c.fresh s.label n) inner
        ∧ Effect.withLocal n (c.fresh s.label n) (StaysWithin inner env body) m m'
    else limits.Enter own c env n b (m n) inner ∧ StaysWithin inner env body m m'
  | .loop _ h body => fun m m' => ∃ lower upper, h.lower.valueWith? c env m = some lower
    ∧ h.upper.valueWith? c env m = some upper
    ∧ Effect.inTurn ((counting lower upper).map fun v =>
        StaysWithin limits (env.set h.iter v) body) m m'
  | .guard _ e body => fun m m' => ∃ v, e.valueWith? c env m = some v
    ∧ if v = 0 then m' = m else StaysWithin limits env body m m'
  | .branch _ e yes no => fun m m' => ∃ v, e.valueWith? c env m = some v
    ∧ if v = 0 then StaysWithin limits env no m m' else StaysWithin limits env yes m m'
  | .store _ b is v => fun m m' => ∃ cell value, Expr.valuesWith? c env m is = some cell
    ∧ v.valueWith? c env m = some value ∧ limits.Admit b cell value ∧ m' = m.put b cell value
  | .block _ stmts => StaysWithinAll limits env stmts
  | .call .. | .hole _ => .stuck
/-- The same for statements one after the other. -/
def StaysWithinAll (limits : Limits) (env : Env) : List Stmt → Effect
  | [] => .skip
  | t :: ts => (StaysWithin limits env t).seq (StaysWithinAll limits env ts)
end

end

variable {own : List String} {c : Conventions} {limits : Limits} {env : Env}

theorem staysWithin_block {s : Site} {ts : List Stmt} :
    StaysWithin own c limits env (.block s ts)
      = Effect.inTurn (ts.map (StaysWithin own c limits env)) := by
  rw [StaysWithin]
  induction ts with
  | nil => rfl
  | cons t ts ih => rw [StaysWithinAll, ih, List.map_cons, Effect.inTurn_cons]

/-- Effects in turn that leave memories as changes do. -/
theorem change_of_inTurn {α : Type} {f : α → Effect} {g : α → Change} {xs : List α}
    (h : ∀ x ∈ xs, ∀ m m', f x m m' → g x m = some m') {m m' : Memory}
    (hRun : Effect.inTurn (xs.map f) m m') : Change.inTurn (xs.map g) m = some m' := by
  induction xs generalizing m with
  | nil => exact congrArg some (Eq.symm hRun)
  | cons x xs ih =>
    obtain ⟨between, hHead, hTail⟩ := hRun
    refine Change.seq_eq_some.mpr ⟨between, h x List.mem_cons_self m between hHead, ?_⟩
    exact ih (fun y hy => h y (List.mem_cons_of_mem x hy)) hTail

/-- A run that stays inside the limits is a run. -/
theorem change_of_staysWithin :
    ∀ (t : Stmt) (limits : Limits) (env : Env) (m m' : Memory),
      t.StaysWithin own c limits env m m' → t.change c env m = some m' := by
  refine Stmt.ind ?_ ?_ ?_ ?_ ?_ ?_ ?_ ?_
  · intro s n b body ih limits env m m' h
    rw [StaysWithin] at h
    obtain ⟨inner, h⟩ := h
    rw [change_decl]
    split at h
    · rename_i hCache
      obtain ⟨_, last, hBody, rfl⟩ := h
      rw [if_pos hCache]
      exact Change.withLocal_eq_some.mpr ⟨last, ih inner env _ last hBody, rfl⟩
    · rename_i hVisible
      rw [if_neg hVisible]
      exact ih inner env m m' h.2
  · intro s head body ih limits env m m' h
    rw [StaysWithin] at h
    obtain ⟨lower, upper, hLower, hUpper, hTurns⟩ := h
    rw [change_loop, hLower, hUpper]
    exact change_of_inTurn (fun v _ => ih limits (env.set head.iter v)) hTurns
  · intro s e body ih limits env m m' h
    rw [StaysWithin] at h
    obtain ⟨v, hv, h⟩ := h
    rw [change_guard, hv, Option.bind_some]
    split at h
    · rename_i hZero
      rw [if_pos hZero, h]
    · rename_i hZero
      rw [if_neg hZero]
      exact ih limits env m m' h
  · intro s e yes no ihYes ihNo limits env m m' h
    rw [StaysWithin] at h
    obtain ⟨v, hv, h⟩ := h
    rw [change_branch, hv, Option.bind_some]
    split at h
    · rename_i hZero
      rw [if_pos hZero]
      exact ihNo limits env m m' h
    · rename_i hZero
      rw [if_neg hZero]
      exact ihYes limits env m m' h
  · intro s b is v limits env m m' h
    rw [StaysWithin] at h
    obtain ⟨cell, value, hCell, hValue, _, rfl⟩ := h
    rw [change_store, hCell, hValue]
    rfl
  · intro s f args limits env m m' h
    cases h
  · intro s ts ih limits env m m' h
    rw [staysWithin_block] at h
    rw [change_block]
    exact change_of_inTurn (fun t ht => ih t ht limits env) h
  · intro s limits env m m' h
    cases h

/-- Effects in turn from memories of some kind, out of which none of them leads, are within other
    effects in turn. -/
theorem inTurn_imp {α : Type} {f g : α → Effect} {P : Memory → Prop} {xs : List α}
    (h : ∀ x ∈ xs, ∀ m m', P m → f x m m' → P m' ∧ g x m m') {m m' : Memory} (hm : P m)
    (hRun : Effect.inTurn (xs.map f) m m') : P m' ∧ Effect.inTurn (xs.map g) m m' := by
  induction xs generalizing m with
  | nil => exact ⟨Eq.symm hRun ▸ hm, hRun⟩
  | cons x xs ih =>
    obtain ⟨between, hHead, hTail⟩ := hRun
    obtain ⟨hBetween, hHead'⟩ := h x List.mem_cons_self m between hm hHead
    obtain ⟨hLast, hTail'⟩ := ih (fun y hy => h y (List.mem_cons_of_mem x hy)) hBetween hTail
    exact ⟨hLast, between, hHead', hTail'⟩

theorem keeps_of_inTurn {α : Type} {f : α → Effect} {P : Memory → Prop} {xs : List α}
    (h : ∀ x ∈ xs, ∀ m m', P m → f x m m' → P m') {m m' : Memory} (hm : P m)
    (hRun : Effect.inTurn (xs.map f) m m') : P m' :=
  (inTurn_imp (fun x hx m m' hm hx' => ⟨h x hx m m' hm hx', hx'⟩) hm hRun).1

theorem inTurn_append {as bs : List Effect} {m m' : Memory} :
    Effect.inTurn (as ++ bs) m m' ↔ ((Effect.inTurn as).seq (Effect.inTurn bs)) m m' := by
  induction as generalizing m with
  | nil =>
    constructor
    · exact fun h => ⟨m, rfl, h⟩
    · intro h
      obtain ⟨_, rfl, h⟩ := h
      exact h
  | cons a as ih =>
    constructor
    · intro h
      obtain ⟨first, hFirst, h⟩ := h
      obtain ⟨between, hBetween, hLast⟩ := ih.mp h
      exact ⟨between, ⟨first, hFirst, hBetween⟩, hLast⟩
    · intro h
      obtain ⟨between, ⟨first, hFirst, hBetween⟩, hLast⟩ := h
      exact ⟨first, hFirst, ih.mpr ⟨between, hBetween, hLast⟩⟩

/-! ## Clean names -/

/-- The scalars that a statement itself uses or sets. -/
def OwnScalar (u : Stmt) (x : String) : Prop :=
  (∃ e ∈ u.exprs, x ∈ e.scalars) ∨ ∃ h ∈ u.head?, h.iter = x

/-- The buffers that a statement itself reads or declares. -/
def OwnBuffer (u : Stmt) (b : String) : Prop :=
  (∃ e ∈ u.exprs, b ∈ e.buffers) ∨ ∃ s buffer body, u = .decl s b buffer body

/-- Names mean one thing: what a statement uses or introduces is not introduced again below it, and
    the bounds of a loop do not use its iterator. -/
structure CleanNames (t : Stmt) : Prop where
  scalars : ∀ u ∈ t.nodes, ∀ x, u.OwnScalar x → ∀ w ∈ u.children, ¬ w.Binds x
  buffers : ∀ u ∈ t.nodes, ∀ b, u.OwnBuffer b → ∀ w ∈ u.children, ¬ w.Declares b
  bounds : ∀ s h body, .loop s h body ∈ t.nodes → h.iter ∉ h.lower.scalars ++ h.upper.scalars

namespace CleanNames

theorem of_mem {t u : Stmt} (hu : u ∈ t.nodes) (h : t.CleanNames) : u.CleanNames where
  scalars w hw := h.scalars w (mem_nodes_trans hw hu)
  buffers w hw := h.buffers w (mem_nodes_trans hw hu)
  bounds s head body hLoop := h.bounds s head body (mem_nodes_trans hLoop hu)

variable {s : Site} {n : String} {b : Buffer} {body : Stmt}

/-- The body of a declaration does not declare the buffer again. -/
theorem not_declares (h : (Stmt.decl s n b body).CleanNames) : ¬ body.Declares n :=
  h.buffers _ (self_mem_nodes _) n (.inr ⟨s, b, body, rfl⟩) body (by simp [children])

/-- The body of a declaration does not set a scalar of the shape. -/
theorem not_binds_shape (h : (Stmt.decl s n b body).CleanNames) {e : Expr} (he : e ∈ b.shape)
    {x : String} (hx : x ∈ e.scalars) : ¬ body.Binds x :=
  h.scalars _ (self_mem_nodes _) x (.inl ⟨e, he, hx⟩) body (by simp [children])

end CleanNames

/-! ## Contents of declared buffers -/

/-- The declarations of a program are of buffers without limits. -/
def Undeclared (limits : Limits) (t : Stmt) : Prop := ∀ n, t.Declares n → limits n = none

theorem Undeclared.of_mem {limits : Limits} {t u : Stmt} (hu : u ∈ t.nodes)
    (h : t.Undeclared limits) : u.Undeclared limits := fun n hn => h n (hn.of_mem hu)

theorem Undeclared.self {limits : Limits} {s : Site} {n : String} {b : Buffer} {body : Stmt}
    (h : (Stmt.decl s n b body).Undeclared limits) : limits n = none :=
  h n ⟨s, b, body, self_mem_nodes _⟩

/-- Inside a declaration with a clean name the other declarations are of buffers without limits. -/
theorem Undeclared.enter {inner : Limits} {s : Site} {n : String} {b : Buffer} {body : Stmt}
    {cells : Cells} (h : (Stmt.decl s n b body).Undeclared limits)
    (hNames : (Stmt.decl s n b body).CleanNames) (hEnter : limits.Enter own c env n b cells inner) :
    body.Undeclared inner := by
  intro n' hn'
  have hne : n' ≠ n := by
    rintro rfl
    exact hNames.not_declares hn'
  rw [hEnter.other hne]
  exact h n' (hn'.of_mem (by simp [self_mem_nodes]))

end Stmt

namespace Limits

variable {own : List String} {c : Conventions} {env : Env} {limits inner : Limits} {n : String}
  {b : Buffer} {cells : Cells} {m : Memory}

/-- Inside a declaration the declared buffers have contents of their types. -/
theorem Hold.enter (hm : limits.Hold m) (hNew : limits n = none)
    (h : limits.Enter own c env n b cells inner) : inner.Hold (m.exchange n cells) := by
  intro b' l hl
  by_cases hb : b' = n
  · unfold Enter at h
    split at h
    · obtain ⟨l', _, hHolds, rfl⟩ := h
      rw [hb, set_self] at hl
      rw [hb, Memory.exchange_self, ← Option.some.inj hl]
      exact hHolds
    · rw [h, hb, hNew] at hl
      cases hl
  · rw [h.other hb] at hl
    rw [Memory.exchange_ne hb]
    exact hm b' l hl

/-- They have them when the declaration is left, whatever happens to its buffer. -/
theorem Hold.leave (hm : inner.Hold m) (hNew : limits n = none)
    (h : limits.Enter own c env n b cells inner) (cells' : Cells) :
    limits.Hold (m.exchange n cells') := by
  intro b' l hl
  have hb : b' ≠ n := by
    rintro rfl
    rw [hNew] at hl
    cases hl
  rw [Memory.exchange_ne hb]
  rw [← h.other hb] at hl
  exact hm b' l hl

end Limits

namespace Stmt

variable {own : List String} {c : Conventions}

/-- **Contents**: a run inside the limits keeps the contents of declared buffers in their types. -/
theorem hold_of_staysWithin :
    ∀ (t : Stmt) (limits : Limits) (env : Env) (m m' : Memory), t.CleanNames →
      t.Undeclared limits → limits.Hold m → t.StaysWithin own c limits env m m' →
        limits.Hold m' := by
  refine Stmt.ind ?_ ?_ ?_ ?_ ?_ ?_ ?_ ?_
  · intro s n b body ih limits env m m' hNames hNew hm h
    have hBody := hNames.of_mem (u := body) (by simp [self_mem_nodes])
    rw [StaysWithin] at h
    obtain ⟨inner, h⟩ := h
    split at h
    · obtain ⟨hEnter, last, hRun, rfl⟩ := h
      have hLast := ih inner env _ last hBody (hNew.enter hNames hEnter)
        (hm.enter hNew.self hEnter) hRun
      exact hLast.leave hNew.self hEnter _
    · obtain ⟨hEnter, hRun⟩ := h
      have hStart := hm.enter hNew.self hEnter
      rw [Memory.exchange_same] at hStart
      have hLast := ih inner env m m' hBody (hNew.enter hNames hEnter) hStart hRun
      have hLeave := hLast.leave hNew.self hEnter (m' n)
      rwa [Memory.exchange_same] at hLeave
  · intro s head body ih limits env m m' hNames hNew hm h
    have hMem : body ∈ (Stmt.loop s head body).nodes := by simp [self_mem_nodes]
    rw [StaysWithin] at h
    obtain ⟨lower, upper, _, _, hTurns⟩ := h
    exact keeps_of_inTurn (fun v _ m m' hm hRun =>
      ih limits _ m m' (hNames.of_mem hMem) (hNew.of_mem hMem) hm hRun) hm hTurns
  · intro s e body ih limits env m m' hNames hNew hm h
    have hMem : body ∈ (Stmt.guard s e body).nodes := by simp [self_mem_nodes]
    rw [StaysWithin] at h
    obtain ⟨v, _, h⟩ := h
    split at h
    · exact h ▸ hm
    · exact ih limits env m m' (hNames.of_mem hMem) (hNew.of_mem hMem) hm h
  · intro s e yes no ihYes ihNo limits env m m' hNames hNew hm h
    have hYes : yes ∈ (Stmt.branch s e yes no).nodes := by simp [self_mem_nodes]
    have hNo : no ∈ (Stmt.branch s e yes no).nodes := by simp [self_mem_nodes]
    rw [StaysWithin] at h
    obtain ⟨v, _, h⟩ := h
    split at h
    · exact ihNo limits env m m' (hNames.of_mem hNo) (hNew.of_mem hNo) hm h
    · exact ihYes limits env m m' (hNames.of_mem hYes) (hNew.of_mem hYes) hm h
  · intro s b is v limits env m m' _ _ hm h
    rw [StaysWithin] at h
    obtain ⟨cell, value, _, _, hAdmit, rfl⟩ := h
    intro n l hl
    by_cases hn : n = b
    · subst hn
      exact (hm n l hl).put (hAdmit l hl).2
    · rw [Memory.put_ne_buffer hn]
      exact hm n l hl
  · intro s f args limits env m m' _ _ _ h
    cases h
  · intro s ts ih limits env m m' hNames hNew hm h
    rw [staysWithin_block] at h
    refine keeps_of_inTurn (fun t ht m m' hm hRun => ?_) hm h
    have hMem : t ∈ (Stmt.block s ts).nodes := by
      rw [nodes_block]
      exact List.mem_cons_of_mem _ (List.mem_flatMap.mpr ⟨t, ht, self_mem_nodes t⟩)
    exact ih t ht limits env m m' (hNames.of_mem hMem) (hNew.of_mem hMem) hm hRun
  · intro s limits env m m' _ _ _ h
    cases h

/-! ## Declarations around a statement -/

theorem path?_self (t : Stmt) : t.path? t.id = some [] := by
  cases t <;> simp [path?]

theorem pathAll?_eq_none {id : Nat} {ts : List Stmt} (h : ∀ t ∈ ts, t.path? id = none) :
    pathAll? id ts = none := by
  induction ts with
  | nil => rfl
  | cons t ts ih =>
    rw [pathAll?, h t List.mem_cons_self, ih fun u hu => h u (List.mem_cons_of_mem t hu)]
    rfl

theorem path?_eq_none {id : Nat} : ∀ t : Stmt, id ∉ t.ids → t.path? id = none := by
  refine Stmt.children_ind fun t ih h => ?_
  rw [ids_eq_cons, List.mem_cons, not_or] at h
  have hBelow : ∀ u ∈ t.children, u.path? id = none := fun u hu =>
    ih u hu fun hMem => h.2 (List.mem_flatMap.mpr ⟨u, hu, hMem⟩)
  have hSelf : t.id ≠ id := Ne.symm h.1
  cases t with
  | decl s n b body => simp [path?, hSelf, hBelow body (by simp [children])]
  | loop s head body => simp [path?, hSelf, hBelow body (by simp [children])]
  | guard s e body => simp [path?, hSelf, hBelow body (by simp [children])]
  | branch s e yes no =>
    simp [path?, hSelf, hBelow yes (by simp [children]), hBelow no (by simp [children])]
  | block s ts =>
    have hAll : pathAll? id ts = none := pathAll?_eq_none hBelow
    simp [path?, hSelf, hAll]
  | store s b is v => simp [path?, hSelf]
  | call s f args => simp [path?, hSelf]
  | hole s => simp [path?, hSelf]

/-- What a name refers to below a statement: what it refers to there, or what the statement declares. -/
theorem bufferAt?_of_path {t u : Stmt} {id : Nat} {p : List Stmt} (hu : u.path? id = some p)
    (ht : t.path? id = some (t :: p)) (y : String) :
    t.bufferAt? y id = (u.bufferAt? y id).or (t.declares? y) := by
  unfold bufferAt? around
  rw [hu, ht, Option.getD_some, Option.getD_some, List.reverse_cons, List.findSome?_append]
  congr 1
  rw [List.findSome?_cons]
  cases t.declares? y <;> rfl

theorem pathAll?_of_mem {id : Nat} {p : List Stmt} {ts : List Stmt} {w : Stmt} (hw : w ∈ ts)
    (hPath : w.path? id = some p) (hOther : ∀ u ∈ ts, u ≠ w → u.path? id = none) :
    pathAll? id ts = some p := by
  induction ts with
  | nil => cases hw
  | cons t ts ih =>
    rw [pathAll?]
    by_cases hEq : t = w
    · rw [hEq, hPath]
      rfl
    · rw [hOther t List.mem_cons_self hEq]
      refine ih ?_ fun u hu => hOther u (List.mem_cons_of_mem t hu)
      exact (List.mem_cons.mp hw).resolve_left (Ne.symm hEq)

/-- The path to what is below a child goes through the child. -/
theorem path?_of_child {t w : Stmt} (hIds : t.ids.Nodup) (hw : w ∈ t.children) {id : Nat}
    (hMem : id ∈ w.ids) {p : List Stmt} (hPath : w.path? id = some p) :
    t.path? id = some (t :: p) := by
  have hParts := hIds
  rw [ids_eq_cons, List.nodup_cons, List.nodup_flatMap] at hParts
  obtain ⟨hNew, _, hDisjoint⟩ := hParts
  have hSelf : t.id ≠ id := by
    rintro rfl
    exact hNew (List.mem_flatMap.mpr ⟨w, hw, hMem⟩)
  have hSymm : Std.Symm (Function.onFun List.Disjoint ids) := ⟨fun _ _ h => h.symm⟩
  have hOther : ∀ u ∈ t.children, u ≠ w → u.path? id = none := fun u hu hne =>
    path?_eq_none u fun hIn => hDisjoint.forall hu hw hne hIn hMem
  cases t with
  | decl s n b body =>
    obtain rfl : w = body := by simpa [children] using hw
    simp [path?, hSelf, hPath]
  | loop s head body =>
    obtain rfl : w = body := by simpa [children] using hw
    simp [path?, hSelf, hPath]
  | guard s e body =>
    obtain rfl : w = body := by simpa [children] using hw
    simp [path?, hSelf, hPath]
  | branch s e yes no =>
    by_cases hYes : w = yes
    · rw [hYes] at hPath
      simp [path?, hSelf, hPath]
    · have hNo : w = no := by simpa [children, hYes] using hw
      have hNone := hOther yes (by simp [children]) (Ne.symm hYes)
      rw [hNo] at hPath
      simp [path?, hSelf, hPath, hNone]
  | block s ts =>
    have hAll : pathAll? id ts = some p := pathAll?_of_mem hw hPath hOther
    simp [path?, hSelf, hAll]
  | store s b is v => cases hw
  | call s f args => cases hw
  | hole s => cases hw

theorem exists_path? {id : Nat} :
    ∀ t : Stmt, t.ids.Nodup → id ∈ t.ids → ∃ p, t.path? id = some p := by
  refine Stmt.children_ind fun t ih hIds hMem => ?_
  rw [ids_eq_cons, List.mem_cons] at hMem
  rcases hMem with rfl | hMem
  · exact ⟨[], path?_self t⟩
  · obtain ⟨w, hw, hMem⟩ := List.mem_flatMap.mp hMem
    have hSub : w ∈ t.nodes := mem_nodes_of_child hw (self_mem_nodes w)
    obtain ⟨p, hp⟩ := ih w hw (nodup_ids_of_mem hIds hSub) hMem
    exact ⟨t :: p, path?_of_child hIds hw hMem hp⟩

/-- What a name refers to: the innermost declaration. -/
theorem bufferAt?_of_child {t w : Stmt} (hIds : t.ids.Nodup) (hw : w ∈ t.children) {id : Nat}
    (hMem : id ∈ w.ids) (y : String) :
    t.bufferAt? y id = (w.bufferAt? y id).or (t.declares? y) := by
  have hSub : w ∈ t.nodes := mem_nodes_of_child hw (self_mem_nodes w)
  obtain ⟨p, hp⟩ := exists_path? w (nodup_ids_of_mem hIds hSub) hMem
  exact bufferAt?_of_path hp (path?_of_child hIds hw hMem hp) y

theorem bufferAt?_self (t : Stmt) (y : String) : t.bufferAt? y t.id = none := by
  rw [bufferAt?, around, path?_self]
  rfl

/-- A name refers to a declaration around. -/
theorem exists_decl_of_bufferAt? {y : String} {id : Nat} {host : Buffer} :
    ∀ t : Stmt, t.ids.Nodup → t.bufferAt? y id = some host →
      ∃ s body, Stmt.decl s y host body ∈ t.nodes ∧ id ∈ body.ids := by
  refine Stmt.children_ind fun t ih hIds hHost => ?_
  by_cases hMem : id ∈ t.ids
  · rw [ids_eq_cons, List.mem_cons] at hMem
    rcases hMem with rfl | hMem
    · rw [bufferAt?_self] at hHost
      cases hHost
    · obtain ⟨w, hw, hInside⟩ := List.mem_flatMap.mp hMem
      have hSub : w ∈ t.nodes := mem_nodes_of_child hw (self_mem_nodes w)
      rw [bufferAt?_of_child hIds hw hInside] at hHost
      rcases Option.or_eq_some_iff.mp hHost with hBelow | ⟨_, hHere⟩
      · obtain ⟨s, body, hDecl, hIn⟩ := ih w hw (nodup_ids_of_mem hIds hSub) hBelow
        exact ⟨s, body, mem_nodes_trans hDecl hSub, hIn⟩
      · cases t with
        | decl s n b body =>
          obtain ⟨rfl, rfl⟩ : n = y ∧ b = host := by simpa [declares?] using hHere
          obtain rfl : w = body := by simpa [children] using hw
          exact ⟨s, w, self_mem_nodes _, hInside⟩
        | _ => cases hHere
  · rw [bufferAt?, around, path?_eq_none t hMem] at hHost
    cases hHost

/-! ## Replaced statements -/

/-- What a name and the limits refer to at a statement.

    * **limit**: the declaration of the name is the one that set its limit;
    * **still**: its shape means the same everywhere in the statement;
    * **owned**: only declarations that are checked have set limits. -/
structure Refers (own : List String) (c : Conventions) (limits : Limits) (env : Env) (y : String)
    (host : Option Buffer) (t : Stmt) : Prop where
  limit : ∀ b, host = some b → ∃ l, limits y = some l ∧ b.limit? c env = some l
  still : ∀ b, host = some b → ∀ e ∈ b.shape, ∀ x ∈ e.scalars, ¬ t.Binds x
  owned : ∀ n, n ∉ own → limits n = none

namespace Refers

variable {limits : Limits} {env : Env} {y : String} {host : Option Buffer} {t : Stmt}

theorem of_mem {u : Stmt} (hu : u ∈ t.nodes) (h : Refers own c limits env y host t) :
    Refers own c limits env y host u where
  limit := h.limit
  still b hb e he x hx hBinds := h.still b hb e he x hx (hBinds.of_mem hu)
  owned := h.owned

/-- In the body of a loop the iterator is set. -/
theorem set {s : Site} {head : LoopHead} {body : Stmt}
    (h : Refers own c limits env y host (.loop s head body)) (v : Int) :
    Refers own c limits (env.set head.iter v) y host body where
  limit b hb := by
    obtain ⟨l, hl, hLimit⟩ := h.limit b hb
    refine ⟨l, hl, Eq.trans (Buffer.limit?_congr fun e he x hx => Env.set_ne ?_) hLimit⟩
    rintro rfl
    exact h.still b hb e he head.iter hx ⟨s, head, body, self_mem_nodes _, rfl⟩
  still := (h.of_mem (by simp [self_mem_nodes])).still
  owned := h.owned

/-- In the body of a declaration its name refers to it. -/
theorem enter {s : Site} {n : String} {b : Buffer} {body : Stmt} {cells : Cells} {inner : Limits}
    (hy : y ∈ own) (hNames : (Stmt.decl s n b body).CleanNames)
    (h : Refers own c limits env y host (.decl s n b body))
    (hEnter : limits.Enter own c env n b cells inner) :
    Refers own c inner env y (((Stmt.decl s n b body).declares? y).or host) body := by
  have hBody : body ∈ (Stmt.decl s n b body).nodes := by simp [self_mem_nodes]
  have hOwned : ∀ n', n' ∉ own → inner n' = none := by
    intro n' hn'
    unfold Limits.Enter at hEnter
    split at hEnter
    · rename_i hn
      obtain ⟨l, _, _, rfl⟩ := hEnter
      have hne : n' ≠ n := by
        rintro rfl
        exact hn' hn
      rw [Limits.set_ne limits hne]
      exact h.owned n' hn'
    · rw [hEnter]
      exact h.owned n' hn'
  by_cases hn : n = y
  · have hHere : (Stmt.decl s n b body).declares? y = some b := by simp [declares?, hn]
    rw [hHere, Option.some_or]
    refine ⟨fun b' hb => ?_, fun b' hb e he x hx => ?_, hOwned⟩
    · obtain rfl := Option.some.inj hb
      unfold Limits.Enter at hEnter
      rw [hn, if_pos hy] at hEnter
      obtain ⟨l, hLimit, _, rfl⟩ := hEnter
      exact ⟨l, Limits.set_self limits y l, hLimit⟩
    · obtain rfl := Option.some.inj hb
      exact hNames.not_binds_shape he hx
  · have hHere : (Stmt.decl s n b body).declares? y = none := by simp [declares?, hn]
    rw [hHere, Option.none_or]
    refine ⟨fun b' hb => ?_, (h.of_mem hBody).still, hOwned⟩
    rw [hEnter.other (Ne.symm hn)]
    exact h.limit b' hb

end Refers

/-- **Replaced statements**: a program has the runs inside the limits that it had when the new
    statement has those of the old one. There the limit of a declared buffer is that of the
    declaration that its name refers to. -/
theorem Replaces.staysWithin {u v t t' : Stmt} {y : String} {host : Buffer} (h : Replaces u v t t')
    (hIds : t.ids.Nodup) (hNames : t.CleanNames) (hy : y ∈ own)
    (hSame : ∀ limits env m m', u.Undeclared limits → limits.Hold m →
      Refers own c limits env y (some host) u → u.StaysWithin own c limits env m m' →
        v.StaysWithin own c limits env m m') :
    ∀ (outer : Option Buffer) (limits : Limits) (env : Env) (m m' : Memory),
      (t.bufferAt? y u.id).or outer = some host → t.Undeclared limits → limits.Hold m →
        Refers own c limits env y outer t → t.StaysWithin own c limits env m m' →
          t'.StaysWithin own c limits env m m' := by
  induction h with
  | here =>
    intro outer limits env m m' hHost hNew hm hRefers hRun
    rw [bufferAt?_self, Option.none_or] at hHost
    subst hHost
    exact hSame limits env m m' hNew hm hRefers hRun
  | @decl t t' s n b hBelow ih =>
    intro outer limits env m m' hHost hNew hm hRefers hRun
    have hMem : t ∈ (Stmt.decl s n b t).nodes := by simp [self_mem_nodes]
    rw [bufferAt?_of_child hIds (w := t) (by simp [children]) (List.mem_map_of_mem hBelow.mem),
      Option.or_assoc] at hHost
    have ih' := ih (nodup_ids_of_mem hIds hMem) (hNames.of_mem hMem)
    rw [StaysWithin] at hRun ⊢
    obtain ⟨inner, hRun⟩ := hRun
    refine ⟨inner, ?_⟩
    split at hRun
    · rename_i hCache
      rw [if_pos hCache]
      obtain ⟨hEnter, last, hBody, rfl⟩ := hRun
      exact ⟨hEnter, last, ih' _ inner env _ last hHost (hNew.enter hNames hEnter)
        (hm.enter hNew.self hEnter) (hRefers.enter hy hNames hEnter) hBody, rfl⟩
    · rename_i hVisible
      rw [if_neg hVisible]
      obtain ⟨hEnter, hBody⟩ := hRun
      have hStart := hm.enter hNew.self hEnter
      rw [Memory.exchange_same] at hStart
      exact ⟨hEnter, ih' _ inner env m m' hHost (hNew.enter hNames hEnter) hStart
        (hRefers.enter hy hNames hEnter) hBody⟩
  | @loop t t' s head hBelow ih =>
    intro outer limits env m m' hHost hNew hm hRefers hRun
    have hMem : t ∈ (Stmt.loop s head t).nodes := by simp [self_mem_nodes]
    rw [bufferAt?_of_child hIds (w := t) (by simp [children]) (List.mem_map_of_mem hBelow.mem)]
      at hHost
    rw [show (Stmt.loop s head t).declares? y = none from rfl, Option.or_none] at hHost
    have ih' := ih (nodup_ids_of_mem hIds hMem) (hNames.of_mem hMem)
    rw [StaysWithin] at hRun ⊢
    obtain ⟨lower, upper, hLower, hUpper, hTurns⟩ := hRun
    refine ⟨lower, upper, hLower, hUpper, (inTurn_imp (fun v _ m m' hm hRun => ?_) hm hTurns).2⟩
    exact ⟨hold_of_staysWithin t limits _ m m' (hNames.of_mem hMem) (hNew.of_mem hMem) hm hRun,
      ih' outer limits _ m m' hHost (hNew.of_mem hMem) hm (hRefers.set v) hRun⟩
  | @guard t t' s e hBelow ih =>
    intro outer limits env m m' hHost hNew hm hRefers hRun
    have hMem : t ∈ (Stmt.guard s e t).nodes := by simp [self_mem_nodes]
    rw [bufferAt?_of_child hIds (w := t) (by simp [children]) (List.mem_map_of_mem hBelow.mem)]
      at hHost
    rw [show (Stmt.guard s e t).declares? y = none from rfl, Option.or_none] at hHost
    rw [StaysWithin] at hRun ⊢
    obtain ⟨v, hv, hRun⟩ := hRun
    refine ⟨v, hv, ?_⟩
    split at hRun
    · rename_i hZero
      rw [if_pos hZero]
      exact hRun
    · rename_i hZero
      rw [if_neg hZero]
      exact ih (nodup_ids_of_mem hIds hMem) (hNames.of_mem hMem) outer limits env m m' hHost
        (hNew.of_mem hMem) hm (hRefers.of_mem hMem) hRun
  | @yes t t' s e no hBelow ih =>
    intro outer limits env m m' hHost hNew hm hRefers hRun
    have hMem : t ∈ (Stmt.branch s e t no).nodes := by simp [self_mem_nodes]
    rw [bufferAt?_of_child hIds (w := t) (by simp [children]) (List.mem_map_of_mem hBelow.mem)]
      at hHost
    rw [show (Stmt.branch s e t no).declares? y = none from rfl, Option.or_none] at hHost
    rw [StaysWithin] at hRun ⊢
    obtain ⟨v, hv, hRun⟩ := hRun
    refine ⟨v, hv, ?_⟩
    split at hRun
    · rename_i hZero
      rw [if_pos hZero]
      exact hRun
    · rename_i hZero
      rw [if_neg hZero]
      exact ih (nodup_ids_of_mem hIds hMem) (hNames.of_mem hMem) outer limits env m m' hHost
        (hNew.of_mem hMem) hm (hRefers.of_mem hMem) hRun
  | @no t t' s e yes hBelow ih =>
    intro outer limits env m m' hHost hNew hm hRefers hRun
    have hMem : t ∈ (Stmt.branch s e yes t).nodes := by simp [self_mem_nodes]
    rw [bufferAt?_of_child hIds (w := t) (by simp [children]) (List.mem_map_of_mem hBelow.mem)]
      at hHost
    rw [show (Stmt.branch s e yes t).declares? y = none from rfl, Option.or_none] at hHost
    rw [StaysWithin] at hRun ⊢
    obtain ⟨v, hv, hRun⟩ := hRun
    refine ⟨v, hv, ?_⟩
    split at hRun
    · rename_i hZero
      rw [if_pos hZero]
      exact ih (nodup_ids_of_mem hIds hMem) (hNames.of_mem hMem) outer limits env m m' hHost
        (hNew.of_mem hMem) hm (hRefers.of_mem hMem) hRun
    · rename_i hZero
      rw [if_neg hZero]
      exact hRun
  | @block t t' s before after hBelow ih =>
    intro outer limits env m m' hHost hNew hm hRefers hRun
    have hEach : ∀ w ∈ before ++ t :: after, w ∈ (Stmt.block s (before ++ t :: after)).nodes := by
      intro w hw
      rw [nodes_block]
      exact List.mem_cons_of_mem _ (List.mem_flatMap.mpr ⟨w, hw, self_mem_nodes w⟩)
    have hMem := hEach t (by simp)
    rw [bufferAt?_of_child hIds (w := t) (by simp [children]) (List.mem_map_of_mem hBelow.mem)]
      at hHost
    rw [show (Stmt.block s (before ++ t :: after)).declares? y = none from rfl, Option.or_none]
      at hHost
    rw [staysWithin_block, List.map_append, List.map_cons, inTurn_append] at hRun ⊢
    obtain ⟨between, hBefore, last, hHere, hAfter⟩ := hRun
    -- the statements before keep the contents in their types
    have hBetween : limits.Hold between := keeps_of_inTurn (fun w hw m m' hm hRun =>
      have hw' := hEach w (List.mem_append_left _ hw)
      hold_of_staysWithin w limits env m m' (hNames.of_mem hw') (hNew.of_mem hw') hm hRun) hm hBefore
    refine ⟨between, hBefore, last, ?_, hAfter⟩
    exact ih (nodup_ids_of_mem hIds hMem) (hNames.of_mem hMem) outer limits env between last hHost
      (hNew.of_mem hMem) hBetween (hRefers.of_mem hMem) hHere

end Stmt

end LoopNest

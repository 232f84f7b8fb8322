import LoopNest.Proofs.CanonicalForms
import LoopNest.Proofs.CautiousRuns
import LoopNest.Semantics.CanonicalRun
import LoopNest.Semantics.Rounding

/-! # What a canonical form leaves

  A program that uses names in their roles leaves what its canonical form leaves, as far as a cautious
  run has an answer (`Stmt.follows_canonical`). In the end that depends on nothing but the canonical
  form.

  At every place of the program the scope says what the names stand for. Those that serve as buffers
  (`Referent.Serves`) have places in the run of the canonical form, and `Places.view` puts the contents
  back under their names. Names that are hidden by a binder keep what they hold, and so do places that
  no name stands for (`Places.Kept`), so everything is as it was when the binder is left. -/

namespace LoopNest

/-! ## Names and places -/

/-- The role of a name. -/
def Symbol.role : Symbol → Role
  | scalar _ => .scalar
  | buffer _ => .buffer

namespace Referent

/-- What a name stands for in a scope. -/
def under (scope : List Symbol) (name : String) : Referent := of (scope.map Symbol.name) name

/-- Whether a name stands for something of a role. -/
def Serves (scope : List Symbol) (role : Role) (name : String) : Prop :=
  (under scope name).plays (scope.map Symbol.role) role = true

instance (scope : List Symbol) (role : Role) (name : String) : Decidable (Serves scope role name) :=
  inferInstanceAs (Decidable (_ = true))

theorem under_cons_self (x : Symbol) (scope : List Symbol) : under (x :: scope) x.name = binder 0 :=
  of_cons_self x.name _

theorem under_cons_ne {x : Symbol} {name : String} (h : name ≠ x.name) (scope : List Symbol) :
    under (x :: scope) name = (under scope name).shift := by
  unfold under
  rw [List.map_cons, of_cons_ne h]
  cases of (scope.map Symbol.name) name <;> rfl

theorem under_injective {scope : List Symbol} {a b : String} (h : under scope a = under scope b) :
    a = b := by
  unfold under of at h
  split at h <;> split at h
  · rename_i ha _
    exact (List.idxOf_inj ha).mp (binder.inj h)
  · cases h
  · cases h
  · exact outside.inj h

theorem shift_injective {r r' : Referent} (h : r.shift = r'.shift) : r = r' := by
  cases r <;> cases r' <;> simp_all [shift]

theorem plays_shift (roles : List Role) (role role' : Role) (r : Referent) :
    r.shift.plays (role :: roles) role' = r.plays roles role' := by
  cases r <;> simp [shift, plays]

theorem serves_cons_self (x : Symbol) (scope : List Symbol) (role : Role) :
    Serves (x :: scope) role x.name ↔ x.role = role := by
  unfold Serves
  rw [under_cons_self]
  simp [plays]

theorem serves_cons_ne {x : Symbol} {name : String} (h : name ≠ x.name) (scope : List Symbol)
    (role : Role) : Serves (x :: scope) role name ↔ Serves scope role name := by
  unfold Serves
  rw [under_cons_ne h, List.map_cons, plays_shift]

end Referent

namespace Places

open Referent

@[simp] theorem push_shift {α : Type} (value : α) (p : Places α) (r : Referent) :
    p.push value r.shift = p r := by
  cases r <;> rfl

/-- The places that stand for names of a scope, as far as these are buffers, hold the same. -/
def Kept (scope : List Symbol) (m m' : Places Cells) : Prop :=
  ∀ r, (∀ b, Serves scope .buffer b → under scope b ≠ r) → m' r = m r

/-- The buffers under their names; names that do not stand for buffers mean what they meant before. -/
def view (scope : List Symbol) (hidden : Memory) (m : Places Cells) : Memory := fun b =>
  if Serves scope .buffer b then m (under scope b) else hidden b

variable {scope : List Symbol} {hidden : Memory} {m m' : Places Cells} {b n : String}

theorem view_serves (h : Serves scope .buffer b) : view scope hidden m b = m (under scope b) := if_pos h

theorem view_hidden (h : ¬ Serves scope .buffer b) : view scope hidden m b = hidden b := if_neg h

/-- A declaration hides the buffer that its name meant outside. -/
theorem view_push_buffer (cells : Cells) :
    view (.buffer n :: scope) (view scope hidden m) (m.push cells)
      = (view scope hidden m).exchange n cells := by
  funext b
  by_cases hb : b = n
  · subst hb
    have hInner : Serves (.buffer b :: scope) .buffer b := (serves_cons_self (.buffer b) scope _).mpr rfl
    rw [view_serves hInner, Memory.exchange_self]
    exact congrArg (m.push cells) (under_cons_self (.buffer b) scope)
  · rw [Memory.exchange_ne hb]
    by_cases hOuter : Serves scope .buffer b
    · rw [view_serves ((serves_cons_ne hb scope .buffer).mpr hOuter), under_cons_ne hb, push_shift,
        view_serves hOuter]
    · rw [view_hidden fun h => hOuter ((serves_cons_ne hb scope .buffer).mp h)]

/-- A loop hides a buffer of the name of its iterator, which keeps what it holds. -/
theorem view_push_scalar (cells : Cells) :
    view (.scalar n :: scope) (view scope hidden m) (m.push cells) = view scope hidden m := by
  funext b
  by_cases hb : b = n
  · subst hb
    refine view_hidden fun h => ?_
    cases (serves_cons_self (.scalar b) scope .buffer).mp h
  · by_cases hOuter : Serves scope .buffer b
    · rw [view_serves ((serves_cons_ne hb scope .buffer).mpr hOuter), under_cons_ne hb, push_shift,
        view_serves hOuter]
    · rw [view_hidden fun h => hOuter ((serves_cons_ne hb scope .buffer).mp h)]

/-- What is kept inside of a binder is kept by what the binder binds it in. -/
theorem Kept.pop {x : Symbol} {cells : Cells} (h : Kept (x :: scope) (m.push cells) m') :
    Kept scope m m'.pop := by
  intro r hr
  refine (h r.shift fun b hb hEq => ?_).trans (push_shift cells m r)
  by_cases hName : b = x.name
  · subst hName
    rw [under_cons_self] at hEq
    cases r <;> cases hEq
  · rw [under_cons_ne hName] at hEq
    exact hr b ((serves_cons_ne hName scope .buffer).mp hb) (shift_injective hEq)

/-- Below a binder of its name a buffer has a place that no name stands for. -/
theorem Kept.pop_hidden {x : Symbol} {cells : Cells} (h : Kept (x :: scope) (m.push cells) m') :
    m'.pop (under scope x.name) = m (under scope x.name) := by
  refine (h (under scope x.name).shift fun b hb hEq => ?_).trans (push_shift cells m _)
  -- a name inside stands for the binder itself or for what another name stands for outside
  by_cases hName : b = x.name
  · subst hName
    rw [under_cons_self] at hEq
    cases hUnder : under scope x.name <;> rw [hUnder] at hEq <;> cases hEq
  · rw [under_cons_ne hName] at hEq
    exact hName (under_injective (shift_injective hEq))

/-- When a declaration is left the name means again what it meant before. -/
theorem view_pop_buffer {cells : Cells} (h : Kept (.buffer n :: scope) (m.push cells) m') :
    view scope hidden m'.pop = (view (.buffer n :: scope) (view scope hidden m) m').exchange n
      (view scope hidden m n) := by
  funext b
  by_cases hb : b = n
  · subst hb
    rw [Memory.exchange_self]
    by_cases hOuter : Serves scope .buffer b
    · rw [view_serves hOuter, view_serves hOuter]
      exact h.pop_hidden
    · rw [view_hidden hOuter, view_hidden hOuter]
  · rw [Memory.exchange_ne hb]
    by_cases hOuter : Serves scope .buffer b
    · rw [view_serves ((serves_cons_ne hb scope .buffer).mpr hOuter), under_cons_ne hb,
        view_serves hOuter]
      rfl
    · rw [view_hidden fun h => hOuter ((serves_cons_ne hb scope .buffer).mp h), view_hidden hOuter,
        view_hidden hOuter]

/-- When a loop is left a buffer of the name of its iterator is what it was. -/
theorem view_pop_scalar {cells : Cells} (h : Kept (.scalar n :: scope) (m.push cells) m') :
    view scope hidden m'.pop = view (.scalar n :: scope) (view scope hidden m) m' := by
  funext b
  by_cases hb : b = n
  · subst hb
    have hInner : ¬ Serves (.scalar b :: scope) .buffer b := by
      intro h
      cases (serves_cons_self (.scalar b) scope .buffer).mp h
    rw [view_hidden hInner]
    by_cases hOuter : Serves scope .buffer b
    · rw [view_serves hOuter, view_serves hOuter]
      exact h.pop_hidden
    · rw [view_hidden hOuter, view_hidden hOuter]
  · by_cases hOuter : Serves scope .buffer b
    · rw [view_serves ((serves_cons_ne hb scope .buffer).mpr hOuter), under_cons_ne hb,
        view_serves hOuter]
      rfl
    · rw [view_hidden fun h => hOuter ((serves_cons_ne hb scope .buffer).mp h), view_hidden hOuter,
        view_hidden hOuter]

/-- A write to a buffer that is seen under its name. -/
theorem view_put (h : Serves scope .buffer b) (is : List Int) (v : Int) :
    view scope hidden (m.put (under scope b) is v) = (view scope hidden m).put b is v := by
  funext c js
  by_cases hc : Serves scope .buffer c
  · rw [view_serves hc]
    unfold Places.put Memory.put
    rw [view_serves hc]
    by_cases hSame : c = b
    · simp only [hSame, true_and]
    · rw [if_neg fun hBoth => hSame (under_injective hBoth.1), if_neg fun hBoth => hSame hBoth.1]
  · have hNe : c ≠ b := fun hEq => hc (hEq ▸ h)
    rw [Memory.put_ne_buffer hNe, view_hidden hc, view_hidden hc]

theorem Kept.put (h : Kept scope m m') (hb : Serves scope .buffer b) (is : List Int) (v : Int) :
    Kept scope m (m'.put (under scope b) is v) := by
  intro r hr
  funext js
  unfold Places.put
  rw [if_neg fun hBoth => hr b hb hBoth.1.symm, h r hr]

theorem Kept.trans {m'' : Places Cells} (h : Kept scope m m') (h' : Kept scope m' m'') :
    Kept scope m m'' := fun r hr => (h' r hr).trans (h r hr)

end Places

/-! ## Values -/

open Referent Places

/-- The values of scalars under their names and in their places. -/
def Env.Stored (scope : List Symbol) (env : Env) (p : Places Int) : Prop :=
  ∀ x, Serves scope .scalar x → p (under scope x) = env x

namespace Env.Stored

variable {scope : List Symbol} {env : Env} {p : Places Int}

theorem iterate (h : Stored scope env p) (i : String) (v : Int) :
    Stored (.scalar i :: scope) (env.set i v) (p.push v) := by
  intro x hx
  by_cases hName : x = i
  · subst hName
    rw [set_self]
    exact congrArg (p.push v) (under_cons_self (.scalar x) scope)
  · rw [set_ne hName, under_cons_ne (x := .scalar i) hName, push_shift]
    exact h x ((serves_cons_ne (x := .scalar i) hName scope .scalar).mp hx)

theorem declare (h : Stored scope env p) (n : String) (v : Int) :
    Stored (.buffer n :: scope) env (p.push v) := by
  intro x hx
  by_cases hName : x = n
  · subst hName
    cases (serves_cons_self (.buffer x) scope .scalar).mp hx
  · rw [under_cons_ne (x := .buffer n) hName, push_shift]
    exact h x ((serves_cons_ne (x := .buffer n) hName scope .scalar).mp hx)

end Env.Stored

namespace Expr

variable {scope : List Symbol} {round : UInt64 → Int} {env : Env} {p : Places Int} {hidden : Memory}
  {m : Places Cells}

theorem values?_canonical_of_forall {es : List Expr}
    (hEach : ∀ e ∈ es, (e.canonical (scope.map Symbol.name)).keepsRoles (scope.map Symbol.role) = true →
      (e.canonical (scope.map Symbol.name)).value? round p m
        = (e.rounded fun x => round x.toBits).value? env (view scope hidden m))
    (hRoles : CanonicalExpr.keepsRolesAll (scope.map Symbol.role)
      (canonicalAll (scope.map Symbol.name) es) = true) :
    CanonicalExpr.values? round p m (canonicalAll (scope.map Symbol.name) es)
      = values? env (view scope hidden m) (es.map (rounded fun x => round x.toBits)) := by
  induction es with
  | nil => rfl
  | cons e es ih =>
    rw [canonicalAll, CanonicalExpr.keepsRolesAll, Bool.and_eq_true] at hRoles
    rw [canonicalAll, List.map_cons, CanonicalExpr.values?, values?,
      hEach e List.mem_cons_self hRoles.1,
      ih (fun e' he' => hEach e' (List.mem_cons_of_mem e he')) hRoles.2]

/-- **Values**: an expression is worth what its canonical form is worth. -/
theorem value?_canonical (hEnv : Env.Stored scope env p) : ∀ e : Expr,
    (e.canonical (scope.map Symbol.name)).keepsRoles (scope.map Symbol.role) = true →
      (e.canonical (scope.map Symbol.name)).value? round p m
        = (e.rounded fun x => round x.toBits).value? env (view scope hidden m) := by
  refine Expr.ind ?int ?float ?bool ?var ?load ?unary ?binary
  case int => exact fun _ _ => rfl
  case float => exact fun _ _ => rfl
  case bool => exact fun _ _ => rfl
  case var =>
    intro x hRoles
    exact congrArg some (hEnv x hRoles)
  case load =>
    intro b is ih hRoles
    rw [canonical, CanonicalExpr.keepsRoles, Bool.and_eq_true] at hRoles
    have hSubscripts := values?_canonical_of_forall ih hRoles.2
    rw [canonical, CanonicalExpr.value?, hSubscripts, rounded, roundedAll_eq_map, value?]
    exact Option.bind_congr fun cell _ => congrFun (view_serves hRoles.1).symm cell
  case unary =>
    intro op e ih hRoles
    rw [canonical, CanonicalExpr.value?, ih hRoles, rounded, value?]
  case binary =>
    intro op a b iha ihb hRoles
    rw [canonical, CanonicalExpr.keepsRoles, Bool.and_eq_true] at hRoles
    rw [canonical, CanonicalExpr.value?, iha hRoles.1, ihb hRoles.2, rounded, value?]

theorem values?_canonical (hEnv : Env.Stored scope env p) {es : List Expr}
    (hRoles : CanonicalExpr.keepsRolesAll (scope.map Symbol.role)
      (canonicalAll (scope.map Symbol.name) es) = true) :
    CanonicalExpr.values? round p m (canonicalAll (scope.map Symbol.name) es)
      = values? env (view scope hidden m) (es.map (rounded fun x => round x.toBits)) :=
  values?_canonical_of_forall (fun e _ => value?_canonical hEnv e) hRoles

end Expr

/-! ## Programs -/

/-- A memory of a cautious run and the places of the canonical form, which started with some contents. -/
structure Tracks (same : String → Prop) (scope : List Symbol) (hidden : Memory) (start : Places Cells)
    (m : Memory) (k : Places Cells) : Prop where
  ahead : m.Ahead same (view scope hidden k)
  kept : Kept scope start k

namespace Tracks

variable {same : String → Prop} {scope : List Symbol} {hidden : Memory} {start : Places Cells}
  {m : Memory} {k : Places Cells} {round : UInt64 → Int} {env : Env} {p : Places Int}

theorem value? (h : Tracks same scope hidden start m k) (hEnv : Env.Stored scope env p) {e : Expr}
    (hRoles : (e.canonical (scope.map Symbol.name)).keepsRoles (scope.map Symbol.role) = true) {v : Int}
    (hValue : (e.rounded fun x => round x.toBits).value? env m = some v) :
    (e.canonical (scope.map Symbol.name)).value? round p k = some v := by
  rw [Expr.value?_canonical hEnv e hRoles]
  exact Expr.value?_mono h.ahead.more hValue

theorem values? (h : Tracks same scope hidden start m k) (hEnv : Env.Stored scope env p)
    {es : List Expr} (hRoles : CanonicalExpr.keepsRolesAll (scope.map Symbol.role)
      (Expr.canonicalAll (scope.map Symbol.name) es) = true) {vs : List Int}
    (hValues : Expr.values? env m (es.map (Expr.rounded fun x => round x.toBits)) = some vs) :
    CanonicalExpr.values? round p k (Expr.canonicalAll (scope.map Symbol.name) es) = some vs := by
  rw [Expr.values?_canonical hEnv hRoles]
  exact h.ahead.values? hValues

/-- What is done in the scope of a loop. -/
theorem inside_loop {i : String} {a : Transition Memory} {b : Transition (Places Cells)}
    (h : ∀ hidden start, Transition.Follows (Tracks same (.scalar i :: scope) hidden start) a b) :
    Transition.Follows (Tracks same scope hidden start) a b.inside := by
  intro m k after hm hRun
  have hEnter : Tracks same (.scalar i :: scope) (view scope hidden k) (k.push fun _ => none) m
      (k.push fun _ => none) := by
    refine ⟨?_, fun _ _ => rfl⟩
    rw [view_push_scalar]
    exact hm.ahead
  obtain ⟨k', hRun', hAfter⟩ := h _ _ m _ after hEnter hRun
  refine ⟨k'.pop, Option.map_eq_some_iff.mpr ⟨k', hRun', rfl⟩, ?_, hm.kept.trans hAfter.kept.pop⟩
  rw [view_pop_scalar hAfter.kept]
  exact hAfter.ahead

/-- What is done in the scope of a declaration, which hides another buffer of its name. -/
theorem inside_decl {n : String} (hn : ¬ same n) {a : Transition Memory} {b : Transition (Places Cells)}
    (h : ∀ hidden start, Transition.Follows (Tracks same (.buffer n :: scope) hidden start) a b)
    (hm : Tracks same scope hidden start m k) {inner : Memory}
    (hRun : a (m.exchange n (Memory.blank n)) = some inner) {cells : Cells}
    (hCells : ∀ cell v, cells cell = some v → view scope hidden k n cell = some v) :
    ∃ k', b.inside k = some k' ∧ Tracks same scope hidden start (inner.exchange n cells) k' := by
  have hEnter : Tracks same (.buffer n :: scope) (view scope hidden k) (k.push fun _ => none)
      (m.exchange n (Memory.blank n)) (k.push fun _ => none) := by
    refine ⟨?_, fun _ _ => rfl⟩
    rw [view_push_buffer]
    exact hm.ahead.exchange hn (Memory.blank_le _)
  obtain ⟨k', hRun', hAfter⟩ := h _ _ _ _ inner hEnter hRun
  refine ⟨k'.pop, Option.map_eq_some_iff.mpr ⟨k', hRun', rfl⟩, ?_, hm.kept.trans hAfter.kept.pop⟩
  rw [view_pop_buffer hAfter.kept]
  exact hAfter.ahead.exchange hn hCells

end Tracks

namespace Stmt

/-- **Canonical forms follow programs**: where a cautious run of a program that uses names in their
    roles has an answer, its canonical form leaves the same, and possibly more in the buffers that the
    program declares. -/
theorem follows_canonical {same : String → Prop} (round : UInt64 → Int) :
    ∀ (t : Stmt) (scope : List Symbol) (env : Env) (p : Places Int),
      (∀ n, same n → .buffer n ∉ t.binders) →
      Canonical.keepsRolesAll (scope.map Symbol.role) (t.canonicalIn (scope.map Symbol.name)) = true →
      Env.Stored scope env p → ∀ (hidden : Memory) (start : Places Cells),
      Transition.Follows (Tracks same scope hidden start)
        ((t.rounded fun x => round x.toBits).cautious env)
        (Canonical.runAll round p (t.canonicalIn (scope.map Symbol.name))) := by
  refine Stmt.ind ?decl ?loop ?guard ?branch ?store ?call ?block ?hole
  case decl =>
    intro s n b body ih scope env p hSame hRoles hEnv hidden start m k after hm hRun
    have hn : ¬ same n := fun h => hSame n h (mem_binders_of_binder? rfl)
    rw [canonicalIn, Canonical.keepsRolesAll_singleton, Canonical.keepsRoles] at hRoles
    rw [rounded_decl, cautious] at hRun
    obtain ⟨inner, hInner, hAfter⟩ := Option.bind_eq_some_iff.mp hRun
    cases hAfter
    rw [canonicalIn, Canonical.runAll_singleton, Canonical.run]
    have hBody := ih (.buffer n :: scope) env (p.push 0) (undeclared_child hSame (by simp [children]))
      hRoles (hEnv.declare n 0)
    refine Tracks.inside_decl hn hBody hm hInner ?_
    -- what the name means again outside is no more than what its place still holds
    intro cell v hCell
    by_cases hLocal : b.access = .cache
    · rw [if_pos hLocal] at hCell
      exact hm.ahead.more n cell v hCell
    · rw [if_neg hLocal] at hCell
      exact Memory.blank_le _ cell v hCell
  case loop =>
    intro s head body ih scope env p hSame hRoles hEnv hidden start
    rw [canonicalIn, Canonical.keepsRolesAll_singleton, Canonical.keepsRoles, Bool.and_eq_true,
      Bool.and_eq_true] at hRoles
    obtain ⟨⟨hLower, hUpper⟩, hInside⟩ := hRoles
    rw [rounded_loop, canonicalIn, Canonical.runAll_singleton]
    refine .given (fun m k hm v hv => hm.value? hEnv hLower hv) fun lower => ?_
    refine .given (fun m k hm v hv => hm.value? hEnv hUpper hv) fun upper => ?_
    refine .foldlM fun v _ => ?_
    have hBody := ih (.scalar head.iter :: scope) (env.set head.iter v) (p.push v)
      (undeclared_child hSame (by simp [children])) hInside (hEnv.iterate head.iter v)
    exact Tracks.inside_loop hBody
  case guard =>
    intro s c body ih scope env p hSame hRoles hEnv hidden start
    rw [canonicalIn, Canonical.keepsRolesAll_singleton, Canonical.keepsRoles, Bool.and_eq_true] at hRoles
    obtain ⟨hCond, hInside⟩ := hRoles
    have hBody := ih scope env p (undeclared_child hSame (by simp [children])) hInside hEnv hidden start
    rw [rounded_guard, canonicalIn, Canonical.runAll_singleton]
    refine .given (a := fun v m => if v = 0 then _ else _) (fun m k hm v hv => hm.value? hEnv hCond hv)
      fun v => ?_
    split
    · exact .idle
    · exact hBody
  case branch =>
    intro s c yes no ihYes ihNo scope env p hSame hRoles hEnv hidden start
    rw [canonicalIn, Canonical.keepsRolesAll_singleton, Canonical.keepsRoles, Bool.and_eq_true,
      Bool.and_eq_true] at hRoles
    obtain ⟨⟨hCond, hFirst⟩, hSecond⟩ := hRoles
    have hYes := ihYes scope env p (undeclared_child hSame (by simp [children])) hFirst hEnv hidden start
    have hNo := ihNo scope env p (undeclared_child hSame (by simp [children])) hSecond hEnv hidden start
    rw [rounded_branch, canonicalIn, Canonical.runAll_singleton]
    refine .given (a := fun v m => if v = 0 then _ else _) (fun m k hm v hv => hm.value? hEnv hCond hv)
      fun v => ?_
    split
    · exact hNo
    · exact hYes
  case store =>
    intro s b is v scope env p _ hRoles hEnv hidden start m k after hm hRun
    rw [canonicalIn, Canonical.keepsRolesAll_singleton, Canonical.keepsRoles, Bool.and_eq_true,
      Bool.and_eq_true] at hRoles
    obtain ⟨⟨hBuffer, hSubscripts⟩, hStored⟩ := hRoles
    rw [rounded_store, cautious] at hRun
    obtain ⟨indices, hIndices, hRun⟩ := Option.bind_eq_some_iff.mp hRun
    obtain ⟨value, hValue, hAfter⟩ := Option.bind_eq_some_iff.mp hRun
    cases hAfter
    rw [canonicalIn, Canonical.runAll_singleton, Canonical.run]
    simp only [hm.values? hEnv hSubscripts hIndices, hm.value? hEnv hStored hValue, Option.bind_eq_bind,
      Option.bind_some]
    refine ⟨_, rfl, ?_, hm.kept.put hBuffer indices value⟩
    have hPut := hm.ahead.put b indices value
    rwa [← view_put hBuffer] at hPut
  case call => exact fun s f args scope env p _ _ _ hidden start m k after _ hRun => by cases hRun
  case block =>
    intro s ts ih scope env p hSame hRoles hEnv hidden start
    replace hSame : ∀ t ∈ ts, ∀ n, same n → .buffer n ∉ t.binders := fun t ht =>
      undeclared_child hSame (by simpa [children] using ht)
    -- blocks are dissolved in a canonical form, so the statements are followed one by one
    rw [canonicalIn] at hRoles ⊢
    rw [rounded_block, cautious]
    induction ts with
    | nil => exact .idle
    | cons t ts ihList =>
      rw [canonicalInAll, Canonical.keepsRolesAll_append, Bool.and_eq_true] at hRoles
      have hHead := ih t List.mem_cons_self scope env p (hSame t List.mem_cons_self) hRoles.1 hEnv hidden
        start
      have hTail := ihList (fun u hu => ih u (List.mem_cons_of_mem t hu)) hRoles.2
        fun u hu => hSame u (List.mem_cons_of_mem t hu)
      rw [canonicalInAll, Canonical.runAll_append]
      exact hHead.seq hTail
  case hole => exact fun s scope env p _ _ _ hidden start m k after _ hRun => by cases hRun

end Stmt

end LoopNest

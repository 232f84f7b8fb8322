import LoopNest.Program.Scoping
import LoopNest.Proofs.BuiltExprs
import LoopNest.Proofs.ReplacedScalars
import LoopNest.Proofs.TidyPrograms

/-! # Names in their scopes

  What is known of a statement in the scope of some names, and what a change of a program keeps of it.

  * **Forms**: one condition for each kind of statement (`Stmt.scoped_loop` and its siblings).
  * **Statements**: scopes in terms of the statements that bind and use names
    (`Stmt.scoped_iff`, `Stmt.cleanlyNamed_iff`).
  * **Other scopes**: a scoped statement is scoped among more names, as long as it binds none of them
    (`Stmt.Scoped.mono`).
  * **Replaced scalars** (`Stmt.Scoped.substitute`) and numbering (`Stmt.cleanlyNamed_number`).
  * **Updates**: a program stays cleanly named when what takes the place of a statement is scoped
    where the statement was and binds no other names than new ones (`Stmt.CleanlyNamed.update`). -/

namespace LoopNest

variable {bound bound' around around' : List Symbol}

/-! ## Expressions -/

namespace Expr

variable {e : Expr}

@[simp] theorem mem_symbols_scalar {x : String} : Symbol.scalar x ∈ e.symbols ↔ x ∈ e.scalars := by
  simp [symbols]

@[simp] theorem mem_symbols_buffer {b : String} : Symbol.buffer b ∈ e.symbols ↔ b ∈ e.buffers := by
  simp [symbols]

/-- Of the bound names, only those around it occur in an expression. -/
def Scoped (bound around : List Symbol) (e : Expr) : Prop := ∀ x ∈ e.symbols, x ∈ bound → x ∈ around

instance : Decidable (e.Scoped bound around) :=
  inferInstanceAs (Decidable (∀ x ∈ e.symbols, x ∈ bound → x ∈ around))

theorem MadeOf.symbols {es : List Expr} (h : e.MadeOf es) {x : Symbol} (hx : x ∈ e.symbols) :
    ∃ d ∈ es, x ∈ d.symbols := by
  cases x with
  | scalar x => simpa using h.1 x (by simpa using hx)
  | buffer b => simpa using h.2 b (by simpa using hx)

theorem MadeOf.scoped {es : List Expr} (h : e.MadeOf es) (hEach : ∀ d ∈ es, d.Scoped bound around) :
    e.Scoped bound around := by
  intro x hx hBound
  obtain ⟨d, hd, hx⟩ := h.symbols hx
  exact hEach d hd x hx hBound

theorem Scoped.mono (h : e.Scoped bound around) (hAround : around ⊆ around')
    (hBound : ∀ x ∈ e.symbols, x ∈ bound' → x ∈ bound) : e.Scoped bound' around' :=
  fun x hx hMem => hAround (h x hx (hBound x hx hMem))

theorem scoped_int (v : Int) : (Expr.int v).Scoped bound around := fun _ hx => absurd hx List.not_mem_nil

theorem scoped_var {x : String} (h : .scalar x ∈ around) : (Expr.var x).Scoped bound around := by
  intro y hy _
  have hEq : y = .scalar x := by simpa [symbols] using hy
  exact hEq ▸ h

theorem scoped_binary {op : BinaryOp} {a b : Expr} (ha : a.Scoped bound around)
    (hb : b.Scoped bound around) : (Expr.binary op a b).Scoped bound around := by
  have hMade : (Expr.binary op a b).MadeOf [a, b] :=
    (MadeOf.of_mem (by simp)).binary (.of_mem (by simp)) op
  refine hMade.scoped fun d hd => ?_
  rcases List.mem_cons.mp hd with rfl | hd
  · exact ha
  · rwa [List.mem_singleton.mp hd]

theorem scoped_load {b : String} {is : List Expr} (hb : .buffer b ∈ around)
    (his : ∀ i ∈ is, i.Scoped bound around) : (Expr.load b is).Scoped bound around := by
  intro x hx hBound
  cases x with
  | scalar x =>
    rw [mem_symbols_scalar, scalars_load] at hx
    obtain ⟨i, hi, hx⟩ := List.mem_flatMap.mp hx
    exact his i hi _ (mem_symbols_scalar.mpr hx) hBound
  | buffer b' =>
    rw [mem_symbols_buffer, buffers_load, List.mem_cons] at hx
    rcases hx with rfl | hx
    · exact hb
    · obtain ⟨i, hi, hx⟩ := List.mem_flatMap.mp hx
      exact his i hi _ (mem_symbols_buffer.mpr hx) hBound

/-- When a scalar is replaced, it occurs only where it occurs in the new value. -/
theorem mem_symbols_substitute {x : String} {w : Expr} {y : Symbol} :
    ∀ e : Expr, y ∈ (e.substitute [(x, w)]).symbols →
      y ∈ e.symbols ∧ y ≠ .scalar x ∨ y ∈ w.symbols := by
  refine Expr.ind ?_ ?_ ?_ ?_ ?_ ?_ ?_
  · exact fun _ h => absurd h List.not_mem_nil
  · exact fun _ h => absurd h List.not_mem_nil
  · exact fun _ h => absurd h List.not_mem_nil
  · intro z h
    by_cases hz : z = x
    · subst hz
      exact .inr (by simpa [substitute] using h)
    · have hLookup : List.lookup z [(x, w)] = none := by
        rw [List.lookup_cons, beq_eq_false_iff_ne.mpr hz]
        rfl
      have hEq : y = .scalar z := by simpa [substitute, hLookup, symbols] using h
      subst hEq
      exact .inl ⟨by simp, by simpa using hz⟩
  · intro b is ih h
    rw [substitute, substituteAll_eq_map] at h
    have hEach : ∀ i ∈ is, y ∈ (i.substitute [(x, w)]).symbols →
        y ∈ (Expr.load b is).symbols ∧ y ≠ .scalar x ∨ y ∈ w.symbols := by
      intro i hi hy
      refine (ih i hi hy).imp_left fun hOld => ⟨?_, hOld.2⟩
      obtain ⟨d, hd, hy⟩ := (MadeOf.subscript b hi).symbols hOld.1
      rwa [List.mem_singleton.mp hd] at hy
    cases y with
    | scalar z =>
      rw [mem_symbols_scalar, scalars_load, List.flatMap_map] at h
      obtain ⟨i, hi, h⟩ := List.mem_flatMap.mp h
      exact hEach i hi (mem_symbols_scalar.mpr h)
    | buffer b' =>
      rw [mem_symbols_buffer, buffers_load, List.mem_cons, List.flatMap_map] at h
      rcases h with rfl | h
      · exact .inl ⟨by simp, by simp⟩
      · obtain ⟨i, hi, h⟩ := List.mem_flatMap.mp h
        exact hEach i hi (mem_symbols_buffer.mpr h)
  · intro op e ih h
    rw [substitute] at h
    obtain ⟨d, hd, h⟩ := ((MadeOf.refl _).unary op).symbols h
    rw [List.mem_singleton.mp hd] at h
    refine (ih h).imp_left fun hOld => ⟨?_, hOld.2⟩
    obtain ⟨d, hd, hy⟩ := (MadeOf.operand op e).symbols hOld.1
    rwa [List.mem_singleton.mp hd] at hy
  · intro op a b iha ihb h
    rw [substitute] at h
    have hMade : (Expr.binary op (a.substitute [(x, w)]) (b.substitute [(x, w)])).MadeOf
        [a.substitute [(x, w)], b.substitute [(x, w)]] :=
      (MadeOf.of_mem (by simp)).binary (.of_mem (by simp)) op
    obtain ⟨d, hd, h⟩ := hMade.symbols h
    rcases List.mem_cons.mp hd with rfl | hd
    · refine (iha h).imp_left fun hOld => ⟨?_, hOld.2⟩
      obtain ⟨d, hd, hy⟩ := (MadeOf.left op a b).symbols hOld.1
      rwa [List.mem_singleton.mp hd] at hy
    · rw [List.mem_singleton.mp hd] at h
      refine (ihb h).imp_left fun hOld => ⟨?_, hOld.2⟩
      obtain ⟨d, hd, hy⟩ := (MadeOf.right op a b).symbols hOld.1
      rwa [List.mem_singleton.mp hd] at hy

theorem buffers_substitute {e w : Expr} (he : e.buffers = []) (hw : w.buffers = []) (x : String) :
    (e.substitute [(x, w)]).buffers = [] := by
  refine List.eq_nil_iff_forall_not_mem.mpr fun b hb => ?_
  rcases mem_symbols_substitute e (mem_symbols_buffer.mpr hb) with ⟨hOld, _⟩ | hNew
  · rw [mem_symbols_buffer, he] at hOld
    cases hOld
  · rw [mem_symbols_buffer, hw] at hNew
    cases hNew

end Expr

namespace Stmt

variable {t u v : Stmt}

/-! ## Lists of names -/

theorem binders_eq_append (t : Stmt) :
    t.binders = t.binder?.toList ++ t.children.flatMap binders := filterMap_nodes _ t

theorem symbols_eq_append (t : Stmt) : t.symbols = t.occurrences ++ t.children.flatMap symbols := by
  unfold symbols
  rw [nodes_eq_cons, List.flatMap_cons, inside, List.flatMap_assoc]

section shapes

variable {s : Site}

@[simp] theorem binders_decl (n : String) (b : Buffer) (body : Stmt) :
    (Stmt.decl s n b body).binders = .buffer n :: body.binders := by
  rw [binders_eq_append]
  simp [binder?, children]

@[simp] theorem binders_loop (head : LoopHead) (body : Stmt) :
    (Stmt.loop s head body).binders = .scalar head.iter :: body.binders := by
  rw [binders_eq_append]
  simp [binder?, children]

@[simp] theorem binders_guard (e : Expr) (body : Stmt) :
    (Stmt.guard s e body).binders = body.binders := by
  rw [binders_eq_append]
  simp [binder?, children]

@[simp] theorem binders_branch (e : Expr) (yes no : Stmt) :
    (Stmt.branch s e yes no).binders = yes.binders ++ no.binders := by
  rw [binders_eq_append]
  simp [binder?, children]

@[simp] theorem binders_block (ts : List Stmt) :
    (Stmt.block s ts).binders = ts.flatMap binders := by
  rw [binders_eq_append]
  simp [binder?, children]

@[simp] theorem binders_store (b : String) (is : List Expr) (e : Expr) :
    (Stmt.store s b is e).binders = [] := rfl

@[simp] theorem binders_sequence (ts : List Stmt) :
    (sequence ts).binders = ts.flatMap binders := by
  unfold sequence
  split <;> simp

end shapes

theorem mem_binders {x : Symbol} : x ∈ t.binders ↔ ∃ u ∈ t.nodes, u.binder? = some x :=
  List.mem_filterMap

theorem mem_symbols {x : Symbol} : x ∈ t.symbols ↔ ∃ u ∈ t.nodes, x ∈ u.occurrences :=
  List.mem_flatMap

theorem binders_subset (hu : u ∈ t.nodes) : u.binders ⊆ t.binders :=
  ((nodes_sublist t hu).filterMap _).subset

theorem symbols_subset (hu : u ∈ t.nodes) : u.symbols ⊆ t.symbols := by
  intro x hx
  obtain ⟨w, hw, hx⟩ := mem_symbols.mp hx
  exact mem_symbols.mpr ⟨w, mem_nodes_trans hw hu, hx⟩

theorem binders_subset_child (hu : u ∈ t.children) : u.binders ⊆ t.binders :=
  binders_subset (mem_nodes_of_child hu (self_mem_nodes u))

theorem symbols_subset_child (hu : u ∈ t.children) : u.symbols ⊆ t.symbols :=
  symbols_subset (mem_nodes_of_child hu (self_mem_nodes u))

theorem occurrences_subset (t : Stmt) : t.occurrences ⊆ t.symbols := by
  rw [symbols_eq_append]
  exact List.subset_append_left _ _

theorem mem_binders_of_binder? {x : Symbol} (h : x ∈ t.binder?) : x ∈ t.binders :=
  mem_binders.mpr ⟨t, self_mem_nodes t, h⟩

theorem scalar_mem_binders {x : String} : .scalar x ∈ t.binders ↔ t.Binds x := by
  rw [mem_binders]
  constructor
  · rintro ⟨u, hu, hx⟩
    cases u <;> cases hx
    exact ⟨_, _, _, hu, rfl⟩
  · rintro ⟨s, head, body, hLoop, rfl⟩
    exact ⟨_, hLoop, rfl⟩

theorem buffer_mem_binders {b : String} : .buffer b ∈ t.binders ↔ t.Declares b := by
  rw [mem_binders]
  constructor
  · rintro ⟨u, hu, hb⟩
    cases u <;> cases hb
    exact ⟨_, _, _, hu⟩
  · rintro ⟨s, buffer, body, hDecl⟩
    exact ⟨_, hDecl, rfl⟩

/-- What occurs in a program is in use there. -/
theorem name_mem_usedNames {x : Symbol} (h : x ∈ t.symbols) : x.name ∈ t.usedNames := by
  obtain ⟨u, hu, hx⟩ := mem_symbols.mp h
  rw [mem_usedNames]
  refine ⟨u, hu, ?_⟩
  rcases List.mem_append.mp hx with hx | hx
  · refine .inl ?_
    cases u <;> simp only [target?, Option.toList_none, Option.toList_some, List.not_mem_nil] at hx
    rw [List.mem_singleton.mp hx]
    exact List.mem_cons_self
  · obtain ⟨e, he, hx⟩ := List.mem_flatMap.mp hx
    refine .inr ⟨e, he, ?_⟩
    cases x with
    | scalar x => exact .inl (Expr.mem_symbols_scalar.mp hx)
    | buffer b => exact .inr (Expr.mem_symbols_buffer.mp hx)

/-- What is bound in a program is in use there. -/
theorem name_mem_usedNames_of_binders {x : Symbol} (h : x ∈ t.binders) : x.name ∈ t.usedNames := by
  obtain ⟨u, hu, hx⟩ := mem_binders.mp h
  rw [mem_usedNames]
  refine ⟨u, hu, .inl ?_⟩
  cases u <;> cases hx <;> simp [Symbol.name, ownNames]

@[simp] theorem binder?_mapChildren (f : Stmt → Stmt) (t : Stmt) :
    (t.mapChildren f).binder? = t.binder? := by
  cases t <;> rfl

@[simp] theorem occurrences_mapChildren (f : Stmt → Stmt) (t : Stmt) :
    (t.mapChildren f).occurrences = t.occurrences := by
  cases t <;> rfl

/-! ## Forms -/

theorem Scoped.uses (h : t.Scoped bound around) : ∀ x ∈ t.occurrences, x ∈ bound → x ∈ around := by
  cases h with
  | intro uses _ _ => exact uses

theorem Scoped.apart (h : t.Scoped bound around) : ∀ x ∈ t.binder?, x ∉ around := by
  cases h with
  | intro _ apart _ => exact apart

theorem Scoped.inner (h : t.Scoped bound around) :
    ∀ u ∈ t.children, u.Scoped bound (t.binder?.toList ++ around) := by
  cases h with
  | intro _ _ inner => exact inner

/-- The expressions of a scoped statement are scoped. -/
theorem Scoped.expr (h : t.Scoped bound around) {e : Expr} (he : e ∈ t.exprs) :
    e.Scoped bound around :=
  fun x hx => h.uses x (List.mem_append_right _ (List.mem_flatMap.mpr ⟨e, he, hx⟩))

section forms

variable {s : Site}

theorem scoped_decl {n : String} {b : Buffer} {body : Stmt} :
    (Stmt.decl s n b body).Scoped bound around ↔ (∀ e ∈ b.shape, e.Scoped bound around)
      ∧ .buffer n ∉ around ∧ body.Scoped bound (.buffer n :: around) := by
  constructor
  · intro h
    exact ⟨fun e he => h.expr he, h.apart _ rfl, h.inner body (by simp [children])⟩
  · rintro ⟨hShape, hApart, hBody⟩
    refine .intro (fun x hx => ?_) (fun x hx => ?_) fun u hu => ?_
    · obtain ⟨e, he, hx⟩ := List.mem_flatMap.mp hx
      exact hShape e he x hx
    · cases hx
      exact hApart
    · rw [List.mem_singleton.mp hu]
      exact hBody

theorem scoped_loop {h : LoopHead} {body : Stmt} :
    (Stmt.loop s h body).Scoped bound around ↔ h.lower.Scoped bound around
      ∧ h.upper.Scoped bound around ∧ .scalar h.iter ∉ around
      ∧ body.Scoped bound (.scalar h.iter :: around) := by
  constructor
  · intro hLoop
    exact ⟨hLoop.expr (by simp [exprs]), hLoop.expr (by simp [exprs]), hLoop.apart _ rfl,
      hLoop.inner body (by simp [children])⟩
  · rintro ⟨hLower, hUpper, hApart, hBody⟩
    refine .intro (fun x hx => ?_) (fun x hx => ?_) fun u hu => ?_
    · obtain ⟨e, he, hx⟩ := List.mem_flatMap.mp hx
      rcases List.mem_cons.mp he with rfl | he
      · exact hLower x hx
      · rw [List.mem_singleton.mp he] at hx
        exact hUpper x hx
    · cases hx
      exact hApart
    · rw [List.mem_singleton.mp hu]
      exact hBody

theorem scoped_guard {c : Expr} {body : Stmt} :
    (Stmt.guard s c body).Scoped bound around ↔ c.Scoped bound around ∧ body.Scoped bound around := by
  constructor
  · intro h
    exact ⟨h.expr (by simp [exprs]), h.inner body (by simp [children])⟩
  · rintro ⟨hCond, hBody⟩
    refine .intro (fun x hx => ?_) (fun x hx => absurd hx (Option.not_mem_none x)) fun u hu => ?_
    · obtain ⟨e, he, hx⟩ := List.mem_flatMap.mp hx
      rw [List.mem_singleton.mp he] at hx
      exact hCond x hx
    · rw [List.mem_singleton.mp hu]
      exact hBody

theorem scoped_branch {c : Expr} {yes no : Stmt} :
    (Stmt.branch s c yes no).Scoped bound around ↔ c.Scoped bound around
      ∧ yes.Scoped bound around ∧ no.Scoped bound around := by
  constructor
  · intro h
    exact ⟨h.expr (by simp [exprs]), h.inner yes (by simp [children]),
      h.inner no (by simp [children])⟩
  · rintro ⟨hCond, hYes, hNo⟩
    refine .intro (fun x hx => ?_) (fun x hx => absurd hx (Option.not_mem_none x)) fun u hu => ?_
    · obtain ⟨e, he, hx⟩ := List.mem_flatMap.mp hx
      rw [List.mem_singleton.mp he] at hx
      exact hCond x hx
    · rcases List.mem_cons.mp hu with rfl | hu
      · exact hYes
      · rw [List.mem_singleton.mp hu]
        exact hNo

theorem scoped_store {b : String} {is : List Expr} {e : Expr} :
    (Stmt.store s b is e).Scoped bound around ↔ (.buffer b ∈ bound → .buffer b ∈ around)
      ∧ (∀ i ∈ is, i.Scoped bound around) ∧ e.Scoped bound around := by
  constructor
  · intro h
    exact ⟨h.uses _ (by simp [occurrences, target?]), fun i hi => h.expr (by simp [exprs, hi]),
      h.expr (by simp [exprs])⟩
  · rintro ⟨hTarget, hSubscripts, hValue⟩
    refine .intro (fun x hx => ?_) (fun x hx => absurd hx (Option.not_mem_none x))
      fun u hu => absurd hu List.not_mem_nil
    rcases List.mem_append.mp hx with hx | hx
    · rw [show x = .buffer b by simpa [target?] using hx]
      exact hTarget
    · obtain ⟨e', he, hx⟩ := List.mem_flatMap.mp hx
      rcases List.mem_append.mp he with he | he
      · exact hSubscripts e' he x hx
      · rw [List.mem_singleton.mp he] at hx
        exact hValue x hx

theorem scoped_call {f : String} {args : List Arg} :
    (Stmt.call s f args).Scoped bound around
      ↔ ∀ e ∈ (Stmt.call s f args).exprs, e.Scoped bound around := by
  constructor
  · exact fun h e he => h.expr he
  · intro hArgs
    refine .intro (fun x hx => ?_) (fun x hx => absurd hx (Option.not_mem_none x))
      fun u hu => absurd hu List.not_mem_nil
    obtain ⟨e, he, hx⟩ := List.mem_flatMap.mp hx
    exact hArgs e he x hx

theorem scoped_hole : (Stmt.hole s).Scoped bound around :=
  .intro (fun _ hx => absurd hx List.not_mem_nil) (fun x hx => absurd hx (Option.not_mem_none x))
    fun _ hu => absurd hu List.not_mem_nil

theorem scoped_block {ts : List Stmt} :
    (Stmt.block s ts).Scoped bound around ↔ ∀ t ∈ ts, t.Scoped bound around := by
  constructor
  · exact fun h => h.inner
  · exact fun h => .intro (fun x hx => absurd hx List.not_mem_nil)
      (fun x hx => absurd hx (Option.not_mem_none x)) h

theorem scoped_sequence {ts : List Stmt} (h : ∀ t ∈ ts, t.Scoped bound around) :
    (sequence ts).Scoped bound around := by
  unfold sequence
  split
  · exact h _ (by simp)
  · exact scoped_block.mpr h

end forms

/-! ## Checks -/

mutual
/-- Checks a statement in a scope. -/
def decideScoped (bound : List Symbol) :
    (t : Stmt) → (around : List Symbol) → Decidable (t.Scoped bound around)
  | .decl _ n _ body, around =>
    have := decideScoped bound body (.buffer n :: around)
    decidable_of_iff _ scoped_decl.symm
  | .loop _ h body, around =>
    have := decideScoped bound body (.scalar h.iter :: around)
    decidable_of_iff _ scoped_loop.symm
  | .guard _ _ body, around =>
    have := decideScoped bound body around
    decidable_of_iff _ scoped_guard.symm
  | .branch _ _ yes no, around =>
    have := decideScoped bound yes around
    have := decideScoped bound no around
    decidable_of_iff _ scoped_branch.symm
  | .store .., _ => decidable_of_iff _ scoped_store.symm
  | .call .., _ => decidable_of_iff _ scoped_call.symm
  | .block _ ts, around =>
    have := decideScopedAll bound ts around
    decidable_of_iff _ scoped_block.symm
  | .hole _, _ => .isTrue scoped_hole
/-- Checks several statements in one scope. -/
def decideScopedAll (bound : List Symbol) :
    (ts : List Stmt) → (around : List Symbol) → Decidable (∀ t ∈ ts, t.Scoped bound around)
  | [], _ => .isTrue fun _ ht => absurd ht List.not_mem_nil
  | t :: ts, around =>
    have := decideScoped bound t around
    have := decideScopedAll bound ts around
    decidable_of_iff _ List.forall_mem_cons.symm
end

instance (t : Stmt) : Decidable (t.Scoped bound around) := decideScoped bound t around

instance (t : Stmt) : Decidable t.CleanlyNamed :=
  inferInstanceAs (Decidable (t.Scoped t.binders []))

/-! ## Other scopes -/

/-- What a scoped statement binds is not bound around it. -/
theorem Scoped.not_mem_around (h : t.Scoped bound around) : ∀ x ∈ t.binders, x ∉ around := by
  induction h with
  | @intro around t _ apart _ ih =>
    intro x hx hAround
    rw [binders_eq_append, List.mem_append, List.mem_flatMap] at hx
    rcases hx with hx | ⟨u, hu, hx⟩
    · exact apart x (Option.mem_toList.mp hx) hAround
    · exact ih u hu x hx (List.mem_append_right _ hAround)

/-- **Other scopes**: a scoped statement may be moved among more names, as long as it binds none of
    them. Other names may be bound then, as long as they do not occur in it. -/
theorem Scoped.mono (h : t.Scoped bound around) :
    ∀ {around' : List Symbol}, around ⊆ around' → (∀ x ∈ t.symbols, x ∈ bound' → x ∈ bound) →
      (∀ x ∈ t.binders, x ∉ around') → t.Scoped bound' around' := by
  induction h with
  | @intro around t uses _ inner ih =>
    intro around' hAround hBound hApart
    refine .intro (fun x hx hMem => ?_) (fun x hx => ?_) fun u hu => ?_
    · exact hAround (uses x hx (hBound x (occurrences_subset t hx) hMem))
    · exact hApart x (mem_binders_of_binder? hx)
    · refine ih u hu (List.append_subset.mpr ⟨List.subset_append_left _ _,
          fun x hx => List.mem_append_right _ (hAround hx)⟩)
        (fun x hx => hBound x (symbols_subset_child hu hx)) fun x hx hMem => ?_
      rcases List.mem_append.mp hMem with hMem | hMem
      · exact (inner u hu).not_mem_around x hx (List.mem_append_left _ hMem)
      · exact hApart x (binders_subset_child hu hx) hMem

/-- The same scope with fewer names bound elsewhere. -/
theorem Scoped.of_bound (h : t.Scoped bound around)
    (hBound : ∀ x ∈ t.symbols, x ∈ bound' → x ∈ bound) : t.Scoped bound' around :=
  h.mono (fun _ hx => hx) hBound h.not_mem_around

/-- The same scope in another order. -/
theorem Scoped.of_around (h : t.Scoped bound around) (hAround : around ⊆ around')
    (hBack : around' ⊆ around) : t.Scoped bound around' :=
  h.mono hAround (fun _ _ hx => hx) fun x hx hMem => h.not_mem_around x hx (hBack hMem)

/-- **Scopes in terms of statements**: what a statement binds is neither bound around it nor again
    inside it, and what is bound is used around there, or inside a statement that binds it. -/
theorem scoped_iff : ∀ t : Stmt, t.ids.Nodup → ∀ {around : List Symbol},
    t.Scoped bound around ↔
      (∀ u ∈ t.nodes, ∀ x ∈ u.binder?, x ∉ around ∧ ∀ w ∈ u.inside, w.binder? ≠ some x)
      ∧ ∀ w ∈ t.nodes, ∀ x ∈ w.occurrences, x ∈ bound →
          x ∈ around ∨ ∃ u ∈ t.nodes, u.binder? = some x ∧ w ∈ u.inside := by
  refine children_ind fun t ih hIds {around} => ?_
  have hBelow : ∀ {c w : Stmt}, c ∈ t.children → w ∈ c.nodes → w ∈ t.inside :=
    fun hc hw => List.mem_flatMap.mpr ⟨_, hc, hw⟩
  have hChild : ∀ c ∈ t.children, c.ids.Nodup := fun c hc =>
    nodup_ids_of_mem hIds (mem_nodes_of_child hc (self_mem_nodes c))
  constructor
  · intro h
    constructor
    · intro u hu x hx
      rw [nodes_eq_cons, List.mem_cons] at hu
      rcases hu with rfl | hu
      · refine ⟨h.apart x hx, fun w hw hBinder => ?_⟩
        obtain ⟨c, hc, hw⟩ := List.mem_flatMap.mp hw
        exact (h.inner c hc).not_mem_around x (mem_binders.mpr ⟨w, hw, hBinder⟩)
          (List.mem_append_left _ (Option.mem_toList.mpr hx))
      · obtain ⟨c, hc, hu⟩ := List.mem_flatMap.mp hu
        obtain ⟨hAround, hAgain⟩ := ((ih c hc (hChild c hc)).mp (h.inner c hc)).1 u hu x hx
        exact ⟨fun hMem => hAround (List.mem_append_right _ hMem), hAgain⟩
    · intro w hw x hx hBound
      rw [nodes_eq_cons, List.mem_cons] at hw
      rcases hw with rfl | hw
      · exact .inl (h.uses x hx hBound)
      · obtain ⟨c, hc, hw⟩ := List.mem_flatMap.mp hw
        rcases ((ih c hc (hChild c hc)).mp (h.inner c hc)).2 w hw x hx hBound with
          hMem | ⟨u, hu, hBinder, hInside⟩
        · rcases List.mem_append.mp hMem with hMem | hMem
          · exact .inr ⟨t, self_mem_nodes t, Option.mem_toList.mp hMem, hBelow hc hw⟩
          · exact .inl hMem
        · exact .inr ⟨u, mem_nodes_of_child hc hu, hBinder, hInside⟩
  · rintro ⟨hBinders, hUses⟩
    refine .intro (fun x hx hBound => ?_)
      (fun x hx => (hBinders t (self_mem_nodes t) x hx).1) fun c hc => ?_
    · refine (hUses t (self_mem_nodes t) x hx hBound).resolve_right ?_
      rintro ⟨u, hu, _, hInside⟩
      -- the program would be inside itself
      rw [nodes_eq_cons, List.mem_cons] at hu
      have hSelf : t ∈ t.inside := hu.elim (fun hEq => hEq ▸ hInside) (inside_trans hInside)
      exact ne_of_mem_inside hIds hSelf rfl
    · refine (ih c hc (hChild c hc)).mpr ⟨fun u hu x hx => ?_, fun w hw x hx hBound => ?_⟩
      · obtain ⟨hAround, hAgain⟩ := hBinders u (mem_nodes_of_child hc hu) x hx
        refine ⟨fun hMem => ?_, hAgain⟩
        rcases List.mem_append.mp hMem with hMem | hMem
        · exact (hBinders t (self_mem_nodes t) x (Option.mem_toList.mp hMem)).2 u (hBelow hc hu) hx
        · exact hAround hMem
      · rcases hUses w (mem_nodes_of_child hc hw) x hx hBound with hMem | ⟨u, hu, hBinder, hInside⟩
        · exact .inl (List.mem_append_right _ hMem)
        · rw [nodes_eq_cons, List.mem_cons] at hu
          rcases hu with rfl | hu
          · exact .inl (List.mem_append_left _ (Option.mem_toList.mpr hBinder))
          · obtain ⟨d, hd, hu⟩ := List.mem_flatMap.mp hu
            obtain rfl := eq_of_common_child hIds hc hd hw
              (mem_nodes_trans (mem_nodes_of_mem_inside hInside) hu)
            exact .inr ⟨u, hu, hBinder, hInside⟩

/-- **Clean names**: no loop lies inside a loop with the same iterator and no declaration inside a
    declaration of the same buffer, and what is bound somewhere only occurs below what binds it. -/
theorem cleanlyNamed_iff (hIds : t.ids.Nodup) : t.CleanlyNamed ↔
    (∀ u ∈ t.nodes, ∀ x ∈ u.binder?, ∀ w ∈ u.inside, w.binder? ≠ some x)
      ∧ ∀ w ∈ t.nodes, ∀ x ∈ w.occurrences, x ∈ t.binders →
          ∃ u ∈ t.nodes, u.binder? = some x ∧ w ∈ u.inside := by
  unfold CleanlyNamed
  rw [scoped_iff t hIds]
  simp

/-- In a cleanly named program nothing is bound again below the statement that binds it. -/
theorem CleanlyNamed.not_mem_binders (h : t.CleanlyNamed) (hIds : t.ids.Nodup) (hu : u ∈ t.nodes)
    {x : Symbol} (hx : u.binder? = some x) {w : Stmt} (hw : w ∈ u.children) : x ∉ w.binders := by
  intro hMem
  obtain ⟨v, hv, hBinder⟩ := mem_binders.mp hMem
  exact ((cleanlyNamed_iff hIds).mp h).1 u hu x hx v (List.mem_flatMap.mpr ⟨w, hw, hv⟩) hBinder

/-! ## Replaced scalars -/

theorem binders_substitute (x : String) (w : Expr) :
    ∀ t : Stmt, (t.substitute x w).binders = t.binders := by
  refine Stmt.ind ?decl ?loop ?guard ?branch ?store ?call ?block ?hole
  case decl =>
    intro s n b body ih
    rw [Stmt.substitute, binders_decl, binders_decl, ih]
  case loop =>
    intro s h body ih
    rw [Stmt.substitute, binders_loop, binders_loop]
    split
    · rfl
    · rw [ih]
  case guard =>
    intro s c body ih
    rw [Stmt.substitute, binders_guard, binders_guard, ih]
  case branch =>
    intro s c yes no ihYes ihNo
    rw [Stmt.substitute, binders_branch, binders_branch, ihYes, ihNo]
  case store => exact fun s b is e => rfl
  case call => exact fun s f args => rfl
  case block =>
    intro s ts ih
    rw [Stmt.substitute, substituteAll_eq_map, binders_block, binders_block, List.flatMap_map]
    exact List.flatMap_congr ih
  case hole => exact fun s => rfl

/-- **Replaced scalars**: a statement that does not bind the scalar may leave its scope when the
    scalar is replaced by something that is scoped where the statement goes. -/
theorem Scoped.substitute {x : String} {w : Expr} (hx : .scalar x ∉ t.binders)
    (h : t.Scoped bound around) :
    ∀ {around' : List Symbol}, (∀ y ∈ around, y ≠ .scalar x → y ∈ around') →
      (∀ y ∈ t.symbols, y ∈ bound' → y ∈ bound) → (∀ y ∈ t.binders, y ∉ around') →
      w.Scoped bound' around' → (t.substitute x w).Scoped bound' around' := by
  induction h with
  | @intro around t uses _ inner ih =>
    intro around' hAround hBound hApart hw
    have hExpr : ∀ e ∈ t.exprs, (e.substitute [(x, w)]).Scoped bound' around' := by
      intro e he y hy hMem
      rcases Expr.mem_symbols_substitute e hy with ⟨hOld, hne⟩ | hNew
      · have hOwn : y ∈ t.occurrences :=
          List.mem_append_right _ (List.mem_flatMap.mpr ⟨e, he, hOld⟩)
        exact hAround y (uses y hOwn (hBound y (occurrences_subset t hOwn) hMem)) hne
      · exact hw y hNew hMem
    have hBelow : ∀ u ∈ t.children,
        (u.substitute x w).Scoped bound' (t.binder?.toList ++ around') := by
      intro u hu
      refine ih u hu (fun hMem => hx (binders_subset_child hu hMem)) (fun y hy hne => ?_)
        (fun y hy => hBound y (symbols_subset_child hu hy)) (fun y hy hMem => ?_)
        (hw.mono (List.subset_append_right _ _) fun _ _ hMem => hMem)
      · rw [List.mem_append] at hy ⊢
        exact hy.imp_right fun hy => hAround y hy hne
      · rcases List.mem_append.mp hMem with hMem | hMem
        · exact (inner u hu).not_mem_around y hy (List.mem_append_left _ hMem)
        · exact hApart y (binders_subset_child hu hy) hMem
    cases t with
    | decl s n b body =>
      refine scoped_decl.mpr ⟨fun e he => ?_, hApart _ (mem_binders_of_binder? rfl),
        hBelow body (by simp [children])⟩
      obtain ⟨e', he', rfl⟩ := List.mem_map.mp he
      exact hExpr e' he'
    | loop s h body =>
      have hne : h.iter ≠ x := fun hEq => hx (mem_binders_of_binder? (hEq ▸ rfl))
      rw [Stmt.substitute]
      refine scoped_loop.mpr ⟨hExpr h.lower (by simp [exprs]), hExpr h.upper (by simp [exprs]),
        hApart _ (mem_binders_of_binder? rfl), ?_⟩
      rw [if_neg hne]
      exact hBelow body (by simp [children])
    | guard s c body =>
      exact scoped_guard.mpr ⟨hExpr c (by simp [exprs]), hBelow body (by simp [children])⟩
    | branch s c yes no =>
      exact scoped_branch.mpr ⟨hExpr c (by simp [exprs]), hBelow yes (by simp [children]),
        hBelow no (by simp [children])⟩
    | store s b is e =>
      refine scoped_store.mpr ⟨fun hMem => ?_, fun i hi => ?_, hExpr e (by simp [exprs])⟩
      · have hOwn : Symbol.buffer b ∈ (Stmt.store s b is e).occurrences := by
          simp [occurrences, target?]
        exact hAround _ (uses _ hOwn (hBound _ (occurrences_subset _ hOwn) hMem)) (by simp)
      · obtain ⟨i', hi', rfl⟩ := List.mem_map.mp hi
        exact hExpr i' (by simp [exprs, hi'])
    | call s f args =>
      refine .intro (fun y hy => ?_) (fun y hy => absurd hy (Option.not_mem_none y))
        fun u hu => absurd hu List.not_mem_nil
      obtain ⟨e, he, hy⟩ := List.mem_flatMap.mp hy
      obtain ⟨arg, hArg, hValue⟩ := List.mem_filterMap.mp he
      obtain ⟨arg', hArg', rfl⟩ := List.mem_map.mp hArg
      cases arg' with
      | buffer b => cases hValue
      | value e' =>
        cases hValue
        exact hExpr e' (List.mem_filterMap.mpr ⟨_, hArg', rfl⟩) y hy
    | block s ts =>
      rw [Stmt.substitute, substituteAll_eq_map]
      refine scoped_block.mpr fun u hu => ?_
      obtain ⟨u', hu', rfl⟩ := List.mem_map.mp hu
      exact hBelow u' hu'
    | hole s =>
      exact .intro (fun y hy => absurd hy List.not_mem_nil)
        (fun y hy => absurd hy (Option.not_mem_none y)) fun u hu => absurd hu List.not_mem_nil

/-! ## Numbering -/

/-- Scopes do not depend on the numbers of statements. -/
theorem Scoped.numberFrom : ∀ (t : Stmt) (n : Nat) {around : List Symbol},
    t.Scoped bound around → (t.numberFrom n).1.Scoped bound around := by
  refine Stmt.ind ?decl ?loop ?guard ?branch ?store ?call ?block ?hole
  case decl =>
    intro s name b body ih n around h
    obtain ⟨hShape, hApart, hBody⟩ := scoped_decl.mp h
    exact scoped_decl.mpr ⟨hShape, hApart, ih (n + 1) hBody⟩
  case loop =>
    intro s head body ih n around h
    obtain ⟨hLower, hUpper, hApart, hBody⟩ := scoped_loop.mp h
    exact scoped_loop.mpr ⟨hLower, hUpper, hApart, ih (n + 1) hBody⟩
  case guard =>
    intro s e body ih n around h
    obtain ⟨hCond, hBody⟩ := scoped_guard.mp h
    exact scoped_guard.mpr ⟨hCond, ih (n + 1) hBody⟩
  case branch =>
    intro s e yes no ihYes ihNo n around h
    obtain ⟨hCond, hYes, hNo⟩ := scoped_branch.mp h
    exact scoped_branch.mpr ⟨hCond, ihYes _ hYes, ihNo _ hNo⟩
  case store =>
    intro s b is v n around h
    exact scoped_store.mpr (scoped_store.mp h)
  case call =>
    intro s f args n around h
    exact .intro h.uses h.apart h.inner
  case block =>
    intro s ts ih n around h
    rw [Stmt.numberFrom]
    refine scoped_block.mpr ?_
    have hEach := scoped_block.mp h
    clear h
    generalize n + 1 = m
    induction ts generalizing m with
    | nil => exact fun u hu => absurd hu List.not_mem_nil
    | cons t ts ihList =>
      rw [numberAllFrom, List.forall_mem_cons]
      exact ⟨ih t List.mem_cons_self m (hEach t List.mem_cons_self),
        ihList (fun u hu => ih u (List.mem_cons_of_mem t hu))
          (fun u hu => hEach u (List.mem_cons_of_mem t hu)) _⟩
  case hole =>
    intro s n around h
    exact .intro h.uses h.apart h.inner

theorem binders_numberFrom : ∀ (t : Stmt) (n : Nat), (t.numberFrom n).1.binders = t.binders := by
  refine Stmt.ind ?decl ?loop ?guard ?branch ?store ?call ?block ?hole
  case decl =>
    intro s name b body ih n
    simp [Stmt.numberFrom, ih]
  case loop =>
    intro s h body ih n
    simp [Stmt.numberFrom, ih]
  case guard =>
    intro s e body ih n
    simp [Stmt.numberFrom, ih]
  case branch =>
    intro s e yes no ihYes ihNo n
    simp [Stmt.numberFrom, ihYes, ihNo]
  case store => exact fun s b is v n => rfl
  case call => exact fun s f args n => rfl
  case block =>
    intro s ts ih n
    rw [Stmt.numberFrom, binders_block, binders_block]
    generalize n + 1 = m
    induction ts generalizing m with
    | nil => rfl
    | cons t ts ihList =>
      rw [numberAllFrom, List.flatMap_cons, List.flatMap_cons, ih t List.mem_cons_self,
        ihList fun u hu => ih u (List.mem_cons_of_mem t hu)]
  case hole => exact fun s n => rfl

/-- **Numbering** a cleanly named program leaves it cleanly named. -/
theorem cleanlyNamed_number (h : t.CleanlyNamed) : t.number.CleanlyNamed := by
  show t.number.Scoped t.number.binders []
  rw [show t.number.binders = t.binders from binders_numberFrom t 0]
  exact Scoped.numberFrom t 0 h

/-! ## Updates -/

/-- What occurs in the statement or is bound by it may be used where it says so. -/
def Heeded (bound around : List Symbol) (w : Stmt) : Prop :=
  (∀ x ∈ w.occurrences, x ∈ bound → x ∈ around) ∧ ∀ x ∈ w.binder?, x ∈ around

/-- **Replacements**: a scoped program stays scoped when what takes the place of a statement is
    scoped wherever the statement may be: among the names around the program, the binders around the
    statement, and whatever is used there. -/
theorem Replaces.scoped {t' : Stmt} (h : Replaces u v t t') (hIds : t.ids.Nodup) :
    ∀ {around : List Symbol}, t.Scoped bound around →
      (∀ around', around ⊆ around' → around' ⊆ t.binders ++ around →
        (∀ w ∈ t.nodes, u ∈ w.inside → w.Heeded bound around') → u.Scoped bound around' →
        v.Scoped bound around') →
      t'.Scoped bound around := by
  -- one step: what is known around a child of `t` follows from what is known around `t`
  have hStep : ∀ {t c : Stmt} {around : List Symbol}, t.Scoped bound around → c ∈ t.children →
      (∀ c' ∈ t.children, u ∈ c'.nodes → c' = c) →
      (∀ around', around ⊆ around' → around' ⊆ t.binders ++ around →
        (∀ w ∈ t.nodes, u ∈ w.inside → w.Heeded bound around') → u.Scoped bound around' →
        v.Scoped bound around') →
      ∀ around', t.binder?.toList ++ around ⊆ around' →
        around' ⊆ c.binders ++ (t.binder?.toList ++ around) →
        (∀ w ∈ c.nodes, u ∈ w.inside → w.Heeded bound around') → u.Scoped bound around' →
        v.Scoped bound around' := by
    intro t c around hScoped hc hOnly hLocal around' hAround hBinders hInside hu
    obtain ⟨hOwn, hOuter⟩ := List.append_subset.mp hAround
    refine hLocal around' hOuter (fun x hx => ?_) (fun w hw hMem => ?_) hu
    · rcases List.mem_append.mp (hBinders hx) with hx | hx
      · exact List.mem_append_left _ (binders_subset_child hc hx)
      · rcases List.mem_append.mp hx with hx | hx
        · exact List.mem_append_left _ (mem_binders_of_binder? (Option.mem_toList.mp hx))
        · exact List.mem_append_right _ hx
    · rw [nodes_eq_cons, List.mem_cons] at hw
      rcases hw with rfl | hw
      · exact ⟨fun x hx hMem => hOuter (hScoped.uses x hx hMem),
          fun x hx => hOwn (Option.mem_toList.mpr hx)⟩
      · obtain ⟨c', hc', hw⟩ := List.mem_flatMap.mp hw
        have hEq : c' = c := hOnly c' hc' (mem_nodes_trans (mem_nodes_of_mem_inside hMem) hw)
        exact hInside w (hEq ▸ hw) hMem
  induction h with
  | here =>
    intro around hScoped hLocal
    refine hLocal around (fun _ hx => hx) (List.subset_append_right _ _) (fun w hw hMem => ?_) hScoped
    have hBelow : u ∈ u.inside := by
      rcases List.mem_cons.mp (nodes_eq_cons u ▸ hw) with rfl | hw
      · exact hMem
      · exact inside_trans hMem hw
    exact absurd rfl (ne_of_mem_inside hIds hBelow)
  | @decl t t' s n b h ih =>
    intro around hScoped hLocal
    obtain ⟨hShape, hApart, hBody⟩ := scoped_decl.mp hScoped
    refine scoped_decl.mpr ⟨hShape, hApart, ih (nodup_ids_of_mem hIds (by simp [self_mem_nodes]))
      hBody (hStep hScoped (by simp [children]) (by simp [children]) hLocal)⟩
  | @loop t t' s head h ih =>
    intro around hScoped hLocal
    obtain ⟨hLower, hUpper, hApart, hBody⟩ := scoped_loop.mp hScoped
    exact scoped_loop.mpr ⟨hLower, hUpper, hApart,
      ih (nodup_ids_of_mem hIds (by simp [self_mem_nodes])) hBody
        (hStep hScoped (by simp [children]) (by simp [children]) hLocal)⟩
  | @guard t t' s e h ih =>
    intro around hScoped hLocal
    obtain ⟨hCond, hBody⟩ := scoped_guard.mp hScoped
    exact scoped_guard.mpr ⟨hCond, ih (nodup_ids_of_mem hIds (by simp [self_mem_nodes])) hBody
      (hStep hScoped (by simp [children]) (by simp [children]) hLocal)⟩
  | @yes t t' s e no h ih =>
    intro around hScoped hLocal
    obtain ⟨hCond, hYes, hNo⟩ := scoped_branch.mp hScoped
    refine scoped_branch.mpr ⟨hCond, ih (nodup_ids_of_mem hIds (by simp [self_mem_nodes])) hYes
      (hStep hScoped (by simp [children]) (fun c hc hu => ?_) hLocal), hNo⟩
    rcases List.mem_cons.mp hc with rfl | hc
    · rfl
    · rw [List.mem_singleton.mp hc] at hu
      exact absurd hu (disjoint_of_branch hIds h.mem)
  | @no t t' s e yes h ih =>
    intro around hScoped hLocal
    obtain ⟨hCond, hYes, hNo⟩ := scoped_branch.mp hScoped
    refine scoped_branch.mpr ⟨hCond, hYes, ih (nodup_ids_of_mem hIds (by simp [self_mem_nodes])) hNo
      (hStep hScoped (by simp [children]) (fun c hc hu => ?_) hLocal)⟩
    rcases List.mem_cons.mp hc with rfl | hc
    · exact absurd h.mem (disjoint_of_branch hIds hu)
    · exact List.mem_singleton.mp hc
  | @block t t' s before after h ih =>
    intro around hScoped hLocal
    have hEach := scoped_block.mp hScoped
    obtain ⟨hBefore, hAfter⟩ := disjoint_of_block hIds h.mem
    refine scoped_block.mpr fun c hc => ?_
    rcases List.mem_append.mp hc with hc | hc
    · exact hEach c (List.mem_append_left _ hc)
    · rcases List.mem_cons.mp hc with rfl | hc
      · refine ih (nodup_ids_of_mem hIds (by simp [self_mem_nodes])) (hEach t (by simp))
          (hStep hScoped (by simp [children]) (fun c hc hu => ?_) hLocal)
        rcases List.mem_append.mp hc with hc | hc
        · exact absurd hu (hBefore c hc)
        · rcases List.mem_cons.mp hc with rfl | hc
          · rfl
          · exact absurd hu (hAfter c hc)
      · exact hEach c (List.mem_append_right _ (List.mem_cons_of_mem _ hc))

/-- **Updates**: a cleanly named program stays cleanly named when what takes the place of a statement
    binds new names only, besides those that the statement binds, and is scoped where the statement
    was. -/
theorem CleanlyNamed.update (h : t.CleanlyNamed) (hIds : t.ids.Nodup) (hu : u ∈ t.nodes)
    (hNew : ∀ x ∈ v.binders, x ∈ u.binders ∨ x ∉ t.symbols)
    (hLocal : ∀ around ⊆ t.binders,
      (∀ w ∈ t.nodes, u ∈ w.inside → w.Heeded (v.binders ++ t.binders) around) →
      u.Scoped (v.binders ++ t.binders) around → v.Scoped (v.binders ++ t.binders) around) :
    (t.update u.id fun _ => v).CleanlyNamed := by
  have hScoped : t.Scoped (v.binders ++ t.binders) [] := by
    refine h.of_bound fun x hx hMem => ?_
    rcases List.mem_append.mp hMem with hMem | hMem
    · rcases hNew x hMem with hOld | hFresh
      · exact binders_subset hu hOld
      · exact absurd hx hFresh
    · exact hMem
  have hUpdated : (t.update u.id fun _ => v).Scoped (v.binders ++ t.binders) [] :=
    (replaces_update t hIds hu).scoped hIds hScoped fun around _ hBinders hAround =>
      hLocal around (by simpa using hBinders) hAround
  refine hUpdated.of_bound fun x _ hMem => ?_
  obtain ⟨w, hw, hBinder⟩ := mem_binders.mp hMem
  rcases mem_nodes_update t hw with hwNew | ⟨w', hw', hne, rfl⟩
  · exact List.mem_append_left _ (mem_binders.mpr ⟨w, hwNew, hBinder⟩)
  · rw [update_eq, if_neg hne, binder?_mapChildren] at hBinder
    exact List.mem_append_right _ (mem_binders.mpr ⟨w', hw', hBinder⟩)

end Stmt

end LoopNest

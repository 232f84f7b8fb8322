import LoopNest.Proofs.CopiedPrograms
import LoopNest.Proofs.ScopedNames
import LoopNest.Restructure.Passing

/-! # Translated programs

  `Stmt.Translated ι β φ t t'` says that `t'` is `t` with its iterators translated by `ι`, its buffers
  by `β` and its expressions by `φ`. Each change on the way from the body of a function to a private
  copy is a translation, and translations compose (`Stmt.Translated.trans`).

  `Stmt.phrases` are the expressions of a program, also those that runs do not look at, which are the
  extents of buffers. They are translated in the same way.

  Values take the places of parameters one after the other. As long as no value mentions a parameter
  whose value is put in after it, the result is the same as if all were put in at once
  (`Expr.fill_var`, `Expr.fill_cell`, `Expr.fill_load`). -/

namespace LoopNest

/-! ## Translations -/

/-- Everything stands for its translation. -/
def Dictionary.along (ι β : String → String) (φ : Expr → Expr) : Dictionary :=
  ⟨fun _ e e' => e' = φ e, fun x x' => x' = ι x, fun b b' => b' = β b, fun _ _ => False⟩

namespace Stmt

/-- The second program is a translation of the first one. -/
def Translated (ι β : String → String) (φ : Expr → Expr) (t t' : Stmt) : Prop :=
  ∀ known, CopyOf (.along ι β φ) known t t'

/-- The second program has the names of the first one, and its expressions are translated. -/
abbrev Rephrased : (φ : Expr → Expr) → (t t' : Stmt) → Prop := Translated (fun x => x) fun b => b

section forms

variable {ι β : String → String} {φ : Expr → Expr} {known : List String}

theorem forall₂_along (es : List Expr) :
    List.Forall₂ ((Dictionary.along ι β φ).expr known) es (es.map φ) :=
  List.forall₂_map_right_iff.mpr (List.forall₂_same.mpr fun _ _ => rfl)

theorem forall₂_arg_along {f : Arg → Arg} (hBuffer : ∀ b, f (.buffer b) = .buffer (β b))
    (hValue : ∀ e, f (.value e) = .value (φ e)) (args : List Arg) :
    List.Forall₂ ((Dictionary.along ι β φ).arg known) args (args.map f) := by
  refine List.forall₂_map_right_iff.mpr (List.forall₂_same.mpr fun arg _ => ?_)
  cases arg with
  | buffer b =>
    rw [hBuffer]
    exact rfl
  | value e =>
    rw [hValue]
    exact rfl

theorem forall₂_arg_self (hValue : ∀ e, φ e = e) {args : List Arg} :
    List.Forall₂ ((Dictionary.along ι (fun b => b) φ).arg known) args args := by
  refine List.forall₂_same.mpr fun arg _ => ?_
  cases arg with
  | buffer b => exact rfl
  | value e => exact (hValue e).symm

theorem copyOf_block_map {D : Dictionary} {s s' : Site} {ts : List Stmt} {f : Stmt → Stmt}
    (h : ∀ t ∈ ts, CopyOf D known t (f t)) : CopyOf D known (.block s ts) (.block s' (ts.map f)) :=
  .block (List.forall₂_map_right_iff.mpr (List.forall₂_same.mpr h))

end forms

/-- Lists that are related place by place through a list between them. -/
theorem forall₂_through {α β γ : Type} {P : α → β → Prop} {Q : β → γ → Prop} {R : α → γ → Prop}
    (hThrough : ∀ a b c, P a b → Q b c → R a c) {as : List α} {bs : List β} {cs : List γ}
    (h : List.Forall₂ P as bs) (h' : List.Forall₂ Q bs cs) : List.Forall₂ R as cs := by
  induction h generalizing cs with
  | nil =>
    cases h'
    exact .nil
  | cons hHead _ ih =>
    cases h' with
    | cons hHead' hTail' => exact .cons (hThrough _ _ _ hHead hHead') (ih hTail')

/-- A translation of a translation. -/
theorem CopyOf.along_trans {ι β ι' β' : String → String} {φ φ' : Expr → Expr}
    {known known' : List String} {t t' t'' : Stmt} (h : CopyOf (.along ι β φ) known t t')
    (h' : CopyOf (.along ι' β' φ') known' t' t'') :
    CopyOf (.along (ι' ∘ ι) (β' ∘ β) (φ' ∘ φ)) known t t'' := by
  have hThrough : ∀ {α : Type} {f g : α → α} (x y z : α), y = f x → z = g y → z = (g ∘ f) x := by
    rintro α f g x _ _ rfl rfl
    rfl
  have hArg : ∀ (known known' : List String) (a a' a'' : Arg),
      (Dictionary.along ι β φ).arg known a a' → (Dictionary.along ι' β' φ').arg known' a' a'' →
      (Dictionary.along (ι' ∘ ι) (β' ∘ β) (φ' ∘ φ)).arg known a a'' := by
    intro known known' a a' a'' hFirst hSecond
    cases a <;> cases a' <;> cases a''
    all_goals first | exact hThrough _ _ _ hFirst hSecond | exact hFirst.elim | exact hSecond.elim
  induction h generalizing known' t'' with
  | decl name access _ ih =>
    cases h' with
    | decl name' access' below' =>
      exact .decl (hThrough _ _ _ name name') (access'.trans access) (ih below')
    | given pair => exact pair.elim
  | loop iter lower upper _ ih =>
    cases h' with
    | loop iter' lower' upper' below' =>
      exact .loop (hThrough _ _ _ iter iter') (hThrough _ _ _ lower lower')
        (hThrough _ _ _ upper upper') (ih below')
    | given pair => exact pair.elim
  | guard cond _ ih =>
    cases h' with
    | guard cond' below' => exact .guard (hThrough _ _ _ cond cond') (ih below')
    | given pair => exact pair.elim
  | branch cond _ _ ihYes ihNo =>
    cases h' with
    | branch cond' first' second' =>
      exact .branch (hThrough _ _ _ cond cond') (ihYes first') (ihNo second')
    | given pair => exact pair.elim
  | store name indices value =>
    cases h' with
    | store name' indices' value' =>
      exact .store (hThrough _ _ _ name name') (forall₂_through hThrough indices indices')
        (hThrough _ _ _ value value')
    | given pair => exact pair.elim
  | call each =>
    cases h' with
    | call each' => exact .call (forall₂_through (hArg _ _) each each')
    | given pair => exact pair.elim
  | nil =>
    cases h' with
    | nil => exact .nil
    | given pair => exact pair.elim
  | cons _ _ ihHead ihTail =>
    cases h' with
    | cons head' tail' => exact .cons (ihHead head') (ihTail tail')
    | given pair => exact pair.elim
  | hole =>
    cases h' with
    | hole => exact .hole
    | given pair => exact pair.elim
  | given pair => exact pair.elim

theorem Translated.trans {ι β ι' β' : String → String} {φ φ' : Expr → Expr} {t t' t'' : Stmt}
    (h : Translated ι β φ t t') (h' : Translated ι' β' φ' t' t'') :
    Translated (ι' ∘ ι) (β' ∘ β) (φ' ∘ φ) t t'' := fun known => (h known).along_trans (h' known)

/-- Sites do not matter. -/
theorem CopyOf.withSite {ι β : String → String} {φ : Expr → Expr} {known : List String} {t t' : Stmt}
    (h : CopyOf (.along ι β φ) known t t') (s : Site) :
    CopyOf (.along ι β φ) known t (Stmt.withSite s t') := by
  induction h with
  | decl name access below => exact .decl name access below
  | loop iter lower upper below => exact .loop iter lower upper below
  | guard cond below => exact .guard cond below
  | branch cond first second => exact .branch cond first second
  | store name indices value => exact .store name indices value
  | call each => exact .call each
  | nil => exact .nil
  | cons head _ _ ihTail => exact .cons head ihTail
  | hole => exact .hole
  | given pair => exact pair.elim

/-! ## From a body to a copy of it -/

theorem forall₂_copyAllFrom {D : Dictionary} {known : List String} {ts : List Stmt}
    (h : ∀ t ∈ ts, ∀ n, CopyOf D known t (t.copyFrom n).1) (n : Nat) :
    List.Forall₂ (CopyOf D known) ts (copyAllFrom n ts).1 := by
  induction ts generalizing n with
  | nil => exact .nil
  | cons t ts ih =>
    exact .cons (h t List.mem_cons_self n) (ih (fun u hu => h u (List.mem_cons_of_mem t hu)) _)

theorem rephrased_copyFrom : ∀ (t : Stmt) (n : Nat), Rephrased (fun e => e) t (t.copyFrom n).1 := by
  refine Stmt.ind ?decl ?loop ?guard ?branch ?store ?call ?block ?hole
  case decl => exact fun s name b body ih n known => .decl rfl rfl (ih n known)
  case loop => exact fun s h body ih n known => .loop rfl rfl rfl (ih n _)
  case guard => exact fun s c body ih n known => .guard rfl (ih n known)
  case branch => exact fun s c yes no ihYes ihNo n known => .branch rfl (ihYes n known) (ihNo _ known)
  case store =>
    exact fun s b is e n known => .store rfl (List.forall₂_same.mpr fun _ _ => rfl) rfl
  case call => exact fun s f args n known => .call (forall₂_arg_self fun _ => rfl)
  case block =>
    exact fun s ts ih n known => .block (forall₂_copyAllFrom (fun t ht n => ih t ht n known) n)
  case hole => exact fun s n known => .hole

theorem translated_rename (scalars buffers : Expr.Renaming) : ∀ t : Stmt,
    Translated scalars.apply buffers.apply (Expr.rename scalars buffers) t (t.rename scalars buffers)
    := by
  unfold rename
  refine Stmt.ind ?decl ?loop ?guard ?branch ?store ?call ?block ?hole
  case decl => exact fun s name b body ih known => .decl rfl rfl (ih known)
  case loop => exact fun s h body ih known => .loop rfl rfl rfl (ih _)
  case guard => exact fun s c body ih known => .guard rfl (ih known)
  case branch => exact fun s c yes no ihYes ihNo known => .branch rfl (ihYes known) (ihNo known)
  case store => exact fun s b is e known => .store rfl (forall₂_along is) rfl
  case call =>
    exact fun s f args known => .call (forall₂_arg_along (fun _ => rfl) (fun _ => rfl) args)
  case block =>
    intro s ts ih known
    rw [bottomUp, bottomUpAll_eq_map]
    exact copyOf_block_map fun t ht => ih t ht known
  case hole => exact fun s known => .hole

theorem rephrased_mapExprs (φ : Expr → Expr) : ∀ t : Stmt, Rephrased φ t (t.mapExprs φ) := by
  unfold mapExprs
  refine Stmt.ind ?decl ?loop ?guard ?branch ?store ?call ?block ?hole
  case decl => exact fun s name b body ih known => .decl rfl rfl (ih known)
  case loop => exact fun s h body ih known => .loop rfl rfl rfl (ih _)
  case guard => exact fun s c body ih known => .guard rfl (ih known)
  case branch => exact fun s c yes no ihYes ihNo known => .branch rfl (ihYes known) (ihNo known)
  case store => exact fun s b is e known => .store rfl (forall₂_along is) rfl
  case call =>
    exact fun s f args known => .call (forall₂_arg_along (fun _ => rfl) (fun _ => rfl) args)
  case block =>
    intro s ts ih known
    rw [bottomUp, bottomUpAll_eq_map]
    exact copyOf_block_map fun t ht => ih t ht known
  case hole => exact fun s known => .hole

/-- A scalar is replaced everywhere when no loop binds it. -/
theorem rephrased_substitute {x : String} (w : Expr) : ∀ t : Stmt, .scalar x ∉ t.binders →
    Rephrased (Expr.substitute [(x, w)]) t (t.substitute x w) := by
  refine Stmt.ind ?decl ?loop ?guard ?branch ?store ?call ?block ?hole
  case decl =>
    exact fun s name b body ih hx known => .decl rfl rfl (ih (by simpa using hx) known)
  case loop =>
    intro s h body ih hx known
    rw [binders_loop, List.mem_cons, not_or] at hx
    have hIter : h.iter ≠ x := fun hEq => hx.1 (by rw [hEq])
    rw [Stmt.substitute, if_neg hIter]
    exact .loop rfl rfl rfl (ih hx.2 _)
  case guard => exact fun s c body ih hx known => .guard rfl (ih (by simpa using hx) known)
  case branch =>
    intro s c yes no ihYes ihNo hx known
    rw [binders_branch, List.mem_append, not_or] at hx
    exact .branch rfl (ihYes hx.1 known) (ihNo hx.2 known)
  case store => exact fun s b is e hx known => .store rfl (forall₂_along is) rfl
  case call =>
    exact fun s f args hx known => .call (forall₂_arg_along (fun _ => rfl) (fun _ => rfl) args)
  case block =>
    intro s ts ih hx known
    rw [Stmt.substitute, substituteAll_eq_map]
    refine copyOf_block_map fun t ht => ih t ht (fun hMem => hx ?_) known
    rw [binders_block]
    exact List.mem_flatMap.mpr ⟨t, ht, hMem⟩
  case hole => exact fun s hx known => .hole

/-- Changes of single statements that only touch their sites. -/
theorem rephrased_bottomUp {f : Stmt → Stmt}
    (hf : ∀ t u, Rephrased (fun e => e) t u → Rephrased (fun e => e) t (f u)) :
    ∀ t : Stmt, Rephrased (fun e => e) t (t.bottomUp f) := by
  refine Stmt.ind ?decl ?loop ?guard ?branch ?store ?call ?block ?hole
  case decl => exact fun s name b body ih => hf _ _ fun known => .decl rfl rfl (ih known)
  case loop => exact fun s h body ih => hf _ _ fun known => .loop rfl rfl rfl (ih _)
  case guard => exact fun s c body ih => hf _ _ fun known => .guard rfl (ih known)
  case branch =>
    exact fun s c yes no ihYes ihNo => hf _ _ fun known => .branch rfl (ihYes known) (ihNo known)
  case store =>
    exact fun s b is e => hf _ _ fun known => .store rfl (List.forall₂_same.mpr fun _ _ => rfl) rfl
  case call => exact fun s f args => hf _ _ fun known => .call (forall₂_arg_self fun _ => rfl)
  case block =>
    intro s ts ih
    rw [bottomUp, bottomUpAll_eq_map]
    exact hf _ _ fun known => copyOf_block_map fun t ht => ih t ht known
  case hole => exact fun s => hf _ _ fun known => .hole

theorem rephrased_relabel (fresh : List (Nat × String)) (t : Stmt) :
    Rephrased (fun e => e) t (t.relabel fresh) := by
  refine rephrased_bottomUp (fun t u h => ?_) t
  split
  · exact fun known => (h known).withSite _
  · exact h

/-! ## Phrases -/

theorem phrases_eq_cons (t : Stmt) : t.phrases = t.exprs :: t.children.flatMap phrases := by
  unfold phrases
  rw [nodes_eq_cons, List.map_cons, inside, List.map_flatMap]

/-- Translates the phrases of a program when it translates those of each statement. -/
theorem phrases_bottomUp {f : Stmt → Stmt} {φ : Expr → Expr}
    (hExprs : ∀ u, (f u).exprs = u.exprs.map φ) (hChildren : ∀ u, (f u).children = u.children) :
    ∀ t : Stmt, (t.bottomUp f).phrases = t.phrases.map (List.map φ) := by
  refine children_ind fun t ih => ?_
  rw [bottomUp_eq, phrases_eq_cons, phrases_eq_cons t, hExprs, hChildren, exprs_mapChildren,
    children_mapChildren, List.flatMap_map, List.map_cons, List.map_flatMap, List.flatMap_congr ih]

theorem argValues_map {f : Arg → Arg} {φ : Expr → Expr} (hBuffer : ∀ b, ∃ b', f (.buffer b) = .buffer b')
    (hValue : ∀ e, f (.value e) = .value (φ e)) (args : List Arg) :
    argValues (args.map f) = (argValues args).map φ := by
  induction args with
  | nil => rfl
  | cons arg args ih =>
    unfold argValues at ih ⊢
    rw [List.map_cons]
    cases arg with
    | buffer b =>
      obtain ⟨b', hb⟩ := hBuffer b
      rw [hb]
      simpa using ih
    | value e =>
      rw [hValue]
      simpa using ih

theorem phrases_rename (scalars buffers : Expr.Renaming) (t : Stmt) :
    (t.rename scalars buffers).phrases = t.phrases.map (List.map (Expr.rename scalars buffers)) := by
  refine phrases_bottomUp (fun u => ?_) (fun u => ?_) t
  · cases u with
    | call s f args => exact argValues_map (fun b => ⟨_, rfl⟩) (fun _ => rfl) args
    | _ => simp [renameOwn, exprs]
  · cases u <;> rfl

theorem exprs_mapOwnExprs (φ : Expr → Expr) (t : Stmt) :
    (t.mapOwnExprs φ).exprs = t.exprs.map φ := by
  cases t with
  | call s f args => exact argValues_map (fun b => ⟨_, rfl⟩) (fun _ => rfl) args
  | _ => simp [mapOwnExprs, exprs]

theorem phrases_mapExprs (φ : Expr → Expr) (t : Stmt) :
    (t.mapExprs φ).phrases = t.phrases.map (List.map φ) :=
  phrases_bottomUp (exprs_mapOwnExprs φ) (fun u => by cases u <;> rfl) t

theorem phrases_relabel (fresh : List (Nat × String)) (t : Stmt) :
    (t.relabel fresh).phrases = t.phrases := by
  have hWith : ∀ (s : Site) (u : Stmt), (u.withSite s).exprs = u.exprs
      ∧ (u.withSite s).children = u.children := fun s u => by cases u <;> exact ⟨rfl, rfl⟩
  unfold relabel
  rw [phrases_bottomUp (φ := fun e => e) (fun u => ?_) (fun u => ?_)]
  · simp
  · rw [List.map_id']
    split
    · exact (hWith _ u).1
    · rfl
  · split
    · exact (hWith _ u).2
    · rfl

theorem phrases_copyFrom : ∀ (t : Stmt) (n : Nat), (t.copyFrom n).1.phrases = t.phrases := by
  refine Stmt.ind ?decl ?loop ?guard ?branch ?store ?call ?block ?hole
  case decl =>
    intro s name b body ih n
    rw [phrases_eq_cons, phrases_eq_cons (.decl s name b body)]
    simpa [copyFrom, children, exprs] using ih n
  case loop =>
    intro s h body ih n
    rw [phrases_eq_cons, phrases_eq_cons (.loop s h body)]
    simpa [copyFrom, children, exprs] using ih n
  case guard =>
    intro s c body ih n
    rw [phrases_eq_cons, phrases_eq_cons (.guard s c body)]
    simpa [copyFrom, children, exprs] using ih n
  case branch =>
    intro s c yes no ihYes ihNo n
    rw [phrases_eq_cons, phrases_eq_cons (.branch s c yes no)]
    simp [copyFrom, children, exprs, ihYes, ihNo]
  case store => exact fun s b is e n => rfl
  case call => exact fun s f args n => rfl
  case block =>
    intro s ts ih n
    have hAll : ∀ n, (copyAllFrom n ts).1.flatMap phrases = ts.flatMap phrases := by
      induction ts with
      | nil => exact fun n => rfl
      | cons t ts ihList =>
        intro n
        have hTail := ihList fun u hu => ih u (List.mem_cons_of_mem t hu)
        simp [copyAllFrom, ih t List.mem_cons_self, hTail]
    rw [phrases_eq_cons, phrases_eq_cons (.block s ts)]
    simpa [copyFrom, children, exprs] using hAll n
  case hole => exact fun s n => rfl

/-- A scalar is replaced in all phrases when no loop binds it. -/
theorem phrases_substitute {x : String} (w : Expr) : ∀ t : Stmt, .scalar x ∉ t.binders →
    (t.substitute x w).phrases = t.phrases.map (List.map (Expr.substitute [(x, w)])) := by
  refine Stmt.ind ?decl ?loop ?guard ?branch ?store ?call ?block ?hole
  case decl =>
    intro s name b body ih hx
    rw [phrases_eq_cons, phrases_eq_cons (.decl s name b body)]
    simpa [substitute, children, exprs] using ih (by simpa using hx)
  case loop =>
    intro s h body ih hx
    rw [binders_loop, List.mem_cons, not_or] at hx
    have hIter : h.iter ≠ x := fun hEq => hx.1 (by rw [hEq])
    rw [phrases_eq_cons, phrases_eq_cons (.loop s h body)]
    simpa [substitute, if_neg hIter, children, exprs] using ih hx.2
  case guard =>
    intro s c body ih hx
    rw [phrases_eq_cons, phrases_eq_cons (.guard s c body)]
    simpa [substitute, children, exprs] using ih (by simpa using hx)
  case branch =>
    intro s c yes no ihYes ihNo hx
    rw [binders_branch, List.mem_append, not_or] at hx
    rw [phrases_eq_cons, phrases_eq_cons (.branch s c yes no)]
    simp [substitute, children, exprs, ihYes hx.1, ihNo hx.2]
  case store => exact fun s b is e hx => by simp [substitute, phrases, exprs]
  case call =>
    intro s f args hx
    have hArgs := argValues_map (f := mapArg (Expr.substitute [(x, w)])) (fun b => ⟨b, rfl⟩)
      (fun _ => rfl) args
    simp [substitute, phrases, exprs, hArgs]
  case block =>
    intro s ts ih hx
    rw [phrases_eq_cons, phrases_eq_cons (.block s ts)]
    simp only [substitute, substituteAll_eq_map, children, exprs, List.flatMap_map, List.map_cons,
      List.map_flatMap, List.map_nil]
    rw [List.flatMap_congr fun t ht => ih t ht fun hMem => hx ?_]
    rw [binders_block]
    exact List.mem_flatMap.mpr ⟨t, ht, hMem⟩
  case hole => exact fun s hx => rfl

end Stmt

/-! ## Values in the places of parameters -/

namespace Expr

variable {values : List (String × Expr)}

/-- Puts values in the places of scalars and cells, one after the other. -/
def fill (values : List (String × Expr)) (e : Expr) : Expr :=
  values.foldl (fun e v => substituteCell v.1 v.2 (e.substitute [v])) e

@[simp] theorem fill_nil (e : Expr) : fill [] e = e := rfl

@[simp] theorem fill_cons (v : String × Expr) (values : List (String × Expr)) (e : Expr) :
    fill (v :: values) e = fill values (substituteCell v.1 v.2 (e.substitute [v])) := rfl

@[simp] theorem fill_unary (values : List (String × Expr)) (op : UnaryOp) (e : Expr) :
    fill values (.unary op e) = .unary op (fill values e) := by
  induction values generalizing e with
  | nil => rfl
  | cons v values ih => rw [fill_cons, substitute, substituteCell, ih, fill_cons]

@[simp] theorem fill_binary (values : List (String × Expr)) (op : BinaryOp) (a b : Expr) :
    fill values (.binary op a b) = .binary op (fill values a) (fill values b) := by
  induction values generalizing a b with
  | nil => rfl
  | cons v values ih => rw [fill_cons, substitute, substituteCell, ih, fill_cons, fill_cons]

/-- A scalar that does not occur is not replaced. -/
theorem substitute_eq_self {v : String × Expr} : ∀ {e : Expr}, v.1 ∉ e.scalars →
    e.substitute [v] = e := by
  refine @Expr.ind _ ?int ?float ?bool ?var ?load ?unary ?binary
  case int => exact fun _ _ => rfl
  case float => exact fun _ _ => rfl
  case bool => exact fun _ _ => rfl
  case var =>
    intro x hx
    have hOther : (x == v.1) = false := by
      rw [beq_eq_false_iff_ne]
      exact fun hEq => hx (by simp [hEq])
    rw [substitute, List.lookup_cons, hOther]
    rfl
  case load =>
    intro b is ih hx
    rw [scalars_load, List.mem_flatMap] at hx
    rw [substitute, substituteAll_eq_map,
      List.map_congr_left fun i hi => ih i hi fun hMem => hx ⟨i, hi, hMem⟩, List.map_id']
  case unary => exact fun op e ih hx => by rw [substitute, ih (by simpa using hx)]
  case binary =>
    intro op a b iha ihb hx
    rw [scalars_binary, List.mem_append, not_or] at hx
    rw [substitute, iha hx.1, ihb hx.2]

/-- A buffer that is not read has no cell to replace. -/
theorem substituteCell_eq_self {b : String} {w : Expr} : ∀ {e : Expr}, b ∉ e.buffers →
    substituteCell b w e = e := by
  refine @Expr.ind _ ?int ?float ?bool ?var ?load ?unary ?binary
  case int => exact fun _ _ => rfl
  case float => exact fun _ _ => rfl
  case bool => exact fun _ _ => rfl
  case var => exact fun _ _ => rfl
  case load =>
    intro c is ih hb
    rw [buffers_load, List.mem_cons, not_or, List.mem_flatMap] at hb
    have hOther : (c == b) = false := beq_eq_false_iff_ne.mpr fun hEq => hb.1 hEq.symm
    rw [substituteCell, hOther, Bool.false_and, if_neg Bool.false_ne_true, substituteCellAll_eq_map,
      List.map_congr_left fun i hi => ih i hi fun hMem => hb.2 ⟨i, hi, hMem⟩, List.map_id']
  case unary => exact fun op e ih hb => by rw [substituteCell, ih (by simpa using hb)]
  case binary =>
    intro op a c iha ihb hb
    rw [buffers_binary, List.mem_append, not_or] at hb
    rw [substituteCell, iha hb.1, ihb hb.2]

/-- An expression without the names of parameters stays. -/
theorem fill_eq_self {e : Expr} (hScalars : ∀ x ∈ e.scalars, x ∉ values.map Prod.fst)
    (hBuffers : ∀ b ∈ e.buffers, b ∉ values.map Prod.fst) : fill values e = e := by
  induction values with
  | nil => rfl
  | cons v values ih =>
    have hScalar : v.1 ∉ e.scalars := fun hx => hScalars _ hx (by simp)
    have hCell : v.1 ∉ e.buffers := fun hb => hBuffers _ hb (by simp)
    rw [fill_cons, substitute_eq_self hScalar, substituteCell_eq_self hCell]
    exact ih (fun x hx hMem => hScalars x hx (List.mem_cons_of_mem _ hMem))
      fun b hb hMem => hBuffers b hb (List.mem_cons_of_mem _ hMem)

/-- The read of another buffer stays, its subscripts are filled. -/
theorem fill_load {b : String} (hb : b ∉ values.map Prod.fst) (is : List Expr) :
    fill values (.load b is) = .load b (is.map (fill values)) := by
  induction values generalizing is with
  | nil =>
    rw [fill_nil, List.map_congr_left fun i _ => fill_nil i, List.map_id']
  | cons v values ih =>
    rw [List.map_cons, List.mem_cons, not_or] at hb
    have hOther : (b == v.1) = false := by simpa using hb.1
    rw [fill_cons, substitute, substituteCell, hOther, Bool.false_and, if_neg Bool.false_ne_true,
      substituteAll_eq_map, substituteCellAll_eq_map, ih hb.2, List.map_map, List.map_map]
    rfl

end Expr

theorem Restructure.InOrder.tail {v : String × Expr} {values : List (String × Expr)}
    (h : InOrder (v :: values)) : InOrder values where
  own w hw := h.own w (List.mem_cons_of_mem v hw)
  later := (List.pairwise_cons.mp h.later).2

namespace Expr

open Restructure (InOrder)

variable {values : List (String × Expr)}

/-- What has been put in stays. -/
theorem fill_head {v : String × Expr} (h : InOrder (v :: values)) :
    fill values (substituteCell v.1 v.2 v.2) = v.2 := by
  have hLater := (List.pairwise_cons.mp h.later).1
  rw [substituteCell_eq_self (h.own v List.mem_cons_self)]
  refine fill_eq_self (fun x hx hMem => ?_) fun b hb hMem => ?_
  · obtain ⟨w, hw, rfl⟩ := List.mem_map.mp hMem
    exact (hLater w hw).1 hx
  · obtain ⟨w, hw, rfl⟩ := List.mem_map.mp hMem
    exact (hLater w hw).2 hb

/-- The scalar of a parameter becomes its value. -/
theorem fill_var (h : InOrder values) {x : String} {e : Expr} (hLookup : values.lookup x = some e) :
    fill values (.var x) = e := by
  induction values with
  | nil => cases hLookup
  | cons v values ih =>
    obtain ⟨y, w⟩ := v
    by_cases hName : x = y
    · subst hName
      obtain rfl : w = e := by simpa using hLookup
      have hPut : (Expr.var x).substitute [(x, w)] = w := by simp [substitute]
      rw [fill_cons, hPut]
      exact fill_head h
    · have hOther : (x == y) = false := by simpa using hName
      rw [List.lookup_cons, hOther] at hLookup
      rw [fill_cons, substitute_eq_self (by simpa [eq_comm] using hName),
        substituteCell_eq_self (by simp)]
      exact ih h.tail hLookup

/-- The cell of a parameter becomes its value. -/
theorem fill_cell (h : InOrder values) {x : String} {e : Expr} (hLookup : values.lookup x = some e) :
    fill values (.load x []) = e := by
  induction values with
  | nil => cases hLookup
  | cons v values ih =>
    obtain ⟨y, w⟩ := v
    rw [fill_cons, substitute_eq_self (by simp)]
    by_cases hName : x = y
    · subst hName
      obtain rfl : w = e := by simpa using hLookup
      have hPut : substituteCell x w (.load x []) = substituteCell x w w := by
        rw [substituteCell_eq_self (e := w) (h.own (x, w) List.mem_cons_self)]
        simp [substituteCell]
      rw [hPut]
      exact fill_head h
    · have hOther : (x == y) = false := by simpa using hName
      rw [List.lookup_cons, hOther] at hLookup
      rw [substituteCell_eq_self (by simpa [eq_comm] using hName)]
      exact ih h.tail hLookup

end Expr

/-! ## Names of a translation -/

/-- A symbol translated. -/
def Symbol.through (ι β : String → String) : Symbol → Symbol
  | .scalar x => .scalar (ι x)
  | .buffer b => .buffer (β b)

namespace Stmt

variable {ι β : String → String} {φ : Expr → Expr} {known : List String} {t t' : Stmt}

/-- What a translation binds. -/
theorem CopyOf.binders_eq (h : CopyOf (.along ι β φ) known t t') :
    t'.binders = t.binders.map (Symbol.through ι β) := by
  induction h with
  | decl name _ _ ih => simpa [ih, Symbol.through, Dictionary.along] using name
  | loop iter _ _ _ ih => simpa [ih, Symbol.through, Dictionary.along] using iter
  | guard _ _ ih => simp [ih]
  | branch _ _ _ ihYes ihNo => simp [ihYes, ihNo]
  | store => simp
  | call => rfl
  | nil => simp
  | cons _ _ ihHead ihTail =>
    simp only [binders_block] at ihTail
    simp [ihHead, ihTail]
  | hole => rfl
  | given pair => exact pair.elim

theorem Rephrased.binders_eq (h : Rephrased φ t t') : t'.binders = t.binders := by
  rw [(h []).binders_eq]
  refine (List.map_congr_left fun x _ => ?_).trans (List.map_id _)
  cases x <;> rfl

open Restructure (putValue)

/-- Values are put in everywhere when no loop binds the scalar of a parameter. -/
theorem rephrased_putValues {values : List (String × Expr)} : ∀ {t : Stmt},
    (∀ x ∈ values.map Prod.fst, .scalar x ∉ t.binders) →
    Rephrased (Expr.fill values) t (values.foldl (fun t v => putValue t v.1 v.2) t) := by
  induction values with
  | nil => exact fun _ known => .self _ known (fun _ _ _ _ _ => rfl) fun _ _ _ _ => ⟨rfl, rfl⟩
  | cons v values ih =>
    intro t ht
    have hHead : Rephrased (fun e => Expr.substituteCell v.1 v.2 (e.substitute [v])) t
        (putValue t v.1 v.2) :=
      (rephrased_substitute v.2 t (ht v.1 (by simp))).trans (rephrased_mapExprs _ _)
    have hTail := ih (t := putValue t v.1 v.2) fun x hx hMem => by
      rw [hHead.binders_eq] at hMem
      exact ht x (List.mem_cons_of_mem _ hx) hMem
    exact hHead.trans hTail

/-- They are put into all phrases then. -/
theorem phrases_putValues {values : List (String × Expr)} : ∀ {t : Stmt},
    (∀ x ∈ values.map Prod.fst, .scalar x ∉ t.binders) →
    (values.foldl (fun t v => putValue t v.1 v.2) t).phrases
      = t.phrases.map (List.map (Expr.fill values)) := by
  induction values with
  | nil =>
    intro t _
    show t.phrases = t.phrases.map (List.map fun e => e)
    simp
  | cons v values ih =>
    intro t ht
    have hHead : Rephrased (fun e => Expr.substituteCell v.1 v.2 (e.substitute [v])) t
        (putValue t v.1 v.2) :=
      (rephrased_substitute v.2 t (ht v.1 (by simp))).trans (rephrased_mapExprs _ _)
    have hTail := ih (t := putValue t v.1 v.2) fun x hx hMem => by
      rw [hHead.binders_eq] at hMem
      exact ht x (List.mem_cons_of_mem _ hx) hMem
    rw [List.foldl_cons, hTail, putValue, phrases_mapExprs,
      phrases_substitute v.2 t (ht v.1 (by simp)), List.map_map, List.map_map]
    simp [Function.comp_def]

end Stmt

end LoopNest

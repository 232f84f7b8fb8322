import LoopNest.Proofs.ExpandedCalls
import LoopNest.Proofs.FoldedConstants
import LoopNest.Proofs.SplitPrograms
import LoopNest.Proofs.WrittenPrograms

/-! # Expressions of one kind throughout a program

  `Stmt.Each` says that all expressions of a program are of some kind: that they can be stored, or
  that they endure folding.

  * **Walks**: what is done to every expression keeps the kind when it does so for one expression.
  * **Expanded calls** leave expressions that can be stored (`Restructure.each_expandAll`).
  * **Simplified programs** have enduring expressions when the program has
    (`Stmt.Each.enduring_simplify`). -/

namespace LoopNest

/-! ## Stored expressions -/

namespace Expr

variable {w : Expr}

/-- What changes scalars and loads only leaves an expression that can be stored when it puts such
    expressions in their places. -/
theorem Storable.through {φ : Expr → Expr} (hConstant : ∀ c : Expr, c.isConstant = true → φ c = c)
    (hVar : ∀ x, (φ (.var x)).Storable)
    (hLoad : ∀ b is, (∀ i ∈ is, (φ i).Storable) → (φ (.load b is)).Storable)
    (hUnary : ∀ op e, φ (.unary op e) = .unary op (φ e))
    (hBinary : ∀ op a b, φ (.binary op a b) = .binary op (φ a) (φ b)) :
    ∀ e : Expr, e.Storable → (φ e).Storable := by
  refine Expr.ind ?int ?float ?bool ?var ?load ?unary ?binary
  case int => exact fun v h => by rwa [hConstant _ rfl]
  case float => exact fun v h => by rwa [hConstant _ rfl]
  case bool => exact fun v h => by rwa [hConstant _ rfl]
  case var => exact fun x _ => hVar x
  case load => exact fun b is ih h => hLoad b is fun i hi => ih i hi (storable_load.mp h i hi)
  case unary =>
    intro op e ih h
    rw [hUnary]
    exact storable_unary.mpr (ih (storable_unary.mp h))
  case binary =>
    intro op a b iha ihb h
    rw [hBinary]
    exact storable_binary.mpr ⟨iha (storable_binary.mp h).1, ihb (storable_binary.mp h).2⟩

theorem Storable.substitute (hw : w.Storable) (x : String) :
    ∀ e : Expr, e.Storable → (e.substitute [(x, w)]).Storable := by
  refine Storable.through (fun c hc => ?_) (fun y => ?_) (fun b is his => ?_) (fun _ _ => rfl)
    fun _ _ _ => rfl
  · cases c <;> first | rfl | cases hc
  · rcases substitute_var_cases w x y with hVar | hVar <;> rw [hVar]
    · exact hw
    · exact storable_var y
  · rw [Expr.substitute, substituteAll_eq_map, storable_load]
    exact List.forall_mem_map.mpr his

theorem Storable.substituteCell (hw : w.Storable) (b : String) :
    ∀ e : Expr, e.Storable → (substituteCell b w e).Storable := by
  refine Storable.through (fun c hc => ?_) storable_var (fun b' is his => ?_) (fun _ _ => rfl)
    fun _ _ _ => rfl
  · cases c <;> first | rfl | cases hc
  · rw [Expr.substituteCell]
    split
    · exact hw
    · rw [substituteCellAll_eq_map, storable_load]
      exact List.forall_mem_map.mpr his

theorem Storable.rename (scalars buffers : Renaming) :
    ∀ e : Expr, e.Storable → (e.rename scalars buffers).Storable := by
  refine Storable.through (fun c hc => ?_) (fun y => storable_var _) (fun b is his => ?_)
    (fun _ _ => rfl) fun _ _ _ => rfl
  · cases c <;> first | rfl | cases hc
  · rw [Expr.rename, renameAll_eq_map, storable_load]
    exact List.forall_mem_map.mpr his

end Expr

/-! ## Loops with one iteration -/

/-- The lower bound of a loop with one iteration is affine. -/
theorem LoopHead.outcomes_of_dissolved {h : LoopHead} (hFate : h.fate = .dissolved) :
    h.lower.outcomes = [] := by
  unfold LoopHead.fate at hFate
  split at hFate
  · cases hFate
  · rename_i hExtent
    obtain ⟨f, hf, -⟩ := Option.bind_eq_some_iff.mp hExtent
    exact Expr.outcomes_of_linear? _ hf

/-! ## All expressions of a program -/

namespace Stmt

/-- All expressions of a program are of some kind. -/
def Each (P : Expr → Prop) (t : Stmt) : Prop := ∀ u ∈ t.nodes, ∀ e ∈ u.exprs, P e

section each

variable {P Q : Expr → Prop} {t t' u : Stmt} {s : Site}

theorem Each.imp (h : t.Each P) (hPQ : ∀ e, P e → Q e) : t.Each Q :=
  fun u hu e he => hPQ e (h u hu e he)

theorem Each.of_mem (h : t.Each P) (hu : u ∈ t.nodes) : u.Each P :=
  fun v hv => h v (mem_nodes_trans hv hu)

/-- The expressions of a statement itself, and those below it. -/
theorem each_iff : t.Each P ↔ (∀ e ∈ t.exprs, P e) ∧ ∀ u ∈ t.children, u.Each P := by
  simp only [Each, nodes_eq_cons t, List.forall_mem_cons, inside, List.forall_mem_flatMap]

theorem each_decl {n : String} {b : Buffer} {body : Stmt} :
    (Stmt.decl s n b body).Each P ↔ (∀ e ∈ b.shape, P e) ∧ body.Each P := by
  rw [each_iff]
  simp [exprs, children]

theorem each_loop {h : LoopHead} {body : Stmt} :
    (Stmt.loop s h body).Each P ↔ (P h.lower ∧ P h.upper) ∧ body.Each P := by
  rw [each_iff]
  simp [exprs, children]

theorem each_guard {c : Expr} {body : Stmt} :
    (Stmt.guard s c body).Each P ↔ P c ∧ body.Each P := by
  rw [each_iff]
  simp [exprs, children]

theorem each_branch {c : Expr} {yes no : Stmt} :
    (Stmt.branch s c yes no).Each P ↔ P c ∧ yes.Each P ∧ no.Each P := by
  rw [each_iff]
  simp [exprs, children]

theorem each_store {b : String} {is : List Expr} {v : Expr} :
    (Stmt.store s b is v).Each P ↔ (∀ i ∈ is, P i) ∧ P v := by
  rw [each_iff]
  simp [exprs, children, or_imp, forall_and]

theorem each_block {ts : List Stmt} : (Stmt.block s ts).Each P ↔ ∀ t ∈ ts, t.Each P := by
  rw [each_iff]
  simp [exprs, children]

/-! ### Walks -/

theorem each_iff_phrases : t.Each P ↔ ∀ es ∈ t.phrases, ∀ e ∈ es, P e := by
  simp [Each, phrases]

/-- What keeps each expression of some kind keeps the program so. -/
theorem Each.translated {φ : Expr → Expr} (h : t.Each P)
    (hPhrases : t'.phrases = t.phrases.map (List.map φ)) (hφ : ∀ e, P e → Q (φ e)) : t'.Each Q := by
  rw [each_iff_phrases, hPhrases]
  intro es hes e he
  obtain ⟨ds, hds, rfl⟩ := List.mem_map.mp hes
  obtain ⟨d, hd, rfl⟩ := List.mem_map.mp he
  exact hφ d (each_iff_phrases.mp h ds hds d hd)

/-- A program that has the same expressions. -/
theorem Each.same (h : t.Each P) (hPhrases : t'.phrases = t.phrases) : t'.Each P := by
  rw [each_iff_phrases, hPhrases]
  exact each_iff_phrases.mp h

theorem Each.number (h : t.Each P) : t.number.Each P := by
  intro u hu e he
  have hExprs : t.number.nodes.flatMap exprs = t.nodes.flatMap exprs :=
    flatMap_nodes_number (fun u => by cases u <;> rfl) t
  have hMem := List.mem_flatMap.mpr ⟨u, hu, he⟩
  rw [hExprs] at hMem
  obtain ⟨v, hv, he⟩ := List.mem_flatMap.mp hMem
  exact h v hv e he

/-- Something else in the place of a statement. -/
theorem Each.update (h : t.Each P) (hu : u.Each P) (p : Nat) : (t.update p fun _ => u).Each P := by
  by_contra hNot
  simp only [Each, not_forall] at hNot
  obtain ⟨v, hv, e, he, hPe⟩ := hNot
  rcases exists_mem_update (Q := fun v => ∃ e ∈ v.exprs, ¬ P e)
      (fun w f hw => by simpa using hw) ⟨v, hv, e, he, hPe⟩
    with ⟨w, hw, e, he, hPe⟩ | ⟨-, w, hw, e, he, hPe⟩
  · exact hPe (h w hw e he)
  · exact hPe (hu w hw e he)

/-- A scalar is replaced in some of the expressions and stays in the others. -/
theorem Each.substitute {x : String} {w : Expr} (hw : ∀ e, P e → P (e.substitute [(x, w)])) :
    ∀ t : Stmt, t.Each P → (t.substitute x w).Each P := by
  refine Stmt.ind ?decl ?loop ?guard ?branch ?store ?call ?block ?hole
  case decl =>
    intro s n b body ih h
    obtain ⟨hShape, hBody⟩ := each_decl.mp h
    exact each_decl.mpr ⟨List.forall_mem_map.mpr fun e he => hw e (hShape e he), ih hBody⟩
  case loop =>
    intro s head body ih h
    obtain ⟨⟨hLower, hUpper⟩, hBody⟩ := each_loop.mp h
    refine each_loop.mpr ⟨⟨hw _ hLower, hw _ hUpper⟩, ?_⟩
    split
    · exact hBody
    · exact ih hBody
  case guard =>
    intro s c body ih h
    obtain ⟨hCond, hBody⟩ := each_guard.mp h
    exact each_guard.mpr ⟨hw c hCond, ih hBody⟩
  case branch =>
    intro s c yes no ihYes ihNo h
    obtain ⟨hCond, hYes, hNo⟩ := each_branch.mp h
    exact each_branch.mpr ⟨hw c hCond, ihYes hYes, ihNo hNo⟩
  case store =>
    intro s b is v h
    obtain ⟨hIndices, hValue⟩ := each_store.mp h
    exact each_store.mpr ⟨List.forall_mem_map.mpr fun e he => hw e (hIndices e he), hw v hValue⟩
  case call =>
    intro s f args h
    refine each_iff.mpr ⟨?_, fun u hu => absurd hu List.not_mem_nil⟩
    rw [exprs_substitute]
    exact List.forall_mem_map.mpr fun e he => hw e ((each_iff.mp h).1 e he)
  case block =>
    intro s ts ih h
    rw [Stmt.substitute, substituteAll_eq_map]
    exact each_block.mpr (List.forall_mem_map.mpr fun t ht => ih t ht (each_block.mp h t ht))
  case hole => exact fun s h => h

end each

/-! ### Simplification -/

section simplified

variable {t : Stmt} {r : Expr.Ranges}

/-- Simplifying the expressions of a statement keeps all of it enduring. -/
theorem Each.enduring_mapOwnExprs (h : t.Each Expr.Enduring) (r : Expr.Ranges) :
    (t.mapOwnExprs (Expr.simplify r)).Each Expr.Enduring := by
  obtain ⟨hOwn, hBelow⟩ := each_iff.mp h
  refine each_iff.mpr ⟨?_, ?_⟩
  · rw [exprs_mapOwnExprs]
    exact List.forall_mem_map.mpr fun e he => Expr.Enduring.simplify r e (hOwn e he)
  · have hChildren : (t.mapOwnExprs (Expr.simplify r)).children = t.children := by
      cases t <;> rfl
    rwa [hChildren]

theorem each_simplifiedBlock {P : Expr → Prop} {s : Site} {ts : List Stmt} (h : ∀ t ∈ ts, t.Each P) :
    ∀ u ∈ simplifiedBlock s ts, u.Each P := by
  have hFlat : ∀ t ∈ ts.flatMap dissolve, t.Each P := by
    intro u hu
    obtain ⟨t, ht, hu⟩ := List.mem_flatMap.mp hu
    unfold dissolve at hu
    split at hu
    · rw [List.mem_singleton.mp hu]
      exact h _ ht
    · exact each_block.mp (h _ ht) u hu
    · rw [List.mem_singleton.mp hu]
      exact h t ht
  intro u hu
  unfold simplifiedBlock at hu
  dsimp only at hu
  split at hu
  · cases hu
  · rename_i hOne
    cases hu
    exact hFlat _ (by simp [hOne])
  · cases hu
    exact each_block.mpr hFlat

theorem each_simplifiedDecl {P : Expr → Prop} {next : Nat} {s : Site} {n : String} {b : Buffer}
    {body : Option Stmt} (hShape : ∀ e ∈ b.shape, P e) (hBody : ∀ t ∈ body, t.Each P) :
    ∀ u ∈ simplifiedDecl next s n b body, u.Each P := by
  intro u hu
  unfold simplifiedDecl at hu
  split at hu
  · cases hu
    exact each_decl.mpr ⟨hShape, hBody _ rfl⟩
  · split at hu
    · cases hu
    · cases hu
      exact each_decl.mpr ⟨hShape, each_block.mpr fun t ht => absurd ht List.not_mem_nil⟩

theorem each_simplifiedBranch {P : Expr → Prop} {s : Site} {c : Expr} {yes no : Option Stmt}
    (hCond : P c) (hNegated : P (Expr.simplify r c.negation)) (hYes : ∀ t ∈ yes, t.Each P)
    (hNo : ∀ t ∈ no, t.Each P) : ∀ u ∈ simplifiedBranch r s c yes no, u.Each P := by
  intro u hu
  unfold simplifiedBranch at hu
  split at hu
  · cases hu
  · cases hu
    exact each_guard.mpr ⟨hCond, hYes _ rfl⟩
  · cases hu
    exact each_branch.mpr ⟨hCond, hYes _ rfl, hNo _ rfl⟩
  · cases hu
    exact each_guard.mpr ⟨hNegated, hNo _ rfl⟩

/-- **What remains** of a program with enduring expressions has enduring expressions: by induction on
    the height. -/
theorem Each.enduring_simplifyTo (next : Nat) : ∀ (height : Nat) (r : Expr.Ranges) (t : Stmt),
    t.Each Expr.Enduring → ∀ u ∈ simplifyTo next height r t, u.Each Expr.Enduring := by
  intro height
  induction height with
  | zero =>
    intro r t h u hu
    cases hu
    exact h
  | succ height ih =>
    intro r t h u hu
    have hOwn := h.enduring_mapOwnExprs r
    rw [simplifyTo] at hu
    split at hu
    · rename_i s n b body hEq
      rw [hEq] at hOwn
      obtain ⟨hShape, hBody⟩ := each_decl.mp hOwn
      exact each_simplifiedDecl hShape (ih r body hBody) u hu
    · rename_i s head body hEq
      rw [hEq] at hOwn
      obtain ⟨⟨hLower, hUpper⟩, hBody⟩ := each_loop.mp hOwn
      split at hu
      · cases hu
      · rename_i hFate
        have hNone := LoopHead.outcomes_of_dissolved hFate
        exact ih r _ (Each.substitute (hLower.substitute hNone head.iter) body hBody) u hu
      · obtain ⟨v, hv, rfl⟩ := Option.map_eq_some_iff.mp hu
        exact each_loop.mpr ⟨⟨hLower, hUpper⟩, ih _ body hBody v hv⟩
    · rename_i s c body hEq
      rw [hEq] at hOwn
      obtain ⟨hCond, hBody⟩ := each_guard.mp hOwn
      split at hu
      · exact ih r body hBody u hu
      · split at hu
        · cases hu
        · obtain ⟨v, hv, rfl⟩ := Option.map_eq_some_iff.mp hu
          exact each_guard.mpr ⟨hCond, ih r body hBody v hv⟩
    · rename_i s c yes no hEq
      rw [hEq] at hOwn
      obtain ⟨hCond, hYes, hNo⟩ := each_branch.mp hOwn
      split at hu
      · exact ih r yes hYes u hu
      · split at hu
        · exact ih r no hNo u hu
        · exact each_simplifiedBranch hCond (Expr.Enduring.simplify r _ hCond.negation)
            (ih r yes hYes) (ih r no hNo) u hu
    · rename_i s ts hEq
      rw [hEq] at hOwn
      refine each_simplifiedBlock (fun v hv => ?_) u hu
      obtain ⟨t, ht, hRest⟩ := List.mem_filterMap.mp hv
      exact ih r t (each_block.mp hOwn t ht) v hRest
    · cases hu
      exact hOwn

/-- **Simplified programs**: enduring expressions stay so. -/
theorem Each.enduring_simplify (h : t.Each Expr.Enduring) (next : Nat) :
    (t.simplify next).Each Expr.Enduring := by
  unfold simplify
  cases hRest : simplifyTo next t.size [] t with
  | none => exact each_block.mpr fun u hu => absurd hu List.not_mem_nil
  | some u => exact Each.enduring_simplifyTo next t.size [] t h u hRest

end simplified

end Stmt

/-! ## Expanded calls -/

namespace Restructure

open Stmt (each_iff)

variable {r : Registry}

/-- The values of a call are arguments of it. -/
theorem storable_of_bindArgs {host : String → Option Buffer} {name : String} {writes : List String}
    {params : List Param} {args : List Arg} {b : Binding} (hCount : args.length = params.length)
    (h : bindArgs host name writes {} params args = .ok b)
    (hArgs : ∀ e ∈ Stmt.argValues args, e.Storable) : ∀ v ∈ b.values, v.2.Storable := by
  intro v hv
  rw [(bindArgs_spec hCount h).2.1, List.nil_append] at hv
  obtain ⟨⟨p, a⟩, hZip, hValue⟩ := List.mem_filterMap.mp hv
  obtain ⟨e, he, rfl⟩ := Option.map_eq_some_iff.mp hValue
  cases a with
  | buffer => cases he
  | value e' =>
    cases he
    exact hArgs e (List.mem_filterMap.mpr ⟨_, (List.of_mem_zip hZip).2, rfl⟩)

theorem each_putValues {values : List (String × Expr)} (hValues : ∀ v ∈ values, v.2.Storable) :
    ∀ t : Stmt, t.Each Expr.Storable →
      (values.foldl (fun t v => putValue t v.1 v.2) t).Each Expr.Storable := by
  induction values with
  | nil => exact fun _ h => h
  | cons v values ih =>
    obtain ⟨hv, hRest⟩ := List.forall_mem_cons.mp hValues
    intro t h
    refine ih hRest _ (Stmt.Each.translated ?_ (Stmt.phrases_mapExprs _ _)
      (Expr.Storable.substituteCell hv v.1))
    exact Stmt.Each.substitute (Expr.Storable.substitute hv v.1) t h

/-- **The copy** of a function whose expressions can be stored, with such values put in. -/
theorem each_privateCopy (host : Stmt) (next : Nat) {f : Function} {b : Binding} (front : String)
    (hBody : f.body.Each Expr.Storable) (hValues : ∀ v ∈ b.values, v.2.Storable) :
    (privateCopy host next f b front).1.Each Expr.Storable := by
  refine Stmt.Each.same ?_ (Stmt.phrases_relabel _ _)
  refine each_putValues hValues _ (Stmt.Each.translated ?_ (Stmt.phrases_rename _ _ _)
    (Expr.Storable.rename _ _))
  exact hBody.same (Stmt.phrases_copyFrom _ _)

/-- **Expanded calls**: by induction on the expansions. The calls that are still to come have arguments
    that can be stored. -/
theorem Expands.each {d d' : Draft} {calls : List Stmt} {log : List Expansion}
    (h : Expands r d calls log d') (hRegistry : ∀ f ∈ r.functions, f.body.Each Expr.Storable)
    (hTree : d.tree.Each Expr.Storable) (hCalls : ∀ c ∈ calls, c.Each Expr.Storable) :
    d'.tree.Each Expr.Storable := by
  induction h with
  | done d => exact hTree
  | @call d d' site callee args calls f b copy next log hFunction hCount hFit hCopied _ ih =>
    obtain ⟨hCall, hLater⟩ := List.forall_mem_cons.mp hCalls
    have hCopy := each_privateCopy d.tree d.next (site.label.getD callee)
      (hRegistry f (List.mem_of_find?_eq_some hFunction))
      (storable_of_bindArgs hCount hFit (each_iff.mp hCall).1)
    rw [hCopied] at hCopy
    refine ih (hTree.update hCopy site.id) fun c hc => ?_
    rcases List.mem_append.mp hc with hc | hc
    · exact hCopy.of_mem (List.mem_of_mem_filter hc)
    · exact hLater c hc

theorem each_expandAll (hRegistry : ∀ f ∈ r.functions, f.body.Each Expr.Storable) {d d' : Draft}
    {n : Nat} (h : d.tree.Each Expr.Storable) (hExpand : expandAll r d = .ok (d', n)) :
    d'.tree.Each Expr.Storable := by
  obtain ⟨log, hExpands, -⟩ := exists_expands hExpand
  exact hExpands.each hRegistry h fun c hc => h.of_mem (List.mem_of_mem_filter hc)

end Restructure

end LoopNest

import LoopNest.Proofs.FreshNames
import LoopNest.Proofs.FrozenViews
import LoopNest.Proofs.TranslatedPrograms

/-! # Private copies of functions

  A call that runs and a private copy of the function do the same (`Restructure.privateCopy_follows`),
  as far as the buffers of the caller go. On the way there:

  * **Names** (`Restructure.renamings_chosen`): everything that the body binds gets a name of its own
    that no one uses, and the parameters get the buffers that are passed.
  * **Arguments** (`Restructure.bindArgs_spec`): parameters are bound to what they stand for in a
    call that runs.
  * **The copy** (`Restructure.translated_privateCopy`): it is the body translated.
  * **States** (`Restructure.InStep`): a buffer of the function has in the copy at least the contents
    that it has in the function, which starts with none, where the copy finds what was left. Buffers
    that the arguments read keep what they hold on entry. -/

namespace LoopNest

/-! ## Renamings with new names -/

namespace Expr.Renaming

/-- A renaming extends another one by new names, which are in use now but are not among the names
    `taken` before. -/
structure NewOver (base : Renaming) (taken used : List String) (ρ : Renaming) : Prop where
  given : ∀ {b a}, base.lookup b = some a → ρ.lookup b = some a
  new : ∀ {b c}, base.lookup b = none → ρ.lookup b = some c → c ∈ used ∧ c ∉ taken
  inj : ∀ {b b' c}, base.lookup b = none → base.lookup b' = none → ρ.lookup b = some c →
    ρ.lookup b' = some c → b = b'

namespace NewOver

variable {base ρ : Renaming} {taken used : List String}

theorem refl (base : Renaming) (taken used : List String) : NewOver base taken used base where
  given h := h
  new hNone hSome := by
    rw [hNone] at hSome
    cases hSome
  inj hNone _ hSome _ := by
    rw [hNone] at hSome
    cases hSome

theorem mono (h : NewOver base taken used ρ) {used' : List String} (hUsed : used ⊆ used') :
    NewOver base taken used' ρ where
  given := h.given
  new hNone hSome := ⟨hUsed (h.new hNone hSome).1, (h.new hNone hSome).2⟩
  inj := h.inj

/-- One more name. -/
theorem cons (h : NewOver base taken used ρ) (hTaken : taken ⊆ used) {n c : String}
    (hNone : ρ.lookup n = none) (hFree : c ∉ used) :
    NewOver base taken (c :: used) ((n, c) :: ρ) := by
  have hLookup : ∀ {b d}, List.lookup b ((n, c) :: ρ) = some d →
      b = n ∧ d = c ∨ b ≠ n ∧ ρ.lookup b = some d := by
    intro b d hSome
    by_cases hName : b = n
    · subst hName
      exact .inl ⟨rfl, by simpa [eq_comm] using hSome⟩
    · rw [List.lookup_cons, beq_eq_false_iff_ne.mpr hName] at hSome
      exact .inr ⟨hName, hSome⟩
  refine ⟨fun {b a} hGiven => ?_, fun {b d} hBase hSome => ?_, fun {b b' d} hBase hBase' hSome hSome' => ?_⟩
  · have hName : b ≠ n := by
      rintro rfl
      rw [h.given hGiven] at hNone
      cases hNone
    rw [List.lookup_cons, beq_eq_false_iff_ne.mpr hName]
    exact h.given hGiven
  · obtain ⟨-, rfl⟩ | ⟨-, hOld⟩ := hLookup hSome
    · exact ⟨List.mem_cons_self, fun hMem => hFree (hTaken hMem)⟩
    · exact ⟨List.mem_cons_of_mem _ (h.new hBase hOld).1, (h.new hBase hOld).2⟩
  · obtain ⟨rfl, rfl⟩ | ⟨-, hOld⟩ := hLookup hSome
    · obtain ⟨rfl, -⟩ | ⟨-, hOld'⟩ := hLookup hSome'
      · rfl
      · exact absurd (h.new hBase' hOld').1 hFree
    · obtain ⟨-, rfl⟩ | ⟨-, hOld'⟩ := hLookup hSome'
      · exact absurd (h.new hBase hOld).1 hFree
      · exact h.inj hBase hBase' hOld hOld'

end NewOver

theorem apply_of_lookup {ρ : Renaming} {b c : String} (h : ρ.lookup b = some c) : ρ.apply b = c := by
  simp [apply, h]

theorem apply_of_none {ρ : Renaming} {b : String} (h : ρ.lookup b = none) : ρ.apply b = b := by
  simp [apply, h]

end Expr.Renaming

namespace Restructure

open LoopNest.Expr (Renaming)

/-- The names chosen for what is bound somewhere.

    * **used**: names taken at the start are never free;
    * **scalars**, **buffers**: the names are new, and buffers that were given stay;
    * **iterators**, **declared**: what is bound has a name, and nothing else. -/
structure Renamings.Chosen (taken : List String) (given : Renaming) (bound : List Symbol)
    (r : Renamings) : Prop where
  used : taken ⊆ r.names.used
  scalars : Renaming.NewOver [] taken r.names.used r.scalars
  buffers : Renaming.NewOver given taken r.names.used r.buffers
  iterators : ∀ x, (r.scalars.lookup x).isSome ↔ .scalar x ∈ bound
  declared : ∀ b, (r.buffers.lookup b).isSome ↔ (given.lookup b).isSome ∨ .buffer b ∈ bound

theorem isSome_lookup_cons {α : Type} {xs : List (String × α)} {n x : String} {a : α} :
    (List.lookup x ((n, a) :: xs)).isSome ↔ x = n ∨ (xs.lookup x).isSome := by
  by_cases hName : x = n
  · simp [hName]
  · simp [List.lookup_cons, beq_eq_false_iff_ne.mpr hName, hName]

/-- What a statement binds gets a name, unless it has one. -/
theorem Renamings.Chosen.extend {taken : List String} {given : Renaming} {bound : List Symbol}
    {r : Renamings} (h : r.Chosen taken given bound) (u : Stmt) :
    (r.extend u).Chosen taken given (bound ++ u.binder?.toList) := by
  have hReserved : ∀ base, r.names.used ⊆ (r.names.reserve (r.names.choose base)).used :=
    fun base => List.subset_cons_self _ _
  cases u with
  | loop s head body =>
    have hBound : ∀ b, Symbol.buffer b ∈ bound ++ (Stmt.loop s head body).binder?.toList
        ↔ Symbol.buffer b ∈ bound := fun b => by simp [Stmt.binder?]
    unfold Renamings.extend
    dsimp only
    split
    · rename_i hHas
      refine ⟨h.used, h.scalars, h.buffers, fun x => ?_, fun b => by rw [hBound, h.declared]⟩
      rw [h.iterators, List.mem_append, iff_self_or]
      intro hMem
      obtain rfl : x = head.iter := by simpa [Stmt.binder?] using hMem
      exact (h.iterators _).mp hHas
    · rename_i hNone
      refine ⟨List.Subset.trans h.used (hReserved _), ?_, h.buffers.mono (hReserved _), fun x => ?_,
        fun b => by rw [hBound, h.declared]⟩
      · exact h.scalars.cons h.used (Option.not_isSome_iff_eq_none.mp hNone)
          (NameSupply.choose_not_mem _ _)
      · rw [isSome_lookup_cons, h.iterators, List.mem_append, or_comm]
        simp [Stmt.binder?]
  | decl s n b body =>
    have hBound : ∀ x, Symbol.scalar x ∈ bound ++ (Stmt.decl s n b body).binder?.toList
        ↔ Symbol.scalar x ∈ bound := fun x => by simp [Stmt.binder?]
    unfold Renamings.extend
    dsimp only
    split
    · rename_i hHas
      refine ⟨h.used, h.scalars, h.buffers, fun x => by rw [hBound, h.iterators], fun b' => ?_⟩
      rw [h.declared, List.mem_append, ← or_assoc, iff_self_or]
      intro hMem
      obtain rfl : b' = n := by simpa [Stmt.binder?] using hMem
      exact (h.declared _).mp hHas
    · rename_i hNone
      refine ⟨List.Subset.trans h.used (hReserved _), h.scalars.mono (hReserved _), ?_,
        fun x => by rw [hBound, h.iterators], fun b' => ?_⟩
      · exact h.buffers.cons h.used (Option.not_isSome_iff_eq_none.mp hNone)
          (NameSupply.choose_not_mem _ _)
      · rw [isSome_lookup_cons, h.declared, List.mem_append, or_comm, or_assoc]
        simp [Stmt.binder?]
  | _ => simpa [Renamings.extend, Stmt.binder?] using h

theorem Renamings.Chosen.extendAll {taken : List String} {given : Renaming} {bound : List Symbol}
    {r : Renamings} (h : r.Chosen taken given bound) (us : List Stmt) :
    (us.foldl Renamings.extend r).Chosen taken given (bound ++ us.filterMap Stmt.binder?) := by
  induction us generalizing r bound with
  | nil => simpa using h
  | cons u us ih =>
    have hRest := ih (h.extend u)
    rw [List.append_assoc] at hRest
    rw [List.foldl_cons, List.filterMap_cons]
    cases hBinder : u.binder? with
    | none => simpa [hBinder] using hRest
    | some x => simpa [hBinder] using hRest

theorem mem_used_reserveAll {params : List Param} {s : NameSupply} {x : String} :
    x ∈ (params.foldl (fun s p => s.reserve p.name) s).used
      ↔ x ∈ params.map Param.name ∨ x ∈ s.used := by
  induction params generalizing s with
  | nil => simp
  | cons p params ih =>
    rw [List.foldl_cons, ih, NameSupply.mem_used_reserve, List.map_cons, List.mem_cons]
    tauto

/-- **Names of a copy**: everything it binds gets a new name. Names in use and names of parameters
    are not given away. -/
theorem renamings_chosen (used : List String) (params : List Param) (buffers : Renaming)
    (copy : Stmt) :
    (renamings used params buffers copy).Chosen (params.map Param.name ++ used) buffers
      copy.binders := by
  have hStart : Renamings.Chosen (params.map Param.name ++ used) buffers []
      ⟨[], buffers, params.foldl (fun s p => s.reserve p.name) (NameSupply.mk used)⟩ := by
    refine ⟨fun x hx => ?_, .refl _ _ _, .refl _ _ _, fun x => by simp, fun b => by simp⟩
    exact mem_used_reserveAll.mpr (List.mem_append.mp hx)
  simpa [renamings, Stmt.binders] using hStart.extendAll copy.nodes

/-! ## Arguments -/

/-- **Bound arguments**: parameters stand for what they stand for in a call that runs. Every buffer
    that is passed is declared where the call stands. -/
theorem bindArgs_spec {host : String → Option Buffer} {name : String} {writes : List String} :
    ∀ {params : List Param} {args : List Arg} {b b' : Binding}, args.length = params.length →
      bindArgs host name writes b params args = .ok b' →
      b'.buffers = ((params.zip args).filterMap fun x => x.2.buffer?.map (x.1.name, ·)).reverse
          ++ b.buffers
        ∧ b'.values = b.values ++ ((params.zip args).filterMap fun x => x.2.value?.map (x.1.name, ·))
        ∧ ∀ a, .buffer a ∈ args → (host a).isSome := by
  intro params
  induction params with
  | nil =>
    intro args b b' hCount h
    obtain rfl := List.length_eq_zero_iff.mp hCount
    cases h
    simp
  | cons p params ih =>
    intro args b b' hCount h
    cases args with
    | nil => cases hCount
    | cons arg args =>
      have hRest := Nat.succ.inj hCount
      cases arg with
      | buffer a =>
        rw [bindArgs] at h
        split at h
        · cases h
        · rename_i hFit
          obtain ⟨hBuffers, hValues, hHost⟩ := ih hRest h
          refine ⟨by simp [hBuffers, Arg.buffer?], by simp [hValues, Arg.value?], fun c hc => ?_⟩
          rcases List.mem_cons.mp hc with hEq | hc
          · cases hEq
            cases hDeclared : host a with
            | none =>
              rw [hDeclared] at hFit
              cases hFit
            | some _ => rfl
          · exact hHost c hc
      | value e =>
        rw [bindArgs] at h
        split at h
        · obtain ⟨hBuffers, hValues, hHost⟩ := ih hRest h
          refine ⟨by simp [hBuffers, Arg.buffer?], by simp [hValues, Arg.value?], fun c hc => ?_⟩
          exact hHost c (by simpa using hc)
        · cases h

/-! ## The copy -/

/-- What the expressions of a function become in a copy of it. -/
def copied (r : Renamings) (values : List (String × Expr)) (e : Expr) : Expr :=
  Expr.fill values (e.rename r.scalars r.buffers)

/-- An iterator of a copy has a name that was not taken. -/
theorem Renamings.Chosen.not_mem_of_translated {taken : List String} {given : Renaming} {t t' : Stmt}
    {r : Renamings} (h : r.Chosen taken given t.binders) {φ : Expr → Expr}
    (hTranslated : t.Translated r.scalars.apply r.buffers.apply φ t') {y : String}
    (hy : .scalar y ∈ t'.binders) : y ∉ taken := by
  rw [(hTranslated []).binders_eq] at hy
  obtain ⟨x | b, hx, hEq⟩ := List.mem_map.mp hy
  · obtain ⟨c, hc⟩ := Option.isSome_iff_exists.mp ((h.iterators x).mpr hx)
    obtain rfl : c = y := by simpa [Symbol.through, Renaming.apply_of_lookup hc] using hEq
    exact (h.scalars.new rfl hc).2
  · cases hEq

/-- **The copy** of a function is its body translated, along new names. -/
theorem translated_privateCopy {host copy : Stmt} {next next' : Nat} {f : Function} {b : Binding}
    {front : String} (hCopy : privateCopy host next f b front = (copy, next'))
    (hValues : ∀ x ∈ b.values.map Prod.fst, x ∈ f.params.map Param.name) :
    ∃ r : Renamings, r.Chosen (f.params.map Param.name ++ host.usedNames) b.buffers f.body.binders
      ∧ f.body.Translated r.scalars.apply r.buffers.apply (copied r b.values) copy
      ∧ copy.phrases = f.body.phrases.map (List.map (copied r b.values)) := by
  have hPlain := Stmt.rephrased_copyFrom f.body next
  have hChosen := renamings_chosen host.usedNames f.params b.buffers (f.body.copyFrom next).1
  rw [hPlain.binders_eq] at hChosen
  refine ⟨_, hChosen, ?_⟩
  generalize hNames : renamings host.usedNames f.params b.buffers (f.body.copyFrom next).1 = r
    at hChosen ⊢
  have hRenamed := Stmt.translated_rename r.scalars r.buffers (f.body.copyFrom next).1
  -- no loop of the renamed copy binds a parameter, because the names are new
  have hFree : ∀ x ∈ b.values.map Prod.fst,
      .scalar x ∉ ((f.body.copyFrom next).1.rename r.scalars r.buffers).binders := fun x hx hMem =>
    hChosen.not_mem_of_translated (hPlain.trans hRenamed) hMem (List.mem_append_left _ (hValues x hx))
  have hLabelled : (privateCopy host next f b front).1 = copy := by rw [hCopy]
  subst hNames
  rw [← hLabelled]
  refine ⟨((hPlain.trans hRenamed).trans (Stmt.rephrased_putValues hFree)).trans
    (Stmt.rephrased_relabel _ _), ?_⟩
  rw [privateCopy, Stmt.phrases_relabel, Stmt.phrases_putValues hFree, Stmt.phrases_rename,
    Stmt.phrases_copyFrom, List.map_map]
  simp [Function.comp_def, copied]

/-! ## What stands for each other -/

/-- What stands for each other in a function and in a copy of it: names that are chosen, and
    expressions whose names are known, chosen, or those of parameters with a value. -/
def copying (r : Renamings) (values : List (String × Expr)) : Dictionary where
  expr known e e' := e' = copied r values e
    ∧ (∀ x, .var x ∈ e.parts → x ∈ known ∨ x ∈ values.map Prod.fst)
    ∧ ∀ b is, .load b is ∈ e.parts →
      (r.buffers.lookup b).isSome ∨ b ∈ values.map Prod.fst ∧ is = []
  iter x x' := r.scalars.lookup x = some x'
  buffer b b' := r.buffers.lookup b = some b'

theorem admits_of_within {v : Vocabulary} {e : Expr} (h : e.within v = true) :
    (∀ x, .var x ∈ e.parts → x ∈ v.scalars)
      ∧ ∀ b is, .load b is ∈ e.parts → b ∈ v.buffers ∨ b ∈ v.cells ∧ is = [] := by
  rw [Expr.within, List.all_eq_true] at h
  refine ⟨fun x hx => ?_, fun b is hb => ?_⟩
  · simpa [Vocabulary.admits] using h _ hx
  · simpa [Vocabulary.admits] using h _ hb

/-- Lists that are related place by place in another way, too. -/
theorem forall₂_of_mem {α β : Type} {P Q : α → β → Prop} {as : List α} {bs : List β}
    (h : List.Forall₂ P as bs) (hImp : ∀ a ∈ as, ∀ b, P a b → Q a b) : List.Forall₂ Q as bs := by
  induction h with
  | nil => exact .nil
  | cons hHead _ ih =>
    exact .cons (hImp _ List.mem_cons_self _ hHead)
      (ih fun a ha => hImp a (List.mem_cons_of_mem _ ha))

/-- A translation that keeps to its names is a copy along them. -/
theorem copyOf_copying {r : Renamings} {values : List (String × Expr)} {known : List String}
    {v : Vocabulary} {t t' : Stmt}
    (h : Stmt.CopyOf (.along r.scalars.apply r.buffers.apply (copied r values)) known t t')
    (hWithin : t.within v = true) (hScalars : ∀ x ∈ v.scalars, x ∈ known ∨ x ∈ values.map Prod.fst)
    (hCells : ∀ b ∈ v.cells, b ∈ values.map Prod.fst)
    (hBuffers : ∀ b ∈ v.buffers, (r.buffers.lookup b).isSome)
    (hIterators : ∀ x, .scalar x ∈ t.binders → (r.scalars.lookup x).isSome)
    (hDeclared : ∀ b, .buffer b ∈ t.binders → (r.buffers.lookup b).isSome) :
    Stmt.CopyOf (copying r values) known t t' := by
  have hChosen : ∀ {ρ : Renaming} {n n' : String}, (ρ.lookup n).isSome → n' = ρ.apply n →
      ρ.lookup n = some n' := by
    intro ρ n n' hSome hName
    obtain ⟨c, hc⟩ := Option.isSome_iff_exists.mp hSome
    rw [hName, Renaming.apply_of_lookup hc, hc]
  have hExpr : ∀ {v : Vocabulary} {known : List String} {e e' : Expr}, e.within v = true →
      (∀ x ∈ v.scalars, x ∈ known ∨ x ∈ values.map Prod.fst) →
      (∀ b ∈ v.cells, b ∈ values.map Prod.fst) → (∀ b ∈ v.buffers, (r.buffers.lookup b).isSome) →
      e' = copied r values e → (copying r values).expr known e e' := by
    intro v known e e' hWithin hScalars hCells hBuffers hCopied
    obtain ⟨hVars, hLoads⟩ := admits_of_within hWithin
    refine ⟨hCopied, fun x hx => hScalars x (hVars x hx), fun b is hb => ?_⟩
    exact (hLoads b is hb).imp (hBuffers b) fun hCell => ⟨hCells b hCell.1, hCell.2⟩
  induction h generalizing v with
  | @decl _ _ _ n n' b b' body body' name access _ ih =>
    have hName : (r.buffers.lookup n).isSome := hDeclared n (by simp)
    refine .decl (hChosen hName name) access (ih hWithin hScalars hCells ?_ ?_ ?_)
    · intro c hc
      rcases List.mem_cons.mp hc with rfl | hc
      · exact hName
      · exact hBuffers c hc
    · exact fun x hx => hIterators x (by simp [hx])
    · exact fun c hc => hDeclared c (by simp [hc])
  | @loop _ _ _ head head' body body' iter lower upper _ ih =>
    rw [Stmt.within, Bool.and_eq_true, Bool.and_eq_true] at hWithin
    obtain ⟨⟨hLower, hUpper⟩, hBody⟩ := hWithin
    refine .loop (hChosen (hIterators _ (by simp)) iter)
      (hExpr hLower hScalars hCells hBuffers lower) (hExpr hUpper hScalars hCells hBuffers upper)
      (ih hBody (fun x hx => ?_) hCells hBuffers ?_ ?_)
    · rcases List.mem_cons.mp hx with rfl | hx
      · exact .inl List.mem_cons_self
      · exact (hScalars x hx).imp_left (List.mem_cons_of_mem _)
    · exact fun x hx => hIterators x (by simp [hx])
    · exact fun c hc => hDeclared c (by simpa using hc)
  | guard cond _ ih =>
    rw [Stmt.within, Bool.and_eq_true] at hWithin
    refine .guard (hExpr hWithin.1 hScalars hCells hBuffers cond)
      (ih hWithin.2 hScalars hCells hBuffers ?_ ?_)
    · exact fun x hx => hIterators x (by simpa using hx)
    · exact fun c hc => hDeclared c (by simpa using hc)
  | branch cond _ _ ihYes ihNo =>
    rw [Stmt.within, Bool.and_eq_true, Bool.and_eq_true] at hWithin
    obtain ⟨⟨hCond, hYes⟩, hNo⟩ := hWithin
    refine .branch (hExpr hCond hScalars hCells hBuffers cond)
      (ihYes hYes hScalars hCells hBuffers ?_ ?_) (ihNo hNo hScalars hCells hBuffers ?_ ?_)
    · exact fun x hx => hIterators x (by simp [hx])
    · exact fun c hc => hDeclared c (by simp [hc])
    · exact fun x hx => hIterators x (by simp [hx])
    · exact fun c hc => hDeclared c (by simp [hc])
  | store name indices value =>
    rw [Stmt.within, Bool.and_eq_true, Bool.and_eq_true] at hWithin
    obtain ⟨⟨hName, hIndices⟩, hValue⟩ := hWithin
    refine .store (hChosen (hBuffers _ (by simpa using hName)) name)
      (forall₂_of_mem indices fun i hi i' hCopied => ?_)
      (hExpr hValue hScalars hCells hBuffers value)
    exact hExpr (List.all_eq_true.mp hIndices i hi) hScalars hCells hBuffers hCopied
  | call each =>
    refine .call (forall₂_of_mem each fun arg hArg arg' hCopied => ?_)
    have hArgWithin := List.all_eq_true.mp hWithin arg hArg
    cases arg <;> cases arg'
    · exact hChosen (hBuffers _ (by simpa [Stmt.argWithin] using hArgWithin)) hCopied
    · exact hCopied.elim
    · exact hCopied.elim
    · exact hExpr hArgWithin hScalars hCells hBuffers hCopied
  | nil => exact .nil
  | cons _ _ ihHead ihTail =>
    rw [Stmt.within, Stmt.withinAll, Bool.and_eq_true] at hWithin
    refine .cons (ihHead hWithin.1 hScalars hCells hBuffers ?_ ?_)
      (ihTail hWithin.2 hScalars hCells hBuffers ?_ ?_)
    all_goals simp only [Stmt.binders_block, List.flatMap_cons, List.mem_append] at hIterators hDeclared ⊢
    · exact fun x hx => hIterators x (.inl hx)
    · exact fun c hc => hDeclared c (.inl hc)
    · exact fun x hx => hIterators x (.inr hx)
    · exact fun c hc => hDeclared c (.inr hc)
  | hole => exact .hole
  | given pair => exact pair.elim

/-! ## States in step -/

/-- Whether a value reads a buffer. -/
def readBy (values : List (String × Expr)) (b : String) : Bool := values.any fun v => v.2.reads b

theorem readBy_iff {values : List (String × Expr)} {b : String} :
    readBy values b = true ↔ ∃ v ∈ values, b ∈ v.2.buffers := by
  simp [readBy, Expr.reads]

/-- A memory in which the buffers keep their contents that the values read. -/
abbrev steadily (values : List (String × Expr)) : View Memory := View.whole.frozen (readBy values)

/-- The names of a caller, a function and its copy, and what they have in common.

    * **chosen**: names that were not taken are chosen for the copy;
    * **outer**, **params**, **scalars**, **loads**: names of the caller's buffers, of parameters with
      a value and in the values were taken;
    * **order**: no value is put into another one;
    * **inside**, **passed**: what the function binds and the buffers passed have nothing to do with
      parameters with a value, and the buffers are the caller's. -/
structure Separated (outerNames taken : List String) (aliases : Renaming)
    (values : List (String × Expr)) (bound : List Symbol) (r : Renamings) : Prop where
  chosen : r.Chosen taken aliases bound
  outer : outerNames ⊆ taken
  params : ∀ x ∈ values.map Prod.fst, x ∈ taken
  scalars : ∀ v ∈ values, ∀ x ∈ v.2.scalars, x ∈ taken
  loads : ∀ v ∈ values, ∀ b ∈ v.2.buffers, b ∈ outerNames
  order : InOrder values
  inside : ∀ x, .scalar x ∈ bound → x ∉ values.map Prod.fst
  passed : ∀ {b a}, aliases.lookup b = some a → a ∈ outerNames ∧ a ∉ values.map Prod.fst

/-- The memory of a copy is in step with what the function sees.

    * **outer**: the buffers of the caller are the same;
    * **own**: a buffer of the function has in the copy at least the contents that it has;
    * **cells**: all other buffers of the function hold what they held on entry;
    * **steady**: the buffers that the values read hold what they held on entry. -/
structure InStep (outerNames : List String) (aliases : Renaming) (values : List (String × Expr))
    (entries : List (String × Int)) (entry : Memory) (r : Renamings) (x : Memory × Memory)
    (m : Memory) : Prop where
  outer : ∀ b ∈ outerNames, m b = x.1 b
  own : ∀ {b c}, aliases.lookup b = none → r.buffers.lookup b = some c →
    ∀ is v, x.2 b is = some v → m c is = some v
  cells : ∀ {b}, r.buffers.lookup b = none → x.2 b = Memory.entry entries b
  steady : ∀ b, readBy values b = true → m b = entry b

/-- The environment of a copy agrees with that of the function.

    * **iterators**: iterators have the same value;
    * **values**: a parameter has the value that its argument has, as long as what the arguments read
      is what it was on entry. -/
structure Agrees (values : List (String × Expr)) (entries : List (String × Int)) (entry : Memory)
    (r : Renamings) (known : List String) (env env' : Env) : Prop where
  iterators : ∀ x ∈ known, ∃ y, r.scalars.lookup x = some y ∧ env' y = env x
  values : ∀ {x e}, values.lookup x = some e →
    ∃ v, env x = v ∧ entries.lookup x = some v
      ∧ ∀ m, (∀ b, readBy values b = true → m b = entry b) → e.value? env' m = some v

section separated

variable {outerNames taken : List String} {aliases : Renaming} {values : List (String × Expr)}
  {bound : List Symbol} {r : Renamings} {entries : List (String × Int)} {entry : Memory}

theorem mem_of_lookup {α : Type} {xs : List (String × α)} {x : String} {a : α}
    (h : xs.lookup x = some a) : (x, a) ∈ xs := by
  obtain ⟨first, last, hSplit, -⟩ := List.lookup_eq_some_iff.mp h
  simp [hSplit]

theorem exists_lookup_of_mem {α : Type} {xs : List (String × α)} {x : String}
    (h : x ∈ xs.map Prod.fst) : ∃ a, xs.lookup x = some a := by
  induction xs with
  | nil => cases h
  | cons y xs ih =>
    rw [← Option.isSome_iff_exists, isSome_lookup_cons]
    rcases List.mem_cons.mp h with rfl | h
    · exact .inl rfl
    · exact .inr (Option.isSome_iff_exists.mpr (ih h))

/-- The name of a chosen buffer is not that of a parameter with a value. -/
theorem Separated.not_mem_of_chosen (h : Separated outerNames taken aliases values bound r)
    {b c : String} (hc : r.buffers.lookup b = some c) : c ∉ values.map Prod.fst := by
  cases hAlias : aliases.lookup b with
  | none => exact fun hMem => (h.chosen.buffers.new hAlias hc).2 (h.params c hMem)
  | some a =>
    rw [h.chosen.buffers.given hAlias] at hc
    cases hc
    exact (h.passed hAlias).2

/-- What a function sees of a chosen buffer, the copy has. -/
theorem InStep.seen {x : Memory × Memory} {m : Memory} (hStep : InStep outerNames aliases values entries entry r x m)
    (h : Separated outerNames taken aliases values bound r) {b c : String}
    (hc : r.buffers.lookup b = some c) {is : List Int} {v : Int}
    (hSeen : ((steadily values).callee aliases).seen x b is = some v) : m c is = some v := by
  cases hAlias : aliases.lookup b with
  | none =>
    rw [View.callee_seen_of_none hAlias] at hSeen
    exact hStep.own hAlias hc is v hSeen
  | some a =>
    rw [View.callee_seen_of_some hAlias] at hSeen
    rw [h.chosen.buffers.given hAlias] at hc
    cases hc
    rw [hStep.outer c (h.passed hAlias).1]
    exact hSeen

theorem values?_copied {env env' : Env} {m m' : Memory} {φ : Expr → Expr} {es : List Expr}
    (h : ∀ e ∈ es, ∀ v, e.value? env m = some v → (φ e).value? env' m' = some v) {vs : List Int}
    (hValues : Expr.values? env m es = some vs) : Expr.values? env' m' (es.map φ) = some vs := by
  induction es generalizing vs with
  | nil => exact hValues
  | cons e es ih =>
    simp only [Expr.values?, Option.bind_eq_bind, Option.bind_eq_some_iff, List.map_cons] at hValues ⊢
    obtain ⟨v, hv, ws, hws, hResult⟩ := hValues
    exact ⟨v, h e List.mem_cons_self v hv, ws, ih (fun i hi => h i (List.mem_cons_of_mem e hi)) hws,
      hResult⟩

/-- **Expressions**: what an expression is worth in a function it is worth in the copy. -/
theorem Separated.value_copied (h : Separated outerNames taken aliases values bound r)
    {known : List String} {env env' : Env} (hAgrees : Agrees values entries entry r known env env')
    {x : Memory × Memory} {m : Memory} (hStep : InStep outerNames aliases values entries entry r x m) :
    ∀ {e : Expr}, (∀ y, .var y ∈ e.parts → y ∈ known ∨ y ∈ values.map Prod.fst) →
      (∀ b is, .load b is ∈ e.parts →
        (r.buffers.lookup b).isSome ∨ b ∈ values.map Prod.fst ∧ is = []) →
      ∀ v, e.value? env (((steadily values).callee aliases).seen x) = some v →
        (copied r values e).value? env' m = some v := by
  have hSelf : ∀ {e : Expr}, (∀ x ∈ e.scalars, x ∉ values.map Prod.fst) → e.buffers = [] →
      Expr.fill values e = e :=
    fun hScalars hBuffers => Expr.fill_eq_self hScalars (by simp [hBuffers])
  refine @Expr.ind _ ?int ?float ?bool ?var ?load ?unary ?binary
  case int =>
    intro n _ _ v hValue
    have hCopied : copied r values (.int n) = .int n := hSelf (e := .int n) (by simp) rfl
    rw [hCopied]
    exact hValue
  case float =>
    intro n _ _ v hValue
    cases hValue
  case bool =>
    intro n _ _ v hValue
    have hCopied : copied r values (.bool n) = .bool n := hSelf (e := .bool n) (by simp) rfl
    rw [hCopied]
    exact hValue
  case var =>
    intro y hVars _ v hValue
    cases hValue
    rw [copied, Expr.rename]
    rcases hVars y (Expr.self_mem_parts _) with hKnown | hParam
    · obtain ⟨z, hz, hEnv⟩ := hAgrees.iterators y hKnown
      have hNew : z ∉ values.map Prod.fst :=
        fun hMem => (h.chosen.scalars.new rfl hz).2 (h.params z hMem)
      rw [Renaming.apply_of_lookup hz, hSelf (by simpa using hNew) rfl, Expr.value?, hEnv]
    · have hNone : r.scalars.lookup y = none := by
        rw [← Option.not_isSome_iff_eq_none, h.chosen.iterators]
        exact fun hMem => h.inside y hMem hParam
      obtain ⟨e, he⟩ := exists_lookup_of_mem hParam
      obtain ⟨w, rfl, -, hAlways⟩ := hAgrees.values he
      rw [Renaming.apply_of_none hNone, Expr.fill_var h.order he]
      exact hAlways m hStep.steady
  case load =>
    intro b is ih hVars hLoads v hValue
    simp only [Expr.value?, Option.bind_eq_bind, Option.bind_eq_some_iff] at hValue
    obtain ⟨cell, hCell, hSeen⟩ := hValue
    rw [copied, Expr.rename, Expr.renameAll_eq_map]
    cases hName : r.buffers.lookup b with
    | some c =>
      rw [Renaming.apply_of_lookup hName, Expr.fill_load (h.not_mem_of_chosen hName), List.map_map]
      have hSubscripts := values?_copied (φ := copied r values) (fun i hi =>
        ih i hi (fun y hy => hVars y (Expr.mem_parts_load hi hy))
          fun c js hc => hLoads c js (Expr.mem_parts_load hi hc)) hCell
      exact Option.bind_eq_some_iff.mpr ⟨cell, hSubscripts, hStep.seen h hName hSeen⟩
    | none =>
      -- a parameter with a value, read as a cell
      obtain hChosen | ⟨hParam, rfl⟩ := hLoads b is (Expr.self_mem_parts _)
      · rw [hName] at hChosen
        cases hChosen
      · cases hCell
        have hAlias : aliases.lookup b = none := by
          cases hAlias : aliases.lookup b with
          | none => rfl
          | some a =>
            rw [h.chosen.buffers.given hAlias] at hName
            cases hName
        obtain ⟨e, he⟩ := exists_lookup_of_mem hParam
        obtain ⟨w, -, hEntry, hAlways⟩ := hAgrees.values he
        rw [View.callee_seen_of_none hAlias, hStep.cells hName, Memory.entry, if_pos rfl, hEntry]
          at hSeen
        cases hSeen
        rw [Renaming.apply_of_none hName, List.map_nil, Expr.fill_cell h.order he]
        exact hAlways m hStep.steady
  case unary =>
    intro op e ih hVars hLoads v hValue
    simp only [Expr.value?, Option.bind_eq_bind, Option.bind_eq_some_iff] at hValue
    obtain ⟨w, hw, hResult⟩ := hValue
    rw [copied, Expr.rename, Expr.fill_unary]
    exact Option.bind_eq_some_iff.mpr ⟨w, ih (fun y hy => hVars y (Expr.mem_parts_unary hy))
      (fun c js hc => hLoads c js (Expr.mem_parts_unary hc)) w hw, hResult⟩
  case binary =>
    intro op a b iha ihb hVars hLoads v hValue
    simp only [Expr.value?, Option.bind_eq_bind, Option.bind_eq_some_iff] at hValue
    obtain ⟨u, hu, w, hw, hResult⟩ := hValue
    rw [copied, Expr.rename, Expr.fill_binary]
    have hLeft := iha (fun y hy => hVars y (Expr.mem_parts_left hy))
      (fun c js hc => hLoads c js (Expr.mem_parts_left hc)) u hu
    have hRight := ihb (fun y hy => hVars y (Expr.mem_parts_right hy))
      (fun c js hc => hLoads c js (Expr.mem_parts_right hc)) w hw
    exact Option.bind_eq_some_iff.mpr ⟨u, hLeft, Option.bind_eq_some_iff.mpr ⟨w, hRight, hResult⟩⟩

/-- A buffer that got a new name is not read by the values. -/
theorem Separated.not_readBy (h : Separated outerNames taken aliases values bound r) {b c : String}
    (hAlias : aliases.lookup b = none) (hc : r.buffers.lookup b = some c) :
    readBy values c = false := by
  rw [← Bool.not_eq_true, readBy_iff]
  rintro ⟨v, hv, hLoad⟩
  exact (h.chosen.buffers.new hAlias hc).2 (h.outer (h.loads v hv c hLoad))

/-- **Changes of buffers** keep the memories in step. -/
theorem InStep.exchange {x : Memory × Memory} {m : Memory}
    (hStep : InStep outerNames aliases values entries entry r x m)
    (h : Separated outerNames taken aliases values bound r) {b c : String}
    (hc : r.buffers.lookup b = some c) {cells cells' : Cells}
    (hCells : ∀ is v, cells is = some v → cells' is = some v)
    (hPassed : aliases.lookup b = some c → cells' = cells) :
    InStep outerNames aliases values entries entry r
      (((steadily values).callee aliases).exchange x b cells)
      ((steadily values).exchange m c cells') := by
  obtain ⟨s, own⟩ := x
  have hSteady : readBy values c = false → ∀ n, readBy values n = true →
      m.exchange c cells' n = entry n := by
    intro hOpen n hn
    have hOther : n ≠ c := by
      rintro rfl
      rw [hOpen] at hn
      cases hn
    rw [Memory.exchange_ne hOther]
    exact hStep.steady n hn
  cases hAlias : aliases.lookup b with
  | some a =>
    obtain rfl : a = c := by simpa [h.chosen.buffers.given hAlias] using hc
    obtain rfl := hPassed hAlias
    rw [View.callee_exchange_of_some hAlias]
    cases hRead : readBy values a with
    | true =>
      rw [View.frozen_exchange_of_kept hRead, View.frozen_exchange_of_kept hRead]
      exact hStep
    | false =>
      rw [View.frozen_exchange_of_not_kept hRead, View.frozen_exchange_of_not_kept hRead]
      refine ⟨fun n hn => ?_, fun {n d} hNone hd is v hOwn => ?_, hStep.cells, hSteady hRead⟩
      · by_cases hName : n = a
        · subst hName
          simp
        · simp [hName, hStep.outer n hn]
      · have hOther : d ≠ a := by
          rintro rfl
          exact (h.chosen.buffers.new hNone hd).2 (h.outer (h.passed hAlias).1)
        rw [View.whole_exchange, Memory.exchange_ne hOther]
        exact hStep.own hNone hd is v hOwn
  | none =>
    have hNew := h.chosen.buffers.new hAlias hc
    have hRead := h.not_readBy hAlias hc
    rw [View.callee_exchange_of_none hAlias, View.frozen_exchange_of_not_kept hRead]
    refine ⟨fun n hn => ?_, fun {n d} hNone hd is v hOwn => ?_, fun {n} hNone => ?_, hSteady hRead⟩
    · have hOther : n ≠ c := by
        rintro rfl
        exact hNew.2 (h.outer hn)
      rw [View.whole_exchange, Memory.exchange_ne hOther]
      exact hStep.outer n hn
    · by_cases hName : n = b
      · subst hName
        obtain rfl : c = d := by simpa [hc] using hd
        simp only [View.whole_exchange, Memory.exchange_self] at hOwn ⊢
        exact hCells is v hOwn
      · have hOther : d ≠ c := by
          rintro rfl
          exact hName (h.chosen.buffers.inj hNone hAlias hd hc)
        simp only [Memory.exchange_ne hName] at hOwn
        rw [View.whole_exchange, Memory.exchange_ne hOther]
        exact hStep.own hNone hd is v hOwn
    · have hOther : n ≠ b := by
        rintro rfl
        rw [hc] at hNone
        cases hNone
      simp only [Memory.exchange_ne hOther]
      exact hStep.cells hNone

/-- **Iterators** that get the same value keep the environments in agreement. -/
theorem Agrees.set {known : List String} {env env' : Env}
    (hAgrees : Agrees values entries entry r known env env')
    (h : Separated outerNames taken aliases values bound r) {x y : String}
    (hy : r.scalars.lookup x = some y) (v : Int) :
    Agrees values entries entry r (x :: known) (env.set x v) (env'.set y v) := by
  have hNew := h.chosen.scalars.new rfl hy
  have hBound := (h.chosen.iterators x).mp (Option.isSome_iff_exists.mpr ⟨y, hy⟩)
  refine ⟨fun z hz => ?_, fun {z e} he => ?_⟩
  · by_cases hName : z = x
    · subst hName
      exact ⟨y, hy, by simp⟩
    · obtain ⟨w, hw, hEnv⟩ := hAgrees.iterators z ((List.mem_cons.mp hz).resolve_left hName)
      have hOther : w ≠ y := by
        rintro rfl
        exact hName (h.chosen.scalars.inj rfl rfl hw hy)
      exact ⟨w, hw, by rw [Env.set_ne hOther, Env.set_ne hName, hEnv]⟩
  · obtain ⟨w, hEnv, hEntry, hAlways⟩ := hAgrees.values he
    have hMem := mem_of_lookup he
    have hParam : z ≠ x := by
      rintro rfl
      exact h.inside _ hBound (List.mem_map_of_mem hMem)
    refine ⟨w, by rw [Env.set_ne hParam, hEnv], hEntry, fun m hm => ?_⟩
    -- the values do not mention the new name
    rw [← hAlways m hm, ← Expr.valueWith?_reference .blank, ← Expr.valueWith?_reference .blank]
    refine Expr.valueWith?_congr_names (fun u hu => ?_) fun _ _ => rfl
    have hOther : u ≠ y := by
      rintro rfl
      exact hNew.2 (h.scalars _ hMem _ hu)
    exact Env.set_ne hOther

/-- **A private copy is right** about expressions, iterators and buffers. -/
theorem sound_copying (entries : List (String × Int)) (entry : Memory)
    (h : Separated outerNames taken aliases values bound r) :
    (copying r values).Sound ((steadily values).callee aliases) (steadily values)
      (InStep outerNames aliases values entries entry r) (Agrees values entries entry r) where
  value hAgrees hStep hExpr hValue := by
    obtain ⟨rfl, hVars, hLoads⟩ := hExpr
    exact h.value_copied hAgrees hStep hVars hLoads _ hValue
  iterate v hAgrees hIter := hAgrees.set h hIter v
  seen hStep hBuffer hSeen := hStep.seen h hBuffer hSeen
  exchange cells hStep hBuffer := hStep.exchange h hBuffer (fun _ _ hCell => hCell) fun _ => rfl
  put is v hStep hBuffer := by
    refine hStep.exchange h hBuffer (fun js w hCell => ?_) fun hAlias => ?_
    · unfold Cells.put at hCell ⊢
      split
      · rename_i hHere
        rwa [if_pos hHere] at hCell
      · rename_i hElsewhere
        rw [if_neg hElsewhere] at hCell
        exact hStep.seen h hBuffer hCell
    · rw [View.callee_seen_of_some hAlias]
      exact congrArg (Cells.put · is v) (hStep.outer _ (h.passed hAlias).1)
  restore hOld hStep hBuffer := by
    refine hStep.exchange h hBuffer (fun js w hCell => hOld.seen h hBuffer hCell) fun hAlias => ?_
    rw [View.callee_seen_of_some hAlias]
    exact hOld.outer _ (h.passed hAlias).1

end separated

/-! ## A call and a copy -/

theorem mem_params_of_passed {f : Function} {args : List Arg} {x : String}
    (h : x ∈ (f.passed args).map Prod.fst) : x ∈ f.params.map Param.name := by
  obtain ⟨v, hv, rfl⟩ := List.mem_map.mp h
  obtain ⟨⟨p, arg⟩, hPair, hValue⟩ := List.mem_filterMap.mp hv
  obtain ⟨e, -, rfl⟩ := Option.map_eq_some_iff.mp hValue
  exact List.mem_map_of_mem (List.of_mem_zip hPair).1

/-- Every value that is passed has been evaluated. -/
theorem lookup_zip_values {values : List (String × Expr)} {env : Env} {m : Memory} {vs : List Int}
    (hValues : Expr.values? env m (values.map Prod.snd) = some vs) {x : String} {e : Expr}
    (h : values.lookup x = some e) :
    ∃ v, ((values.map Prod.fst).zip vs).lookup x = some v ∧ e.value? env m = some v := by
  induction values generalizing vs with
  | nil => cases h
  | cons y values ih =>
    obtain ⟨y, w⟩ := y
    simp only [List.map_cons, Expr.values?, Option.bind_eq_bind, Option.bind_eq_some_iff,
      Option.pure_def] at hValues
    obtain ⟨v, hv, ws, hws, hResult⟩ := hValues
    cases hResult
    by_cases hName : x = y
    · subst hName
      obtain rfl : w = e := by simpa using h
      exact ⟨v, by simp, hv⟩
    · rw [List.lookup_cons, beq_eq_false_iff_ne.mpr hName] at h
      obtain ⟨u, hu, hValue⟩ := ih hws h
      refine ⟨u, ?_, hValue⟩
      rw [List.map_cons, List.zip_cons_cons, List.lookup_cons, beq_eq_false_iff_ne.mpr hName]
      exact hu

theorem mem_of_lookup_zip {names : List String} {vs : List Int} {x : String} {v : Int}
    (h : (names.zip vs).lookup x = some v) : x ∈ names :=
  (List.of_mem_zip (mem_of_lookup h)).1

variable {outerNames : List String} {host copy : Stmt} {next next' : Nat} {f : Function}
  {args : List Arg} {b : Binding} {front : String} {r : Renamings}

/-- Names that are apart stay so in a steady call. -/
theorem Expansion.Apart.steady {e : Expansion} (h : e.Apart) (registry : Registry) :
    e.Steady registry where
  outside := h.outside
  inside := h.inside
  order := by
    refine ⟨fun v hv => by simp [h.pure v hv], List.pairwise_of_forall_mem_list fun v hv w hw => ?_⟩
    exact ⟨fun hx => h.scalars v hv _ hx (List.mem_map_of_mem hw), by simp [h.pure v hv]⟩
  buffers := h.buffers
  unwritten v hv b hb := by
    rw [h.pure v hv] at hb
    cases hb

/-- The names around an expansion are separated. -/
theorem Expansion.Steady.separated {registry : Registry} (hSteady : (⟨f, args⟩ : Expansion).Steady registry)
    (hChosen : r.Chosen (f.params.map Param.name ++ host.usedNames) (f.aliases args) f.body.binders)
    (hOuter : outerNames ⊆ host.usedNames) (hPassed : ∀ a ∈ f.aliases args, a.2 ∈ outerNames)
    (hScalars : ∀ v ∈ f.passed args, ∀ x ∈ v.2.scalars, x ∈ host.usedNames)
    (hLoads : ∀ v ∈ f.passed args, ∀ b ∈ v.2.buffers, b ∈ outerNames) :
    Separated outerNames (f.params.map Param.name ++ host.usedNames) (f.aliases args) (f.passed args)
      f.body.binders r where
  chosen := hChosen
  outer := List.Subset.trans hOuter (List.subset_append_right _ _)
  params _ hx := List.mem_append_left _ (mem_params_of_passed hx)
  scalars v hv x hx := List.mem_append_right _ (hScalars v hv x hx)
  loads := hLoads
  order := hSteady.order
  inside _ hBound hx := hSteady.inside _ hBound (mem_params_of_passed hx)
  passed hAlias := ⟨hPassed _ (mem_of_lookup hAlias), hSteady.buffers _ (mem_of_lookup hAlias)⟩

/-- A private copy starts in step with the function. -/
theorem Separated.start (h : Separated outerNames (f.params.map Param.name ++ host.usedNames)
      (f.aliases args) (f.passed args) f.body.binders r)
    (hInside : ∀ x ∈ f.body.binders, x.name ∉ f.params.map Param.name) {vs : List Int} {s m : Memory}
    (hOuter : ∀ b ∈ outerNames, m b = s b) :
    InStep outerNames (f.aliases args) (f.passed args) (((f.passed args).map Prod.fst).zip vs) s r
      (s, .entry (((f.passed args).map Prod.fst).zip vs)) m where
  outer := hOuter
  own {b c} hAlias hc is v hEntry := by
    -- only parameters hold something on entry, and those are not declared inside
    dsimp only [Memory.entry] at hEntry
    split at hEntry
    · have hParam := mem_params_of_passed (mem_of_lookup_zip hEntry)
      have hDeclared : Symbol.buffer b ∈ f.body.binders := by
        have hSome := (h.chosen.declared b).mp (Option.isSome_iff_exists.mpr ⟨c, hc⟩)
        simpa [hAlias] using hSome
      exact absurd hParam (hInside _ hDeclared)
    · cases hEntry
  cells _ := rfl
  steady b hb := by
    obtain ⟨v, hv, hLoad⟩ := readBy_iff.mp hb
    exact hOuter b (h.loads v hv b hLoad)

/-- What a copy writes stands for something that the function writes. -/
theorem exists_writes_of_copyOf {registry : Registry} {values : List (String × Expr)}
    {known : List String} {t t' : Stmt} (h : Stmt.CopyOf (copying r values) known t t') {c : String}
    (hWrites : registry.Writes t' c) : ∃ n, r.buffers.lookup n = some c ∧ registry.Writes t n := by
  cases hWrites with
  | @here _ u' _ hMem hOwn =>
    obtain ⟨u, hu, known', hCopy⟩ := h.exists_node (fun _ _ => not_false) hMem
    cases hCopy with
    | decl name _ _ =>
      cases hOwn
      exact ⟨_, name, .here hu rfl⟩
    | store name _ _ =>
      cases hOwn
      exact ⟨_, name, .here hu rfl⟩
    | given pair => exact pair.elim
    | _ => cases hOwn
  | inside hMem hFunction hPassed hBelow =>
    obtain ⟨u, hu, known', hCopy⟩ := h.exists_node (fun _ _ => not_false) hMem
    cases hCopy with
    | call each =>
      obtain ⟨-, hNone⟩ | ⟨n, n', hAlias, hAlias', hName⟩ :=
        (Dictionary.aliases_paired _ each).lookup _
      · rw [hNone] at hPassed
        cases hPassed
      · rw [hAlias'] at hPassed
        cases hPassed
        exact ⟨n, hName, .inside hu hFunction hAlias hBelow⟩
    | given pair => exact pair.elim

/-- A copy does not write what the values read when the function does not. -/
theorem Separated.not_writes {taken : List String} {aliases : Renaming} {values : List (String × Expr)}
    {bound : List Symbol} (h : Separated outerNames taken aliases values bound r) {registry : Registry}
    {t t' : Stmt} (hCopied : Stmt.CopyOf (copying r values) [] t t')
    (hUnwritten : ∀ p a, aliases.lookup p = some a → readBy values a = true → ¬ registry.Writes t p)
    (c : String) (hc : readBy values c = true) : ¬ registry.Writes t' c := by
  intro hCopyWrites
  obtain ⟨n, hn, hWrites⟩ := exists_writes_of_copyOf hCopied hCopyWrites
  cases hAlias : aliases.lookup n with
  | some a =>
    obtain rfl : a = c := by simpa [h.chosen.buffers.given hAlias] using hn
    exact hUnwritten n a hAlias hc hWrites
  | none =>
    rw [h.not_readBy hAlias hn] at hc
    cases hc

/-- **A copy does what the call does** to the buffers of the caller. -/
theorem privateCopy_follows {registry : Registry} {callee : String}
    (hFunction : registry.get? callee = some f) (hBuffers : b.buffers = f.aliases args)
    (hValues : b.values = f.passed args) (hCopy : privateCopy host next f b front = (copy, next'))
    (hSteady : (⟨f, args⟩ : Expansion).Steady registry) (hOuter : outerNames ⊆ host.usedNames)
    (hPassed : ∀ a ∈ f.aliases args, a.2 ∈ outerNames)
    (hScalars : ∀ v ∈ f.passed args, ∀ x ∈ v.2.scalars, x ∈ host.usedNames)
    (hLoads : ∀ v ∈ f.passed args, ∀ b ∈ v.2.buffers, b ∈ outerNames) (depth : Nat) (env : Env) :
    Transition.Follows (fun m m' => ∀ b ∈ outerNames, m' b = m b)
      (registry.enter .blank depth .whole env callee args)
      (copy.runOn .whole (registry.enter .blank depth .whole) .blank env) := by
  intro s s' after hStart hRun
  have hUnwritten : ∀ p a, (f.aliases args).lookup p = some a → readBy (f.passed args) a = true →
      ¬ registry.Writes f.body p := by
    intro p a hAlias hRead
    obtain ⟨v, hv, hLoad⟩ := readBy_iff.mp hRead
    exact hSteady.unwritten v hv a hLoad p hAlias
  -- the call writes nothing that the values read, so this may be frozen
  have hFrozen : registry.enter .blank depth (View.whole.frozen (readBy (f.passed args))) env callee args
      = registry.enter .blank depth .whole env callee args :=
    registry.enter_frozen env callee args fun g p a hSame hAlias hRead => by
      obtain rfl : g = f := by simpa [hFunction] using hSame.symm
      exact hUnwritten p a hAlias hRead
  rw [← hFrozen] at hRun
  cases depth with
  | zero => cases hRun
  | succ depth =>
    obtain ⟨g, entries, own, hSame, hEntries, hBody⟩ := Registry.enter_eq_some.mp hRun
    obtain rfl : g = f := by simpa [hFunction] using hSame.symm
    obtain ⟨r, hChosen, hTranslated, -⟩ := translated_privateCopy hCopy
      (by rw [hValues]; exact fun x hx => mem_params_of_passed hx)
    rw [hBuffers] at hChosen
    rw [hValues] at hTranslated
    have hSeparated := hSteady.separated hChosen hOuter hPassed hScalars hLoads
    have hCopied : Stmt.CopyOf (copying r (g.passed args)) [] g.body copy := by
      refine copyOf_copying (hTranslated []) hSteady.outside (fun x hx => .inr hx) (fun b hb => hb)
        (fun b hb => ?_) (fun x hx => (hChosen.iterators x).mpr hx)
        fun b hb => (hChosen.declared b).mpr (.inr hb)
      obtain ⟨a, ha⟩ := exists_lookup_of_mem hb
      exact (hChosen.declared b).mpr (.inl (Option.isSome_iff_exists.mpr ⟨a, ha⟩))
    obtain ⟨vs, hEach, hZip⟩ := Option.bind_eq_some_iff.mp hEntries
    cases hZip
    have hSound := sound_copying (((g.passed args).map Prod.fst).zip vs) s hSeparated
    have hAgrees : Agrees (g.passed args) (((g.passed args).map Prod.fst).zip vs) s r []
        (.entry (((g.passed args).map Prod.fst).zip vs)) env := by
      refine ⟨fun x hx => absurd hx List.not_mem_nil, fun {x e} he => ?_⟩
      obtain ⟨v, hEntry, hValue⟩ := lookup_zip_values hEach he
      refine ⟨v, by rw [Env.entry, hEntry]; rfl, hEntry, fun m hm => ?_⟩
      rw [← hValue, ← Expr.valueWith?_reference .blank, ← Expr.valueWith?_reference .blank]
      exact Expr.valueWith?_congr_names (fun _ _ => rfl) fun c hc =>
        hm c (readBy_iff.mpr ⟨_, mem_of_lookup he, hc⟩)
    obtain ⟨after', hCopyRun, hAfter⟩ := hCopied.simulates hSound
      (fun {_ _ _} g {_ _} hEnv hArgs => enter_simulates registry (Nat.le_succ depth) hSound g hEnv hArgs)
      (fun _ pair => pair.elim) hAgrees (s, _) s' (after, own)
      (hSeparated.start hSteady.inside hStart) hBody
    -- the copy does not write it either
    have hThawed : copy.execute registry .blank (depth + 1) (View.whole.frozen (readBy (g.passed args)))
        env = copy.execute registry .blank (depth + 1) .whole env :=
      Stmt.execute_frozen (hSeparated.not_writes hCopied hUnwritten) env
    exact ⟨after', (congrFun hThawed s').symm.trans hCopyRun, hAfter.outer⟩

end Restructure

end LoopNest

import LoopNest.Program.Canonical
import LoopNest.Program.Match
import LoopNest.Proofs.Walks

/-! # Matching is equality of canonical forms

  Matching goes through two programs side by side and keeps a pairing of the names that are bound
  around the place it has come to. The pairing always consists of the names that both programs have
  bound, binder by binder (`Pairing.ofPairs`).

  * **Names** correspond in such a pairing when they stand for the same (`Pairing.names_ofPairs`):
    when the innermost binder of one name is paired with the other name, it is the innermost binder of
    that as well.
  * **Expressions**, arguments and heads correspond when their canonical forms are equal.
  * **Programs** without wildcards match when their canonical forms are equal, so matching is an
    equivalence relation on them (`Stmt.matchesProgram_iff_canonical_eq`).
  * **Wildcards**: with wildcards in them, programs still match when their canonical forms are equal
    (`Stmt.matchesProgram_of_canonical_eq`). -/

namespace LoopNest

/-! ## Names -/

/-- The pairing of names that were bound pair by pair, innermost first. -/
def Pairing.ofPairs (binders : List (String × String)) : Pairing :=
  ⟨binders, binders.map Prod.swap⟩

@[simp] theorem Pairing.ofPairs_bind (binders : List (String × String)) (x y : String) :
    (ofPairs binders).bind x y = ofPairs ((x, y) :: binders) := rfl

theorem Referent.of_cons_self (x : String) (scope : List String) :
    of (x :: scope) x = binder 0 := by
  simp [of]

/-- One more binder of another name is one more to count. -/
theorem Referent.of_cons_ne {x y : String} (h : x ≠ y) (scope : List String) :
    of (y :: scope) x = match of scope x with
      | .binder d => .binder (d + 1)
      | .outside x => .outside x := by
  by_cases hMem : x ∈ scope
  · simp [of, hMem, List.idxOf_cons, beq_eq_false_iff_ne.mpr (Ne.symm h)]
  · simp [of, hMem, h]

theorem Referent.of_cons_ne_eq_iff {x x' y y' : String} (h : x ≠ y) (h' : x' ≠ y')
    (scope scope' : List String) :
    of (y :: scope) x = of (y' :: scope') x' ↔ of scope x = of scope' x' := by
  rw [of_cons_ne h, of_cons_ne h']
  cases of scope x <;> cases of scope' x' <;> simp

theorem Referent.of_cons_ne_zero {x y : String} (h : x ≠ y) (scope : List String) :
    of (y :: scope) x ≠ binder 0 := by
  rw [of_cons_ne h]
  cases of scope x <;> simp

namespace Pairing

variable (binders : List (String × String))

/-- **Names** correspond when they stand for the same. -/
theorem names_ofPairs (x y : String) :
    (ofPairs binders).names x y = true
      ↔ Referent.of (binders.map Prod.fst) x = Referent.of (binders.map Prod.snd) y := by
  induction binders with
  | nil => simp [names, ofPairs, Referent.of]
  | cons pair binders ih =>
    obtain ⟨a, b⟩ := pair
    rw [List.map_cons, List.map_cons]
    by_cases hx : x = a
    · subst hx
      rw [Referent.of_cons_self]
      by_cases hy : y = b
      · subst hy
        simp [names, ofPairs, Referent.of_cons_self]
      · -- the innermost binder of `x` is paired with another name than `y`
        have hNe := Referent.of_cons_ne_zero hy (binders.map Prod.snd)
        refine iff_of_false (fun h => ?_) fun h => hNe h.symm
        simp only [names, ofPairs, List.map_cons, List.lookup_cons, beq_self_eq_true] at h
        split at h
        · simp only [Bool.and_eq_true, beq_iff_eq] at h
          rename_i hFound _
          cases hFound
          exact hy h.1.symm
        · cases ‹some _ = none›
        · cases h
    · by_cases hy : y = b
      · subst hy
        have hNe := Referent.of_cons_ne_zero hx (binders.map Prod.fst)
        rw [Referent.of_cons_self]
        refine iff_of_false (fun h => ?_) hNe
        simp only [names, ofPairs, List.map_cons, Prod.swap_prod_mk, List.lookup_cons,
          beq_self_eq_true] at h
        split at h
        · simp only [Bool.and_eq_true, beq_iff_eq] at h
          rename_i hFound
          cases hFound
          exact hx h.2.symm
        · cases ‹some _ = none›
        · cases h
      · -- both names are bound further outside, or not at all
        rw [Referent.of_cons_ne_eq_iff hx hy, ← ih]
        simp only [names, ofPairs, List.map_cons, Prod.swap_prod_mk, List.lookup_cons,
          beq_eq_false_iff_ne.mpr hx, beq_eq_false_iff_ne.mpr hy]

theorem namesAll_ofPairs : ∀ xs ys : List String, (ofPairs binders).namesAll xs ys = true
    ↔ xs.map (Referent.of (binders.map Prod.fst)) = ys.map (Referent.of (binders.map Prod.snd))
  | [], [] => by simp [namesAll]
  | [], _ :: _ => by simp [namesAll]
  | _ :: _, [] => by simp [namesAll]
  | x :: xs, y :: ys => by
    simp [namesAll, names_ofPairs, namesAll_ofPairs xs ys]

/-! ## Expressions -/

theorem exprsAll_of_forall {es : List Expr} (ih : ∀ e ∈ es, ∀ e' : Expr,
      (ofPairs binders).exprs e e' = true
        ↔ e.canonical (binders.map Prod.fst) = e'.canonical (binders.map Prod.snd)) :
    ∀ es' : List Expr, (ofPairs binders).exprsAll es es' = true
      ↔ Expr.canonicalAll (binders.map Prod.fst) es
        = Expr.canonicalAll (binders.map Prod.snd) es' := by
  induction es with
  | nil => intro es'; cases es' <;> simp [exprsAll, Expr.canonicalAll]
  | cons e es ihList =>
    intro es'
    cases es' with
    | nil => simp [exprsAll, Expr.canonicalAll]
    | cons e' es' =>
      simp [exprsAll, Expr.canonicalAll, ih e List.mem_cons_self e',
        ihList (fun a ha => ih a (List.mem_cons_of_mem e ha)) es']

/-- **Expressions** correspond when their canonical forms are equal. -/
theorem exprs_ofPairs : ∀ e e' : Expr, (ofPairs binders).exprs e e' = true
    ↔ e.canonical (binders.map Prod.fst) = e'.canonical (binders.map Prod.snd) := by
  refine Expr.ind ?_ ?_ ?_ ?_ ?_ ?_ ?_
  · intro v e'
    cases e' <;> simp [exprs, Expr.canonical]
  · intro v e'
    cases e' <;> simp [exprs, Expr.canonical]
  · intro v e'
    cases e' <;> simp [exprs, Expr.canonical]
  · intro x e'
    cases e' <;> simp [exprs, Expr.canonical, names_ofPairs]
  · intro b is ih e'
    cases e' <;> simp [exprs, Expr.canonical, names_ofPairs, exprsAll_of_forall binders ih]
  · intro o e ih e'
    cases e' <;> simp [exprs, Expr.canonical, ih]
  · intro o a b iha ihb e'
    cases e' <;> simp [exprs, Expr.canonical, iha, ihb, and_assoc]

theorem exprsAll_ofPairs (es es' : List Expr) : (ofPairs binders).exprsAll es es' = true
    ↔ Expr.canonicalAll (binders.map Prod.fst) es
      = Expr.canonicalAll (binders.map Prod.snd) es' :=
  exprsAll_of_forall binders (fun e _ => exprs_ofPairs binders e) es'

theorem args_ofPairs : ∀ args args' : List Arg, (ofPairs binders).args args args' = true
    ↔ args.map (Arg.canonical (binders.map Prod.fst))
      = args'.map (Arg.canonical (binders.map Prod.snd))
  | [], [] => by simp [args]
  | [], _ :: _ => by simp [args]
  | .buffer _ :: _, [] => by simp [args]
  | .value _ :: _, [] => by simp [args]
  | .buffer x :: xs, .buffer y :: ys => by
    simp [args, Arg.canonical, names_ofPairs, args_ofPairs xs ys]
  | .value x :: xs, .value y :: ys => by
    simp [args, Arg.canonical, exprs_ofPairs, args_ofPairs xs ys]
  | .buffer _ :: _, .value _ :: _ => by simp [args, Arg.canonical]
  | .value _ :: _, .buffer _ :: _ => by simp [args, Arg.canonical]

theorem buffers_ofPairs (b b' : Buffer) : (ofPairs binders).buffers b b' = true
    ↔ Expr.canonicalAll (binders.map Prod.fst) b.shape
        = Expr.canonicalAll (binders.map Prod.snd) b'.shape
      ∧ b.elem = b'.elem ∧ b.access = b'.access ∧ b.space = b'.space := by
  simp only [buffers, Bool.and_eq_true, exprsAll_ofPairs, beq_iff_eq]
  constructor
  · rintro ⟨⟨⟨hElem, hAccess⟩, hSpace⟩, hShape⟩
    exact ⟨hShape, hElem, hAccess, hSpace⟩
  · rintro ⟨hShape, hElem, hAccess, hSpace⟩
    exact ⟨⟨⟨hElem, hAccess⟩, hSpace⟩, hShape⟩

theorem heads_ofPairs (h h' : LoopHead) : (ofPairs binders).heads h h' = true
    ↔ h.mode = h'.mode
      ∧ h.noDeps.map (Referent.of (binders.map Prod.fst))
        = h'.noDeps.map (Referent.of (binders.map Prod.snd))
      ∧ h.lower.canonical (binders.map Prod.fst) = h'.lower.canonical (binders.map Prod.snd)
      ∧ h.upper.canonical (binders.map Prod.fst) = h'.upper.canonical (binders.map Prod.snd) := by
  simp only [heads, Bool.and_eq_true, namesAll_ofPairs, exprs_ofPairs, beq_iff_eq, and_assoc]

end Pairing

/-! ## Programs -/

namespace Stmt

/-- Whether a program has no wildcards. -/
def holeFree (t : Stmt) : Bool := t.everywhere fun u => !u.isHole

def isBlock : Stmt → Bool
  | .block .. => true
  | _ => false

theorem canonicalInAll_eq_flatMap (scope : List String) (ts : List Stmt) :
    canonicalInAll scope ts = ts.flatMap (canonicalIn scope) := by
  induction ts with
  | nil => rfl
  | cons t ts ih => simp [canonicalInAll, ih]

theorem flattenAll_eq_flatMap (ts : List Stmt) : flattenAll ts = ts.flatMap flatten := by
  induction ts with
  | nil => rfl
  | cons t ts ih => simp [flattenAll, ih]

/-- Dissolving blocks leaves the canonical form as it is. -/
theorem canonicalIn_flatten (scope : List String) :
    ∀ t : Stmt, t.flatten.flatMap (canonicalIn scope) = t.canonicalIn scope := by
  refine Stmt.ind ?decl ?loop ?guard ?branch ?store ?call ?block ?hole
  case block =>
    intro s ts ih
    rw [flatten, flattenAll_eq_flatMap, canonicalIn, canonicalInAll_eq_flatMap, List.flatMap_assoc]
    rw [List.flatMap_def, List.flatMap_def, List.map_congr_left ih]
  all_goals
    intros
    simp [flatten]

theorem of_mem_flatten {u : Stmt} :
    ∀ t : Stmt, u ∈ t.flatten → u ∈ t.nodes ∧ u.isBlock = false := by
  refine Stmt.ind ?decl ?loop ?guard ?branch ?store ?call ?block ?hole
  case block =>
    intro s ts ih h
    rw [flatten, flattenAll_eq_flatMap] at h
    obtain ⟨t, ht, hu⟩ := List.mem_flatMap.mp h
    obtain ⟨hMem, hBlock⟩ := ih t ht hu
    rw [nodes_block]
    exact ⟨List.mem_cons_of_mem _ (List.mem_flatMap.mpr ⟨t, ht, hMem⟩), hBlock⟩
  all_goals
    intros
    simp_all [flatten, isBlock]

/-- A statement other than a block is one statement in canonical form. -/
theorem length_canonicalIn {t : Stmt} (h : t.isBlock = false) (scope : List String) :
    (t.canonicalIn scope).length = 1 := by
  cases t <;> simp_all [canonicalIn, isBlock]

/-- In a list without blocks one statement of a canonical form is one statement. -/
theorem exists_front_singleton {scope : List String} {us rest : List Stmt} {c : Canonical}
    (hBlocks : ∀ u ∈ us, u.isBlock = false) :
    (∃ front, us = front ++ rest ∧ front.flatMap (canonicalIn scope) = [c])
      ↔ ∃ u, us = u :: rest ∧ u.canonicalIn scope = [c] := by
  constructor
  · rintro ⟨front, rfl, hEq⟩
    cases front with
    | nil => cases hEq
    | cons u front =>
      have hFirst := length_canonicalIn (hBlocks u (by simp)) scope
      cases front with
      | nil => exact ⟨u, rfl, by simpa using hEq⟩
      | cons u' front =>
        have hSecond := length_canonicalIn (hBlocks u' (by simp)) scope
        have hLength := congrArg List.length hEq
        simp [hFirst, hSecond] at hLength
  · rintro ⟨u, rfl, hEq⟩
    exact ⟨[u], rfl, by simpa using hEq⟩

/-- Where a canonical form can be cut, a list without blocks can be cut. -/
theorem exists_append_of_flatMap_eq_append {scope : List String} {us : List Stmt}
    (hBlocks : ∀ u ∈ us, u.isBlock = false) {cs ds : List Canonical}
    (h : us.flatMap (canonicalIn scope) = cs ++ ds) :
    ∃ first second, us = first ++ second ∧ first.flatMap (canonicalIn scope) = cs
      ∧ second.flatMap (canonicalIn scope) = ds := by
  induction us generalizing cs with
  | nil =>
    obtain ⟨rfl, rfl⟩ := List.append_eq_nil_iff.mp h.symm
    exact ⟨[], [], rfl, rfl, rfl⟩
  | cons u us ih =>
    cases cs with
    | nil => exact ⟨[], u :: us, rfl, rfl, h⟩
    | cons c cs =>
      obtain ⟨c', hForm⟩ := List.length_eq_one_iff.mp
        (length_canonicalIn (hBlocks u List.mem_cons_self) scope)
      rw [List.flatMap_cons, hForm, List.singleton_append, List.cons_append, List.cons.injEq] at h
      obtain ⟨rfl, h⟩ := h
      obtain ⟨first, second, rfl, hFirst, hSecond⟩ :=
        ih (fun w hw => hBlocks w (List.mem_cons_of_mem u hw)) h
      exact ⟨u :: first, second, rfl, by rw [List.flatMap_cons, hForm, hFirst]; rfl, hSecond⟩

/-- A statement takes what it matches from the front of a list. -/
def Consumes (t : Stmt) : Prop :=
  ∀ (binders : List (String × String)) (us rest : List Stmt),
    (∀ u ∈ us, u.holeFree = true ∧ u.isBlock = false) →
    (t.consume? (.ofPairs binders) us = some rest ↔ ∃ front, us = front ++ rest
      ∧ front.flatMap (canonicalIn (binders.map Prod.snd)) = t.canonicalIn (binders.map Prod.fst))

section consume

variable {binders : List (String × String)} {us rest : List Stmt}

theorem isHole_of_holeFree {t : Stmt} (h : t.holeFree = true) : t.isHole = false := by
  simpa using everywhere_iff.mp h t (self_mem_nodes t)

theorem of_mem_flatten_holeFree {t u : Stmt} (h : t.holeFree = true) (hu : u ∈ t.flatten) :
    u.holeFree = true ∧ u.isBlock = false := by
  obtain ⟨hMem, hBlock⟩ := of_mem_flatten t hu
  exact ⟨everywhere_of_mem h hMem, hBlock⟩

/-- Bodies match when their canonical forms are equal. -/
theorem Consumes.body {t u : Stmt} (h : Consumes t) (binders : List (String × String))
    (ht : t.holeFree = true) (hu : u.holeFree = true) :
    (t.isHole || u.isHole || (t.consume? (.ofPairs binders) u.flatten).any List.isEmpty) = true
      ↔ t.canonicalIn (binders.map Prod.fst) = u.canonicalIn (binders.map Prod.snd) := by
  have hAll := h binders u.flatten [] fun w hw => of_mem_flatten_holeFree hu hw
  have hEmpty : (t.consume? (.ofPairs binders) u.flatten).any List.isEmpty = true
      ↔ t.consume? (.ofPairs binders) u.flatten = some [] := by
    cases t.consume? (.ofPairs binders) u.flatten with
    | none => simp
    | some left => cases left <;> simp
  rw [isHole_of_holeFree ht, isHole_of_holeFree hu, Bool.false_or, Bool.false_or, hEmpty, hAll]
  constructor
  · rintro ⟨front, hFront, hEq⟩
    rw [List.append_nil] at hFront
    rw [← hEq, ← hFront, canonicalIn_flatten]
  · intro hEq
    exact ⟨u.flatten, (List.append_nil _).symm, by rw [canonicalIn_flatten, hEq]⟩

/-- A statement other than a block is matched with the first statement of a list. -/
theorem consumes_of_head {t : Stmt} {c : List String → Canonical}
    (hForm : ∀ scope, t.canonicalIn scope = [c scope])
    (hNil : ∀ p, t.consume? p [] = none)
    (hHead : ∀ (binders : List (String × String)) (u : Stmt) (us : List Stmt),
      u.holeFree = true → u.isBlock = false →
      ∀ rest, t.consume? (.ofPairs binders) (u :: us) = some rest
        ↔ us = rest ∧ u.canonicalIn (binders.map Prod.snd) = [c (binders.map Prod.fst)]) :
    Consumes t := by
  intro binders us rest hUs
  rw [hForm, exists_front_singleton fun u hu => (hUs u hu).2]
  cases us with
  | nil => simp [hNil]
  | cons u us =>
    obtain ⟨hHole, hBlock⟩ := hUs u List.mem_cons_self
    rw [hHead binders u us hHole hBlock rest]
    constructor
    · rintro ⟨rfl, hEq⟩
      exact ⟨u, rfl, hEq⟩
    · rintro ⟨w, hEq, hForm⟩
      cases hEq
      exact ⟨rfl, hForm⟩

/-- Statements one after the other take what has their canonical forms. -/
theorem consumesAll {ts : List Stmt} (h : ∀ t ∈ ts, Consumes t) :
    ∀ us rest, (∀ u ∈ us, u.holeFree = true ∧ u.isBlock = false) →
      (consumeAll? (.ofPairs binders) ts us = some rest ↔ ∃ front, us = front ++ rest
        ∧ front.flatMap (canonicalIn (binders.map Prod.snd))
          = ts.flatMap (canonicalIn (binders.map Prod.fst))) := by
  induction ts with
  | nil =>
    intro us rest hUs
    rw [consumeAll?, Option.some.injEq]
    constructor
    · rintro rfl
      exact ⟨[], rfl, rfl⟩
    · rintro ⟨front, rfl, hEq⟩
      cases front with
      | nil => rfl
      | cons u front =>
        have hLength := length_canonicalIn (hUs u (by simp)).2 (binders.map Prod.snd)
        simp [(List.append_eq_nil_iff.mp hEq).1] at hLength
  | cons t ts ih =>
    intro us rest hUs
    have hHead := h t List.mem_cons_self
    have hTail := ih fun w hw => h w (List.mem_cons_of_mem t hw)
    rw [consumeAll?, List.flatMap_cons]
    constructor
    · intro hTakes
      split at hTakes
      · rename_i between hBetween
        obtain ⟨first, rfl, hFirst⟩ := (hHead binders us between hUs).mp hBetween
        obtain ⟨second, rfl, hSecond⟩ :=
          (hTail _ _ fun u hu => hUs u (List.mem_append_right first hu)).mp hTakes
        exact ⟨first ++ second, (List.append_assoc _ _ _).symm, by
          rw [List.flatMap_append, hFirst, hSecond]⟩
      · cases hTakes
    · rintro ⟨front, rfl, hEq⟩
      -- every statement of the front is one statement in canonical form
      obtain ⟨first, second, rfl, hFirst, hSecond⟩ := exists_append_of_flatMap_eq_append
        (fun u hu => (hUs u (List.mem_append_left rest hu)).2) hEq
      rw [List.append_assoc] at hUs ⊢
      rw [(hHead binders _ _ hUs).mpr ⟨first, rfl, hFirst⟩]
      exact (hTail _ _ fun u hu => hUs u (List.mem_append_right first hu)).mpr
        ⟨second, rfl, hSecond⟩

end consume

/-- **Statements** take from a list what has their canonical form. -/
theorem consumes : ∀ t : Stmt, t.holeFree = true → Consumes t := by
  refine Stmt.ind ?decl ?loop ?guard ?branch ?store ?call ?block ?hole
  case decl =>
    intro s n b body ih h
    have hBody := (everywhere_decl.mp h).2
    refine consumes_of_head (fun _ => rfl) (fun _ => rfl) ?_
    intro binders u us hu hBlock rest
    have hHole := isHole_of_holeFree hu
    cases u with
    | decl s' n' b' body' =>
      have hBelow := (ih hBody).body ((n, n') :: binders) hBody (everywhere_decl.mp hu).2
      rw [consume?, Option.ite_none_right_eq_some]
      simp only [canonicalIn, Option.some.injEq, Bool.and_eq_true, Pairing.ofPairs_bind, Pairing.buffers_ofPairs, hBelow, List.map_cons,
        List.cons.injEq, Canonical.decl.injEq, and_true]
      constructor
      · rintro ⟨⟨⟨hShape, hElem, hAccess, hSpace⟩, hBody⟩, hRest⟩
        exact ⟨hRest, hShape.symm, hElem.symm, hAccess.symm, hSpace.symm, hBody.symm⟩
      · rintro ⟨hRest, hShape, hElem, hAccess, hSpace, hBody⟩
        exact ⟨⟨⟨hShape.symm, hElem.symm, hAccess.symm, hSpace.symm⟩, hBody.symm⟩, hRest⟩
    | _ => simp_all [consume?, canonicalIn, isBlock, isHole]
  case loop =>
    intro s head body ih h
    have hBody := (everywhere_loop.mp h).2
    refine consumes_of_head (fun _ => rfl) (fun _ => rfl) ?_
    intro binders u us hu hBlock rest
    have hHole := isHole_of_holeFree hu
    cases u with
    | loop s' head' body' =>
      have hBelow := (ih hBody).body ((head.iter, head'.iter) :: binders) hBody
        (everywhere_loop.mp hu).2
      rw [consume?, Option.ite_none_right_eq_some]
      simp only [canonicalIn, Option.some.injEq, Bool.and_eq_true, Pairing.ofPairs_bind, Pairing.heads_ofPairs, hBelow, List.map_cons,
        List.cons.injEq, Canonical.loop.injEq, and_true]
      constructor
      · rintro ⟨⟨⟨hMode, hNoDeps, hLower, hUpper⟩, hBody⟩, hRest⟩
        exact ⟨hRest, hMode.symm, hNoDeps.symm, hLower.symm, hUpper.symm, hBody.symm⟩
      · rintro ⟨hRest, hMode, hNoDeps, hLower, hUpper, hBody⟩
        exact ⟨⟨⟨hMode.symm, hNoDeps.symm, hLower.symm, hUpper.symm⟩, hBody.symm⟩, hRest⟩
    | _ => simp_all [consume?, canonicalIn, isBlock, isHole]
  case guard =>
    intro s e body ih h
    have hBody := (everywhere_guard.mp h).2
    refine consumes_of_head (fun _ => rfl) (fun _ => rfl) ?_
    intro binders u us hu hBlock rest
    have hHole := isHole_of_holeFree hu
    cases u with
    | guard s' e' body' =>
      have hBelow := (ih hBody).body binders hBody (everywhere_guard.mp hu).2
      rw [consume?, Option.ite_none_right_eq_some]
      simp only [canonicalIn, Option.some.injEq, Bool.and_eq_true, Pairing.exprs_ofPairs, hBelow, List.cons.injEq, Canonical.guard.injEq,
        and_true]
      constructor
      · rintro ⟨⟨hCond, hBody⟩, hRest⟩
        exact ⟨hRest, hCond.symm, hBody.symm⟩
      · rintro ⟨hRest, hCond, hBody⟩
        exact ⟨⟨hCond.symm, hBody.symm⟩, hRest⟩
    | _ => simp_all [consume?, canonicalIn, isBlock, isHole]
  case branch =>
    intro s e yes no ihYes ihNo h
    obtain ⟨_, hYes, hNo⟩ := everywhere_branch.mp h
    refine consumes_of_head (fun _ => rfl) (fun _ => rfl) ?_
    intro binders u us hu hBlock rest
    have hHole := isHole_of_holeFree hu
    cases u with
    | branch s' e' yes' no' =>
      obtain ⟨_, hYes', hNo'⟩ := everywhere_branch.mp hu
      have hFirst := (ihYes hYes).body binders hYes hYes'
      have hSecond := (ihNo hNo).body binders hNo hNo'
      rw [consume?, Option.ite_none_right_eq_some]
      simp only [canonicalIn, Option.some.injEq, Bool.and_eq_true, Pairing.exprs_ofPairs, hFirst, hSecond, List.cons.injEq,
        Canonical.branch.injEq, and_true]
      constructor
      · rintro ⟨⟨⟨hCond, hYes⟩, hNo⟩, hRest⟩
        exact ⟨hRest, hCond.symm, hYes.symm, hNo.symm⟩
      · rintro ⟨hRest, hCond, hYes, hNo⟩
        exact ⟨⟨⟨hCond.symm, hYes.symm⟩, hNo.symm⟩, hRest⟩
    | _ => simp_all [consume?, canonicalIn, isBlock, isHole]
  case store =>
    intro s b is v h
    refine consumes_of_head (fun _ => rfl) (fun _ => rfl) ?_
    intro binders u us hu hBlock rest
    have hHole := isHole_of_holeFree hu
    cases u with
    | store s' b' is' v' =>
      rw [consume?, Option.ite_none_right_eq_some]
      simp only [canonicalIn, Option.some.injEq, Bool.and_eq_true, Pairing.names_ofPairs, Pairing.exprsAll_ofPairs, Pairing.exprs_ofPairs,
        List.cons.injEq, Canonical.store.injEq, and_true]
      constructor
      · rintro ⟨⟨⟨hBuffer, hIndices⟩, hValue⟩, hRest⟩
        exact ⟨hRest, hBuffer.symm, hIndices.symm, hValue.symm⟩
      · rintro ⟨hRest, hBuffer, hIndices, hValue⟩
        exact ⟨⟨⟨hBuffer.symm, hIndices.symm⟩, hValue.symm⟩, hRest⟩
    | _ => simp_all [consume?, canonicalIn, isBlock, isHole]
  case call =>
    intro s f args h
    refine consumes_of_head (fun _ => rfl) (fun _ => rfl) ?_
    intro binders u us hu hBlock rest
    have hHole := isHole_of_holeFree hu
    cases u with
    | call s' f' args' =>
      rw [consume?, Option.ite_none_right_eq_some]
      simp only [canonicalIn, Option.some.injEq, Bool.and_eq_true, Pairing.args_ofPairs, beq_iff_eq, List.cons.injEq, Canonical.call.injEq,
        and_true]
      constructor
      · rintro ⟨⟨hCallee, hArgs⟩, hRest⟩
        exact ⟨hRest, hCallee.symm, hArgs.symm⟩
      · rintro ⟨hRest, hCallee, hArgs⟩
        exact ⟨⟨hCallee.symm, hArgs.symm⟩, hRest⟩
    | _ => simp_all [consume?, canonicalIn, isBlock, isHole]
  case block =>
    intro s ts ih h
    have hEach := (everywhere_block.mp h).2
    intro binders us rest hUs
    rw [consume?, canonicalIn, canonicalInAll_eq_flatMap]
    exact consumesAll (fun t ht => ih t ht (hEach t ht)) us rest hUs
  case hole =>
    intro s h
    exact absurd (isHole_of_holeFree h) (by simp [isHole])

/-- **Matching**: programs without wildcards match when their canonical forms are equal. So matching
    is an equivalence relation on them. -/
theorem matchesProgram_iff_canonical_eq :
    (∀ t u : Stmt, t.holeFree = true → u.holeFree = true →
      (t.matchesProgram u = true ↔ t.canonical = u.canonical))
    ∧ (∀ t : Stmt, t.holeFree = true → t.matchesProgram t = true)
    ∧ (∀ t u : Stmt, t.holeFree = true → u.holeFree = true → t.matchesProgram u = true →
      u.matchesProgram t = true)
    ∧ ∀ t u v : Stmt, t.holeFree = true → u.holeFree = true → v.holeFree = true →
      t.matchesProgram u = true → u.matchesProgram v = true → t.matchesProgram v = true := by
  have hIff : ∀ t u : Stmt, t.holeFree = true → u.holeFree = true →
      (t.matchesProgram u = true ↔ t.canonical = u.canonical) :=
    fun t u ht hu => (consumes t ht).body [] ht hu
  refine ⟨hIff, fun t ht => (hIff t t ht ht).mpr rfl, ?_, ?_⟩
  · intro t u ht hu h
    exact (hIff u t hu ht).mpr ((hIff t u ht hu).mp h).symm
  · intro t u v ht hu hv htu huv
    exact (hIff t v ht hv).mpr (((hIff t u ht hu).mp htu).trans ((hIff u v hu hv).mp huv))

/-- A table whose rows are filled up to the diagonal. The inner iterator hides the outer one. -/
def triangle : Stmt :=
  .decl ⟨0, some "D"⟩ "t" ⟨[.var "n"], .int32, .output, .cpu⟩
    (.loop ⟨1, some "L1"⟩ { iter := "i", lower := .int 0, upper := .var "n", noDeps := ["t"] }
      (.block ⟨2, none⟩
        [.loop ⟨3, some "L2"⟩ { iter := "i", lower := .int 0, upper := .var "i" }
          (.store ⟨4, none⟩ "t" [.var "i"] (.load "x" [.var "i"])),
        .store ⟨5, none⟩ "t" [.var "i"] (.var "m")]))

/-- The same table with other names, fewer labels and other blocks. -/
def otherTriangle : Stmt :=
  .decl ⟨0, none⟩ "s" ⟨[.var "n"], .int32, .output, .cpu⟩
    (.block ⟨1, none⟩
      [.loop ⟨2, none⟩ { iter := "p", lower := .int 0, upper := .var "n", noDeps := ["s"] }
        (.block ⟨3, none⟩
          [.block ⟨4, none⟩
            [.loop ⟨5, none⟩ { iter := "q", lower := .int 0, upper := .var "p" }
              (.block ⟨6, none⟩ [.store ⟨7, none⟩ "s" [.var "q"] (.load "x" [.var "q"])]),
            .store ⟨8, none⟩ "s" [.var "p"] (.var "m")]])])

/-- A table whose inner loop uses the outer iterator. -/
def skewTriangle : Stmt :=
  .decl ⟨0, none⟩ "s" ⟨[.var "n"], .int32, .output, .cpu⟩
    (.loop ⟨1, none⟩ { iter := "p", lower := .int 0, upper := .var "n", noDeps := ["s"] }
      (.block ⟨2, none⟩
        [.loop ⟨3, none⟩ { iter := "q", lower := .int 0, upper := .var "p" }
          (.store ⟨4, none⟩ "s" [.var "q"] (.load "x" [.var "p"])),
        .store ⟨5, none⟩ "s" [.var "p"] (.var "m")]))

theorem triangles_match :
    triangle.holeFree = true ∧ otherTriangle.holeFree = true ∧ skewTriangle.holeFree = true
      ∧ triangle.matchesProgram otherTriangle = true
      ∧ otherTriangle.matchesProgram triangle = true
      ∧ triangle.matchesProgram skewTriangle = false := by
  have hFirst : triangle.holeFree = true := by decide
  have hSecond : otherTriangle.holeFree = true := by decide
  have hThird : skewTriangle.holeFree = true := by decide
  obtain ⟨hIff, _, hSymm, _⟩ := matchesProgram_iff_canonical_eq
  have hMatch := (hIff triangle otherTriangle hFirst hSecond).mpr rfl
  refine ⟨hFirst, hSecond, hThird, hMatch, hSymm _ _ hFirst hSecond hMatch, ?_⟩
  refine Bool.eq_false_iff.mpr fun h => ?_
  have hForms := (hIff triangle skewTriangle hFirst hThird).mp h
  simp [canonical, canonicalIn, canonicalInAll, triangle, skewTriangle, Expr.canonical,
    Expr.canonicalAll, Referent.of, List.idxOf_cons] at hForms

/-! ## Wildcards -/

/-- A statement takes from the front of a list what has its canonical form, wildcards included. -/
def TakesSame (t : Stmt) : Prop :=
  ∀ (binders : List (String × String)) (front rest : List Stmt), (∀ u ∈ front, u.isBlock = false) →
    front.flatMap (canonicalIn (binders.map Prod.snd)) = t.canonicalIn (binders.map Prod.fst) →
    t.consume? (.ofPairs binders) (front ++ rest) = some rest

theorem TakesSame.body {t u : Stmt} (h : t.TakesSame) (binders : List (String × String))
    (hForm : u.canonicalIn (binders.map Prod.snd) = t.canonicalIn (binders.map Prod.fst)) :
    (t.isHole || u.isHole || (t.consume? (.ofPairs binders) u.flatten).any List.isEmpty) = true := by
  have hAll := h binders u.flatten [] (fun w hw => (of_mem_flatten u hw).2)
    (by rw [canonicalIn_flatten, hForm])
  rw [List.append_nil] at hAll
  rw [hAll]
  simp

/-- A statement other than a block takes one statement. -/
theorem takesSame_of_head {t : Stmt} (hLength : t.isBlock = false)
    (hHead : ∀ (binders : List (String × String)) (u : Stmt) (rest : List Stmt), u.isBlock = false →
      u.canonicalIn (binders.map Prod.snd) = t.canonicalIn (binders.map Prod.fst) →
      t.consume? (.ofPairs binders) (u :: rest) = some rest) : t.TakesSame := by
  intro binders front rest hBlocks hForm
  obtain ⟨c, hOne⟩ := List.length_eq_one_iff.mp (length_canonicalIn hLength (binders.map Prod.fst))
  have hFront : ∃ us, front = us ++ [] ∧ us.flatMap (canonicalIn (binders.map Prod.snd)) = [c] :=
    ⟨front, (List.append_nil front).symm, hForm.trans hOne⟩
  obtain ⟨u, rfl, hu⟩ := (exists_front_singleton hBlocks).mp hFront
  exact hHead binders u rest (hBlocks u (by simp)) (hu.trans hOne.symm)

theorem takesSame : ∀ t : Stmt, t.TakesSame := by
  refine Stmt.ind ?decl ?loop ?guard ?branch ?store ?call ?block ?hole
  case decl =>
    intro s n b body ih
    refine takesSame_of_head rfl fun binders u rest hBlock hForm => ?_
    cases u with
    | block s' ts => cases hBlock
    | decl s' n' b' body' =>
      simp only [canonicalIn, List.cons.injEq, Canonical.decl.injEq, and_true] at hForm
      obtain ⟨hShape, hElem, hAccess, hSpace, hBody⟩ := hForm
      have hBelow := ih.body ((n, n') :: binders) hBody
      have hHere := (Pairing.buffers_ofPairs binders b b').mpr
        ⟨hShape.symm, hElem.symm, hAccess.symm, hSpace.symm⟩
      rw [consume?, Pairing.ofPairs_bind, hHere, hBelow]
      rfl
    | _ => simp [canonicalIn] at hForm
  case loop =>
    intro s h body ih
    refine takesSame_of_head rfl fun binders u rest hBlock hForm => ?_
    cases u with
    | block s' ts => cases hBlock
    | loop s' h' body' =>
      simp only [canonicalIn, List.cons.injEq, Canonical.loop.injEq, and_true] at hForm
      obtain ⟨hMode, hNoDeps, hLower, hUpper, hBody⟩ := hForm
      have hBelow := ih.body ((h.iter, h'.iter) :: binders) hBody
      have hHere := (Pairing.heads_ofPairs binders h h').mpr
        ⟨hMode.symm, hNoDeps.symm, hLower.symm, hUpper.symm⟩
      rw [consume?, Pairing.ofPairs_bind, hHere, hBelow]
      rfl
    | _ => simp [canonicalIn] at hForm
  case guard =>
    intro s c body ih
    refine takesSame_of_head rfl fun binders u rest hBlock hForm => ?_
    cases u with
    | block s' ts => cases hBlock
    | guard s' c' body' =>
      simp only [canonicalIn, List.cons.injEq, Canonical.guard.injEq, and_true] at hForm
      have hBelow := ih.body binders hForm.2
      have hHere := (Pairing.exprs_ofPairs binders c c').mpr hForm.1.symm
      rw [consume?, hHere, hBelow]
      rfl
    | _ => simp [canonicalIn] at hForm
  case branch =>
    intro s c yes no ihYes ihNo
    refine takesSame_of_head rfl fun binders u rest hBlock hForm => ?_
    cases u with
    | block s' ts => cases hBlock
    | branch s' c' yes' no' =>
      simp only [canonicalIn, List.cons.injEq, Canonical.branch.injEq, and_true] at hForm
      obtain ⟨hCond, hYes, hNo⟩ := hForm
      have hHere := (Pairing.exprs_ofPairs binders c c').mpr hCond.symm
      rw [consume?, hHere, ihYes.body binders hYes, ihNo.body binders hNo]
      rfl
    | _ => simp [canonicalIn] at hForm
  case store =>
    intro s b is v
    refine takesSame_of_head rfl fun binders u rest hBlock hForm => ?_
    cases u with
    | block s' ts => cases hBlock
    | store s' b' is' v' =>
      simp only [canonicalIn, List.cons.injEq, Canonical.store.injEq, and_true] at hForm
      obtain ⟨hBuffer, hIndices, hValue⟩ := hForm
      rw [consume?, (Pairing.names_ofPairs binders b b').mpr hBuffer.symm,
        (Pairing.exprsAll_ofPairs binders is is').mpr hIndices.symm,
        (Pairing.exprs_ofPairs binders v v').mpr hValue.symm]
      rfl
    | _ => simp [canonicalIn] at hForm
  case call =>
    intro s f args
    refine takesSame_of_head rfl fun binders u rest hBlock hForm => ?_
    cases u with
    | block s' ts => cases hBlock
    | call s' f' args' =>
      simp only [canonicalIn, List.cons.injEq, Canonical.call.injEq, and_true] at hForm
      obtain ⟨rfl, hArgs⟩ := hForm
      rw [consume?, (Pairing.args_ofPairs binders args args').mpr hArgs.symm]
      simp
    | _ => simp [canonicalIn] at hForm
  case block =>
    intro s ts ih binders front rest hBlocks hForm
    rw [canonicalIn, canonicalInAll_eq_flatMap] at hForm
    rw [consume?]
    induction ts generalizing front with
    | nil =>
      cases front with
      | nil => rfl
      | cons u front =>
        have hLength := length_canonicalIn (hBlocks u (by simp)) (binders.map Prod.snd)
        simp [(List.append_eq_nil_iff.mp hForm).1] at hLength
    | cons t ts ihList =>
      -- every statement of the front is one statement in canonical form
      obtain ⟨first, second, rfl, hFirst, hSecond⟩ :=
        exists_append_of_flatMap_eq_append hBlocks hForm
      rw [consumeAll?, List.append_assoc, ih t List.mem_cons_self binders first _
        (fun u hu => hBlocks u (List.mem_append_left _ hu)) hFirst]
      exact ihList (fun u hu => ih u (List.mem_cons_of_mem t hu)) second
        (fun u hu => hBlocks u (List.mem_append_right _ hu)) hSecond
  case hole =>
    intro s
    exact takesSame_of_head rfl fun binders u rest _ _ => rfl

/-- **Matching**: programs with equal canonical forms match, also with wildcards in them. -/
theorem matchesProgram_of_canonical_eq {t u : Stmt} (h : t.canonical = u.canonical) :
    t.matchesProgram u = true := (takesSame t).body [] h.symm

end Stmt

end LoopNest

import LoopNest.Proofs.DistinctLabels

/-! # Bindings in reordered nests

  A scalar refers to the innermost loop around it that counts by it, or it comes from outside. A
  request to reorder loops moves their heads past each other and everything between them into the
  innermost body, so that other loops come to stand around an expression.

  * `Stmt.spots` lists the statements of a program, each by itself, with the loops around it. What a
    scalar refers to at a spot is found in the list of these loops.
  * **Sinking**: what moves into an inner loop does not mention its iterator, so nothing around it
    changes for its scalars (`Restructure.Sinks.accounted`, `Restructure.Sinks.held`).
  * **Turning**: in another order of a perfect nest a scalar refers to the same loop if the loops that
    count by it keep their order (`Restructure.exists_keeps_permuted`).
  * Main statement: after an accepted request every scalar refers to the loop that it referred to, if
    the loops that count by it keep their order among themselves; this is so in particular when the
    loops have different iterators (`Restructure.reorder_keeps_bindings`). Loops that count by one
    scalar may change places, too, and then it refers to another loop
    (`Restructure.shadowed_rebinds`). -/

namespace LoopNest

/-- The loops around a place, innermost first: by what each of them counts, and where it is found. -/
abbrev LoopScope := List (String × Site)

/-! ## Parts of parts -/

namespace Expr

theorem parts_subset {p : Expr} : ∀ {e : Expr}, p ∈ e.parts → p.parts ⊆ e.parts := by
  have hSelf : ∀ {e : Expr}, e.parts = [e] → p ∈ e.parts → p.parts ⊆ e.parts := by
    intro e hParts hp
    rw [hParts] at hp
    rw [List.mem_singleton.mp hp]
    exact fun _ h => h
  refine @Expr.ind _ ?int ?float ?bool ?var ?load ?unary ?binary
  case int => exact fun _ => hSelf rfl
  case float => exact fun _ => hSelf rfl
  case bool => exact fun _ => hSelf rfl
  case var => exact fun _ => hSelf rfl
  case load =>
    intro b is ih hp
    rcases List.mem_cons.mp hp with rfl | hp
    · exact fun _ h => h
    · obtain ⟨i, hi, hp⟩ := mem_partsAll.mp hp
      exact fun q hq => mem_parts_load hi (ih i hi hp hq)
  case unary =>
    intro op e ih hp
    rcases List.mem_cons.mp hp with rfl | hp
    · exact fun _ h => h
    · exact fun q hq => mem_parts_unary (ih hp hq)
  case binary =>
    intro op a b iha ihb hp
    rcases List.mem_cons.mp hp with rfl | hp
    · exact fun _ h => h
    · rcases List.mem_append.mp hp with hp | hp
      · exact fun q hq => mem_parts_left (iha hp hq)
      · exact fun q hq => mem_parts_right (ihb hp hq)

theorem scalars_subset_of_mem_parts {p e : Expr} (h : p ∈ e.parts) : p.scalars ⊆ e.scalars :=
  fun _ hx => mem_scalars.mpr (parts_subset h (mem_scalars.mp hx))

end Expr

namespace Stmt

/-! ## Spots -/

/-- A statement by itself, with the loops around it. -/
structure Spot where
  scope : LoopScope
  site : Site
  exprs : List Expr

/-- The loop that a statement is. -/
def ownLoop : Stmt → LoopScope
  | .loop s h _ => [(h.iter, s)]
  | _ => []

mutual
/-- The statements of a program by themselves, below some loops. -/
def spots (ρ : LoopScope) : Stmt → List Spot
  | .decl s n b body => ⟨ρ, s, (Stmt.decl s n b body).exprs⟩ :: spots ρ body
  | .loop s h body => ⟨ρ, s, (Stmt.loop s h body).exprs⟩ :: spots ((h.iter, s) :: ρ) body
  | .guard s c body => ⟨ρ, s, (Stmt.guard s c body).exprs⟩ :: spots ρ body
  | .branch s c yes no => ⟨ρ, s, (Stmt.branch s c yes no).exprs⟩ :: (spots ρ yes ++ spots ρ no)
  | .block s stmts => ⟨ρ, s, (Stmt.block s stmts).exprs⟩ :: spotsAll ρ stmts
  | t => [⟨ρ, t.site, t.exprs⟩]
/-- The statements of several programs by themselves. -/
def spotsAll (ρ : LoopScope) : List Stmt → List Spot
  | [] => []
  | t :: ts => spots ρ t ++ spotsAll ρ ts
end

theorem spotsAll_eq_flatMap (ρ : LoopScope) (ts : List Stmt) :
    spotsAll ρ ts = ts.flatMap (spots ρ) := by
  induction ts with
  | nil => rfl
  | cons t ts ih => rw [spotsAll, ih, List.flatMap_cons]

theorem spots_eq_cons (ρ : LoopScope) (t : Stmt) :
    t.spots ρ = ⟨ρ, t.site, t.exprs⟩ :: t.children.flatMap (spots (t.ownLoop ++ ρ)) := by
  cases t with
  | block s ts => rw [spots, spotsAll_eq_flatMap]; rfl
  | _ => simp [spots, children, ownLoop, site]

theorem head_mem_spots (ρ : LoopScope) (t : Stmt) : ⟨ρ, t.site, t.exprs⟩ ∈ t.spots ρ := by
  rw [spots_eq_cons]
  exact List.mem_cons_self

theorem mem_spots {ρ : LoopScope} {t : Stmt} {p : Spot} : p ∈ t.spots ρ ↔
    p = ⟨ρ, t.site, t.exprs⟩ ∨ ∃ u ∈ t.children, p ∈ u.spots (t.ownLoop ++ ρ) := by
  rw [spots_eq_cons, List.mem_cons, List.mem_flatMap]

theorem mem_spots_of_child {ρ : LoopScope} {t u : Stmt} {p : Spot} (hu : u ∈ t.children)
    (h : p ∈ u.spots (t.ownLoop ++ ρ)) : p ∈ t.spots ρ := mem_spots.mpr (.inr ⟨u, hu, h⟩)

/-- Where a statement stands, for the scalars `K`: the same statement in a place where they refer to
    the same loops. -/
structure Spot.Keeps (K : String → Prop) (p p' : Spot) : Prop where
  site : p'.site = p.site
  exprs : p'.exprs = p.exprs
  scalars : ∀ e ∈ p.exprs, ∀ x ∈ e.scalars, K x → p'.scope.lookup x = p.scope.lookup x

namespace Spot.Keeps

variable {K : String → Prop} {p q r : Spot}

theorem refl (p : Spot) : p.Keeps K p := ⟨rfl, rfl, fun _ _ _ _ _ => rfl⟩

theorem trans (h : p.Keeps K q) (h' : q.Keeps K r) : p.Keeps K r where
  site := h'.site.trans h.site
  exprs := h'.exprs.trans h.exprs
  scalars e he x hx hK := by rw [h'.scalars e (h.exprs ▸ he) x hx hK, h.scalars e he x hx hK]

theorem symm (h : p.Keeps K q) : q.Keeps K p where
  site := h.site.symm
  exprs := h.exprs.symm
  scalars e he x hx hK := (h.scalars e (h.exprs ▸ he) x hx hK).symm

end Spot.Keeps

/-- A program keeps its bindings below other loops when the scalars that it uses do. -/
theorem exists_keeps {K : String → Prop} : ∀ (t : Stmt) {ρ ρ' : LoopScope},
    (∀ x, t.Uses x → K x → ρ'.lookup x = ρ.lookup x) →
    ∀ p ∈ t.spots ρ, ∃ p' ∈ t.spots ρ', p.Keeps K p' := by
  refine children_ind fun t ih {ρ ρ'} h p hp => ?_
  rcases mem_spots.mp hp with rfl | ⟨u, hu, hp⟩
  · exact ⟨_, head_mem_spots ρ' t, rfl, rfl,
      fun e he x hx => h x ⟨t, self_mem_nodes t, e, he, hx⟩⟩
  · have hBelow : ∀ x, u.Uses x → K x →
        (t.ownLoop ++ ρ').lookup x = (t.ownLoop ++ ρ).lookup x := by
      intro x hx hK
      rw [List.lookup_append, List.lookup_append,
        h x (hx.of_mem (mem_nodes_of_child hu (self_mem_nodes u))) hK]
    obtain ⟨p', hp', hKeeps⟩ := ih u hu hBelow p hp
    exact ⟨p', mem_spots_of_child hu hp', hKeeps⟩

/-- The spots around a replaced statement stay. -/
theorem Replaces.exists_spots {u v t t' : Stmt} (h : Replaces u v t t') : ∀ ρ : LoopScope,
    ∃ before after σ, t.spots ρ = before ++ u.spots σ ++ after
      ∧ t'.spots ρ = before ++ v.spots σ ++ after := by
  induction h with
  | here => exact fun ρ => ⟨[], [], ρ, by simp, by simp⟩
  | @decl t t' s n b _ ih =>
    intro ρ
    obtain ⟨before, after, σ, hOld, hNew⟩ := ih ρ
    exact ⟨⟨ρ, s, b.shape⟩ :: before, after, σ, by simp [spots, exprs, hOld],
      by simp [spots, exprs, hNew]⟩
  | @loop t t' s head _ ih =>
    intro ρ
    obtain ⟨before, after, σ, hOld, hNew⟩ := ih ((head.iter, s) :: ρ)
    exact ⟨⟨ρ, s, [head.lower, head.upper]⟩ :: before, after, σ, by simp [spots, exprs, hOld],
      by simp [spots, exprs, hNew]⟩
  | @guard t t' s e _ ih =>
    intro ρ
    obtain ⟨before, after, σ, hOld, hNew⟩ := ih ρ
    exact ⟨⟨ρ, s, [e]⟩ :: before, after, σ, by simp [spots, exprs, hOld],
      by simp [spots, exprs, hNew]⟩
  | @yes t t' s e no _ ih =>
    intro ρ
    obtain ⟨before, after, σ, hOld, hNew⟩ := ih ρ
    exact ⟨⟨ρ, s, [e]⟩ :: before, after ++ no.spots ρ, σ, by simp [spots, exprs, hOld],
      by simp [spots, exprs, hNew]⟩
  | @no t t' s e yes _ ih =>
    intro ρ
    obtain ⟨before, after, σ, hOld, hNew⟩ := ih ρ
    exact ⟨⟨ρ, s, [e]⟩ :: (yes.spots ρ ++ before), after, σ, by simp [spots, exprs, hOld],
      by simp [spots, exprs, hNew]⟩
  | @block t t' s first last _ ih =>
    intro ρ
    obtain ⟨before, after, σ, hOld, hNew⟩ := ih ρ
    exact ⟨⟨ρ, s, []⟩ :: (first.flatMap (spots ρ) ++ before), after ++ last.flatMap (spots ρ), σ,
      by simp [spots, spotsAll_eq_flatMap, exprs, hOld],
      by simp [spots, spotsAll_eq_flatMap, exprs, hNew]⟩

end Stmt

namespace Restructure

open Stmt (LabelledLoop Spot)

/-! ## Turning a nest -/

/-- The loops of a nest as they are seen from its body. -/
def scopeOf (loops : List (Site × LoopHead)) : LoopScope :=
  (loops.map fun l => (l.2.iter, l.1)).reverse

theorem scopeOf_cons (l : Site × LoopHead) (loops : List (Site × LoopHead)) (ρ : LoopScope) :
    scopeOf (l :: loops) ++ ρ = scopeOf loops ++ (l.2.iter, l.1) :: ρ := by
  simp [scopeOf]

/-- What a scalar refers to below a nest depends only on the loops that count by it. -/
theorem lookup_scopeOf (loops : List (Site × LoopHead)) (x : String) :
    (scopeOf loops).lookup x = (scopeOf (loops.filter (·.2.iter == x))).lookup x := by
  have hFilter : ∀ ρ : LoopScope, (ρ.filter (·.1 == x)).lookup x = ρ.lookup x := by
    intro ρ
    induction ρ with
    | nil => rfl
    | cons a ρ ih =>
      obtain ⟨y, s⟩ := a
      by_cases hy : y = x
      · subst hy
        rw [List.filter_cons_of_pos (by simp), List.lookup_cons, List.lookup_cons, ih]
      · have hNe : (x == y) = false := beq_eq_false_iff_ne.mpr (Ne.symm hy)
        rw [List.filter_cons_of_neg (by simp [hy]), ih, List.lookup_cons, hNe]
  have hScope : scopeOf (loops.filter (·.2.iter == x)) = (scopeOf loops).filter (·.1 == x) := by
    rw [scopeOf, scopeOf, List.filter_reverse, List.filter_map]
    rfl
  rw [hScope, hFilter]

/-- The spots of a nest are those of its loops and those of its body. -/
theorem mem_spots_nestOf {body : Stmt} {p : Spot} : ∀ (loops : List (Site × LoopHead))
    {ρ : LoopScope}, p ∈ (nestOf loops body).spots ρ ↔
      (∃ before l after, loops = before ++ l :: after
        ∧ p = ⟨scopeOf before ++ ρ, l.1, [l.2.lower, l.2.upper]⟩)
      ∨ p ∈ body.spots (scopeOf loops ++ ρ) := by
  intro loops
  induction loops with
  | nil => intro ρ; simp [nestOf, scopeOf]
  | cons l loops ih =>
    intro ρ
    have hHere : p ∈ (nestOf (l :: loops) body).spots ρ ↔
        p = ⟨ρ, l.1, [l.2.lower, l.2.upper]⟩
          ∨ p ∈ (nestOf loops body).spots ((l.2.iter, l.1) :: ρ) := by
      show p ∈ (Stmt.loop l.1 l.2 (nestOf loops body)).spots ρ ↔ _
      rw [Stmt.spots, List.mem_cons]
      rfl
    rw [hHere, ih, scopeOf_cons, ← or_assoc]
    refine or_congr_left ⟨?_, ?_⟩
    · rintro (rfl | ⟨before, l', after, rfl, rfl⟩)
      · exact ⟨[], l, loops, rfl, rfl⟩
      · exact ⟨l :: before, l', after, rfl, by rw [scopeOf_cons]⟩
    · rintro ⟨before, l', after, hSplit, rfl⟩
      cases before with
      | nil =>
        cases hSplit
        exact .inl rfl
      | cons b before =>
        cases hSplit
        exact .inr ⟨before, l', after, rfl, by rw [scopeOf_cons]⟩

/-- No bound of a loop mentions by what the other loops count, unless that is its own iterator. -/
def BoundsFree (loops : List (Site × LoopHead)) : Prop :=
  ∀ a ∈ loops, ∀ b ∈ loops, b.2.iter ≠ a.2.iter →
    ∀ e ∈ [a.2.lower, a.2.upper], b.2.iter ∉ e.scalars

/-- **Turned nests**: in another order of its loops a nest keeps the bindings of the scalars for which
    the loops that count by them keep their order. -/
theorem exists_keeps_permuted {K : String → Prop} {body : Stmt} {loops loops' : List (Site × LoopHead)}
    (hPerm : loops.Perm loops') (hNodup : loops.Nodup) (hFree : BoundsFree loops)
    (hOrder : ∀ x, K x → loops.filter (·.2.iter == x) = loops'.filter (·.2.iter == x))
    (ρ : LoopScope) : ∀ p ∈ (nestOf loops body).spots ρ,
      ∃ p' ∈ (nestOf loops' body).spots ρ, p.Keeps K p' := by
  intro p hp
  rcases (mem_spots_nestOf loops).mp hp with ⟨before, l, after, rfl, rfl⟩ | hp
  · have hl : l ∈ before ++ l :: after := by simp
    obtain ⟨before', after', rfl⟩ := List.append_of_mem (hPerm.subset hl)
    refine ⟨_, (mem_spots_nestOf _).mpr (.inl ⟨before', l, after', rfl, rfl⟩), rfl, rfl,
      fun e he x hx hK => ?_⟩
    have hSame : before'.filter (·.2.iter == x) = before.filter (·.2.iter == x) := by
      by_cases hOwn : l.2.iter = x
      · -- of the loops that count by this scalar the same ones are around the loop
        have hAll := hOrder x hK
        simp only [List.filter_append, List.filter_cons, hOwn, beq_self_eq_true, if_pos] at hAll
        rw [List.nodup_middle, List.nodup_cons, List.mem_append, not_or] at hNodup
        obtain ⟨⟨hBefore, hAfter⟩, _⟩ := hNodup
        exact ((List.append_cons_inj_of_notMem (fun h => hBefore (List.mem_of_mem_filter h))
          fun h => hAfter (List.mem_of_mem_filter h)).mp hAll).1.symm
      · -- no loop of the nest counts by this scalar
        have hNone : ∀ bs : List (Site × LoopHead), (∀ b ∈ bs, b ∈ before ++ l :: after) →
            bs.filter (·.2.iter == x) = [] := by
          intro bs hbs
          refine List.filter_eq_nil_iff.mpr fun b hb hIter => ?_
          obtain rfl : b.2.iter = x := by simpa using hIter
          exact hFree l hl b (hbs b hb) (Ne.symm hOwn) e he hx
        rw [hNone before fun b hb => List.mem_append_left _ hb,
          hNone before' fun b hb => hPerm.symm.subset (List.mem_append_left _ hb)]
    show (scopeOf before' ++ ρ).lookup x = (scopeOf before ++ ρ).lookup x
    rw [List.lookup_append, List.lookup_append, lookup_scopeOf before', lookup_scopeOf before, hSame]
  · have hScopes : ∀ x, K x → (scopeOf loops' ++ ρ).lookup x = (scopeOf loops ++ ρ).lookup x := by
      intro x hK
      rw [List.lookup_append, List.lookup_append, lookup_scopeOf loops', lookup_scopeOf loops,
        hOrder x hK]
    obtain ⟨p', hp', hKeeps⟩ := Stmt.exists_keeps body (fun x _ => hScopes x) p hp
    exact ⟨p', (mem_spots_nestOf loops').mpr (.inr hp'), hKeeps⟩

/-! ## Where expressions come from -/

section origin

variable (t : Stmt) (labels : List String) (K : String → Prop)

/-- A condition that guards what has moved into a nest: it is made of conditions of the program and of
    tests for the first or the last turn of a loop of the request. Below the loops `ρ` the scalars `K`
    refer to what they referred to where these conditions and bounds were.

    In a test for a turn the bound comes to stand below the loop that it belongs to, so a bound that
    mentions the iterator of its own loop is left out here. -/
inductive Woven (ρ : LoopScope) : Expr → Prop where
  | condition {p : Spot} {e : Expr} (hp : p ∈ t.spots []) (he : e ∈ p.exprs)
    (h : ∀ x ∈ e.scalars, K x → ρ.lookup x = p.scope.lookup x) : Woven ρ e
  | turn {l : LabelledLoop} {p : Spot} {bound : Expr} (hl : ∃ label ∈ labels, t.loopAt label = .ok l)
    (hp : p ∈ t.spots []) (hSite : p.site = l.site)
    (hBound : bound = l.head.lower ∨ bound = l.head.upper.minus (.int 1))
    (own : K l.head.iter → ρ.lookup l.head.iter = some l.site)
    (others : ∀ x ∈ bound.scalars, x ≠ l.head.iter → K x → ρ.lookup x = p.scope.lookup x) :
    Woven ρ ((Expr.var l.head.iter).equals bound)
  | both {a b : Expr} (ha : Woven ρ a) (hb : Woven ρ b) : Woven ρ (a.both b)

/-- A spot of a changed program: a statement of the program that keeps its bindings, or a new
    statement with conditions that are woven. -/
def Accounted (p' : Spot) : Prop :=
  (∃ p ∈ t.spots [], p.Keeps K p') ∨ t.size ≤ p'.site.id ∧ ∀ e ∈ p'.exprs, Woven t labels K p'.scope e

/-- An expression of a spot `q` is at the spot `p'`, in the same statement or as a part of a condition
    of a new one, and its scalars refer to the same loops. -/
def Holds (q : Spot) (e : Expr) (p' : Spot) : Prop :=
  (p'.site = q.site ∧ p'.exprs = q.exprs ∨ t.size ≤ p'.site.id)
    ∧ (∃ e' ∈ p'.exprs, e ∈ e'.parts) ∧ ∀ x ∈ e.scalars, K x → p'.scope.lookup x = q.scope.lookup x

end origin

section sinking

variable {t : Stmt} {labels : List String} {K : String → Prop}

theorem Woven.keeps {ρ ρ' : LoopScope} {e : Expr} (h : Woven t labels K ρ e)
    (hSame : ∀ x ∈ e.scalars, K x → ρ'.lookup x = ρ.lookup x) : Woven t labels K ρ' e := by
  induction h with
  | condition hp he h => exact .condition hp he fun x hx hK => by rw [hSame x hx hK, h x hx hK]
  | turn hl hp hSite hBound own others =>
    refine .turn hl hp hSite hBound (fun hK => ?_) fun x hx hNe hK => ?_
    · rw [hSame _ (by simp [Expr.equals]) hK, own hK]
    · rw [hSame x (by simp [Expr.equals, hx]) hK, others x hx hNe hK]
  | both _ _ iha ihb =>
    exact .both (iha fun x hx => hSame x (by simp [Expr.both, hx]))
      (ihb fun x hx => hSame x (by simp [Expr.both, hx]))

theorem Accounted.keeps {p p' : Spot} (h : Accounted t labels K p) (hKeeps : p.Keeps K p') :
    Accounted t labels K p' := by
  rcases h with ⟨q, hq, hOld⟩ | ⟨hNew, hWoven⟩
  · exact .inl ⟨q, hq, hOld.trans hKeeps⟩
  · refine .inr ⟨hKeeps.site ▸ hNew, fun e he => ?_⟩
    rw [hKeeps.exprs] at he
    exact (hWoven e he).keeps (hKeeps.scalars e he)

theorem Holds.keeps {q p p' : Spot} {e : Expr} (h : Holds t K q e p) (hKeeps : p.Keeps K p') :
    Holds t K q e p' := by
  obtain ⟨hStmt, ⟨e', he', hPart⟩, hScalars⟩ := h
  refine ⟨?_, ⟨e', hKeeps.exprs ▸ he', hPart⟩, fun x hx hK => ?_⟩
  · rwa [hKeeps.site, hKeeps.exprs]
  · rw [hKeeps.scalars e' he' x (Expr.scalars_subset_of_mem_parts hPart hx) hK, hScalars x hx hK]

theorem Holds.self {q : Spot} {e : Expr} (he : e ∈ q.exprs) : Holds t K q e q :=
  ⟨.inl ⟨rfl, rfl⟩, ⟨e, he, Expr.self_mem_parts e⟩, fun _ _ _ => rfl⟩

/-- One more loop around a statement that does not use its iterator. -/
theorem lookup_cons_of_unused {w : Stmt} {iter : String} (hUses : ¬ w.Uses iter) (s : Site)
    (ρ : LoopScope) : ∀ x, w.Uses x → K x →
      List.lookup x ((iter, s) :: ρ) = ρ.lookup x := by
  intro x hx _
  have hNe : (x == iter) = false := beq_eq_false_iff_ne.mpr (by rintro rfl; exact hUses hx)
  rw [List.lookup_cons, hNe]

/-! ## Sinking -/

/-- What is created for what has moved into a loop is accounted for. -/
theorem partClosed_accounted (ρ : LoopScope) : PartClosed t.size (Woven t labels K ρ)
    fun w => ∀ p ∈ w.spots ρ, Accounted t labels K p where
  block s ts hId hts p hp := by
    rcases Stmt.mem_spots.mp hp with rfl | ⟨w, hw, hp⟩
    · exact .inr ⟨hId, fun e he => absurd he List.not_mem_nil⟩
    · exact hts w hw p hp
  guard s e body hId he hBody p hp := by
    rcases Stmt.mem_spots.mp hp with rfl | ⟨w, hw, hp⟩
    · exact .inr ⟨hId, fun e' he' => List.mem_singleton.mp he' ▸ he⟩
    · exact hBody p (List.mem_singleton.mp hw ▸ hp)

/-- What is gathered around an inner loop is accounted for when the outer body is. -/
theorem Framed.accounted {inner u : Stmt} {b : Between} (h : Framed inner u b) {ρ : LoopScope}
    (hu : ∀ p ∈ u.spots ρ, Accounted t labels K p) :
    (∀ p ∈ inner.spots ρ, Accounted t labels K p) ∧ (∀ e ∈ b.conds, Woven t labels K ρ e)
      ∧ ∀ w ∈ b.before ++ b.after, ∀ p ∈ w.spots ρ, Accounted t labels K p := by
  refine h.parts (C := Woven t labels K ρ) (P := fun w => ∀ p ∈ w.spots ρ, Accounted t labels K p)
    (fun s ts hBlock w hw p hp => hBlock p (Stmt.mem_spots_of_child hw hp))
    (fun s e body hGuard => ⟨?_, fun p hp =>
      hGuard p (Stmt.mem_spots_of_child List.mem_cons_self hp)⟩) hu
  rcases hGuard _ (Stmt.head_mem_spots ρ _) with ⟨q, hq, hKeeps⟩ | ⟨_, hWoven⟩
  · have he : e ∈ q.exprs := hKeeps.exprs ▸ List.mem_singleton_self e
    exact .condition hq he (hKeeps.scalars e he)
  · exact hWoven e (List.mem_singleton_self e)

/-- Statements that may move into a loop do not use its iterator. -/
theorem Between.unused_of_check {b : Between} {h : LoopHead} (hCheck : b.check h = .ok ()) :
    ∀ w ∈ b.before ++ b.after, ¬ w.Uses h.iter := by
  intro w hw
  rcases Between.of_check hCheck with ⟨hBefore, hAfter⟩ | ⟨hMovable, _⟩
  · rw [hBefore, hAfter] at hw
    cases hw
  · exact (of_movable (hMovable w hw)).1

/-- The scalars of an expression that does not mention an iterator refer to the same loops below a
    loop that counts by it. -/
theorem lookup_cons_of_mentions {e : Expr} {iter : String} (h : e.mentions iter = false) (s : Site)
    (ρ : LoopScope) : ∀ x ∈ e.scalars, K x → List.lookup x ((iter, s) :: ρ) = ρ.lookup x := by
  intro x hx _
  have hNe : (x == iter) = false := by
    refine beq_eq_false_iff_ne.mpr ?_
    rintro rfl
    rw [Expr.mentions_iff.mpr hx] at h
    cases h
  rw [List.lookup_cons, hNe]

section inner

variable {inner : LabelledLoop} {b : Between} {n : Nat} {ρ : LoopScope}

/-- A test for the first or the last turn of a loop. -/
theorem woven_turn (hInner : ∃ label ∈ labels, t.loopAt label = .ok inner)
    (hOld : inner.site.id < t.size) (hHead : Accounted t labels K
      ⟨ρ, inner.site, [inner.head.lower, inner.head.upper]⟩) {bound : Expr}
    (hBound : bound = inner.head.lower ∨ bound = inner.head.upper.minus (.int 1)) :
    Woven t labels K ((inner.head.iter, inner.site) :: ρ)
      ((Expr.var inner.head.iter).equals bound) := by
  rcases hHead with ⟨p, hp, hKeeps⟩ | ⟨hNew, _⟩
  · refine .turn hInner hp hKeeps.site.symm hBound (fun _ => ?_) fun x hx hNe hK => ?_
    · rw [List.lookup_cons, beq_self_eq_true]
    · have hScalar : ∃ e ∈ p.exprs, x ∈ e.scalars := by
        rw [← hKeeps.exprs]
        rcases hBound with rfl | rfl
        · exact ⟨inner.head.lower, by simp, hx⟩
        · refine ⟨inner.head.upper, by simp, ?_⟩
          simpa using Expr.mem_scalars_minus hx
      obtain ⟨e, he, hx⟩ := hScalar
      rw [List.lookup_cons, beq_eq_false_iff_ne.mpr hNe]
      exact hKeeps.scalars e he x hx hK
  · exact absurd hOld (Nat.not_lt.mpr hNew)

/-- **Sinking** one loop: the outer body is accounted for after everything in it has moved into the
    inner loop. -/
theorem accounted_sunk {u : Stmt} (framed : Framed inner.stmt u b)
    (check : b.check inner.head = .ok ()) (conds : ∀ e ∈ b.conds, e.mentions inner.head.iter = false)
    (new : t.size ≤ n) (hInner : ∃ label ∈ labels, t.loopAt label = .ok inner)
    (hOld : inner.site.id < t.size) (hu : ∀ p ∈ u.spots ρ, Accounted t labels K p) :
    ∀ p ∈ (Stmt.loop inner.site inner.head (b.innerBody inner n).1).spots ρ,
      Accounted t labels K p := by
  obtain ⟨hLoop, hConds, hParts⟩ := framed.accounted hu
  have hHead := hLoop _ (Stmt.head_mem_spots ρ inner.stmt)
  have hBody : ∀ p ∈ inner.body.spots ((inner.head.iter, inner.site) :: ρ),
      Accounted t labels K p :=
    fun p hp => hLoop p (Stmt.mem_spots_of_child (t := inner.stmt) List.mem_cons_self hp)
  have hMoved : ∀ w ∈ b.before ++ b.after,
      ∀ p ∈ w.spots ((inner.head.iter, inner.site) :: ρ), Accounted t labels K p := by
    intro w hw p hp
    have hUses := Between.unused_of_check check w hw
    obtain ⟨p', hp', hKeeps⟩ := Stmt.exists_keeps (K := K) w
      (fun x hx hK => (lookup_cons_of_unused hUses inner.site ρ x hx hK).symm) p hp
    exact (hParts w hw p' hp').keeps hKeeps.symm
  have hNew := (partClosed_accounted ((inner.head.iter, inner.site) :: ρ)).innerBody new
    (fun _ _ => .both) (woven_turn hInner hOld hHead (.inl rfl))
    (woven_turn hInner hOld hHead (.inr rfl))
    (fun e he => (hConds e he).keeps (lookup_cons_of_mentions (conds e he) inner.site ρ))
    hMoved hBody
  intro p hp
  rcases Stmt.mem_spots.mp hp with rfl | ⟨w, hw, hp⟩
  · exact hHead
  · exact hNew p (List.mem_singleton.mp hw ▸ hp)

end inner

/-- **Sinking**: a perfect nest is accounted for when the chain is of which it is made. -/
theorem Sinks.accounted {outer : LabelledLoop} {rest : List LabelledLoop} {nest : PerfectNest}
    (h : Sinks t.size outer rest nest) : ∀ ρ : LoopScope,
    (∀ l ∈ rest, (∃ label ∈ labels, t.loopAt label = .ok l) ∧ l.site.id < t.size) →
    (∀ p ∈ outer.stmt.spots ρ, Accounted t labels K p) →
    ∀ p ∈ (nestOf nest.loops nest.body).spots ρ, Accounted t labels K p := by
  induction h with
  | last l => exact fun ρ _ hOuter => hOuter
  | @next outer inner rest b nest n framed check conds new _ ih =>
    intro ρ hRest hOuter
    obtain ⟨hInner, hOld⟩ := hRest inner List.mem_cons_self
    have hSunk := accounted_sunk framed check conds new hInner hOld
      fun p hp => hOuter p (Stmt.mem_spots_of_child (t := outer.stmt) List.mem_cons_self hp)
    have hNest := ih _ (fun l hl => hRest l (List.mem_cons_of_mem inner hl)) hSunk
    intro p hp
    rcases Stmt.mem_spots.mp hp with rfl | ⟨w, hw, hp⟩
    · exact hOuter _ (Stmt.head_mem_spots ρ outer.stmt)
    · obtain rfl : w = nestOf nest.loops nest.body := List.mem_singleton.mp hw
      exact hNest p hp

/-! ## Nothing is lost -/

/-- What is in an outer body is in the inner loop or beside it, or it is a condition around it. -/
theorem Framed.spots_cases {inner u : Stmt} {b : Between} (h : Framed inner u b) {ρ : LoopScope}
    {p : Spot} (hp : p ∈ u.spots ρ) : p ∈ inner.spots ρ ∨ (∃ w ∈ b.before ++ b.after, p ∈ w.spots ρ)
      ∨ p.exprs = [] ∨ ∃ e ∈ b.conds, p.scope = ρ ∧ p.exprs = [e] := by
  induction h with
  | here => exact .inl hp
  | @guard body b s e _ ih =>
    rcases Stmt.mem_spots.mp hp with rfl | ⟨w, hw, hp⟩
    · exact .inr (.inr (.inr ⟨e, List.mem_cons_self, rfl, rfl⟩))
    · obtain rfl : w = body := List.mem_singleton.mp hw
      rcases ih hp with hInner | hMoved | hNone | ⟨e', he', hScope, hExprs⟩
      · exact .inl hInner
      · exact .inr (.inl hMoved)
      · exact .inr (.inr (.inl hNone))
      · exact .inr (.inr (.inr ⟨e', List.mem_cons_of_mem e he', hScope, hExprs⟩))
  | @block w b s first last _ ih =>
    rcases Stmt.mem_spots.mp hp with rfl | ⟨w', hw', hp⟩
    · exact .inr (.inr (.inl rfl))
    · have hSplit : w' ∈ first ∨ w' = w ∨ w' ∈ last := by simpa [Stmt.children] using hw'
      rcases hSplit with hFirst | rfl | hLast
      · exact .inr (.inl ⟨w', by simp [hFirst], hp⟩)
      · rcases ih hp with hInner | ⟨w, hw, hp⟩ | hRest
        · exact .inl hInner
        · refine .inr (.inl ⟨w, ?_, hp⟩)
          rcases List.mem_append.mp hw with hw | hw <;> simp [hw]
        · exact .inr (.inr hRest)
      · exact .inr (.inl ⟨w', by simp [hLast], hp⟩)

theorem mem_spots_sequenceAt {next : Nat} {ts : List Stmt} {w : Stmt} (hw : w ∈ ts) {ρ : LoopScope}
    {p : Spot} (hp : p ∈ w.spots ρ) : p ∈ (sequenceAt next ts).1.spots ρ := by
  unfold sequenceAt
  split
  · exact List.mem_singleton.mp hw ▸ hp
  · exact Stmt.mem_spots_of_child (t := .block _ _) hw hp

theorem mem_spots_guardedAt {next : Nat} {e : Expr} {ts : List Stmt} {w : Stmt} (hw : w ∈ ts)
    {ρ : LoopScope} {p : Spot} (hp : p ∈ w.spots ρ) :
    ∃ g ∈ (guardedAt next e ts).1, p ∈ g.spots ρ := by
  cases ts with
  | nil => cases hw
  | cons v ts => exact ⟨_, List.mem_singleton_self _, Stmt.mem_spots_of_child (t := .guard _ _ _)
      List.mem_cons_self (mem_spots_sequenceAt hw hp)⟩

theorem mem_parts_allOf {conds : List Expr} {last e : Expr} (h : e ∈ conds ++ [last]) :
    e ∈ (allOf conds last).parts := by
  induction conds with
  | nil =>
    obtain rfl : e = last := List.mem_singleton.mp h
    exact Expr.self_mem_parts e
  | cons c conds ih =>
    rcases List.mem_cons.mp h with rfl | h
    · exact Expr.mem_parts_left (Expr.self_mem_parts e)
    · exact Expr.mem_parts_right (ih h)

section inner

variable {inner : LabelledLoop} {b : Between} {n : Nat} {ρ : LoopScope} {p : Spot}

/-- The new inner body holds the old one. -/
theorem mem_spots_innerBody (hp : p ∈ inner.body.spots ρ) :
    p ∈ (b.innerBody inner n).1.spots ρ := by
  obtain ⟨guarded, k, l, _, _, hEq, _, hGuarded⟩ := innerBody_eq b inner n
  have hGuard : p ∈ guarded.spots ρ := by
    rcases hGuarded with ⟨_, rfl⟩ | ⟨outer, e, id, _, _, rfl⟩
    · exact hp
    · exact Stmt.mem_spots_of_child (t := .guard _ _ _) List.mem_cons_self hp
  rw [hEq]
  exact mem_spots_sequenceAt (w := guarded) (by simp) hGuard

/-- The new inner body holds what has moved into it. -/
theorem mem_spots_innerBody_of_moved {w : Stmt} (hw : w ∈ b.before ++ b.after)
    (hp : p ∈ w.spots ρ) : p ∈ (b.innerBody inner n).1.spots ρ := by
  obtain ⟨guarded, k, l, _, _, hEq, _, _⟩ := innerBody_eq b inner n
  rw [hEq]
  rcases List.mem_append.mp hw with hw | hw
  · obtain ⟨g, hg, hp⟩ := mem_spots_guardedAt hw hp
    exact mem_spots_sequenceAt (List.mem_append_left _ (List.mem_append_left _ hg)) hp
  · obtain ⟨g, hg, hp⟩ := mem_spots_guardedAt hw hp
    exact mem_spots_sequenceAt (List.mem_append_right _ hg) hp

/-- The conditions around an inner loop become parts of a condition in it. -/
theorem exists_spot_of_condition (inner : LabelledLoop) (n : Nat) {e : Expr} (he : e ∈ b.conds)
    (ρ : LoopScope) : ∃ p ∈ (b.innerBody inner n).1.spots ρ,
      n ≤ p.site.id ∧ p.scope = ρ ∧ ∃ e' ∈ p.exprs, e ∈ e'.parts := by
  obtain ⟨guarded, k, l, _, _, hEq, _, hGuarded⟩ := innerBody_eq b inner n
  rcases hGuarded with ⟨hNone, _⟩ | ⟨outer, last, id, hSplit, hId, rfl⟩
  · rw [hNone] at he
    cases he
  · refine ⟨⟨ρ, ⟨id, none⟩, [allOf outer last]⟩, ?_, hId, rfl, allOf outer last,
      List.mem_singleton_self _, mem_parts_allOf (hSplit ▸ he)⟩
    rw [hEq]
    exact mem_spots_sequenceAt (w := .guard ⟨id, none⟩ (allOf outer last) inner.body) (by simp)
      (Stmt.head_mem_spots ρ _)

/-- Nothing is lost when everything in an outer body moves into the inner loop. -/
theorem held_sunk {u : Stmt} (framed : Framed inner.stmt u b) (check : b.check inner.head = .ok ())
    (conds : ∀ e ∈ b.conds, e.mentions inner.head.iter = false) (new : t.size ≤ n) {q : Spot}
    {e : Expr} (hp : p ∈ u.spots ρ) (h : Holds t K q e p) :
    ∃ p' ∈ (Stmt.loop inner.site inner.head (b.innerBody inner n).1).spots ρ, Holds t K q e p' := by
  have hBelow : ∀ p' ∈ (b.innerBody inner n).1.spots ((inner.head.iter, inner.site) :: ρ),
      p' ∈ (Stmt.loop inner.site inner.head (b.innerBody inner n).1).spots ρ := fun p' hp' =>
    Stmt.mem_spots_of_child (t := .loop _ _ _) List.mem_cons_self hp'
  rcases framed.spots_cases hp with hInner | ⟨w, hw, hp⟩ | hNone | ⟨c, hc, rfl, hExprs⟩
  · rcases Stmt.mem_spots.mp hInner with rfl | ⟨w, hw, hp⟩
    · exact ⟨_, Stmt.head_mem_spots ρ _, h⟩
    · obtain rfl : w = inner.body := List.mem_singleton.mp hw
      exact ⟨p, hBelow p (mem_spots_innerBody hp), h⟩
  · -- what stood beside the inner loop comes below it, and does not mention its iterator
    obtain ⟨p', hp', hKeeps⟩ := Stmt.exists_keeps (K := K) w
      (lookup_cons_of_unused (Between.unused_of_check check w hw) inner.site ρ) p hp
    exact ⟨p', hBelow p' (mem_spots_innerBody_of_moved hw hp'), h.keeps hKeeps⟩
  · obtain ⟨_, ⟨e', he', _⟩, _⟩ := h
    rw [hNone] at he'
    cases he'
  · -- a condition becomes a part of the guard of the body
    obtain ⟨p', hp', hNew, hScope, e', he', hPart⟩ :=
      exists_spot_of_condition inner n hc ((inner.head.iter, inner.site) :: p.scope)
    obtain ⟨_, ⟨e'', he'', hPart'⟩, hScalars⟩ := h
    obtain rfl : e'' = c := List.mem_singleton.mp (hExprs ▸ he'')
    refine ⟨p', hBelow p' hp', .inr (Nat.le_trans new hNew),
      ⟨e', he', Expr.parts_subset hPart hPart'⟩, fun x hx hK => ?_⟩
    rw [hScope, lookup_cons_of_mentions (conds e'' hc) inner.site p.scope x
      (Expr.scalars_subset_of_mem_parts hPart' hx) hK]
    exact hScalars x hx hK

end inner

/-- **Sinking** loses nothing: what the chain holds is in the perfect nest that is made of it. -/
theorem Sinks.held {outer : LabelledLoop} {rest : List LabelledLoop} {nest : PerfectNest}
    (h : Sinks t.size outer rest nest) {q : Spot} {e : Expr} : ∀ ρ : LoopScope,
    (∃ p ∈ outer.stmt.spots ρ, Holds t K q e p) →
    ∃ p ∈ (nestOf nest.loops nest.body).spots ρ, Holds t K q e p := by
  induction h with
  | last l => exact fun ρ hOuter => hOuter
  | @next outer inner rest b nest n framed check conds new _ ih =>
    rintro ρ ⟨p, hp, hHolds⟩
    rcases Stmt.mem_spots.mp hp with rfl | ⟨w, hw, hp⟩
    · exact ⟨_, Stmt.head_mem_spots ρ (.loop outer.site outer.head _), hHolds⟩
    · obtain rfl : w = outer.body := List.mem_singleton.mp hw
      obtain ⟨p', hp', hHolds⟩ := ih _ (held_sunk framed check conds new hp hHolds)
      exact ⟨p', Stmt.mem_spots_of_child (t := .loop outer.site outer.head _) List.mem_cons_self hp',
        hHolds⟩

end sinking

/-! ## Requests -/

section requests

variable {t t' : Stmt} {maxLevels : Nat} {labels : List String} {outer : LabelledLoop}
  {rest : List LabelledLoop} {order : List Nat} {nest : PerfectNest}

/-- The loops among some that count by a scalar. -/
def loopsOver (x : String) (ls : List LabelledLoop) : List LabelledLoop :=
  ls.filter (·.head.iter == x)

/-- The loops of a request that count by a scalar keep their order among themselves. -/
def KeepsOrder (t : Stmt) (labels : List String) (x : String) : Prop :=
  ∀ chain named, chainOf t labels = .ok chain → namedLoops t [] labels = .ok named →
    loopsOver x named = loopsOver x chain

/-- The chain of a request has the loops that the request names. -/
theorem chain_perm {chain named : List LabelledLoop} (hChain : chainOf t labels = .ok chain)
    (hNamed : namedLoops t [] labels = .ok named) : chain.Perm named := by
  rw [chainOf, hNamed] at hChain
  obtain rfl := Except.ok.inj hChain
  exact List.mergeSort_perm _ _

/-- Loops with different iterators keep their order for every scalar. -/
theorem keepsOrder_of_iters (hIters : ∀ label ∈ labels, ∀ label' ∈ labels, ∀ l l',
      t.loopAt label = .ok l → t.loopAt label' = .ok l' → l.head.iter = l'.head.iter →
      l.site.id = l'.site.id) (x : String) : KeepsOrder t labels x := by
  intro chain named hChain hNamed
  obtain ⟨hNodup, hEach⟩ := of_namedLoops labels [] named hNamed List.nodup_nil
  have hPerm : (loopsOver x chain).Perm (loopsOver x named) := (chain_perm hChain hNamed).filter _
  -- at most one of the loops counts by the scalar
  match hOver : loopsOver x named with
  | [] => exact (List.perm_nil.mp (hOver ▸ hPerm)).symm
  | [l] => exact (List.perm_singleton.mp (hOver ▸ hPerm)).symm
  | l :: l' :: ls =>
    have hMem : ∀ a ∈ l :: l' :: ls, a ∈ named ∧ a.head.iter = x := by
      rw [← hOver]
      exact fun a ha => by simpa [loopsOver] using ha
    obtain ⟨hl, hIter⟩ := hMem l (by simp)
    obtain ⟨hl', hIter'⟩ := hMem l' (by simp)
    obtain ⟨label, hLabel, hAt⟩ := (hEach l hl).resolve_left List.not_mem_nil
    obtain ⟨label', hLabel', hAt'⟩ := (hEach l' hl').resolve_left List.not_mem_nil
    have hSame := hIters label hLabel label' hLabel' l l' hAt hAt' (hIter.trans hIter'.symm)
    have hDistinct : ((l :: l' :: ls).map (·.site.id)).Nodup :=
      hOver ▸ hNodup.sublist (List.filter_sublist.map _)
    simp [hSame] at hDistinct

/-- The permuted nest has the loops in the order of the request. -/
theorem Reordered.permuted_eq (h : Reordered maxLevels t t' labels outer rest order nest)
    (hLoops : nest.loops = (outer :: rest).map fun l => (l.site, l.head)) {named : List LabelledLoop}
    (hNamed : namedLoops t [] labels = .ok named) :
    order.filterMap (nest.loops[·]?) = named.map fun l => (l.site, l.head) := by
  have hPerm := chain_perm h.chain hNamed
  have hPlace : ∀ l ∈ named, nest.loops[(outer :: rest).findIdx (·.site.id == l.site.id)]?
      = some (l.site, l.head) := by
    intro l hl
    have hLess : (outer :: rest).findIdx (·.site.id == l.site.id) < (outer :: rest).length :=
      List.findIdx_lt_length_of_exists ⟨l, hPerm.symm.subset hl, beq_self_eq_true _⟩
    have hSame : (outer :: rest)[(outer :: rest).findIdx (·.site.id == l.site.id)] = l :=
      List.inj_on_of_nodup_map h.ids (List.getElem_mem hLess) (hPerm.symm.subset hl)
        (by simpa using List.findIdx_getElem (w := hLess))
    rw [hLoops, List.getElem?_map, List.getElem?_eq_getElem hLess, hSame]
    rfl
  rw [h.requested named hNamed, List.filterMap_map, ← List.filterMap_eq_map]
  exact List.filterMap_congr hPlace

/-- **Turning** the perfect nest of a request keeps the bindings of the scalars for which the loops
    that count by them keep their order, and no spot is lost or new. -/
theorem Reordered.turned (h : Reordered maxLevels t t' labels outer rest order nest)
    (hLoops : nest.loops = (outer :: rest).map fun l => (l.site, l.head)) (ρ : LoopScope) :
    (∀ p ∈ (nestOf nest.loops nest.body).spots ρ,
      ∃ p' ∈ (nestOf (order.filterMap (nest.loops[·]?)) nest.body).spots ρ,
        p.Keeps (KeepsOrder t labels) p')
    ∧ ∀ p' ∈ (nestOf (order.filterMap (nest.loops[·]?)) nest.body).spots ρ,
      ∃ p ∈ (nestOf nest.loops nest.body).spots ρ, p.Keeps (KeepsOrder t labels) p' := by
  obtain ⟨named, hNamed, _⟩ := Outcome.bind_eq_ok.mp h.chain
  have hChainPerm := chain_perm h.chain hNamed
  have hPermuted := h.permuted_eq hLoops hNamed
  have hPerm : nest.loops.Perm (order.filterMap (nest.loops[·]?)) := by
    rw [hPermuted, hLoops]
    exact hChainPerm.map _
  have hNodup : nest.loops.Nodup := by
    rw [hLoops]
    refine List.Nodup.of_map (·.1.id) ?_
    rw [List.map_map]
    exact h.ids
  have hFree : BoundsFree nest.loops := by
    intro a ha b hb hNe e he hMem
    rw [hLoops] at ha hb
    obtain ⟨l, hl, rfl⟩ := List.mem_map.mp ha
    obtain ⟨l', hl', rfl⟩ := List.mem_map.mp hb
    have hNot := (of_checkBounds (h.bounds l hl) e he).2 _ (List.mem_map_of_mem hl') hNe
    rw [Expr.mentions_iff.mpr hMem] at hNot
    cases hNot
  have hOver : ∀ (ls : List LabelledLoop) (x : String),
      (ls.map fun l => (l.site, l.head)).filter (·.2.iter == x)
        = (loopsOver x ls).map fun l => (l.site, l.head) := fun ls x => List.filter_map
  have hOrder : ∀ x, KeepsOrder t labels x → nest.loops.filter (·.2.iter == x)
      = (order.filterMap (nest.loops[·]?)).filter (·.2.iter == x) := by
    intro x hK
    rw [hPermuted, hLoops, hOver, hOver, hK _ _ h.chain hNamed]
  refine ⟨exists_keeps_permuted hPerm hNodup hFree hOrder ρ, fun p' hp' => ?_⟩
  obtain ⟨p, hp, hKeeps⟩ := exists_keeps_permuted hPerm.symm (hPerm.nodup_iff.mp hNodup)
    (fun a ha b hb => hFree a (hPerm.symm.subset ha) b (hPerm.symm.subset hb))
    (fun x hK => (hOrder x hK).symm) ρ p' hp'
  exact ⟨p, hp, hKeeps.symm⟩

/-- The nest of an accepted request keeps the bindings of the chain. -/
theorem Reordered.keeps_bindings (h : Reordered maxLevels t t' labels outer rest order nest)
    (hIds : t.ids.Nodup) (hLess : ∀ i ∈ t.ids, i < t.size) :
    (∀ p ∈ t.spots [], ∀ e ∈ p.exprs, ∃ p' ∈ t'.spots [], Holds t (KeepsOrder t labels) p e p')
    ∧ ∀ p' ∈ t'.spots [], Accounted t labels (KeepsOrder t labels) p' := by
  obtain ⟨hOuter, hSinks⟩ := h.sinks hIds hLess
  obtain ⟨before, after, σ, hOld, hNew⟩ := (Stmt.replaces_update (u := outer.stmt)
    (v := nestOf (order.filterMap (nest.loops[·]?)) nest.body) t hIds hOuter).exists_spots []
  have hResult : t' = t.update outer.stmt.id fun _ =>
      nestOf (order.filterMap (nest.loops[·]?)) nest.body := h.result
  have hTree : ∀ {p : Spot}, p ∈ t.spots [] ↔ p ∈ before ∨ p ∈ outer.stmt.spots σ ∨ p ∈ after := by
    simp [hOld]
  have hTree' : ∀ {p : Spot}, p ∈ t'.spots [] ↔ p ∈ before
      ∨ p ∈ (nestOf (order.filterMap (nest.loops[·]?)) nest.body).spots σ ∨ p ∈ after := by
    simp [hResult, hNew]
  obtain ⟨hTurned, hTurned'⟩ := h.turned hSinks.loops σ
  refine ⟨fun p hp e he => ?_, fun p' hp' => ?_⟩
  · rcases hTree.mp hp with hBefore | hNest | hAfter
    · exact ⟨p, hTree'.mpr (.inl hBefore), .self he⟩
    · obtain ⟨q, hq, hHolds⟩ := hSinks.held σ ⟨p, hNest, .self (K := KeepsOrder t labels) he⟩
      obtain ⟨p', hp', hKeeps⟩ := hTurned q hq
      exact ⟨p', hTree'.mpr (.inr (.inl hp')), hHolds.keeps hKeeps⟩
    · exact ⟨p, hTree'.mpr (.inr (.inr hAfter)), .self he⟩
  · rcases hTree'.mp hp' with hBefore | hNest | hAfter
    · exact .inl ⟨p', hTree.mpr (.inl hBefore), .refl p'⟩
    · obtain ⟨q, hq, hKeeps⟩ := hTurned' p' hNest
      have hChain : ∀ p ∈ outer.stmt.spots σ, Accounted t labels (KeepsOrder t labels) p :=
        fun p hp => .inl ⟨p, hTree.mpr (.inr (.inl hp)), .refl p⟩
      have hRest : ∀ l ∈ rest, (∃ label ∈ labels, t.loopAt label = .ok l) ∧ l.site.id < t.size :=
        fun l hl => ⟨h.named l (List.mem_cons_of_mem _ hl),
          hLess _ (List.mem_map_of_mem (h.mem_nodes l (List.mem_cons_of_mem _ hl)))⟩
      exact (hSinks.accounted σ hRest hChain q hq).keeps hKeeps
    · exact .inl ⟨p', hTree.mpr (.inr (.inr hAfter)), .refl p'⟩

/-- **Reordering keeps bindings**: after an accepted request every expression of the program is still
    in its statement, or it is a part of a condition that was created for it, and its scalars refer to
    the loops that they referred to. Nothing else is in the new program except tests for the first and
    the last turn of loops of the request, which refer to these loops.

    This is so for all scalars for which the loops of the request that count by them keep their order,
    and for all scalars whatever if the loops have different iterators. -/
theorem reorder_keeps_bindings (h : reorder maxLevels t.number labels = .ok t') :
    (∀ p ∈ t.number.spots [], ∀ e ∈ p.exprs,
      ∃ p' ∈ t'.spots [], Holds t.number (KeepsOrder t.number labels) p e p')
    ∧ (∀ p' ∈ t'.spots [], Accounted t.number labels (KeepsOrder t.number labels) p')
    ∧ ((∀ label ∈ labels, ∀ label' ∈ labels, ∀ l l', t.number.loopAt label = .ok l →
        t.number.loopAt label' = .ok l' → l.head.iter = l'.head.iter → l.site.id = l'.site.id) →
      ∀ x, KeepsOrder t.number labels x) := by
  rw [← and_assoc]
  refine ⟨?_, keepsOrder_of_iters⟩
  rcases reorder_cases h with rfl | ⟨outer, rest, order, nest, hCases⟩
  · exact ⟨fun p hp e he => ⟨p, hp, .self he⟩, fun p' hp' => .inl ⟨p', hp', .refl p'⟩⟩
  · exact hCases.keeps_bindings (Stmt.nodup_ids_number t) Stmt.lt_size_number

/-- The loops of `framedOuter` change places. What was in front of the inner loop comes to stand in it,
    under a test that refers to it, and the iterators refer to the same loops as before. -/
theorem framed_bindings : reorder defaultLevels framedOuter.stmt.number ["L2", "L1"] = .ok framedSwapped
    ∧ (∀ p ∈ framedOuter.stmt.number.spots [], ∀ e ∈ p.exprs, ∃ p' ∈ framedSwapped.spots [],
        Holds framedOuter.stmt.number (fun _ => True) p e p')
    ∧ ∀ p' ∈ framedSwapped.spots [],
        Accounted framedOuter.stmt.number ["L2", "L1"] (KeepsOrder framedOuter.stmt.number ["L2", "L1"])
          p' := by
  have hAccepted : reorder defaultLevels framedOuter.stmt.number ["L2", "L1"]
      = .ok framedSwapped := by cbv
  obtain ⟨hHeld, hAccounted, hAll⟩ := reorder_keeps_bindings hAccepted
  refine ⟨hAccepted, fun p hp e he => ?_, hAccounted⟩
  obtain ⟨p', hp', hStmt, hPart, hScalars⟩ := hHeld p hp e he
  exact ⟨p', hp', hStmt, hPart, fun x hx _ => hScalars x hx (hAll framed_suited.iters x)⟩

/-- Writes eight elements in a loop that counts by the same scalar as the loop around it. -/
def shadowing : Stmt :=
  .loop ⟨0, some "L1"⟩ { iter := "i", lower := .int 0, upper := .int 4 }
    (.loop ⟨1, some "L2"⟩ { iter := "i", lower := .int 0, upper := .int 8 }
      (.store ⟨2, none⟩ "y" [.var "i"] (.int 1)))

/-- The loops of `shadowing` in the other order. -/
def shadowingSwapped : Stmt :=
  .loop ⟨1, some "L2"⟩ { iter := "i", lower := .int 0, upper := .int 8 }
    (.loop ⟨0, some "L1"⟩ { iter := "i", lower := .int 0, upper := .int 4 }
      (.store ⟨2, none⟩ "y" [.var "i"] (.int 1)))

/-- The request is accepted, and the subscript refers to the other loop: `y[7]` is not written. -/
theorem shadowed_rebinds :
    reorder defaultLevels shadowing.number ["L2", "L1"] = .ok shadowingSwapped
      ∧ (∀ p ∈ shadowing.number.spots [], p.site.id = 2 →
        p.scope.lookup "i" = some ⟨1, some "L2"⟩)
      ∧ (∀ p ∈ shadowingSwapped.spots [], p.site.id = 2 →
        p.scope.lookup "i" = some ⟨0, some "L1"⟩)
      ∧ (shadowing.number.run .blank (fun _ => 0) .blank).map (·.1 "y" [7]) = some (some 1)
      ∧ (shadowingSwapped.run .blank (fun _ => 0) .blank).map (·.1 "y" [7]) = some none := by
  refine ⟨by cbv, by decide, by decide, rfl, rfl⟩

end requests

end Restructure

end LoopNest

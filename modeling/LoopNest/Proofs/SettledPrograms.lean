import LoopNest.Proofs.LabelledPrograms
import LoopNest.Proofs.SimplifiedExprs
import LoopNest.Proofs.TranslatedPrograms

/-! # Simplifying twice

  Simplifying a simplified program changes nothing. It need not be so: folding a bound narrows the
  range of an iterator, a loop that gives way puts a constant in the place of its iterator, and a
  negated condition is a new expression; each could leave something for a second pass.

  * **Expressions**: an expression is settled when no part of it changes any more (`Expr.Settled`).
    `combine` makes settled expressions of settled operands (`Expr.Settled.combine`), because its
    result is an operand, a constant, or the operation that it has just left alone. So what is
    simplified is settled (`Expr.settled_simplify`).
  * **Statements**: `Stmt.Settled` says which statements have nothing left to simplify, with the
    ranges that the loops around them give. What remains of a statement is settled
    (`Stmt.settled_of_simplifyTo`): the ranges are taken from bounds that are simplified already,
    and a body is simplified after its iterator is replaced.
  * **Programs**: a settled statement stays as it is (`Stmt.simplifyTo_of_settled`), except that the
    empty block below a visible buffer is made anew, with another number. Programs are therefore
    compared as they are committed, numbered in pre-order. -/

namespace LoopNest

/-! ## Expressions -/

namespace Expr

variable {r : Ranges} {a b e : Expr}

/-- No part of the expression changes when it is simplified. -/
def Settled (r : Ranges) (e : Expr) : Prop := ∀ p ∈ e.parts, p.simplify r = p

theorem Settled.simplify_eq (h : e.Settled r) : e.simplify r = e := h e (self_mem_parts e)

/-- Whether the expression is a constant of any kind. -/
def isConstant : Expr → Bool
  | .int _ | .float _ | .bool _ => true
  | _ => false

theorem settled_of_isConstant (h : e.isConstant = true) : e.Settled r := by
  intro p hp
  cases e <;> simp only [isConstant, reduceCtorEq] at h <;> rw [List.mem_singleton.mp hp] <;> rfl

theorem settled_var (x : String) : (Expr.var x).Settled r := by
  intro p hp
  rw [List.mem_singleton.mp hp]
  rfl

theorem settled_load {name : String} {is : List Expr} (h : ∀ i ∈ is, i.Settled r) :
    (Expr.load name is).Settled r := by
  have hSame : is.map (simplify r) = is :=
    (List.map_congr_left fun i hi => (h i hi).simplify_eq).trans (List.map_id is)
  intro p hp
  rcases List.mem_cons.mp hp with rfl | hp
  · rw [simplify, simplifyAll_eq_map, hSame]
  · obtain ⟨i, hi, hPart⟩ := mem_partsAll.mp hp
    exact h i hi p hPart

theorem settled_unary {op : UnaryOp} :
    (Expr.unary op a).Settled r ↔ combineUnary op a = .unary op a ∧ a.Settled r := by
  constructor
  · intro h
    have ha : a.Settled r := fun p hp => h p (mem_parts_unary hp)
    have hSame := h.simplify_eq
    rw [simplify, ha.simplify_eq] at hSame
    exact ⟨hSame, ha⟩
  · rintro ⟨hSame, ha⟩ p hp
    rcases List.mem_cons.mp hp with rfl | hp
    · rw [simplify, ha.simplify_eq, hSame]
    · exact ha p hp

theorem settled_binary {op : BinaryOp} (hSame : combine r op a b = .binary op a b)
    (ha : a.Settled r) (hb : b.Settled r) : (Expr.binary op a b).Settled r := by
  intro p hp
  rcases List.mem_cons.mp hp with rfl | hp
  · rw [simplify, ha.simplify_eq, hb.simplify_eq, hSame]
  · rcases List.mem_append.mp hp with hp | hp
    · exact ha p hp
    · exact hb p hp

/-! ### One operator -/

theorem isConstant_of_fold? {op : BinaryOp} (h : fold? op a b = some e) : e.isConstant = true := by
  unfold fold? at h
  split at h
  · cases op <;> simp only [foldInts?, reduceCtorEq] at h
    all_goals first
      | cases h
        rfl
      | rw [eq_of_wordConstant? h]
        rfl
      | split at h
        · rw [eq_of_wordConstant? h]
          rfl
        · cases h
  · cases op <;> cases h <;> rfl
  · cases op <;> cases h <;> rfl
  · cases h

/-- An operator gives one of its operands, a constant, or the operation itself. -/
theorem combine_cases (r : Ranges) (op : BinaryOp) (a b : Expr) :
    combine r op a b = a ∨ combine r op a b = b ∨ (combine r op a b).isConstant = true
      ∨ combine r op a b = .binary op a b := by
  unfold combine
  cases hFold : fold? op a b with
  | some e => exact .inr (.inr (.inl (isConstant_of_fold? hFold)))
  | none =>
    rw [Option.getD_none]
    cases op <;> rw [reduce] <;> repeat' split
    all_goals first
      | exact .inl rfl
      | exact .inr (.inl rfl)
      | exact .inr (.inr (.inl rfl))
      | exact .inr (.inr (.inr rfl))

theorem Settled.combine (ha : a.Settled r) (hb : b.Settled r) (op : BinaryOp) :
    (Expr.combine r op a b).Settled r := by
  rcases combine_cases r op a b with hCase | hCase | hConstant | hCase
  · rwa [hCase]
  · rwa [hCase]
  · exact settled_of_isConstant hConstant
  · have hKept := settled_binary hCase ha hb
    rwa [hCase]

/-- An operator with one operand gives a constant, the operation itself, or what was negated twice. -/
theorem combineUnary_cases (op : UnaryOp) (a : Expr) :
    (combineUnary op a).isConstant = true ∨ combineUnary op a = .unary op a
      ∨ a = .unary .not (combineUnary op a) := by
  unfold combineUnary
  split
  · rename_i v
    cases Word.neg? v with
    | none => exact .inr (.inl rfl)
    | some w => exact .inl rfl
  · exact .inl rfl
  · exact .inl rfl
  · exact .inr (.inr rfl)
  · exact .inr (.inl rfl)

theorem Settled.combineUnary (ha : a.Settled r) (op : UnaryOp) :
    (Expr.combineUnary op a).Settled r := by
  rcases combineUnary_cases op a with hConstant | hCase | hTwice
  · exact settled_of_isConstant hConstant
  · have hKept := settled_unary.mpr ⟨hCase, ha⟩
    rwa [hCase]
  · rw [hTwice] at ha
    exact (settled_unary.mp ha).2

/-- **Simplified expressions are settled.** -/
theorem settled_simplify (r : Ranges) : ∀ e : Expr, (e.simplify r).Settled r := by
  refine Expr.ind ?int ?float ?bool ?var ?load ?unary ?binary
  case int => exact fun _ => settled_of_isConstant rfl
  case float => exact fun _ => settled_of_isConstant rfl
  case bool => exact fun _ => settled_of_isConstant rfl
  case var => exact settled_var
  case load =>
    intro name is ih
    rw [simplify, simplifyAll_eq_map]
    refine settled_load fun j hj => ?_
    obtain ⟨i, hi, rfl⟩ := List.mem_map.mp hj
    exact ih i hi
  case unary => exact fun op e ih => ih.combineUnary op
  case binary => exact fun op a b iha ihb => iha.combine ihb op

theorem simplify_simplify (r : Ranges) (e : Expr) : (e.simplify r).simplify r = e.simplify r :=
  (settled_simplify r e).simplify_eq

/-! ### Conditions -/

/-- The condition is no constant. -/
def Open (e : Expr) : Prop := ∀ w, e.isBool w = false

/-- The negation of a condition that is still open is open, too: two negations are never settled
    around a constant. -/
theorem Settled.open_negation (hOpen : e.Open) (h : e.Settled r) : (e.negation.simplify r).Open := by
  have hNegation : e.negation.simplify r = Expr.combineUnary .not e := by
    rw [negation, simplify, h.simplify_eq]
  intro w
  rw [hNegation]
  cases e with
  | bool v =>
    have hSelf := hOpen v
    simp [isBool] at hSelf
  | unary op a =>
    cases op with
    | neg => rfl
    | not =>
      cases a with
      | bool v => cases (settled_unary.mp h).1
      | _ => rfl
  | _ => rfl

end Expr

/-! ## Statements -/

namespace Stmt

variable {r : Expr.Ranges} {t u : Stmt}

/-- Whether the statement is a block that would be dissolved inside another one. -/
def isPlainBlock : Stmt → Bool
  | .block s _ => s.label.isNone
  | _ => false

theorem dissolve_of_not_plain (h : t.isPlainBlock = false) : t.dissolve = [t] := by
  unfold dissolve
  split
  · rfl
  · cases h
  · rfl

/-- Nothing in the statement is left to simplify, where the scalars have these ranges.

    * **hollow**: a visible buffer stays declared around nothing;
    * **loop**: the body sees the values that the iterator takes;
    * **guard**, **branch**: no condition is a constant;
    * **block**: no block stands directly in another one unless it has a label, and one without a
      label holds two statements at least. -/
inductive Settled : Expr.Ranges → Stmt → Prop where
  | decl {r : Expr.Ranges} {s : Site} {n : String} {b : Buffer} {body : Stmt} :
    (∀ e ∈ b.shape, e.Settled r) → Settled r body → Settled r (.decl s n b body)
  | hollow {r : Expr.Ranges} {s : Site} {n : String} {b : Buffer} (id : Nat) :
    (∀ e ∈ b.shape, e.Settled r) → b.access ≠ .cache →
      Settled r (.decl s n b (.block ⟨id, none⟩ []))
  | loop {r : Expr.Ranges} {s : Site} {h : LoopHead} {body : Stmt} :
    h.lower.Settled r → h.upper.Settled r → h.fate = .kept →
      Settled ((h.iter, h.values r) :: r) body → Settled r (.loop s h body)
  | guard {r : Expr.Ranges} {s : Site} {c : Expr} {body : Stmt} :
    c.Settled r → c.Open → Settled r body → Settled r (.guard s c body)
  | branch {r : Expr.Ranges} {s : Site} {c : Expr} {yes no : Stmt} :
    c.Settled r → c.Open → Settled r yes → Settled r no → Settled r (.branch s c yes no)
  | store {r : Expr.Ranges} {s : Site} {b : String} {is : List Expr} {v : Expr} :
    (∀ i ∈ is, i.Settled r) → v.Settled r → Settled r (.store s b is v)
  | call {r : Expr.Ranges} {s : Site} {f : String} {args : List Arg} :
    (∀ e ∈ argValues args, e.Settled r) → Settled r (.call s f args)
  | block {r : Expr.Ranges} {s : Site} {ts : List Stmt} :
    (∀ t ∈ ts, Settled r t) → (∀ t ∈ ts, t.isPlainBlock = false) →
      (s.label = none → 2 ≤ ts.length) → Settled r (.block s ts)
  | hole {r : Expr.Ranges} (s : Site) : Settled r (.hole s)

/-- What a settled statement dissolves into is settled and dissolves no further. -/
theorem Settled.of_mem_dissolve (h : t.Settled r) (hu : u ∈ t.dissolve) :
    u.Settled r ∧ u.isPlainBlock = false := by
  cases hPlain : t.isPlainBlock with
  | false =>
    rw [dissolve_of_not_plain hPlain, List.mem_singleton] at hu
    exact hu ▸ ⟨h, hPlain⟩
  | true =>
    cases h with
    | block hAll hNone hLong =>
      rename_i s ts
      obtain ⟨id, label⟩ := s
      cases label with
      | some l => cases hPlain
      | none => exact ⟨hAll u hu, hNone u hu⟩
    | _ => cases hPlain

/-! ### What remains is settled -/

/-- The expressions of a statement are settled once they are simplified. -/
theorem settled_exprs (r : Expr.Ranges) (t : Stmt) :
    ∀ e ∈ (t.mapOwnExprs (Expr.simplify r)).exprs, e.Settled r := by
  intro e he
  rw [exprs_mapOwnExprs] at he
  obtain ⟨d, _, rfl⟩ := List.mem_map.mp he
  exact Expr.settled_simplify r d

theorem size_eq_sites (t : Stmt) : t.size = t.sites.length := (List.length_map ..).symm

theorem size_substitute (x : String) (w : Expr) (t : Stmt) : (t.substitute x w).size = t.size := by
  rw [size_eq_sites, size_eq_sites, sites_substitute]

theorem size_mapOwnExprs (f : Expr → Expr) (t : Stmt) : (t.mapOwnExprs f).size = t.size := by
  cases t <;> simp [mapOwnExprs, size]

theorem size_lt_of_child (h : u ∈ t.children) : u.size < t.size := by
  have hNodes : u.nodes.Sublist t.inside := by
    rw [inside, List.flatMap_def]
    exact List.sublist_flatten_of_mem (List.mem_map_of_mem h)
  rw [size, size, nodes_eq_cons t, List.length_cons]
  exact Nat.lt_succ_of_le hNodes.length_le

/-- A height that a statement does not exceed leaves room for the statements below it. -/
theorem exists_below {height : Nat} (h : t.size ≤ height) :
    ∃ below, height = below + 1 ∧ ∀ u ∈ t.children, u.size ≤ below := by
  have hPos : 0 < t.size := by
    rw [size, nodes_eq_cons]
    exact Nat.succ_pos _
  refine ⟨height - 1, by omega, fun u hu => ?_⟩
  have := size_lt_of_child hu
  omega

theorem settled_simplifiedDecl (next : Nat) (s : Site) (n : String) {b : Buffer}
    (hShape : ∀ e ∈ b.shape, e.Settled r) {rest : Option Stmt} (hRest : ∀ v ∈ rest, v.Settled r) :
    ∀ u ∈ simplifiedDecl next s n b rest, u.Settled r := by
  intro u hu
  cases rest with
  | some body =>
    cases hu
    exact .decl hShape (hRest body rfl)
  | none =>
    unfold simplifiedDecl at hu
    dsimp only at hu
    split at hu
    · cases hu
    · cases hu
      exact .hollow _ hShape ‹_›

theorem settled_simplifiedBranch (s : Site) {c : Expr} (hc : c.Settled r) (hOpen : c.Open)
    {yes no : Option Stmt} (hYes : ∀ v ∈ yes, v.Settled r) (hNo : ∀ v ∈ no, v.Settled r) :
    ∀ u ∈ simplifiedBranch r s c yes no, u.Settled r := by
  intro u hu
  cases yes with
  | some yes =>
    cases no with
    | some no =>
      cases hu
      exact .branch hc hOpen (hYes yes rfl) (hNo no rfl)
    | none =>
      cases hu
      exact .guard hc hOpen (hYes yes rfl)
  | none =>
    cases no with
    | some no =>
      cases hu
      exact .guard (Expr.settled_simplify r _) (hc.open_negation hOpen) (hNo no rfl)
    | none => cases hu

theorem settled_simplifiedBlock (s : Site) {ts : List Stmt} (h : ∀ t ∈ ts, t.Settled r) :
    ∀ u ∈ simplifiedBlock s ts, u.Settled r := by
  intro u hu
  have hFlat : ∀ v ∈ ts.flatMap dissolve, v.Settled r ∧ v.isPlainBlock = false := by
    intro v hv
    obtain ⟨t, ht, hv⟩ := List.mem_flatMap.mp hv
    exact (h t ht).of_mem_dissolve hv
  unfold simplifiedBlock at hu
  dsimp only at hu
  split at hu
  · cases hu
  · rename_i hOne
    cases hu
    exact (hFlat u (hOne ▸ List.mem_cons_self)).1
  · rename_i hNotNone hNotOne
    cases hu
    refine .block (fun v hv => (hFlat v hv).1) (fun v hv => (hFlat v hv).2) fun hLabel => ?_
    cases hLong : ts.flatMap dissolve with
    | nil => exact absurd hLong (hNotNone hLabel)
    | cons v rest =>
      cases rest with
      | nil => exact absurd hLong (hNotOne v hLabel)
      | cons w rest => simp

/-- **What remains is settled**: by induction on the height, which is no smaller than the statement,
    so that simplification does not stop halfway. -/
theorem settled_of_simplifyTo (next : Nat) : ∀ (height : Nat) (r : Expr.Ranges) (t : Stmt),
    t.size ≤ height → ∀ u ∈ simplifyTo next height r t, u.Settled r := by
  intro height
  induction height with
  | zero =>
    intro r t hSize
    obtain ⟨below, hHeight, _⟩ := exists_below hSize
    cases hHeight
  | succ height ih =>
    intro r t hSize u hu
    have hExprs := settled_exprs r t
    rw [← size_mapOwnExprs (Expr.simplify r)] at hSize
    rw [simplifyTo] at hu
    generalize t.mapOwnExprs (Expr.simplify r) = v at hSize hExprs hu
    obtain ⟨below, hHeight, hBelow⟩ := exists_below hSize
    cases hHeight
    cases v with
    | decl s n b body =>
      exact settled_simplifiedDecl next s n hExprs (ih r body (hBelow body (by simp [children]))) u hu
    | loop s h body =>
      have hBody : body.size ≤ height := hBelow body (by simp [children])
      dsimp only at hu
      cases hFate : h.fate with
      | gone =>
        rw [hFate] at hu
        cases hu
      | dissolved =>
        rw [hFate] at hu
        exact ih r _ ((size_substitute ..).trans_le hBody) u hu
      | kept =>
        rw [hFate] at hu
        obtain ⟨body', hRest, rfl⟩ := Option.map_eq_some_iff.mp hu
        exact .loop (hExprs _ (by simp [exprs])) (hExprs _ (by simp [exprs])) hFate
          (ih _ body hBody body' hRest)
    | guard s c body =>
      have hBody := ih r body (hBelow body (by simp [children]))
      dsimp only at hu
      split at hu
      · exact hBody u hu
      · split at hu
        · cases hu
        · obtain ⟨body', hRest, rfl⟩ := Option.map_eq_some_iff.mp hu
          exact .guard (hExprs c (by simp [exprs])) (fun w => by cases w <;> simp [*])
            (hBody body' hRest)
    | branch s c yes no =>
      have hYes := ih r yes (hBelow yes (by simp [children]))
      have hNo := ih r no (hBelow no (by simp [children]))
      dsimp only at hu
      split at hu
      · exact hYes u hu
      · split at hu
        · exact hNo u hu
        · exact settled_simplifiedBranch s (hExprs c (by simp [exprs]))
            (fun w => by cases w <;> simp [*]) hYes hNo u hu
    | block s ts =>
      refine settled_simplifiedBlock s (fun w hw => ?_) u hu
      obtain ⟨t, ht, hRest⟩ := List.mem_filterMap.mp hw
      exact ih r t (hBelow t ht) w hRest
    | store s b is v =>
      cases hu
      exact .store (fun i hi => hExprs i (by simp [exprs, hi])) (hExprs v (by simp [exprs]))
    | call s f args =>
      cases hu
      exact .call hExprs
    | hole s =>
      cases hu
      exact .hole s

/-! ### Settled statements stay -/

/-- The two statements differ in their numbers only. -/
def SameButIds (t u : Stmt) : Prop := ∀ n, t.numberFrom n = u.numberFrom n

namespace SameButIds

theorem refl (t : Stmt) : t.SameButIds t := fun _ => rfl

theorem isPlainBlock_eq (h : t.SameButIds u) : t.isPlainBlock = u.isPlainBlock := by
  have hKeeps : ∀ t : Stmt, (t.numberFrom 0).1.isPlainBlock = t.isPlainBlock := by
    intro t
    cases t <;> rfl
  rw [← hKeeps t, h 0, hKeeps u]

theorem decl (h : t.SameButIds u) (s : Site) (n : String) (b : Buffer) :
    (Stmt.decl s n b t).SameButIds (.decl s n b u) := by
  intro m
  simp only [numberFrom, h (m + 1)]

theorem loop (h : t.SameButIds u) (s : Site) (head : LoopHead) :
    (Stmt.loop s head t).SameButIds (.loop s head u) := by
  intro m
  simp only [numberFrom, h (m + 1)]

theorem guard (h : t.SameButIds u) (s : Site) (c : Expr) :
    (Stmt.guard s c t).SameButIds (.guard s c u) := by
  intro m
  simp only [numberFrom, h (m + 1)]

theorem branch {t' u' : Stmt} (h : t.SameButIds u) (h' : t'.SameButIds u') (s : Site) (c : Expr) :
    (Stmt.branch s c t t').SameButIds (.branch s c u u') := by
  intro m
  simp only [numberFrom, h (m + 1), h' _]

theorem block {ts us : List Stmt} (h : List.Forall₂ SameButIds ts us) (s : Site) :
    (Stmt.block s ts).SameButIds (.block s us) := by
  have hAll : ∀ m, numberAllFrom m ts = numberAllFrom m us := by
    induction h with
    | nil => exact fun _ => rfl
    | cons hHead _ ih =>
      intro m
      simp only [numberAllFrom, hHead m, ih]
  intro m
  simp only [numberFrom, hAll (m + 1)]

theorem flatMap_dissolve {ts us : List Stmt} (h : List.Forall₂ SameButIds ts us)
    (hNone : ∀ u ∈ us, u.isPlainBlock = false) : ts.flatMap dissolve = ts := by
  induction h with
  | nil => rfl
  | cons hHead _ ih =>
    have hFirst := hHead.isPlainBlock_eq.trans (hNone _ List.mem_cons_self)
    rw [List.flatMap_cons, dissolve_of_not_plain hFirst,
      ih fun u hu => hNone u (List.mem_cons_of_mem _ hu), List.singleton_append]

end SameButIds

/-- Simplifying settled expressions leaves the statement as it is. -/
theorem mapOwnExprs_of_settled (h : ∀ e ∈ t.exprs, e.Settled r) :
    t.mapOwnExprs (Expr.simplify r) = t := by
  have hAll : ∀ {es : List Expr}, (∀ e ∈ es, e.Settled r) → es.map (Expr.simplify r) = es :=
    fun h => (List.map_congr_left fun e he => (h e he).simplify_eq).trans (List.map_id _)
  cases t with
  | decl s n b body =>
    have hShape : b.shape.map (Expr.simplify r) = b.shape := hAll h
    rw [mapOwnExprs, hShape]
  | loop s head body =>
    rw [mapOwnExprs, (h head.lower (by simp [exprs])).simplify_eq,
      (h head.upper (by simp [exprs])).simplify_eq]
  | guard s c body => rw [mapOwnExprs, (h c (by simp [exprs])).simplify_eq]
  | branch s c yes no => rw [mapOwnExprs, (h c (by simp [exprs])).simplify_eq]
  | store s b is v =>
    rw [mapOwnExprs, hAll fun i hi => h i (by simp [exprs, hi]),
      (h v (by simp [exprs])).simplify_eq]
  | call s f args =>
    have hArgs : args.map (mapArg (Expr.simplify r)) = args := by
      refine (List.map_congr_left fun arg hArg => ?_).trans (List.map_id args)
      cases arg with
      | buffer b => rfl
      | value e => exact congrArg Arg.value (h e (List.mem_filterMap.mpr ⟨_, hArg, rfl⟩)).simplify_eq
    rw [mapOwnExprs, hArgs]
  | block s ts => rfl
  | hole s => rfl

/-- A block in which nothing dissolves stays, if it has a label or two statements. -/
theorem simplifiedBlock_of_flat {s : Site} {ts : List Stmt} (hFlat : ts.flatMap dissolve = ts)
    (hLong : s.label = none → 2 ≤ ts.length) : simplifiedBlock s ts = some (.block s ts) := by
  unfold simplifiedBlock
  dsimp only
  rw [hFlat]
  split
  · rename_i hLabel
    have := hLong hLabel
    simp at this
  · rename_i hLabel
    have := hLong hLabel
    simp at this
  · rfl

/-- **A settled statement stays**: by induction on what makes it settled. -/
theorem simplifyTo_of_settled (next : Nat) (h : t.Settled r) : ∀ height, t.size ≤ height →
    ∃ t', simplifyTo next height r t = some t' ∧ t'.SameButIds t := by
  induction h with
  | @decl r s n b body hShape _ ih =>
    intro height hSize
    obtain ⟨below, rfl, hBelow⟩ := exists_below hSize
    obtain ⟨body', hRest, hSame⟩ := ih below (hBelow body (by simp [children]))
    refine ⟨.decl s n b body', ?_, hSame.decl s n b⟩
    rw [simplifyTo, mapOwnExprs_of_settled (t := .decl s n b _) hShape]
    dsimp only
    rw [hRest, simplifiedDecl]
  | @hollow r s n b id hShape hVisible =>
    intro height hSize
    obtain ⟨below, rfl, hBelow⟩ := exists_below hSize
    obtain ⟨deeper, rfl, _⟩ := exists_below (hBelow (.block ⟨id, none⟩ []) (by simp [children]))
    -- the empty block goes and comes back under another number
    refine ⟨.decl s n b (.block ⟨next + s.id, none⟩ []), ?_, fun _ => rfl⟩
    rw [simplifyTo, mapOwnExprs_of_settled (t := .decl s n b _) hShape]
    dsimp only
    have hGone : simplifyTo next (deeper + 1) r (.block ⟨id, none⟩ []) = none := rfl
    rw [hGone, simplifiedDecl, if_neg hVisible]
  | @loop r s head body hLower hUpper hFate _ ih =>
    intro height hSize
    obtain ⟨below, rfl, hBelow⟩ := exists_below hSize
    obtain ⟨body', hRest, hSame⟩ := ih below (hBelow body (by simp [children]))
    refine ⟨.loop s head body', ?_, hSame.loop s head⟩
    rw [simplifyTo, mapOwnExprs_of_settled (by simp [exprs, hLower, hUpper])]
    dsimp only
    rw [hFate, hRest]
    rfl
  | @guard r s c body hc hOpen _ ih =>
    intro height hSize
    obtain ⟨below, rfl, hBelow⟩ := exists_below hSize
    obtain ⟨body', hRest, hSame⟩ := ih below (hBelow body (by simp [children]))
    refine ⟨.guard s c body', ?_, hSame.guard s c⟩
    rw [simplifyTo, mapOwnExprs_of_settled (by simp [exprs, hc])]
    dsimp only
    rw [hOpen true, hOpen false, hRest]
    rfl
  | @branch r s c yes no hc hOpen _ _ ihYes ihNo =>
    intro height hSize
    obtain ⟨below, rfl, hBelow⟩ := exists_below hSize
    obtain ⟨yes', hYes, hSameYes⟩ := ihYes below (hBelow yes (by simp [children]))
    obtain ⟨no', hNo, hSameNo⟩ := ihNo below (hBelow no (by simp [children]))
    refine ⟨.branch s c yes' no', ?_, hSameYes.branch hSameNo s c⟩
    rw [simplifyTo, mapOwnExprs_of_settled (by simp [exprs, hc])]
    dsimp only
    rw [hOpen true, hOpen false, hYes, hNo]
    rfl
  | @store r s b is v hIndices hValue =>
    intro height hSize
    obtain ⟨below, rfl, _⟩ := exists_below hSize
    have hExprs : ∀ e ∈ (Stmt.store s b is v).exprs, e.Settled r := by
      intro e he
      rcases List.mem_append.mp he with he | he
      · exact hIndices e he
      · exact List.mem_singleton.mp he ▸ hValue
    refine ⟨_, ?_, .refl _⟩
    rw [simplifyTo, mapOwnExprs_of_settled hExprs]
  | @call r s f args hArgs =>
    intro height hSize
    obtain ⟨below, rfl, _⟩ := exists_below hSize
    refine ⟨_, ?_, .refl _⟩
    rw [simplifyTo, mapOwnExprs_of_settled (t := .call s f args) hArgs]
  | @block r s ts _ hNone hLong ih =>
    intro height hSize
    obtain ⟨below, rfl, hBelow⟩ := exists_below hSize
    have hRests : ∀ us : List Stmt, (∀ u ∈ us, u ∈ ts) →
        List.Forall₂ SameButIds (us.filterMap (simplifyTo next below r)) us := by
      intro us hUs
      induction us with
      | nil => exact .nil
      | cons u us ihList =>
        have hu := hUs u List.mem_cons_self
        obtain ⟨u', hRest, hSame⟩ := ih u hu below (hBelow u hu)
        rw [List.filterMap_cons_some hRest]
        exact .cons hSame (ihList fun w hw => hUs w (List.mem_cons_of_mem u hw))
    have hSame := hRests ts fun _ h => h
    refine ⟨.block s (ts.filterMap (simplifyTo next below r)), ?_, .block hSame s⟩
    exact simplifiedBlock_of_flat (SameButIds.flatMap_dissolve hSame hNone)
      fun hLabel => hSame.length_eq ▸ hLong hLabel
  | hole s =>
    intro height hSize
    obtain ⟨below, rfl, _⟩ := exists_below hSize
    exact ⟨.hole s, rfl, .refl _⟩

/-- A simplified program does not change any more, whatever number its new blocks would get. -/
theorem simplify_sameButIds (t : Stmt) (next next' : Nat) :
    ((t.simplify next).simplify next').SameButIds (t.simplify next) := by
  unfold simplify
  cases hRest : simplifyTo next t.size [] t with
  | none => exact fun _ => rfl
  | some u =>
    have hSettled := settled_of_simplifyTo next t.size [] t le_rfl u hRest
    obtain ⟨u', hAgain, hSame⟩ := simplifyTo_of_settled next' hSettled u.size le_rfl
    rw [Option.getD_some, hAgain]
    exact hSame

/-- A visible buffer around a loop that never runs: its empty block is made anew in each pass. -/
example :
    let around (body : Stmt) : Stmt := .decl ⟨0, none⟩ "y" ⟨[], .int32, .output, .cpu⟩ body
    let t := around
      (.loop ⟨1, some "L"⟩ { iter := "i", lower := .int 2, upper := .int 2 } (.hole ⟨2, none⟩))
    t.simplify 3 = around (.block ⟨3, none⟩ [])
      ∧ (t.simplify 3).simplify 4 = around (.block ⟨4, none⟩ []) := ⟨rfl, rfl⟩

end Stmt

end LoopNest

import LoopNest.Proofs.SettledPrograms
import LoopNest.Proofs.WrittenExprs

/-! # Constants that folding makes

  Folding leaves an operation on integers alone when its result does not fit the word. It does not
  look at the results of operations on floating point numbers, and a file holds finite ones only.

  * **Outcomes**: `Expr.outcomes` lists the floating point numbers that folding may make of an
    expression. Simplification adds none, and neither do affine expressions in the places of scalars
    (`Expr.outcomes_simplify`, `Expr.outcomes_substitute`).
  * **Enduring expressions** can be stored, whatever is folded in them (`Expr.Enduring`).
    Simplification and affine expressions in the places of scalars keep them so. -/

namespace LoopNest

/-! ## Outcomes -/

/-- Whether the left operand of an operator may be all that simplification leaves. -/
def BinaryOp.mayLeaveLeft : BinaryOp → Bool
  | .add | .sub | .mul | .div | .floorDiv | .ceilDiv | .and | .or => true
  | _ => false

/-- Whether the right operand of an operator may be all that simplification leaves. -/
def BinaryOp.mayLeaveRight : BinaryOp → Bool
  | .add | .mul | .and | .or => true
  | _ => false

namespace Expr

/-- The number that an operator makes of two others. -/
def foldedFloat? (op : BinaryOp) (x y : Float) : Option Float :=
  match foldFloats? op x y with
  | some (.float z) => some z
  | _ => none

/-- The floating point numbers that folding may make of an expression. -/
def outcomes : Expr → List Float
  | .float x => [x]
  | .unary .neg e => (outcomes e).map (- ·)
  | .unary .not e => outcomes e
  | .binary op a b =>
    (outcomes a).flatMap (fun x => (outcomes b).filterMap (foldedFloat? op x))
      ++ (if op.mayLeaveLeft then outcomes a else [])
      ++ (if op.mayLeaveRight then outcomes b else [])
  | _ => []

section outcomes

variable {e a b a' b' w : Expr} {x : Float} {op : BinaryOp}

theorem mem_outcomes_binary : x ∈ (Expr.binary op a b).outcomes ↔
    (∃ y ∈ a.outcomes, ∃ z ∈ b.outcomes, foldedFloat? op y z = some x)
      ∨ (op.mayLeaveLeft = true ∧ x ∈ a.outcomes) ∨ (op.mayLeaveRight = true ∧ x ∈ b.outcomes) := by
  simp [outcomes]

theorem outcomes_unary_subset (he : a'.outcomes ⊆ a.outcomes) (op : UnaryOp) :
    (Expr.unary op a').outcomes ⊆ (Expr.unary op a).outcomes := by
  cases op with
  | neg => exact List.map_subset _ he
  | not => exact he

theorem outcomes_binary_subset (ha : a'.outcomes ⊆ a.outcomes) (hb : b'.outcomes ⊆ b.outcomes)
    (op : BinaryOp) : (Expr.binary op a' b').outcomes ⊆ (Expr.binary op a b).outcomes := by
  intro x hx
  rw [mem_outcomes_binary] at hx ⊢
  rcases hx with ⟨y, hy, z, hz, hFold⟩ | ⟨hLeft, hx⟩ | ⟨hRight, hx⟩
  · exact .inl ⟨y, ha hy, z, hb hz, hFold⟩
  · exact .inr (.inl ⟨hLeft, ha hx⟩)
  · exact .inr (.inr ⟨hRight, hb hx⟩)

/-- Affine expressions have integer values. -/
theorem outcomes_of_linear? {κ : Type} [Ord κ] {resolve : String → Option (Affine.Form κ)} :
    ∀ (e : Expr) {f : Affine.Form κ}, e.linear? resolve = some f → e.outcomes = [] := by
  refine Expr.ind ?int ?float ?bool ?var ?load ?unary ?binary
  case int => exact fun _ _ _ => rfl
  case float => exact fun _ _ h => by cases h
  case bool => exact fun _ _ _ => rfl
  case var => exact fun _ _ _ => rfl
  case load => exact fun _ _ _ _ h => by cases h
  case unary =>
    intro op e ih f h
    cases op with
    | neg =>
      obtain ⟨g, hg, _⟩ := Option.bind_eq_some_iff.mp h
      rw [outcomes, ih hg, List.map_nil]
    | not => cases h
  case binary =>
    intro op a b iha ihb f h
    obtain ⟨g, hg, h⟩ := Option.bind_eq_some_iff.mp h
    obtain ⟨g', hg', _⟩ := Option.bind_eq_some_iff.mp h
    simp [outcomes, iha hg, ihb hg']

/-- Expressions that are compared by their ranges are affine. -/
theorem outcomes_of_compare? {r : Ranges} {v : Bool} (h : r.compare? op a b = some v) :
    a.outcomes = [] ∧ b.outcomes = [] := by
  obtain ⟨d, hRange, _⟩ := Option.bind_eq_some_iff.mp h
  obtain ⟨f, hf, _⟩ := Option.bind_eq_some_iff.mp hRange
  obtain ⟨g, hg, hRest⟩ := Option.bind_eq_some_iff.mp hf
  obtain ⟨g', hg', _⟩ := Option.bind_eq_some_iff.mp hRest
  exact ⟨outcomes_of_linear? a hg, outcomes_of_linear? b hg'⟩

end outcomes

/-! ## Enduring expressions -/

/-- No operation on floating point numbers that folding may carry out has a result that is not
    finite. -/
def FoldsFinitely (e : Expr) : Prop := ∀ p ∈ e.parts, ∀ x ∈ p.outcomes, x.isFinite = true

instance (e : Expr) : Decidable e.FoldsFinitely := by
  unfold FoldsFinitely
  infer_instance

/-- An expression can be stored, whatever is folded in it. -/
structure Enduring (e : Expr) : Prop where
  storable : e.Storable
  folds : e.FoldsFinitely

section enduring

variable {e a b w : Expr} {r : Ranges} {op : BinaryOp}

theorem Enduring.finite (h : e.Enduring) {x : Float} (hx : x ∈ e.outcomes) : x.isFinite = true :=
  h.folds e (self_mem_parts e) x hx

theorem enduring_int {v : Int} : (Expr.int v).Enduring ↔ Word.fits v = true :=
  ⟨fun h => storable_int.mp h.storable,
    fun h => ⟨storable_int.mpr h, by simp [FoldsFinitely, parts, outcomes]⟩⟩

theorem enduring_float {x : Float} : (Expr.float x).Enduring ↔ x.isFinite = true :=
  ⟨fun h => storable_float.mp h.storable,
    fun h => ⟨storable_float.mpr h, by simpa [FoldsFinitely, parts, outcomes] using h⟩⟩

theorem enduring_bool (v : Bool) : (Expr.bool v).Enduring :=
  ⟨storable_bool v, by simp [FoldsFinitely, parts, outcomes]⟩

theorem enduring_var (x : String) : (Expr.var x).Enduring :=
  ⟨storable_var x, by simp [FoldsFinitely, parts, outcomes]⟩

theorem enduring_load {b : String} {is : List Expr} :
    (Expr.load b is).Enduring ↔ ∀ i ∈ is, i.Enduring := by
  constructor
  · exact fun h i hi => ⟨storable_load.mp h.storable i hi,
      fun p hp => h.folds p (mem_parts_load hi hp)⟩
  · refine fun h => ⟨storable_load.mpr fun i hi => (h i hi).storable, fun p hp => ?_⟩
    rw [parts_load, List.mem_cons, List.mem_flatMap] at hp
    rcases hp with rfl | ⟨i, hi, hp⟩
    · intro x hx
      cases hx
    · exact (h i hi).folds p hp

theorem enduring_unary {op : UnaryOp} : (Expr.unary op e).Enduring ↔
    e.Enduring ∧ ∀ x ∈ (Expr.unary op e).outcomes, x.isFinite = true := by
  constructor
  · exact fun h => ⟨⟨storable_unary.mp h.storable, fun p hp => h.folds p (mem_parts_unary hp)⟩,
      fun x hx => h.finite hx⟩
  · rintro ⟨he, hOutcomes⟩
    refine ⟨storable_unary.mpr he.storable, fun p hp => ?_⟩
    rw [parts_unary, List.mem_cons] at hp
    rcases hp with rfl | hp
    · exact hOutcomes
    · exact he.folds p hp

/-- A negated condition has no further outcomes. -/
theorem Enduring.negation (h : e.Enduring) : e.negation.Enduring :=
  enduring_unary.mpr ⟨h, fun _ hx => h.finite hx⟩

theorem enduring_binary : (Expr.binary op a b).Enduring ↔
    a.Enduring ∧ b.Enduring ∧ ∀ x ∈ (Expr.binary op a b).outcomes, x.isFinite = true := by
  constructor
  · intro h
    obtain ⟨ha, hb⟩ := storable_binary.mp h.storable
    exact ⟨⟨ha, fun p hp => h.folds p (mem_parts_left hp)⟩,
      ⟨hb, fun p hp => h.folds p (mem_parts_right hp)⟩, fun x hx => h.finite hx⟩
  · rintro ⟨ha, hb, hOutcomes⟩
    refine ⟨storable_binary.mpr ⟨ha.storable, hb.storable⟩, fun p hp => ?_⟩
    rw [parts_binary, List.mem_cons, List.mem_append] at hp
    rcases hp with rfl | hp | hp
    · exact hOutcomes
    · exact ha.folds p hp
    · exact hb.folds p hp

/-- What is done to the parts of an expression keeps it enduring when it adds no outcomes and does so
    for scalars and for single operations. -/
theorem Enduring.through {φ : Expr → Expr} (hOutcomes : ∀ e, (φ e).outcomes ⊆ e.outcomes)
    (hConstant : ∀ c : Expr, c.isConstant = true → φ c = c)
    (hVar : ∀ x, (φ (.var x)).Enduring) (hLoad : ∀ b is, φ (.load b is) = .load b (is.map φ))
    (hUnary : ∀ op e, (Expr.unary op (φ e)).Enduring → (φ (.unary op e)).Enduring)
    (hBinary : ∀ op a b, (Expr.binary op (φ a) (φ b)).Enduring → (φ (.binary op a b)).Enduring) :
    ∀ e : Expr, e.Enduring → (φ e).Enduring := by
  refine Expr.ind ?int ?float ?bool ?var ?load ?unary ?binary
  case int => exact fun v h => by rwa [hConstant _ rfl]
  case float => exact fun v h => by rwa [hConstant _ rfl]
  case bool => exact fun v h => by rwa [hConstant _ rfl]
  case var => exact fun x _ => hVar x
  case load =>
    intro b is ih h
    rw [hLoad, enduring_load]
    exact List.forall_mem_map.mpr fun i hi => ih i hi (enduring_load.mp h i hi)
  case unary =>
    intro op e ih h
    obtain ⟨he, hFinite⟩ := enduring_unary.mp h
    exact hUnary op e (enduring_unary.mpr
      ⟨ih he, fun x hx => hFinite x (outcomes_unary_subset (hOutcomes e) op hx)⟩)
  case binary =>
    intro op a b iha ihb h
    obtain ⟨ha, hb, hFinite⟩ := enduring_binary.mp h
    exact hBinary op a b (enduring_binary.mpr ⟨iha ha, ihb hb,
      fun x hx => hFinite x (outcomes_binary_subset (hOutcomes a) (hOutcomes b) op hx)⟩)

/-- Constants that can be stored endure. -/
theorem Enduring.of_isConstant (hConstant : e.isConstant = true) (h : e.ConstantFits) : e.Enduring := by
  cases e with
  | int v => exact enduring_int.mpr h
  | float x => exact enduring_float.mpr h
  | bool v => exact enduring_bool v
  | _ => cases hConstant

end enduring

/-! ## Simplified expressions -/

section simplified

variable {a b e : Expr} {op : BinaryOp} {r : Ranges}

/-- Only two floating point numbers are folded to one. -/
theorem foldedFloat?_of_fold? {z : Float} (h : fold? op a b = some (.float z)) :
    ∃ x y, a = .float x ∧ b = .float y ∧ foldedFloat? op x y = some z := by
  unfold fold? at h
  split at h
  · cases op <;> simp only [foldInts?, reduceCtorEq] at h
    all_goals first
      | cases eq_of_wordConstant? h
      | cases h
      | split at h
        · cases eq_of_wordConstant? h
        · cases h
  · rename_i x y
    exact ⟨x, y, rfl, rfl, by rw [foldedFloat?, h]⟩
  · cases op <;> cases h
  · cases h

/-- A constant is its own outcome if it is a floating point number, and has none otherwise. -/
theorem mem_outcomes_of_isConstant (h : e.isConstant = true) {x : Float} (hx : x ∈ e.outcomes) :
    e = .float x := by
  cases e with
  | float y => rw [List.mem_singleton.mp hx]
  | int | bool => cases hx
  | _ => cases h

/-- Applying an operator has no outcomes that the operation does not have. -/
theorem outcomes_combine (r : Ranges) (op : BinaryOp) (a b : Expr) :
    (combine r op a b).outcomes ⊆ (Expr.binary op a b).outcomes := by
  intro x hx
  rw [combine] at hx
  cases hFold : fold? op a b with
  | some e =>
    rw [hFold, Option.getD_some] at hx
    rw [mem_outcomes_of_isConstant (isConstant_of_fold? hFold) hx] at hFold
    obtain ⟨y, z, rfl, rfl, hFolded⟩ := foldedFloat?_of_fold? hFold
    exact mem_outcomes_binary.mpr (.inl ⟨y, by simp [outcomes], z, by simp [outcomes], hFolded⟩)
  | none =>
    rw [hFold, Option.getD_none] at hx
    -- what is compared has no outcomes, so that a minimum or maximum may be either operand
    cases op <;> rw [reduce] at hx <;> repeat' split at hx
    all_goals first
      | exact hx
      | cases hx
      | exact mem_outcomes_binary.mpr (.inr (.inl ⟨rfl, hx⟩))
      | exact mem_outcomes_binary.mpr (.inr (.inr ⟨rfl, hx⟩))
      | rename_i hCompare
        obtain ⟨ha, hb⟩ := outcomes_of_compare? hCompare
        rw [ha] at hx
        cases hx
      | rename_i hCompare
        obtain ⟨ha, hb⟩ := outcomes_of_compare? hCompare
        rw [hb] at hx
        cases hx

/-- Folding on integers stays within the word. -/
theorem constantFits_of_foldInts? {x y : Int} (hx : Word.fits x = true) (hy : Word.fits y = true)
    (h : foldInts? op x y = some e) : e.ConstantFits := by
  have hWord : ∀ {v : Int}, wordConstant? v = some e → e.ConstantFits := by
    intro v hv
    obtain ⟨w, hw, rfl⟩ := Option.map_eq_some_iff.mp hv
    exact (Word.checked_eq_some.mp hw).2 ▸ (Word.checked_eq_some.mp hw).1
  cases op <;> simp only [foldInts?, reduceCtorEq] at h
  all_goals first
    | exact hWord h
    | split at h
      · exact hWord h
      · cases h
    | cases h
      exact trivial
    | cases h
      first
        | rcases min_choice x y with hMin | hMin <;> rw [hMin] <;> assumption
        | rcases max_choice x y with hMax | hMax <;> rw [hMax] <;> assumption

/-- A constant that an operator leaves can be stored when its outcomes are finite. -/
theorem constantFits_combine (ha : a.ConstantFits) (hb : b.ConstantFits)
    (h : ∀ x ∈ (Expr.binary op a b).outcomes, x.isFinite = true) (r : Ranges) :
    (combine r op a b).ConstantFits := by
  cases hCombine : combine r op a b with
  | float x => exact h x (outcomes_combine r op a b (by simp [hCombine, outcomes]))
  | int v =>
    rw [combine] at hCombine
    cases hFold : fold? op a b with
    | some e =>
      rw [hFold, Option.getD_some] at hCombine
      subst hCombine
      unfold fold? at hFold
      split at hFold
      · exact constantFits_of_foldInts? ha hb hFold
      · cases op <;> cases hFold
      · cases op <;> cases hFold
      · cases hFold
    | none =>
      rw [hFold, Option.getD_none] at hCombine
      rw [← hCombine]
      cases op <;> rw [reduce] <;> repeat' split
      all_goals first
        | exact ha
        | exact hb
        | trivial
  | _ => trivial

/-- **One operator**: when the operation endures, so does what an operator leaves of it. -/
theorem Enduring.combine (h : (Expr.binary op a b).Enduring) (r : Ranges) :
    (Expr.combine r op a b).Enduring := by
  obtain ⟨ha, hb, hOutcomes⟩ := enduring_binary.mp h
  rcases combine_cases r op a b with hCase | hCase | hConstant | hCase
  · rwa [hCase]
  · rwa [hCase]
  · exact .of_isConstant hConstant (constantFits_combine (ha.storable a (self_mem_parts a))
      (hb.storable b (self_mem_parts b)) hOutcomes r)
  · rwa [hCase]

theorem outcomes_combineUnary (op : UnaryOp) (e : Expr) :
    (combineUnary op e).outcomes ⊆ (Expr.unary op e).outcomes := by
  intro x hx
  unfold combineUnary at hx
  split at hx
  · rename_i v
    cases hNeg : Word.neg? v <;> rw [hNeg] at hx <;> cases hx
  all_goals exact hx

/-- A constant that a unary operator leaves can be stored when its outcomes are finite. -/
theorem constantFits_combineUnary {op : UnaryOp} (he : e.Storable)
    (h : ∀ x ∈ (Expr.unary op e).outcomes, x.isFinite = true) :
    (Expr.combineUnary op e).ConstantFits := by
  cases hResult : Expr.combineUnary op e with
  | float x => exact h x (outcomes_combineUnary op e (by simp [hResult, outcomes]))
  | int v =>
    unfold Expr.combineUnary at hResult
    split at hResult
    · rename_i w
      cases hNeg : Word.neg? w with
      | none =>
        rw [hNeg] at hResult
        cases hResult
      | some u =>
        rw [hNeg] at hResult
        cases hResult
        exact (Word.neg?_eq_some.mp hNeg).2 ▸ (Word.neg?_eq_some.mp hNeg).1
    · cases hResult
    · cases hResult
    · subst hResult
      exact storable_int.mp (storable_unary.mp he)
    · cases hResult
  | _ => trivial

theorem Enduring.combineUnary {op : UnaryOp} (h : (Expr.unary op e).Enduring) :
    (Expr.combineUnary op e).Enduring := by
  obtain ⟨he, hOutcomes⟩ := enduring_unary.mp h
  rcases combineUnary_cases op e with hConstant | hCase | hTwice
  · exact .of_isConstant hConstant (constantFits_combineUnary he.storable hOutcomes)
  · rwa [hCase]
  · rw [hTwice] at he
    exact (enduring_unary.mp he).1

/-- **Simplification** adds no outcomes. -/
theorem outcomes_simplify (r : Ranges) : ∀ e : Expr, (e.simplify r).outcomes ⊆ e.outcomes := by
  refine Expr.ind ?int ?float ?bool ?var ?load ?unary ?binary
  case int => exact fun _ => List.Subset.refl _
  case float => exact fun _ => List.Subset.refl _
  case bool => exact fun _ => List.Subset.refl _
  case var => exact fun _ => List.Subset.refl _
  case load => exact fun _ _ _ => List.Subset.refl _
  case unary =>
    intro op e ih
    exact List.Subset.trans (outcomes_combineUnary op _) (outcomes_unary_subset ih op)
  case binary =>
    intro op a b iha ihb
    exact List.Subset.trans (outcomes_combine r op _ _) (outcomes_binary_subset iha ihb op)

/-- **Simplified expressions** endure when the expression does. -/
theorem Enduring.simplify (r : Ranges) : ∀ e : Expr, e.Enduring → (e.simplify r).Enduring := by
  refine Enduring.through (outcomes_simplify r) (fun c hc => ?_) enduring_var (fun b is => ?_)
    (fun _ _ h => h.combineUnary) fun _ _ _ h => h.combine r
  · cases c <;> first | rfl | cases hc
  · rw [Expr.simplify, simplifyAll_eq_map]

end simplified

/-! ## Affine expressions in the places of scalars -/

section substitute

variable {e w : Expr} {x : String}

theorem substitute_var_cases (w : Expr) (x y : String) :
    (Expr.var y).substitute [(x, w)] = w ∨ (Expr.var y).substitute [(x, w)] = .var y := by
  simp only [Expr.substitute, List.lookup_cons]
  split
  · exact .inl rfl
  · exact .inr rfl

theorem outcomes_substitute (hw : w.outcomes = []) (x : String) :
    ∀ e : Expr, (e.substitute [(x, w)]).outcomes ⊆ e.outcomes := by
  refine Expr.ind ?int ?float ?bool ?var ?load ?unary ?binary
  case int => exact fun _ => List.Subset.refl _
  case float => exact fun _ => List.Subset.refl _
  case bool => exact fun _ => List.Subset.refl _
  case var =>
    intro y
    rcases substitute_var_cases w x y with hVar | hVar <;> rw [hVar]
    · rw [hw]
      exact List.nil_subset _
    · exact List.Subset.refl _
  case load => exact fun _ _ _ => List.Subset.refl _
  case unary => exact fun op e ih => outcomes_unary_subset ih op
  case binary => exact fun op a b iha ihb => outcomes_binary_subset iha ihb op

/-- **Replaced scalars**: an expression without outcomes does no harm in the place of a scalar. -/
theorem Enduring.substitute (hw : w.Enduring) (hNone : w.outcomes = []) (x : String) :
    ∀ e : Expr, e.Enduring → (e.substitute [(x, w)]).Enduring := by
  refine Enduring.through (outcomes_substitute hNone x) (fun c hc => ?_) (fun y => ?_)
    (fun b is => ?_) (fun _ _ h => h) fun _ _ _ h => h
  · cases c <;> first | rfl | cases hc
  · rcases substitute_var_cases w x y with hVar | hVar <;> rw [hVar]
    · exact hw
    · exact enduring_var y
  · rw [Expr.substitute, substituteAll_eq_map]

end substitute

end Expr

end LoopNest

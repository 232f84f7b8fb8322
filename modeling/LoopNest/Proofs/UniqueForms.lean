import Mathlib.Data.List.Sort
import LoopNest.Dependence.Access
import LoopNest.Proofs.KeptBindings
import LoopNest.Proofs.RenamedForms

/-! # Affine forms are unique

  An expression that has an affine form has one affine form only. Forms are normal
  (`Affine.Form.Normal`): their terms are in the order of the atoms, no coefficient is zero, and all
  numbers fit the word. Sums and multiples of normal forms are normal, also where terms cancel, so the
  form of an expression is normal when those of its scalars are (`Expr.normal_of_linear?`).

  What a normal form is can be read off its values: the constant is the value where all atoms are
  zero, and the coefficient of an atom is what the value gains where this atom is one
  (`Affine.Form.Renames.of_values`). So normal forms with the same values are equal
  (`Affine.Form.Normal.eq_of_eval`), and a form whose value never changes is a constant
  (`Affine.Form.Normal.constant?_eq_some_iff`). -/

namespace LoopNest

namespace Affine.Form

variable {κ : Type}

/-! ## Numbers that fit the word -/

theorem fits_consTerm {k : κ} {c : Int} {terms : List (κ × Int)} (hc : Word.fits c = true)
    (h : ∀ t ∈ terms, Word.fits t.2 = true) : ∀ t ∈ consTerm k c terms, Word.fits t.2 = true := by
  unfold consTerm
  split
  · exact h
  · exact List.forall_mem_cons.mpr ⟨hc, h⟩

variable [Ord κ]

theorem fits_addTerm {k : κ} {c : Int} (hc : Word.fits c = true) {terms sum : List (κ × Int)}
    (h : ∀ t ∈ terms, Word.fits t.2 = true) (hSum : addTerm k c terms = some sum) :
    ∀ t ∈ sum, Word.fits t.2 = true := by
  induction terms generalizing sum with
  | nil =>
    cases hSum
    exact fits_consTerm hc h
  | cons t rest ih =>
    obtain ⟨k', c'⟩ := t
    obtain ⟨hHere, hRest⟩ := List.forall_mem_cons.mp h
    unfold addTerm at hSum
    cases hOrder : compare k k' with
    | lt =>
      rw [hOrder] at hSum
      cases hSum
      exact fits_consTerm hc h
    | eq =>
      rw [hOrder] at hSum
      obtain ⟨s, hs, rfl⟩ := Option.map_eq_some_iff.mp hSum
      obtain ⟨hFits, rfl⟩ := Word.add?_eq_some.mp hs
      exact fits_consTerm hFits hRest
    | gt =>
      rw [hOrder] at hSum
      obtain ⟨more, hMore, rfl⟩ := Option.map_eq_some_iff.mp hSum
      exact List.forall_mem_cons.mpr ⟨hHere, ih hRest hMore⟩

theorem fits_addTerms {terms more sum : List (κ × Int)} (h : ∀ t ∈ terms, Word.fits t.2 = true)
    (hMore : ∀ t ∈ more, Word.fits t.2 = true) (hSum : addTerms terms more = some sum) :
    ∀ t ∈ sum, Word.fits t.2 = true := by
  induction more generalizing terms with
  | nil =>
    cases hSum
    exact h
  | cons t more ih =>
    obtain ⟨hHere, hLater⟩ := List.forall_mem_cons.mp hMore
    obtain ⟨between, hFirst, hRest⟩ := Option.bind_eq_some_iff.mp hSum
    exact ih (fits_addTerm hHere h hFirst) hLater hRest

/-! ## Normal forms -/

/-- The normal form of a sum of terms.

    * **ordered**: the terms are in the order of their atoms, and no coefficient is zero;
    * **coefficients**, **constant**: all numbers fit the word. -/
structure Normal (f : Form κ) : Prop where
  ordered : Ordered f.terms
  coefficients : ∀ t ∈ f.terms, Word.fits t.2 = true
  constant : Word.fits f.constant = true

theorem normal_ofConstant {v : Int} (h : Word.fits v = true) : (ofConstant v : Form κ).Normal :=
  ⟨ordered_nil, by simp [ofConstant], h⟩

theorem normal_ofAtom (k : κ) : (ofAtom k).Normal :=
  ⟨ordered_ofAtom k, by simp only [ofAtom, List.forall_mem_singleton]; decide, rfl⟩

namespace Normal

variable {f g s : Form κ}

theorem scale? (hf : f.Normal) {factor : Int} (h : f.scale? factor = some g) : g.Normal := by
  have hOrdered : Ordered g.terms := hf.ordered.scale? h
  unfold Form.scale? at h
  by_cases hFactor : factor = 0
  · rw [if_pos hFactor] at h
    cases h
    exact normal_ofConstant rfl
  · rw [if_neg hFactor] at h
    obtain ⟨terms, hTerms, h⟩ := Option.bind_eq_some_iff.mp h
    obtain ⟨v, hv, h⟩ := Option.bind_eq_some_iff.mp h
    cases h
    obtain ⟨hFits, rfl⟩ := Word.mul?_eq_some.mp hv
    have hAll := isSome_scaleTerms.mp (Option.isSome_of_eq_some hTerms)
    obtain rfl := eq_of_scaleTerms hTerms
    exact ⟨hOrdered, List.forall_mem_map.mpr hAll, hFits⟩

section sums

variable [Std.TransOrd κ]

theorem add? (hf : f.Normal) (hg : g.Normal) (h : f.add? g = some s) : s.Normal := by
  have hOrdered : Ordered s.terms := hf.ordered.add? h
  obtain ⟨terms, hTerms, h⟩ := Option.bind_eq_some_iff.mp h
  obtain ⟨v, hv, h⟩ := Option.bind_eq_some_iff.mp h
  cases h
  obtain ⟨hFits, rfl⟩ := Word.add?_eq_some.mp hv
  exact ⟨hOrdered, fits_addTerms hf.coefficients hg.coefficients hTerms, hFits⟩

theorem sub? (hf : f.Normal) (hg : g.Normal) (h : f.sub? g = some s) : s.Normal := by
  obtain ⟨negated, hNegated, h⟩ := Option.bind_eq_some_iff.mp h
  exact hf.add? (hg.scale? hNegated) h

end sums

section values

variable [Std.TransOrd κ] [Std.LawfulEqOrd κ]

/-- **Uniqueness**: the values of a normal form determine it. -/
theorem eq_of_eval (hf : f.Normal) (hg : g.Normal) (h : ∀ ν, f.eval ν = g.eval ν) : f = g := by
  classical
  have hSame : Renames (Equiv.refl κ) f g :=
    Renames.of_values hf.ordered hg.ordered fun ν => (h ν).symm
  have hPerm : g.terms.Perm f.terms := by simpa using hSame.terms
  have hTerms : g.terms = f.terms := by
    -- the order is strict, so there is one list with these terms
    refine hPerm.eq_of_pairwise (fun s t _ _ hst hts => ?_) hg.ordered.increasing
      hf.ordered.increasing
    have hLess := Std.TransCmp.lt_trans hst hts
    rw [Std.ReflOrd.compare_self] at hLess
    cases hLess
  obtain ⟨terms, constant⟩ := f
  obtain ⟨terms', constant'⟩ := g
  obtain rfl : constant' = constant := hSame.constant
  obtain rfl : terms' = terms := hTerms
  rfl

/-- A form is the constant that it has as its only value. -/
theorem constant?_eq_some_iff (hf : f.Normal) {v : Int} :
    f.constant? = some v ↔ ∀ ν, f.eval ν = v := by
  constructor
  · exact eval_of_constant?
  · intro h
    have hFits : Word.fits v = true := by
      have hAt := h fun _ => 0
      rw [eval_eq_total] at hAt
      have hZero : ∀ terms : List (κ × Int), total (fun _ => 0) terms = 0 := by
        intro terms
        induction terms with
        | nil => rfl
        | cons t terms ih => rw [total_cons, ih, Int.mul_zero, Int.zero_add]
      rw [hZero, Int.zero_add] at hAt
      exact hAt ▸ hf.constant
    rw [hf.eq_of_eval (normal_ofConstant hFits) (by simpa using h)]
    rfl

end values

end Normal

end Affine.Form

namespace Expr

open LoopNest.Affine (Form)
open LoopNest.Affine.Form (Normal)

variable {κ : Type} {resolve : String → Option (Form κ)}

/-! ## The form of an expression -/

/-- Every scalar has the value of the form that it stands for. -/
def resolvedEnv (resolve : String → Option (Form κ)) (ν : κ → Int) : Env := fun x =>
  match resolve x with
  | some f => f.eval ν
  | none => 0

theorem resolvedEnv_of_resolve {x : String} {f : Form κ} (h : resolve x = some f) (ν : κ → Int) :
    resolvedEnv resolve ν x = f.eval ν := by
  rw [resolvedEnv, h]

/-- All integers in the expression fit the word. -/
def IntegersFit (e : Expr) : Prop := ∀ v, .int v ∈ e.parts → Word.fits v = true

theorem integersFit_unary {op : UnaryOp} {e : Expr} (h : (unary op e).IntegersFit) :
    e.IntegersFit :=
  fun v hv => h v (List.mem_cons_of_mem _ hv)

theorem integersFit_binary {op : BinaryOp} {a b : Expr} (h : (binary op a b).IntegersFit) :
    a.IntegersFit ∧ b.IntegersFit :=
  ⟨fun v hv => h v (List.mem_cons_of_mem _ (List.mem_append_left _ hv)),
    fun v hv => h v (List.mem_cons_of_mem _ (List.mem_append_right _ hv))⟩

variable [Ord κ]

theorem normal_linearProduct {f g p : Form κ} (hf : f.Normal) (hg : g.Normal)
    (h : linearProduct f g = some p) : p.Normal := by
  unfold linearProduct at h
  cases hLeft : f.constant? with
  | some v =>
    rw [hLeft] at h
    exact hg.scale? h
  | none => cases hRight : g.constant? with
    | some v =>
      rw [hLeft, hRight] at h
      exact hf.scale? h
    | none => simp [hLeft, hRight] at h

/-- The parts of an expression that has a form have forms. -/
theorem isSome_linear?_of_mem_parts : ∀ e : Expr, (e.linear? resolve).isSome = true →
    ∀ p ∈ e.parts, (p.linear? resolve).isSome = true := by
  have hSelf : ∀ {e : Expr} {more : List Expr}, (e.linear? resolve).isSome = true →
      (∀ p ∈ more, (p.linear? resolve).isSome = true) →
      ∀ p ∈ e :: more, (p.linear? resolve).isSome = true :=
    fun hHere hMore => List.forall_mem_cons.mpr ⟨hHere, hMore⟩
  refine Expr.ind ?int ?float ?bool ?var ?load ?unary ?binary
  case int => exact fun v h => hSelf h (by simp)
  case float => exact fun v h => hSelf h (by simp)
  case bool => exact fun v h => hSelf h (by simp)
  case var => exact fun x h => hSelf h (by simp)
  case load =>
    intro b is _ h
    simp [linear?] at h
  case unary =>
    intro op e ih h
    refine hSelf h (ih ?_)
    cases op with
    | not => simp [linear?] at h
    | neg =>
      obtain ⟨f, hf⟩ := Option.isSome_iff_exists.mp h
      obtain ⟨g, hg, _⟩ := Option.bind_eq_some_iff.mp hf
      exact Option.isSome_of_eq_some hg
  case binary =>
    intro op a b iha ihb h
    obtain ⟨f, hf⟩ := Option.isSome_iff_exists.mp h
    obtain ⟨g, hg, hf⟩ := Option.bind_eq_some_iff.mp hf
    obtain ⟨g', hg', _⟩ := Option.bind_eq_some_iff.mp hf
    exact hSelf h (List.forall_mem_append.mpr
      ⟨iha (Option.isSome_of_eq_some hg), ihb (Option.isSome_of_eq_some hg')⟩)

variable [Std.TransOrd κ]

/-- The form of an expression is normal when those of its scalars are. -/
theorem normal_of_linear? (hResolve : ∀ x f, resolve x = some f → f.Normal) :
    ∀ (e : Expr) (f : Form κ), e.IntegersFit → e.linear? resolve = some f → f.Normal := by
  refine Expr.ind ?int ?float ?bool ?var ?load ?unary ?binary
  case int =>
    intro v f hFits h
    cases h
    exact Affine.Form.normal_ofConstant (hFits v (by simp [parts]))
  case float =>
    intro v f _ h
    simp [linear?] at h
  case bool =>
    intro v f _ h
    simp [linear?] at h
  case var => exact fun x f _ h => hResolve x f h
  case load =>
    intro b is _ f _ h
    simp [linear?] at h
  case unary =>
    intro op e ih f hFits h
    cases op with
    | not => simp [linear?] at h
    | neg =>
      obtain ⟨g, hg, hf⟩ := Option.bind_eq_some_iff.mp h
      exact (ih g (integersFit_unary hFits) hg).scale? hf
  case binary =>
    intro op a b iha ihb f hFits h
    obtain ⟨g, hg, h⟩ := Option.bind_eq_some_iff.mp h
    obtain ⟨g', hg', hf⟩ := Option.bind_eq_some_iff.mp h
    have hLeft := iha g (integersFit_binary hFits).1 hg
    have hRight := ihb g' (integersFit_binary hFits).2 hg'
    cases op <;> simp only [reduceCtorEq] at hf
    · exact hLeft.add? hRight hf
    · exact hLeft.sub? hRight hf
    · exact normal_linearProduct hLeft hRight hf

variable [Std.LawfulEqOrd κ]

/-- **The form of an expression**: every part of an expression that has a form has a normal form with
    exactly its value, so no number on the way left the word. The form tells whether the value is the
    same everywhere, and every expression with the same values has the same form, also when its
    scalars stand for other forms. In particular the bounds of a loop whose extent is known are that
    far apart everywhere. -/
theorem linear?_canonical (hResolve : ∀ x f, resolve x = some f → f.Normal) {e : Expr}
    (hFits : e.IntegersFit) {L : Form κ} (h : e.linear? resolve = some L) :
    (∀ p ∈ e.parts, ∃ f : Form κ, p.linear? resolve = some f ∧ f.Normal
      ∧ ∀ ν m, p.value? (resolvedEnv resolve ν) m = some (f.eval ν))
    ∧ (L.Normal ∧ ∀ ν m, e.value? (resolvedEnv resolve ν) m = some (L.eval ν))
    ∧ (∀ v, L.constant? = some v ↔ ∀ ν m, e.value? (resolvedEnv resolve ν) m = some v)
    ∧ (∀ (resolve' : String → Option (Form κ)) (e' : Expr) (L' : Form κ),
        (∀ x f, resolve' x = some f → f.Normal) → e'.IntegersFit →
        e'.linear? resolve' = some L' →
        (∀ ν m, e'.value? (resolvedEnv resolve' ν) m = e.value? (resolvedEnv resolve ν) m) →
        L' = L)
    ∧ ∀ (head : LoopHead) (n : Int), head.extent? = some n → ∀ env m,
        ∃ lower upper, head.lower.value? env m = some lower ∧ head.upper.value? env m = some upper
          ∧ upper - lower = n := by
  have hValue : ∀ (r : String → Option (Form κ)) (p : Expr) (f : Form κ),
      p.linear? r = some f → ∀ ν m, p.value? (resolvedEnv r ν) m = some (f.eval ν) := by
    intro r p f hp ν m
    rw [← valueWith?_reference .blank]
    exact valueWith?_of_linear? (fun x g hx => (resolvedEnv_of_resolve hx ν).symm) p f hp
  have hNormal : L.Normal := normal_of_linear? hResolve e L hFits h
  refine ⟨?_, ⟨hNormal, hValue resolve e L h⟩, ?_, ?_, ?_⟩
  · intro p hp
    obtain ⟨f, hf⟩ := Option.isSome_iff_exists.mp
      (isSome_linear?_of_mem_parts e (Option.isSome_of_eq_some h) p hp)
    have hPart : p.IntegersFit := fun v hv => hFits v (parts_subset hp hv)
    exact ⟨f, hf, normal_of_linear? hResolve p f hPart hf, hValue resolve p f hf⟩
  · intro v
    simp only [hNormal.constant?_eq_some_iff, hValue resolve e L h, Option.some.injEq, forall_const]
  · intro resolve' e' L' hResolve' hFits' h' hSame
    refine (normal_of_linear? hResolve' e' L' hFits' h').eq_of_eval hNormal fun ν => ?_
    have hAt := hSame ν .blank
    rw [hValue resolve' e' L' h', hValue resolve e L h] at hAt
    exact Option.some.inj hAt
  · intro head n hExtent env m
    obtain ⟨f, hf, hRest⟩ := Option.bind_eq_some_iff.mp hExtent
    obtain ⟨g, hg, _⟩ := Option.bind_eq_some_iff.mp hRest
    have hLower := value?_of_symbolic? hf env m
    have hUpper := value?_of_symbolic? hg env m
    refine ⟨_, _, hLower, hUpper, ?_⟩
    rw [← valueWith?_reference .blank] at hLower hUpper
    exact distance_of_constantDistance? hExtent hLower hUpper

/-- When `j` stands for `i + 4`, the terms of `3 * j - 3 * i` cancel, and the value is 12. -/
theorem linear?_canonical_cancelled :
    let resolve : String → Option (Form String) := fun x =>
      if x = "j" then some ⟨[("i", 1)], 4⟩ else some (.ofAtom x)
    let e := ((int 3).mul (var "j")).sub ((int 3).mul (var "i"))
    e.IntegersFit ∧ e.linear? resolve = some (.ofConstant 12)
      ∧ ∀ ν m, e.value? (resolvedEnv resolve ν) m = some 12 := by
  intro resolve e
  have hResolve : ∀ x f, resolve x = some f → f.Normal := by
    intro x f h
    by_cases hx : x = "j"
    · rw [show resolve x = some ⟨[("i", 1)], 4⟩ from if_pos hx] at h
      cases h
      exact ⟨Affine.Form.ordered_ofAtom "i", by decide, rfl⟩
    · rw [show resolve x = some (.ofAtom x) from if_neg hx] at h
      cases h
      exact Affine.Form.normal_ofAtom x
  have hFits : e.IntegersFit := by
    intro v hv
    simp only [e, sub, mul, parts, List.cons_append, List.nil_append, List.mem_cons, reduceCtorEq,
      int.injEq, List.not_mem_nil, or_false, false_or, or_self] at hv
    rw [hv]
    rfl
  have hForm : e.linear? resolve = some (.ofConstant 12) := by decide
  obtain ⟨_, _, hConstant, _⟩ := linear?_canonical hResolve hFits hForm
  exact ⟨hFits, hForm, (hConstant 12).mp rfl⟩

end Expr

end LoopNest

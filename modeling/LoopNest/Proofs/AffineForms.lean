import LoopNest.Affine.Solvable
import LoopNest.Expr.Linear
import LoopNest.Proofs.Evaluation

/-! # What affine forms and their tests say

  * **Forms**: sums, differences and multiples of forms have the sums, differences and multiples of
    the values (`Form.eval_add?`, `Form.eval_sub?`, `Form.eval_scale?`), and the form of an
    expression has its value (`Expr.valueWith?_of_linear?`).
  * **Atoms**: operations on forms introduce no atoms (`Form.Over`).
  * **Tests**: `divisible` and `reachesZero` answer yes whenever the equation has a solution
    (`divisible_of_total`, `reachesZero_of_total`). -/

namespace LoopNest

namespace Affine

namespace Form

variable {κ : Type}

/-- The value of a list of terms. -/
def total (ν : κ → Int) : List (κ × Int) → Int
  | [] => 0
  | t :: terms => t.2 * ν t.1 + total ν terms

@[simp] theorem total_nil (ν : κ → Int) : total ν [] = 0 := rfl

@[simp] theorem total_cons (ν : κ → Int) (t : κ × Int) (terms : List (κ × Int)) :
    total ν (t :: terms) = t.2 * ν t.1 + total ν terms := rfl

theorem eval_eq_total (f : Form κ) (ν : κ → Int) : f.eval ν = total ν f.terms + f.constant := by
  obtain ⟨terms, constant⟩ := f
  induction terms with
  | nil => simp [eval]
  | cons t terms ih =>
    have hTail : List.foldr (fun t sum => t.2 * ν t.1 + sum) constant terms
        = total ν terms + constant := ih
    simp only [eval, List.foldr_cons, total_cons, hTail]
    omega

@[simp] theorem eval_ofConstant (v : Int) (ν : κ → Int) : (ofConstant v : Form κ).eval ν = v := by
  simp [ofConstant, eval]

@[simp] theorem eval_ofAtom (k : κ) (ν : κ → Int) : (ofAtom k : Form κ).eval ν = ν k := by
  simp [ofAtom, eval]

theorem eval_of_constant? {f : Form κ} {v : Int} (h : f.constant? = some v) (ν : κ → Int) :
    f.eval ν = v := by
  obtain ⟨terms, constant⟩ := f
  cases terms with
  | nil => simp_all [constant?, eval]
  | cons t terms => simp [constant?] at h

theorem total_scaleTerms {factor : Int} {terms scaled : List (κ × Int)}
    (h : scaleTerms factor terms = some scaled) (ν : κ → Int) :
    total ν scaled = factor * total ν terms := by
  induction terms generalizing scaled with
  | nil =>
    simp only [scaleTerms, Option.some.injEq] at h
    subst h
    simp
  | cons t terms ih =>
    simp only [scaleTerms, Option.bind_eq_bind, Option.bind_eq_some_iff] at h
    obtain ⟨c, hc, rest, hRest, hScaled⟩ := h
    cases hScaled
    obtain ⟨_, rfl⟩ := Word.mul?_eq_some.mp hc
    simp only [total_cons, ih hRest]
    rw [Int.mul_add, Int.mul_comm t.2 factor, Int.mul_assoc]

theorem eval_scale? {f g : Form κ} {factor : Int} (h : f.scale? factor = some g) (ν : κ → Int) :
    g.eval ν = factor * f.eval ν := by
  unfold scale? at h
  by_cases hZero : factor = 0
  · rw [if_pos hZero, Option.some.injEq] at h
    subst h
    simp [hZero]
  · rw [if_neg hZero] at h
    simp only [Option.bind_eq_bind, Option.bind_eq_some_iff] at h
    obtain ⟨terms, hTerms, constant, hConstant, hg⟩ := h
    cases hg
    obtain ⟨_, rfl⟩ := Word.mul?_eq_some.mp hConstant
    rw [eval_eq_total, eval_eq_total, total_scaleTerms hTerms, Int.mul_add,
      Int.mul_comm f.constant]

theorem total_consTerm (ν : κ → Int) (k : κ) (c : Int) (rest : List (κ × Int)) :
    total ν (consTerm k c rest) = c * ν k + total ν rest := by
  unfold consTerm
  by_cases hc : c = 0
  · simp [hc]
  · simp [hc]

variable [Ord κ] [Std.LawfulEqOrd κ]

theorem total_addTerm {k : κ} {c : Int} {terms sum : List (κ × Int)}
    (h : addTerm k c terms = some sum) (ν : κ → Int) :
    total ν sum = total ν terms + c * ν k := by
  induction terms generalizing sum with
  | nil =>
    simp only [addTerm, Option.some.injEq] at h
    subst h
    simp [total_consTerm]
  | cons t rest ih =>
    obtain ⟨k', c'⟩ := t
    unfold addTerm at h
    cases hOrder : compare k k' with
    | lt =>
      rw [hOrder] at h
      simp only [Option.some.injEq] at h
      subst h
      rw [total_consTerm]
      omega
    | eq =>
      rw [hOrder] at h
      simp only [Option.map_eq_some_iff] at h
      obtain ⟨s, hs, rfl⟩ := h
      obtain ⟨_, rfl⟩ := Word.add?_eq_some.mp hs
      rw [total_consTerm, total_cons, Std.LawfulEqOrd.eq_of_compare hOrder, Int.add_mul]
      show c' * ν k' + c * ν k' + total ν rest = c' * ν k' + total ν rest + c * ν k'
      omega
    | gt =>
      rw [hOrder] at h
      simp only [Option.map_eq_some_iff] at h
      obtain ⟨s, hs, rfl⟩ := h
      rw [total_cons, total_cons, ih hs]
      omega

theorem total_addTerms {terms more sum : List (κ × Int)} (h : addTerms terms more = some sum)
    (ν : κ → Int) : total ν sum = total ν terms + total ν more := by
  induction more generalizing terms with
  | nil =>
    simp only [addTerms, Option.some.injEq] at h
    subst h
    simp
  | cons t more ih =>
    simp only [addTerms, Option.bind_eq_bind, Option.bind_eq_some_iff] at h
    obtain ⟨between, hFirst, hRest⟩ := h
    rw [ih hRest, total_addTerm hFirst, total_cons]
    omega

theorem eval_add? {f g s : Form κ} (h : f.add? g = some s) (ν : κ → Int) :
    s.eval ν = f.eval ν + g.eval ν := by
  simp only [add?, Option.bind_eq_bind, Option.bind_eq_some_iff] at h
  obtain ⟨terms, hTerms, constant, hConstant, hs⟩ := h
  cases hs
  obtain ⟨_, rfl⟩ := Word.add?_eq_some.mp hConstant
  rw [eval_eq_total, eval_eq_total, eval_eq_total, total_addTerms hTerms]
  show _ + (f.constant + g.constant) = _
  omega

theorem eval_sub? {f g d : Form κ} (h : f.sub? g = some d) (ν : κ → Int) :
    d.eval ν = f.eval ν - g.eval ν := by
  simp only [sub?, Option.bind_eq_bind, Option.bind_eq_some_iff] at h
  obtain ⟨negated, hNegated, hd⟩ := h
  rw [eval_add? hd, eval_scale? hNegated]
  omega

/-! ### Atoms -/

section Over

variable {κ : Type} {P : κ → Prop}

/-- The atoms of a form satisfy a condition. -/
def Over (P : κ → Prop) (f : Form κ) : Prop := ∀ t ∈ f.terms, P t.1

theorem over_ofConstant (P : κ → Prop) (v : Int) : (ofConstant v : Form κ).Over P := by
  intro t ht
  cases ht

theorem over_ofAtom {k : κ} (h : P k) : (ofAtom k).Over P := by
  intro t ht
  rw [List.mem_singleton.mp ht]
  exact h

theorem over_consTerm {k : κ} {c : Int} {rest : List (κ × Int)} (hk : P k)
    (hRest : ∀ t ∈ rest, P t.1) : ∀ t ∈ consTerm k c rest, P t.1 := by
  unfold consTerm
  by_cases hc : c = 0
  · rw [if_pos hc]
    exact hRest
  · rw [if_neg hc]
    intro t ht
    rcases List.mem_cons.mp ht with rfl | ht
    · exact hk
    · exact hRest t ht

theorem over_scale? {f g : Form κ} {factor : Int} (h : f.scale? factor = some g)
    (hf : f.Over P) : g.Over P := by
  unfold scale? at h
  by_cases hZero : factor = 0
  · rw [if_pos hZero, Option.some.injEq] at h
    subst h
    exact over_ofConstant P 0
  · rw [if_neg hZero] at h
    simp only [Option.bind_eq_bind, Option.bind_eq_some_iff] at h
    obtain ⟨terms, hTerms, constant, _, hg⟩ := h
    cases hg
    have hScaled : ∀ (ts us : List (κ × Int)), scaleTerms factor ts = some us →
        (∀ t ∈ ts, P t.1) → ∀ t ∈ us, P t.1 := by
      intro ts
      induction ts with
      | nil =>
        intro us hus _
        cases hus
        exact fun t ht => absurd ht List.not_mem_nil
      | cons s ts ih =>
        intro us hus hts
        simp only [scaleTerms, Option.bind_eq_bind, Option.bind_eq_some_iff] at hus
        obtain ⟨d, _, rest, hRest, hus⟩ := hus
        cases hus
        intro t ht
        rcases List.mem_cons.mp ht with rfl | ht
        · exact hts s List.mem_cons_self
        · exact ih rest hRest (fun t ht => hts t (List.mem_cons_of_mem s ht)) t ht
    exact hScaled f.terms terms hTerms hf

variable [Ord κ]

theorem over_addTerm {k : κ} {c : Int} {terms sum : List (κ × Int)}
    (h : addTerm k c terms = some sum) (hk : P k) (hTerms : ∀ t ∈ terms, P t.1) :
    ∀ t ∈ sum, P t.1 := by
  induction terms generalizing sum with
  | nil =>
    cases h
    exact over_consTerm hk hTerms
  | cons t rest ih =>
    obtain ⟨k', c'⟩ := t
    have hk' : P k' := hTerms (k', c') List.mem_cons_self
    have hRest : ∀ t ∈ rest, P t.1 := fun t ht => hTerms t (List.mem_cons_of_mem _ ht)
    unfold addTerm at h
    cases hOrder : compare k k' with
    | lt =>
      rw [hOrder] at h
      cases h
      exact over_consTerm hk hTerms
    | eq =>
      rw [hOrder] at h
      obtain ⟨s, _, rfl⟩ := Option.map_eq_some_iff.mp h
      exact over_consTerm hk' hRest
    | gt =>
      rw [hOrder] at h
      obtain ⟨more, hMore, rfl⟩ := Option.map_eq_some_iff.mp h
      intro t ht
      rcases List.mem_cons.mp ht with rfl | ht
      · exact hk'
      · exact ih hMore hRest t ht

theorem over_add? {f g s : Form κ} (h : f.add? g = some s) (hf : f.Over P) (hg : g.Over P) :
    s.Over P := by
  simp only [add?, Option.bind_eq_bind, Option.bind_eq_some_iff] at h
  obtain ⟨terms, hTerms, constant, _, hs⟩ := h
  cases hs
  have hAdded : ∀ (more ts us : List (κ × Int)), addTerms ts more = some us →
      (∀ t ∈ more, P t.1) → (∀ t ∈ ts, P t.1) → ∀ t ∈ us, P t.1 := by
    intro more
    induction more with
    | nil =>
      intro ts us hus _ hts
      cases hus
      exact hts
    | cons m more ih =>
      intro ts us hus hMore hts
      simp only [addTerms, Option.bind_eq_bind, Option.bind_eq_some_iff] at hus
      obtain ⟨between, hFirst, hRest⟩ := hus
      exact ih between us hRest (fun t ht => hMore t (List.mem_cons_of_mem m ht))
        (over_addTerm hFirst (hMore m List.mem_cons_self) hts)
  exact hAdded g.terms f.terms terms hTerms hg hf

theorem over_sub? {f g d : Form κ} (h : f.sub? g = some d) (hf : f.Over P) (hg : g.Over P) :
    d.Over P := by
  simp only [sub?, Option.bind_eq_bind, Option.bind_eq_some_iff] at h
  obtain ⟨negated, hNegated, hd⟩ := h
  exact over_add? hd hf (over_scale? hNegated hg)

end Over

end Form

/-! ## The divisibility test -/

/-- The greatest common divisor of a list divides what it started from and every member. -/
theorem foldl_gcd_dvd (coeffs : List Int) (start : Int) :
    coeffs.foldl (fun acc c => (Int.gcd acc c : Int)) start ∣ start
      ∧ ∀ c ∈ coeffs, coeffs.foldl (fun acc c => (Int.gcd acc c : Int)) start ∣ c := by
  induction coeffs generalizing start with
  | nil => exact ⟨Int.dvd_refl start, fun c h => absurd h List.not_mem_nil⟩
  | cons c coeffs ih =>
    obtain ⟨hStart, hRest⟩ := ih (Int.gcd start c)
    simp only [List.foldl_cons]
    refine ⟨Int.dvd_trans hStart (Int.gcd_dvd_left start c), ?_⟩
    intro d hd
    rcases List.mem_cons.mp hd with rfl | hd
    · exact Int.dvd_trans hStart (Int.gcd_dvd_right start d)
    · exact hRest d hd

theorem dvd_total {κ : Type} {g : Int} {terms : List (κ × Int)} (h : ∀ t ∈ terms, g ∣ t.2)
    (ν : κ → Int) : g ∣ Form.total ν terms := by
  induction terms with
  | nil => exact Int.dvd_zero g
  | cons t terms ih =>
    rw [Form.total_cons]
    apply Int.dvd_add
    · exact Int.dvd_mul_of_dvd_left (h t List.mem_cons_self)
    · exact ih fun s hs => h s (List.mem_cons_of_mem t hs)

/-- **Divisibility**: when the terms take a value, the test admits that value. -/
theorem divisible_of_total {κ : Type} (ν : κ → Int) (terms : List (κ × Int)) :
    divisible (terms.map (·.2)) (Form.total ν terms) = true := by
  obtain ⟨_, hMembers⟩ := foldl_gcd_dvd (terms.map (·.2)) 0
  have hDvd := dvd_total (fun t ht => hMembers t.2 (List.mem_map_of_mem ht)) ν
  unfold divisible
  by_cases hZero : (terms.map (·.2)).foldl (fun acc c => (Int.gcd acc c : Int)) 0 = 0
  · rw [hZero] at hDvd
    simp [hZero, Int.zero_dvd.mp hDvd]
  · simp [hZero, Int.emod_eq_zero_of_dvd hDvd]

/-! ## The range test -/

/-- Adding terms keeps membership when every atom lies in its interval. -/
theorem spread_mem {κ : Type} {ν : κ → Int} {bound : κ → Interval} {terms : List (κ × Int)}
    (h : ∀ t ∈ terms, (bound t.1).Mem (ν t.1)) {start : Interval} {v : Int} (hStart : start.Mem v) :
    (spread start (terms.map (·.2)) (terms.map fun t => bound t.1)).Mem
      (v + Form.total ν terms) := by
  induction terms generalizing start v with
  | nil => simpa [spread] using hStart
  | cons t terms ih =>
    have hTerm := Interval.mem_scale (h t List.mem_cons_self) t.2
    have hNext := ih (fun s hs => h s (List.mem_cons_of_mem t hs)) (Interval.mem_add hStart hTerm)
    simp only [List.map_cons, spread, Form.total_cons]
    rw [Int.mul_comm t.2, ← Int.add_assoc]
    exact hNext

/-- The range of a form holds its value when its atoms lie in their intervals. -/
theorem Form.mem_range {κ : Type} {f : Form κ} {bound : κ → Interval} {ν : κ → Int}
    (h : ∀ t ∈ f.terms, (bound t.1).Mem (ν t.1)) : (f.range bound).Mem (f.eval ν) := by
  have hSpread : ∀ (terms : List (κ × Int)) (start : Interval),
      terms.foldl (fun acc t => acc.add ((bound t.1).scale t.2)) start
        = spread start (terms.map (·.2)) (terms.map fun t => bound t.1) := by
    intro terms
    induction terms with
    | nil => exact fun _ => rfl
    | cons t terms ih => exact fun start => ih _
  rw [range, hSpread, eval_eq_total, Int.add_comm]
  exact spread_mem h (Interval.mem_point.mpr rfl)

theorem Interval.containsZero_of_mem {a : Interval} (h : a.Mem 0) : a.containsZero = true := by
  obtain ⟨lo, hi⟩ := a
  unfold containsZero
  cases lo with
  | none => cases hi with
    | none => rfl
    | some u => simpa using h.hi u rfl
  | some l => cases hi with
    | none => simpa using h.lo l rfl
    | some u => simpa using ⟨h.lo l rfl, h.hi u rfl⟩

theorem Interval.isEmpty_of_mem {a : Interval} {v : Int} (h : a.Mem v) : a.isEmpty = false := by
  obtain ⟨lo, hi⟩ := a
  cases lo with
  | none => cases hi <;> rfl
  | some l => cases hi with
    | none => rfl
    | some u =>
      have := h.lo l rfl
      have := h.hi u rfl
      simp only [isEmpty, decide_eq_false_iff_not]
      omega

/-- **Ranges**: when terms and constant cancel out for atoms in their intervals, the test admits
    zero. -/
theorem reachesZero_of_total {κ : Type} {ν : κ → Int} {bound : κ → Interval}
    {terms : List (κ × Int)} {constant : Int} (h : ∀ t ∈ terms, (bound t.1).Mem (ν t.1))
    (hZero : Form.total ν terms + constant = 0) :
    reachesZero (terms.map (·.2)) constant (terms.map fun t => bound t.1) = true := by
  have hMem := spread_mem h (Interval.mem_point.mpr (rfl : constant = constant))
  rw [show constant + Form.total ν terms = 0 by omega] at hMem
  exact Interval.containsZero_of_mem hMem

end Affine

/-! ## Affine expressions -/

namespace Expr

open Affine (Form)

variable {κ : Type}

theorem eval_linearProduct {f g p : Form κ} (h : linearProduct f g = some p) (ν : κ → Int) :
    p.eval ν = f.eval ν * g.eval ν := by
  unfold linearProduct at h
  cases hf : f.constant? with
  | some v =>
    rw [hf] at h
    rw [Form.eval_scale? h, Form.eval_of_constant? hf]
  | none => cases hg : g.constant? with
    | some v =>
      rw [hf, hg] at h
      rw [Form.eval_scale? h, Form.eval_of_constant? hg, Int.mul_comm]
    | none => simp [hf, hg] at h

variable [Ord κ] [Std.LawfulEqOrd κ]

/-- **Affine forms**: an expression has the value of its form, on every memory and under all
    conventions, when each scalar has the value of the form it stands for. -/
theorem valueWith?_of_linear? {resolve : String → Option (Form κ)} {ν : κ → Int}
    {c : Conventions} {env : Env} {m : Memory}
    (hResolve : ∀ x f, resolve x = some f → f.eval ν = env x) :
    ∀ (e : Expr) (f : Form κ), e.linear? resolve = some f →
      e.valueWith? c env m = some (f.eval ν) := by
  refine Expr.ind ?_ ?_ ?_ ?_ ?_ ?_ ?_
  · intro v f h
    simp only [linear?, Option.some.injEq] at h
    subst h
    simp [valueWith?]
  · intro v f h
    simp [linear?] at h
  · intro v f h
    simp [linear?] at h
  · intro x f h
    simp [valueWith?, hResolve x f h]
  · intro b is _ f h
    simp [linear?] at h
  · intro op e ih f h
    cases op with
    | not => simp [linear?] at h
    | neg =>
      simp only [linear?, Option.bind_eq_bind, Option.bind_eq_some_iff] at h
      obtain ⟨g, hg, hf⟩ := h
      have hValue : UnaryOp.value .neg (g.eval ν) = f.eval ν := by
        rw [Form.eval_scale? hf, UnaryOp.value]
        omega
      simp [valueWith?, ih g hg, hValue]
  · intro op a b iha ihb f h
    simp only [linear?, Option.bind_eq_bind, Option.bind_eq_some_iff] at h
    obtain ⟨g, hg, g', hg', hf⟩ := h
    have hValue : op.value? (g.eval ν) (g'.eval ν) = some (f.eval ν) := by
      cases op <;> simp only [reduceCtorEq] at hf
      · rw [Form.eval_add? hf, BinaryOp.value?]
      · rw [Form.eval_sub? hf, BinaryOp.value?]
      · rw [eval_linearProduct hf, BinaryOp.value?]
    simp [valueWith?, iha g hg, ihb g' hg', BinaryOp.valueWith?_of_value? hValue]

omit [Std.LawfulEqOrd κ] in
/-- The form of an expression has only atoms of the forms that its scalars stand for. -/
theorem over_of_linear? {resolve : String → Option (Form κ)} {P : κ → Prop}
    (hResolve : ∀ x f, resolve x = some f → f.Over P) :
    ∀ (e : Expr) (f : Form κ), e.linear? resolve = some f → f.Over P := by
  refine Expr.ind ?_ ?_ ?_ ?_ ?_ ?_ ?_
  · intro v f h
    cases h
    exact Form.over_ofConstant P v
  · intro v f h
    simp [linear?] at h
  · intro v f h
    simp [linear?] at h
  · exact fun x f h => hResolve x f h
  · intro b is _ f h
    simp [linear?] at h
  · intro op e ih f h
    cases op with
    | not => simp [linear?] at h
    | neg =>
      simp only [linear?, Option.bind_eq_bind, Option.bind_eq_some_iff] at h
      obtain ⟨g, hg, hf⟩ := h
      exact Form.over_scale? hf (ih g hg)
  · intro op a b iha ihb f h
    simp only [linear?, Option.bind_eq_bind, Option.bind_eq_some_iff] at h
    obtain ⟨g, hg, g', hg', hf⟩ := h
    cases op <;> simp only [reduceCtorEq] at hf
    · exact Form.over_add? hf (iha g hg) (ihb g' hg')
    · exact Form.over_sub? hf (iha g hg) (ihb g' hg')
    · unfold linearProduct at hf
      cases hLeft : g.constant? with
      | some v =>
        rw [hLeft] at hf
        exact Form.over_scale? hf (ihb g' hg')
      | none => cases hRight : g'.constant? with
        | some v =>
          rw [hLeft, hRight] at hf
          exact Form.over_scale? hf (iha g hg)
        | none => simp [hLeft, hRight] at hf

/-- The value of an affine expression. -/
theorem valueWith?_of_symbolic? {e : Expr} {f : Form String} (h : e.symbolic? = some f)
    (c : Conventions) (env : Env) (m : Memory) : e.valueWith? c env m = some (f.eval env) := by
  refine valueWith?_of_linear? (fun x k hk => ?_) e f h
  cases hk
  exact Form.eval_ofAtom x env

theorem value?_of_symbolic? {e : Expr} {f : Form String} (h : e.symbolic? = some f) (env : Env)
    (m : Memory) : e.value? env m = some (f.eval env) := by
  rw [← valueWith?_reference .blank, valueWith?_of_symbolic? h]

/-- An expression that reduces to a constant has it as its value. -/
theorem valueWith?_of_constant? {e : Expr} {v : Int} (h : e.constant? = some v) (c : Conventions)
    (env : Env) (m : Memory) : e.valueWith? c env m = some v := by
  simp only [constant?, Option.bind_eq_bind, Option.bind_eq_some_iff] at h
  obtain ⟨f, hf, hv⟩ := h
  rw [valueWith?_of_symbolic? hf, Form.eval_of_constant? hv]

theorem value?_of_constant? {e : Expr} {v : Int} (h : e.constant? = some v) (env : Env)
    (m : Memory) : e.value? env m = some v := by
  rw [← valueWith?_reference .blank, valueWith?_of_constant? h]

/-- Expressions whose distance is constant have values that far apart. -/
theorem distance_of_constantDistance? {begin stop : Expr} {n : Int}
    (h : constantDistance? begin stop = some n) {c : Conventions} {env : Env} {m m' : Memory}
    {lower upper : Int} (hLower : begin.valueWith? c env m = some lower)
    (hUpper : stop.valueWith? c env m' = some upper) : upper - lower = n := by
  simp only [constantDistance?, symbolic?, Option.bind_eq_bind, Option.bind_eq_some_iff] at h
  obtain ⟨f, hf, g, hg, d, hd, hn⟩ := h
  have hAtoms : ∀ (x : String) (k : Form String), some (Form.ofAtom x) = some k →
      k.eval env = env x := by
    intro x k hk
    cases hk
    exact Form.eval_ofAtom x env
  have hBegin := valueWith?_of_linear? (m := m) (c := c) hAtoms begin f hf
  have hStop := valueWith?_of_linear? (m := m') (c := c) hAtoms stop g hg
  have hDistance := Form.eval_sub? hd env
  rw [Form.eval_of_constant? hn env] at hDistance
  rw [hLower, Option.some.injEq] at hBegin
  rw [hUpper, Option.some.injEq] at hStop
  omega

end Expr

end LoopNest

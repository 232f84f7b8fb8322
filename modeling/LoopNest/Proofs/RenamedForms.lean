import Mathlib.Data.List.Nodup
import Mathlib.Data.List.Perm.Basic
import Mathlib.Logic.Equiv.Defs
import LoopNest.Proofs.AffineForms

/-! # Forms under other names

  Renaming the atoms of a form changes the order of its terms and nothing else. Two forms that are the
  same up to names (`Form.Renames`) stay so under every operation, and an operation leaves the word
  for both or for none of them (`Form.Renames.add?`, `Form.Renames.sub?`, `Form.Renames.scale?`).
  So expressions whose scalars stand for such forms have such forms (`Expr.renames_linear?`).

  What decides this is that forms are ordered (`Form.Ordered`): an atom occurs in one term at most, so
  the values of a form determine its terms (`Form.Renames.of_values`). -/

namespace LoopNest

/-- What comes next of related results is related. -/
theorem rel_bind {α β γ δ : Type} {R : α → β → Prop} {S : γ → δ → Prop} {o : Option α}
    {o' : Option β} (h : Option.Rel R o o') {f : α → Option γ} {g : β → Option δ}
    (hNext : ∀ a b, R a b → Option.Rel S (f a) (g b)) : Option.Rel S (o.bind f) (o'.bind g) := by
  cases h with
  | none => exact .none
  | some h => exact hNext _ _ h

namespace Affine.Form

variable {κ : Type}

/-! ## Ordered terms -/

theorem mem_consTerm {t : κ × Int} {k : κ} {c : Int} {terms : List (κ × Int)} (hNe : t.1 ≠ k) :
    t ∈ consTerm k c terms ↔ t ∈ terms := by
  unfold consTerm
  split
  · rfl
  · rw [List.mem_cons, or_iff_right]
    rintro rfl
    exact hNe rfl

/-- A multiple leaves the word when the multiple of a term does. -/
theorem isSome_scaleTerms {factor : Int} {terms : List (κ × Int)} :
    (scaleTerms factor terms).isSome = true ↔ ∀ t ∈ terms, Word.fits (t.2 * factor) = true := by
  induction terms with
  | nil => simp [scaleTerms]
  | cons t terms ih =>
    rw [List.forall_mem_cons, ← ih, scaleTerms, Word.mul?, Word.checked]
    split
    · rename_i hFits
      cases scaleTerms factor terms <;> simp [hFits]
    · rename_i hFits
      simp [hFits]

theorem eq_of_scaleTerms {factor : Int} {terms scaled : List (κ × Int)}
    (h : scaleTerms factor terms = some scaled) :
    scaled = terms.map fun t => (t.1, t.2 * factor) := by
  induction terms generalizing scaled with
  | nil =>
    cases h
    rfl
  | cons t terms ih =>
    obtain ⟨c, hc, h⟩ := Option.bind_eq_some_iff.mp h
    obtain ⟨rest, hRest, h⟩ := Option.bind_eq_some_iff.mp h
    obtain ⟨_, rfl⟩ := Word.mul?_eq_some.mp hc
    cases h
    rw [List.map_cons, ih hRest]

/-- A multiple leaves the word when that of a term does, or that of the constant. -/
theorem isSome_scale? {f : Form κ} {factor : Int} (hFactor : factor ≠ 0) :
    (f.scale? factor).isSome = true
      ↔ (∀ t ∈ f.terms, Word.fits (t.2 * factor) = true)
        ∧ Word.fits (f.constant * factor) = true := by
  rw [← isSome_scaleTerms, Form.scale?, if_neg hFactor, Word.mul?, Word.checked]
  cases Form.scaleTerms factor f.terms with
  | none => simp
  | some terms =>
    split
    · rename_i hFits
      simp [hFits]
    · rename_i hFits
      simp [hFits]

theorem total_single_of_notMem [DecidableEq κ] {k : κ} {terms : List (κ × Int)}
    (h : k ∉ terms.map (·.1)) : total (fun j => if j = k then 1 else 0) terms = 0 := by
  induction terms with
  | nil => rfl
  | cons t terms ih =>
    rw [List.map_cons, List.mem_cons, not_or] at h
    rw [total_cons, if_neg (Ne.symm h.1), ih h.2, Int.mul_zero, Int.zero_add]

variable [Ord κ]

/-- Terms in increasing order of their atoms, none of which is zero. -/
structure Ordered (terms : List (κ × Int)) : Prop where
  increasing : terms.Pairwise fun s t => compare s.1 t.1 = .lt
  nonzero : ∀ t ∈ terms, t.2 ≠ 0

theorem ordered_nil : Ordered ([] : List (κ × Int)) := ⟨.nil, by simp⟩

theorem ordered_ofAtom (k : κ) : Ordered (ofAtom k).terms :=
  ⟨List.pairwise_singleton _ _, by simp [ofAtom]⟩

theorem ordered_cons {t : κ × Int} {terms : List (κ × Int)} : Ordered (t :: terms) ↔
    (∀ s ∈ terms, compare t.1 s.1 = .lt) ∧ t.2 ≠ 0 ∧ Ordered terms := by
  constructor
  · rintro ⟨hIncreasing, hNonzero⟩
    obtain ⟨hFirst, hRest⟩ := List.pairwise_cons.mp hIncreasing
    obtain ⟨hHere, hOthers⟩ := List.forall_mem_cons.mp hNonzero
    exact ⟨hFirst, hHere, hRest, hOthers⟩
  · rintro ⟨hFirst, hHere, hRest, hOthers⟩
    exact ⟨List.pairwise_cons.mpr ⟨hFirst, hRest⟩, List.forall_mem_cons.mpr ⟨hHere, hOthers⟩⟩

theorem Ordered.consTerm {k : κ} {terms : List (κ × Int)} (h : Ordered terms)
    (hk : ∀ s ∈ terms, compare k s.1 = .lt) (c : Int) : Ordered (consTerm k c terms) := by
  unfold Form.consTerm
  split
  · exact h
  · rename_i hc
    exact ordered_cons.mpr ⟨hk, hc, h⟩

theorem ordered_map {terms : List (κ × Int)} (h : Ordered terms) {factor : Int} (hf : factor ≠ 0) :
    Ordered (terms.map fun t => (t.1, t.2 * factor)) := by
  refine ⟨List.pairwise_map.mpr h.increasing, ?_⟩
  intro t ht
  obtain ⟨s, hs, rfl⟩ := List.mem_map.mp ht
  exact Int.mul_ne_zero (h.nonzero s hs) hf

theorem Ordered.addTerm [Std.TransOrd κ] {k : κ} {c : Int} {terms sum : List (κ × Int)}
    (h : Ordered terms) (hSum : addTerm k c terms = some sum) : Ordered sum := by
  induction terms generalizing sum with
  | nil =>
    cases hSum
    exact ordered_nil.consTerm (by simp) c
  | cons t rest ih =>
    obtain ⟨k', c'⟩ := t
    obtain ⟨hFirst, hNonzero, hRest⟩ := ordered_cons.mp h
    unfold Form.addTerm at hSum
    cases hOrder : compare k k' with
    | lt =>
      rw [hOrder] at hSum
      cases hSum
      refine h.consTerm (List.forall_mem_cons.mpr ⟨hOrder, fun s hs => ?_⟩) c
      exact Std.TransCmp.lt_trans hOrder (hFirst s hs)
    | eq =>
      rw [hOrder] at hSum
      obtain ⟨s, _, rfl⟩ := Option.map_eq_some_iff.mp hSum
      exact hRest.consTerm hFirst s
    | gt =>
      rw [hOrder] at hSum
      obtain ⟨more, hMore, rfl⟩ := Option.map_eq_some_iff.mp hSum
      refine ordered_cons.mpr ⟨?_, hNonzero, ih hRest hMore⟩
      exact over_addTerm (P := fun a => compare k' a = .lt) hMore
        (Std.OrientedCmp.gt_iff_lt.mp hOrder) hFirst

theorem Ordered.addTerms [Std.TransOrd κ] {terms more sum : List (κ × Int)} (h : Ordered terms)
    (hSum : addTerms terms more = some sum) : Ordered sum := by
  induction more generalizing terms with
  | nil =>
    cases hSum
    exact h
  | cons t more ih =>
    obtain ⟨between, hFirst, hRest⟩ := Option.bind_eq_some_iff.mp hSum
    exact ih (h.addTerm hFirst) hRest

theorem Ordered.add? [Std.TransOrd κ] {f g s : Form κ} (hf : Ordered f.terms)
    (h : f.add? g = some s) : Ordered s.terms := by
  obtain ⟨terms, hTerms, h⟩ := Option.bind_eq_some_iff.mp h
  obtain ⟨v, _, h⟩ := Option.bind_eq_some_iff.mp h
  cases h
  exact hf.addTerms hTerms

theorem Ordered.scale? {f g : Form κ} {factor : Int} (hf : Ordered f.terms)
    (h : f.scale? factor = some g) : Ordered g.terms := by
  unfold Form.scale? at h
  split at h
  · cases h
    exact ordered_nil
  · rename_i hFactor
    obtain ⟨terms, hTerms, h⟩ := Option.bind_eq_some_iff.mp h
    obtain ⟨v, _, h⟩ := Option.bind_eq_some_iff.mp h
    cases h
    rw [eq_of_scaleTerms hTerms]
    exact ordered_map hf hFactor

section lawful

variable [Std.LawfulEqOrd κ]

/-- An atom occurs in one term at most. -/
theorem Ordered.nodup {terms : List (κ × Int)} (h : Ordered terms) :
    (terms.map (·.1)).Nodup := by
  refine List.pairwise_map.mpr (h.increasing.imp fun {s t} hLess hSame => ?_)
  rw [hSame, Std.ReflOrd.compare_self] at hLess
  cases hLess

/-- The terms of other atoms stay as they are. -/
theorem mem_addTerm {k : κ} {c : Int} {t : κ × Int} (hNe : t.1 ≠ k) {terms sum : List (κ × Int)}
    (hSum : addTerm k c terms = some sum) : t ∈ sum ↔ t ∈ terms := by
  induction terms generalizing sum with
  | nil =>
    cases hSum
    exact mem_consTerm hNe
  | cons s rest ih =>
    obtain ⟨k', c'⟩ := s
    unfold addTerm at hSum
    cases hOrder : compare k k' with
    | lt =>
      rw [hOrder] at hSum
      cases hSum
      exact mem_consTerm hNe
    | eq =>
      rw [hOrder] at hSum
      obtain ⟨s, _, rfl⟩ := Option.map_eq_some_iff.mp hSum
      obtain rfl := Std.LawfulEqOrd.eq_of_compare hOrder
      rw [mem_consTerm hNe, List.mem_cons, or_iff_right]
      rintro rfl
      exact hNe rfl
    | gt =>
      rw [hOrder] at hSum
      obtain ⟨more, hMore, rfl⟩ := Option.map_eq_some_iff.mp hSum
      rw [List.mem_cons, List.mem_cons, ih hMore]

/-- The value for one atom tells the term of this atom. -/
theorem Ordered.mem_iff [DecidableEq κ] {terms : List (κ × Int)} (h : Ordered terms) {k : κ}
    {c : Int} (hc : c ≠ 0) : (k, c) ∈ terms ↔ total (fun j => if j = k then 1 else 0) terms = c := by
  induction terms with
  | nil => simp [hc.symm]
  | cons t terms ih =>
    have hNodup := h.nodup
    obtain ⟨hNew, _⟩ := List.nodup_cons.mp hNodup
    rw [total_cons, List.mem_cons]
    by_cases hk : t.1 = k
    · subst hk
      have hNone : (t.1, c) ∉ terms := fun hMem => hNew (List.mem_map_of_mem (f := (·.1)) hMem)
      rw [if_pos rfl, total_single_of_notMem hNew, or_iff_left hNone, Prod.mk.injEq]
      simp only [true_and, Int.mul_one, Int.add_zero]
      exact eq_comm
    · have hOther : (k, c) ≠ t := fun hEq => hk (hEq ▸ rfl)
      rw [if_neg hk, or_iff_right hOther, ih (ordered_cons.mp h).2.2, Int.mul_zero, Int.zero_add]

variable [Std.TransOrd κ]

/-- Adding a term leaves the word when the sum with the term of the same atom does. -/
theorem isSome_addTerm {k : κ} {c : Int} {terms : List (κ × Int)} (h : Ordered terms) :
    (addTerm k c terms).isSome = true ↔ ∀ c', (k, c') ∈ terms → Word.fits (c' + c) = true := by
  induction terms with
  | nil => simp [addTerm]
  | cons t rest ih =>
    obtain ⟨k', c'⟩ := t
    obtain ⟨hFirst, _, hRest⟩ := ordered_cons.mp h
    unfold addTerm
    cases hOrder : compare k k' with
    | lt =>
      -- the atom is smaller than all others
      refine iff_of_true rfl fun d hd => ?_
      have hLess : compare k k = .lt := by
        rcases List.mem_cons.mp hd with hd | hd
        · obtain ⟨rfl, _⟩ := Prod.mk.inj hd
          exact hOrder
        · exact Std.TransCmp.lt_trans hOrder (hFirst _ hd)
      rw [Std.ReflOrd.compare_self] at hLess
      cases hLess
    | eq =>
      obtain rfl := Std.LawfulEqOrd.eq_of_compare hOrder
      have hOnly : ∀ d, (k, d) ∈ (k, c') :: rest ↔ d = c' := by
        intro d
        constructor
        · intro hd
          rcases List.mem_cons.mp hd with hd | hd
          · exact (Prod.mk.inj hd).2
          · have hLess := hFirst _ hd
            rw [Std.ReflOrd.compare_self] at hLess
            cases hLess
        · rintro rfl
          exact List.mem_cons_self
      simp only [hOnly, forall_eq, Option.isSome_map, Word.add?, Word.checked]
      split <;> simp_all
    | gt =>
      have hNe : k ≠ k' := by
        rintro rfl
        rw [Std.ReflOrd.compare_self] at hOrder
        cases hOrder
      simp only [Option.isSome_map, ih hRest, List.mem_cons, Prod.mk.injEq, hNe, false_and,
        false_or]

/-- Adding terms leaves the word when the sum of two terms of one atom does. -/
theorem isSome_addTerms {terms more : List (κ × Int)} (h : Ordered terms)
    (hMore : (more.map (·.1)).Nodup) : (addTerms terms more).isSome = true
      ↔ ∀ t ∈ more, ∀ c', (t.1, c') ∈ terms → Word.fits (c' + t.2) = true := by
  induction more generalizing terms with
  | nil => simp [Form.addTerms]
  | cons t more ih =>
    obtain ⟨hNew, hNodup⟩ := List.nodup_cons.mp hMore
    rw [List.forall_mem_cons, ← isSome_addTerm h, Form.addTerms]
    cases hFirst : addTerm t.1 t.2 terms with
    | none => simp
    | some between =>
      -- the terms of the other atoms are still the same
      have hSame : ∀ s ∈ more, ∀ c', (s.1, c') ∈ between ↔ (s.1, c') ∈ terms := fun s hs c' =>
        mem_addTerm (t := (s.1, c')) (fun hEq => hNew (List.mem_map.mpr ⟨s, hs, hEq⟩)) hFirst
      show (Form.addTerms between more).isSome = true ↔ _
      rw [ih (h.addTerm hFirst) hNodup]
      simp only [Option.isSome_some, true_and]
      exact forall₂_congr fun s hs => forall_congr' fun c' => by rw [hSame s hs c']

/-- A sum leaves the word when the sum of two terms of one atom does, or that of the constants. -/
theorem isSome_add? {f g : Form κ} (hf : Ordered f.terms) (hg : Ordered g.terms) :
    (f.add? g).isSome = true
      ↔ (∀ t ∈ g.terms, ∀ c, (t.1, c) ∈ f.terms → Word.fits (c + t.2) = true)
        ∧ Word.fits (f.constant + g.constant) = true := by
  rw [← isSome_addTerms hf hg.nodup, Form.add?, Word.add?, Word.checked]
  cases Form.addTerms f.terms g.terms with
  | none => simp
  | some terms =>
    split
    · rename_i hFits
      simp [hFits]
    · rename_i hFits
      simp [hFits]

end lawful

/-! ## Renaming -/

/-- The second form is the first one under other names. -/
structure Renames (ρ : κ ≃ κ) (f g : Form κ) : Prop where
  first : Ordered f.terms
  second : Ordered g.terms
  terms : g.terms.Perm (f.terms.map fun t => (ρ t.1, t.2))
  constant : g.constant = f.constant

namespace Renames

variable {ρ : κ ≃ κ} {f f' g g' : Form κ}

theorem ofConstant (ρ : κ ≃ κ) (v : Int) : Renames ρ (ofConstant v) (Form.ofConstant v) :=
  ⟨ordered_nil, ordered_nil, .nil, rfl⟩

theorem ofAtom (ρ : κ ≃ κ) (k : κ) : Renames ρ (ofAtom k) (Form.ofAtom (ρ k)) :=
  ⟨ordered_ofAtom k, ordered_ofAtom _, .refl _, rfl⟩

theorem mem_iff (h : Renames ρ f g) {k : κ} {c : Int} : (ρ k, c) ∈ g.terms ↔ (k, c) ∈ f.terms := by
  rw [h.terms.mem_iff, List.mem_map]
  constructor
  · rintro ⟨t, ht, hEq⟩
    obtain ⟨hAtom, rfl⟩ := Prod.mk.inj hEq
    rwa [← ρ.injective hAtom]
  · exact fun hMem => ⟨(k, c), hMem, rfl⟩

/-- A form under other names has the values that it has for the atoms with these names. -/
theorem values (h : Renames ρ f g) (ν : κ → Int) : g.eval ν = f.eval (ν ∘ ρ) := by
  have hTotal : ∀ terms : List (κ × Int), total ν (terms.map fun t => (ρ t.1, t.2))
      = total (ν ∘ ρ) terms := by
    intro terms
    induction terms with
    | nil => rfl
    | cons t terms ih => rw [List.map_cons, total_cons, total_cons, ih]; rfl
  have hPerm : ∀ {terms terms' : List (κ × Int)}, terms.Perm terms' →
      total ν terms = total ν terms' := by
    intro terms terms' hPerm
    induction hPerm with
    | nil => rfl
    | cons t _ ih => rw [total_cons, total_cons, ih]
    | swap s t terms => simp only [total_cons]; omega
    | trans _ _ ih ih' => rw [ih, ih']
  rw [eval_eq_total, eval_eq_total, h.constant, hPerm h.terms, hTotal]

/-- The values determine the terms. -/
theorem of_values [DecidableEq κ] [Std.LawfulEqOrd κ] (hf : Ordered f.terms) (hg : Ordered g.terms)
    (h : ∀ ν, g.eval ν = f.eval (ν ∘ ρ)) : Renames ρ f g := by
  have hZero : ∀ terms : List (κ × Int), total (fun _ => 0) terms = 0 := by
    intro terms
    induction terms with
    | nil => rfl
    | cons t terms ih => rw [total_cons, ih, Int.mul_zero, Int.zero_add]
  have hConstant : g.constant = f.constant := by
    have hAt := h fun _ => 0
    rw [eval_eq_total, eval_eq_total, hZero, show (fun _ => (0 : Int)) ∘ ρ = fun _ => 0 from rfl,
      hZero] at hAt
    omega
  refine ⟨hf, hg, ?_, hConstant⟩
  have hNodup : (f.terms.map fun t => (ρ t.1, t.2)).Nodup := by
    refine List.Nodup.of_map (fun t => t.1) ?_
    rw [List.map_map]
    have hNames := hf.nodup.map ρ.injective
    rwa [List.map_map] at hNames
  refine (List.perm_ext_iff_of_nodup (hg.nodup.of_map _) hNodup).mpr fun ⟨k, c⟩ => ?_
  by_cases hc : c = 0
  · -- no term is zero
    refine iff_of_false (fun hMem => hg.nonzero _ hMem hc) fun hMem => ?_
    obtain ⟨t, ht, hEq⟩ := List.mem_map.mp hMem
    exact hf.nonzero t ht ((Prod.mk.inj hEq).2.trans hc)
  · have hSame : total (fun j => if j = k then 1 else 0) g.terms
        = total (fun j => if j = ρ.symm k then 1 else 0) f.terms := by
      have hAt := h fun j => if j = k then 1 else 0
      have hComp : (fun j => if j = k then (1 : Int) else 0) ∘ ρ
          = fun j => if j = ρ.symm k then 1 else 0 := by
        funext j
        simp only [Function.comp_apply, Equiv.eq_symm_apply]
      rw [eval_eq_total, eval_eq_total, hComp, hConstant] at hAt
      omega
    rw [hg.mem_iff hc, hSame, ← hf.mem_iff hc, List.mem_map]
    constructor
    · exact fun hMem => ⟨_, hMem, by rw [Equiv.apply_symm_apply]⟩
    · rintro ⟨t, ht, hEq⟩
      obtain ⟨rfl, rfl⟩ := Prod.mk.inj hEq
      rwa [Equiv.symm_apply_apply]

theorem constant?_eq (h : Renames ρ f g) : g.constant? = f.constant? := by
  have hLength := h.terms.length_eq
  rw [List.length_map] at hLength
  unfold Form.constant?
  rw [h.constant, Bool.eq_iff_iff.mpr (show g.terms.isEmpty = true ↔ f.terms.isEmpty = true by
    rw [List.isEmpty_iff_length_eq_zero, List.isEmpty_iff_length_eq_zero, hLength])]

/-- Results are the same up to names when both are there or none is and their values are. -/
theorem rel_of_values [DecidableEq κ] [Std.LawfulEqOrd κ] {o o' : Option (Form κ)}
    (hSome : o'.isSome = true ↔ o.isSome = true) (hf : ∀ f, o = some f → Ordered f.terms)
    (hg : ∀ g, o' = some g → Ordered g.terms)
    (hValues : ∀ f g, o = some f → o' = some g → ∀ ν, g.eval ν = f.eval (ν ∘ ρ)) :
    Option.Rel (Renames ρ) o o' := by
  cases o with
  | none =>
    cases o' with
    | none => exact .none
    | some g => exact absurd (hSome.mp rfl) Bool.false_ne_true
  | some f =>
    cases o' with
    | none => exact absurd (hSome.mpr rfl) Bool.false_ne_true
    | some g => exact .some (of_values (hf f rfl) (hg g rfl) (hValues f g rfl rfl))

section operations

variable [DecidableEq κ] [Std.LawfulEqOrd κ]

theorem scale? (h : Renames ρ f g) (factor : Int) :
    Option.Rel (Renames ρ) (f.scale? factor) (g.scale? factor) := by
  refine rel_of_values ?_ (fun _ => h.first.scale?) (fun _ => h.second.scale?) ?_
  · by_cases hFactor : factor = 0
    · rw [Form.scale?, Form.scale?, if_pos hFactor, if_pos hFactor]
    · rw [isSome_scale? hFactor, isSome_scale? hFactor, h.constant]
      refine and_congr_left' ?_
      constructor
      · exact fun hFits t ht => hFits (ρ t.1, t.2) (h.mem_iff.mpr ht)
      · intro hFits t ht
        obtain ⟨s, hs, rfl⟩ := List.mem_map.mp (h.terms.subset ht)
        exact hFits s hs
  · intro s s' hs hs' ν
    rw [eval_scale? hs, eval_scale? hs', h.values]

variable [Std.TransOrd κ]

theorem add? (h : Renames ρ f g) (h' : Renames ρ f' g') :
    Option.Rel (Renames ρ) (f.add? f') (g.add? g') := by
  refine rel_of_values ?_ (fun _ => h.first.add?) (fun _ => h.second.add?) ?_
  · rw [isSome_add? h.first h'.first, isSome_add? h.second h'.second, h.constant, h'.constant]
    refine and_congr_left' ?_
    constructor
    · exact fun hFits t ht c hc => hFits (ρ t.1, t.2) (h'.mem_iff.mpr ht) c (h.mem_iff.mpr hc)
    · intro hFits t ht c hc
      obtain ⟨s, hs, rfl⟩ := List.mem_map.mp (h'.terms.subset ht)
      exact hFits s hs c (h.mem_iff.mp hc)
  · intro s s' hs hs' ν
    rw [eval_add? hs, eval_add? hs', h.values, h'.values]

theorem sub? (h : Renames ρ f g) (h' : Renames ρ f' g') :
    Option.Rel (Renames ρ) (f.sub? f') (g.sub? g') := by
  exact rel_bind (h'.scale? (-1)) fun _ _ hNegated => h.add? hNegated

end operations

end Renames

end Affine.Form

namespace Expr

open Affine Affine.Form

variable {κ : Type} [Ord κ] [DecidableEq κ] [Std.LawfulEqOrd κ] {ρ : κ ≃ κ}

theorem renames_linearProduct {f f' g g' : Form κ} (h : Renames ρ f g) (h' : Renames ρ f' g') :
    Option.Rel (Renames ρ) (linearProduct f f') (linearProduct g g') := by
  unfold linearProduct
  rw [h.constant?_eq, h'.constant?_eq]
  split
  · exact h'.scale? _
  · exact h.scale? _
  · exact .none

/-- **Expressions**: when the scalars stand for the same up to names, so do expressions. -/
theorem renames_linear? [Std.TransOrd κ] {r r' : String → Option (Form κ)} : ∀ e : Expr,
    (∀ x ∈ e.scalars, Option.Rel (Renames ρ) (r x) (r' x)) →
      Option.Rel (Renames ρ) (e.linear? r) (e.linear? r') := by
  refine Expr.ind ?_ ?_ ?_ ?_ ?_ ?_ ?_
  · exact fun v _ => .some (.ofConstant ρ v)
  · exact fun _ _ => .none
  · exact fun _ _ => .none
  · exact fun x h => h x (by simp)
  · exact fun _ _ _ _ => .none
  · intro op e ih h
    rw [scalars_unary] at h
    cases op with
    | not => exact .none
    | neg => exact rel_bind (ih h) fun f g hf => hf.scale? _
  · intro op a b iha ihb h
    rw [scalars_binary] at h
    refine rel_bind (iha fun x hx => h x (List.mem_append_left _ hx)) fun f g hf => ?_
    refine rel_bind (ihb fun x hx => h x (List.mem_append_right _ hx)) fun f' g' hf' => ?_
    cases op with
    | add => exact hf.add? hf'
    | sub => exact hf.sub? hf'
    | mul => exact renames_linearProduct hf hf'
    | _ => exact .none

end Expr

end LoopNest

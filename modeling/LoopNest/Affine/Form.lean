import LoopNest.Affine.Interval

/-! # Affine forms

  An affine form is a sum of atoms with integer coefficients plus a constant. The terms are kept in
  increasing order of their atoms, no atom occurs twice and no coefficient is zero, so a form has
  one representation. Coefficients and constants are 64-bit constants; an operation whose result
  would leave the word has no answer. -/

namespace LoopNest.Affine

/-- The form `Σ coefficient · atom + constant` over atoms of type `κ`. -/
structure Form (κ : Type) where
  terms : List (κ × Int)
  constant : Int
deriving DecidableEq, Repr, Inhabited

namespace Form

variable {κ : Type} [Ord κ]

/-- A form without atoms. -/
def ofConstant (v : Int) : Form κ := ⟨[], v⟩

/-- The form of one atom. -/
def ofAtom (k : κ) : Form κ := ⟨[(k, 1)], 0⟩

/-- The value of a form without atoms. -/
def constant? (f : Form κ) : Option Int := if f.terms.isEmpty then some f.constant else none

/-- The coefficient of an atom, zero when it does not occur. -/
def coefficient (f : Form κ) (k : κ) : Int :=
  match f.terms.find? (fun t => compare t.1 k == .eq) with
  | some t => t.2
  | none => 0

/-- A term in front of others, left out when its coefficient is zero. -/
def consTerm (k : κ) (c : Int) (rest : List (κ × Int)) : List (κ × Int) :=
  if c = 0 then rest else (k, c) :: rest

/-- Adds one term to a list of terms. -/
def addTerm (k : κ) (c : Int) : List (κ × Int) → Option (List (κ × Int))
  | [] => some (consTerm k c [])
  | (k', c') :: rest =>
    match compare k k' with
    | .lt => some (consTerm k c ((k', c') :: rest))
    | .eq => (Word.add? c' c).map fun s => consTerm k' s rest
    | .gt => (addTerm k c rest).map ((k', c') :: ·)

/-- Adds terms one after the other. -/
def addTerms (terms : List (κ × Int)) : List (κ × Int) → Option (List (κ × Int))
  | [] => some terms
  | (k, c) :: rest => do addTerms (← addTerm k c terms) rest

/-- The sum of two forms. -/
def add? (a b : Form κ) : Option (Form κ) := do
  let terms ← addTerms a.terms b.terms
  return ⟨terms, ← Word.add? a.constant b.constant⟩

/-- Every coefficient times a factor. -/
def scaleTerms (factor : Int) : List (κ × Int) → Option (List (κ × Int))
  | [] => some []
  | (k, c) :: rest => do
    let c ← Word.mul? c factor
    return (k, c) :: (← scaleTerms factor rest)

/-- A multiple of a form. -/
def scale? (a : Form κ) (factor : Int) : Option (Form κ) :=
  if factor = 0 then some (ofConstant 0)
  else do
    let terms ← scaleTerms factor a.terms
    return ⟨terms, ← Word.mul? a.constant factor⟩

/-- The difference of two forms. -/
def sub? (a b : Form κ) : Option (Form κ) := do a.add? (← b.scale? (-1))

/-- The values of a form when each atom takes values in the interval given for it. -/
def range (f : Form κ) (bound : κ → Interval) : Interval :=
  f.terms.foldl (fun acc t => acc.add ((bound t.1).scale t.2)) (.point f.constant)

/-- The value of a form when each atom has the value given for it. -/
def eval (f : Form κ) (value : κ → Int) : Int :=
  f.terms.foldr (fun t sum => t.2 * value t.1 + sum) f.constant

end Form

end LoopNest.Affine

import LoopNest.Expr.Basic

/-! # Substitution and renaming

  A substitution replaces scalars by expressions and a renaming replaces names by names; both are
  association lists, and the first entry of a name counts. All occurrences are replaced at once:
  what is put in is not looked at again. -/

namespace LoopNest.Expr

/-- Values for scalars. -/
abbrev Substitution := List (String × Expr)

/-- New names for old ones. -/
abbrev Renaming := List (String × String)

/-- The new name of a name; names without an entry keep theirs. -/
def Renaming.apply (ρ : Renaming) (name : String) : String := (ρ.lookup name).getD name

mutual
/-- Replaces scalars by expressions. -/
def substitute (σ : Substitution) : Expr → Expr
  | .var x => (σ.lookup x).getD (.var x)
  | .load b is => .load b (substituteAll σ is)
  | .unary o e => .unary o (substitute σ e)
  | .binary o a b => .binary o (substitute σ a) (substitute σ b)
  | e => e
/-- Replaces scalars in every expression of a list. -/
def substituteAll (σ : Substitution) : List Expr → List Expr
  | [] => []
  | e :: es => substitute σ e :: substituteAll σ es
end

mutual
/-- Renames scalars and buffers. -/
def rename (scalars buffers : Renaming) : Expr → Expr
  | .var x => .var (scalars.apply x)
  | .load b is => .load (buffers.apply b) (renameAll scalars buffers is)
  | .unary o e => .unary o (rename scalars buffers e)
  | .binary o a b => .binary o (rename scalars buffers a) (rename scalars buffers b)
  | e => e
/-- Renames in every expression of a list. -/
def renameAll (scalars buffers : Renaming) : List Expr → List Expr
  | [] => []
  | e :: es => rename scalars buffers e :: renameAll scalars buffers es
end

mutual
/-- Replaces reads of the buffer `name` without subscripts by a value. -/
def substituteCell (name : String) (value : Expr) : Expr → Expr
  | .load b is =>
    if b == name && is.isEmpty then value else .load b (substituteCellAll name value is)
  | .unary o e => .unary o (substituteCell name value e)
  | .binary o a b => .binary o (substituteCell name value a) (substituteCell name value b)
  | e => e
/-- Replaces reads of a cell in every expression of a list. -/
def substituteCellAll (name : String) (value : Expr) : List Expr → List Expr
  | [] => []
  | e :: es => substituteCell name value e :: substituteCellAll name value es
end

/-! ## On lists -/

theorem substituteAll_eq_map (σ : Substitution) (es : List Expr) :
    substituteAll σ es = es.map (substitute σ) := by
  induction es with
  | nil => rfl
  | cons e es ih => simp [substituteAll, ih]

theorem renameAll_eq_map (scalars buffers : Renaming) (es : List Expr) :
    renameAll scalars buffers es = es.map (rename scalars buffers) := by
  induction es with
  | nil => rfl
  | cons e es ih => simp [renameAll, ih]

theorem substituteCellAll_eq_map (name : String) (value : Expr) (es : List Expr) :
    substituteCellAll name value es = es.map (substituteCell name value) := by
  induction es with
  | nil => rfl
  | cons e es ih => simp [substituteCellAll, ih]

end LoopNest.Expr

import LoopNest.Program.Walk

/-! # Rounded constants

  Programs run on integers, where a float constant has no value. `Stmt.rounded` puts integers in the
  places of the float constants of a program, so that it can be run all the same, whichever way they
  are rounded. -/

namespace LoopNest

namespace Expr

mutual
/-- The expression with integers in the places of its float constants. -/
def rounded (round : Float → Int) : Expr → Expr
  | .float x => .int (round x)
  | .load b is => .load b (roundedAll round is)
  | .unary op e => .unary op (rounded round e)
  | .binary op a b => .binary op (rounded round a) (rounded round b)
  | e => e
/-- Rounds in every expression of a list. -/
def roundedAll (round : Float → Int) : List Expr → List Expr
  | [] => []
  | e :: es => rounded round e :: roundedAll round es
end

theorem roundedAll_eq_map (round : Float → Int) (es : List Expr) :
    roundedAll round es = es.map (rounded round) := by
  induction es with
  | nil => rfl
  | cons e es ih => simp [roundedAll, ih]

end Expr

namespace Stmt

/-- The program with integers in the places of its float constants. -/
def rounded (round : Float → Int) (t : Stmt) : Stmt := t.mapExprs (Expr.rounded round)

section rounded

variable (round : Float → Int) (s : Site)

@[simp] theorem rounded_decl (n : String) (b : Buffer) (body : Stmt) :
    (Stmt.decl s n b body).rounded round
      = .decl s n { b with shape := b.shape.map (Expr.rounded round) } (body.rounded round) := rfl

@[simp] theorem rounded_loop (h : LoopHead) (body : Stmt) :
    (Stmt.loop s h body).rounded round
      = .loop s { h with lower := h.lower.rounded round, upper := h.upper.rounded round }
        (body.rounded round) := rfl

@[simp] theorem rounded_guard (c : Expr) (body : Stmt) :
    (Stmt.guard s c body).rounded round = .guard s (c.rounded round) (body.rounded round) := rfl

@[simp] theorem rounded_branch (c : Expr) (yes no : Stmt) :
    (Stmt.branch s c yes no).rounded round
      = .branch s (c.rounded round) (yes.rounded round) (no.rounded round) := rfl

@[simp] theorem rounded_store (b : String) (is : List Expr) (v : Expr) :
    (Stmt.store s b is v).rounded round
      = .store s b (is.map (Expr.rounded round)) (v.rounded round) := rfl

@[simp] theorem rounded_call (f : String) (args : List Arg) :
    (Stmt.call s f args).rounded round = .call s f (args.map (mapArg (Expr.rounded round))) := rfl

@[simp] theorem rounded_block (ts : List Stmt) :
    (Stmt.block s ts).rounded round = .block s (ts.map (rounded round)) := by
  unfold rounded mapExprs
  rw [bottomUp, bottomUpAll_eq_map]
  rfl

@[simp] theorem rounded_hole : (Stmt.hole s).rounded round = .hole s := rfl

end rounded

end Stmt

end LoopNest

import LoopNest.Program.Canonical
import LoopNest.Semantics.Calls

/-! # Running canonical forms

  `Canonical.run` runs canonical forms. There are no names in them to look up: what a name stands for
  has a place of its own, and every binder adds one.

  * A loop adds a place for its iterator, a declaration one for a buffer without contents. The place is
    gone when the loop or the declaration is left.
  * In a canonical form loops and declarations are counted alike, so a name may come to stand for a loop
    where it names a buffer. `Canonical.keepsRoles` says that this is not so wherever a run looks. -/

namespace LoopNest

/-! ## Roles -/

/-- What a binder binds. -/
inductive Role where
  | scalar
  | buffer
deriving DecidableEq, Repr

/-- The same seen from inside one more binder. -/
def Referent.shift : Referent → Referent
  | binder d => binder (d + 1)
  | outside n => outside n

/-- Whether something may be used in a role below binders of the given roles, innermost first. What
    comes from outside may be used as a scalar and as a buffer, and these are different things. -/
def Referent.plays (roles : List Role) (role : Role) : Referent → Bool
  | binder d => roles[d]? == some role
  | outside _ => true

namespace CanonicalExpr

mutual
/-- Whether every name in an expression is used in the role of what it stands for. -/
def keepsRoles (roles : List Role) : CanonicalExpr → Bool
  | .scalar x => x.plays roles .scalar
  | .load b is => b.plays roles .buffer && keepsRolesAll roles is
  | .unary _ e => keepsRoles roles e
  | .binary _ a b => keepsRoles roles a && keepsRoles roles b
  | .int _ | .float _ | .bool _ => true
/-- Whether this is so in every expression of a list. -/
def keepsRolesAll (roles : List Role) : List CanonicalExpr → Bool
  | [] => true
  | e :: es => keepsRoles roles e && keepsRolesAll roles es
end

end CanonicalExpr

namespace Canonical

mutual
/-- Whether every name that a run looks at is used in the role of what it stands for. -/
def keepsRoles (roles : List Role) : Canonical → Bool
  | .decl _ _ _ _ body => keepsRolesAll (.buffer :: roles) body
  | .loop _ _ lower upper body =>
    lower.keepsRoles roles && upper.keepsRoles roles && keepsRolesAll (.scalar :: roles) body
  | .guard c body => c.keepsRoles roles && keepsRolesAll roles body
  | .branch c yes no => c.keepsRoles roles && keepsRolesAll roles yes && keepsRolesAll roles no
  | .store b is v =>
    b.plays roles .buffer && CanonicalExpr.keepsRolesAll roles is && v.keepsRoles roles
  | .call .. | .hole => true
/-- Whether this is so in every statement of a list. -/
def keepsRolesAll (roles : List Role) : List Canonical → Bool
  | [] => true
  | c :: cs => keepsRoles roles c && keepsRolesAll roles cs
end

end Canonical

/-- Whether every name that a run looks at is used as what its innermost binder binds, if it has one. -/
def Stmt.keepsRoles (t : Stmt) : Bool := Canonical.keepsRolesAll [] t.canonical

/-! ## Places -/

/-- The values of everything that names can stand for. -/
abbrev Places (α : Type) := Referent → α

namespace Places

variable {α : Type}

/-- The places around a whole program, where nothing is bound. -/
def around [Inhabited α] (values : String → α) : Places α
  | .outside n => values n
  | .binder _ => default

/-- One more place, of a new innermost binder. -/
def push (value : α) (p : Places α) : Places α
  | .binder 0 => value
  | .binder (d + 1) => p (.binder d)
  | .outside n => p (.outside n)

/-- The places outside of the innermost binder. -/
def pop (p : Places α) : Places α := fun r => p r.shift

/-- The same contents but for one element. -/
def put (m : Places Cells) (buffer : Referent) (indices : List Int) (value : Int) : Places Cells :=
  fun r is => if r = buffer ∧ is = indices then some value else m r is

end Places

/-! ## Running -/

namespace CanonicalExpr

mutual
/-- The value of a canonical form. Float constants have the values that `round` gives to their bits. -/
def value? (round : UInt64 → Int) (env : Places Int) (m : Places Cells) : CanonicalExpr → Option Int
  | .int v => some v
  | .float bits => some (round bits)
  | .bool b => some (flag b)
  | .scalar x => some (env x)
  | .load b is => do m b (← values? round env m is)
  | .unary op e => return op.value (← value? round env m e)
  | .binary op a b => do op.value? (← value? round env m a) (← value? round env m b)
/-- The values of all canonical forms of a list. -/
def values? (round : UInt64 → Int) (env : Places Int) (m : Places Cells) :
    List CanonicalExpr → Option (List Int)
  | [] => some []
  | e :: es => do
    let v ← value? round env m e
    return v :: (← values? round env m es)
end

end CanonicalExpr

/-- What is done with one more place, for a buffer without contents, which is gone in the end. -/
def Transition.inside (a : Transition (Places Cells)) : Transition (Places Cells) := fun m =>
  (a (m.push fun _ => none)).map Places.pop

namespace Canonical

mutual
/-- What a canonical form leaves. -/
def run (round : UInt64 → Int) (env : Places Int) : Canonical → Transition (Places Cells)
  | .decl _ _ _ _ body => Transition.inside (runAll round (env.push 0) body)
  | .loop _ _ lower upper body => fun m => do
    let first ← lower.value? round env m
    let last ← upper.value? round env m
    (counting first last).foldlM
      (fun m v => Transition.inside (runAll round (env.push v) body) m) m
  | .guard c body => fun m => do
    if (← c.value? round env m) = 0 then some m else runAll round env body m
  | .branch c yes no => fun m => do
    if (← c.value? round env m) = 0 then runAll round env no m else runAll round env yes m
  | .store b is v => fun m => do
    let indices ← CanonicalExpr.values? round env m is
    let value ← v.value? round env m
    return m.put b indices value
  | .call .. | .hole => fun _ => none
/-- What canonical forms leave one after the other. -/
def runAll (round : UInt64 → Int) (env : Places Int) : List Canonical → Transition (Places Cells)
  | [] => some
  | c :: cs => fun m => (run round env c m).bind (runAll round env cs)
end

/-- What the canonical form of a whole program leaves. -/
def leaves (round : UInt64 → Int) (env : Env) (m : Memory) (cs : List Canonical) :
    Option (Places Cells) :=
  runAll round (.around env) cs (.around m)

theorem runAll_singleton (round : UInt64 → Int) (env : Places Int) (c : Canonical) :
    runAll round env [c] = run round env c := by
  funext m
  rw [runAll]
  exact Option.bind_fun_some _

theorem keepsRolesAll_singleton (roles : List Role) (c : Canonical) :
    keepsRolesAll roles [c] = keepsRoles roles c := by
  rw [keepsRolesAll, keepsRolesAll, Bool.and_true]

theorem runAll_append (round : UInt64 → Int) (env : Places Int) (cs ds : List Canonical) :
    runAll round env (cs ++ ds) = fun m => (runAll round env cs m).bind (runAll round env ds) := by
  induction cs with
  | nil => rfl
  | cons c cs ih =>
    funext m
    rw [List.cons_append, runAll, runAll, Option.bind_assoc, ih]

theorem keepsRolesAll_append (roles : List Role) (cs ds : List Canonical) :
    keepsRolesAll roles (cs ++ ds) = (keepsRolesAll roles cs && keepsRolesAll roles ds) := by
  induction cs with
  | nil => rfl
  | cons c cs ih => rw [List.cons_append, keepsRolesAll, keepsRolesAll, ih, Bool.and_assoc]

end Canonical

end LoopNest

import LoopNest.Names
import LoopNest.Program.TreeError

/-! # Functions

  A function is a named program with parameters. Calls are resolved in a `Registry`, a list of
  functions with different names. -/

namespace LoopNest

/-- A parameter: a buffer under the name that the body uses. -/
structure Param where
  name : String
  buffer : Buffer
deriving Repr, Inhabited

namespace Param

/-- Whether two parameters are the same. -/
def same (a b : Param) : Bool := a.name == b.name && a.buffer.same b.buffer

end Param

/-- A named program with parameters. -/
structure Function where
  name : String
  params : List Param
  body : Stmt
deriving Repr, Inhabited

namespace Function

/-- The first parameter of that name. -/
def param? (f : Function) (name : String) : Option Param := f.params.find? (·.name == name)

/-- The body with every parameter declared around it, the first one outermost. -/
def declared (f : Function) : Stmt :=
  f.params.foldr (fun p body => .decl ⟨0, none⟩ p.name p.buffer body) f.body

/-- The function as a program of its own. -/
def program (f : Function) : Except TreeError Stmt := f.declared.commit

end Function

/-- The functions that calls may name. -/
structure Registry where
  functions : List Function := []
deriving Repr, Inhabited

namespace Registry

/-- The function of that name. -/
def get? (r : Registry) (name : String) : Option Function := r.functions.find? (·.name == name)

/-- Adds a function under a name that is not taken. -/
def register (r : Registry) (f : Function) : Except TreeError Registry :=
  if (r.get? f.name).isSome then .error (.duplicateFunction f.name) else .ok ⟨r.functions ++ [f]⟩

/-- The registry of a list of functions. -/
def ofList (fs : List Function) : Except TreeError Registry := fs.foldlM register {}

/-- The registered names, sorted. -/
def names (r : Registry) : List String := sortedNames (r.functions.map (·.name))

end Registry

end LoopNest

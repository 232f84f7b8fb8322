import LoopNest.Session.Basic

/-! # What a session holds

  The programs and the expressions of a session, and which of their numbers a file can hold:

  * `Session.InRange`: integers stay within the types in which they are kept;
  * `Session.Finite`: floating point constants are finite. -/

namespace LoopNest

/-- The expressions of an entry. -/
def NodeKind.exprs : NodeKind → List Expr
  | .decl _ b _ => b.shape
  | .loop h _ => [h.lower, h.upper]
  | .cond c _ _ => [c]
  | .store _ is v => is ++ [v]
  | .call _ args => Stmt.argValues args
  | .block _ | .hole => []

/-- The expressions of a command. -/
def Command.exprs : Command → List Expr
  | .split _ factor nparts => factor.toList ++ nparts.toList
  | _ => []

/-- The axes of a buffer that a command names. -/
def Command.axes : Command → List Nat
  | .varReorder _ order => order
  | _ => []

/-- The expressions of a function: the extents of its parameters, and those of its body. -/
def Function.exprs (f : Function) : List Expr :=
  f.params.flatMap (·.buffer.shape) ++ f.body.nodes.flatMap Stmt.exprs

namespace Session

/-- The program and the bodies of the functions. -/
def programs (s : Session) : List Stmt := s.program :: s.functions.map Function.body

/-- All expressions of a session. -/
def exprs (s : Session) : List Expr :=
  s.program.nodes.flatMap Stmt.exprs ++ s.functions.flatMap Function.exprs
    ++ s.schedule.flatMap Command.exprs

/-- The integers of a session stay within their types.

    * **constants** fit the 64-bit word;
    * **statements** are numbered by 32 bits;
    * **axes** of buffers are numbered by 64 bits. -/
structure InRange (s : Session) : Prop where
  constants : ∀ e ∈ s.exprs, ∀ v, .int v ∈ e.parts → Word.fits v = true
  statements : ∀ t ∈ s.programs, t.size ≤ places
  axes : ∀ c ∈ s.schedule, ∀ n ∈ c.axes, n < Word.naturals

/-- Every floating point constant of a session is finite. -/
def Finite (s : Session) : Prop := ∀ e ∈ s.exprs, ∀ v, .float v ∈ e.parts → v.isFinite = true

end Session

end LoopNest

import LoopNest.Dependence.Access
import LoopNest.Program.Function
import LoopNest.Restructure.Draft

/-! # Expanding calls

  A call is replaced by a private copy of the body of the function it names.

  * Buffer parameters are renamed to the buffers passed, scalar parameters replaced by the values
    passed.
  * Every iterator and buffer that the body itself binds gets a fresh name.
  * Labels of the body are put behind the label of the call, or behind the name of the function.

  Calls inside the copy are expanded in turn. No function is expanded inside itself, so the depth is
  bounded by the number of functions. -/

namespace LoopNest.Restructure

/-! ## Fitting arguments to parameters -/

/-- The first dimension in which both shapes are constant and differ. -/
def extentMismatch? (arg : String) (param : String) :
    (dim : Nat) → List Expr → List Expr → Option Mismatch
  | dim, h :: hs, p :: ps =>
    match h.int?, p.int? with
    | some x, some y =>
      if x = y then extentMismatch? arg param (dim + 1) hs ps
      else some (.extent dim arg x param y)
    | _, _ => extentMismatch? arg param (dim + 1) hs ps
  | _, _, _ => none

/-- Why a buffer cannot be passed to a parameter. -/
def bufferMismatch? (host : Option Buffer) (p : Param) (arg : String) (writes : List String) :
    Option Mismatch :=
  match host with
  | none => some (.undeclared arg)
  | some h =>
    if h.rank ≠ p.buffer.rank then some (.rank arg h.rank p.name p.buffer.rank)
    else if h.elem ≠ p.buffer.elem then some (.elem arg h.elem p.name p.buffer.elem)
    else match extentMismatch? arg p.name 0 h.shape p.buffer.shape with
      | some m => some m
      | none =>
        if writes.contains p.name && (!p.buffer.access.isWritable || !h.access.isWritable) then
          some (.written arg p.name)
        else none

/-- Whether a parameter takes a value: it is a scalar that is not written. -/
def takesValue (p : Param) (writes : List String) : Bool :=
  p.buffer.rank == 0 && !p.buffer.access.isWritable && !writes.contains p.name

/-- What the parameters stand for. -/
structure Binding where
  buffers : Expr.Renaming := []
  /-- The values of scalar parameters, in the order of the parameters. -/
  values : List (String × Expr) := []
deriving Repr, Inhabited

/-- Binds parameters to arguments one after the other. -/
def bindArgs (host : String → Option Buffer) (f : String) (writes : List String) (b : Binding) :
    List Param → List Arg → Outcome Binding
  | p :: ps, .buffer name :: args =>
    match bufferMismatch? (host name) p name writes with
    | some m => .error (.mismatch f m)
    | none => bindArgs host f writes { b with buffers := (p.name, name) :: b.buffers } ps args
  | p :: ps, .value e :: args =>
    if takesValue p writes then
      bindArgs host f writes { b with values := b.values ++ [(p.name, e)] } ps args
    else .error (.mismatch f (.notScalarInput p.name))
  | _, _ => .ok b

/-! ## The private copy -/

/-- The new names of iterators and buffers. -/
structure Renamings where
  scalars : Expr.Renaming
  buffers : Expr.Renaming
  names : NameSupply

/-- Chooses fresh names for what a statement binds, unless its name has one already. -/
def Renamings.extend (r : Renamings) : Stmt → Renamings
  | .loop _ h _ =>
    if (r.scalars.lookup h.iter).isSome then r
    else
      let (fresh, names) := r.names.fresh h.iter
      { r with scalars := (h.iter, fresh) :: r.scalars, names }
  | .decl _ n _ _ =>
    if (r.buffers.lookup n).isSome then r
    else
      let (fresh, names) := r.names.fresh n
      { r with buffers := (n, fresh) :: r.buffers, names }
  | _ => r

/-- The names for everything that a copy binds. Names of parameters are not given away. -/
def renamings (used : List String) (params : List Param) (buffers : Expr.Renaming) (copy : Stmt) :
    Renamings :=
  let names := params.foldl (fun s p => s.reserve p.name) (NameSupply.mk used)
  copy.nodes.foldl Renamings.extend ⟨[], buffers, names⟩

/-- Puts a value in place of a scalar parameter. -/
def putValue (t : Stmt) (param : String) (value : Expr) : Stmt :=
  (t.substitute param value).mapExprs (Expr.substituteCell param value)

/-- Fresh labels behind `front` for the labelled statements of a list. -/
def freshLabels (front : String) (labels : NameSupply) : List Stmt → List (Nat × String)
  | [] => []
  | t :: ts =>
    match t.label? with
    | none => freshLabels front labels ts
    | some l =>
      let (fresh, labels) := labels.fresh (front ++ "." ++ l)
      (t.id, fresh) :: freshLabels front labels ts

/-- A private copy of the body of a function for a host program, with the numbers from `next` on. Also
    gives the first number that it does not use. -/
def privateCopy (host : Stmt) (next : Nat) (f : Function) (b : Binding) (front : String) :
    Stmt × Nat :=
  let (copy, next) := f.body.copyFrom next
  let r := renamings host.usedNames f.params b.buffers copy
  let renamed := copy.rename r.scalars r.buffers
  let filled := b.values.foldl (fun t (param, value) => putValue t param value) renamed
  (filled.relabel (freshLabels front (NameSupply.mk host.labels) filled.nodes), next)

/-! ## Expansion -/

variable {α : Type} [Workpiece α]

open Workpiece (tree next bufferAt? graft)

/-- Expands a call inside the functions of `chain`, and the calls that it brings in. At most `depth`
    functions are not in the chain yet. Also gives the number of expanded calls. -/
def expand (r : Registry) : (depth : Nat) → (chain : List String) → α → Stmt → Outcome (α × Nat)
  | depth, chain, w, .call site callee args =>
    if chain.contains callee then .error (.recursive callee chain)
    else match depth, r.get? callee with
      | 0, _ | _, none => .error (.unregistered callee)
      | depth + 1, some f => do
        if args.length ≠ f.params.length then
          .error (.mismatch callee (.count args.length f.params.length))
        let host name := bufferAt? w name site.id
        let b ← bindArgs host callee f.body.written {} f.params args
        let (copy, next) := privateCopy (tree w) (next w) f b (site.label.getD callee)
        copy.calls.foldlM (fun (w, count) nested => do
          let (w, n) ← expand r depth (chain ++ [callee]) w nested
          return (w, count + n)) (graft w site.id copy next, 1)
  | _, _, _, t => .error (.notACall t.id t.kindName)

/-- Expands one call. -/
def expandCall (r : Registry) (w : α) (call : Stmt) : Outcome (α × Nat) :=
  expand r r.functions.length [] w call

/-- Expands all calls. Also gives how many calls were expanded. -/
def expandAll (r : Registry) (w : α) : Outcome (α × Nat) :=
  (tree w).calls.foldlM (fun (w, count) call => do
    let (w, n) ← expandCall r w call
    return (w, count + n)) (w, 0)

end LoopNest.Restructure

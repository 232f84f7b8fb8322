import LoopNest.Program.Walk

/-! # Matching programs

  Two programs match when they are equal up to a one-to-one renaming of the names they bind, the
  iterators of loops and the names of declared buffers. Names that are not bound must be equal.
  Labels and the nesting of blocks play no role, and a wildcard on either side matches any one
  statement.

  * `Pairing` holds the bound names that correspond at some place.
  * `Stmt.consume?` matches a statement with the beginning of a list of statements.
  * `Stmt.matches` matches two programs. -/

namespace LoopNest

/-- Which bound names of two programs correspond to each other; later bindings come first. -/
structure Pairing where
  forward : Expr.Renaming := []
  backward : Expr.Renaming := []
deriving Repr, Inhabited

namespace Pairing

/-- Binds `x` on the left and `y` on the right to each other. -/
def bind (p : Pairing) (x y : String) : Pairing := ⟨(x, y) :: p.forward, (y, x) :: p.backward⟩

/-- Whether two names correspond: both are bound to each other, or neither is bound and they are
    equal. -/
def names (p : Pairing) (x y : String) : Bool :=
  match p.forward.lookup x, p.backward.lookup y with
  | some y', some x' => y' == y && x' == x
  | none, none => x == y
  | _, _ => false

/-- Whether two lists of names correspond place by place. -/
def namesAll (p : Pairing) : List String → List String → Bool
  | [], [] => true
  | x :: xs, y :: ys => p.names x y && namesAll p xs ys
  | _, _ => false

mutual
/-- Whether two expressions correspond. Float constants must have the same bits. -/
def exprs (p : Pairing) : Expr → Expr → Bool
  | .int a, .int b => a == b
  | .float a, .float b => a.toBits == b.toBits
  | .bool a, .bool b => a == b
  | .var x, .var y => p.names x y
  | .load x is, .load y js => p.names x y && exprsAll p is js
  | .unary o a, .unary o' b => o == o' && exprs p a b
  | .binary o a b, .binary o' c d => o == o' && exprs p a c && exprs p b d
  | _, _ => false
/-- Whether two lists of expressions correspond place by place. -/
def exprsAll (p : Pairing) : List Expr → List Expr → Bool
  | [], [] => true
  | a :: as, b :: bs => exprs p a b && exprsAll p as bs
  | _, _ => false
end

/-- Whether two arguments correspond. -/
def args (p : Pairing) : List Arg → List Arg → Bool
  | [], [] => true
  | .buffer x :: xs, .buffer y :: ys => p.names x y && args p xs ys
  | .value a :: xs, .value b :: ys => p.exprs a b && args p xs ys
  | _, _ => false

/-- Whether two declared buffers correspond. -/
def buffers (p : Pairing) (a b : Buffer) : Bool :=
  a.elem == b.elem && a.access == b.access && a.space == b.space && p.exprsAll a.shape b.shape

/-- Whether two loop heads correspond, the iterators aside. -/
def heads (p : Pairing) (a b : LoopHead) : Bool :=
  a.mode == b.mode && p.namesAll a.noDeps b.noDeps && p.exprs a.lower b.lower
    && p.exprs a.upper b.upper

end Pairing

namespace Stmt

mutual
/-- The statements of nested blocks in the order in which they run. -/
def flatten : Stmt → List Stmt
  | .block _ stmts => flattenAll stmts
  | t => [t]
/-- The statements of a list without blocks around them. -/
def flattenAll : List Stmt → List Stmt
  | [] => []
  | t :: ts => flatten t ++ flattenAll ts
end

def isHole : Stmt → Bool
  | .hole _ => true
  | _ => false

mutual
/-- Matches a statement with the first statements of a list that holds no blocks; gives the
    statements left over. -/
def consume? (p : Pairing) : Stmt → List Stmt → Option (List Stmt)
  | .block _ stmts, us => consumeAll? p stmts us
  | .hole _, us =>
    match us with
    | _ :: rest => some rest
    | [] => none
  | .decl _ n b body, us =>
    match us with
    | .hole _ :: rest => some rest
    | .decl _ n' b' body' :: rest =>
      if p.buffers b b' && (body.isHole || body'.isHole
          || (consume? (p.bind n n') body body'.flatten).any List.isEmpty) then some rest
      else none
    | _ => none
  | .loop _ h body, us =>
    match us with
    | .hole _ :: rest => some rest
    | .loop _ h' body' :: rest =>
      if p.heads h h' && (body.isHole || body'.isHole
          || (consume? (p.bind h.iter h'.iter) body body'.flatten).any List.isEmpty) then some rest
      else none
    | _ => none
  | .guard _ c body, us =>
    match us with
    | .hole _ :: rest => some rest
    | .guard _ c' body' :: rest =>
      if p.exprs c c' && (body.isHole || body'.isHole
          || (consume? p body body'.flatten).any List.isEmpty) then some rest
      else none
    | _ => none
  | .branch _ c yes no, us =>
    match us with
    | .hole _ :: rest => some rest
    | .branch _ c' yes' no' :: rest =>
      if p.exprs c c'
          && (yes.isHole || yes'.isHole || (consume? p yes yes'.flatten).any List.isEmpty)
          && (no.isHole || no'.isHole || (consume? p no no'.flatten).any List.isEmpty) then some rest
      else none
    | _ => none
  | .store _ b is v, us =>
    match us with
    | .hole _ :: rest => some rest
    | .store _ b' is' v' :: rest =>
      if p.names b b' && p.exprsAll is is' && p.exprs v v' then some rest else none
    | _ => none
  | .call _ f args, us =>
    match us with
    | .hole _ :: rest => some rest
    | .call _ f' args' :: rest => if f == f' && p.args args args' then some rest else none
    | _ => none
/-- Matches statements one after the other. -/
def consumeAll? (p : Pairing) : List Stmt → List Stmt → Option (List Stmt)
  | [], us => some us
  | t :: ts, us =>
    match consume? p t us with
    | some rest => consumeAll? p ts rest
    | none => none
end

/-- Whether two statements match under a pairing of the bound names around them. -/
def matchesUnder (p : Pairing) (t u : Stmt) : Bool :=
  t.isHole || u.isHole || (t.consume? p u.flatten).any List.isEmpty

/-- Whether two programs match. -/
def matchesProgram (t u : Stmt) : Bool := t.matchesUnder {} u

end Stmt

end LoopNest

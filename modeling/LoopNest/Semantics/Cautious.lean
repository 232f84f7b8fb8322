import LoopNest.Semantics.Calls

/-! # Cautious runs

  A cautious run has an answer only if the program reads no element of a declared buffer before it has
  written it, where every declaration counts as a buffer of its own each time it is entered.

  * When a declaration is entered its buffer holds nothing, whatever the name meant before.
  * When a local declaration is left the name means again what it meant before.
  * When a visible declaration is left the buffer may hold what was written inside, so nothing may be
    read of it any more before it is written again. -/

namespace LoopNest

namespace Stmt

mutual
/-- What a program leaves when it reads of declared buffers only what it has written. -/
def cautious (env : Env) : Stmt → Transition Memory
  | .decl _ n b body => fun m => do
    let after ← cautious env body (m.exchange n (Memory.blank n))
    return after.exchange n (if b.access = .cache then m n else Memory.blank n)
  | .loop _ h body => fun m => do
    let lower ← h.lower.value? env m
    let upper ← h.upper.value? env m
    (counting lower upper).foldlM (fun m v => cautious (env.set h.iter v) body m) m
  | .guard _ c body => fun m => do
    if (← c.value? env m) = 0 then some m else cautious env body m
  | .branch _ c yes no => fun m => do
    if (← c.value? env m) = 0 then cautious env no m else cautious env yes m
  | .store _ b is v => fun m => do
    let indices ← Expr.values? env m is
    let value ← v.value? env m
    return m.put b indices value
  | .block _ stmts => cautiousAll env stmts
  | .call .. | .hole _ => fun _ => none
/-- What statements leave one after the other. -/
def cautiousAll (env : Env) : List Stmt → Transition Memory
  | [] => some
  | t :: ts => fun m => (cautious env t m).bind (cautiousAll env ts)
end

end Stmt

end LoopNest

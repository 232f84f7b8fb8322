import LoopNest.Proofs.LoweredLoops
import LoopNest.Schedule.Basic

/-! # Requests that are refused

  A transformation refuses a request for what the program or the request is like. Whether labels are
  different is left to the commit, so no transformation ever refuses a request because a label occurs
  twice (`Cause.IsNoRepetition`).

  * **Steps**: what fails step by step fails as its steps do (`FailsWith`).
  * **Commands**: `Command.perform_fails` covers all commands of a schedule.
  * **Lowering**: `Lower.lowerReductions_fails`. -/

namespace LoopNest

/-! ## Steps -/

/-- A cause other than a label that occurs twice. -/
def Cause.IsNoRepetition : Cause → Prop
  | .duplicateLabel _ => False
  | _ => True

theorem FailsWith.error {ε α : Type} {P : ε → Prop} {c : ε} (h : P c) :
    FailsWith P (.error c : Except ε α) := by
  intro c' hEq
  cases hEq
  exact h

theorem FailsWith.map {ε α β : Type} {P : ε → Prop} {o : Except ε α} (h : FailsWith P o) (f : α → β) :
    FailsWith P (f <$> o) := by
  cases o with
  | error c => exact .error (h c rfl)
  | ok a => exact .ok (f a)

/-- A fold fails as its steps do. -/
theorem FailsWith.foldlM_of_mem {ε α β : Type} {P : ε → Prop} {f : β → α → Except ε β} :
    ∀ {xs : List α}, (∀ a ∈ xs, ∀ b, FailsWith P (f b a)) → ∀ b, FailsWith P (xs.foldlM f b) := by
  intro xs
  induction xs with
  | nil => exact fun _ b => .ok b
  | cons x xs ih =>
    intro hf b
    rw [List.foldlM_cons]
    exact (hf x List.mem_cons_self b).bind fun b' _ =>
      ih (fun a ha => hf a (List.mem_cons_of_mem x ha)) b'

theorem FailsWith.foldlM {ε α β : Type} {P : ε → Prop} {f : β → α → Except ε β}
    (hf : ∀ b a, FailsWith P (f b a)) (xs : List α) (b : β) : FailsWith P (xs.foldlM f b) :=
  .foldlM_of_mem (fun a _ b => hf b a) b

/-! ## Transformations -/

namespace Restructure

open Stmt (LabelledLoop)
open Cause (IsNoRepetition)

theorem loopAt_fails (t : Stmt) (label : String) : FailsWith IsNoRepetition (t.loopAt label) := by
  unfold Stmt.loopAt
  split
  · exact .ok _
  · exact .error trivial
  · exact .error trivial

theorem namedLoops_fails (t : Stmt) : ∀ (labels : List String) (found : List LabelledLoop),
    FailsWith IsNoRepetition (namedLoops t found labels) := by
  intro labels
  induction labels with
  | nil => exact fun found => .ok found
  | cons label labels ih =>
    intro found
    rw [namedLoops]
    refine (loopAt_fails t label).bind fun l _ => ?_
    split
    · exact .error trivial
    · exact ih _

theorem checkCondition_fails (writes : List String) (h : LoopHead) (e : Expr) :
    FailsWith IsNoRepetition (checkCondition writes h e) := by
  unfold checkCondition
  split
  · exact .error trivial
  · split
    · exact .error trivial
    · exact .ok _

theorem gather_fails (writes : List String) (inner : LabelledLoop) :
    ∀ (t : Stmt) (b : Between), FailsWith IsNoRepetition (gather writes inner b t) := by
  have hOther : ∀ (t : Stmt) (b : Between), FailsWith IsNoRepetition
      (if t.id = inner.site.id then .ok b
        else if !b.before.isEmpty || !b.after.isEmpty then .error .besideBranch
        else .error (.between t.kindName) : Outcome Between) := by
    intro t b
    split
    · exact .ok _
    · split <;> exact .error trivial
  refine Stmt.ind ?decl ?loop ?guard ?branch ?store ?call ?block ?hole
  case guard =>
    intro s e body ih b
    rw [gather]
    split
    · exact .error trivial
    · exact (checkCondition_fails writes inner.head e).bind fun _ _ => ih _
  case block =>
    intro s ts ih b
    rw [gather]
    induction ts generalizing b with
    | nil => exact .error trivial
    | cons t ts ihList =>
      rw [gatherAll]
      split
      · exact ih t List.mem_cons_self _
      · exact ihList (fun u hu => ih u (List.mem_cons_of_mem t hu)) _
  case decl => exact fun s n buffer body _ b => by simpa only [gather] using hOther _ b
  case loop => exact fun s head body _ b => by simpa only [gather] using hOther _ b
  case branch => exact fun s e yes no _ _ b => by simpa only [gather] using hOther _ b
  case store => exact fun s buffer is v b => by simpa only [gather] using hOther _ b
  case call => exact fun s f args b => by simpa only [gather] using hOther _ b
  case hole => exact fun s b => by simpa only [gather] using hOther _ b

theorem check_fails (b : Between) (inner : LoopHead) : FailsWith IsNoRepetition (b.check inner) := by
  have hMovable : ∀ w : Stmt, FailsWith IsNoRepetition (movable inner.iter w) := by
    intro w
    refine FailsWith.forM fun u => ?_
    split
    · exact .error trivial
    · exact .error trivial
    · exact .error trivial
    · split
      · exact .error trivial
      · exact .ok _
  unfold Between.check
  split
  · exact .ok _
  · refine (FailsWith.forM hMovable).bind fun _ _ => ?_
    split
    · split
      · exact .error trivial
      · exact .ok _
    · exact .error trivial

theorem perfect_fails (writes : List String) :
    ∀ (rest : List LabelledLoop) (next : Nat) (outer : LabelledLoop),
      FailsWith IsNoRepetition (perfect writes next outer rest) := by
  intro rest
  induction rest with
  | nil => exact fun next outer => .ok _
  | cons inner rest ih =>
    intro next outer
    rw [perfect]
    refine (gather_fails writes inner outer.body _).bind fun b _ => ?_
    refine (check_fails b inner.head).bind fun _ _ => ?_
    exact (ih (b.innerBody inner next).2 { inner with body := (b.innerBody inner next).1 }).bind
      fun _ _ => .ok _

theorem reorder_fails (k : Nat) (t : Stmt) (labels : List String) :
    FailsWith IsNoRepetition (reorder k t labels) := by
  have hBounds : ∀ (writes iters : List String) (l : LabelledLoop),
      FailsWith IsNoRepetition (checkBounds writes iters l) := by
    intro writes iters l
    refine FailsWith.forM fun bound => ?_
    split
    · exact .error trivial
    · split
      · exact .error trivial
      · exact .ok _
  unfold reorder
  split
  · exact .error trivial
  · refine (namedLoops_fails t labels []).bind fun named _ => ?_
    dsimp only
    split
    · exact .error trivial
    · split
      · exact .ok _
      · split
        · exact .ok _
        · refine (FailsWith.forM (hBounds _ _)).bind fun _ _ => ?_
          refine (perfect_fails _ _ _ _).bind fun nest _ => ?_
          split
          · exact .error trivial
          · exact .ok _

theorem split_fails (t : Stmt) (label : String) (factor nparts : Option Expr) :
    FailsWith IsNoRepetition (split t label factor nparts) := by
  refine (loopAt_fails t label).bind fun l _ => ?_
  refine FailsWith.bind ?_ fun s _ => FailsWith.bind ?_ fun s _ => .ok _
  · unfold SplitBy.ofArgs
    split
    · exact .ok _
    · exact .ok _
    · exact .error trivial
  · unfold SplitBy.reduced
    split
    · split
      · exact .error trivial
      · exact .ok _
    · exact .ok _

theorem parallelize_fails (k : Nat) (t : Stmt) (label tag : String) :
    FailsWith IsNoRepetition (parallelize k t label tag) := by
  unfold parallelize
  split
  · exact .error trivial
  · refine (loopAt_fails t label).bind fun l _ => ?_
    split
    · exact .error trivial
    · exact .ok _

theorem fission_fails (k : Nat) (t : Stmt) (label after : String) :
    FailsWith IsNoRepetition (fission k t label after) := by
  refine (loopAt_fails t label).bind fun l _ => FailsWith.bind ?_ fun parts _ => ?_
  · unfold fissionParts
    dsimp only
    split
    · refine FailsWith.bind (.ok _) fun stop _ => ?_
      split
      · split
        · exact .error trivial
        · exact .error trivial
        · exact .ok _
      · exact .error trivial
    · exact .error trivial
  · dsimp only
    split
    · exact .error trivial
    · split
      · exact .error trivial
      · exact .ok _

theorem varReorder_fails (t : Stmt) (label : String) (order : List Nat) :
    FailsWith IsNoRepetition (varReorder t label order) := by
  unfold varReorder
  split
  · exact .error trivial
  · split
    · exact .error trivial
    · split
      · exact .error trivial
      · split
        · exact .error trivial
        · exact .ok _
  · exact .error trivial

/-- Arguments are only refused for a mismatch. -/
theorem bindArgs_fails {P : Cause → Prop} (host : String → Option Buffer) (f : String)
    (writes : List String) (hP : ∀ m, P (.mismatch f m)) :
    ∀ (params : List Param) (args : List Arg) (b : Binding),
      FailsWith P (bindArgs host f writes b params args) := by
  intro params
  induction params with
  | nil => exact fun args b => .ok _
  | cons p params ih =>
    intro args b
    cases args with
    | nil => exact .ok _
    | cons arg args =>
      cases arg with
      | buffer name =>
        rw [bindArgs]
        split
        · exact .error (hP _)
        · exact ih args _
      | value e =>
        rw [bindArgs]
        split
        · exact ih args _
        · exact .error (hP _)

theorem expand_fails {α : Type} [Workpiece α] (r : Registry) :
    ∀ (depth : Nat) (chain : List String) (w : α) (call : Stmt),
      FailsWith IsNoRepetition (expand r depth chain w call) := by
  intro depth
  induction depth with
  | zero =>
    intro chain w call
    unfold expand
    split
    · split
      · exact .error trivial
      · exact .error trivial
    · exact .error trivial
  | succ depth ih =>
    intro chain w call
    unfold expand
    split
    · split
      · exact .error trivial
      · split
        · exact .error trivial
        · exact .error trivial
        · rename_i hDepth _
          cases hDepth
          dsimp only
          split
          · exact .error trivial
          · refine (bindArgs_fails _ _ _ (fun _ => trivial) _ _ _).bind fun b _ => ?_
            exact FailsWith.foldlM (fun (p : α × Nat) nested => (ih _ p.1 nested).bind fun _ _ => .ok _) _ _
    · exact .error trivial

theorem expandAll_fails {α : Type} [Workpiece α] (r : Registry) (w : α) :
    FailsWith IsNoRepetition (expandAll r w) :=
  FailsWith.foldlM (fun (p : α × Nat) call => (expand_fails r _ [] p.1 call).bind fun _ _ => .ok _) _ _

end Restructure

/-- **Commands**: no command is refused because a label occurs twice. -/
theorem Command.perform_fails (registry : Registry) (k : Nat) (t : Stmt) (c : Command) :
    FailsWith Cause.IsNoRepetition (c.perform registry k t) := by
  cases c with
  | reorder order => exact (Restructure.reorder_fails k t order).map _
  | split l factor nparts => exact (Restructure.split_fails t l factor nparts).map _
  | parallelize l tag => exact (Restructure.parallelize_fails k t l tag).map _
  | fission l after => exact (Restructure.fission_fails k t l after).map _
  | varReorder l order => exact (Restructure.varReorder_fails t l order).map _
  | inline => exact (Restructure.expandAll_fails registry (Restructure.Draft.of t)).map _

/-! ## Lowering -/

namespace Lower

open Restructure (Workpiece)
open Cause (IsNoRepetition)

theorem checkTag_fails (target : Target) (t : Stmt) : FailsWith IsNoRepetition (checkTag target t) := by
  unfold checkTag
  split
  · exact .ok _
  · split
    · exact .ok _
    · split
      · exact .ok _
      · exact .error trivial

variable {α : Type} [Workpiece α]

theorem moveReductions_fails (space : MemSpace) (id : Nat) :
    ∀ (reductions : List (String × ReduceOp)) (seen : List String) (k : Nat) (s : State α),
      FailsWith IsNoRepetition (moveReductions space id seen k s reductions) := by
  have hJob : ∀ (host : Option Buffer) (l : Stmt.LabelledLoop) (b : String) (op : ReduceOp),
      FailsWith IsNoRepetition (Job.of host l b op) := by
    intro host l b op
    unfold Job.of
    split
    · exact .error trivial
    · split
      · exact .error trivial
      · split
        · exact .error trivial
        · exact .ok _
  intro reductions
  induction reductions with
  | nil => exact fun seen k s => .ok s
  | cons r reductions ih =>
    intro seen k s
    obtain ⟨b, op⟩ := r
    rw [moveReductions]
    split
    · exact ih seen k s
    · split
      · exact .ok s
      · exact (hJob _ _ _ _).bind fun j _ => ih _ _ _

/-- No workspace is refused because a label occurs twice. -/
theorem lowerReductions_fails (target : Target) (move : Bool) (w : α) :
    FailsWith IsNoRepetition (lowerReductions target move w) := by
  have hLoop : ∀ (s : State α) (id : Nat), FailsWith IsNoRepetition (lowerLoop target move s id) := by
    intro s id
    unfold lowerLoop
    split
    · exact .ok s
    · split
      · exact .error trivial
      · split
        · exact moveReductions_fails target.space id _ [] 0 s
        · exact .ok s
  exact (FailsWith.foldlM hLoop _ _).bind fun _ _ => .ok _

end Lower

end LoopNest

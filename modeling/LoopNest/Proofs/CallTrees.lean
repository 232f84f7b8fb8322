import LoopNest.Program.CallGraph
import LoopNest.Proofs.ExpandedCalls
import LoopNest.Proofs.RefusedRequests

/-! # Call trees

  Calls are expanded inside the functions of a chain, and a call of a function of the chain is refused.
  So expanding ends for any functions, and it refuses as recursive exactly what is recursive, as far as
  nothing else is wrong (`Restructure.expandAll_unfolds`).

  * **Graphs**: calls that unfold to a tree do not lead to a cycle (`Registry.Unfolds.not_looping`), and
    the tree has one size (`Registry.Unfolds.unique`).
  * **Depth**: a chain has no function twice, so that as many levels as there are functions are enough
    (`Restructure.expand_succ`).
  * **Expansions**: what expands unfolds, and as many calls are counted as the tree has
    (`Restructure.unfolds_of_expand`). What is refused as recursive leads to a cycle
    (`Restructure.looping_of_expand`). -/

namespace LoopNest

open Relation (ReflTransGen TransGen)

/-! ## Called functions -/

namespace Stmt

theorem callees_eq_append (t : Stmt) :
    t.callees = t.callee?.toList ++ t.children.flatMap callees := filterMap_nodes _ t

theorem callees_eq_calls (t : Stmt) : t.callees = t.calls.filterMap callee? := by
  rw [callees, calls, List.filterMap_filter]
  refine List.filterMap_congr fun u _ => ?_
  cases u <;> rfl

/-- A translation calls the same functions. -/
theorem CopyOf.callees_eq {ι β : String → String} {φ : Expr → Expr} {known : List String}
    {t t' : Stmt} (h : CopyOf (.along ι β φ) known t t') : t'.callees = t.callees := by
  induction h with
  | decl _ _ _ ih | loop _ _ _ _ ih | guard _ _ ih =>
    rw [callees_eq_append, callees_eq_append (t := _)]
    simpa [children, callee?] using ih
  | branch _ _ _ ihYes ihNo =>
    rw [callees_eq_append, callees_eq_append (t := _)]
    simp [children, callee?, ihYes, ihNo]
  | store | call | nil | hole => rfl
  | cons _ _ ihHead ihTail =>
    rw [callees_eq_append, callees_eq_append (t := _)] at ihTail ⊢
    simp_all [children, callee?]
  | given pair => exact pair.elim

end Stmt

/-! ## Graphs and trees -/

namespace Registry

variable {r : Registry} {f g : String} {fs gs : List String} {m n : Nat}

theorem Calls.looping (h : r.Calls f g) (hLooping : r.Looping g) : r.Looping f := by
  obtain ⟨k, hReach, hCycle⟩ := hLooping
  exact ⟨k, .head h hReach, hCycle⟩

theorem Unfolds.append (h : r.Unfolds fs m) (h' : r.Unfolds gs n) : r.Unfolds (fs ++ gs) (m + n) := by
  induction h with
  | nil => simpa using h'
  | @cons f F fs inside after hFunction hBelow _ _ ihRest =>
    have hSum : 1 + inside + after + n = 1 + inside + (after + n) := by omega
    rw [hSum]
    exact .cons hFunction hBelow ihRest

/-- **One size**: calls unfold to a tree of one size. -/
theorem Unfolds.unique (h : r.Unfolds fs m) (h' : r.Unfolds fs n) : m = n := by
  induction h generalizing n with
  | nil =>
    cases h'
    rfl
  | cons hFunction _ _ ihBelow ihRest =>
    cases h' with
    | cons hFunction' hBelow' hRest' =>
      obtain rfl := Option.some.inj (hFunction.symm.trans hFunction')
      rw [ihBelow hBelow', ihRest hRest']

/-- **No cycle**: calls that unfold do not lead to a cycle. -/
theorem Unfolds.not_looping (h : r.Unfolds fs n) : ∀ f ∈ fs, ¬ r.Looping f := by
  induction h with
  | nil => exact fun f hf => absurd hf List.not_mem_nil
  | @cons f F fs inside after hFunction _ _ ihBelow ihRest =>
    intro g hg
    by_cases hHead : g ∈ fs
    · exact ihRest g hHead
    obtain rfl : g = f := (List.mem_cons.mp hg).resolve_right hHead
    have hBody : ∀ {c}, r.Calls g c → c ∈ F.body.callees := by
      intro c hCall
      obtain ⟨F', hFunction', hc⟩ := hCall
      rwa [Option.some.inj (hFunction.symm.trans hFunction')]
    -- a call in the body leads to the cycle as well, also where the cycle begins here
    intro hLooping
    obtain ⟨k, hReach, hCycle⟩ := hLooping
    obtain hHere | ⟨c, hCall, hRest⟩ := ReflTransGen.cases_head hReach
    · obtain ⟨c, hCall, hBack⟩ := TransGen.head'_iff.mp hCycle
      exact ihBelow c (hBody (hHere ▸ hCall)) ⟨k, hBack, hCycle⟩
    · exact ihBelow c (hBody hCall) ⟨k, hRest, hCycle⟩

/-- A registered name belongs to a function. -/
theorem mem_names_of_get? {F : Function} (h : r.get? f = some F) :
    f ∈ r.functions.map Function.name := by
  have hName := List.find?_some h
  exact List.mem_map.mpr ⟨F, List.mem_of_find?_eq_some h, by simpa using hName⟩

end Registry

namespace Restructure

variable {α : Type} [Workpiece α] {r : Registry}

/-! ## Depth -/

/-- A chain with as many functions as are registered has them all. -/
theorem mem_of_full_chain {chain : List String} (hNodup : chain.Nodup)
    (hRegistered : chain ⊆ r.functions.map Function.name) (hFull : r.functions.length ≤ chain.length)
    {f : String} {F : Function} (h : r.get? f = some F) : f ∈ chain := by
  have hPerm : chain.Perm (r.functions.map Function.name) :=
    (hNodup.subperm hRegistered).perm_of_length_le (by simpa using hFull)
  exact hPerm.mem_iff.mpr (Registry.mem_names_of_get? h)

section call

variable {depth : Nat} {chain : List String} {site : Site} {callee : String} {args : List Arg}
  {f : Function}

theorem expand_of_mem (hChain : callee ∈ chain) (w : α) :
    expand r depth chain w (.call site callee args) = .error (.recursive callee chain) := by
  unfold expand
  exact if_pos (List.contains_iff_mem.mpr hChain)

theorem expand_of_none (hChain : callee ∉ chain) (hFunction : r.get? callee = none) (w : α) :
    expand r depth chain w (.call site callee args) = .error (.unregistered callee) := by
  unfold expand
  rw [if_neg (by simpa using hChain), hFunction]
  cases depth <;> rfl

theorem expand_of_ne (hChain : callee ∉ chain) (hFunction : r.get? callee = some f)
    (hCount : args.length ≠ f.params.length) (w : α) :
    expand r (depth + 1) chain w (.call site callee args)
      = .error (.mismatch callee (.count args.length f.params.length)) := by
  unfold expand
  rw [if_neg (by simpa using hChain), hFunction]
  exact if_pos hCount

/-- A call that fits is replaced by a private copy of the function, whose calls are expanded. -/
theorem expand_of_eq (hChain : callee ∉ chain) (hFunction : r.get? callee = some f)
    (hCount : args.length = f.params.length) (w : α) :
    expand r (depth + 1) chain w (.call site callee args)
      = bindArgs (fun name => Workpiece.bufferAt? w name site.id) callee f.body.written {} f.params args
        >>= fun b =>
          let copy := privateCopy (Workpiece.tree w) (Workpiece.next w) f b (site.label.getD callee)
          copy.1.calls.foldlM (fun p nested => do
            let q ← expand r depth (chain ++ [callee]) p.1 nested
            return (q.1, p.2 + q.2)) (Workpiece.graft w site.id copy.1 copy.2, 1) := by
  conv_lhs => unfold expand
  rw [if_neg (by simpa using hChain), hFunction]
  exact if_neg (not_not.mpr hCount)

end call

/-- **Enough levels**: with a level for every function outside the chain, one more makes no
    difference. -/
theorem expand_succ : ∀ {depth : Nat} {chain : List String}, chain.Nodup →
    chain ⊆ r.functions.map Function.name → r.functions.length ≤ depth + chain.length →
    ∀ (w : α) (call : Stmt), expand r (depth + 1) chain w call = expand r depth chain w call := by
  intro depth
  induction depth with
  | zero =>
    intro chain hNodup hRegistered hLevels w call
    cases call with
    | call site callee args =>
      by_cases hChain : callee ∈ chain
      · rw [expand_of_mem hChain, expand_of_mem hChain]
      · -- no function is left outside the chain
        have hNone : r.get? callee = none := by
          rw [Option.eq_none_iff_forall_ne_some]
          exact fun F hF => hChain (mem_of_full_chain hNodup hRegistered (by omega) hF)
        rw [expand_of_none hChain hNone, expand_of_none hChain hNone]
    | _ => rfl
  | succ depth ih =>
    intro chain hNodup hRegistered hLevels w call
    cases call with
    | call site callee args =>
      by_cases hChain : callee ∈ chain
      · rw [expand_of_mem hChain, expand_of_mem hChain]
      · cases hFunction : r.get? callee with
        | none => rw [expand_of_none hChain hFunction, expand_of_none hChain hFunction]
        | some F =>
          by_cases hCount : args.length = F.params.length
          case neg => rw [expand_of_ne hChain hFunction hCount, expand_of_ne hChain hFunction hCount]
          have hNodup' : (chain ++ [callee]).Nodup :=
            List.concat_eq_append ▸ hNodup.concat hChain
          have hRegistered' : chain ++ [callee] ⊆ r.functions.map Function.name :=
            List.append_subset.mpr
              ⟨hRegistered, by simpa using Registry.mem_names_of_get? hFunction⟩
          have hLevels' : r.functions.length ≤ depth + (chain ++ [callee]).length := by
            rw [List.length_append, List.length_singleton]
            omega
          have hNested := ih hNodup' hRegistered' hLevels'
          simp only [expand_of_eq hChain hFunction hCount, hNested]
    | _ => rfl

/-- Any number of levels that is not too small gives the same. -/
theorem expand_of_length_le {depth : Nat} (h : r.functions.length ≤ depth) (w : α) (call : Stmt) :
    expand r depth [] w call = expandCall r w call := by
  induction depth, h using Nat.le_induction with
  | base => rfl
  | succ depth hDepth ih =>
    rw [expand_succ List.nodup_nil (List.nil_subset _) (by simpa using hDepth), ih]

/-! ## Expansions -/

/-- A private copy calls what the function calls. -/
theorem callees_privateCopy {f : Function} {args : List Arg} {b : Binding}
    {buffer? : String → Option Buffer} {callee : String} (hCount : args.length = f.params.length)
    (hFit : bindArgs buffer? callee f.body.written {} f.params args = .ok b) (host : Stmt)
    (next : Nat) (front : String) : (privateCopy host next f b front).1.callees = f.body.callees := by
  have hValues : ∀ x ∈ b.values.map Prod.fst, x ∈ f.params.map Param.name := by
    rw [(bindArgs_spec hCount hFit).2.1, List.nil_append]
    exact fun x hx => mem_params_of_passed hx
  have hCopy : privateCopy host next f b front = (_, _) := rfl
  obtain ⟨names, -, hTranslated, -⟩ := translated_privateCopy hCopy hValues
  exact (hTranslated []).callees_eq

/-- What is counted for the calls of a list is what is counted for each. -/
theorem unfolds_of_foldlM {β : Type} (step : β → Stmt → Outcome (β × Nat))
    (hStep : ∀ {w call q}, step w call = .ok q → r.Unfolds call.callee?.toList q.2) :
    ∀ {calls : List Stmt} {p q : β × Nat},
      calls.foldlM (fun p call => do
        let q ← step p.1 call
        return (q.1, p.2 + q.2)) p = .ok q →
      ∃ n, q.2 = p.2 + n ∧ r.Unfolds (calls.filterMap Stmt.callee?) n := by
  intro calls
  induction calls with
  | nil =>
    intro p q hFold
    cases hFold
    exact ⟨0, rfl, .nil⟩
  | cons call calls ih =>
    intro p q hFold
    rw [List.foldlM_cons] at hFold
    obtain ⟨between, hFirst, hRest⟩ := Outcome.bind_eq_ok.mp hFold
    obtain ⟨after, hCall, hBetween⟩ := Outcome.bind_eq_ok.mp hFirst
    cases hBetween
    obtain ⟨n, hCount, hUnfolds⟩ := ih hRest
    refine ⟨after.2 + n, by dsimp only at hCount; omega, ?_⟩
    have hBoth := (hStep hCall).append hUnfolds
    rw [List.filterMap_cons]
    cases hCallee : call.callee? <;> simpa [hCallee] using hBoth

/-- **What expands unfolds**, and its calls are counted. -/
theorem unfolds_of_expand : ∀ {depth : Nat} {chain : List String} {w : α} {call : Stmt}
    {q : α × Nat}, expand r depth chain w call = .ok q → r.Unfolds call.callee?.toList q.2 := by
  intro depth
  induction depth with
  | zero =>
    intro chain w call q h
    obtain ⟨_, _, _, _, _, _, _, hDepth, _⟩ := expand_cases h
    cases hDepth
  | succ depth ih =>
    intro chain w call q h
    obtain ⟨site, callee, args, depth', f, b, rfl, hDepth, -, hFunction, hCount, hFit, hRest⟩ :=
      expand_cases h
    cases hDepth
    obtain ⟨n, hTotal, hUnfolds⟩ := unfolds_of_foldlM (expand r depth (chain ++ [callee]))
      (fun hCall => ih hCall) hRest
    rw [← Stmt.callees_eq_calls, callees_privateCopy hCount hFit] at hUnfolds
    rw [hTotal]
    exact .cons hFunction hUnfolds .nil

/-- **What is refused as recursive** leads to a cycle, if every function of the chain leads to the
    call. -/
theorem looping_of_expand : ∀ {depth : Nat} {chain : List String} {w : α} {site : Site}
    {callee : String} {args : List Arg}, (∀ f ∈ chain, TransGen r.Calls f callee) →
    FailsWith (fun c => ∀ f fs, c = .recursive f fs → r.Looping callee)
      (expand r depth chain w (.call site callee args)) := by
  intro depth
  induction depth with
  | zero =>
    intro chain w site callee args hChain
    by_cases hMem : callee ∈ chain
    · exact fun _ _ _ _ _ => ⟨callee, .refl, hChain callee hMem⟩
    · rw [expand, if_neg (by simpa using hMem)]
      exact .error fun _ _ hEq => by cases hEq
  | succ depth ih =>
    intro chain w site callee args hChain
    by_cases hMem : callee ∈ chain
    · exact fun _ _ _ _ _ => ⟨callee, .refl, hChain callee hMem⟩
    cases hFunction : r.get? callee with
    | none =>
      rw [expand_of_none hMem hFunction]
      exact .error fun _ _ hEq => by cases hEq
    | some f =>
      by_cases hCount : args.length = f.params.length
      · rw [expand_of_eq hMem hFunction hCount]
        refine (bindArgs_fails _ _ _ (fun _ _ _ hEq => by cases hEq) _ _ _).bind fun b hFit => ?_
        refine FailsWith.foldlM_of_mem (fun nested hNested p => ?_) _
        obtain ⟨hBelow, hCall⟩ := mem_calls.mp hNested
        cases nested with
        | call site' callee' args' =>
          -- the chain grows by the function whose body has the nested call
          have hCalls : r.Calls callee callee' := by
            refine ⟨f, hFunction, ?_⟩
            rw [← callees_privateCopy hCount hFit]
            exact List.mem_filterMap.mpr ⟨_, hBelow, rfl⟩
          have hLonger : ∀ g ∈ chain ++ [callee], TransGen r.Calls g callee' := by
            intro g hg
            obtain hg | hg := List.mem_append.mp hg
            · exact (hChain g hg).tail hCalls
            · exact List.mem_singleton.mp hg ▸ .single hCalls
          refine FailsWith.bind (fun c hc g fs hEq => ?_) fun _ _ => .ok _
          exact hCalls.looping (ih hLonger c hc g fs hEq)
        | _ => cases hCall
      · rw [expand_of_ne hMem hFunction hCount]
        exact .error fun _ _ hEq => by cases hEq

/-- **Expanding all calls**: take any program and any functions, however they call each other.

    * It ends: the levels that are allowed never run out, more of them give the same.
    * When it succeeds no call is left, and as many calls were expanded as the calls of the program
      unfold to.
    * When it is refused as recursive, the calls of the program lead to a cycle, and when they do, it
      does not succeed. -/
theorem expandAll_unfolds (r : Registry) (t : Stmt) :
    (∀ (d : Draft) (call : Stmt) (depth : Nat), r.functions.length ≤ depth →
        expand r depth [] d call = expandCall r d call)
      ∧ (∀ d n, expandAll r (Draft.of t.number) = .ok (d, n) →
        (∀ u ∈ d.tree.nodes, u.isCall = false) ∧ ∀ m, r.Unfolds t.number.callees m ↔ m = n)
      ∧ (∀ f chain, expandAll r (Draft.of t.number) = .error (.recursive f chain) →
        r.Recursive t.number)
      ∧ (r.Recursive t.number → ∀ p, expandAll r (Draft.of t.number) ≠ .ok p) := by
  have hUnfolds : ∀ {p : Draft × Nat}, expandAll r (Draft.of t.number) = .ok p →
      r.Unfolds t.number.callees p.2 := by
    intro p h
    obtain ⟨n, hTotal, hUnfolds⟩ := unfolds_of_foldlM (expandCall r)
      (fun hCall => unfolds_of_expand hCall) h
    rw [Stmt.callees_eq_calls, hTotal, Nat.zero_add]
    exact hUnfolds
  refine ⟨fun d call depth hDepth => expand_of_length_le hDepth d call, fun d n h => ⟨?_, fun m => ?_⟩,
    fun f chain h => ?_, fun hRecursive p h => ?_⟩
  · obtain ⟨log, hExpands, -⟩ := exists_expands h
    exact (hExpands.pending (pending_number t)).no_call
  · constructor
    · exact fun hSize => hSize.unique (hUnfolds h)
    · exact fun hSize => hSize ▸ hUnfolds h
  · have hFails : FailsWith (fun c => ∀ f fs, c = .recursive f fs → r.Recursive t.number)
        (expandAll r (Draft.of t.number)) := by
      refine FailsWith.foldlM_of_mem (fun call hMem p => ?_) _
      refine FailsWith.bind (fun c hc f fs hEq => ?_) fun _ _ => .ok _
      obtain ⟨hNode, hCall⟩ := mem_calls.mp hMem
      cases call with
      | call site callee args =>
        exact ⟨callee, List.mem_filterMap.mpr ⟨_, hNode, rfl⟩,
          looping_of_expand (fun g hg => absurd hg List.not_mem_nil) c hc f fs hEq⟩
      | _ => cases hCall
    exact hFails _ h f chain rfl
  · obtain ⟨f, hf, hLooping⟩ := hRecursive
    exact (hUnfolds h).not_looping f hf hLooping

/-- A function that only calls another one. -/
def relay (name next : String) : Function where
  name
  params := []
  body := .call ⟨0, none⟩ next []

/-- The two multiplications of `scalingTwice` are expanded each on its own, three calls in all. Functions
    that call each other in a circle are refused, also when they are called from outside of it. -/
theorem scaling_unfolds :
    (∃ d, expandAll ⟨[scaling, scalingTwice]⟩ (Draft.of scalingHost.number) = .ok (d, 3)
        ∧ Registry.Unfolds ⟨[scaling, scalingTwice]⟩ scalingHost.number.callees 3)
      ∧ Registry.Recursive ⟨[relay "f" "g", relay "g" "h", relay "h" "g"]⟩
        (Stmt.call ⟨0, none⟩ "f" []).number := by
  constructor
  · obtain ⟨d, hExpand⟩ := exists_scaled
    obtain ⟨-, hOk, -⟩ := expandAll_unfolds ⟨[scaling, scalingTwice]⟩ scalingHost
    exact ⟨d, hExpand, ((hOk d 3 hExpand).2 3).mpr rfl⟩
  · obtain ⟨-, -, hError, -⟩ := expandAll_unfolds ⟨[relay "f" "g", relay "g" "h", relay "h" "g"]⟩
      (.call ⟨0, none⟩ "f" [])
    exact hError "g" ["f", "g", "h"] (by cbv)

end Restructure

end LoopNest

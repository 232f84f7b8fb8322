import LoopNest.Proofs.ChainDependences
import LoopNest.Proofs.EnteredStatements
import LoopNest.Proofs.Reorders
import LoopNest.Proofs.ScopedNames

/-! # Reordered loops with assertions

  A loop may assert that its iterations do not meet on some buffers. The analysis takes this for the
  whole chain of loops: it looks for no dependence on these buffers between different values of the
  iterator, also when the iterations of the loops around differ, too.

  * **Assertions**: what has to be true of the perfect nest that a chain becomes
    (`Restructure.AssertionsHold`).
  * **Programs**: then the program with reordered loops leaves the memory that the program leaves
    (`Restructure.asserted_reorder_preserves`).

  It is not enough that an assertion is true of each run of its own loop. A division by zero may come up
  that did not before, and a visible buffer must not be declared inside
  (`Restructure.asserted_not_preserved`). -/

namespace LoopNest.Restructure

open Stmt (LabelledLoop)

variable {t t' : Stmt} {maxLevels : Nat} {labels : List String} {outer : LabelledLoop}
  {rest : List LabelledLoop} {order : List Nat} {nest : PerfectNest}

/-! ## Assertions -/

/-- The loops that a request names are neat, hold no float constants and have different iterators. They
    may assert that their iterations do not meet. -/
structure Orderly (t : Stmt) (labels : List String) : Prop where
  neat : ∀ label ∈ labels, ∀ l, t.loopAt label = .ok l → Neat l
  floats : ∀ label ∈ labels, ∀ l, t.loopAt label = .ok l →
    ∀ u ∈ l.stmt.nodes, ∀ e ∈ u.exprs, e.hasFloat = false
  iters : ∀ label ∈ labels, ∀ label' ∈ labels, ∀ l l', t.loopAt label = .ok l →
    t.loopAt label' = .ok l' → l.head.iter = l'.head.iter → l.site.id = l'.site.id

/-- The assertions of the loops that a request names are true of the perfect nest that they become:
    wherever a run enters the chain, touches of the whole nest with different values of an iterator do
    not meet on the buffers that its loop lists, whatever a division by zero yields. -/
def AssertionsHold (fresh : Memory) (t : Stmt) (labels : List String) (env : Env) (m : Memory) :
    Prop :=
  ∀ outer rest nest, chainOf t labels = .ok (outer :: rest) →
    perfect outer.stmt.written t.size outer rest = .ok nest →
      ∀ env' at_, Stmt.Enters fresh outer.stmt t env m env' at_ → ∀ q, ∀ l ∈ nest.loops,
        Stmt.Truthful l.1.id l.2.noDeps
          (nest.stmt.touchesWith ⟨fun _ => fresh, q⟩ {} env' at_)

/-! ## The nest -/

/-- **Reordered nests**: the permuted nest leaves the memory that the chain leaves, where all bounds and
    conditions have values and the assertions are true. -/
theorem Reordered.leaves {c : Conventions} {E : Env → Prop}
    (h : Reordered maxLevels t t' labels outer rest order nest) (hIds : t.ids.Nodup)
    (hLess : ∀ w ∈ t.nodes, w.id < t.size) (hIters : ((outer :: rest).map (·.head.iter)).Nodup)
    (hNeat : ∀ l ∈ outer :: rest, Neat l) (hSettled : ∀ l ∈ outer :: rest, Settled c E l)
    (hEnv : ∀ l ∈ outer :: rest, ∀ env v, E env → E (env.set l.head.iter v)) {env : Env}
    (hE : E env) {m m' : Memory} (hm : m.Full)
    (hAsserted : ∀ l ∈ nest.loops,
      Stmt.Truthful l.1.id l.2.noDeps (nest.stmt.touchesWith c {} env m))
    (hRun : outer.stmt.change c env m = some m') :
    (nestOf (order.filterMap (nest.loops[·]?)) nest.body).change c env m = some m' := by
  have hMade := h.perfected hIds hLess hNeat hSettled hEnv
  rw [hMade.runs env hE m hm] at hRun
  exact leaves_permuted (h.regular hIds hLess hIters hNeat hSettled hEnv hE hm)
    (h.order_perm hMade.loops) h.obstacle hAsserted hRun

/-! ## Programs -/

/-- The program with reordered loops leaves the memory that the program leaves, where all bounds and
    conditions have values and the assertions are true. Divisions by zero may have a value in it. -/
theorem leaves_reorder (hIds : t.ids.Nodup) (hLess : ∀ w ∈ t.nodes, w.id < t.size)
    (h : reorder maxLevels t labels = .ok t') (hOrderly : Orderly t labels) {fresh m m' : Memory}
    (hFresh : fresh.Full) (hm : m.Full) {env : Env} (hHold : AssertionsHold fresh t labels env m)
    {q : Option Int} (hSettled : ∀ label ∈ labels, ∀ l, t.loopAt label = .ok l →
      Settled ⟨fun _ => fresh, q⟩ (t.Reaches env) l)
    (hRun : t.change (.reference fresh) env m = some m') :
    t'.change ⟨fun _ => fresh, q⟩ env m = some m' := by
  have hExtends : Conventions.Extends ⟨fun _ => fresh, q⟩ (.reference fresh) :=
    Conventions.extends_reference fun _ => .refl fresh
  rcases reorder_cases h with rfl | ⟨outer, rest, order, nest, hReordered⟩
  · exact Stmt.change_of_extends hExtends hm hRun
  · have hReplaces := Stmt.replaces_update (u := outer.stmt)
      (v := nestOf (order.filterMap (nest.loops[·]?)) nest.body) t hIds
      (hReordered.mem_nodes outer List.mem_cons_self)
    rw [hReordered.result]
    refine hReplaces.leaves_of_enters hFresh env m m' hm ?_ hRun
    intro env' at_ after hEnters hFull hHere
    exact hReordered.leaves hIds hLess (hReordered.nodup_iters hOrderly.iters)
      (hReordered.forall_chain hOrderly.neat) (hReordered.forall_chain hSettled) hReordered.reaches_set
      hEnters.reaches hFull
      (hHold outer rest nest hReordered.chain hReordered.perfect env' at_ hEnters q)
      (Stmt.change_of_extends hExtends hFull hHere)

/-- An assertion is true when the cell of a touch tells in which iteration it happens. -/
theorem truthful_of_cells {id : Nat} {noDeps : List String} {touches : List Touch}
    {f : List Int → Option Int}
    (h : ∀ x ∈ touches, x.access.buffer ∈ noDeps → x.value? id = f x.cell) :
    Stmt.Truthful id noDeps touches := by
  intro x hx y hy v w hv hw hne hMem hMeets
  have hCell := h x hx hMem
  have hCell' := h y hy (hMeets.buffer ▸ hMem)
  rw [hv] at hCell
  rw [hw, ← hMeets.cell, ← hCell] at hCell'
  exact hne (Option.some.inj hCell').symm

theorem Orderly.pair {a b : String} {l l' : LabelledLoop} (ha : t.loopAt a = .ok l)
    (hb : t.loopAt b = .ok l') (hNeat : Neat l) (hNeat' : Neat l')
    (hFloats : ∀ u ∈ l.stmt.nodes, ∀ e ∈ u.exprs, e.hasFloat = false)
    (hFloats' : ∀ u ∈ l'.stmt.nodes, ∀ e ∈ u.exprs, e.hasFloat = false)
    (hIters : l.head.iter ≠ l'.head.iter) : Orderly t [a, b] :=
  ⟨forall_of_pair ha hb hNeat hNeat', forall_of_pair ha hb hFloats hFloats', iters_of_pair ha hb hIters⟩

/-- The inner loop of `scatteredOuter`: it changes the cells of `y` that `p` lists. The analysis cannot
    know that `p` lists none of them twice. -/
def scatteredInner : LabelledLoop where
  site := ⟨1, some "L2"⟩
  head := { iter := "j", lower := .int 0, upper := .int 2, noDeps := ["y"] }
  body := .store ⟨2, none⟩ "y" [.load "p" [.var "j"]]
    (.add (.binary .mul (.load "y" [.load "p" [.var "j"]]) (.int 2)) (.var "i"))

/-- A loop that changes the listed cells again and again. -/
def scatteredOuter : LabelledLoop where
  site := ⟨0, some "L1"⟩
  head := { iter := "i", lower := .int 0, upper := .int 2 }
  body := scatteredInner.stmt

/-- The loops of `scatteredOuter` in the other order. -/
def scatteredSwapped : Stmt :=
  .loop scatteredInner.site scatteredInner.head (.loop scatteredOuter.site scatteredOuter.head
    scatteredInner.body)

/-- A memory in which `p` lists the cells in order. -/
def listing : Memory := fun b cell => some (if b = "p" then cell.headD 0 else 0)

theorem listing_full : listing.Full := fun _ _ => rfl

theorem scattered_orderly : Orderly scatteredOuter.stmt.number ["L2", "L1"] :=
  have hInner : scatteredOuter.stmt.number.loopAt "L2" = .ok scatteredInner := rfl
  have hOuter : scatteredOuter.stmt.number.loopAt "L1" = .ok scatteredOuter := rfl
  .pair hInner hOuter ⟨rfl, rfl, rfl⟩ ⟨rfl, rfl, rfl⟩ (by decide) (by decide) (by decide)

/-- The cells that `p` lists tell the iterations of the inner loop, also between different iterations of
    the outer one. -/
theorem scattered_assertionsHold :
    AssertionsHold listing scatteredOuter.stmt.number ["L2", "L1"] (fun _ => 0) listing := by
  intro outer rest nest hChain hPerfect env' at_ hEnters q l hl
  have hChain' : chainOf scatteredOuter.stmt.number ["L2", "L1"]
      = .ok [scatteredOuter, scatteredInner] := by cbv
  obtain ⟨rfl, rfl⟩ := List.cons_eq_cons.mp (Except.ok.inj (hChain.symm.trans hChain'))
  have hPerfect' : perfect scatteredOuter.stmt.written scatteredOuter.stmt.number.size scatteredOuter
      [scatteredInner] = .ok ⟨[(scatteredOuter.site, scatteredOuter.head),
        (scatteredInner.site, scatteredInner.head)], scatteredInner.body⟩ := by cbv
  obtain rfl := Except.ok.inj (hPerfect.symm.trans hPerfect')
  -- the chain is the whole program, so it is entered at the start
  obtain ⟨rfl, rfl⟩ := hEnters.here_or_inside.resolve_right
    fun hInside => Stmt.ne_of_mem_inside (by decide) hInside rfl
  rcases List.mem_pair.mp hl with rfl | rfl
  · exact Stmt.truthful_nil _ _
  · -- nothing is divided, so the convention does not matter
    exact truthful_of_cells (f := List.head?) (show ∀ x ∈ scatteredOuter.stmt.touchesWith
      (.reference listing) {} (fun _ => 0) listing, _ from by decide)

/-- The assertions of all loops of a program are true of each run of their loop. -/
def HoldInRuns (fresh : Memory) (t : Stmt) (env : Env) (m : Memory) : Prop :=
  ∀ s head body env' at_, Stmt.Enters fresh (.loop s head body) t env m env' at_ →
    Stmt.Truthful s.id head.noDeps
      ((Stmt.loop s head body).touchesWith (.reference fresh) {} env' at_)

/-- Programs without assertions assert nothing that is false. -/
theorem holdInRuns_of_unasserted (h : t.unasserted = true) (fresh : Memory) (env : Env) (m : Memory) :
    HoldInRuns fresh t env m := by
  intro s head body env' at_ hEnters
  have hNone : head.noDeps = [] := Stmt.noDeps_of_unasserted h hEnters.mem
  rw [hNone]
  exact Stmt.truthful_nil _ _

/-- The inner loop of `overlappingOuter`. Its iterations write different cells. -/
def overlappingInner : LabelledLoop where
  site := ⟨1, some "L2"⟩
  head := { iter := "j", lower := .int 0, upper := .int 2, noDeps := ["y"] }
  body := .store ⟨2, none⟩ "y" [.add (.var "i") (.var "j")] (.var "i")

/-- Different iterations of both loops write the cell 1. -/
def overlappingOuter : LabelledLoop where
  site := ⟨0, some "L1"⟩
  head := { iter := "i", lower := .int 0, upper := .int 2 }
  body := overlappingInner.stmt

/-- The loops of `overlappingOuter` in the other order. -/
def overlappingSwapped : Stmt :=
  .loop overlappingInner.site overlappingInner.head (.loop overlappingOuter.site overlappingOuter.head
    overlappingInner.body)

theorem overlapping_holdInRuns (fresh : Memory) (env : Env) (m : Memory) :
    HoldInRuns fresh overlappingOuter.stmt.number env m := by
  intro s head body e at_ hEnters
  have hMem := hEnters.mem
  have hNodes : overlappingOuter.stmt.number.nodes
      = [overlappingOuter.stmt, overlappingInner.stmt, overlappingInner.body] := rfl
  rw [hNodes] at hMem
  simp only [List.mem_cons, List.not_mem_nil, or_false] at hMem
  rcases hMem with hLoop | hLoop | hLoop
  · obtain ⟨-, rfl, -⟩ := Stmt.loop.inj hLoop
    exact Stmt.truthful_nil _ _
  · obtain ⟨rfl, rfl, rfl⟩ := Stmt.loop.inj hLoop
    -- an iteration writes the cell that is its number beyond the outer iterator
    obtain ⟨a, hTouches, hLoops⟩ : ∃ a : Access,
        overlappingInner.stmt.touchesWith (.reference fresh) {} e at_
            = [⟨a, [e "i" + 0], [0], none⟩, ⟨a, [e "i" + 1], [1], none⟩]
          ∧ a.loops = [⟨1, overlappingInner.head⟩] := ⟨_, rfl, rfl⟩
    refine truthful_of_cells (f := fun cell => cell.head?.map (· - e "i")) fun x hx _ => ?_
    rcases List.mem_pair.mp (hTouches ▸ hx) with rfl | rfl <;>
      simp [Touch.value?, hLoops, overlappingInner]
  · cases hLoop

/-- The inner loop of `exposedOuter`. The buffer that it declares is visible outside, so what remains in
    it is what the last iteration has written that writes at all. -/
def exposedInner : LabelledLoop where
  site := ⟨1, some "L2"⟩
  head := { iter := "j", lower := .int 0, upper := .int 2 }
  body := .decl ⟨2, none⟩ "y" ⟨[.int 1], .int32, .output, .cpu⟩
    (.guard ⟨3, none⟩ (.equals (.add (.var "i") (.var "j")) (.int 1))
      (.store ⟨4, none⟩ "y" [.int 0] (.var "i")))

/-- A nest that declares a visible buffer inside. -/
def exposedOuter : LabelledLoop where
  site := ⟨0, some "L1"⟩
  head := { iter := "i", lower := .int 0, upper := .int 2 }
  body := exposedInner.stmt

/-- The loops of `exposedOuter` in the other order. -/
def exposedSwapped : Stmt :=
  .loop exposedInner.site exposedInner.head (.loop exposedOuter.site exposedOuter.head
    exposedInner.body)

end LoopNest.Restructure

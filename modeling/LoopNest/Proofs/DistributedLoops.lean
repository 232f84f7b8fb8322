import Mathlib
import LoopNest.Proofs.MadeAccesses
import LoopNest.Proofs.ParallelLoops
import LoopNest.Proofs.Replacements
import LoopNest.Restructure.Fission

/-! # Distributed loops

  An accepted request to distribute a loop over two parts of its body keeps what a program does.

  * **Orders**: in the one loop the parts take turns; in the two loops all iterations of the first
    part come before those of the second one. A part changes places with parts of earlier
    iterations only (`Restructure.exchanged`).
  * **Reductions**: parts that change places and meet belong to one reduction, since the analysis
    would otherwise have found an obstacle (`Restructure.reduction_of_exchanged_parts`).
  * **Bounds** have the same values for both loops, as the first one writes nothing that they read
    (`Restructure.change_distributed`).
  * **Programs**: the memory that is left (`Restructure.fission_preserves`). -/

namespace LoopNest

/-! ## Statements of accesses -/

/-- Accesses are made by the statements of a program. -/
theorem Stmt.stmt_mem_ids (t : Stmt) (s : Scope) (a : Access) (h : a ∈ t.accessesIn s) :
    a.stmt ∈ t.ids := by
  obtain ⟨u, s', hStands, hMade⟩ := exists_maker t s a h
  rw [hMade.stmt]
  exact List.mem_map_of_mem hStands.mem

/-- The accesses of a block are those of its statements. -/
theorem Stmt.mem_accessesIn_block {s : Site} {scope : Scope} {ts : List Stmt} {a : Access} :
    a ∈ (Stmt.block s ts).accessesIn scope ↔ ∃ t ∈ ts, a ∈ t.accessesIn scope := by
  rw [accessesIn, accessesInAll_eq_flatMap, List.mem_flatMap]

@[simp] theorem Stmt.change_sequence (c : Conventions) (env : Env) (ts : List Stmt) :
    (sequence ts).change c env = Change.inTurn (ts.map (change c env)) := by
  unfold sequence
  split
  · rw [List.map_singleton, Change.inTurn_cons, Change.inTurn_nil, Change.seq_skip]
  · exact change_block c env _ _

namespace Restructure

open Stmt (LabelledLoop iteration)

/-! ## Orders of the parts -/

/-- The parts of all iterations, the two of one iteration next to each other. -/
def inPairs (vs : List Int) : List (Bool × Int) := vs.flatMap fun v => [(false, v), (true, v)]

/-- The first parts of all iterations, then the second ones. -/
def inHalves (vs : List Int) : List (Bool × Int) := vs.map (false, ·) ++ vs.map (true, ·)

theorem inPairs_perm (vs : List Int) : (inPairs vs).Perm (inHalves vs) := by
  induction vs with
  | nil => exact List.Perm.refl _
  | cons v vs ih =>
    have hStep : (inPairs (v :: vs)).Perm ((false, v) :: (true, v) :: inHalves vs) :=
      (ih.cons _).cons _
    exact hStep.trans (List.perm_middle.symm.cons _)

theorem pairwise_inPairs {vs : List Int} (h : vs.Pairwise (· < ·)) :
    (inPairs vs).Pairwise fun a b => a.2 < b.2 ∨ a.2 = b.2 ∧ a.1 = false ∧ b.1 = true := by
  unfold inPairs
  rw [List.pairwise_flatMap]
  refine ⟨fun v _ => ?_, h.imp ?_⟩
  · simp
  · intro v w hvw a ha b hb
    left
    simp only [List.mem_cons, List.not_mem_nil, or_false] at ha hb
    rcases ha with rfl | rfl <;> rcases hb with rfl | rfl <;> exact hvw

theorem pairwise_inHalves {vs : List Int} (h : vs.Pairwise (· < ·)) :
    (inHalves vs).Pairwise fun a b => a.1 = false ∧ b.1 = true ∨ a.1 = b.1 ∧ a.2 < b.2 := by
  unfold inHalves
  rw [List.pairwise_append]
  refine ⟨?_, ?_, ?_⟩
  · exact h.map _ fun v w hvw => .inr ⟨rfl, hvw⟩
  · exact h.map _ fun v w hvw => .inr ⟨rfl, hvw⟩
  · intro a ha b hb
    obtain ⟨v, _, rfl⟩ := List.mem_map.mp ha
    obtain ⟨w, _, rfl⟩ := List.mem_map.mp hb
    exact .inl ⟨rfl, rfl⟩

theorem nodup_inHalves {vs : List Int} (h : vs.Pairwise (· < ·)) : (inHalves vs).Nodup := by
  apply (pairwise_inHalves h).imp
  rintro a b hab rfl
  rcases hab with ⟨hFalse, hTrue⟩ | ⟨_, hLess⟩
  · cases hFalse.symm.trans hTrue
  · omega

/-- **Exchanged parts**: what changes places is a second part and a first part of a later
    iteration. -/
theorem exchanged {vs : List Int} (h : vs.Pairwise (· < ·)) {a b : Bool × Int}
    (hPairs : [a, b].Sublist (inPairs vs)) (hHalves : [b, a].Sublist (inHalves vs)) :
    a.1 = true ∧ b.1 = false ∧ a.2 < b.2 := by
  have hFirst := List.pairwise_pair.mp ((pairwise_inPairs h).sublist hPairs)
  have hSecond := List.pairwise_pair.mp ((pairwise_inHalves h).sublist hHalves)
  rcases hSecond with ⟨hb, ha⟩ | ⟨_, hBack⟩
  · rcases hFirst with hLess | ⟨_, hFalse, _⟩
    · exact ⟨ha, hb, hLess⟩
    · cases hFalse.symm.trans ha
  · rcases hFirst with hLess | ⟨hEq, _⟩ <;> omega

theorem mem_of_mem_inHalves {vs : List Int} {a : Bool × Int} (h : a ∈ inHalves vs) : a.2 ∈ vs := by
  rcases List.mem_append.mp h with h | h <;> obtain ⟨v, hv, rfl⟩ := List.mem_map.mp h <;> exact hv

/-! ## Parts that change places -/

section parts

variable {c : Conventions} {env : Env} {s site : Site} {h : LoopHead} {first second : List Stmt}
  {maxLevels : Nat}

/-- One part of the body in one iteration, with what it touches. -/
def partRun (c : Conventions) (env : Env) (s : Site) (h : LoopHead) (first second : List Stmt)
    (a : Bool × Int) : Change × Trace :=
  iteration c env s h (.block .unnumbered (if a.1 then second else first)) a.2

theorem part_subset (first second : List Stmt) (late : Bool) {t : Stmt}
    (ht : t ∈ if late then second else first) : t ∈ first ++ second := by
  cases late with
  | false => exact List.mem_append_left _ ht
  | true => exact List.mem_append_right _ ht

/-- The touches of a part with their place in the loop. -/
theorem part_placed (hLocals : (Stmt.block site (first ++ second)).localsOnly = true)
    {lower upper : Int} {at_ : Memory} (hLower : h.lower.valueWith? c env at_ = some lower)
    (hUpper : h.upper.valueWith? c env at_ = some upper) {a : Bool × Int}
    (ha : a.2 ∈ counting lower upper) {x : Touch} {before : Memory}
    (hx : x ∈ (partRun c env s h first second a).2 before) :
    x.access ∈ (Stmt.loop s h (.block site (first ++ second))).accessesIn {}
      ∧ x.access.stmt ∈ (if a.1 then second else first).flatMap Stmt.ids
      ∧ x.Owned ∧ ∃ more, x.Placed c env (⟨⟨s.id, h⟩, lower, a.2⟩ :: more) := by
  have hPart : (Stmt.block .unnumbered (if a.1 then second else first)).localsOnly = true :=
    Stmt.everywhere_block.mpr ⟨rfl, fun t ht =>
      (Stmt.everywhere_block.mp hLocals).2 t (part_subset first second a.1 ht)⟩
  obtain ⟨hAccess, more, hPlaced⟩ := Stmt.placed_of_mem_touchesWith _ _ _ _ before x
    ((Place.At.start c env).enter (l := ⟨s.id, h⟩) hLower hUpper ha) hx
  have hOwned := Stmt.owned_of_mem_touchesWith _ _ _ before x hPart
    (Place.Owned.start.enter ⟨s.id, h⟩ a.2) rfl hx
  obtain ⟨t, ht, hAccess⟩ := Stmt.mem_accessesIn_block.mp hAccess
  refine ⟨?_, ?_, hOwned, more, hPlaced⟩
  · exact List.mem_append_right _
      (Stmt.mem_accessesIn_block.mpr ⟨t, part_subset first second a.1 ht, hAccess⟩)
  · exact List.mem_flatMap.mpr ⟨t, ht, Stmt.stmt_mem_ids t _ _ hAccess⟩

/-- **Reductions**: without an obstacle, a second part and a first part of a later iteration that
    meet belong to reductions with one operator. -/
theorem reduction_of_exchanged_parts
    (hIds : (Stmt.loop s h (.block site (first ++ second))).loopIds.Nodup)
    (hLocals : (Stmt.block site (first ++ second)).localsOnly = true) (hNoDeps : h.noDeps = [])
    (hFree : (Stmt.loop s h (.block site (first ++ second))).fissionObstacle? maxLevels first second
      = none) {lower upper : Int} {at_ : Memory}
    (hLower : h.lower.valueWith? c env at_ = some lower)
    (hUpper : h.upper.valueWith? c env at_ = some upper) {a b : Bool × Int}
    (ha : a.2 ∈ counting lower upper) (hb : b.2 ∈ counting lower upper)
    (hOrder : a.1 = true ∧ b.1 = false ∧ a.2 < b.2) {x y : Touch} {before before' : Memory}
    (hx : x ∈ (partRun c env s h first second a).2 before)
    (hy : y ∈ (partRun c env s h first second b).2 before') (hMeets : x.Meets y) :
    ∃ op, x.access.reduction = some op ∧ y.access.reduction = some op := by
  obtain ⟨hLate, hEarly, hLess⟩ := hOrder
  obtain ⟨hxMem, hxStmt, hxOwned, P, hP⟩ := part_placed hLocals hLower hUpper ha hx
  obtain ⟨hyMem, hyStmt, hyOwned, Q, hQ⟩ := part_placed hLocals hLower hUpper hb hy
  rw [hLate, if_pos rfl] at hxStmt
  rw [hEarly, if_neg (by decide)] at hyStmt
  obtain ⟨d, hd, hLeads⟩ := Stmt.exists_leads_of_meets hIds maxLevels hLower hUpper ha hb
    (Int.ne_of_lt hLess) hxMem hyMem hP hQ hxOwned hyOwned hMeets (by simp [hNoDeps])
  have hNot := List.find?_eq_none.mp hFree d hd
  rcases hLeads with hLeads | hLeads
  · -- from the second part to the first one: only a reduction is no obstacle
    cases hReduction : d.reduction with
    | some op => exact ⟨op, hLeads.reduction op hReduction⟩
    | none =>
      refine absurd ?_ hNot
      simp [hReduction, hLeads.carried, hLeads.source, hLeads.target, hxStmt, hyStmt]
  · -- towards an earlier iteration: its vector would be unknown, which is an obstacle as well
    cases hReduction : d.reduction with
    | some op => exact ⟨op, (hLeads.reduction op hReduction).symm⟩
    | none =>
      have hStar : d.direction.head? = some .star := hLeads.onward.resolve_right (by omega)
      refine absurd ?_ hNot
      simp [hReduction, hLeads.carried, hStar]

/-- The parts in pairs leave the memory that they leave in halves. -/
theorem change_inPairs
    (hIds : (Stmt.loop s h (.block site (first ++ second))).loopIds.Nodup)
    (hLocals : (Stmt.block site (first ++ second)).localsOnly = true) (hNoDeps : h.noDeps = [])
    (hFree : (Stmt.loop s h (.block site (first ++ second))).fissionObstacle? maxLevels first second
      = none) {lower upper : Int} {m : Memory}
    (hLower : h.lower.valueWith? c env m = some lower)
    (hUpper : h.upper.valueWith? c env m = some upper) :
    Change.inTurn ((inPairs (counting lower upper)).map fun a =>
        (partRun c env s h first second a).1) m
      = Change.inTurn ((inHalves (counting lower upper)).map fun a =>
          (partRun c env s h first second a).1) m := by
  have hUp := pairwise_counting lower upper
  have hPerm := inPairs_perm (counting lower upper)
  have hNodup := nodup_inHalves hUp
  have hLogged : ∀ a : Bool × Int,
      Logged (partRun c env s h first second a) ({} : Place).Makes := by
    intro a
    rw [← Place.makes_enter (p := {}) (l := ⟨s.id, h⟩) (v := a.2)]
    exact Stmt.logged _ _ _ (Stmt.everywhere_block.mpr ⟨rfl, fun t ht =>
      (Stmt.everywhere_block.mp hLocals).2 t (part_subset first second a.1 ht)⟩)
  -- what changes places from one order to the other is independent
  have hReduced : ∀ {a b : Bool × Int}, a ∈ inHalves (counting lower upper) →
      b ∈ inHalves (counting lower upper) → a.1 = true ∧ b.1 = false ∧ a.2 < b.2 →
      ∀ {x y : Touch} {t t' : Step}, (∃ before, x ∈ (partRun c env s h first second a).2 before) →
      (∃ before, y ∈ (partRun c env s h first second b).2 before) → ({} : Place).Makes t x →
      ({} : Place).Makes t' y → x.access.buffer = y.access.buffer → x.cell = y.cell →
      (x.access.kind = .write ∨ y.access.kind = .write) →
        ∃ op, x.access.reduction = some op ∧ y.access.reduction = some op := by
    rintro a b ha hb hOrder x y t t' ⟨before, hx⟩ ⟨before', hy⟩ hMakes hMakes' hBuffer hCell hWrite
    have hOwner : x.owner = y.owner := by
      rw [hMakes.ofPlace.owner, hMakes'.ofPlace.owner]
      rfl
    exact reduction_of_exchanged_parts hIds hLocals hNoDeps hFree hLower hUpper
      (mem_of_mem_inHalves ha) (mem_of_mem_inHalves hb) hOrder hx hy
      ⟨hBuffer, hOwner, hCell, hWrite⟩
  apply Option.ext
  intro m'
  constructor
  · apply exchange_tasks hPerm.symm (hPerm.nodup_iff.mpr hNodup) fun a _ => hLogged a
    intro a b hab hba x y t t' hx hy _ _ hMakes hMakes'
    have hMem := hba.subset
    exact Step.independent_of_by hMakes.makes hMakes'.makes
      (hReduced (hMem (by simp)) (hMem (by simp)) (exchanged hUp hab hba) hx hy hMakes hMakes')
  · apply exchange_tasks hPerm hNodup fun a _ => hLogged a
    intro a b hab hba x y t t' hx hy _ _ hMakes hMakes'
    have hMem := hab.subset
    apply Step.independent_of_by hMakes.makes hMakes'.makes
    intro hBuffer hCell hWrite
    obtain ⟨op, hOp, hOp'⟩ := hReduced (hMem (by simp)) (hMem (by simp)) (exchanged hUp hba hab)
      hy hx hMakes' hMakes hBuffer.symm hCell.symm hWrite.symm
    exact ⟨op, hOp', hOp⟩

/-- The two loops that take the place of one. -/
def twoLoops (h : LoopHead) (a b : String) (first second : List Stmt) : Stmt :=
  .block .unnumbered [
    .loop (.unnumbered (some a)) h (.sequence first),
    .loop (.unnumbered (some b)) h (.sequence second)]

/-- The first one of the two loops leaves what the bounds read. -/
theorem bound_after_first {a : String} {e : Expr}
    (hAvoids : e.Avoids (Stmt.block site (first ++ second)).written) {m m' : Memory}
    (hRun : (Stmt.loop (.unnumbered (some a)) h (.sequence first)).change c env m = some m') :
    e.valueWith? c env m' = e.valueWith? c env m := by
  apply hAvoids.valueWith?_eq c env
  intro b hb
  apply Stmt.keeps_of_change hRun
  rintro ⟨s', is, v, hStore⟩
  apply hb
  -- a store of the first loop is one of the whole body
  have hBelow : Stmt.store s' b is v ∈ first.flatMap Stmt.nodes := by
    unfold Stmt.sequence at hStore
    split at hStore <;> simpa using hStore
  apply Stmt.mem_written
  refine ⟨s', is, v, ?_⟩
  rw [Stmt.nodes_block, List.flatMap_append]
  exact List.mem_cons_of_mem _ (List.mem_append_left _ hBelow)

/-- **Distribution**: the two loops run like the one loop. -/
theorem change_distributed
    (hIds : (Stmt.loop s h (.block site (first ++ second))).loopIds.Nodup)
    (hLocals : (Stmt.block site (first ++ second)).localsOnly = true) (hNoDeps : h.noDeps = [])
    (hFree : (Stmt.loop s h (.block site (first ++ second))).fissionObstacle? maxLevels first second
      = none)
    (hBounds : ∀ e ∈ [h.lower, h.upper], e.Avoids (Stmt.block site (first ++ second)).written)
    (a b : String) : (twoLoops h a b first second).change c env
      = (Stmt.loop s h (.block site (first ++ second))).change c env := by
  funext m
  have hTwo : (twoLoops h a b first second).change c env m
      = ((Stmt.loop (.unnumbered (some a)) h (.sequence first)).change c env m).bind
          ((Stmt.loop (.unnumbered (some b)) h (.sequence second)).change c env) := by
    rw [twoLoops, Stmt.change_block, List.map_cons, List.map_singleton, Change.inTurn_cons,
      Change.inTurn_cons, Change.inTurn_nil, Change.seq_skip]
    rfl
  rw [hTwo, Stmt.change_loop (s := s)]
  cases hLower : h.lower.valueWith? c env m with
  | none => rw [Stmt.change_loop, hLower]; rfl
  | some lower =>
    cases hUpper : h.upper.valueWith? c env m with
    | none => rw [Stmt.change_loop, hLower, hUpper]; rfl
    | some upper =>
      have hParts : ∀ (late : Bool) (v : Int), (partRun c env s h first second (late, v)).1
          = (Stmt.sequence (if late then second else first)).change c (env.set h.iter v) := by
        intro late v
        rw [Stmt.change_sequence]
        exact Stmt.change_block c (env.set h.iter v) .unnumbered _
      have hOne : Change.inTurn ((counting lower upper).map fun v =>
            (Stmt.block site (first ++ second)).change c (env.set h.iter v))
          = Change.inTurn ((inPairs (counting lower upper)).map fun a =>
              (partRun c env s h first second a).1) := by
        rw [inPairs, List.map_flatMap, Change.inTurn_flatMap]
        congr 2
        funext v
        rw [List.map_cons, List.map_singleton, hParts, hParts, Stmt.change_block, List.map_append,
          Change.inTurn_append, Change.inTurn_cons, Change.inTurn_cons, Change.inTurn_nil,
          Change.seq_skip, Stmt.change_sequence, Stmt.change_sequence]
        rfl
      have hHalves : Change.inTurn ((inHalves (counting lower upper)).map fun a =>
            (partRun c env s h first second a).1)
          = (Change.inTurn ((counting lower upper).map fun v =>
              (Stmt.sequence first).change c (env.set h.iter v))).seq
            (Change.inTurn ((counting lower upper).map fun v =>
              (Stmt.sequence second).change c (env.set h.iter v))) := by
        rw [inHalves, List.map_append, Change.inTurn_append, List.map_map, List.map_map]
        congr 3 <;> funext v <;> exact hParts _ v
      have hFirst : (Stmt.loop (.unnumbered (some a)) h (.sequence first)).change c env m
          = Change.inTurn ((counting lower upper).map fun v =>
              (Stmt.sequence first).change c (env.set h.iter v)) m := by
        rw [Stmt.change_loop, hLower, hUpper]
        rfl
      show _ = Change.inTurn ((counting lower upper).map fun v =>
        (Stmt.block site (first ++ second)).change c (env.set h.iter v)) m
      rw [hOne, change_inPairs hIds hLocals hNoDeps hFree hLower hUpper, hHalves, Change.seq,
        ← hFirst]
      cases hRun : (Stmt.loop (.unnumbered (some a)) h (.sequence first)).change c env m with
      | none => rfl
      | some m' =>
        show (Stmt.loop (.unnumbered (some b)) h (.sequence second)).change c env m' = _
        rw [Stmt.change_loop, bound_after_first (hBounds h.lower (by simp)) hRun,
          bound_after_first (hBounds h.upper (by simp)) hRun, hLower, hUpper]
        rfl

end parts

/-! ## Requests -/

theorem append_of_cutAfter {id : Nat} :
    ∀ {ts first second : List Stmt}, cutAfter id ts = some (first, second) →
      ts = first ++ second := by
  intro ts
  induction ts with
  | nil =>
    intro first second h
    cases h
  | cons t ts ih =>
    intro first second h
    rw [cutAfter] at h
    split at h
    · cases h
      rfl
    · obtain ⟨⟨front, back⟩, hCut, hEq⟩ := Option.map_eq_some_iff.mp h
      cases hEq
      rw [ih hCut, List.cons_append]

theorem block_of_fissionParts {t : Stmt} {l : LabelledLoop} {label after : String}
    {first second : List Stmt} (h : fissionParts t l label after = .ok (first, second)) :
    ∃ site, l.body = .block site (first ++ second) := by
  unfold fissionParts at h
  dsimp only at h
  split at h
  · obtain ⟨stop, _, h⟩ := Outcome.bind_eq_ok.mp h
    split at h
    · rename_i site ts hBody
      split at h
      · cases h
      · cases h
      · rename_i hCut
        cases h
        exact ⟨site, by rw [hBody, append_of_cutAfter hCut]⟩
    · cases h
  · cases h

/-- What has been checked when a loop is distributed.

    * **bounds**: the body writes nothing that the bounds read;
    * **free**: no dependence stands against it;
    * **result**: the two loops take the place of the one. -/
structure Distributed (maxLevels : Nat) (t t' : Stmt) (label : String) (l : LabelledLoop)
    (site : Site) (first second : List Stmt) (a b : String) : Prop where
  found : t.loopAt label = .ok l
  body : l.body = .block site (first ++ second)
  bounds : ∀ e ∈ [l.head.lower, l.head.upper], e.Avoids l.body.written
  free : l.stmt.fissionObstacle? maxLevels first second = none
  result : t' = t.update l.site.id fun _ => twoLoops l.head a b first second

theorem fission_cases {t t' : Stmt} {maxLevels : Nat} {label after a b : String}
    (h : fission maxLevels t label after = .ok (t', a, b)) :
    ∃ l site first second, Distributed maxLevels t t' label l site first second a b := by
  unfold fission at h
  obtain ⟨l, hFound, h⟩ := Outcome.bind_eq_ok.mp h
  obtain ⟨⟨first, second⟩, hParts, h⟩ := Outcome.bind_eq_ok.mp h
  obtain ⟨site, hBody⟩ := block_of_fissionParts hParts
  dsimp only at h
  split at h
  · cases h
  · rename_i hReads
    split at h
    · cases h
    · rename_i hFree
      cases h
      refine ⟨l, site, first, second, hFound, hBody, ?_, hFree, rfl⟩
      have hEach : ∀ w ∈ l.body.written, l.head.lower.reads w = false
          ∧ l.head.upper.reads w = false := by
        intro w hw
        have hNot := List.find?_eq_none.mp hReads w hw
        simpa using hNot
      intro e he w hw
      rcases List.mem_cons.mp he with rfl | he
      · exact (hEach w hw).1
      · rw [List.mem_singleton.mp he]
        exact (hEach w hw).2

/-- A loop without assertions, below which only local buffers are declared. -/
structure Plain (l : LabelledLoop) : Prop where
  noDeps : l.head.noDeps = []
  localsOnly : l.body.localsOnly = true

/-- **Distribution keeps results**: a program with a distributed loop leaves the memory that the
    program leaves, and fails where the program fails. -/
theorem fission_preserves {t t' : Stmt} {maxLevels : Nat} {label after a b : String}
    (h : fission maxLevels t.number label after = .ok (t', a, b))
    (hPlain : ∀ l, t.number.loopAt label = .ok l → Plain l) (fresh : Memory) (env : Env)
    (m : Memory) :
    (t'.run fresh env m).map Prod.fst = (t.number.run fresh env m).map Prod.fst := by
  obtain ⟨⟨s, head, body⟩, site, first, second, hDistributed⟩ := fission_cases h
  obtain ⟨hNoDeps, hLocals⟩ := hPlain _ hDistributed.found
  obtain rfl : body = .block site (first ++ second) := hDistributed.body
  have hIds := Stmt.nodup_ids_number t
  have hMem := Stmt.mem_of_loopAt hDistributed.found
  have hReplaces := Stmt.replaces_update (v := twoLoops head a b first second) _ hIds hMem
  rw [← Stmt.change_reference, ← Stmt.change_reference, hDistributed.result]
  refine congrFun (hReplaces.change_eq (fun env' => ?_) env) m
  exact change_distributed (Stmt.nodup_loopIds (Stmt.nodup_ids_of_mem hIds hMem)) hLocals hNoDeps
    hDistributed.free hDistributed.bounds a b

/-- The first one of two statements that add to one sum. -/
def tallyFirst : Stmt :=
  .store ⟨2, some "S1"⟩ "sum" [] (.add (.load "sum" []) (.load "x" [.var "i"]))

/-- The second one. -/
def tallySecond : Stmt := .store ⟨3, none⟩ "sum" [] (.add (.load "sum" []) (.var "i"))

/-- A loop around both. -/
def tally : LabelledLoop where
  site := ⟨0, some "L1"⟩
  head := { iter := "i", lower := .int 0, upper := .var "n" }
  body := .block ⟨1, none⟩ [tallyFirst, tallySecond]

theorem tally_preserved :
    fission defaultLevels tally.stmt.number "L1" "S1"
        = .ok (twoLoops tally.head "L1.a" "L1.b" [tallyFirst] [tallySecond], "L1.a", "L1.b")
      ∧ ((twoLoops tally.head "L1.a" "L1.b" [tallyFirst] [tallySecond]).run .blank (fun _ => 2)
          fun _ _ => some 5).map Prod.fst
        = (tally.stmt.number.run .blank (fun _ => 2) fun _ _ => some 5).map Prod.fst := by
  have hAccepted : fission defaultLevels tally.stmt.number "L1" "S1"
      = .ok (twoLoops tally.head "L1.a" "L1.b" [tallyFirst] [tallySecond], "L1.a", "L1.b") := by
    cbv
  have hPlain : ∀ l, tally.stmt.number.loopAt "L1" = .ok l → Plain l := by
    intro l hFound
    cases hFound
    exact ⟨rfl, rfl⟩
  exact ⟨hAccepted, fission_preserves hAccepted hPlain _ _ _⟩

end Restructure

end LoopNest

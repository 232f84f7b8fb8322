import LoopNest.Proofs.PerfectChains
import LoopNest.Proofs.TurnedNests

/-! # Taking back a new order of a perfect chain

  A request for the old order of a chain is judged by a new analysis, of the nest in the new order. It
  sees the same accesses and tests the same pairs (`Turn.exists_pair`), and each vector of a pair
  passes its test as it did in the old order (`Turn.mayConflict_eq`). But it may still find vectors that
  the first analysis had lost:

  * a vector is refined level by level, from the outermost one, and lost as soon as one of its
    beginnings is ruled out. In another order it has other beginnings;
  * of an access with itself only vectors that point forwards count, since the reverse of a vector is
    tried as well. In another order it is the reverse that counts;
  * a sum that leaves the word on its way counts as unbounded, and whether it does so may depend on the
    order of the terms.

  None of this happens in an impartial nest (`Nest.Impartial`). There what one order allows, the other
  one allows too, and a request for the old order is accepted. -/

namespace LoopNest

open LoopNest.Affine (Form)

/-! ## Vectors that are tried -/

namespace Nest

variable {n : Nest} {p : Pair} {dirs : List Direction}

/-- A vector that refinement tries when nothing is ruled out: entries are known, and levels on which
    the accesses can only meet in the same iteration have `eq`. -/
def Tried (n : Nest) (p : Pair) (dirs : List Direction) : Prop :=
  List.Forall₂ (fun d f => d ∈ choices f) dirs (n.forcedEqual p)

theorem Tried.reverse (h : n.Tried p dirs) : n.Tried p (dirs.map Direction.reverse) := by
  refine List.forall₂_map_left_iff.mpr (h.imp fun d f hd => ?_)
  cases f <;> cases d <;> simp_all [choices, Direction.reverse]

theorem Tried.known (h : n.Tried p dirs) : ∀ d ∈ dirs, d ≠ .star := by
  intro d hd
  obtain ⟨k, hk, rfl⟩ := List.mem_iff_getElem.mp hd
  have hChoice := h.get hk (h.length_eq ▸ hk)
  exact ne_star_of_mem_choices hChoice

/-- What refinement reaches has been tried. -/
theorem tried_of_mem_refine {r : List Direction} : ∀ (flags : List Bool) (fixed : List Direction),
    r ∈ n.refine p fixed flags →
      ∃ s, r = n.padded p (fixed ++ s) ∧ List.Forall₂ (fun d f => d ∈ choices f) s flags := by
  intro flags
  induction flags with
  | nil =>
    intro fixed hr
    rw [refine] at hr
    split at hr
    · exact ⟨[], by rw [List.mem_singleton.mp hr, List.append_nil], .nil⟩
    · cases hr
  | cons f flags ih =>
    intro fixed hr
    rw [refine] at hr
    split at hr
    · obtain ⟨d, hd, hr⟩ := List.mem_flatMap.mp hr
      obtain ⟨s, hs, hChoices⟩ := ih (fixed ++ [d]) hr
      exact ⟨d :: s, by rw [hs, List.append_assoc, List.singleton_append], .cons hd hChoices⟩
    · cases hr

/-- The levels of a pair are all around both accesses, and all of them are refined. -/
structure Full (n : Nest) (p : Pair) : Prop where
  common : p.common = n.levels.length
  refined : n.levels.length ≤ n.maxLevels

theorem Full.length_forcedEqual (h : n.Full p) : (n.forcedEqual p).length = n.levels.length := by
  rw [forcedEqual, List.length_map, List.length_take, h.common, Nat.min_self]

theorem Full.length_tried (h : n.Full p) (hTried : n.Tried p dirs) :
    dirs.length = n.levels.length := by
  rw [hTried.length_eq, h.length_forcedEqual]

theorem Full.padded_eq (h : n.Full p) (hLength : dirs.length = n.levels.length) :
    n.padded p dirs = dirs := by
  simp [padded, h.common, hLength]

theorem Full.flags_eq (h : n.Full p) : (n.forcedEqual p).take n.maxLevels = n.forcedEqual p :=
  List.take_of_length_le (by rw [h.length_forcedEqual]; exact h.refined)

/-- A vector that is found has been tried and passes the test. -/
theorem Full.of_mem_vectors (h : n.Full p) (hDirs : dirs ∈ n.vectors p) :
    n.Tried p dirs ∧ n.mayConflict p dirs = true := by
  refine ⟨?_, (of_mem_refine _ _ hDirs).1⟩
  rw [vectors, h.flags_eq] at hDirs
  obtain ⟨s, rfl, hTried⟩ := tried_of_mem_refine _ _ hDirs
  rwa [List.nil_append, h.padded_eq (h.length_tried hTried)]

/-- A vector is found when it is tried and all of its beginnings pass the test. -/
theorem Full.mem_vectors (h : n.Full p) (hTried : n.Tried p dirs)
    (hTest : ∀ j, n.mayConflict p (n.padded p (dirs.take j)) = true) : dirs ∈ n.vectors p := by
  have hLength := h.length_tried hTried
  have hMem := mem_refine hTest (n.forcedEqual p) 0 fun i f hf => by
    obtain ⟨hi, rfl⟩ := List.getElem?_eq_some_iff.mp hf
    have hi' : i < dirs.length := hTried.length_eq ▸ hi
    refine ⟨dirs[i], ?_, hTried.get hi' hi⟩
    rw [Nat.zero_add, List.getElem?_eq_getElem hi']
  rw [Nat.zero_add, ← hTried.length_eq, List.take_length, h.padded_eq hLength] at hMem
  rwa [vectors, h.flags_eq]

/-! ## Impartial nests -/

/-- Two accesses whose test does not depend on the order of the levels. For every vector that is tried:

    * **kept**: when it passes the test, so do its beginnings, in which the levels further inside are
      open. No vector is lost before it is complete;
    * **turned**: when two iterations of one access pass the test, they do so in either order;
    * **orderless**: the range test gives the same answer in whatever order the terms are summed up. -/
structure Impartial (n : Nest) (p : Pair) : Prop where
  kept : ∀ dirs, n.Tried p dirs → n.mayConflict p dirs = true →
    ∀ j, n.mayConflict p (n.padded p (dirs.take j)) = true
  turned : p.a.position = p.b.position → ∀ dirs, n.Tried p dirs → n.mayConflict p dirs = true →
    n.mayConflict p (dirs.map Direction.reverse) = true
  orderless : ∀ dirs, n.Tried p dirs → ∀ x y f, (x, y) ∈ p.a.indices.zip p.b.indices →
    subscriptDifference? (firstIterators p.a.loops)
      (n.secondIterators p dirs (firstIterators p.a.loops)) x y = some f → n.Orderless p f

end Nest

/-! ## Sums that stay in the word -/

/-- Whether no sum of a constant and some ends of intervals can leave the word. -/
def hasRoom (v : Int) (ends : List (Option Int)) : Bool :=
  v.natAbs + (ends.map fun e => (e.getD 0).natAbs).sum ≤ Word.greatest.natAbs

/-- With room the ends of intervals are summed up to their sum. -/
theorem foldl_addEnd {ends : List (Option Int)} {v : Int} (h : hasRoom v ends = true) :
    ends.foldl Affine.Interval.addEnd (some v)
      = if ends.all Option.isSome then some (v + (ends.map (·.getD 0)).sum) else none := by
  replace h := of_decide_eq_true h
  induction ends generalizing v with
  | nil => simp
  | cons e ends ih =>
    cases e with
    | none =>
      -- an open end stays open
      have hNone : ends.foldl Affine.Interval.addEnd none = none := by
        clear h ih
        induction ends with
        | nil => rfl
        | cons e ends ih => exact ih
      simpa [Affine.Interval.addEnd] using hNone
    | some w =>
      simp only [List.map_cons, List.sum_cons, Option.getD_some] at h ⊢
      have hFits : Word.fits (v + w) = true := by
        rw [Word.fits_iff]
        simp only [Word.least, Word.greatest] at h ⊢
        omega
      have hSum : Affine.Interval.addEnd (some v) (some w) = some (v + w) :=
        Word.add?_eq_some.mpr ⟨hFits, rfl⟩
      rw [List.foldl_cons, hSum, ih (by omega)]
      simp [Int.add_assoc]

/-- Sums of the same ends in another order are the same. -/
theorem foldl_addEnd_perm {ends ends' : List (Option Int)} {v : Int} (hPerm : ends.Perm ends')
    (h : hasRoom v ends = true) :
    ends.foldl Affine.Interval.addEnd (some v) = ends'.foldl Affine.Interval.addEnd (some v) := by
  have h' : hasRoom v ends' = true := by
    rwa [hasRoom, ← (hPerm.map fun e => (e.getD 0).natAbs).sum_nat]
  rw [foldl_addEnd h, foldl_addEnd h', hPerm.all_eq, (hPerm.map (·.getD 0)).sum_eq]

namespace Nest

/-- The ends that the range test sums up: the multiples of the ranges of the unknowns. -/
def reaches (n : Nest) (p : Pair) (terms : List (Unknown × Int)) : List Affine.Interval :=
  terms.map fun t => (n.rangeOf p t.1).scale t.2

theorem rangeTest_eq_foldl (n : Nest) (p : Pair) (constant : Int) (terms : List (Unknown × Int)) :
    n.rangeTest p constant terms = Affine.Interval.containsZero
      ⟨((n.reaches p terms).map (·.lo)).foldl Affine.Interval.addEnd (some constant),
        ((n.reaches p terms).map (·.hi)).foldl Affine.Interval.addEnd (some constant)⟩ := by
  have hSpread : ∀ start : Affine.Interval, Affine.spread start (terms.map (·.2))
      (terms.map fun t => n.rangeOf p t.1)
      = ⟨((n.reaches p terms).map (·.lo)).foldl Affine.Interval.addEnd start.lo,
        ((n.reaches p terms).map (·.hi)).foldl Affine.Interval.addEnd start.hi⟩ := by
    induction terms with
    | nil => exact fun _ => rfl
    | cons t terms ih => exact fun start => ih _
  exact congrArg Affine.Interval.containsZero (hSpread (.point constant))

/-- **Orderless sums**: when no sum can leave the word, their order does not matter. -/
theorem orderless_of_hasRoom {n : Nest} {p : Pair} {f : Form Unknown}
    (hLow : hasRoom f.constant ((n.reaches p f.terms).map (·.lo)) = true)
    (hHigh : hasRoom f.constant ((n.reaches p f.terms).map (·.hi)) = true) : n.Orderless p f := by
  intro terms hPerm
  have hReaches : (n.reaches p f.terms).Perm (n.reaches p terms) := (hPerm.map _).symm
  rw [rangeTest_eq_foldl, rangeTest_eq_foldl,
    foldl_addEnd_perm (hReaches.map (·.lo)) hLow, foldl_addEnd_perm (hReaches.map (·.hi)) hHigh]

/-! ## Checking -/

/-- The vectors that are tried on levels with and without an assertion. -/
def trials : List Bool → List (List Direction)
  | [] => [[]]
  | f :: flags => (choices f).flatMap fun d => (trials flags).map (d :: ·)

theorem mem_trials {dirs : List Direction} {flags : List Bool}
    (h : List.Forall₂ (fun d f => d ∈ choices f) dirs flags) : dirs ∈ trials flags := by
  induction h with
  | nil => exact List.mem_singleton_self _
  | cons hd _ ih => exact List.mem_flatMap.mpr ⟨_, hd, List.mem_map_of_mem ih⟩

/-- Goes through all vectors of two accesses and looks whether their test depends on the order of the
    levels. -/
def isImpartial (n : Nest) (p : Pair) : Bool :=
  let first := firstIterators p.a.loops
  (trials (n.forcedEqual p)).all fun dirs =>
    (!n.mayConflict p dirs
      || ((List.range (dirs.length + 1)).all fun j => n.mayConflict p (n.padded p (dirs.take j)))
        && (p.a.position != p.b.position || n.mayConflict p (dirs.map Direction.reverse)))
    && (p.a.indices.zip p.b.indices).all fun e =>
      (subscriptDifference? first (n.secondIterators p dirs first) e.1 e.2).all fun f =>
        hasRoom f.constant ((n.reaches p f.terms).map (·.lo))
          && hasRoom f.constant ((n.reaches p f.terms).map (·.hi))

theorem impartial_of_isImpartial {n : Nest} {p : Pair} (h : n.isImpartial p = true) :
    n.Impartial p := by
  have hEach : ∀ dirs, n.Tried p dirs → _ := fun dirs hTried =>
    Bool.and_eq_true_iff.mp (List.all_eq_true.mp h dirs (mem_trials hTried))
  have hPassed : ∀ dirs, n.Tried p dirs → n.mayConflict p dirs = true →
      (∀ j ∈ List.range (dirs.length + 1), n.mayConflict p (n.padded p (dirs.take j)) = true)
        ∧ (p.a.position != p.b.position || n.mayConflict p (dirs.map Direction.reverse)) = true := by
    intro dirs hTried hTest
    have hHere := (hEach dirs hTried).1
    rw [hTest, Bool.not_true, Bool.false_or, Bool.and_eq_true, List.all_eq_true] at hHere
    exact hHere
  refine ⟨fun dirs hTried hTest j => ?_, fun hSame dirs hTried hTest => ?_,
    fun dirs hTried x y f hMem hForm => ?_⟩
  · -- beginnings longer than the vector are the vector
    have hWhole : dirs.take j = dirs.take (min j dirs.length) := by rw [List.take_eq_take_min]
    rw [hWhole]
    exact (hPassed dirs hTried hTest).1 _ (List.mem_range.mpr (by omega))
  · have hTurned := (hPassed dirs hTried hTest).2
    rwa [hSame, bne_self_eq_false, Bool.false_or] at hTurned
  · have hForms := List.all_eq_true.mp (hEach dirs hTried).2 (x, y) hMem
    dsimp only at hForms
    rw [hForm, Option.all_some, Bool.and_eq_true] at hForms
    exact orderless_of_hasRoom hForms.1 hForms.2

end Nest

namespace Restructure

variable {σ π : Equiv.Perm Nat} {loops loops' : List (Site × LoopHead)} {body : Stmt}

/-! ## Accesses of a body -/

/-- An access of a body, and the same access below other loops.

    * **around**: the levels are around it, and then other loops;
    * **depth**: what is declared in the body is declared below all levels. -/
structure Reseated (loops loops' : List (Site × LoopHead)) (x x' : Access) : Prop where
  same : x' = { x with loops := x'.loops }
  around : ∃ inner, x.loops = enclosing loops ++ inner ∧ x'.loops = enclosing loops' ++ inner
    ∧ ∀ l ∈ inner, l.id ∉ loops.map (·.1.id)
  depth : ∀ d, x.declDepth = some d → loops.length ≤ d

theorem forall₂_reads {R : Access → Access → Prop} {s s' : Scope} (stmt : Nat)
    (reduced : Option (String × ReduceOp)) (e : Expr)
    (h : ∀ op b is, R (s.access .read stmt op b is) (s'.access .read stmt op b is)) :
    List.Forall₂ R (s.reads stmt reduced e) (s'.reads stmt reduced e) := by
  refine List.rel_filterMap (R := Eq) ?_ (List.forall₂_eq_eq_eq ▸ rfl)
  rintro part _ rfl
  cases part with
  | load b is => exact .some (h _ b is)
  | _ => exact .none

theorem reseated_access {inner : List Enclosing} {decls : List (String × Nat)}
    (hInner : ∀ l ∈ inner, l.id ∉ loops.map (·.1.id)) (hDecls : ∀ d ∈ decls, loops.length ≤ d.2)
    (kind : AccessKind) (stmt : Nat) (op : Option ReduceOp) (b : String)
    (is : List Expr) : Reseated loops loops'
      (Scope.access ⟨enclosing loops ++ inner, decls⟩ kind stmt op b is)
      (Scope.access ⟨enclosing loops' ++ inner, decls⟩ kind stmt op b is) := by
  refine ⟨rfl, ⟨inner, rfl, rfl, hInner⟩, fun d hd => ?_⟩
  obtain ⟨before, after, hSplit, _⟩ := List.lookup_eq_some_iff.mp hd
  exact hDecls (b, d) (by simp [show decls = _ from hSplit])

/-- The accesses of a body below the levels in either order. By induction on the body: its own loops
    have other numbers than the levels, so they come after them in both scopes. -/
theorem forall₂_accessesIn (hLength : loops'.length = loops.length) :
    ∀ (t : Stmt) (inner : List Enclosing) (decls : List (String × Nat)),
      (∀ i ∈ t.loopIds, i ∉ loops.map (·.1.id)) → (∀ l ∈ inner, l.id ∉ loops.map (·.1.id)) →
      (∀ d ∈ decls, loops.length ≤ d.2) →
        List.Forall₂ (Reseated loops loops') (t.accessesIn ⟨enclosing loops ++ inner, decls⟩)
          (t.accessesIn ⟨enclosing loops' ++ inner, decls⟩) := by
  refine Stmt.ind ?decl ?loop ?guard ?branch ?store ?call ?block ?hole
  case decl =>
    intro s n b body ih inner decls hIds hInner hDecls
    rw [Stmt.loopIds_decl] at hIds
    have hSame : (enclosing loops' ++ inner).length = (enclosing loops ++ inner).length := by
      simp [enclosing, hLength]
    rw [Stmt.accessesIn, Stmt.accessesIn]
    dsimp only
    rw [hSame]
    refine ih inner _ hIds hInner (List.forall_mem_cons.mpr ⟨?_, hDecls⟩)
    simp [enclosing]
  case loop =>
    intro s head body ih inner decls hIds hInner hDecls
    rw [Stmt.loopIds_loop] at hIds
    obtain ⟨hSite, hBody⟩ := List.forall_mem_cons.mp hIds
    rw [Stmt.accessesIn, Stmt.accessesIn]
    refine List.rel_append (List.rel_append (forall₂_reads _ _ _ (reseated_access hInner hDecls _ _))
      (forall₂_reads _ _ _ (reseated_access hInner hDecls _ _))) ?_
    have hBelow := ih (inner ++ [⟨s.id, head⟩]) decls hBody (by
      intro l hl
      rcases List.mem_append.mp hl with hl | hl
      · exact hInner l hl
      · rw [List.mem_singleton.mp hl]
        exact hSite) hDecls
    rwa [← List.append_assoc, ← List.append_assoc] at hBelow
  case guard =>
    intro s e body ih inner decls hIds hInner hDecls
    rw [Stmt.loopIds_guard] at hIds
    rw [Stmt.accessesIn, Stmt.accessesIn]
    exact List.rel_append (forall₂_reads _ _ _ (reseated_access hInner hDecls _ _))
      (ih inner decls hIds hInner hDecls)
  case branch =>
    intro s e yes no ihYes ihNo inner decls hIds hInner hDecls
    rw [Stmt.loopIds_branch] at hIds
    rw [Stmt.accessesIn, Stmt.accessesIn]
    exact List.rel_append (List.rel_append (forall₂_reads _ _ _ (reseated_access hInner hDecls _ _))
      (ihYes inner decls (fun i hi => hIds i (List.mem_append_left _ hi)) hInner hDecls))
      (ihNo inner decls (fun i hi => hIds i (List.mem_append_right _ hi)) hInner hDecls)
  case store =>
    intro s b is v inner decls _ hInner hDecls
    rw [Stmt.accessesIn, Stmt.accessesIn]
    refine List.rel_append (List.rel_append ?_ (forall₂_reads _ _ _ (reseated_access hInner hDecls _ _)))
      (.cons (reseated_access hInner hDecls _ _ _ _ _) .nil)
    refine List.rel_flatMap (R := Eq) (List.forall₂_eq_eq_eq ▸ rfl) ?_
    rintro e _ rfl
    exact forall₂_reads _ _ _ (reseated_access hInner hDecls _ _)
  case call => exact fun _ _ _ _ _ _ _ _ => .nil
  case block =>
    intro s ts ih inner decls hIds hInner hDecls
    rw [Stmt.loopIds_block] at hIds
    rw [Stmt.accessesIn, Stmt.accessesIn, Stmt.accessesInAll_eq_flatMap,
      Stmt.accessesInAll_eq_flatMap]
    have hEach : ∀ us : List Stmt, (∀ u ∈ us, u ∈ ts) → List.Forall₂ (Reseated loops loops')
        (us.flatMap (Stmt.accessesIn ⟨enclosing loops ++ inner, decls⟩))
        (us.flatMap (Stmt.accessesIn ⟨enclosing loops' ++ inner, decls⟩)) := by
      intro us
      induction us with
      | nil => exact fun _ => .nil
      | cons u us ihRest =>
        intro hMem
        obtain ⟨hu, hRest⟩ := List.forall_mem_cons.mp hMem
        rw [List.flatMap_cons, List.flatMap_cons]
        exact List.rel_append (ih u hu inner decls
          (fun i hi => hIds i (List.mem_flatMap.mpr ⟨u, hu, hi⟩)) hInner hDecls) (ihRest hRest)
    exact hEach ts fun _ hu => hu
  case hole => exact fun _ _ _ _ _ _ => .nil

/-! ## Accesses of a nest -/

/-- The reads of the bounds of loops. -/
def boundReads (s : Scope) : List (Site × LoopHead) → List Access
  | [] => []
  | l :: loops => s.reads l.1.id none l.2.lower ++ s.reads l.1.id none l.2.upper
      ++ boundReads { s with loops := s.loops ++ [⟨l.1.id, l.2⟩] } loops

theorem accessesIn_nestOf (body : Stmt) : ∀ (loops : List (Site × LoopHead)) (s : Scope),
    (nestOf loops body).accessesIn s
      = boundReads s loops ++ body.accessesIn { s with loops := s.loops ++ enclosing loops } := by
  intro loops
  induction loops with
  | nil =>
    intro s
    simp [nestOf, boundReads, enclosing]
  | cons l loops ih =>
    intro s
    show (Stmt.loop l.1 l.2 (nestOf loops body)).accessesIn s = _
    rw [Stmt.accessesIn, ih, boundReads]
    simp [enclosing]

/-- The bounds read nothing that the nest writes. -/
theorem of_mem_boundReads {a : Access} : ∀ {loops : List (Site × LoopHead)} {s : Scope},
    a ∈ boundReads s loops →
      a.kind = .read ∧ ∃ l ∈ loops, ∃ e ∈ [l.2.lower, l.2.upper], e.reads a.buffer = true := by
  intro loops
  induction loops with
  | nil => exact fun h => absurd h List.not_mem_nil
  | cons l loops ih =>
    intro s h
    have hHere : ∀ {e : Expr}, a ∈ s.reads l.1.id none e →
        a.kind = .read ∧ e.reads a.buffer = true := by
      intro e he
      obtain ⟨b, is, hPart, rfl⟩ := Scope.mem_reads.mp he
      exact ⟨rfl, Expr.reads_iff.mpr (Expr.mem_buffers.mpr ⟨is, hPart⟩)⟩
    rw [boundReads, List.mem_append, List.mem_append] at h
    rcases h with (h | h) | h
    · exact ⟨(hHere h).1, l, List.mem_cons_self, _, List.mem_cons_self, (hHere h).2⟩
    · exact ⟨(hHere h).1, l, List.mem_cons_self, l.2.upper, by simp, (hHere h).2⟩
    · obtain ⟨hKind, l', hl', hReads⟩ := ih h
      exact ⟨hKind, l', List.mem_cons_of_mem l hl', hReads⟩

/-- How many reads the bounds have depends on the heads alone. -/
theorem length_boundReads : ∀ (loops : List (Site × LoopHead)) (s : Scope),
    (boundReads s loops).length
      = (loops.map fun l => ((Scope.reads {} 0 none l.2.lower).length
          + (Scope.reads {} 0 none l.2.upper).length)).sum := by
  have hCount : ∀ (s : Scope) (stmt : Nat) (e : Expr),
      (s.reads stmt none e).length = (Scope.reads {} 0 none e).length := by
    intro s stmt e
    unfold Scope.reads
    rw [List.length_filterMap_eq_countP, List.length_filterMap_eq_countP]
    congr 1
    funext part
    cases part <;> rfl
  intro loops
  induction loops with
  | nil => exact fun _ => rfl
  | cons l loops ih =>
    intro s
    rw [boundReads, List.length_append, List.length_append, ih, hCount s _ l.2.lower,
      hCount s _ l.2.upper, List.map_cons, List.sum_cons]

theorem Turn.length_boundReads_eq (h : Turn σ π loops loops') (s : Scope) :
    (boundReads s loops').length = (boundReads s loops).length := by
  rw [length_boundReads, length_boundReads]
  have hCounts := (h.heads.map fun head => (Scope.reads {} 0 none head.lower).length
    + (Scope.reads {} 0 none head.upper).length).sum_nat
  rwa [List.map_map, List.map_map] at hCounts

/-- An access at a place among all accesses. -/
def placed (a : Access × Nat) : Access := { a.1 with position := a.2 }

theorem forall₂_placed {xs xs' : List Access} (h : List.Forall₂ (Reseated loops loops') xs xs') :
    ∀ i, List.Forall₂ (Reseated loops loops') ((xs.zipIdx i).map placed)
      ((xs'.zipIdx i).map placed) := by
  induction h with
  | nil => exact fun _ => .nil
  | @cons x x' _ _ hHead _ ih =>
    intro i
    rw [List.zipIdx_cons, List.zipIdx_cons, List.map_cons, List.map_cons]
    refine .cons ⟨?_, hHead.around, hHead.depth⟩ (ih (i + 1))
    unfold placed
    dsimp only
    rw [hHead.same]

/-- The accesses of a nest are those of its bounds, which conflict with nothing, and those of its
    body. -/
theorem accesses_nestOf (loops : List (Site × LoopHead)) (body : Stmt) :
    (nestOf loops body).accesses = ((boundReads {} loops).zipIdx).map placed
      ++ ((body.accessesIn ⟨enclosing loops, []⟩).zipIdx (boundReads {} loops).length).map placed := by
  have hPlaced : (nestOf loops body).accesses
      = (((nestOf loops body).accessesIn {}).zipIdx).map placed := rfl
  rw [hPlaced, accessesIn_nestOf, List.zipIdx_append, List.map_append, Nat.zero_add]
  rfl

/-- Conflicting accesses of a nest are accesses of its body. -/
theorem pairOf_body (hAvoid : BoundsAvoid (nestOf loops body) loops) {same : Bool} {x y : Access}
    (hPair : PairOf (nestOf loops body).accesses same x y)
    (hConflict : Nest.conflicting x y = true) :
    PairOf (((body.accessesIn ⟨enclosing loops, []⟩).zipIdx (boundReads {} loops).length).map placed)
      same x y := by
  have hWritten : ∀ {a : Access}, a ∈ (nestOf loops body).accesses → a.kind = .write →
      a.buffer ∈ (nestOf loops body).written := by
    intro a ha hKind
    unfold Stmt.written sortedNames
    rw [List.mem_eraseDups, List.mem_mergeSort]
    exact List.mem_map_of_mem (List.mem_filter.mpr ⟨ha, by simp [hKind]⟩)
  obtain ⟨hBuffer, hWrite⟩ := Nest.conflicting_iff.mp hConflict
  obtain ⟨hx, hy⟩ := hPair.mem
  -- what a bound reads is not written, so it is in no conflicting pair
  have hNotRead : ∀ {a b : Access}, b ∈ (nestOf loops body).accesses → a.buffer = b.buffer →
      a.kind = .write ∨ b.kind = .write → a ∉ ((boundReads {} loops).zipIdx).map placed := by
    intro a b hb hSame hKinds ha
    obtain ⟨⟨a, i⟩, hPlace, rfl⟩ := List.mem_map.mp ha
    obtain ⟨hRead, l, hl, e, he, hReads⟩ := of_mem_boundReads (List.fst_mem_of_mem_zipIdx hPlace)
    have hKind : b.kind = .write := hKinds.resolve_left fun h => nomatch hRead.symm.trans h
    have hNone := hAvoid l hl e he b.buffer (hWritten hb hKind)
    exact absurd (hReads.symm.trans ((congrArg e.reads hSame).trans hNone)) (by simp)
  rw [accesses_nestOf, ← List.nil_append (_ ++ _)] at hPair
  exact hPair.drop_middle (hNotRead hy hBuffer hWrite) (hNotRead hx hBuffer.symm hWrite.symm)

/-! ## Pairs in either order -/

theorem exists_of_forall₂ {α β : Type} {R : α → β → Prop} {xs : List α} {ys : List β}
    (h : List.Forall₂ R xs ys) {i : Nat} {y : β} (hy : ys[i]? = some y) :
    ∃ x, xs[i]? = some x ∧ R x y := by
  obtain ⟨hi, rfl⟩ := List.getElem?_eq_some_iff.mp hy
  have hi' : i < xs.length := h.length_eq ▸ hi
  exact ⟨xs[i], List.getElem?_eq_getElem hi', h.get hi' hi⟩

/-- Conflicting accesses in the new order are two accesses in the old one. -/
theorem Turn.exists_pair (h : Turn σ π loops loops')
    (hBody : ∀ i ∈ body.loopIds, i ∉ loops.map (·.1.id))
    (hAvoid : BoundsAvoid (nestOf loops' body) loops') {same : Bool} {x' y' : Access}
    (hPair : PairOf (nestOf loops' body).accesses same x' y')
    (hConflict : Nest.conflicting x' y' = true) :
    ∃ x y, PairOf (nestOf loops body).accesses same x y ∧ Reseated loops loops' x x'
      ∧ Reseated loops loops' y y' := by
  have hSeated := forall₂_accessesIn h.length_eq body [] [] hBody (by simp) (by simp)
  rw [List.append_nil, List.append_nil] at hSeated
  have hPlaced := forall₂_placed hSeated (boundReads {} loops).length
  obtain ⟨i, j, hi, hj, hij, rfl⟩ := pairOf_iff.mp (pairOf_body hAvoid hPair hConflict)
  rw [h.length_boundReads_eq] at hi hj
  obtain ⟨x, hx, hSeatedX⟩ := exists_of_forall₂ hPlaced hi
  obtain ⟨y, hy, hSeatedY⟩ := exists_of_forall₂ hPlaced hj
  refine ⟨x, y, ?_, hSeatedX, hSeatedY⟩
  have hOld := pairOf_iff.mpr ⟨i, j, hx, hy, hij, rfl⟩
  rw [accesses_nestOf]
  generalize (i == j) = same at hOld ⊢
  cases hOld with
  | same hMem => exact .same (List.mem_append_right _ hMem)
  | apart hSub => exact .apart (hSub.trans (List.sublist_append_right _ _))

section pairs

variable {maxLevels : Nat} {x y x' y' : Access} {more inner : List Enclosing}

theorem commonLevels_analysed (hx : x.loops = enclosing loops ++ more)
    (hy : y.loops = enclosing loops ++ inner) :
    (analysed maxLevels loops).commonLevels x y = loops.length := by
  have hAround : ∀ {a : Access} {rest : List Enclosing}, a.loops = enclosing loops ++ rest →
      ∀ l ∈ loops, a.loops.any (·.id == l.1.id) = true := by
    intro a rest ha l hl
    rw [ha, List.any_append, Bool.or_eq_true]
    exact .inl (List.any_eq_true.mpr ⟨⟨l.1.id, l.2⟩, List.mem_map_of_mem hl, beq_self_eq_true _⟩)
  have hAll : (analysed maxLevels loops).levels.takeWhile (fun l =>
      x.loops.any (·.id == l.id) && y.loops.any (·.id == l.id))
        = (analysed maxLevels loops).levels := by
    rw [List.takeWhile_eq_self_iff]
    intro l hl
    obtain ⟨l', hl', rfl⟩ := List.mem_map.mp hl
    exact Bool.and_eq_true_iff.mpr ⟨hAround hx l' hl', hAround hy l' hl'⟩
  unfold Nest.commonLevels
  rw [hAll]
  exact List.length_map _

/-- A level is around what the body declares. -/
theorem declaredInside_eq (hx : x.loops = enclosing loops ++ more)
    (hDepth : ∀ d, x.declDepth = some d → loops.length ≤ d) {l : Site × LoopHead} (hl : l ∈ loops) :
    Nest.declaredInside (l.2.level l.1.id) x = x.declDepth.isSome := by
  unfold Nest.declaredInside
  cases hd : x.declDepth with
  | none => rfl
  | some d =>
    have hLength : (enclosing loops).length ≤ d := by
      rw [enclosing, List.length_map]
      exact hDepth d hd
    have hMem : (⟨l.1.id, l.2⟩ : Enclosing) ∈ x.loops.take d := by
      rw [hx, List.take_append, List.take_of_length_le hLength]
      exact List.mem_append_left _ (List.mem_map_of_mem hl)
    exact List.any_eq_true.mpr ⟨_, hMem, beq_self_eq_true _⟩

/-- The levels on which two accesses of the body can only meet in the same iteration. -/
theorem forcedEqual_eq (maxLevels : Nat) {p : Pair} (hp : InBody loops more inner p)
    (hFirst : ∀ d, p.a.declDepth = some d → loops.length ≤ d)
    (hSecond : ∀ d, p.b.declDepth = some d → loops.length ≤ d) :
    (analysed maxLevels loops).forcedEqual p = loops.map fun l =>
      l.2.noDeps.contains p.a.buffer || (p.a.declDepth.isSome && p.b.declDepth.isSome) := by
  have hLevels : (analysed maxLevels loops).levels.take p.common
      = loops.map fun l => l.2.level l.1.id := by
    rw [hp.common]
    exact List.take_of_length_le (by simp [analysed])
  unfold Nest.forcedEqual
  rw [hLevels, List.map_map]
  refine List.map_congr_left fun l hl => ?_
  rw [Function.comp_apply, declaredInside_eq hp.first hFirst hl,
    declaredInside_eq hp.second hSecond hl]
  rfl

/-- A vector that is tried in the new order is one that was tried in the old order. -/
theorem Turn.exists_tried (h : Turn σ π loops loops') {p p' : Pair} (hp : InBody loops more inner p)
    (hp' : InBody loops' more inner p') (hx : Reseated loops loops' p.a p'.a)
    (hy : Reseated loops loops' p.b p'.b) {dirs' : List Direction}
    (hTried : (analysed maxLevels loops').Tried p' dirs') :
    ∃ dirs, Rearranged π loops.length dirs dirs' ∧ (analysed maxLevels loops).Tried p dirs := by
  have hBuffer : p'.a.buffer = p.a.buffer := by rw [hx.same]
  have hDeclA : p'.a.declDepth = p.a.declDepth := by rw [hx.same]
  have hDeclB : p'.b.declDepth = p.b.declDepth := by rw [hy.same]
  have hFlags := forcedEqual_eq maxLevels hp hx.depth hy.depth
  have hFlags' := forcedEqual_eq maxLevels hp'
    (fun d hd => h.length_eq ▸ hx.depth d (hDeclA ▸ hd))
    (fun d hd => h.length_eq ▸ hy.depth d (hDeclB ▸ hd))
  rw [hBuffer, hDeclA, hDeclB] at hFlags'
  have hLength' : dirs'.length = loops.length := by
    rw [hTried.length_eq, hFlags', List.length_map, h.length_eq]
  -- each level takes the entry of its new level
  let dirs := (List.range loops.length).map fun k => dirs'.getD (π k) .star
  have hEntry : ∀ k, k < loops.length → dirs[k]? = dirs'[π k]? := by
    intro k hk
    have hSeat : π k < dirs'.length := hLength' ▸ (h.inside k).mpr hk
    simp only [dirs, List.getElem?_map, List.getElem?_range hk, Option.map_some,
      List.getD_eq_getElem?_getD, List.getElem?_eq_getElem hSeat, Option.getD_some]
  have hEach : ∀ k d, dirs[k]? = some d → k < loops.length ∧ dirs'[π k]? = some d := by
    intro k d hd
    have hk : k < loops.length := by simpa [dirs] using (List.getElem?_eq_some_iff.mp hd).1
    exact ⟨hk, (hEntry k hk).symm.trans hd⟩
  refine ⟨dirs, ⟨by simp [dirs], hLength', ?_, fun k hk => (hEntry k hk).symm⟩, ?_⟩
  · intro d hd
    obtain ⟨k, hk⟩ := List.mem_iff_getElem?.mp hd
    exact hTried.known d (List.mem_of_getElem? (hEach k d hk).2)
  · unfold Nest.Tried
    rw [hFlags, List.forall₂_map_right_iff, List.forall₂_iff_get]
    refine ⟨by simp [dirs], fun k hk hl => ?_⟩
    obtain ⟨hLess, hd⟩ := hEach k _ (List.getElem?_eq_getElem hk)
    obtain ⟨l', hl', _, hHead⟩ := h.seats k _ (List.getElem?_eq_getElem hl)
    unfold Nest.Tried at hTried
    rw [hFlags', List.forall₂_map_right_iff] at hTried
    obtain ⟨d, hd', hChoice⟩ := exists_of_forall₂ hTried hl'
    obtain rfl := Option.some.inj (hd.symm.trans hd')
    rwa [hHead] at hChoice

/-- Pairs of one reduction are pairs of that reduction in either order. -/
theorem Turn.reductionPair?_eq (h : Turn σ π loops loops') (hx : Reseated loops loops' x x')
    (hy : Reseated loops loops' y y') : (analysed maxLevels loops').reductionPair? x' y'
      = (analysed maxLevels loops).reductionPair? x y := by
  have hMentions : ∀ e : Expr, ((analysed maxLevels loops').levels.any fun l => e.mentions l.iter)
      = (analysed maxLevels loops).levels.any fun l => e.mentions l.iter := by
    intro e
    have hHeads : ∀ ls : List (Site × LoopHead), ((analysed maxLevels ls).levels.any fun l =>
        e.mentions l.iter) = (ls.map (·.2)).any fun head => e.mentions head.iter := by
      intro ls
      rw [analysed, List.any_map, List.any_map]
      rfl
    rw [hHeads, hHeads, h.heads.any_eq]
  have hLevel : ∀ {a a' : Access}, Reseated loops loops' a a' →
      (analysed maxLevels loops').mentionsLevel a' = (analysed maxLevels loops).mentionsLevel a := by
    intro a a' ha
    unfold Nest.mentionsLevel
    rw [show a'.indices = a.indices by rw [ha.same]]
    simp only [hMentions]
  unfold Nest.reductionPair?
  rw [hLevel hx, hLevel hy, show x'.reduction = x.reduction by rw [hx.same],
    show y'.reduction = y.reduction by rw [hy.same]]

end pairs

/-! ## Vectors in either order -/

/-- A vector points forwards when its first entry other than `eq`, if there is one, is `lt`. -/
theorem forward_iff {dirs : List Direction} : Direction.forward dirs = true
    ↔ ∀ d, dirs.find? (· != .eq) = some d → d = .lt := by
  induction dirs with
  | nil => simp [Direction.forward]
  | cons d dirs ih => cases d <;> simp [Direction.forward, ih]

theorem lt_or_gt_of_find? {dirs : List Direction} {d : Direction} (hKnown : ∀ d ∈ dirs, d ≠ .star)
    (h : dirs.find? (· != .eq) = some d) : d = .lt ∨ d = .gt := by
  have hHere := hKnown d (List.mem_of_find?_eq_some h)
  have hOther := List.find?_some h
  cases d <;> simp_all

namespace Rearranged

variable {size : Nat} {dirs dirs' : List Direction}

theorem known' (h : Rearranged π size dirs dirs') (hInside : ∀ k, π k < size ↔ k < size) :
    ∀ d ∈ dirs', d ≠ .star := by
  intro d hd
  obtain ⟨k, hk⟩ := List.mem_iff_getElem?.mp hd
  have hSeat : π (π.symm k) < size := by
    rw [Equiv.apply_symm_apply, ← h.length']
    exact (List.getElem?_eq_some_iff.mp hk).1
  have hEntry := h.entries _ ((hInside _).mp hSeat)
  rw [Equiv.apply_symm_apply, hk] at hEntry
  exact h.known d (List.mem_of_getElem? hEntry.symm)

theorem reverse (h : Rearranged π size dirs dirs') :
    Rearranged π size (dirs.map Direction.reverse) (dirs'.map Direction.reverse) where
  length := by rw [List.length_map, h.length]
  length' := by rw [List.length_map, h.length']
  known d hd := by
    obtain ⟨e, he, rfl⟩ := List.mem_map.mp hd
    have hKnown := h.known e he
    cases e <;> simp_all [Direction.reverse]
  entries k hk := by rw [List.getElem?_map, List.getElem?_map, h.entries k hk]

theorem symm (h : Rearranged π size dirs dirs') (hInside : ∀ k, π k < size ↔ k < size) :
    Rearranged π.symm size dirs' dirs where
  length := h.length'
  length' := h.length
  known := h.known' hInside
  entries k hk := by
    have hEntry := h.entries (π.symm k) ((hInside _).mp (by rwa [Equiv.apply_symm_apply]))
    rw [Equiv.apply_symm_apply] at hEntry
    exact hEntry.symm

/-- The entries of the new vector in the old order. -/
theorem map_apply (h : Rearranged π size dirs dirs') (hInside : ∀ k, π k < size ↔ k < size) :
    ((List.range size).map π).map (fun k => dirs'.getD k .star) = dirs := by
  refine List.ext_getElem? fun k => ?_
  rw [List.map_map, List.getElem?_map]
  by_cases hk : k < size
  · have hSeat : π k < dirs'.length := h.length'.symm ▸ (hInside k).mpr hk
    rw [List.getElem?_range hk, Option.map_some, Function.comp_apply, ← h.entries k hk,
      List.getD_eq_getElem?_getD, List.getElem?_eq_getElem hSeat, Option.getD_some]
  · rw [List.getElem?_eq_none (by simpa using hk), List.getElem?_eq_none (by rw [h.length]; omega)]
    rfl

/-- The entries of the old vector in the new order. -/
theorem map_symm (h : Rearranged π size dirs dirs') (hInside : ∀ k, π k < size ↔ k < size) :
    ((List.range size).map π.symm).map (fun k => dirs.getD k .star) = dirs' :=
  (h.symm hInside).map_apply fun k => by rw [← hInside, Equiv.apply_symm_apply]

end Rearranged

/-! ## What stands against the old order -/

/-- A nest whose analysis does not depend on the order of its levels. -/
def Impartial (maxLevels : Nat) (loops : List (Site × LoopHead)) (body : Stmt) : Prop :=
  ∀ same x y, PairOf (nestOf loops body).accesses same x y → Nest.conflicting x y = true →
    (analysed maxLevels loops).Impartial ⟨x, y, (analysed maxLevels loops).commonLevels x y⟩

theorem impartial_of_all {maxLevels : Nat}
    (h : ((nestOf loops body).accesses.all fun x => (nestOf loops body).accesses.all fun y =>
      !Nest.conflicting x y || (analysed maxLevels loops).isImpartial
        ⟨x, y, (analysed maxLevels loops).commonLevels x y⟩) = true) :
    Impartial maxLevels loops body := by
  intro same x y hPair hConflict
  obtain ⟨hx, hy⟩ := hPair.mem
  have hHere := List.all_eq_true.mp (List.all_eq_true.mp h x hx) y hy
  rw [hConflict, Bool.not_true, Bool.false_or] at hHere
  exact Nest.impartial_of_isImpartial hHere

theorem calls_nestOf (loops : List (Site × LoopHead)) : (nestOf loops body).calls = body.calls := by
  induction loops with
  | nil => rfl
  | cons l loops ih =>
    rw [← ih]
    show (Stmt.loop l.1 l.2 (nestOf loops body)).calls = _
    unfold Stmt.calls
    rw [Stmt.nodes_loop]
    rfl

/-- Without calls, what stands against an order is a vector of two accesses that does not point
    forwards in this order. -/
theorem reorderObstacle?_eq_none {maxLevels : Nat} (hCalls : body.calls = []) {order : List Nat} :
    (nestOf loops body).reorderObstacle? maxLevels (levelsOf loops) order = none
      ↔ ∀ d ∈ (analysed maxLevels loops).among (nestOf loops body).accesses, d.reduction = none →
        Direction.forward (order.map fun k => d.direction.getD k .star) = true := by
  unfold Stmt.reorderObstacle? dependences
  rw [calls_nestOf, hCalls, List.filterMap_nil, List.nil_append, List.find?_eq_none]
  refine forall₂_congr fun d _ => ?_
  rw [← Option.isNone_iff_eq_none]
  cases d.reduction.isNone <;> simp

/-- What an accepted order says of a vector that was found. -/
theorem forward_of_found {maxLevels : Nat} {order : List Nat}
    (hAccepted : ∀ d ∈ (analysed maxLevels loops).among (nestOf loops body).accesses,
      d.reduction = none → Direction.forward (order.map fun k => d.direction.getD k .star) = true)
    {same : Bool} {x y src tgt : Access} (hPair : PairOf (nestOf loops body).accesses same x y)
    (hConflict : Nest.conflicting x y = true)
    (hReduction : (analysed maxLevels loops).reductionPair? x y = none)
    {dirs direction : List Direction} (hDirs : dirs ∈ (analysed maxLevels loops).vectors
      ⟨x, y, (analysed maxLevels loops).commonLevels x y⟩)
    (hOriented : Nest.oriented? x y dirs = some (src, tgt, direction)) :
    Direction.forward (order.map fun k => direction.getD k .star) = true := by
  have hWrite := (Nest.conflicting_iff.mp hConflict).2
  obtain ⟨kind, hKind⟩ : ∃ kind, Nest.kindBetween src.kind tgt.kind = some kind := by
    rcases Nest.oriented?_cases hOriented with ⟨rfl, rfl, _⟩ | ⟨rfl, rfl, _⟩
    · exact Nest.kindBetween_isSome hWrite
    · exact Nest.kindBetween_isSome hWrite.symm
  obtain ⟨i, j, hi, hj, hij, _⟩ := pairOf_iff.mp hPair
  refine hAccepted _ (Nest.mem_among hi hj hij hConflict (List.mem_filterMap.mpr ⟨dirs, hDirs,
    Nest.dependence?_eq_some.mpr ⟨src, tgt, direction, kind, hOriented, hKind, rfl⟩⟩)) hReduction

/-- A vector of two accesses that does not stand against the new order: from source to target it
    points forwards there. -/
def Permits (π : Equiv.Perm Nat) (size : Nat) (x y : Access) (dirs : List Direction) : Prop :=
  ∀ {src tgt direction direction'}, Nest.oriented? x y dirs = some (src, tgt, direction) →
    Rearranged π size direction direction' → Direction.forward direction' = true

/-- **Orientation**: a vector of the new order points forwards in the old order. If it did not, the
    dependence would lead the other way there, and the old vector, or its reverse for one access with
    itself, would stand against the new order. -/
theorem Rearranged.forward_back {size : Nat} {dirs dirs' direction : List Direction}
    {x x' y y' src tgt : Access} (h : Rearranged π size dirs dirs')
    (hInside : ∀ k, π k < size ↔ k < size)
    (hPlaces : (x'.position == y'.position) = (x.position == y.position))
    (hFound : Permits π size x y dirs)
    (hTurned : x.position = y.position → Permits π size x y (dirs.map Direction.reverse))
    (hOriented : Nest.oriented? x' y' dirs' = some (src, tgt, direction)) :
    Direction.forward (((List.range size).map π).map fun k => direction.getD k .star) = true := by
  unfold Nest.oriented? at hOriented
  rw [hPlaces] at hOriented
  dsimp only at hOriented
  split at hOriented
  · -- backwards in the new order, so the dependence leads from the second access to the first one
    rename_i hFind'
    split at hOriented
    · cases hOriented
    · cases hOriented
      rw [h.reverse.map_apply hInside, forward_iff, Nest.find?_reverse]
      intro e he
      obtain ⟨e, hFind, rfl⟩ := Option.map_eq_some_iff.mp he
      rcases lt_or_gt_of_find? h.known hFind with rfl | rfl
      · have hOld : Nest.oriented? x y dirs = some (x, y, dirs) := by
          unfold Nest.oriented?
          rw [hFind]
        exact absurd (forward_iff.mp (hFound hOld h) _ hFind') (by decide)
      · rfl
  · -- within one iteration
    rename_i hFind'
    split at hOriented
    · cases hOriented
    · cases hOriented
      rw [h.map_apply hInside, forward_iff]
      intro e he
      obtain ⟨k, hk⟩ := List.mem_iff_getElem?.mp (List.mem_of_find?_eq_some he)
      have hLess : k < size := h.length ▸ (List.getElem?_eq_some_iff.mp hk).1
      have hEntry := List.find?_eq_none.mp hFind' e
        (List.mem_of_getElem? ((h.entries k hLess).trans hk))
      exact absurd (List.find?_some he) hEntry
  · -- forwards in the new order
    rename_i first hNotBack hFind'
    cases hOriented
    have hLt := (lt_or_gt_of_find? (h.known' hInside) hFind').resolve_right hNotBack
    rw [h.map_apply hInside, forward_iff]
    intro e he
    refine (lt_or_gt_of_find? h.known he).resolve_right ?_
    rintro rfl
    have hBack : (dirs.map Direction.reverse).find? (· != .eq) = some .lt := by
      rw [Nest.find?_reverse, he]
      rfl
    have hBack' : (dirs'.map Direction.reverse).find? (· != .eq) = some .gt := by
      rw [Nest.find?_reverse, hFind', hLt]
      rfl
    have hOld : Direction.forward (dirs'.map Direction.reverse) = true := by
      by_cases hSame : x.position = y.position
      · -- of one access with itself the reverse vector has been found
        have hOriented : Nest.oriented? x y (dirs.map Direction.reverse)
            = some (x, y, dirs.map Direction.reverse) := by
          unfold Nest.oriented?
          rw [hBack]
        exact hTurned hSame hOriented h.reverse
      · have hOriented : Nest.oriented? x y dirs = some (y, x, dirs.map Direction.reverse) := by
          unfold Nest.oriented?
          rw [he]
          simp [hSame]
        exact hFound hOriented h.reverse
    exact absurd (forward_iff.mp hOld _ hBack') (by decide)

section back

variable {maxLevels : Nat} {x x' y y' : Access}

/-- A vector that is found in the new order of an impartial nest is found in the old order, and so is
    its reverse if it is one of an access with itself. -/
theorem Turn.mem_vectors_back (h : Turn σ π loops loops') (hLevels : loops.length ≤ maxLevels)
    (hx : Reseated loops loops' x x') (hy : Reseated loops loops' y y')
    (hImpartial : (analysed maxLevels loops).Impartial
      ⟨x, y, (analysed maxLevels loops).commonLevels x y⟩) {dirs' : List Direction}
    (hDirs' : dirs' ∈ (analysed maxLevels loops').vectors
      ⟨x', y', (analysed maxLevels loops').commonLevels x' y'⟩) :
    ∃ dirs, Rearranged π loops.length dirs dirs'
      ∧ dirs ∈ (analysed maxLevels loops).vectors
        ⟨x, y, (analysed maxLevels loops).commonLevels x y⟩
      ∧ (x.position = y.position → dirs.map Direction.reverse ∈
        (analysed maxLevels loops).vectors ⟨x, y, (analysed maxLevels loops).commonLevels x y⟩) := by
  obtain ⟨more, hMore, hMore', hOtherMore⟩ := hx.around
  obtain ⟨inner, hInner, hInner', hOtherInner⟩ := hy.around
  have hp : InBody loops more inner ⟨x, y, (analysed maxLevels loops).commonLevels x y⟩ :=
    ⟨hMore, hInner, commonLevels_analysed hMore hInner⟩
  have hp' : InBody loops' more inner ⟨x', y', (analysed maxLevels loops').commonLevels x' y'⟩ :=
    ⟨hMore', hInner', commonLevels_analysed hMore' hInner'⟩
  have hFull : (analysed maxLevels loops).Full
      ⟨x, y, (analysed maxLevels loops).commonLevels x y⟩ :=
    ⟨hp.common.trans (List.length_map _).symm, (List.length_map _).trans_le hLevels⟩
  have hFull' : (analysed maxLevels loops').Full
      ⟨x', y', (analysed maxLevels loops').commonLevels x' y'⟩ :=
    ⟨hp'.common.trans (List.length_map _).symm,
      (List.length_map _).trans_le (h.length_eq.trans_le hLevels)⟩
  obtain ⟨hTried', hTest'⟩ := hFull'.of_mem_vectors hDirs'
  obtain ⟨dirs, hDirs, hTried⟩ := h.exists_tried hp hp' hx hy hTried'
  have hTest : (analysed maxLevels loops).mayConflict
      ⟨x, y, (analysed maxLevels loops).commonLevels x y⟩ dirs = true := by
    rw [← h.mayConflict_eq hp hp' hOtherMore hOtherInner (by rw [hx.same]) (by rw [hy.same]) hDirs
      (hImpartial.orderless dirs hTried)]
    exact hTest'
  refine ⟨dirs, hDirs, hFull.mem_vectors hTried (hImpartial.kept dirs hTried hTest), fun hSame => ?_⟩
  have hTurned := hImpartial.turned hSame dirs hTried hTest
  exact hFull.mem_vectors hTried.reverse (hImpartial.kept _ hTried.reverse hTurned)

/-- **Dependences in the old order**: when an order of an impartial nest is accepted, nothing stands
    against the old order of the new nest. -/
theorem Turn.reorderObstacle?_back (h : Turn σ π loops loops')
    (hBody : ∀ i ∈ body.loopIds, i ∉ loops.map (·.1.id)) (hCalls : body.calls = [])
    (hAvoid : BoundsAvoid (nestOf loops' body) loops') (hLevels : loops.length ≤ maxLevels)
    (hImpartial : Impartial maxLevels loops body)
    (hAccepted : (nestOf loops body).reorderObstacle? maxLevels (levelsOf loops)
      ((List.range loops.length).map π.symm) = none) :
    (nestOf loops' body).reorderObstacle? maxLevels (levelsOf loops')
      ((List.range loops.length).map π) = none := by
  rw [reorderObstacle?_eq_none hCalls] at hAccepted ⊢
  intro d hd hReduction
  obtain ⟨same, x', y', hPair', hConflict', hd⟩ := Nest.exists_pair_of_mem_among hd
  obtain ⟨dirs', hDirs', hd⟩ := List.mem_filterMap.mp hd
  obtain ⟨src, tgt, direction, kind, hOriented, _, rfl⟩ := Nest.dependence?_eq_some.mp hd
  -- the pair and the vector in the old nest
  obtain ⟨x, y, hPair, hx, hy⟩ := h.exists_pair hBody hAvoid hPair' hConflict'
  have hConflict : Nest.conflicting x y = true := by
    rw [hx.same, hy.same] at hConflict'
    exact hConflict'
  rw [h.reductionPair?_eq hx hy] at hReduction
  obtain ⟨dirs, hDirs, hFound, hTurned⟩ :=
    h.mem_vectors_back hLevels hx hy (hImpartial same x y hPair hConflict) hDirs'
  -- what is found in the old nest points forwards in the new order
  have hPermits : ∀ {v}, v ∈ (analysed maxLevels loops).vectors
      ⟨x, y, (analysed maxLevels loops).commonLevels x y⟩ → Permits π loops.length x y v := by
    intro v hv _ _ _ _ hOld hBoth
    have hHere := forward_of_found hAccepted hPair hConflict hReduction hv hOld
    rwa [hBoth.map_symm h.inside] at hHere
  exact hDirs.forward_back h.inside (by rw [hx.same, hy.same]) (hPermits hFound)
    (fun hSame => hPermits (hTurned hSame)) hOriented

end back

/-! ## Seats of a chain -/

section seats

variable {names request : List String}

/-- Where the label in a place of the first list stands in the second one. -/
def seatOf (names request : List String) (k : Nat) : Nat :=
  match names[k]? with
  | some x => request.idxOf x
  | none => k

theorem seatOf_seatOf (hNodup : names.Nodup) (hPerm : request.Perm names) (k : Nat) :
    seatOf request names (seatOf names request k) = k := by
  unfold seatOf
  cases hName : names[k]? with
  | none =>
    have hNone : request[k]? = none := by
      rw [List.getElem?_eq_none_iff] at hName ⊢
      rwa [hPerm.length_eq]
    dsimp only
    rw [hNone]
  | some x =>
    obtain ⟨hk, rfl⟩ := List.getElem?_eq_some_iff.mp hName
    dsimp only
    rw [List.getElem?_idxOf (hPerm.symm.subset (List.getElem_mem hk))]
    exact hNodup.idxOf_getElem k hk

theorem seatOf_lt_iff (hPerm : request.Perm names) {k : Nat} :
    seatOf names request k < names.length ↔ k < names.length := by
  unfold seatOf
  cases hName : names[k]? with
  | none => exact Iff.rfl
  | some x =>
    have hMem := hPerm.symm.subset (List.mem_of_getElem? hName)
    have hLess := List.idxOf_lt_length_of_mem hMem
    exact iff_of_true (hPerm.length_eq ▸ hLess) (List.getElem?_eq_some_iff.mp hName).1

/-- The places of a chain in the order of a request. -/
def seatsOf (hNodup : names.Nodup) (hPerm : request.Perm names) : Equiv.Perm Nat where
  toFun := seatOf names request
  invFun := seatOf request names
  left_inv := seatOf_seatOf hNodup hPerm
  right_inv := seatOf_seatOf (hPerm.nodup_iff.mpr hNodup) hPerm.symm

theorem orderOf_eq (names request : List String) :
    orderOf names request = (List.range request.length).map (seatOf request names) := by
  refine List.ext_getElem (by simp [orderOf]) fun k hk _ => ?_
  have hLess : k < request.length := by simpa [orderOf] using hk
  simp [orderOf, seatOf, List.getElem?_eq_getElem hLess]

end seats

/-- The number of a seat after the seats have changed places. -/
def renumber (ids : List Nat) (π : Nat → Nat) (i : Nat) : Nat :=
  if i ∈ ids then ids.getD (π (ids.idxOf i)) i else i

section numbers

variable {ids : List Nat} {places : Equiv.Perm Nat}

theorem renumber_getElem (hNodup : ids.Nodup) {k : Nat} (hk : k < ids.length)
    (hSeat : places k < ids.length) : renumber ids places ids[k] = ids[places k] := by
  rw [renumber, if_pos (List.getElem_mem hk), hNodup.idxOf_getElem k hk,
    List.getD_eq_getElem?_getD, List.getElem?_eq_getElem hSeat, Option.getD_some]

theorem renumber_renumber (places : Equiv.Perm Nat) (hNodup : ids.Nodup)
    (hInside : ∀ k, places k < ids.length ↔ k < ids.length) (i : Nat) :
    renumber ids places.symm (renumber ids places i) = i := by
  by_cases hi : i ∈ ids
  · obtain ⟨k, hk, rfl⟩ := List.mem_iff_getElem.mp hi
    have hBack : places.symm (places k) < ids.length := by rwa [Equiv.symm_apply_apply]
    rw [renumber_getElem hNodup hk ((hInside k).mpr hk),
      renumber_getElem hNodup ((hInside k).mpr hk) hBack]
    simp
  · simp [renumber, hi]

/-- The numbers of the seats after the seats have changed places. -/
def numbersOf (hNodup : ids.Nodup) (hInside : ∀ k, places k < ids.length ↔ k < ids.length) :
    Equiv.Perm Nat where
  toFun := renumber ids places
  invFun := renumber ids places.symm
  left_inv := renumber_renumber places hNodup hInside
  right_inv := renumber_renumber places.symm hNodup fun k => by
    rw [← hInside, Equiv.apply_symm_apply]

end numbers

namespace PerfectChain

variable {t : Stmt} {names request : List String} {k : Nat}

/-- The loops of a chain have changed places. -/
theorem exists_turn (h : PerfectChain t names loops body) (hIds : t.ids.Nodup)
    (hLabels : t.labels.Nodup) (hPerm : request.Perm names) :
    ∃ σ, Turn σ (seatsOf (h.nodup_names hLabels) hPerm) loops (turned names request loops) := by
  have hNames := h.nodup_names hLabels
  have hLength : (loops.map (·.1.id)).length = names.length := by rw [List.length_map, h.length_eq]
  have hInside : ∀ k, seatsOf hNames hPerm k < (loops.map (·.1.id)).length
      ↔ k < (loops.map (·.1.id)).length := by
    rw [hLength]
    exact fun k => seatOf_lt_iff hPerm
  have hDistinct := h.nodup_ids hIds
  have hSame := h.ids_turned hLabels hPerm
  refine ⟨numbersOf hDistinct hInside, h.heads_turned hLabels hPerm, hSame, ?_, ?_, ?_, hDistinct,
    h.iters, h.bounds⟩
  · intro k l hl
    obtain ⟨hk, rfl⟩ := List.getElem?_eq_some_iff.mp hl
    have hk' : k < (loops.map (·.1.id)).length := by rwa [List.length_map]
    have hSeat := (hInside k).mpr hk'
    have hSeat' : seatsOf hNames hPerm k < (turned names request loops).length := by
      rwa [← hSame, List.length_map] at hSeat
    refine ⟨_, List.getElem?_eq_getElem hSeat', ?_, ?_⟩
    · have hNumber : renumber (loops.map (·.1.id)) (seatsOf hNames hPerm) loops[k].1.id
          = (loops.map (·.1.id))[seatsOf hNames hPerm k] := by
        rw [← renumber_getElem hDistinct hk' hSeat, List.getElem_map]
      show _ = renumber (loops.map (·.1.id)) (seatsOf hNames hPerm) loops[k].1.id
      rw [hNumber]
      simp only [← hSame, List.getElem_map]
    · -- what stands in the new seat is what the request puts there
      have hPlace : (orderOf names request)[seatsOf hNames hPerm k]? = some k := by
        rw [hLength, ← hPerm.length_eq] at hSeat
        rw [orderOf_eq, List.getElem?_map, List.getElem?_range hSeat, Option.map_some]
        exact congrArg some (seatOf_seatOf hNames hPerm k)
      have hBare := congrArg (·[seatsOf hNames hPerm k]?) (h.bare_turned hLabels hPerm)
      rw [Expr.getElem?_permuted (fun j hj => by
          rw [List.length_map, h.length_eq]
          exact lt_of_mem_orderOf hPerm hj), hPlace, Option.bind_some, List.getElem?_map,
        List.getElem?_map, List.getElem?_eq_getElem hSeat', List.getElem?_eq_getElem hk] at hBare
      exact (Prod.mk.inj (Option.some.inj hBare)).2
  · intro k
    have hHere := hInside k
    rwa [List.length_map] at hHere
  · exact fun i hi => if_neg hi

/-- What the body of a chain is has other numbers than the loops. -/
theorem loopIds_body (h : PerfectChain t names loops body) (hIds : t.ids.Nodup) :
    ∀ i ∈ body.loopIds, i ∉ loops.map (·.1.id) := by
  have hNest := Stmt.nodup_ids_of_mem hIds h.nest
  rw [ids_nestOf, List.nodup_append] at hNest
  intro i hi hLoop
  obtain ⟨u, hu, rfl⟩ := List.mem_map.mp hi
  exact hNest.2.2 _ hLoop _ (List.mem_map_of_mem (List.mem_filter.mp hu).1) rfl

/-- In an impartial chain nothing stands against the old order. -/
theorem reorderObstacle?_turned (h : PerfectChain t names loops body) (hIds : t.ids.Nodup)
    (hLabels : t.labels.Nodup) (hPerm : request.Perm names) (hLevels : loops.length ≤ k)
    (hImpartial : Impartial k loops body) (hAvoid : BoundsAvoid (nestOf loops body) loops)
    (hAccepted : (nestOf loops body).reorderObstacle? k (levelsOf loops) (orderOf names request)
      = none) :
    (nestOf (turned names request loops) body).reorderObstacle? k
      (levelsOf (turned names request loops)) (orderOf request names) = none := by
  obtain ⟨σ, hTurn⟩ := h.exists_turn hIds hLabels hPerm
  have hOrder : orderOf names request = (List.range loops.length).map
      (seatsOf (h.nodup_names hLabels) hPerm).symm := by
    rw [orderOf_eq, hPerm.length_eq, ← h.length_eq]
    rfl
  have hBack : orderOf request names
      = (List.range loops.length).map (seatsOf (h.nodup_names hLabels) hPerm) := by
    rw [orderOf_eq, ← h.length_eq]
    rfl
  rw [hOrder] at hAccepted
  rw [hBack]
  exact hTurn.reorderObstacle?_back (h.loopIds_body hIds) h.calls
    (h.boundsAvoid_turned hLabels hPerm hAvoid) hLevels hImpartial hAccepted

end PerfectChain

/-! ## Taking back a request -/

/-- **Undone reorders**: after a request for all loops of a perfect chain has been accepted, a request
    for the old order yields the old program, and nothing stands in its way but a dependence. In an
    impartial nest no dependence does. -/
theorem reorder_undone {t t' : Stmt} {names request : List String} {k : Nat}
    (hLabels : t.labels.Nodup) (h : PerfectChain t.number names loops body)
    (hPerm : request.Perm names) (hLevels : loops.length ≤ k)
    (hReorder : reorder k t.number request = .ok t') :
    (∀ t'', reorder k t'.number names = .ok t'' → t''.number = t.number)
      ∧ (∀ c, reorder k t'.number names = .error c → ∃ d, c = .dependence d)
      ∧ (Impartial k loops body →
          ∃ t'', reorder k t'.number names = .ok t'' ∧ t''.number = t.number) := by
  have hCommitted := Stmt.committed_number hLabels
  rcases reorder_back hLabels h hPerm hReorder with hKept | ⟨hOther, hAvoid, hAccepted, hBack⟩
  · -- the chain has this order already
    rw [hKept]
    refine ⟨fun t'' hBack => ?_, fun c hBack => (nomatch hBack), fun _ => ⟨_, rfl, ?_⟩⟩
    · rw [← Except.ok.inj hBack, hCommitted.number_eq]
    · exact hCommitted.number_eq
  · have hSame := h.number_back hCommitted.ids hCommitted.labels hPerm
    rw [hBack]
    refine ⟨fun t'' hBack => ?_, fun c hBack => ?_, fun hImpartial => ?_⟩
    · split at hBack
      · cases hBack
      · rw [← Except.ok.inj hBack, hSame]
    · split at hBack
      · exact ⟨_, (Except.error.inj hBack).symm⟩
      · cases hBack
    · rw [h.reorderObstacle?_turned (Stmt.nodup_ids_number t) hCommitted.labels hPerm hLevels
        hImpartial hAvoid hAccepted]
      exact ⟨_, rfl, hSame⟩

def transpositionLoops : List (Site × LoopHead) :=
  [(⟨0, some "L1"⟩, { iter := "i", lower := .int 0, upper := .int 4 }),
    (⟨1, some "L2"⟩, { iter := "j", lower := .int 0, upper := .int 8 })]

def transpositionBody : Stmt :=
  .store ⟨2, none⟩ "y" [.var "i", .var "j"] (.load "x" [.var "j", .var "i"])

/-- Writes the transpose of a matrix, row by row. -/
def transposition : Stmt := nestOf transpositionLoops transpositionBody

theorem perfectChain_transposition :
    PerfectChain transposition.number ["L1", "L2"] transpositionLoops transpositionBody where
  nest := Stmt.self_mem_nodes transposition
  labels := rfl
  iters := by decide
  bounds := by
    unfold BoundsFree
    decide
  calls := rfl

theorem transposition_undone : transposition.labels.Nodup ∧ ["L2", "L1"].Perm ["L1", "L2"]
    ∧ transpositionLoops.length ≤ defaultLevels
    ∧ Impartial defaultLevels transpositionLoops transpositionBody
    ∧ ∃ t' t'', reorder defaultLevels transposition.number ["L2", "L1"] = .ok t'
      ∧ reorder defaultLevels t'.number ["L1", "L2"] = .ok t'' ∧ t''.number = transposition.number := by
  have hLabels : transposition.labels.Nodup := by decide
  have hPerm : ["L2", "L1"].Perm ["L1", "L2"] := .swap _ _ _
  have hLevels : transpositionLoops.length ≤ defaultLevels := by decide
  have hImpartial : Impartial defaultLevels transpositionLoops transpositionBody :=
    impartial_of_all (by cbv)
  have hAccepted : reorder defaultLevels transposition.number ["L2", "L1"]
      = .ok (nestOf transpositionLoops.reverse transpositionBody) := by cbv
  obtain ⟨_, _, hUndone⟩ := reorder_undone hLabels perfectChain_transposition hPerm hLevels hAccepted
  obtain ⟨t'', hBack, hSame⟩ := hUndone hImpartial
  exact ⟨hLabels, hPerm, hLevels, hImpartial, _, t'', hAccepted, hBack, hSame⟩

def rereadingLoops : List (Site × LoopHead) :=
  [(⟨0, some "L1"⟩, { iter := "i", lower := .int 0, upper := .int 2 }),
    (⟨1, some "L2"⟩, { iter := "j", lower := .int 0, upper := .int 2 })]

def rereadingBody : Stmt :=
  .store ⟨2, none⟩ "y" [.add (.var "i") (.mul (.int 2) (.var "j"))] (.load "y" [.int 0])

/-- Reads the element that its first iteration writes. -/
def rereading : Stmt := nestOf rereadingLoops rereadingBody

/-- The new order is accepted and the old one is not. The vector that stands against it is lost in the
    old nest, where the outer one of its entries is ruled out by itself. -/
theorem rereading_not_undone : rereading.labels.Nodup ∧ ["L2", "L1"].Perm ["L1", "L2"]
    ∧ PerfectChain rereading.number ["L1", "L2"] rereadingLoops rereadingBody
    ∧ rereadingLoops.length ≤ defaultLevels
    ∧ reorder defaultLevels rereading.number ["L2", "L1"]
      = .ok (nestOf rereadingLoops.reverse rereadingBody)
    ∧ reorder defaultLevels (nestOf rereadingLoops.reverse rereadingBody).number ["L1", "L2"]
      = .error (.dependence ⟨2, 2, .flow, [.lt, .gt], "y", none, some 0⟩) := by
  refine ⟨by decide, .swap _ _ _, ⟨Stmt.self_mem_nodes rereading, rfl, by decide, ?_, rfl⟩, by decide,
    by cbv, by cbv⟩
  unfold BoundsFree
  decide

end Restructure

end LoopNest

import LoopNest.Proofs.CanonicalRuns
import LoopNest.Proofs.TranslatedPrograms

/-! # Matching programs leave the same

  Programs that match have the same canonical form, and what they leave depends on their canonical form
  (`Stmt.matchesProgram_leaves_same`). Two things are asked for:

  * The names are used in the roles of what binds them. One pairing of names is kept for iterators and
    buffers, so that two loops match of which each reads, from outside, a buffer that has the name of the
    iterator.
  * What is read of a declared buffer was written in the same declaration. A visible buffer has one name
    inside and outside of its declaration, and only inside the name of the one program stands for that
    of the other. -/

namespace LoopNest

namespace Stmt

variable {t u : Stmt}

theorem binders_rounded (round : Float → Int) (t : Stmt) : (t.rounded round).binders = t.binders :=
  (rephrased_mapExprs _ t).binders_eq

/-- Where a cautious run has an answer, a program leaves in buffers that it does not declare what its
    canonical form leaves. -/
theorem exists_leaves_of_cautious {round : UInt64 → Int} {env : Env} {m : Memory}
    (hRoles : t.keepsRoles = true)
    (hCautious : ((t.rounded fun x => round x.toBits).cautious env m).isSome) (fresh : Memory) :
    ∃ after places, ((t.rounded fun x => round x.toBits).run fresh env m).map Prod.fst = some after
      ∧ Canonical.leaves round env m t.canonical = some places
      ∧ ∀ n, ¬ t.Declares n → after n = places (.outside n) := by
  obtain ⟨careful, hCareful⟩ := Option.isSome_iff_exists.mp hCautious
  have hSame : ∀ n, ¬ t.Declares n → .buffer n ∉ t.binders := fun n hn h => hn (buffer_mem_binders.mp h)
  -- the run follows the cautious run, and so does the canonical form
  obtain ⟨after, hAfter, hAhead⟩ := follows_cautious fresh (t.rounded fun x => round x.toBits) env
    (by rwa [binders_rounded]) m m careful (.refl m) hCareful
  have hStart : Tracks (fun n => ¬ t.Declares n) [] m (.around m) m (.around m) := by
    refine ⟨?_, fun _ _ => rfl⟩
    have hView : Places.view [] m (.around m) = m := by
      funext b
      exact Places.view_serves rfl
    rw [hView]
    exact .refl m
  obtain ⟨places, hPlaces, hTracks⟩ := follows_canonical round t [] env (.around env) hSame hRoles
    (fun _ _ => rfl) m (.around m) m (.around m) careful hStart hCareful
  refine ⟨after, places, ?_, hPlaces, fun n hn => ?_⟩
  · rw [← change_reference, hAfter]
  · have hEqual := hTracks.ahead.equal n hn
    rw [hAhead.equal n hn, ← hEqual]
    exact Places.view_serves rfl

/-- **Matching programs leave the same**: take two programs without wildcards that match, whose names
    are used in the roles of what binds them, and a memory on which neither reads an element of a
    declared buffer before it has written it. There, a buffer is another one each time its declaration
    is entered, and when a visible declaration has been left its buffer has to be written again before
    it is read. Then both programs come to an end, and they leave the same contents in all buffers that
    they do not declare, whatever float constants are rounded to and local buffers hold at first. -/
theorem matchesProgram_leaves_same (ht : t.holeFree = true) (hu : u.holeFree = true)
    (hMatch : t.matchesProgram u = true) (hRoles : t.keepsRoles = true) (round : UInt64 → Int) (env : Env)
    (m : Memory) (hFirst : ((t.rounded fun x => round x.toBits).cautious env m).isSome)
    (hSecond : ((u.rounded fun x => round x.toBits).cautious env m).isSome) (fresh fresh' : Memory) :
    ∃ after after', ((t.rounded fun x => round x.toBits).run fresh env m).map Prod.fst = some after
      ∧ ((u.rounded fun x => round x.toBits).run fresh' env m).map Prod.fst = some after'
      ∧ ∀ n, ¬ t.Declares n → ¬ u.Declares n → after' n = after n := by
  have hForms : t.canonical = u.canonical := ((consumes t ht).body [] ht hu).mp hMatch
  have hRoles' : u.keepsRoles = true := by
    unfold keepsRoles at hRoles ⊢
    rwa [← hForms]
  obtain ⟨after, places, hRun, hLeaves, hSame⟩ := exists_leaves_of_cautious hRoles hFirst fresh
  obtain ⟨after', places', hRun', hLeaves', hSame'⟩ := exists_leaves_of_cautious hRoles' hSecond fresh'
  rw [← hForms, hLeaves] at hLeaves'
  cases hLeaves'
  exact ⟨after, after', hRun, hRun', fun n hn hn' => (hSame' n hn').trans (hSame n hn).symm⟩

/-- Sums of neighbours, each of which goes through a visible buffer of one element. -/
def neighbours : Stmt :=
  .decl ⟨0, some "D"⟩ "t" ⟨[.int 4], .float32, .cache, .cpu⟩
    (.block ⟨1, none⟩
      [.loop ⟨2, some "L1"⟩ { iter := "i", lower := .int 0, upper := .int 4 }
        (.store ⟨3, none⟩ "t" [.var "i"] (.binary .mul (.load "x" [.var "i"]) (.float 2.5))),
      .loop ⟨4, some "L2"⟩ { iter := "i", lower := .int 0, upper := .int 3 }
        (.decl ⟨5, none⟩ "s" ⟨[.int 1], .float32, .output, .cpu⟩
          (.block ⟨6, none⟩
            [.store ⟨7, none⟩ "s" [.int 0]
              (.add (.load "t" [.var "i"]) (.load "t" [.add (.var "i") (.int 1)])),
            .store ⟨8, none⟩ "y" [.var "i"] (.load "s" [.int 0])]))])

/-- The same sums, where the buffer has the name of the other one's iterator. -/
def otherNeighbours : Stmt :=
  .decl ⟨0, none⟩ "i" ⟨[.int 4], .float32, .cache, .cpu⟩
    (.block ⟨1, none⟩
      [.loop ⟨2, none⟩ { iter := "k", lower := .int 0, upper := .int 4 }
        (.block ⟨3, none⟩
          [.store ⟨4, none⟩ "i" [.var "k"] (.binary .mul (.load "x" [.var "k"]) (.float 2.5))]),
      .loop ⟨5, none⟩ { iter := "s", lower := .int 0, upper := .int 3 }
        (.decl ⟨6, none⟩ "t" ⟨[.int 1], .float32, .output, .cpu⟩
          (.block ⟨7, none⟩
            [.store ⟨8, none⟩ "t" [.int 0]
              (.add (.load "i" [.var "s"]) (.load "i" [.add (.var "s") (.int 1)])),
            .store ⟨9, none⟩ "y" [.var "s"] (.load "t" [.int 0])]))])

theorem neighbours_leave_same :
    neighbours.holeFree = true ∧ otherNeighbours.holeFree = true
      ∧ neighbours.matchesProgram otherNeighbours = true ∧ neighbours.keepsRoles = true
      ∧ ∃ after after',
        ((neighbours.rounded fun _ => 3).run .blank (fun _ => 0) fun _ _ => some 1).map Prod.fst
            = some after
          ∧ ((otherNeighbours.rounded fun _ => 3).run .blank (fun _ => 0) fun _ _ => some 1).map Prod.fst
            = some after'
          ∧ after' "y" = after "y" ∧ after "y" [2] = some 6 := by
  have hFirst : neighbours.holeFree = true := by decide
  have hSecond : otherNeighbours.holeFree = true := by decide
  have hMatch : neighbours.matchesProgram otherNeighbours = true :=
    ((consumes _ hFirst).body [] hFirst hSecond).mpr rfl
  have hRoles : neighbours.keepsRoles = true := by decide
  have hUndeclared : ¬ neighbours.Declares "y" ∧ ¬ otherNeighbours.Declares "y" := by
    rw [← buffer_mem_binders, ← buffer_mem_binders]
    decide
  obtain ⟨after, after', hRun, hRun', hSame⟩ := matchesProgram_leaves_same hFirst hSecond hMatch hRoles
    (fun _ => 3) (fun _ => 0) (fun _ _ => some 1) (by decide +kernel) (by decide +kernel) .blank .blank
  have hValue : (((neighbours.rounded fun _ => 3).run .blank (fun _ => 0) fun _ _ => some 1).map
      Prod.fst).map (fun m => m "y" [2]) = some (some 6) := by
    decide +kernel
  rw [hRun] at hValue
  exact ⟨hFirst, hSecond, hMatch, hRoles, after, after', hRun, hRun',
    hSame "y" hUndeclared.1 hUndeclared.2, Option.some.inj hValue⟩

/-- Two programs without wildcards and calls match and come to an end, and yet an element of a buffer
    that neither declares has different contents afterwards. -/
structure MatchesButDiffers (t u : Stmt) (m : Memory) (b : String) (v w : Int) : Prop where
  holeFree : t.holeFree = true ∧ u.holeFree = true
  callFree : t.calls = [] ∧ u.calls = []
  matched : t.matchesProgram u = true
  undeclared : .buffer b ∉ t.binders ∧ .buffer b ∉ u.binders
  /-- Declared buffers hold nothing at first, so nothing is read of them before it is written. -/
  empty : ∀ n, .buffer n ∈ t.binders ++ u.binders → m n = Memory.blank n
  first : (t.run .blank (fun _ => 0) m).map (fun r => r.1 b [0]) = some (some v)
  second : (u.run .blank (fun _ => 0) m).map (fun r => r.1 b [0]) = some (some w)
  differ : v ≠ w

/-- A loop that reads, from outside, a buffer with the name of its iterator. -/
def readsNamesake (iter : String) : Stmt :=
  .loop ⟨0, none⟩ { iter := iter, lower := .int 0, upper := .int 1 }
    (.store ⟨1, none⟩ "y" [.int 0] (.load iter [.int 0]))

/-- A visible buffer that is written in its declaration, and `y`, which is written before and read
    afterwards. -/
def writesVisible (declared : String) : Stmt :=
  .block ⟨0, none⟩
    [.store ⟨1, none⟩ "y" [.int 0] (.int 7),
    .decl ⟨2, none⟩ declared ⟨[.int 1], .int32, .output, .cpu⟩
      (.store ⟨3, none⟩ declared [.int 0] (.int 1)),
    .store ⟨4, none⟩ "w" [.int 0] (.load "y" [.int 0])]

/-- Two visible buffers that are written, and a declaration of one of them where it is read. -/
def declaresAgain (declared : String) : Stmt :=
  .block ⟨0, none⟩
    [.decl ⟨1, none⟩ "y" ⟨[.int 1], .int32, .output, .cpu⟩ (.store ⟨2, none⟩ "y" [.int 0] (.int 1)),
    .decl ⟨3, none⟩ "z" ⟨[.int 1], .int32, .output, .cpu⟩ (.store ⟨4, none⟩ "z" [.int 0] (.int 5)),
    .decl ⟨5, none⟩ declared ⟨[.int 1], .int32, .output, .cpu⟩
      (.store ⟨6, none⟩ "w" [.int 0] (.load declared [.int 0]))]

/-- None of the provisos can be left out: that names keep their roles, that a visible buffer is written
    again after its declaration, and that it is written again in another declaration. -/
theorem matching_leaves_others :
    MatchesButDiffers (readsNamesake "i") (readsNamesake "j")
        (fun b _ => if b = "i" then some 1 else some 2) "y" 1 2
      ∧ MatchesButDiffers (writesVisible "y") (writesVisible "z") .blank "w" 1 7
      ∧ MatchesButDiffers (declaresAgain "y") (declaresAgain "z") .blank "w" 1 5 := by
  refine ⟨?namesakes, ?visible, ?again⟩
  case namesakes =>
    have hBinders : (readsNamesake "i").binders ++ (readsNamesake "j").binders
        = [.scalar "i", .scalar "j"] := rfl
    refine ⟨by decide, by decide, by decide, by decide, ?_, rfl, rfl, by decide⟩
    intro n hn
    simp [hBinders] at hn
  case visible =>
    exact ⟨by decide, by decide, by decide, by decide, fun _ _ => rfl, rfl, rfl, by decide⟩
  case again =>
    exact ⟨by decide, by decide, by decide, by decide, fun _ _ => rfl, rfl, rfl, by decide⟩

end Stmt

end LoopNest

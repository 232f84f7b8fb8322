import Mathlib.Data.List.Nodup
import Mathlib.Data.List.Perm.Subperm
import LoopNest.Lower.Workspace
import LoopNest.Proofs.Replacements

/-! # Names that are handed out

  A supply hands out names that are not in use (`NameSupply.choose_not_mem`): among one more variants
  of a name than there are names in use, one is free.

  Every name of a program is in use (`Stmt.mem_usedNames`). What is drawn one after the other is new
  and different (`NameSupply.Draws`). So are the names of a
  workspace (`Lower.Job.draws_names`). -/

namespace LoopNest

namespace Stmt

/-! ## Names in use -/

theorem mem_usedNames {t : Stmt} {x : String} : x ∈ t.usedNames ↔
    ∃ u ∈ t.nodes, x ∈ u.ownNames ∨ ∃ e ∈ u.exprs, x ∈ e.scalars ∨ x ∈ e.buffers := by
  simp only [usedNames, List.mem_flatMap, List.mem_append]

theorem usedNames_subset {t u : Stmt} (hu : u ∈ t.nodes) : u.usedNames ⊆ t.usedNames := by
  intro x hx
  obtain ⟨w, hw, hName⟩ := mem_usedNames.mp hx
  exact mem_usedNames.mpr ⟨w, mem_nodes_trans hw hu, hName⟩

theorem Writes.mem_usedNames {t : Stmt} {b : String} (h : t.Writes b) : b ∈ t.usedNames := by
  obtain ⟨s, is, v, hStore⟩ := h
  exact Stmt.mem_usedNames.mpr ⟨_, hStore, .inl (by simp [ownNames])⟩

theorem Binds.mem_usedNames {t : Stmt} {x : String} (h : t.Binds x) : x ∈ t.usedNames := by
  obtain ⟨s, head, body, hLoop, rfl⟩ := h
  exact Stmt.mem_usedNames.mpr ⟨_, hLoop, .inl (by simp [ownNames])⟩

theorem Uses.mem_usedNames {t : Stmt} {x : String} (h : t.Uses x) : x ∈ t.usedNames := by
  obtain ⟨u, hu, e, he, hx⟩ := h
  exact Stmt.mem_usedNames.mpr ⟨u, hu, .inr ⟨e, he, .inl hx⟩⟩

end Stmt

namespace NameSupply

theorem numbered_injective (base : String) : (numbered base).Injective := by
  intro n k h
  have hNumerals : toString n = toString k := (String.append_right_inj _).mp h
  have hDigits := congrArg (fun s : String => Nat.ofDigitChars 10 s.toList 0) hNumerals
  simpa [Nat.toString_eq_ofList_toDigits] using hDigits

/-- When no variant that was looked at is free, all of them are in use. -/
theorem numbered_mem_of_firstFree {s : NameSupply} {base : String} :
    ∀ {fuel n : Nat}, s.firstFree base fuel n ∈ s.used →
      ∀ k ≤ fuel, numbered base (n + k) ∈ s.used := by
  intro fuel
  induction fuel with
  | zero =>
    intro n h k hk
    obtain rfl : k = 0 := Nat.le_zero.mp hk
    exact h
  | succ fuel ih =>
    intro n h k hk
    rw [firstFree] at h
    split at h
    · rename_i hUsed
      cases k with
      | zero => exact contains_iff.mp hUsed
      | succ k =>
        have hMem := ih h k (Nat.le_of_succ_le_succ hk)
        rwa [Nat.add_assoc, Nat.add_comm 1 k] at hMem
    · rename_i hFree
      exact absurd (contains_iff.mpr h) hFree

/-- Different variants of a name that are in use are no more than all names in use. -/
theorem length_variants_le {used : List String} {base : String} {n : Nat}
    (h : ∀ k < n, numbered base (1 + k) ∈ used) : n ≤ used.length := by
  let variants := (List.range n).map fun k => numbered base (1 + k)
  have hNodup : variants.Nodup := List.nodup_range.map fun k k' hEq =>
    Nat.add_left_cancel (numbered_injective base hEq)
  have hSubset : variants ⊆ used := by
    intro x hx
    obtain ⟨k, hk, rfl⟩ := List.mem_map.mp hx
    exact h k (List.mem_range.mp hk)
  have hLength := hNodup.length_le_of_subset hSubset
  rwa [List.length_map, List.length_range] at hLength

/-- **Fresh names**: a name that is handed out was not in use. -/
theorem choose_not_mem (s : NameSupply) (base : String) : s.choose base ∉ s.used := by
  unfold choose
  split
  · intro h
    -- all variants that were looked at would be more names than there are in use
    have hAll := length_variants_le fun k hk =>
      numbered_mem_of_firstFree h k (Nat.le_of_lt_succ hk)
    exact absurd hAll (Nat.not_succ_le_self _)
  · rename_i hFree
    exact fun h => hFree (contains_iff.mpr h)

/-- Some names were drawn from a supply, which is left as another one. -/
structure Draws (s : NameSupply) (names : List String) (s' : NameSupply) : Prop where
  nodup : names.Nodup
  fresh : ∀ x ∈ names, x ∉ s.used
  used : ∀ x, x ∈ s'.used ↔ x ∈ names ∨ x ∈ s.used

namespace Draws

theorem nil (s : NameSupply) : s.Draws [] s := ⟨List.nodup_nil, by simp, by simp⟩

theorem append {s s' s'' : NameSupply} {names more : List String} (h : s.Draws names s')
    (h' : s'.Draws more s'') : s.Draws (names ++ more) s'' where
  nodup := by
    refine List.nodup_append.mpr ⟨h.nodup, h'.nodup, fun x hx y hy hEq => ?_⟩
    exact h'.fresh y hy ((h.used y).mpr (.inl (hEq ▸ hx)))
  fresh x hx hUsed := by
    rcases List.mem_append.mp hx with hx | hx
    · exact h.fresh x hx hUsed
    · exact h'.fresh x hx ((h.used x).mpr (.inr hUsed))
  used x := by
    rw [h'.used, h.used, List.mem_append]
    tauto

end Draws

theorem draws_fresh (s : NameSupply) (base : String) :
    s.Draws [(s.fresh base).1] (s.fresh base).2 where
  nodup := List.nodup_singleton _
  fresh x hx := by
    rw [List.mem_singleton.mp hx]
    exact choose_not_mem s base
  used x := by
    rw [fresh_snd, mem_used_reserve, fresh_fst, List.mem_singleton]

theorem draws_freshAll (bases : List String) :
    ∀ s : NameSupply, s.Draws (s.freshAll bases).1 (s.freshAll bases).2 := by
  induction bases with
  | nil => exact .nil
  | cons base rest ih => exact fun s => (draws_fresh s base).append (ih _)

theorem length_freshAll (bases : List String) :
    ∀ s : NameSupply, (s.freshAll bases).1.length = bases.length := by
  induction bases with
  | nil => exact fun _ => rfl
  | cons base rest ih => exact fun s => congrArg (· + 1) (ih _)

end NameSupply

namespace Lower

/-- All names of a workspace. -/
def JobNames.all (n : JobNames) : List String :=
  n.space :: (n.fillIters ++ (n.rowIter :: n.foldIters))

/-- **Names of a workspace**: they are new and different. -/
theorem Job.draws_names (j : Job) (k : Nat) (supply : NameSupply) :
    supply.Draws (j.names k supply).1.all (j.names k supply).2 := by
  let rows := j.host.shape.map fun _ => "r"
  let owner := j.loop.site.label.getD j.loop.head.iter
  have hSpace := supply.draws_fresh ("__reduce_" ++ owner ++ "_" ++ toString k)
  have hFill := hSpace.append (NameSupply.draws_freshAll rows _)
  have hRow := hFill.append (NameSupply.draws_fresh _ j.loop.head.iter)
  have hAll := hRow.append (NameSupply.draws_freshAll rows _)
  rw [List.append_assoc, List.append_assoc] at hAll
  exact hAll

theorem Job.length_names (j : Job) (k : Nat) (supply : NameSupply) :
    (j.names k supply).1.fillIters.length = j.host.shape.length
      ∧ (j.names k supply).1.foldIters.length = j.host.shape.length := by
  let rows := j.host.shape.map fun _ => "r"
  have hRows : rows.length = j.host.shape.length := List.length_map _
  exact ⟨(NameSupply.length_freshAll rows _).trans hRows,
    (NameSupply.length_freshAll rows _).trans hRows⟩

end Lower

end LoopNest

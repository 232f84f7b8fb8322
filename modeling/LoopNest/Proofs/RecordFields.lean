import LoopNest.Json.Record

/-! # Fields that are read back

  A value is written as a record or a variant and read again. What happens to its parts is the same for
  all kinds of values:

  * **What readers give** (`Json.Gives`): what holds of everything that a reader gives holds of the
    fields, the elements and the alternatives read with it.
  * **What is written**: an object whose keys are known and different has the members that were
    written, a list is read element by element, and a name of a finite type is found.
  * **Legible values**: objects and lists of legible values are legible.
  * **Depth**: parts are nested less deeply than the whole. -/

namespace LoopNest.Json

variable {α β : Type}

/-! ## What readers give -/

/-- What a reader gives always has a property. -/
def Gives (read? : Json → Option α) (P : α → Prop) : Prop := ∀ j a, read? j = some a → P a

section Gives

variable {read? : Json → Option α} {P : α → Prop} {fs : Fields} {key : String} {a : α}

theorem Gives.required (h : Gives read? P) (hRead : fs.required key read? = some a) : P a := by
  obtain ⟨j, -, hj⟩ := Option.bind_eq_some_iff.mp hRead
  exact h j a hj

theorem Gives.optional (h : Gives read? P) {default : α} (hDefault : P default)
    (hRead : fs.optional key read? default = some a) : P a := by
  unfold Fields.optional at hRead
  split at hRead
  · exact h _ a hRead
  · cases hRead
    exact hDefault

theorem Gives.nullable? (h : Gives read? P) : Gives (nullable? read?) fun o => ∀ a ∈ o, P a := by
  intro j o hRead a ha
  unfold Json.nullable? at hRead
  split at hRead
  · cases hRead
    cases ha
  · obtain ⟨a', ha', rfl⟩ := Option.map_eq_some_iff.mp hRead
    cases ha
    exact h _ a ha'

theorem forall_of_mapM {items : List Json} {as : List α} (h : Gives read? P)
    (hRead : items.mapM read? = some as) : ∀ a ∈ as, P a := by
  induction items generalizing as with
  | nil =>
    cases hRead
    exact fun _ ha => nomatch ha
  | cons j items ih =>
    rw [List.mapM_cons] at hRead
    obtain ⟨a, ha, hRead⟩ := Option.bind_eq_some_iff.mp hRead
    obtain ⟨as, has, hRead⟩ := Option.bind_eq_some_iff.mp hRead
    cases hRead
    exact List.forall_mem_cons.mpr ⟨h j a ha, ih has⟩

theorem Gives.listOf? (h : Gives read? P) : Gives (listOf? read?) fun as => ∀ a ∈ as, P a := by
  intro j as hRead
  obtain ⟨items, -, hItems⟩ := Option.bind_eq_some_iff.mp hRead
  exact forall_of_mapM h hItems

/-- What holds of a value holds of what is made of it. -/
theorem Gives.map {Q : β → Prop} {f : α → β} (h : Gives read? P) (hf : ∀ a, P a → Q (f a)) {j : Json}
    {b : β} (hRead : f <$> read? j = some b) : Q b := by
  obtain ⟨a, ha, rfl⟩ := Option.map_eq_some_iff.mp hRead
  exact hf a (h j a ha)

end Gives

/-! ## Looking up fields -/

section Fields

variable {read? : Json → Option α} {fs : Fields} {key other : String} {j : Json} {default : α}

@[simp] theorem required_head : Fields.required ((key, j) :: fs) key read? = read? j := by
  simp [Fields.required]

@[simp] theorem required_tail (h : key ≠ other) :
    Fields.required ((other, j) :: fs) key read? = fs.required key read? := by
  have h' : (key == other) = false := by simpa using h
  simp [Fields.required, List.lookup_cons, h']

@[simp] theorem optional_nil : Fields.optional [] key read? default = some default := rfl

@[simp] theorem optional_head :
    Fields.optional ((key, j) :: fs) key read? default = read? j := by
  simp [Fields.optional]

@[simp] theorem optional_tail (h : key ≠ other) :
    Fields.optional ((other, j) :: fs) key read? default = fs.optional key read? default := by
  have h' : (key == other) = false := by simpa using h
  simp [Fields.optional, List.lookup_cons, h']

end Fields

/-! ## What is written -/

section records

variable {s : Spelling} {keys : List String} {ms : Fields}

/-- Members under different keys are found by their keys. -/
theorem objectFields?_obj (h : (ms.map (·.1)).Nodup) :
    objectFields? keys (.obj ms) = some (ms.filter fun m => keys.contains m.1) := by
  have hKnown : ((ms.filter fun m => keys.contains m.1).map (·.1)).Nodup :=
    h.sublist (List.filter_sublist.map _)
  exact if_pos hKnown

theorem objectFields?_known (h : (ms.map (·.1)).Nodup) (hKnown : ∀ m ∈ ms, m.1 ∈ keys) :
    objectFields? keys (.obj ms) = some ms := by
  rw [objectFields?_obj h, List.filter_eq_self.mpr fun m hm => by simpa using hKnown m hm]

theorem recordFields?_known (h : (ms.map (·.1)).Nodup) (hKnown : ∀ m ∈ ms, m.1 ∈ keys) :
    recordFields? keys (.obj ms) = some ms := objectFields?_known h hKnown

theorem caseFields?_known (h : (ms.map (·.1)).Nodup) (hKnown : ∀ m ∈ ms, m.1 ∈ keys) :
    caseFields? s keys (.obj ms) = some ms := by
  unfold caseFields?
  split <;> exact objectFields?_known h hKnown

theorem listOf?_map {read? : Json → Option α} {write : α → Json} {as : List α}
    (h : ∀ a ∈ as, read? (write a) = some a) : listOf? read? (.arr (as.map write)) = some as := by
  show (as.map write).mapM read? = some as
  induction as with
  | nil => rfl
  | cons a as ih =>
    obtain ⟨hHead, hTail⟩ := List.forall_mem_cons.mp h
    rw [List.map_cons, List.mapM_cons, hHead, ih hTail]
    rfl

theorem texts?_ofTexts (ss : List String) : texts? (ofTexts ss) = some ss :=
  listOf?_map fun _ _ => rfl

theorem natBelow?_ofNat {bound n : Nat} (h : n < bound) : natBelow? bound (ofNat n) = some n := by
  simp [natBelow?, ofNat, h]

theorem natBelow?_gives (bound : Nat) : Gives (natBelow? bound) (· < bound) := by
  intro j n hRead
  unfold natBelow? at hRead
  split at hRead
  · split at hRead
    · rename_i v h
      cases hRead
      omega
    · cases hRead
  · cases hRead

/-- A value of a finite type is found under its name. -/
theorem oneOf?_name {all : List α} {name : α → String} {a : α}
    (h : all.find? (name · == name a) = some a) : oneOf? s all name (.str (name a)) = some a := h

theorem nullable?_of_ne {read? : Json → Option α} {j : Json} {a : α} (hNull : j ≠ .null)
    (h : read? j = some a) : nullable? read? j = some (some a) := by
  unfold nullable?
  split
  · exact absurd rfl hNull
  · rw [h]
    rfl

end records

/-! ## Legible values -/

theorem allLegible_iff {js : List Json} : allLegible js = true ↔ ∀ j ∈ js, j.isLegible = true := by
  induction js with
  | nil => simp [allLegible]
  | cons j js ih => simp [allLegible, ih]

theorem membersLegible_iff {ms : Fields} :
    membersLegible ms = true ↔ ∀ m ∈ ms, m.2.isLegible = true := by
  induction ms with
  | nil => simp [membersLegible]
  | cons m ms ih => simp [membersLegible, ih]

@[simp] theorem isLegible_arr {js : List Json} :
    (Json.arr js).isLegible = true ↔ ∀ j ∈ js, j.isLegible = true := by
  rw [isLegible, allLegible_iff]

@[simp] theorem isLegible_obj {ms : Fields} :
    (Json.obj ms).isLegible = true ↔ ∀ m ∈ ms, m.2.isLegible = true := by
  rw [isLegible, membersLegible_iff]

@[simp] theorem isLegible_str (s : String) : (Json.str s).isLegible = true := rfl

theorem legible?_eq_some {j j' : Json} : legible? j = some j' ↔ j.isLegible = true ∧ j = j' := by
  unfold legible?
  split <;> simp_all

/-! ## Depth -/

theorem depth_lt_arr {j : Json} {js : List Json} (h : j ∈ js) : j.depth < (Json.arr js).depth := by
  rw [depth, Nat.lt_succ_iff]
  induction js with
  | nil => cases h
  | cons j' js ih =>
    rw [depthAll]
    rcases List.mem_cons.mp h with rfl | h
    · exact Nat.le_max_left _ _
    · exact Nat.le_trans (ih h) (Nat.le_max_right _ _)

theorem depth_lt_obj {m : String × Json} {ms : Fields} (h : m ∈ ms) :
    m.2.depth < (Json.obj ms).depth := by
  rw [depth, Nat.lt_succ_iff]
  induction ms with
  | nil => cases h
  | cons m' ms ih =>
    rw [depthMembers]
    rcases List.mem_cons.mp h with rfl | h
    · exact Nat.le_max_left _ _
    · exact Nat.le_trans (ih h) (Nat.le_max_right _ _)

theorem depth_lt_ofCase (name : String) (j : Json) : j.depth < (ofCase name j).depth :=
  depth_lt_obj (m := (name, j)) List.mem_cons_self

end LoopNest.Json

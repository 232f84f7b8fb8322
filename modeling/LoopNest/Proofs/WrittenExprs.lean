import LoopNest.Expr.Json
import LoopNest.Proofs.Evaluation
import LoopNest.Proofs.RecordFields

/-! # Expressions that are read back

  An expression can be stored in a file when its integers fit the word and its floating point numbers
  are finite. Every expression that is read from a file can be stored
  (`Expr.gives_ofJson?`), and one that can be stored is read back, however variants may be spelled
  (`Expr.ofJson?_toJson`). -/

namespace LoopNest

open Json (Fields Gives Spelling)

/-! ## Operators and types -/

theorem ElemType.ofJson?_toJson (s : Spelling) (e : ElemType) :
    ElemType.ofJson? s e.toJson = some e := by
  cases e <;> exact Json.oneOf?_name (by decide)

theorem UnaryOp.ofJson?_toJson (s : Spelling) (op : UnaryOp) :
    UnaryOp.ofJson? s op.toJson = some op := by
  cases op <;> exact Json.oneOf?_name (by decide)

theorem BinaryOp.ofJson?_toJson (s : Spelling) (op : BinaryOp) :
    BinaryOp.ofJson? s op.toJson = some op := by
  cases op <;> exact Json.oneOf?_name (by decide)

namespace Expr

/-! ## Expressions that can be stored -/

/-- Whether a file can hold a constant: integers fit the word, floating point numbers are finite. -/
def ConstantFits : Expr → Prop
  | .int v => Word.fits v = true
  | .float v => v.isFinite = true
  | _ => True

/-- Whether a file can hold all constants of an expression. -/
def Storable (e : Expr) : Prop := ∀ p ∈ e.parts, p.ConstantFits

section Storable

variable {e a b : Expr} {is : List Expr}

theorem storable_int {v : Int} : (Expr.int v).Storable ↔ Word.fits v = true := by
  simp [Storable, parts, ConstantFits]

theorem storable_float {v : Float} : (Expr.float v).Storable ↔ v.isFinite = true := by
  simp [Storable, parts, ConstantFits]

theorem storable_bool (v : Bool) : (Expr.bool v).Storable := by
  simp [Storable, parts, ConstantFits]

theorem storable_var (x : String) : (Expr.var x).Storable := by
  simp [Storable, parts, ConstantFits]

theorem storable_load {b : String} : (Expr.load b is).Storable ↔ ∀ i ∈ is, i.Storable := by
  simp only [Storable, parts, List.forall_mem_cons, mem_partsAll, ConstantFits, true_and]
  constructor
  · intro h i hi p hp
    exact h p ⟨i, hi, hp⟩
  · rintro h p ⟨i, hi, hp⟩
    exact h i hi p hp

theorem storable_unary {op : UnaryOp} : (Expr.unary op e).Storable ↔ e.Storable := by
  simp [Storable, parts, ConstantFits]

theorem storable_binary {op : BinaryOp} :
    (Expr.binary op a b).Storable ↔ a.Storable ∧ b.Storable := by
  simp only [Storable, parts, List.forall_mem_cons, List.forall_mem_append, ConstantFits, true_and]

end Storable

/-! ## Reading -/

theorem intWithin?_gives :
    Gives (Json.intWithin? Word.least Word.greatest) (fun v => Word.fits v = true) := by
  intro j v h
  unfold Json.intWithin? at h
  split at h
  · split at h
    · rename_i v' hBounds
      cases h
      exact Word.fits_iff.mpr hBounds
    · cases h
  · cases h

theorem finite?_eq_some {x y : Float} : Json.finite? x = some y ↔ x.isFinite = true ∧ x = y := by
  unfold Json.finite?
  split <;> simp_all

theorem float?_gives : Gives Json.float? (fun x => x.isFinite = true) := by
  intro j x h
  unfold Json.float? at h
  split at h
  · obtain ⟨hFinite, rfl⟩ := finite?_eq_some.mp h
    exact hFinite
  · obtain ⟨hFinite, rfl⟩ := finite?_eq_some.mp h
    exact hFinite
  · cases h

/-- What is read can be stored, by induction on the depth that is left. -/
theorem gives_ofJsonWithin? (s : Spelling) : ∀ d, Gives (ofJsonWithin? s d) Storable := by
  intro d
  induction d with
  | zero => exact fun j e h => nomatch h
  | succ d ih =>
    intro j e h
    obtain ⟨⟨name, part⟩, -, h⟩ := Option.bind_eq_some_iff.mp h
    -- a case for each name; only constants are checked, the others are as good as their parts
    split at h
    · exact intWithin?_gives.map (fun v hv => storable_int.mpr hv) h
    · exact float?_gives.map (fun v hv => storable_float.mpr hv) h
    · obtain ⟨v, -, rfl⟩ := Option.map_eq_some_iff.mp h
      exact storable_bool v
    · obtain ⟨x, -, rfl⟩ := Option.map_eq_some_iff.mp h
      exact storable_var x
    · obtain ⟨fs, -, h⟩ := Option.bind_eq_some_iff.mp h
      obtain ⟨b, -, h⟩ := Option.bind_eq_some_iff.mp h
      obtain ⟨is, his, h⟩ := Option.bind_eq_some_iff.mp h
      cases h
      exact storable_load.mpr (ih.listOf?.required his)
    · obtain ⟨fs, -, h⟩ := Option.bind_eq_some_iff.mp h
      obtain ⟨op, -, h⟩ := Option.bind_eq_some_iff.mp h
      obtain ⟨e, he, h⟩ := Option.bind_eq_some_iff.mp h
      cases h
      exact storable_unary.mpr (ih.required he)
    · obtain ⟨fs, -, h⟩ := Option.bind_eq_some_iff.mp h
      obtain ⟨op, -, h⟩ := Option.bind_eq_some_iff.mp h
      obtain ⟨a, ha, h⟩ := Option.bind_eq_some_iff.mp h
      obtain ⟨b, hb, h⟩ := Option.bind_eq_some_iff.mp h
      cases h
      exact storable_binary.mpr ⟨ih.required ha, ih.required hb⟩
    · cases h

/-- **Read expressions** can be stored. -/
theorem gives_ofJson? (s : Spelling) : Gives (ofJson? s) Storable :=
  fun j => gives_ofJsonWithin? s j.depth j

/-! ## Writing -/

theorem toJsons_eq_map (es : List Expr) : toJsons es = es.map toJson := by
  induction es with
  | nil => rfl
  | cons e es ih => rw [toJsons, ih, List.map_cons]

/-- The value of a written expression is a variant. -/
theorem toJson_ne_null (e : Expr) : e.toJson ≠ .null := by
  cases e <;> simp [toJson, Json.ofCase]

theorem isLegible_toJson : ∀ e : Expr, e.toJson.isLegible = true := by
  refine Expr.ind ?_ ?_ ?_ ?_ ?_ ?_ ?_
  · intro v
    rfl
  · intro v
    simp only [toJson, Json.ofCase, Json.ofFloat, Json.isLegible_obj, List.mem_singleton,
      forall_eq]
    split <;> rfl
  · intro v
    rfl
  · intro x
    rfl
  · intro b is ih
    simpa [toJson, Json.ofCase, toJsons_eq_map] using ih
  · intro op e ih
    simpa [toJson, Json.ofCase, UnaryOp.toJson] using ih
  · intro op a b iha ihb
    simpa [toJson, Json.ofCase, BinaryOp.toJson] using ⟨iha, ihb⟩

/-- A written expression is an object around what it carries. -/
theorem exists_depth {e : Expr} {d : Nat} (h : e.toJson.depth ≤ d) : ∃ d', d = d' + 1 := by
  cases d with
  | zero => cases e <;> simp [toJson, Json.ofCase, Json.depth] at h
  | succ d => exact ⟨d, rfl⟩

/-- What can be stored is read back when the depth allows it. -/
theorem ofJsonWithin?_toJson (s : Spelling) : ∀ e : Expr, e.Storable → ∀ d, e.toJson.depth ≤ d →
    ofJsonWithin? s d e.toJson = some e := by
  refine Expr.ind ?_ ?_ ?_ ?_ ?_ ?_ ?_
  · intro v h d hd
    obtain ⟨d, rfl⟩ := exists_depth hd
    show Expr.int <$> Json.intWithin? _ _ (.int v) = _
    rw [Json.intWithin?, if_pos (Word.fits_iff.mp (storable_int.mp h))]
    rfl
  · intro v h d hd
    obtain ⟨d, rfl⟩ := exists_depth hd
    have hFinite := storable_float.mp h
    rw [toJson, Json.ofFloat, if_pos hFinite]
    show Expr.float <$> Json.finite? v = _
    rw [finite?_eq_some.mpr ⟨hFinite, rfl⟩]
    rfl
  · intro v _ d hd
    obtain ⟨d, rfl⟩ := exists_depth hd
    rfl
  · intro x _ d hd
    obtain ⟨d, rfl⟩ := exists_depth hd
    rfl
  · intro b is ih h d hd
    obtain ⟨d, rfl⟩ := exists_depth hd
    rw [toJson, toJsons_eq_map] at hd ⊢
    have hCase := Json.depth_lt_ofCase "Load"
      (.obj [("var", .str b), ("indices", .arr (is.map toJson))])
    -- three levels down: an index is in an array in an object in the variant
    have hArray : (Json.arr (is.map toJson)).depth
        < (Json.obj [("var", .str b), ("indices", .arr (is.map toJson))]).depth :=
      Json.depth_lt_obj (m := ("indices", _)) (by simp)
    have hIndices : Json.listOf? (ofJsonWithin? s d) (.arr (is.map toJson)) = some is := by
      refine Json.listOf?_map fun i hi => ih i hi (storable_load.mp h i hi) d ?_
      have hIndex := Json.depth_lt_arr (List.mem_map_of_mem hi : i.toJson ∈ is.map toJson)
      omega
    simp [ofJsonWithin?, Json.ofCase, Json.case?, Json.caseFields?_known, Json.text?, hIndices]
  · intro op e ih h d hd
    obtain ⟨d, rfl⟩ := exists_depth hd
    rw [toJson] at hd ⊢
    have hCase := Json.depth_lt_ofCase "Unary" (.obj [("op", op.toJson), ("operand", e.toJson)])
    have hOperand : e.toJson.depth < (Json.obj [("op", op.toJson), ("operand", e.toJson)]).depth :=
      Json.depth_lt_obj (m := ("operand", _)) (by simp)
    have he := ih (storable_unary.mp h) d (by omega)
    simp [ofJsonWithin?, Json.ofCase, Json.case?, Json.caseFields?_known,
      UnaryOp.ofJson?_toJson, he]
  · intro op a b iha ihb h d hd
    obtain ⟨d, rfl⟩ := exists_depth hd
    rw [toJson] at hd ⊢
    have hCase := Json.depth_lt_ofCase "Binary"
      (.obj [("op", op.toJson), ("lhs", a.toJson), ("rhs", b.toJson)])
    have hLeft : a.toJson.depth
        < (Json.obj [("op", op.toJson), ("lhs", a.toJson), ("rhs", b.toJson)]).depth :=
      Json.depth_lt_obj (m := ("lhs", _)) (by simp)
    have hRight : b.toJson.depth
        < (Json.obj [("op", op.toJson), ("lhs", a.toJson), ("rhs", b.toJson)]).depth :=
      Json.depth_lt_obj (m := ("rhs", _)) (by simp)
    have ha := iha (storable_binary.mp h).1 d (by omega)
    have hb := ihb (storable_binary.mp h).2 d (by omega)
    simp [ofJsonWithin?, Json.ofCase, Json.case?, Json.caseFields?_known,
      BinaryOp.ofJson?_toJson, ha, hb]

/-- **Stored expressions** are read back. -/
theorem ofJson?_toJson (s : Spelling) {e : Expr} (h : e.Storable) :
    ofJson? s e.toJson = some e :=
  ofJsonWithin?_toJson s e h _ (Nat.le_refl _)

end Expr

end LoopNest

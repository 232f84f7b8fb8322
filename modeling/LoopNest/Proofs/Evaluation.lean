import LoopNest.Expr.Reduction
import LoopNest.Expr.Rename
import LoopNest.Expr.Simplify
import LoopNest.Proofs.Conventions

/-! # What a value depends on

  The value of an expression depends on the scalars it mentions and on the cells it reads, and on
  nothing else (`Expr.valueWith?_congr`). The other statements of this module are about

  * **sameness**: expressions that `Expr.same` identifies have one value;
  * **substitution**: replacing a scalar is the same as changing the environment;
  * **growth**: a value stays when contents or a quotient by zero are added;
  * **definedness**: on a memory without gaps only a division by zero keeps an expression from
    having a value. -/

namespace LoopNest

namespace Expr

/-! ## Parts -/

theorem partsAll_eq_flatMap (es : List Expr) : partsAll es = es.flatMap parts := by
  induction es with
  | nil => rfl
  | cons e es ih => simp [partsAll, ih]

theorem mem_partsAll {p : Expr} {es : List Expr} : p ∈ partsAll es ↔ ∃ e ∈ es, p ∈ e.parts := by
  rw [partsAll_eq_flatMap, List.mem_flatMap]

theorem parts_load (b : String) (is : List Expr) :
    (Expr.load b is).parts = .load b is :: is.flatMap parts :=
  congrArg _ (partsAll_eq_flatMap is)

theorem parts_unary (op : UnaryOp) (e : Expr) : (Expr.unary op e).parts = .unary op e :: e.parts := rfl

theorem parts_binary (op : BinaryOp) (a b : Expr) :
    (Expr.binary op a b).parts = .binary op a b :: (a.parts ++ b.parts) := rfl

theorem self_mem_parts (e : Expr) : e ∈ e.parts := by
  cases e <;> exact List.mem_cons_self

/-- Subscripts of a read are parts of it. -/
theorem mem_parts_load {p i : Expr} {b : String} {is : List Expr} (hi : i ∈ is) (hp : p ∈ i.parts) :
    p ∈ (Expr.load b is).parts := by
  rw [parts_load]
  exact List.mem_cons_of_mem _ (List.mem_flatMap.mpr ⟨i, hi, hp⟩)

theorem mem_parts_unary {p e : Expr} {op : UnaryOp} (hp : p ∈ e.parts) :
    p ∈ (Expr.unary op e).parts := by
  rw [parts_unary]
  exact List.mem_cons_of_mem _ hp

theorem mem_parts_left {p a b : Expr} {op : BinaryOp} (hp : p ∈ a.parts) :
    p ∈ (Expr.binary op a b).parts := by
  rw [parts_binary]
  exact List.mem_cons_of_mem _ (List.mem_append_left _ hp)

theorem mem_parts_right {p a b : Expr} {op : BinaryOp} (hp : p ∈ b.parts) :
    p ∈ (Expr.binary op a b).parts := by
  rw [parts_binary]
  exact List.mem_cons_of_mem _ (List.mem_append_right _ hp)

theorem mem_scalars {e : Expr} {x : String} : x ∈ e.scalars ↔ .var x ∈ e.parts := by
  unfold scalars
  rw [List.mem_filterMap]
  constructor
  · rintro ⟨p, hp, hx⟩
    cases p <;> simp [scalar?] at hx
    exact hx ▸ hp
  · exact fun h => ⟨.var x, h, rfl⟩

theorem mem_buffers {e : Expr} {b : String} :
    b ∈ e.buffers ↔ ∃ is, .load b is ∈ e.parts := by
  unfold buffers
  rw [List.mem_filterMap]
  constructor
  · rintro ⟨p, hp, hb⟩
    cases p <;> simp [buffer?] at hb
    exact ⟨_, hb ▸ hp⟩
  · exact fun ⟨is, h⟩ => ⟨.load b is, h, rfl⟩

theorem mentions_iff {e : Expr} {x : String} : e.mentions x = true ↔ x ∈ e.scalars := by
  simp [mentions]

theorem reads_iff {e : Expr} {b : String} : e.reads b = true ↔ b ∈ e.buffers := by
  simp [reads]

@[simp] theorem scalars_var (x : String) : (Expr.var x).scalars = [x] := rfl

@[simp] theorem scalars_int (v : Int) : (Expr.int v).scalars = [] := rfl

@[simp] theorem scalars_bool (v : Bool) : (Expr.bool v).scalars = [] := rfl

@[simp] theorem scalars_float (v : Float) : (Expr.float v).scalars = [] := rfl

@[simp] theorem scalars_load (b : String) (is : List Expr) :
    (Expr.load b is).scalars = is.flatMap scalars := by
  rw [scalars, parts_load, List.filterMap_cons_none rfl, List.filterMap_flatMap]
  rfl

@[simp] theorem scalars_unary (op : UnaryOp) (e : Expr) : (Expr.unary op e).scalars = e.scalars := by
  rw [scalars, parts_unary, List.filterMap_cons_none rfl]
  rfl

@[simp] theorem scalars_binary (op : BinaryOp) (a b : Expr) :
    (Expr.binary op a b).scalars = a.scalars ++ b.scalars := by
  rw [scalars, parts_binary, List.filterMap_cons_none rfl, List.filterMap_append]
  rfl

@[simp] theorem buffers_var (x : String) : (Expr.var x).buffers = [] := rfl

@[simp] theorem buffers_int (v : Int) : (Expr.int v).buffers = [] := rfl

@[simp] theorem buffers_bool (v : Bool) : (Expr.bool v).buffers = [] := rfl

@[simp] theorem buffers_float (v : Float) : (Expr.float v).buffers = [] := rfl

@[simp] theorem buffers_load (b : String) (is : List Expr) :
    (Expr.load b is).buffers = b :: is.flatMap buffers := by
  rw [buffers, parts_load]
  show b :: List.filterMap buffer? (is.flatMap parts) = _
  rw [List.filterMap_flatMap]
  rfl

@[simp] theorem buffers_unary (op : UnaryOp) (e : Expr) : (Expr.unary op e).buffers = e.buffers := by
  rw [buffers, parts_unary, List.filterMap_cons_none rfl]
  rfl

@[simp] theorem buffers_binary (op : BinaryOp) (a b : Expr) :
    (Expr.binary op a b).buffers = a.buffers ++ b.buffers := by
  rw [buffers, parts_binary, List.filterMap_cons_none rfl, List.filterMap_append]
  rfl

/-! ## Agreement -/

/-- **Dependence of a value**: the scalars that occur and the cells that are read decide it. -/
theorem valueWith?_congr {c : Conventions} {env env' : Env} {m m' : Memory} :
    ∀ e : Expr, (∀ x, .var x ∈ e.parts → env' x = env x) →
      (∀ b is cell, .load b is ∈ e.parts → valuesWith? c env m is = some cell →
        m' b cell = m b cell) →
      e.valueWith? c env' m' = e.valueWith? c env m := by
  refine Expr.ind ?_ ?_ ?_ ?_ ?_ ?_ ?_
  · exact fun _ _ _ => rfl
  · exact fun _ _ _ => rfl
  · exact fun _ _ _ => rfl
  · intro x hVar _
    simp only [valueWith?, hVar x (self_mem_parts _)]
  · intro b is ih hVar hLoad
    have hSubscripts : valuesWith? c env' m' is = valuesWith? c env m is :=
      valuesWith?_congr fun i hi => ih i hi
        (fun x hx => hVar x (mem_parts_load hi hx))
        (fun b' is' cell hp => hLoad b' is' cell (mem_parts_load hi hp))
    simp only [valueWith?, hSubscripts]
    cases hCell : valuesWith? c env m is with
    | none => rfl
    | some cell => exact hLoad b is cell (self_mem_parts _) hCell
  · intro op e ih hVar hLoad
    have he := ih (fun x hx => hVar x (mem_parts_unary hx))
      (fun b is cell hp => hLoad b is cell (mem_parts_unary hp))
    simp only [valueWith?, he]
  · intro op a b iha ihb hVar hLoad
    have ha := iha (fun x hx => hVar x (mem_parts_left hx))
      (fun b' is cell hp => hLoad b' is cell (mem_parts_left hp))
    have hb := ihb (fun x hx => hVar x (mem_parts_right hx))
      (fun b' is cell hp => hLoad b' is cell (mem_parts_right hp))
    simp only [valueWith?, ha, hb]

/-- Environments that agree on the scalars of an expression, and memories that agree on the buffers
    it reads, give it one value. -/
theorem valueWith?_congr_names {c : Conventions} {env env' : Env} {m m' : Memory} {e : Expr}
    (hVar : ∀ x ∈ e.scalars, env' x = env x) (hBuffer : ∀ b ∈ e.buffers, m' b = m b) :
    e.valueWith? c env' m' = e.valueWith? c env m := by
  apply valueWith?_congr
  · exact fun x hx => hVar x (mem_scalars.mpr hx)
  · intro b is cell hp _
    rw [hBuffer b (mem_buffers.mpr ⟨is, hp⟩)]

/-- An expression reads none of some buffers. -/
def Avoids (e : Expr) (buffers : List String) : Prop := ∀ b ∈ buffers, e.reads b = false

theorem avoids_of_any {e : Expr} {buffers : List String} (h : ¬ buffers.any e.reads = true) :
    e.Avoids buffers := by
  intro b hb
  rw [Bool.eq_false_iff]
  exact fun hReads => h (List.any_eq_true.mpr ⟨b, hb, hReads⟩)

/-- Buffers that an expression does not read do not change its value. -/
theorem Avoids.valueWith?_eq {e : Expr} {buffers : List String} (h : e.Avoids buffers)
    (c : Conventions) (env : Env) {m m' : Memory} (hSame : ∀ b, b ∉ buffers → m' b = m b) :
    e.valueWith? c env m' = e.valueWith? c env m := by
  apply valueWith?_congr_names fun _ _ => rfl
  intro b hb
  apply hSame
  intro hMem
  exact absurd (reads_iff.mpr hb) (by rw [h b hMem]; decide)

/-- Scalars that an expression does not mention do not change its value. -/
theorem valueWith?_set {e : Expr} {x : String} (h : e.mentions x = false) (c : Conventions)
    (env : Env) (v : Int) (m : Memory) :
    e.valueWith? c (env.set x v) m = e.valueWith? c env m := by
  refine valueWith?_congr_names ?_ fun _ _ => rfl
  intro y hy
  apply Env.set_ne
  rintro rfl
  exact absurd (mentions_iff.mpr hy) (by rw [h]; decide)

/-- Lists with equal values have equal values place by place. -/
theorem exists_value_of_mem_zip {c : Conventions} {env env' : Env} {m m' : Memory}
    {es fs : List Expr} {vs : List Int} (he : valuesWith? c env m es = some vs)
    (hf : valuesWith? c env' m' fs = some vs) {p : Expr × Expr} (hp : p ∈ es.zip fs) :
    ∃ v, p.1.valueWith? c env m = some v ∧ p.2.valueWith? c env' m' = some v := by
  induction es generalizing fs vs with
  | nil => cases hp
  | cons e es ih => cases fs with
    | nil => cases hp
    | cons f fs =>
      simp only [valuesWith?, Option.bind_eq_bind, Option.bind_eq_some_iff] at he hf
      obtain ⟨v, hv, ws, hws, hvs⟩ := he
      obtain ⟨v', hv', ws', hws', hvs'⟩ := hf
      cases hvs
      cases hvs'
      rw [List.zip_cons_cons] at hp
      rcases List.mem_cons.mp hp with rfl | hp
      · exact ⟨v, hv, hv'⟩
      · exact ih hws hws' hp

/-! ## Cells -/

/-- The cells that an expression reads, for the parts whose subscripts have values. -/
def cells (c : Conventions) (env : Env) (m : Memory) (e : Expr) : List (String × List Int) :=
  e.parts.filterMap fun
    | .load b is => (valuesWith? c env m is).map (b, ·)
    | _ => none

theorem mem_cells {c : Conventions} {env : Env} {m : Memory} {e : Expr} {b : String}
    {cell : List Int} : (b, cell) ∈ e.cells c env m ↔
      ∃ is, .load b is ∈ e.parts ∧ valuesWith? c env m is = some cell := by
  unfold cells
  rw [List.mem_filterMap]
  constructor
  · rintro ⟨p, hp, h⟩
    cases p <;> simp at h
    obtain ⟨hCell, rfl⟩ := h
    exact ⟨_, hp, hCell⟩
  · rintro ⟨is, hp, h⟩
    exact ⟨.load b is, hp, by simp [h]⟩

/-- An expression has the same value on all memories that agree on the cells it reads. -/
theorem valueWith?_eq_of_cells {c : Conventions} {env : Env} {m m' : Memory} {e : Expr}
    (h : ∀ b cell, (b, cell) ∈ e.cells c env m → m' b cell = m b cell) :
    e.valueWith? c env m' = e.valueWith? c env m :=
  valueWith?_congr e (fun _ _ => rfl) fun b is cell hp hCell =>
    h b cell (mem_cells.mpr ⟨is, hp, hCell⟩)

theorem valuesWith?_eq_of_cells {c : Conventions} {env : Env} {m m' : Memory} {es : List Expr}
    (h : ∀ e ∈ es, ∀ b cell, (b, cell) ∈ e.cells c env m → m' b cell = m b cell) :
    valuesWith? c env m' es = valuesWith? c env m es :=
  valuesWith?_congr fun e he => valueWith?_eq_of_cells (h e he)

/-! ## Sameness -/

/-- The lists of values of two lists that are the same place by place. -/
theorem valuesWith?_of_sameAll {c : Conventions} {env : Env} {m : Memory} {es fs : List Expr}
    (ih : ∀ e ∈ es, ∀ f, e.same f = true → e.valueWith? c env m = f.valueWith? c env m)
    (h : sameAll es fs = true) : valuesWith? c env m es = valuesWith? c env m fs := by
  induction es generalizing fs with
  | nil => cases fs with
    | nil => rfl
    | cons f fs => simp [sameAll] at h
  | cons e es ihList => cases fs with
    | nil => simp [sameAll] at h
    | cons f fs =>
      simp only [sameAll, Bool.and_eq_true] at h
      have hHead := ih e List.mem_cons_self f h.1
      have hTail := ihList (fun e' he => ih e' (List.mem_cons_of_mem e he)) h.2
      simp only [valuesWith?, hHead, hTail]

/-- Expressions that are the same have one value. -/
theorem valueWith?_of_same {c : Conventions} {env : Env} {m : Memory} :
    ∀ e f : Expr, e.same f = true → e.valueWith? c env m = f.valueWith? c env m := by
  refine Expr.ind ?_ ?_ ?_ ?_ ?_ ?_ ?_
  · intro v f h
    cases f <;> simp_all [same]
  · intro v f h
    cases f <;> simp_all [same, valueWith?]
  · intro v f h
    cases f <;> simp_all [same]
  · intro x f h
    cases f <;> simp_all [same]
  · intro b is ih f h
    cases f <;> simp only [same, Bool.and_eq_true, beq_iff_eq, Bool.false_eq_true] at h
    obtain ⟨rfl, hAll⟩ := h
    simp only [valueWith?, valuesWith?_of_sameAll ih hAll]
  · intro op e ih f h
    cases f <;> simp only [same, Bool.and_eq_true, beq_iff_eq, Bool.false_eq_true] at h
    obtain ⟨rfl, he⟩ := h
    simp only [valueWith?, ih _ he]
  · intro op a b iha ihb f h
    cases f <;> simp only [same, Bool.and_eq_true, beq_iff_eq, Bool.false_eq_true] at h
    obtain ⟨⟨rfl, ha⟩, hb⟩ := h
    simp only [valueWith?, iha _ ha, ihb _ hb]

/-- A read that `isCell` recognises gives the content of the cell. -/
theorem valueWith?_of_isCell {c : Conventions} {env : Env} {m : Memory} {e : Expr} {b : String}
    {is : List Expr} (h : e.isCell b is = true) :
    e.valueWith? c env m = (valuesWith? c env m is).bind (m b) := by
  cases e <;> simp only [isCell, Bool.and_eq_true, beq_iff_eq, Bool.false_eq_true] at h
  obtain ⟨rfl, hAll⟩ := h
  rw [← valuesWith?_of_sameAll (fun e _ => valueWith?_of_same e) hAll, valueWith?]
  rfl

/-! ## Substitution -/

theorem values?_eq_mapM (env : Env) (m : Memory) (es : List Expr) :
    values? env m es = es.mapM (value? env m) := by
  induction es with
  | nil => rfl
  | cons e es ih =>
    rw [values?, List.mapM_cons, ih]

theorem valuesWith?_eq_mapM (c : Conventions) (env : Env) (m : Memory) (es : List Expr) :
    valuesWith? c env m es = es.mapM (valueWith? c env m) := by
  induction es with
  | nil => rfl
  | cons e es ih => rw [valuesWith?, List.mapM_cons, ih]

theorem mapM_map_congr {f g : Expr → Option Int} {change : Expr → Expr} {es : List Expr}
    (h : ∀ e ∈ es, f (change e) = g e) : (es.map change).mapM f = es.mapM g := by
  induction es with
  | nil => rfl
  | cons e es ih =>
    rw [List.map_cons, List.mapM_cons, List.mapM_cons, h e List.mem_cons_self,
      ih fun d hd => h d (List.mem_cons_of_mem e hd)]

/-- Replacing the scalar `x` by an expression changes the value as setting `x` does. -/
theorem valueWith?_substitute {c : Conventions} {env : Env} {m : Memory} {x : String} {w : Expr}
    {v : Int} (hw : w.valueWith? c env m = some v) :
    ∀ e : Expr, (e.substitute [(x, w)]).valueWith? c env m = e.valueWith? c (env.set x v) m := by
  refine Expr.ind ?_ ?_ ?_ ?_ ?_ ?_ ?_
  · exact fun _ => rfl
  · exact fun _ => rfl
  · exact fun _ => rfl
  · intro y
    by_cases hy : y = x
    · subst hy
      simp [substitute, valueWith?, hw]
    · have hLookup : List.lookup y [(x, w)] = none := by
        rw [List.lookup_cons, beq_eq_false_iff_ne.mpr hy]
        rfl
      simp [substitute, valueWith?, hLookup, Env.set, hy]
  · intro b is ih
    have hSubscripts : valuesWith? c env m (is.map (substitute [(x, w)]))
        = valuesWith? c (env.set x v) m is := by
      induction is with
      | nil => rfl
      | cons i is ihList =>
        have hHead := ih i List.mem_cons_self
        have hTail := ihList fun j hj => ih j (List.mem_cons_of_mem i hj)
        simp only [List.map_cons, valuesWith?, hHead, hTail]
    simp only [substitute, valueWith?, substituteAll_eq_map, hSubscripts]
  · intro op e ih
    simp only [substitute, valueWith?, ih]
  · intro op a b iha ihb
    simp only [substitute, valueWith?, iha, ihb]

end Expr

/-! ## Growth -/

/-- A memory extends another when it holds everything that the other one holds. -/
def Memory.Extends (m' m : Memory) : Prop := ∀ b cell v, m b cell = some v → m' b cell = some v

theorem Memory.Extends.refl (m : Memory) : m.Extends m := fun _ _ _ h => h

/-- Conventions extend others when local buffers hold more and more divisions have a value. -/
structure Conventions.Extends (c' c : Conventions) : Prop where
  fresh : ∀ l, (c'.fresh l).Extends (c.fresh l)
  quotient : ∀ v, c.quotient = some v → c'.quotient = some v

/-- All conventions under which local buffers hold at least what one memory holds extend its own. -/
theorem Conventions.extends_reference {c : Conventions} {fresh : Memory}
    (h : ∀ l, (c.fresh l).Extends fresh) : c.Extends (.reference fresh) where
  fresh := h
  quotient _ hNone := by cases hNone

theorem BinaryOp.valueWith?_mono {c c' : Conventions} (hc : c'.Extends c) {op : BinaryOp}
    {x y v : Int} (h : op.valueWith? c x y = some v) : op.valueWith? c' x y = some v := by
  unfold valueWith? at h ⊢
  cases hOp : op.value? x y with
  | none =>
    rw [hOp, Option.none_or] at h
    rw [Option.none_or]
    exact hc.quotient v h
  | some w =>
    rw [hOp, Option.some_or] at h
    rw [Option.some_or]
    exact h

namespace Expr

variable {c c' : Conventions} {env : Env} {m m' : Memory}

theorem valuesWith?_mono_of_forall {es : List Expr}
    (ih : ∀ e ∈ es, ∀ v, e.valueWith? c env m = some v → e.valueWith? c' env m' = some v)
    {vs : List Int} (h : valuesWith? c env m es = some vs) :
    valuesWith? c' env m' es = some vs := by
  induction es generalizing vs with
  | nil => exact h
  | cons e es ihList =>
    simp only [valuesWith?, Option.bind_eq_bind, Option.bind_eq_some_iff] at h
    obtain ⟨v, hv, ws, hws, hvs⟩ := h
    have hHead := ih e List.mem_cons_self v hv
    have hTail := ihList (fun e' he => ih e' (List.mem_cons_of_mem e he)) hws
    simp only [valuesWith?, hHead, hTail]
    exact hvs

/-- An expression keeps its value when the memory or the conventions are extended. -/
theorem valueWith?_mono (hc : c'.Extends c) (hm : m'.Extends m) :
    ∀ (e : Expr) (v : Int), e.valueWith? c env m = some v → e.valueWith? c' env m' = some v := by
  refine Expr.ind ?_ ?_ ?_ ?_ ?_ ?_ ?_
  · exact fun _ _ h => h
  · exact fun _ _ h => h
  · exact fun _ _ h => h
  · exact fun _ _ h => h
  · intro b is ih v h
    simp only [valueWith?, Option.bind_eq_bind, Option.bind_eq_some_iff] at h ⊢
    obtain ⟨cell, hCell, hv⟩ := h
    exact ⟨cell, valuesWith?_mono_of_forall ih hCell, hm b cell v hv⟩
  · intro op e ih v h
    simp only [valueWith?, Option.bind_eq_bind, Option.bind_eq_some_iff] at h ⊢
    obtain ⟨w, hw, hv⟩ := h
    exact ⟨w, ih w hw, hv⟩
  · intro op a b iha ihb v h
    simp only [valueWith?, Option.bind_eq_bind, Option.bind_eq_some_iff] at h ⊢
    obtain ⟨x, hx, y, hy, hv⟩ := h
    exact ⟨x, iha x hx, y, ihb y hy, BinaryOp.valueWith?_mono hc hv⟩

theorem valuesWith?_mono (hc : c'.Extends c) (hm : m'.Extends m) {es : List Expr} {vs : List Int}
    (h : valuesWith? c env m es = some vs) : valuesWith? c' env m' es = some vs :=
  valuesWith?_mono_of_forall (fun e _ => valueWith?_mono hc hm e) h

/-! ## Folding while building -/

/-- A constant has its value. -/
theorem valueWith?_of_int? {c : Conventions} {env : Env} {m : Memory} {e : Expr} {v : Int}
    (h : e.int? = some v) : e.valueWith? c env m = some v := by
  cases e <;> cases h
  rfl

section folding

variable {c : Conventions} {env : Env} {m : Memory} {a b : Expr} {x y : Int}

theorem valueWith?_add (ha : a.valueWith? c env m = some x) (hb : b.valueWith? c env m = some y) :
    (a.add b).valueWith? c env m = some (x + y) := by
  simp [add, valueWith?, ha, hb, BinaryOp.valueWith?, BinaryOp.value?]

theorem valueWith?_sub (ha : a.valueWith? c env m = some x) (hb : b.valueWith? c env m = some y) :
    (a.sub b).valueWith? c env m = some (x - y) := by
  simp [sub, valueWith?, ha, hb, BinaryOp.valueWith?, BinaryOp.value?]

/-- A sum is an operand next to zero, the sum of two constants, or left as it is. -/
theorem plus_cases (a b : Expr) :
    a.plus b = b ∧ a.int? = some 0 ∨ a.plus b = a ∧ b.int? = some 0 ∨ a.plus b = a.add b
      ∨ ∃ x y, a.int? = some x ∧ b.int? = some y ∧ a.plus b = .int (x + y) := by
  unfold plus
  split
  · rename_i x y hx hy
    cases hWord : Word.add? x y with
    | some w =>
      rw [Option.elim_some, ← (Word.add?_eq_some.mp hWord).2]
      exact .inr (.inr (.inr ⟨x, y, hx, hy, rfl⟩))
    | none =>
      rw [Option.elim_none]
      split
      · rename_i hZero
        exact .inl ⟨rfl, hZero ▸ hx⟩
      · split
        · rename_i hZero
          exact .inr (.inl ⟨rfl, hZero ▸ hy⟩)
        · exact .inr (.inr (.inl rfl))
  · rename_i x hx _
    split
    · rename_i hZero
      exact .inl ⟨rfl, hZero ▸ hx⟩
    · exact .inr (.inr (.inl rfl))
  · rename_i y _ hy
    split
    · rename_i hZero
      exact .inr (.inl ⟨rfl, hZero ▸ hy⟩)
    · exact .inr (.inr (.inl rfl))
  · exact .inr (.inr (.inl rfl))

/-- A difference is the first operand before zero, the difference of two constants, or left as it
    is. -/
theorem minus_cases (a b : Expr) :
    a.minus b = a ∧ b.int? = some 0 ∨ a.minus b = a.sub b
      ∨ ∃ x y, a.int? = some x ∧ b.int? = some y ∧ a.minus b = .int (x - y) := by
  unfold minus
  split
  · rename_i x y hx hy
    cases hWord : Word.sub? x y with
    | some w =>
      rw [Option.elim_some, ← (Word.sub?_eq_some.mp hWord).2]
      exact .inr (.inr ⟨x, y, hx, hy, rfl⟩)
    | none =>
      rw [Option.elim_none]
      split
      · rename_i hZero
        exact .inl ⟨rfl, hZero ▸ hy⟩
      · exact .inr (.inl rfl)
  · rename_i y _ hy
    split
    · rename_i hZero
      exact .inl ⟨rfl, hZero ▸ hy⟩
    · exact .inr (.inl rfl)
  · exact .inr (.inl rfl)

theorem valueWith?_plus (ha : a.valueWith? c env m = some x) (hb : b.valueWith? c env m = some y) :
    (a.plus b).valueWith? c env m = some (x + y) := by
  rcases plus_cases a b with ⟨hEq, hZero⟩ | ⟨hEq, hZero⟩ | hEq | ⟨x', y', hx, hy, hEq⟩
  · obtain rfl : 0 = x := Option.some.inj ((valueWith?_of_int? hZero).symm.trans ha)
    rw [hEq, hb, Int.zero_add]
  · obtain rfl : 0 = y := Option.some.inj ((valueWith?_of_int? hZero).symm.trans hb)
    rw [hEq, ha, Int.add_zero]
  · rw [hEq, valueWith?_add ha hb]
  · obtain rfl : x' = x := Option.some.inj ((valueWith?_of_int? hx).symm.trans ha)
    obtain rfl : y' = y := Option.some.inj ((valueWith?_of_int? hy).symm.trans hb)
    rw [hEq, valueWith?]

theorem valueWith?_minus (ha : a.valueWith? c env m = some x) (hb : b.valueWith? c env m = some y) :
    (a.minus b).valueWith? c env m = some (x - y) := by
  rcases minus_cases a b with ⟨hEq, hZero⟩ | hEq | ⟨x', y', hx, hy, hEq⟩
  · obtain rfl : 0 = y := Option.some.inj ((valueWith?_of_int? hZero).symm.trans hb)
    rw [hEq, ha, Int.sub_zero]
  · rw [hEq, valueWith?_sub ha hb]
  · obtain rfl : x' = x := Option.some.inj ((valueWith?_of_int? hx).symm.trans ha)
    obtain rfl : y' = y := Option.some.inj ((valueWith?_of_int? hy).symm.trans hb)
    rw [hEq, valueWith?]

end folding

end Expr

/-! ## Definedness -/

/-- A memory without gaps: every cell has a content. -/
def Memory.Full (m : Memory) : Prop := ∀ b cell, (m b cell).isSome

theorem Memory.Full.put {m : Memory} (h : m.Full) (b : String) (is : List Int) (v : Int) :
    (m.put b is v).Full := by
  intro b' is'
  by_cases hCell : b' = b ∧ is' = is
  · simp [Memory.put, hCell]
  · simpa [Memory.put, hCell] using h b' is'

theorem Memory.Full.exchange {m : Memory} (h : m.Full) (b : String) {cells : Cells}
    (hCells : ∀ is, (cells is).isSome) : (m.exchange b cells).Full := by
  intro b' is
  by_cases hb : b' = b
  · simpa [Memory.exchange, hb] using hCells is
  · simpa [Memory.exchange, hb] using h b' is

/-- The only memory that extends one without gaps is that memory itself. -/
theorem Memory.Extends.eq_of_full {m m' : Memory} (h : m'.Extends m) (hm : m.Full) : m' = m := by
  funext b cell
  obtain ⟨v, hv⟩ := Option.isSome_iff_exists.mp (hm b cell)
  rw [hv]
  exact h b cell v hv

/-- An expression has a value in some environments, in all memories without gaps. -/
def Expr.DefinedOn (e : Expr) (c : Conventions) (E : Env → Prop) : Prop :=
  ∀ env, E env → ∀ m : Memory, m.Full → (e.valueWith? c env m).isSome

/-- Whether a float constant occurs in an expression. -/
def Expr.hasFloat (e : Expr) : Bool := e.parts.any fun
  | .float _ => true
  | _ => false

namespace Expr

theorem not_hasFloat_iff {e : Expr} :
    e.hasFloat = false ↔ ∀ v, Expr.float v ∉ e.parts := by
  unfold hasFloat
  rw [List.any_eq_false]
  constructor
  · intro h v hv
    simpa using h _ hv
  · intro h p hp
    cases p <;> simp
    exact h _ hp

theorem valuesWith?_isSome {c : Conventions} {env : Env} {m : Memory} {es : List Expr}
    (h : ∀ e ∈ es, (e.valueWith? c env m).isSome) : (valuesWith? c env m es).isSome := by
  induction es with
  | nil => rfl
  | cons e es ih =>
    obtain ⟨v, hv⟩ := Option.isSome_iff_exists.mp (h e List.mem_cons_self)
    obtain ⟨vs, hvs⟩ := Option.isSome_iff_exists.mp
      (ih fun e' he => h e' (List.mem_cons_of_mem e he))
    simp [valuesWith?, hv, hvs]

/-- Without float constants and on a memory without gaps, every expression has a value when
    divisions by zero have one. -/
theorem valueWith?_isSome {c : Conventions} {env : Env} {m : Memory} (hc : c.quotient.isSome)
    (hm : m.Full) : ∀ e : Expr, (∀ v, Expr.float v ∉ e.parts) → (e.valueWith? c env m).isSome := by
  refine Expr.ind ?_ ?_ ?_ ?_ ?_ ?_ ?_
  · exact fun _ _ => rfl
  · exact fun v h => absurd (self_mem_parts _) (h v)
  · exact fun _ _ => rfl
  · exact fun _ _ => rfl
  · intro b is ih h
    obtain ⟨cell, hCell⟩ := Option.isSome_iff_exists.mp
      (valuesWith?_isSome fun i hi => ih i hi fun v hv => h v (mem_parts_load hi hv))
    simpa [valueWith?, hCell] using hm b cell
  · intro op e ih h
    obtain ⟨v, hv⟩ := Option.isSome_iff_exists.mp (ih fun v hv => h v (mem_parts_unary hv))
    simp [valueWith?, hv]
  · intro op a b iha ihb h
    obtain ⟨x, hx⟩ := Option.isSome_iff_exists.mp (iha fun v hv => h v (mem_parts_left hv))
    obtain ⟨y, hy⟩ := Option.isSome_iff_exists.mp (ihb fun v hv => h v (mem_parts_right hv))
    simp only [valueWith?, hx, hy, Option.bind_eq_bind, Option.bind_some, BinaryOp.valueWith?]
    cases op.value? x y with
    | none => exact hc
    | some v => rfl

end Expr

end LoopNest

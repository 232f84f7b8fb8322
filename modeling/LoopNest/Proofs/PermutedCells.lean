import LoopNest.Proofs.CommittedPrograms
import LoopNest.Proofs.KeptScopes
import LoopNest.Proofs.PermutedNests

/-! # Buffers with permuted dimensions

  When the dimensions of a local buffer are permuted, every element gets another place, and every
  access looks for it there.

  * **Places**: where an element goes (`Expr.place`), and that no two go to one place
    (`Expr.place_injective`).
  * **Runs**: with the elements at their new places the permuted statements run like the old ones
    (`Stmt.matches_permuteAccesses`).
  * **Programs**: a program with a permuted buffer runs like the program when the buffer holds at
    first, at the new places, what it held before (`Restructure.change_varReorder`). -/

namespace LoopNest

/-! ## Places -/

namespace Expr

variable {α β : Type} {order : List Nat}

theorem permuted_map (f : α → β) (order : List Nat) (xs : List α) :
    permuted order (xs.map f) = (permuted order xs).map f := by
  unfold permuted
  rw [List.map_filterMap]
  exact List.filterMap_congr fun k _ => List.getElem?_map

/-- What stands at a place of a permuted list. -/
theorem getElem?_permuted {xs : List α} (h : ∀ k ∈ order, k < xs.length) (i : Nat) :
    (permuted order xs)[i]? = order[i]?.bind (xs[·]?) := by
  induction order generalizing i with
  | nil => rfl
  | cons k order ih =>
    obtain ⟨x, hHead⟩ : ∃ x, xs[k]? = some x :=
      ⟨_, List.getElem?_eq_getElem (h k List.mem_cons_self)⟩
    have hCons : permuted (k :: order) xs = x :: permuted order xs :=
      List.filterMap_cons_some hHead
    rw [hCons]
    cases i with
    | zero => exact hHead.symm
    | succ i => exact ih (fun k hk => h k (List.mem_cons_of_mem _ hk)) i

/-- The place of an element of a buffer whose dimensions are permuted. Elements with another number
    of subscripts stay where they are. -/
def place (order : List Nat) (xs : List α) : List α :=
  if xs.length = order.length then permuted order xs else xs

theorem place_map (f : α → β) (order : List Nat) (xs : List α) :
    place order (xs.map f) = (place order xs).map f := by
  unfold place
  rw [List.length_map]
  split
  · exact permuted_map f order xs
  · rfl

variable (hOrder : order.Perm (List.range order.length))

include hOrder

theorem place_perm (xs : List α) : (place order xs).Perm xs := by
  unfold place
  split
  · rename_i hLength
    exact Restructure.permuted_perm (hLength ▸ hOrder)
  · exact .refl xs

/-- Different elements have different places. -/
theorem place_injective {xs ys : List α} (h : place order xs = place order ys) : xs = ys := by
  have hLength : xs.length = ys.length := by
    rw [← (place_perm hOrder xs).length_eq, h, (place_perm hOrder ys).length_eq]
  unfold place at h
  by_cases hx : xs.length = order.length
  · have hLess : ∀ k ∈ order, k < xs.length := fun k hk =>
      hx ▸ List.mem_range.mp (hOrder.mem_iff.mp hk)
    rw [if_pos hx, if_pos (hLength ▸ hx)] at h
    apply List.ext_getElem?
    intro k
    by_cases hk : k < xs.length
    · -- the subscript `k` stands somewhere in the permuted lists
      have hMem : k ∈ order := hOrder.mem_iff.mpr (List.mem_range.mpr (hx ▸ hk))
      obtain ⟨i, hi⟩ := List.mem_iff_getElem?.mp hMem
      have hSame : (permuted order xs)[i]? = (permuted order ys)[i]? := by rw [h]
      rwa [getElem?_permuted hLess, getElem?_permuted (hLength ▸ hLess), hi] at hSame
    · rw [List.getElem?_eq_none (by omega), List.getElem?_eq_none (by omega)]
  · rwa [if_neg hx, if_neg (hLength ▸ hx)] at h

end Expr

/-! ## Memories -/

namespace Memory

/-- The second memory holds what the first one holds, the elements of one buffer at their new
    places. -/
structure Placed (n : String) (order : List Nat) (m m' : Memory) : Prop where
  cells : ∀ is, m' n (Expr.place order is) = m n is
  others : ∀ b, b ≠ n → m' b = m b

namespace Placed

variable {n : String} {order : List Nat} {m m' : Memory}

/-- An element is found where its subscripts say. -/
theorem read (h : Placed n order m m') (b : String) (is : List Int) :
    m' b (if b = n then Expr.place order is else is) = m b is := by
  by_cases hb : b = n
  · rw [if_pos hb, hb, h.cells]
  · rw [if_neg hb, h.others b hb]

theorem put (hOrder : order.Perm (List.range order.length)) (h : Placed n order m m') (b : String)
    (is : List Int) (v : Int) :
    Placed n order (m.put b is v) (m'.put b (if b = n then Expr.place order is else is) v) := by
  constructor
  · intro js
    unfold Memory.put
    by_cases hb : n = b
    · rw [if_pos hb.symm, h.cells]
      by_cases hCell : js = is
      · rw [if_pos ⟨hb, congrArg _ hCell⟩, if_pos ⟨hb, hCell⟩]
      · rw [if_neg fun hEq => hCell (Expr.place_injective hOrder hEq.2), if_neg fun hEq => hCell hEq.2]
    · rw [if_neg fun hEq => hb hEq.1, if_neg fun hEq => hb hEq.1, h.cells]
  · intro b' hb'
    by_cases hSame : b' = b
    · subst hSame
      rw [if_neg hb']
      funext js
      unfold Memory.put
      rw [h.others b' hb']
    · rw [put_ne_buffer hSame, put_ne_buffer hSame, h.others b' hb']

/-- Another buffer gets the same contents in both memories. -/
theorem exchange (h : Placed n order m m') {b : String} (hb : b ≠ n) (cells : Cells) :
    Placed n order (m.exchange b cells) (m'.exchange b cells) := by
  constructor
  · intro is
    rw [exchange_ne hb.symm, exchange_ne hb.symm, h.cells]
  · intro b' hb'
    by_cases hSame : b' = b
    · rw [hSame, exchange_self, exchange_self]
    · rw [exchange_ne hSame, exchange_ne hSame, h.others b' hb']

/-- The buffer itself gets the same elements, each at its place. -/
theorem enter (m : Memory) {cells cells' : Cells} (hCells : ∀ is, cells' (Expr.place order is) = cells is) :
    Placed n order (m.exchange n cells) (m.exchange n cells') := by
  constructor
  · intro is
    rw [exchange_self, exchange_self, hCells]
  · intro b hb
    rw [exchange_ne hb, exchange_ne hb]

/-- Without the buffer both memories are the same. -/
theorem leave (h : Placed n order m m') (cells : Cells) : m'.exchange n cells = m.exchange n cells := by
  funext b
  by_cases hb : b = n
  · rw [hb, exchange_self, exchange_self]
  · rw [exchange_ne hb, exchange_ne hb, h.others b hb]

end Placed

end Memory

/-! ## Expressions -/

namespace Expr

variable {n : String} {order : List Nat} {c c' : Conventions} {env : Env} {m m' : Memory}

theorem valuesWith?_eq_some {es : List Expr} {vs : List Int} :
    valuesWith? c env m es = some vs ↔ es.map (valueWith? c env m) = vs.map some := by
  induction es generalizing vs with
  | nil => cases vs <;> simp [valuesWith?]
  | cons e es ih =>
    cases vs with
    | nil => simp [valuesWith?, Option.bind_eq_some_iff]
    | cons v vs =>
      simp only [valuesWith?, Option.bind_eq_bind, Option.bind_eq_some_iff, List.map_cons,
        List.cons.injEq, ← ih]
      constructor
      · rintro ⟨v', hv, vs', hvs, hEq⟩
        cases hEq
        exact ⟨hv, hvs⟩
      · rintro ⟨hv, hvs⟩
        exact ⟨v, hv, vs, hvs, rfl⟩

/-- The values of a permuted list are the permuted values. -/
theorem valuesWith?_place (hOrder : order.Perm (List.range order.length)) (es : List Expr) :
    valuesWith? c env m (place order es) = (valuesWith? c env m es).map (place order) := by
  cases hValues : valuesWith? c env m es with
  | some vs =>
    rw [Option.map_some, valuesWith?_eq_some, ← place_map, valuesWith?_eq_some.mp hValues, place_map]
  | none =>
    -- what has no value in the list has none in the permuted list either
    rw [Option.map_none, ← Option.not_isSome_iff_eq_none]
    intro hSome
    obtain ⟨vs, hvs⟩ := Option.isSome_iff_exists.mp hSome
    have hEach : ∀ e ∈ es, (e.valueWith? c env m).isSome := by
      intro e he
      have hMem : e.valueWith? c env m ∈ vs.map some := by
        rw [← valuesWith?_eq_some.mp hvs]
        exact List.mem_map_of_mem ((place_perm hOrder es).mem_iff.mpr he)
      obtain ⟨v, _, hv⟩ := List.mem_map.mp hMem
      rw [← hv]
      rfl
    have hAll := valuesWith?_isSome hEach
    rw [hValues] at hAll
    cases hAll

/-- The subscripts of an access. -/
theorem permuted_eq_place {b : String} {is js : List Expr} (hLength : js.length = is.length) :
    (if b == n && is.length == order.length then permuted order js else js)
      = if b = n then place order js else js := by
  by_cases hb : b = n <;> simp [hb, place, hLength]

/-- Subscripts that are permuted give an element its place. -/
theorem valuesWith?_moved (hOrder : order.Perm (List.range order.length)) {b : String}
    {is js : List Expr} (hValues : valuesWith? c' env m' js = valuesWith? c env m is) :
    valuesWith? c' env m' (if b = n then place order js else js)
      = (valuesWith? c env m is).map fun cell => if b = n then place order cell else cell := by
  by_cases hb : b = n
  · simp only [if_pos hb]
    rw [valuesWith?_place hOrder, hValues]
  · simp only [if_neg hb]
    rw [hValues, Option.map_id']

/-- A read of a buffer whose dimensions are permuted. -/
theorem permuteCells_load (n : String) (order : List Nat) (b : String) (is : List Expr) :
    (Expr.load b is).permuteCells n order
      = .load b (if b = n then place order (is.map (permuteCells n order))
          else is.map (permuteCells n order)) := by
  rw [permuteCells, permuteCellsAll_eq_map, ← permuted_eq_place (List.length_map _)]
  split <;> rfl

/-- **Values**: an expression keeps its value when the elements of the buffer are at their places. -/
theorem valueWith?_permuteCells (hOrder : order.Perm (List.range order.length))
    (hQuotient : c'.quotient = c.quotient) (hm : m.Placed n order m') :
    ∀ e : Expr, (e.permuteCells n order).valueWith? c' env m' = e.valueWith? c env m := by
  refine Expr.ind ?int ?float ?bool ?var ?load ?unary ?binary
  case int => exact fun _ => rfl
  case float => exact fun _ => rfl
  case bool => exact fun _ => rfl
  case var => exact fun _ => rfl
  case load =>
    intro b is ih
    have hSubscripts : valuesWith? c' env m' (is.map (permuteCells n order))
        = valuesWith? c env m is := by
      rw [valuesWith?_eq_mapM, valuesWith?_eq_mapM]
      exact mapM_map_congr ih
    rw [permuteCells_load, valueWith?, valueWith?, valuesWith?_moved hOrder hSubscripts]
    cases valuesWith? c env m is with
    | none => rfl
    | some cell => exact hm.read b cell
  case unary =>
    intro op e ih
    simp only [permuteCells, valueWith?, ih]
  case binary =>
    intro op a b iha ihb
    simp only [permuteCells, valueWith?, iha, ihb, BinaryOp.valueWith?, hQuotient]

theorem valuesWith?_permuteCells (hOrder : order.Perm (List.range order.length))
    (hQuotient : c'.quotient = c.quotient) (hm : m.Placed n order m') (is : List Expr) :
    valuesWith? c' env m' (is.map (permuteCells n order)) = valuesWith? c env m is := by
  rw [valuesWith?_eq_mapM, valuesWith?_eq_mapM]
  exact mapM_map_congr fun e _ => valueWith?_permuteCells hOrder hQuotient hm e

end Expr

/-! ## Runs -/

/-- From related memories two changes both fail or leave related memories. -/
def Change.Matches (R : Memory → Memory → Prop) (a a' : Change) : Prop :=
  ∀ m m', R m m' → Option.Rel R (a m) (a' m')

namespace Change.Matches

variable {R : Memory → Memory → Prop}

theorem skip : Matches R Change.skip Change.skip := fun _ _ hm => .some hm

theorem stuck : Matches R Change.stuck Change.stuck := fun _ _ _ => .none

theorem seq {a a' b b' : Change} (ha : Matches R a a') (hb : Matches R b b') :
    Matches R (a.seq b) (a'.seq b') := by
  intro m m' hm
  have hFirst := ha m m' hm
  unfold Change.seq
  cases hRun : a m with
  | none =>
    rw [hRun] at hFirst
    cases hRun' : a' m' with
    | none => exact .none
    | some _ =>
      rw [hRun'] at hFirst
      cases hFirst
  | some between =>
    rw [hRun] at hFirst
    cases hRun' : a' m' with
    | none =>
      rw [hRun'] at hFirst
      cases hFirst
    | some between' =>
      rw [hRun'] at hFirst
      cases hFirst with
      | some h => exact hb between between' h

theorem inTurn {α : Type} {f g : α → Change} {xs : List α} (h : ∀ x ∈ xs, Matches R (f x) (g x)) :
    Matches R (Change.inTurn (xs.map f)) (Change.inTurn (xs.map g)) := by
  induction xs with
  | nil => exact skip
  | cons x xs ih =>
    exact (h x List.mem_cons_self).seq (ih fun y hy => h y (List.mem_cons_of_mem x hy))

/-- What depends on a value that is the same on both memories. -/
theorem given {α : Type} {x : Option α} {f g : α → Option Memory}
    (h : ∀ v, Option.Rel R (f v) (g v)) : Option.Rel R (x.bind f) (x.bind g) := by
  cases x with
  | none => exact .none
  | some v => exact h v

/-- A change of another buffer of its own. -/
theorem withLocal {n : String} {order : List Nat} {a a' : Change}
    (h : Matches (Memory.Placed n order) a a') {b : String} (hb : b ≠ n) (cells : Cells) :
    Matches (Memory.Placed n order) (a.withLocal b cells) (a'.withLocal b cells) := by
  intro m m' hm
  have hInside := h _ _ (hm.exchange hb cells)
  unfold Change.withLocal
  rw [hm.others b hb]
  generalize a (m.exchange b cells) = after at hInside
  generalize a' (m'.exchange b cells) = after' at hInside
  cases hInside with
  | none => exact .none
  | some hAfter => exact .some (hAfter.exchange hb (m b))

/-- Changes of the buffer itself, which starts with the same elements at their places, come to the
    same. -/
theorem withLocal_eq {n : String} {order : List Nat} {a a' : Change}
    (h : Matches (Memory.Placed n order) a a') {cells cells' : Cells}
    (hCells : ∀ is, cells' (Expr.place order is) = cells is) :
    a'.withLocal n cells' = a.withLocal n cells := by
  funext m
  have hInside := h _ _ (Memory.Placed.enter m hCells)
  unfold Change.withLocal
  generalize a (m.exchange n cells) = after at hInside
  generalize a' (m.exchange n cells') = after' at hInside
  cases hInside with
  | none => rfl
  | some hAfter => exact congrArg some (hAfter.leave (m n))

end Change.Matches

namespace Stmt

variable {n : String} {order : List Nat} {c c' : Conventions}

/-- A write to a buffer whose dimensions are permuted. -/
theorem permuteAccesses_store (n : String) (order : List Nat) (s : Site) (b : String) (is : List Expr)
    (v : Expr) :
    (Stmt.store s b is v).permuteAccesses n order
      = .store s b (if b = n then Expr.place order (is.map (Expr.permuteCells n order))
          else is.map (Expr.permuteCells n order)) (v.permuteCells n order) := by
  rw [permuteAccesses, ← Expr.permuted_eq_place (List.length_map _)]

/-- **Runs**: statements whose accesses are permuted run like the old ones when the elements of the
    buffer are at their places. -/
theorem matches_permuteAccesses (hOrder : order.Perm (List.range order.length))
    (hQuotient : c'.quotient = c.quotient) :
    ∀ (t : Stmt) (env : Env), ¬ t.Declares n → (∀ w ∈ t.nodes, c'.fresh w.label? = c.fresh w.label?) →
      (t.change c env).Matches (Memory.Placed n order)
        ((t.permuteAccesses n order).change c' env) := by
  have hValue : ∀ {env : Env} {m m' : Memory}, m.Placed n order m' → ∀ e : Expr,
      (e.permuteCells n order).valueWith? c' env m' = e.valueWith? c env m :=
    fun hm => Expr.valueWith?_permuteCells hOrder hQuotient hm
  refine Stmt.ind ?decl ?loop ?guard ?branch ?store ?call ?block ?hole
  case decl =>
    intro s b buffer body ih env hDeclares hFresh
    have hBody := ih env (fun h => hDeclares (h.of_mem (by simp [self_mem_nodes])))
      fun w hw => hFresh w (by simp [hw])
    have hb : b ≠ n := by
      rintro rfl
      exact hDeclares ⟨s, buffer, body, self_mem_nodes _⟩
    have hHere : c'.fresh s.label = c.fresh s.label := hFresh _ (self_mem_nodes _)
    rw [permuteAccesses, if_neg (by simpa using hb), change_decl, change_decl, hHere]
    split
    · exact hBody.withLocal hb _
    · exact hBody
  case loop =>
    intro s head body ih env hDeclares hFresh m m' hm
    have hBody := fun v => ih (env.set head.iter v)
      (fun h => hDeclares (h.of_mem (by simp [self_mem_nodes]))) fun w hw => hFresh w (by simp [hw])
    rw [permuteAccesses, change_loop, change_loop, hValue hm, hValue hm]
    exact Change.Matches.given fun lower => Change.Matches.given fun upper =>
      Change.Matches.inTurn (fun v _ => hBody v) m m' hm
  case guard =>
    intro s e body ih env hDeclares hFresh m m' hm
    have hBody := ih env (fun h => hDeclares (h.of_mem (by simp [self_mem_nodes])))
      fun w hw => hFresh w (by simp [hw])
    rw [permuteAccesses, change_guard, change_guard, hValue hm]
    refine Change.Matches.given fun v => ?_
    split
    · exact .some hm
    · exact hBody m m' hm
  case branch =>
    intro s e yes no ihYes ihNo env hDeclares hFresh m m' hm
    have hYes := ihYes env (fun h => hDeclares (h.of_mem (by simp [self_mem_nodes])))
      fun w hw => hFresh w (by simp [hw])
    have hNo := ihNo env (fun h => hDeclares (h.of_mem (by simp [self_mem_nodes])))
      fun w hw => hFresh w (by simp [hw])
    rw [permuteAccesses, change_branch, change_branch, hValue hm]
    refine Change.Matches.given fun v => ?_
    split
    · exact hNo m m' hm
    · exact hYes m m' hm
  case store =>
    intro s b is v env _ _ m m' hm
    rw [permuteAccesses_store, change_store, change_store,
      Expr.valuesWith?_moved hOrder (Expr.valuesWith?_permuteCells hOrder hQuotient hm is), hValue hm]
    cases Expr.valuesWith? c env m is with
    | none => exact .none
    | some cell =>
      cases v.valueWith? c env m with
      | none => exact .none
      | some w => exact .some (hm.put hOrder b cell w)
  case call =>
    intro s f args env _ _
    exact .stuck
  case block =>
    intro s ts ih env hDeclares hFresh
    rw [permuteAccesses, permuteAccessesAll_eq_map, change_block, change_block, List.map_map]
    refine .inTurn fun t ht => ih t ht env (fun h => hDeclares (h.of_mem ?_)) fun w hw => hFresh w ?_
    · rw [nodes_block]
      exact List.mem_cons_of_mem _ (List.mem_flatMap.mpr ⟨t, ht, self_mem_nodes t⟩)
    · rw [nodes_block]
      exact List.mem_cons_of_mem _ (List.mem_flatMap.mpr ⟨t, ht, hw⟩)
  case hole =>
    intro s env _ _
    exact .stuck

end Stmt

/-! ## Programs -/

namespace Restructure

variable {order : List Nat} {n : Nat}

theorem nodup_eraseDups (xs : List Nat) : xs.eraseDups.Nodup := by
  -- what is left behind the first element is shorter than the list
  induction hLength : xs.length using Nat.strongRecOn generalizing xs with
  | ind k ih =>
    cases xs with
    | nil => exact List.nodup_nil
    | cons x xs =>
      rw [List.eraseDups_cons, List.nodup_cons, List.mem_eraseDups, List.mem_filter]
      refine ⟨fun hMem => by simp at hMem, ih _ ?_ _ rfl⟩
      rw [← hLength, List.length_cons]
      exact Nat.lt_succ_of_le (List.length_filter_le ..)

/-- Numbers below a bound, as many as there are and no two the same, are all numbers below it. -/
theorem perm_of_isPermutation (h : isPermutation order n = true) :
    order.Perm (List.range order.length) := by
  unfold isPermutation at h
  simp only [Bool.and_eq_true, beq_iff_eq, List.all_eq_true, decide_eq_true_eq] at h
  obtain ⟨⟨hLength, hLess⟩, hDifferent⟩ := h
  have hKept : order.eraseDups.Perm order :=
    ((nodup_eraseDups order).subperm fun k hk => List.mem_eraseDups.mp hk).perm_of_length_le
      (by omega)
  refine ((hKept.nodup_iff.mp (nodup_eraseDups order)).subperm fun k hk => ?_).perm_of_length_le ?_
  · rw [List.mem_range, hLength]
    exact hLess k hk
  · rw [List.length_range]

/-- What the local buffers hold at first when the elements of one of them, the buffer `n` that is
    declared under a label, are not yet at their new places. -/
def unplaced (c : Conventions) (label n : String) (order : List Nat) : Conventions where
  fresh l b cell :=
    if l = some label ∧ b = n then c.fresh l b (Expr.place order cell) else c.fresh l b cell
  quotient := c.quotient

theorem full_unplaced {c : Conventions} (hc : c.Full) (label n : String) (order : List Nat) :
    (unplaced c label n order).Full := by
  intro l b cell
  unfold unplaced
  dsimp only
  split
  · exact hc l b _
  · exact hc l b cell

/-- **Permuted dimensions**: whatever the local buffers hold at first, a program with a permuted
    buffer runs like the program before for some first contents. -/
theorem change_varReorder {t t' : Stmt} {label : String} {order : List Nat} (hIds : t.ids.Nodup)
    (hLabels : t.labels.Nodup) (hNames : t.CleanlyNamed) (h : varReorder t label order = .ok t')
    {c' : Conventions} (hc' : c'.Full) :
    ∃ c : Conventions, c.Full ∧ c.quotient = c'.quotient
      ∧ ∀ env, (t.change c env).Alike (t'.change c' env) := by
  obtain ⟨site, n, b, body, hDecl, hLabel, hCache, hPermutation, rfl⟩ := varReorder_cases h
  have hOrder := perm_of_isPermutation hPermutation
  let c := unplaced c' label n order
  have hc : c.Full := full_unplaced hc' label n order
  -- only the declaration itself carries the label
  have hFresh : ∀ w ∈ t.nodes, w ≠ .decl site n b body → c'.fresh w.label? = c.fresh w.label? := by
    intro w hw hne
    have hOther : w.label? ≠ some label := fun hSame =>
      hne (Stmt.eq_of_label? hLabels hw hDecl hSame hLabel)
    funext b' cell
    exact (if_neg fun hBoth => hOther hBoth.1).symm
  have hInside : ∀ w ∈ body.nodes, c'.fresh w.label? = c.fresh w.label? := by
    intro w hw
    refine hFresh w (Stmt.mem_nodes_trans (by simp [hw]) hDecl) ?_
    rintro rfl
    exact Stmt.ne_of_mem_inside (Stmt.nodup_ids_of_mem hIds hDecl)
      (by simpa [Stmt.inside, Stmt.children] using hw) rfl
  have hDeclares : ¬ body.Declares n := fun hAgain =>
    hNames.not_mem_binders hIds hDecl rfl (by simp [Stmt.children]) (Stmt.buffer_mem_binders.mpr hAgain)
  have hQuotient : c'.quotient = c.quotient := rfl
  refine ⟨c, hc, rfl, fun env => ?_⟩
  refine (Stmt.replaces_update t hIds hDecl).change_alike hIds hc hQuotient hFresh env
    fun env' _ m _ => ?_
  rw [Stmt.change_decl, Stmt.change_decl, if_pos hCache, if_pos hCache,
    (Stmt.matches_permuteAccesses hOrder hQuotient body env' hDeclares hInside).withLocal_eq
      fun is => ?_]
  exact (if_pos ⟨hLabel, rfl⟩).symm

end Restructure

end LoopNest

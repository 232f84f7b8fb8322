import LoopNest.Proofs.ComposedOrders
import LoopNest.Proofs.LexicalRuns

/-! # Writes to buffers with permuted dimensions

  A program whose local buffer has permuted dimensions writes what the program writes, in the same
  order. The elements of the buffer have new places (`Restructure.varReorder_relabels`).

  * **Stores** (`Memory.Moved`): an element of the buffer that has a content has it at its new place.
    The buffer may have more contents, because the program starts with none in it.
  * **Inside** (`Stmt.follows_permuteAccesses`): permuted statements do what the statements do as far as
    these have an answer. Below a declaration of the same name nothing is permuted, and nothing needs to
    be: the buffer is hidden there.
  * **Around** (`Stmt.Replaces.follows_runIn`): the rest of the program is the same, and it does not
    write the buffer. -/

namespace LoopNest

/-! ## Moved elements -/

/-- An element that has a content in the first memory has it in the second one, too, those of one
    buffer at their new places. -/
structure Memory.Moved (n : String) (order : List Nat) (m m' : Memory) : Prop where
  cells : ∀ is v, m n is = some v → m' n (Expr.place order is) = some v
  others : ∀ b, b ≠ n → m' b = m b

/-- What a program writes when the dimensions of a local buffer are permuted: the subscripts in a write
    to the buffer are permuted, if there is one for each dimension. -/
def ScopedWrite.moved (decl : Nat) (order : List Nat) (w : ScopedWrite) : ScopedWrite :=
  if w.decl = some decl then { w with indices := Expr.place order w.indices } else w

theorem ScopedWrite.moved_of_ne {decl : Nat} {order : List Nat} {w : ScopedWrite}
    (h : w.decl ≠ some decl) : w.moved decl order = w := if_neg h

theorem ScopedWrite.moved_range (decl r : Nat) (w : ScopedWrite) :
    w.moved decl (List.range r) = w := by
  unfold moved
  rw [Expr.place_range, ite_self]

namespace Memory.Moved

variable {n : String} {order : List Nat} {m m' : Memory}

theorem read (h : m.Moved n order m') {b : String} {is : List Int} {v : Int} (hRead : m b is = some v) :
    m' b (if b = n then Expr.place order is else is) = some v := by
  by_cases hb : b = n
  · subst hb
    rw [if_pos rfl]
    exact h.cells is v hRead
  · rwa [if_neg hb, h.others b hb]

theorem put (hOrder : order.Perm (List.range order.length)) (h : m.Moved n order m') (b : String)
    (is : List Int) (v : Int) :
    (m.put b is v).Moved n order (m'.put b (if b = n then Expr.place order is else is) v) := by
  constructor
  · intro js w hRead
    unfold Memory.put at hRead ⊢
    by_cases hHere : n = b ∧ js = is
    · obtain ⟨rfl, rfl⟩ := hHere
      rw [if_pos ⟨rfl, rfl⟩] at hRead
      rw [if_pos ⟨rfl, (if_pos rfl).symm⟩]
      exact hRead
    · rw [if_neg hHere] at hRead
      have hThere : ¬ (n = b ∧ Expr.place order js = if b = n then Expr.place order is else is) := by
        intro hSame
        obtain ⟨rfl, hPlace⟩ := hSame
        rw [if_pos rfl] at hPlace
        exact hHere ⟨rfl, Expr.place_injective hOrder hPlace⟩
      rw [if_neg hThere]
      exact h.cells js w hRead
  · intro c hc
    by_cases hSame : c = b
    · subst hSame
      rw [if_neg hc]
      funext js
      unfold Memory.put
      rw [h.others c hc]
    · rw [put_ne_buffer hSame, put_ne_buffer hSame, h.others c hc]

/-- Another buffer gets the same contents in both memories. -/
theorem exchange (h : m.Moved n order m') {b : String} (hb : b ≠ n) (cells : Cells) :
    (m.exchange b cells).Moved n order (m'.exchange b cells) := by
  constructor
  · intro is v hRead
    rw [exchange_ne hb.symm] at hRead ⊢
    exact h.cells is v hRead
  · intro c hc
    by_cases hSame : c = b
    · rw [hSame, exchange_self, exchange_self]
    · rw [exchange_ne hSame, exchange_ne hSame, h.others c hc]

/-- The buffer itself gets contents that have moved. -/
theorem enter (m : Memory) {cells cells' : Cells}
    (hCells : ∀ is v, cells is = some v → cells' (Expr.place order is) = some v) :
    (m.exchange n cells).Moved n order (m.exchange n cells') := by
  constructor
  · intro is v hRead
    rw [exchange_self] at hRead ⊢
    exact hCells is v hRead
  · intro c hc
    rw [exchange_ne hc, exchange_ne hc]

/-- Without the buffer both memories are the same. -/
theorem leave (h : m.Moved n order m') (cells : Cells) : m'.exchange n cells = m.exchange n cells := by
  funext c
  by_cases hc : c = n
  · rw [hc, exchange_self, exchange_self]
  · rw [exchange_ne hc, exchange_ne hc, h.others c hc]

end Memory.Moved

/-! ## Expressions -/

namespace Expr

variable {round : Float → Int} {env : Env} {n : String} {order : List Nat} {m m' : Memory}

theorem values?_map {f : Expr → Expr} {g : Expr → Expr} : ∀ {es : List Expr} {vs : List Int},
    (∀ e ∈ es, ∀ v, (f e).value? env m = some v → (g e).value? env m' = some v) →
    values? env m (es.map f) = some vs → values? env m' (es.map g) = some vs := by
  intro es
  induction es with
  | nil => exact fun _ hValues => hValues
  | cons e es ih =>
    intro vs h hValues
    simp only [List.map_cons, values?, Option.bind_eq_bind, Option.bind_eq_some_iff] at hValues ⊢
    obtain ⟨v, hHead, ws, hTail, hEq⟩ := hValues
    exact ⟨v, h e List.mem_cons_self v hHead, ws,
      ih (fun i hi => h i (List.mem_cons_of_mem e hi)) hTail, hEq⟩

/-- Permuted subscripts give the place of an element. -/
theorem values?_moved (hOrder : order.Perm (List.range order.length)) {b : String} {is : List Expr}
    (hEach : ∀ i ∈ is, ∀ v, (i.rounded round).value? env m = some v →
      ((i.permuteCells n order).rounded round).value? env m' = some v)
    {vs : List Int} (hValues : values? env m (is.map (rounded round)) = some vs) :
    values? env m' ((if b = n then place order (is.map (permuteCells n order))
        else is.map (permuteCells n order)).map (rounded round))
      = some (if b = n then place order vs else vs) := by
  have hSubscripts : values? env m' ((is.map (permuteCells n order)).map (rounded round)) = some vs := by
    rw [List.map_map]
    exact values?_map hEach hValues
  by_cases hb : b = n
  · rw [if_pos hb, if_pos hb, ← place_map, ← valuesWith?_reference .blank, valuesWith?_place hOrder,
      valuesWith?_reference, hSubscripts]
    rfl
  · rw [if_neg hb, if_neg hb, hSubscripts]

/-- **Values**: an expression keeps its value when the elements of the buffer have moved. -/
theorem value?_permuteCells (hOrder : order.Perm (List.range order.length)) (hm : m.Moved n order m') :
    ∀ (e : Expr) (v : Int), (e.rounded round).value? env m = some v →
      ((e.permuteCells n order).rounded round).value? env m' = some v := by
  refine Expr.ind ?int ?float ?bool ?var ?load ?unary ?binary
  case int => exact fun _ _ h => h
  case float => exact fun _ _ h => h
  case bool => exact fun _ _ h => h
  case var => exact fun _ _ h => h
  case load =>
    intro b is ih v h
    simp only [rounded, roundedAll_eq_map, value?, Option.bind_eq_bind, Option.bind_eq_some_iff] at h
    obtain ⟨cell, hCell, hRead⟩ := h
    rw [permuteCells_load, rounded, roundedAll_eq_map, value?, values?_moved hOrder ih hCell]
    exact hm.read hRead
  case unary =>
    intro op e ih v h
    simp only [rounded, permuteCells, value?, Option.bind_eq_bind, Option.bind_eq_some_iff] at h ⊢
    obtain ⟨w, hw, hEq⟩ := h
    exact ⟨w, ih w hw, hEq⟩
  case binary =>
    intro op a b iha ihb v h
    simp only [rounded, permuteCells, value?, Option.bind_eq_bind, Option.bind_eq_some_iff] at h ⊢
    obtain ⟨x, hx, y, hy, hEq⟩ := h
    exact ⟨x, iha x hx, y, ihb y hy, hEq⟩

end Expr

/-! ## Processes that follow each other -/

/-- Whenever the first process has an answer, the second one has, too. It makes the same writes but for
    a translation, and related contents stay related. -/
def Process.Follows (R : Stores → Stores → Prop) (f : ScopedWrite → ScopedWrite) (a a' : Process) :
    Prop :=
  ∀ s s' after writes, R s s' → a s = some (after, writes) →
    ∃ after', a' s' = some (after', writes.map f) ∧ R after after'

namespace Process.Follows

variable {R : Stores → Stores → Prop} {f : ScopedWrite → ScopedWrite}

theorem inTurn {α β : Type} {a : α → Process} {a' : β → Process} {xs : List α} {ys : List β}
    (h : List.Forall₂ (fun x y => Follows R f (a x) (a' y)) xs ys) :
    Follows R f (Process.inTurn a xs) (Process.inTurn a' ys) := by
  induction h with
  | nil =>
    intro s s' after writes hR hRun
    cases hRun
    exact ⟨s', rfl, hR⟩
  | cons hHead _ ih =>
    intro s s' after writes hR hRun
    simp only [Process.inTurn, Option.bind_eq_bind, Option.bind_eq_some_iff] at hRun ⊢
    obtain ⟨⟨between, before⟩, hFirst, ⟨after, rest⟩, hRest, hEq⟩ := hRun
    cases hEq
    obtain ⟨between', hFirst', hBetween⟩ := hHead s s' between before hR hFirst
    obtain ⟨after', hRest', hAfter⟩ := ih between between' after rest hBetween hRest
    exact ⟨after', ⟨_, hFirst', _, hRest', by simp⟩, hAfter⟩

theorem idle : Follows R f (fun s => some (s, [])) fun s => some (s, []) := by
  intro s s' after writes hR hRun
  cases hRun
  exact ⟨s', rfl, hR⟩

/-- A value is asked for, and what is done depends on it. -/
theorem given {o o' : Stores → Option Int} {a a' : Int → Process}
    (hValue : ∀ s s', R s s' → ∀ v, o s = some v → o' s' = some v)
    (h : ∀ v, Follows R f (a v) (a' v)) :
    Follows R f (fun s => o s >>= fun v => a v s) fun s => o' s >>= fun v => a' v s := by
  intro s s' after writes hR hRun
  obtain ⟨v, hv, hRun⟩ := Option.bind_eq_some_iff.mp hRun
  obtain ⟨after', hRun', hAfter⟩ := h v s s' after writes hR hRun
  exact ⟨after', Option.bind_eq_some_iff.mpr ⟨v, hValue s s' hR v hv, hRun'⟩, hAfter⟩

/-- A local buffer is entered and left again. -/
theorem withLocal {R' : Stores → Stores → Prop} {b : String} {cells cells' : Cells} {a a' : Process}
    (hEnter : ∀ s s', R s s' → R' (s.exchange b cells) (s'.exchange b cells'))
    (hLeave : ∀ s s' r r', R s s' → R' r r' → R (r.exchange b (s.locals b)) (r'.exchange b (s'.locals b)))
    (h : Follows R' f a a') : Follows R f (a.withLocal b cells) (a'.withLocal b cells') := by
  intro s s' after writes hR hRun
  obtain ⟨⟨inner, ws⟩, hInner, hEq⟩ := Option.bind_eq_some_iff.mp hRun
  cases hEq
  obtain ⟨inner', hInner', hIn⟩ := h _ _ inner writes (hEnter s s' hR) hInner
  exact ⟨_, Option.bind_eq_some_iff.mpr ⟨_, hInner', rfl⟩, hLeave s s' inner inner' hR hIn⟩

/-- From equal contents the same is done, if the writes are not translated. -/
theorem of_eq {a : Process} (h : ∀ s r, a s = some r → ∀ w ∈ r.2, f w = w) : Follows Eq f a a := by
  intro s s' after writes hR hRun
  subst hR
  refine ⟨after, ?_, rfl⟩
  rw [List.map_congr_left (h s _ hRun), List.map_id']
  exact hRun

end Process.Follows

namespace Stmt

variable {round : Float → Int} {fresh fresh' : Nat → Memory} {n : String} {order : List Nat} {p : Nat}

/-- What other declarations start with does not matter. -/
theorem runIn_congr : ∀ (t : Stmt) (σ : LocalScope) (env : Env), (∀ i ∈ t.ids, fresh' i = fresh i) →
    t.runIn round fresh' σ env = t.runIn round fresh σ env := by
  refine Stmt.ind ?decl ?loop ?guard ?branch ?store ?call ?block ?hole
  case decl =>
    intro site b buffer body ih σ env h
    rw [runIn, runIn, ih _ env fun i hi => h i (by simp [hi]), h site.id (by simp)]
  case loop =>
    intro site head body ih σ env h
    have hBody := fun v => ih σ (env.set head.iter v) fun i hi => h i (by simp [hi])
    simp only [runIn, hBody]
  case guard =>
    intro site c body ih σ env h
    simp only [runIn, ih σ env fun i hi => h i (by simp [hi])]
  case branch =>
    intro site c yes no ihYes ihNo σ env h
    simp only [runIn, ihYes σ env fun i hi => h i (by simp [hi]), ihNo σ env fun i hi => h i (by simp [hi])]
  case store => exact fun site b is v σ env _ => rfl
  case call => exact fun site g args σ env _ => rfl
  case block =>
    intro site ts ih σ env h
    rw [runIn, runIn]
    induction ts with
    | nil => rfl
    | cons t ts ihList =>
      funext s
      rw [runAllIn, runAllIn, ih t List.mem_cons_self σ env fun i hi => h i (by simp [hi]),
        ihList (fun u hu => ih u (List.mem_cons_of_mem t hu)) fun i hi => h i (by
          rw [ids_block] at hi ⊢
          simp only [List.flatMap_cons, List.mem_cons, List.mem_append] at hi ⊢
          tauto)]
  case hole => exact fun site σ env _ => rfl

/-- A program writes a local buffer only in its scope. -/
theorem moved_of_runIn {t : Stmt} {σ : LocalScope} {env : Env} (hIds : p ∉ t.ids) (hScope : ∀ c, σ c ≠ some p) :
    ∀ s r, t.runIn round fresh σ env s = some r → ∀ w ∈ r.2, ScopedWrite.moved p order w = w := by
  intro s r hRun w hw
  apply ScopedWrite.moved_of_ne
  intro hDecl
  obtain hHere | hNone | ⟨i, hi, hInside⟩ := (framed_of_runIn t σ env s r hRun).writes w hw
  · exact hScope w.buffer (hHere.symm.trans hDecl)
  · rw [hDecl] at hNone
    cases hNone
  · rw [hDecl] at hInside
    cases hInside
    exact hIds hi

/-- The buffers outside are the same, and the elements of one local buffer have moved. -/
def MovedIn (n : String) (order : List Nat) (s s' : Stores) : Prop :=
  s'.outside = s.outside ∧ s.locals.Moved n order s'.locals

theorem MovedIn.seen {s s' : Stores} (h : MovedIn n order s s') {σ : LocalScope} (hLocal : σ n = some p) :
    (s.seen σ).Moved n order (s'.seen σ) := by
  obtain ⟨hOutside, hLocals⟩ := h
  constructor
  · intro is v hRead
    have hIn : (σ n).isSome := by rw [hLocal]; rfl
    rw [Stores.seen_local hIn] at hRead ⊢
    exact hLocals.cells is v hRead
  · intro b hb
    simp only [Stores.seen, hOutside, hLocals.others b hb]

theorem MovedIn.put {s s' : Stores} (hOrder : order.Perm (List.range order.length))
    (h : MovedIn n order s s') {σ : LocalScope} (hLocal : σ n = some p) (b : String) (is : List Int)
    (v : Int) :
    MovedIn n order (s.put σ b is v) (s'.put σ b (if b = n then Expr.place order is else is) v) := by
  have hPut := h.2.put hOrder b is v
  unfold Stores.put
  split
  · exact ⟨h.1, hPut⟩
  · rename_i hOutside
    have hb : b ≠ n := by
      rintro rfl
      rw [hLocal] at hOutside
      exact hOutside rfl
    rw [if_neg hb]
    exact ⟨congrArg (Memory.put · b is v) h.1, h.2⟩

theorem moved_write {σ : LocalScope} (hLocal : σ n = some p) (hOthers : ∀ c, c ≠ n → σ c ≠ some p)
    {b : String} {is : List Int} {v : Int} :
    ScopedWrite.moved p order ⟨⟨b, is, v⟩, σ b⟩
      = ⟨⟨b, if b = n then Expr.place order is else is, v⟩, σ b⟩ := by
  unfold ScopedWrite.moved
  by_cases hb : b = n
  · subst hb
    rw [if_pos hLocal, if_pos rfl]
  · rw [if_neg (hOthers b hb), if_neg hb]

/-- A declaration that is not this one does not bring its number into scope. -/
theorem enter_ne_some {site : Site} {b : String} {buffer : Buffer} {σ : LocalScope} {c : String}
    (hSite : site.id ≠ p) (h : c ≠ b → σ c ≠ some p) : σ.enter site b buffer c ≠ some p := by
  intro hc
  by_cases hName : c = b
  · subst hName
    unfold LocalScope.enter at hc
    rw [if_pos rfl] at hc
    split at hc
    · exact hSite (Option.some.inj hc)
    · cases hc
  · rw [LocalScope.enter_ne hName] at hc
    exact h hName hc

/-- **Inside**: statements whose accesses are permuted do what the statements do, where the elements of
    the buffer have moved. -/
theorem follows_permuteAccesses (hOrder : order.Perm (List.range order.length)) :
    ∀ (t : Stmt) (σ : LocalScope) (env : Env), p ∉ t.ids → σ n = some p →
      (∀ c, c ≠ n → σ c ≠ some p) →
      Process.Follows (MovedIn n order) (ScopedWrite.moved p order) (t.runIn round fresh σ env)
        ((t.permuteAccesses n order).runIn round fresh σ env) := by
  have hValue : ∀ {σ : LocalScope} {env : Env} (e : Expr), σ n = some p → ∀ s s', MovedIn n order s s' →
      ∀ v, (e.rounded round).value? env (s.seen σ) = some v →
        ((e.permuteCells n order).rounded round).value? env (s'.seen σ) = some v :=
    fun e hLocal s s' hR v h => Expr.value?_permuteCells hOrder (hR.seen hLocal) e v h
  refine Stmt.ind ?decl ?loop ?guard ?branch ?store ?call ?block ?hole
  case decl =>
    intro site b buffer body ih σ env hIds hLocal hOthers
    simp only [ids_decl, List.mem_cons, not_or] at hIds
    obtain ⟨hSite, hBody⟩ := hIds
    have hSite : site.id ≠ p := fun hEq => hSite hEq.symm
    rw [permuteAccesses, runIn, runIn]
    by_cases hb : b = n
    · -- the buffer is hidden, so the body finds the same as before
      subst hb
      rw [if_pos (beq_self_eq_true b)]
      refine Process.Follows.withLocal (fun s s' hR => ?_) (fun s s' r r' hR hEq => ?_)
        (.of_eq (moved_of_runIn hBody fun c => enter_ne_some hSite (hOthers c)))
      · unfold Stores.exchange
        rw [hR.1, hR.2.leave]
      · subst hEq
        exact ⟨rfl, .enter _ hR.2.cells⟩
    · rw [if_neg (by simpa using hb)]
      have hLocal' : σ.enter site b buffer n = some p := by
        rw [LocalScope.enter_ne fun hEq => hb hEq.symm]
        exact hLocal
      refine Process.Follows.withLocal (fun s s' hR => ⟨hR.1, hR.2.exchange hb _⟩)
        (fun s s' r r' hR hIn => ⟨hIn.1, ?_⟩)
        (ih _ env hBody hLocal' fun c hc => enter_ne_some hSite fun _ => hOthers c hc)
      rw [hR.2.others b hb]
      exact hIn.2.exchange hb _
  case loop =>
    intro site head body ih σ env hIds hLocal hOthers
    simp only [ids_loop, List.mem_cons, not_or] at hIds
    rw [permuteAccesses, runIn, runIn]
    refine .given (hValue _ hLocal) fun lower => .given (hValue _ hLocal) fun upper => ?_
    exact .inTurn (List.forall₂_same.mpr fun v _ => ih σ (env.set head.iter v) hIds.2 hLocal hOthers)
  case guard =>
    intro site c body ih σ env hIds hLocal hOthers
    simp only [ids_guard, List.mem_cons, not_or] at hIds
    rw [permuteAccesses, runIn, runIn]
    refine .given (a := fun v s => if v = 0 then _ else _) (hValue c hLocal) fun v => ?_
    split
    · exact .idle
    · exact ih σ env hIds.2 hLocal hOthers
  case branch =>
    intro site c yes no ihYes ihNo σ env hIds hLocal hOthers
    simp only [ids_branch, List.mem_cons, List.mem_append, not_or] at hIds
    rw [permuteAccesses, runIn, runIn]
    refine .given (hValue c hLocal) fun v => ?_
    split
    · exact ihNo σ env hIds.2.2 hLocal hOthers
    · exact ihYes σ env hIds.2.1 hLocal hOthers
  case store =>
    intro site b is v σ env hIds hLocal hOthers s s' after writes hR hRun
    simp only [runIn, Option.bind_eq_bind, Option.bind_eq_some_iff] at hRun
    obtain ⟨indices, hIndices, value, hStored, hEq⟩ := hRun
    cases hEq
    have hPlaces := Expr.values?_moved (b := b) hOrder (fun i _ => hValue i hLocal s s' hR) hIndices
    have hStored' := hValue v hLocal s s' hR value hStored
    rw [permuteAccesses_store, runIn]
    simp only [hPlaces, hStored', Option.bind_eq_bind, Option.bind_some]
    refine ⟨_, ?_, hR.put hOrder hLocal b indices value⟩
    rw [List.map_cons, moved_write hLocal hOthers, List.map_nil]
    rfl
  case call => exact fun site g args σ env _ _ _ s s' after writes _ hRun => by cases hRun
  case block =>
    intro site ts ih σ env hIds hLocal hOthers
    rw [permuteAccesses, permuteAccessesAll_eq_map, runIn, runIn, runAllIn_eq_inTurn, runAllIn_eq_inTurn]
    refine .inTurn (List.forall₂_map_right_iff.mpr (List.forall₂_same.mpr fun t ht => ?_))
    refine ih t ht σ env (fun hMem => hIds ?_) hLocal hOthers
    rw [ids_block]
    exact List.mem_cons_of_mem _ (List.mem_flatMap.mpr ⟨t, ht, hMem⟩)
  case hole => exact fun site σ env _ _ _ s s' after writes _ hRun => by cases hRun

/-- **Around**: when one statement follows another where its number is out of scope, a program with the
    one in the place of the other follows the program. -/
theorem Replaces.follows_runIn {u v t t' : Stmt} (h : Replaces u v t t') (hIds : t.ids.Nodup)
    (hFresh : ∀ i, i ≠ u.id → fresh' i = fresh i)
    (hPair : ∀ (σ : LocalScope) (env : Env), (∀ c, σ c ≠ some u.id) →
      Process.Follows Eq (ScopedWrite.moved u.id order) (u.runIn round fresh' σ env)
        (v.runIn round fresh σ env)) :
    ∀ (σ : LocalScope) (env : Env), (∀ c, σ c ≠ some u.id) →
      Process.Follows Eq (ScopedWrite.moved u.id order) (t.runIn round fresh' σ env)
        (t'.runIn round fresh σ env) := by
  have hOther : ∀ {w : Stmt}, u.id ∉ w.ids → ∀ (σ : LocalScope) (env : Env), (∀ c, σ c ≠ some u.id) →
      Process.Follows Eq (ScopedWrite.moved u.id order) (w.runIn round fresh' σ env)
        (w.runIn round fresh σ env) := by
    intro w hw σ env hScope
    have hSame : w.runIn round fresh' σ env = w.runIn round fresh σ env :=
      runIn_congr w σ env fun i hi => hFresh i fun hEq => hw (hEq ▸ hi)
    rw [hSame]
    exact .of_eq (moved_of_runIn hw hScope)
  have hMem : ∀ {t t' : Stmt}, Replaces u v t t' → u.id ∈ t.ids :=
    fun h => List.mem_map_of_mem h.mem
  have hValue : ∀ {σ : LocalScope} {env : Env} (e : Expr) (s s' : Stores), s = s' → ∀ v,
      e.value? env (s.seen σ) = some v → e.value? env (s'.seen σ) = some v :=
    fun e s s' hEq v h => hEq ▸ h
  induction h with
  | here => exact hPair
  | @decl t t' s n b h ih =>
    intro σ env hScope
    simp only [ids_decl, List.nodup_cons] at hIds
    have hSite : s.id ≠ u.id := fun hEq => hIds.1 (hEq ▸ hMem h)
    rw [runIn, runIn, hFresh s.id hSite]
    have hBody := ih hIds.2 (σ.enter s n b) env fun c => enter_ne_some hSite fun _ => hScope c
    exact hBody.withLocal (fun s s' hEq => by rw [hEq]) fun s s' r r' hEq hEq' => by rw [hEq, hEq']
  | loop s head h ih =>
    intro σ env hScope
    simp only [ids_loop, List.nodup_cons] at hIds
    rw [runIn, runIn]
    refine .given (hValue _) fun lower => .given (hValue _) fun upper => ?_
    exact .inTurn (List.forall₂_same.mpr fun w _ => ih hIds.2 σ (env.set head.iter w) hScope)
  | guard s e h ih =>
    intro σ env hScope
    simp only [ids_guard, List.nodup_cons] at hIds
    rw [runIn, runIn]
    refine .given (hValue _) fun w => ?_
    split
    · exact .idle
    · exact ih hIds.2 σ env hScope
  | yes s e no h ih =>
    intro σ env hScope
    simp only [ids_branch, List.nodup_cons, List.nodup_append] at hIds
    obtain ⟨-, hYes, -, hApart⟩ := hIds
    rw [runIn, runIn]
    refine .given (hValue _) fun w => ?_
    split
    · exact hOther (fun hNo => hApart _ (hMem h) _ hNo rfl) σ env hScope
    · exact ih hYes σ env hScope
  | no s e yes h ih =>
    intro σ env hScope
    simp only [ids_branch, List.nodup_cons, List.nodup_append] at hIds
    obtain ⟨-, -, hNo, hApart⟩ := hIds
    rw [runIn, runIn]
    refine .given (hValue _) fun w => ?_
    split
    · exact ih hNo σ env hScope
    · exact hOther (fun hYes => hApart _ hYes _ (hMem h) rfl) σ env hScope
  | @block t t' s before last h ih =>
    intro σ env hScope
    simp only [ids_block, List.flatMap_append, List.flatMap_cons, List.nodup_cons, List.nodup_append]
      at hIds
    obtain ⟨-, -, ⟨hHere, -, hLast⟩, hBefore⟩ := hIds
    rw [runIn, runIn, runAllIn_eq_inTurn, runAllIn_eq_inTurn]
    refine .inTurn (List.rel_append (List.forall₂_same.mpr fun w hw => ?_)
      (.cons (ih hHere σ env hScope) (List.forall₂_same.mpr fun w hw => ?_)))
    · refine hOther (fun hIn => ?_) σ env hScope
      exact hBefore _ (List.mem_flatMap.mpr ⟨w, hw, hIn⟩) _ (List.mem_append_left _ (hMem h)) rfl
    · refine hOther (fun hIn => ?_) σ env hScope
      exact hLast _ (hMem h) _ (List.mem_flatMap.mpr ⟨w, hw, hIn⟩) rfl

end Stmt

/-! ## Programs -/

namespace Restructure

/-- The first contents of local buffers, with nothing in the buffer of one declaration. -/
def emptied (fresh : Nat → Memory) (decl : Nat) : Nat → Memory :=
  fun i => if i = decl then .blank else fresh i

/-- **Permuted dimensions** follow the program that starts with nothing in the buffer. -/
theorem follows_stored {t : Stmt} {site : Site} {n : String} {b : Buffer} {body : Stmt}
    {order : List Nat} (hIds : t.ids.Nodup) (hDecl : .decl site n b body ∈ t.nodes)
    (hCache : b.access = .cache) (hOrder : order.Perm (List.range order.length)) (round : Float → Int)
    (fresh : Nat → Memory) (env : Env) :
    Process.Follows Eq (ScopedWrite.moved site.id order)
      (t.runIn round (emptied fresh site.id) .outside env)
      ((t.update site.id fun _ => stored site n b body order).runIn round fresh .outside env) := by
  have hFresh : ∀ i, i ≠ site.id → emptied fresh site.id i = fresh i := fun i hi => if_neg hi
  have hEmpty : emptied fresh site.id site.id n = Memory.blank n := congrFun (if_pos rfl) n
  have hBody : site.id ∉ body.ids ∧ body.ids.Nodup := by
    have hHere := Stmt.nodup_ids_of_mem hIds hDecl
    rwa [Stmt.ids_decl, List.nodup_cons] at hHere
  refine (Stmt.replaces_update t hIds hDecl).follows_runIn hIds hFresh (fun σ env hScope => ?_) .outside
    env fun c hc => by cases hc
  have hEnter : σ.enter site n { b with shape := Expr.permuted order b.shape } = σ.enter site n b := rfl
  have hSame : body.runIn round (emptied fresh site.id) (σ.enter site n b) env
      = body.runIn round fresh (σ.enter site n b) env :=
    Stmt.runIn_congr body _ env fun i hi => hFresh i fun hEq => hBody.1 (hEq ▸ hi)
  rw [stored, Stmt.runIn, Stmt.runIn, hEnter, hSame]
  have hInside : Process.Follows (Stmt.MovedIn n order) (ScopedWrite.moved site.id order)
      (body.runIn round fresh (σ.enter site n b) env)
      ((body.permuteAccesses n order).runIn round fresh (σ.enter site n b) env) := by
    refine Stmt.follows_permuteAccesses hOrder body _ env hBody.1 (LocalScope.enter_local hCache) ?_
    intro c hc
    rw [LocalScope.enter_ne hc]
    exact hScope c
  refine hInside.withLocal (fun s s' hEq => ?_) fun s s' r r' hEq hIn => ?_
  · subst hEq
    refine ⟨rfl, .enter _ fun is v hRead => ?_⟩
    rw [hEmpty] at hRead
    cases hRead
  · subst hEq
    unfold Stores.exchange
    rw [hIn.1, hIn.2.leave]

variable {t : Stmt} {label n : String} {site : Site} {b : Buffer} {body : Stmt} {p : List Nat}

/-- **Permuting the dimensions of a local buffer** relabels its elements, and permutations act on the
    program. Take a program without calls and a local buffer that is declared in it under a label. For
    every permutation of its dimensions:

    * permuting succeeds;
    * when the program reads no element of the buffer before it has written it, the new program makes
      the same writes in the same order, with permuted subscripts where it writes the buffer with one
      subscript for each dimension, and leaves the same contents;
    * permuting again gives what the composed permutation gives at once, so that a permutation and its
      inverse give the program back. -/
theorem varReorder_relabels (hIds : t.ids.Nodup) (hCalls : ∀ u ∈ t.nodes, u.isCall = false)
    (hDecl : t.labelled? label = some (.decl site n b body)) (hCache : b.access = .cache)
    (hp : p.Perm (List.range b.rank)) :
    ∃ t', varReorder t label p = .ok t'
      ∧ (∀ round fresh env s,
        (t.runIn round (emptied fresh site.id) .outside env s).isSome →
          ∃ after writes, t.runIn round fresh .outside env s = some (after, writes)
            ∧ t'.runIn round fresh .outside env s
              = some (after, writes.map (ScopedWrite.moved site.id p)))
      ∧ ∀ q : List Nat, q.Perm (List.range b.rank) →
        ∃ t'', varReorder t' label q = .ok t''
          ∧ varReorder t label (q.map fun k => p.getD k 0) = .ok t''
          ∧ ((q.map fun k => p.getD k 0) = List.range b.rank → t'' = t) := by
  have hMem := List.mem_of_find?_eq_some hDecl
  have hInside : ∀ u ∈ body.nodes, u.isCall = false :=
    fun u hu => hCalls u (Stmt.mem_nodes_trans (by simp [hu]) hMem)
  have hLength : p.length = b.rank := by rw [hp.length_eq, List.length_range]
  refine ⟨_, varReorder_eq hDecl hCache hInside hp, fun round fresh env s hSome => ?_, fun q hq => ?_⟩
  · obtain ⟨⟨after, writes⟩, hRun⟩ := Option.isSome_iff_exists.mp hSome
    have hFollows : ∀ {order : List Nat}, order.Perm (List.range order.length) →
        ∃ after', (t.update site.id fun _ => stored site n b body order).runIn round fresh .outside env s
            = some (after', writes.map (ScopedWrite.moved site.id order)) ∧ after = after' :=
      fun hOrder => follows_stored hIds hMem hCache hOrder round fresh env s s after writes rfl hRun
    -- the program itself is the one with the dimensions in their own order
    have hRange : (List.range b.rank).Perm (List.range (List.range b.rank).length) := by
      rw [List.length_range]
    obtain ⟨same, hPlain, rfl⟩ := hFollows hRange
    rw [update_stored_range hIds hMem, List.map_congr_left fun w _ => w.moved_range site.id b.rank,
      List.map_id'] at hPlain
    obtain ⟨moved, hMoved, rfl⟩ := hFollows (hLength ▸ hp)
    exact ⟨_, writes, hPlain, hMoved⟩
  · have hLess : ∀ k ∈ q, k < p.length := by
      intro k hk
      rw [hLength]
      exact List.mem_range.mp (hq.mem_iff.mp hk)
    have hBoth : (Expr.permuted q p).Perm (List.range b.rank) :=
      (Expr.permuted_order_perm (hLength ▸ hq)).trans hp
    have hOnce := varReorder_eq hDecl hCache hInside hBoth
    rw [← Expr.permuted_eq_map hLess]
    refine ⟨_, (varReorder_varReorder hIds hDecl hCache hInside hp hq).trans hOnce, hOnce, fun hEq => ?_⟩
    have hSelf := varReorder_range hIds hDecl hCache hInside
    rw [← hEq, hOnce] at hSelf
    exact Except.ok.inj hSelf

/-- The buffer of `turning` and what is done with it: its elements give each other's places, and another
    buffer of its name hides it for a while. -/
def turningBody : Stmt :=
  .block ⟨2, none⟩ [
    .store ⟨3, none⟩ "tile" [.int 0, .int 1, .int 3] (.int 2),
    .store ⟨4, none⟩ "tile" [.int 1, .load "tile" [.int 0, .int 1, .int 3], .int 0] (.var "i"),
    .decl ⟨5, none⟩ "tile" ⟨[.int 1, .int 1, .int 2], .int32, .cache, .cpu⟩
      (.store ⟨6, none⟩ "tile" [.int 0, .int 0, .int 1] (.int 7)),
    .store ⟨7, none⟩ "y" [.var "i"]
      (.load "tile" [.int 1, .load "tile" [.int 0, .int 1, .int 3], .int 0])]

/-- A loop with a local buffer of three dimensions. -/
def turning : Stmt :=
  .loop ⟨0, none⟩ { iter := "i", lower := .int 4, upper := .int 5 }
    (.decl ⟨1, some "D"⟩ "tile" ⟨[.int 2, .int 3, .int 4], .int32, .cache, .cpu⟩ turningBody)

/-- The dimensions of the buffer go around in a circle, and then back. -/
theorem turning_relabels :
    turning.ids.Nodup ∧ (∀ u ∈ turning.nodes, u.isCall = false)
      ∧ ∃ t', varReorder turning "D" [1, 2, 0] = .ok t' ∧ varReorder t' "D" [2, 0, 1] = .ok turning
        ∧ ((turning.runIn (fun _ => 0) (fun _ _ _ => some 3) .outside (fun _ => 0)
            ⟨.blank, .blank⟩).map Prod.snd
          = some [⟨⟨"tile", [0, 1, 3], 2⟩, some 1⟩, ⟨⟨"tile", [1, 2, 0], 4⟩, some 1⟩,
              ⟨⟨"tile", [0, 0, 1], 7⟩, some 5⟩, ⟨⟨"y", [4], 4⟩, none⟩])
        ∧ ((t'.runIn (fun _ => 0) (fun _ _ _ => some 3) .outside (fun _ => 0)
            ⟨.blank, .blank⟩).map Prod.snd
          = some [⟨⟨"tile", [1, 3, 0], 2⟩, some 1⟩, ⟨⟨"tile", [2, 0, 1], 4⟩, some 1⟩,
              ⟨⟨"tile", [0, 0, 1], 7⟩, some 5⟩, ⟨⟨"y", [4], 4⟩, none⟩]) := by
  have hIds : turning.ids.Nodup := by decide +kernel
  have hCalls : ∀ u ∈ turning.nodes, u.isCall = false := by
    have hNone : turning.nodes.any Stmt.isCall = false := by decide +kernel
    intro u hu
    exact Bool.eq_false_iff.mpr (List.any_eq_false.mp hNone u hu)
  have hDecl : turning.labelled? "D" = some (.decl ⟨1, some "D"⟩ "tile"
      ⟨[.int 2, .int 3, .int 4], .int32, .cache, .cpu⟩ turningBody) := rfl
  obtain ⟨t', hReorder, hRun, hAgain⟩ := varReorder_relabels (p := [1, 2, 0]) hIds hCalls hDecl rfl
    (by decide)
  obtain ⟨t'', hBack, -, hSelf⟩ := hAgain [2, 0, 1] (by decide)
  obtain rfl := hSelf (by decide)
  have hWritten : (turning.runIn (fun _ => 0) (fun _ _ _ => some 3) .outside (fun _ => 0)
      ⟨.blank, .blank⟩).map Prod.snd
        = some [⟨⟨"tile", [0, 1, 3], 2⟩, some 1⟩, ⟨⟨"tile", [1, 2, 0], 4⟩, some 1⟩,
            ⟨⟨"tile", [0, 0, 1], 7⟩, some 5⟩, ⟨⟨"y", [4], 4⟩, none⟩] := by
    decide +kernel
  obtain ⟨after, writes, hPlain, hMoved⟩ := hRun (fun _ => 0) (fun _ _ _ => some 3) (fun _ => 0)
    ⟨.blank, .blank⟩ (by decide +kernel)
  refine ⟨hIds, hCalls, t', hReorder, hBack, hWritten, ?_⟩
  rw [hPlain] at hWritten
  obtain rfl := Option.some.inj hWritten
  rw [hMoved]
  rfl

end Restructure

end LoopNest

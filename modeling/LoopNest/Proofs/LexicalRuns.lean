import LoopNest.Proofs.Walks
import LoopNest.Semantics.Lexical

/-! # Runs in lexical scopes

  A program only gets at the buffers that are in scope (`Stmt.framed_of_runIn`): a buffer outside of the
  program that is hidden by a local declaration keeps its contents, unless it is declared visible again,
  and every write belongs to a declaration around the program or in it.

  So when no buffer is declared visible inside of a local declaration of its name, names are enough to
  tell buffers apart, and a run in scopes is a run that goes by names (`Stmt.run_eq_runIn`). -/

namespace LoopNest

/-! ## Scopes and stores -/

namespace LocalScope

variable {σ : LocalScope} {s : Site} {n b : String} {buffer : Buffer}

theorem enter_ne (h : b ≠ n) : σ.enter s n buffer b = σ b := if_neg h

theorem enter_local (h : buffer.access = .cache) : σ.enter s n buffer n = some s.id := by
  simp [enter, h]

theorem enter_visible (h : buffer.access ≠ .cache) : σ.enter s n buffer n = none := by
  simp [enter, h]

end LocalScope

namespace Stores

variable {σ : LocalScope} {s : Stores} {b n : String}

@[simp] theorem exchange_outside (s : Stores) (b : String) (cells : Cells) :
    (s.exchange b cells).outside = s.outside := rfl

@[simp] theorem exchange_locals (s : Stores) (b : String) (cells : Cells) :
    (s.exchange b cells).locals = s.locals.exchange b cells := rfl

theorem seen_local (h : (σ b).isSome) : s.seen σ b = s.locals b := if_pos h

theorem seen_outside (h : σ b = none) : s.seen σ b = s.outside b := by
  simp [seen, h]

/-- An element of a buffer outside of the program, or of one that is not in scope. -/
theorem put_outside (h : (σ b).isSome) (c : String) (is : List Int) (v : Int) :
    (s.put σ c is v).outside b = s.outside b := by
  unfold put
  split
  · rfl
  · rename_i hc
    have hNe : b ≠ c := by
      rintro rfl
      exact hc h
    exact Memory.put_ne_buffer hNe

theorem put_seen (s : Stores) (σ : LocalScope) (b : String) (is : List Int) (v : Int) :
    (s.put σ b is v).seen σ = (s.seen σ).put b is v := by
  funext c js
  unfold put seen Memory.put
  by_cases hc : c = b
  · subst hc
    by_cases hLocal : (σ c).isSome = true <;> simp [hLocal]
  · by_cases hLocal : (σ b).isSome = true <;> simp [hLocal, hc]

end Stores

/-! ## Frames -/

/-- The buffer of that name is declared visible. -/
def Stmt.Exposes (t : Stmt) (n : String) : Prop :=
  ∃ s b body, Stmt.decl s n b body ∈ t.nodes ∧ b.access ≠ .cache

theorem Stmt.Exposes.of_child {t u : Stmt} {n : String} (hu : u ∈ t.children) (h : u.Exposes n) :
    t.Exposes n := by
  obtain ⟨s, b, body, hMem, hVisible⟩ := h
  exact ⟨s, b, body, Stmt.mem_nodes_of_child hu hMem, hVisible⟩

/-- What a program leaves alone in a scope, and what it writes.

    * **outside**: a hidden buffer outside of the program that is not declared visible;
    * **writes**: only buffers in scope, those outside, and those that are declared in it. -/
structure Framed (σ : LocalScope) (t : Stmt) (s : Stores) (r : Stores × List ScopedWrite) : Prop where
  outside : ∀ b, (σ b).isSome → ¬ t.Exposes b → r.1.outside b = s.outside b
  writes : ∀ w ∈ r.2, w.decl = σ w.buffer ∨ w.decl = none ∨ ∃ i ∈ t.ids, w.decl = some i

namespace Framed

variable {σ : LocalScope} {t u : Stmt} {s s' : Stores} {before after : List ScopedWrite}

theorem idle (σ : LocalScope) (t : Stmt) (s : Stores) : Framed σ t s (s, []) where
  outside _ _ _ := rfl
  writes _ hw := absurd hw List.not_mem_nil

theorem of_child {r : Stores × List ScopedWrite} (h : Framed σ u s r) (hu : u ∈ t.children) :
    Framed σ t s r where
  outside b hb hExposes := h.outside b hb fun hBelow => hExposes (hBelow.of_child hu)
  writes w hw := by
    obtain hScope | hOutside | ⟨i, hi, hDecl⟩ := h.writes w hw
    · exact .inl hScope
    · exact .inr (.inl hOutside)
    · obtain ⟨v, hv, rfl⟩ := List.mem_map.mp hi
      exact .inr (.inr ⟨v.id, List.mem_map_of_mem (Stmt.mem_nodes_of_child hu hv), hDecl⟩)

theorem seq {r : Stores × List ScopedWrite} (h : Framed σ t s (s', before)) (h' : Framed σ t s' r) :
    Framed σ t s (r.1, before ++ r.2) where
  outside b hb hExposes := (h'.outside b hb hExposes).trans (h.outside b hb hExposes)
  writes w hw := by
    obtain hw | hw := List.mem_append.mp hw
    · exact h.writes w hw
    · exact h'.writes w hw

theorem inTurn {α : Type} {f : α → Process} {xs : List α}
    (h : ∀ x ∈ xs, ∀ s r, f x s = some r → Framed σ t s r) :
    ∀ s r, Process.inTurn f xs s = some r → Framed σ t s r := by
  induction xs with
  | nil =>
    intro s r hRun
    cases hRun
    exact .idle σ t s
  | cons x xs ih =>
    intro s r hRun
    simp only [Process.inTurn, Option.bind_eq_bind, Option.bind_eq_some_iff] at hRun
    obtain ⟨⟨s', before⟩, hHead, r', hTail, hEq⟩ := hRun
    cases hEq
    exact (h x List.mem_cons_self s _ hHead).seq
      (ih (fun y hy => h y (List.mem_cons_of_mem x hy)) s' r' hTail)

end Framed

namespace Stmt

variable {round : Float → Int} {fresh : Nat → Memory}

/-- **Frames**: a program in a scope leaves hidden buffers alone. -/
theorem framed_of_runIn : ∀ (t : Stmt) (σ : LocalScope) (env : Env) (s : Stores)
    (r : Stores × List ScopedWrite), t.runIn round fresh σ env s = some r → Framed σ t s r := by
  refine Stmt.ind ?decl ?loop ?guard ?branch ?store ?call ?block ?hole
  case decl =>
    intro site n b body ih σ env s r hRun
    simp only [runIn, Process.withLocal, Option.bind_eq_bind, Option.bind_eq_some_iff] at hRun
    obtain ⟨⟨after, writes⟩, hBody, hEq⟩ := hRun
    cases hEq
    have hFramed := ih _ env _ _ hBody
    refine ⟨fun c hc hExposes => ?_, fun w hw => ?_⟩
    · have hInner : ¬ body.Exposes c := fun hBelow => hExposes (hBelow.of_child (by simp [children]))
      refine hFramed.outside c ?_ hInner
      by_cases hName : c = n
      · subst hName
        by_cases hCache : b.access = .cache
        · rw [LocalScope.enter_local hCache]
          rfl
        · exact absurd ⟨site, b, body, self_mem_nodes _, hCache⟩ hExposes
      · rwa [LocalScope.enter_ne hName]
    · obtain hScope | hRest := hFramed.writes w hw
      · by_cases hName : w.buffer = n
        · by_cases hCache : b.access = .cache
          · rw [hName, LocalScope.enter_local hCache] at hScope
            exact .inr (.inr ⟨site.id, List.mem_map_of_mem (self_mem_nodes _), hScope⟩)
          · rw [hName, LocalScope.enter_visible hCache] at hScope
            exact .inr (.inl hScope)
        · rw [LocalScope.enter_ne hName] at hScope
          exact .inl hScope
      · obtain hOutside | ⟨i, hi, hDecl⟩ := hRest
        · exact .inr (.inl hOutside)
        · obtain ⟨v, hv, rfl⟩ := List.mem_map.mp hi
          exact .inr (.inr ⟨v.id, List.mem_map_of_mem (mem_nodes_of_child (by simp [children]) hv),
            hDecl⟩)
  case loop =>
    intro site head body ih σ env s r hRun
    simp only [runIn, Option.bind_eq_bind, Option.bind_eq_some_iff] at hRun
    obtain ⟨lower, -, upper, -, hRun⟩ := hRun
    exact Framed.inTurn (fun v _ s r hBody => (ih σ _ s r hBody).of_child (by simp [children])) s r hRun
  case guard =>
    intro site c body ih σ env s r hRun
    simp only [runIn, Option.bind_eq_bind, Option.bind_eq_some_iff] at hRun
    obtain ⟨v, -, hRun⟩ := hRun
    split at hRun
    · cases hRun
      exact .idle σ _ s
    · exact (ih σ env s r hRun).of_child (by simp [children])
  case branch =>
    intro site c yes no ihYes ihNo σ env s r hRun
    simp only [runIn, Option.bind_eq_bind, Option.bind_eq_some_iff] at hRun
    obtain ⟨v, -, hRun⟩ := hRun
    split at hRun
    · exact (ihNo σ env s r hRun).of_child (by simp [children])
    · exact (ihYes σ env s r hRun).of_child (by simp [children])
  case store =>
    intro site b is v σ env s r hRun
    simp only [runIn, Option.bind_eq_bind, Option.bind_eq_some_iff] at hRun
    obtain ⟨indices, -, value, -, hEq⟩ := hRun
    cases hEq
    refine ⟨fun c hc _ => Stores.put_outside hc b indices value, fun w hw => ?_⟩
    obtain rfl := List.mem_singleton.mp hw
    exact .inl rfl
  case call => exact fun site f args σ env s r hRun => by cases hRun
  case block =>
    intro site ts ih σ env s r hRun
    rw [runIn, runAllIn_eq_inTurn] at hRun
    exact Framed.inTurn (fun t ht s r hBody => (ih t ht σ env s r hBody).of_child (by
      simpa [children] using ht)) s r hRun
  case hole => exact fun site σ env s r hRun => by cases hRun

/-! ## Runs that go by names -/

/-- No buffer is declared visible inside of a local declaration of its name. -/
def NeverResurfaces (t : Stmt) : Prop :=
  ∀ s n b body, Stmt.decl s n b body ∈ t.nodes → b.access = .cache → ¬ body.Exposes n

theorem NeverResurfaces.of_child {t u : Stmt} (h : t.NeverResurfaces) (hu : u ∈ t.children) :
    u.NeverResurfaces :=
  fun s n b body hMem hCache => h s n b body (mem_nodes_of_child hu hMem) hCache

/-- What a run in scopes looks like when it goes by names. -/
def byName (σ : LocalScope) (r : Stores × List ScopedWrite) : Memory × List Write :=
  (r.1.seen σ, r.2.map ScopedWrite.toWrite)

theorem inTurn_byName {α : Type} {σ : LocalScope} {f : α → Action} {g : α → Process} {xs : List α}
    (h : ∀ x ∈ xs, ∀ s, f x (s.seen σ) = (g x s).map (byName σ)) :
    ∀ s, Action.inTurn (xs.map f) (s.seen σ) = (Process.inTurn g xs s).map (byName σ) := by
  induction xs with
  | nil => exact fun s => rfl
  | cons x xs ih =>
    intro s
    have hTail := ih fun y hy => h y (List.mem_cons_of_mem x hy)
    simp only [List.map_cons, Action.inTurn_cons, Action.seq, h x List.mem_cons_self, Process.inTurn]
    cases g x s with
    | none => rfl
    | some r =>
      obtain ⟨s', before⟩ := r
      show (Action.inTurn (xs.map f) (s'.seen σ)).bind _ = _
      rw [hTail]
      cases hRun : Process.inTurn g xs s' with
      | none => simp [hRun]
      | some r' => simp [hRun, byName]

/-- A local declaration does by names what it does in its scope, if the hidden buffer outside is left
    alone. -/
theorem withLocal_byName {σ : LocalScope} {site : Site} {n : String} {b : Buffer} {cells : Cells}
    {a : Action} {a' : Process} (hCache : b.access = .cache)
    (hBody : ∀ s : Stores, a (s.seen (σ.enter site n b)) = (a' s).map (byName (σ.enter site n b)))
    (hHidden : ∀ s r, a' s = some r → r.1.outside n = s.outside n) (s : Stores) :
    a.withLocal n cells (s.seen σ) = (a'.withLocal n cells s).map (byName σ) := by
  have hHere : σ.enter site n b n = some site.id := LocalScope.enter_local hCache
  have hStart : (s.seen σ).exchange n cells = (s.exchange n cells).seen (σ.enter site n b) := by
    funext c
    by_cases hc : c = n
    · subst hc
      simp [Stores.seen, hHere]
    · simp [Stores.seen, LocalScope.enter_ne hc, hc]
  have hBack : ∀ r, a' (s.exchange n cells) = some r →
      (r.1.seen (σ.enter site n b)).exchange n (s.seen σ n) = (r.1.exchange n (s.locals n)).seen σ := by
    intro r hRun
    funext c
    by_cases hc : c = n
    · -- the buffer outside has been hidden all the time
      subst hc
      simp [Stores.seen, hHidden _ r hRun]
    · simp [Stores.seen, LocalScope.enter_ne hc, hc]
  simp only [Action.withLocal, Process.withLocal, hStart, hBody]
  cases hRun : a' (s.exchange n cells) with
  | none => rfl
  | some r => exact congrArg (fun m => some (m, r.2.map ScopedWrite.toWrite)) (hBack r hRun)

/-- A visible declaration does by names what it does in its scope, if the name means the buffer outside
    already. -/
theorem withVisible_byName {σ : LocalScope} {n : String} {cells : Cells} {a : Action} {a' : Process}
    (hNone : σ n = none) (hBody : ∀ s : Stores, a (s.seen σ) = (a' s).map (byName σ)) (s : Stores) :
    a (s.seen σ) = (a'.withLocal n cells s).map (byName σ) := by
  have hSeen : ∀ (s : Stores) cells, (s.exchange n cells).seen σ = s.seen σ := by
    intro s cells
    funext c
    by_cases hc : c = n
    · rw [hc, Stores.seen_outside hNone, Stores.seen_outside hNone, Stores.exchange_outside]
    · simp [Stores.seen, hc]
  simp only [Process.withLocal, ← hSeen s cells, hBody]
  cases a' (s.exchange n cells) with
  | none => rfl
  | some r => exact congrArg (fun m => some (m, r.2.map ScopedWrite.toWrite)) (hSeen r.1 _).symm

/-- **Names are enough** to tell buffers apart, when none is declared visible inside of a local
    declaration of its name. -/
theorem run_seen (round : Float → Int) (fresh : Memory) : ∀ (t : Stmt) (σ : LocalScope) (env : Env)
    (s : Stores), t.NeverResurfaces → (∀ b, t.Exposes b → σ b = none) →
    (t.rounded round).run fresh env (s.seen σ)
      = (t.runIn round (fun _ => fresh) σ env s).map (byName σ) := by
  have hBelow : ∀ {t u : Stmt} {σ : LocalScope}, u ∈ t.children → (∀ b, t.Exposes b → σ b = none) →
      ∀ b, u.Exposes b → σ b = none := fun hu h b hb => h b (hb.of_child hu)
  refine Stmt.ind ?decl ?loop ?guard ?branch ?store ?call ?block ?hole
  case decl =>
    intro site n b body ih σ env s hNever hExposes
    have hBody := fun σ hExposes s => ih σ env s (hNever.of_child (by simp [children])) hExposes
    rw [rounded_decl, run, runIn]
    by_cases hCache : b.access = .cache
    · have hHidden : ¬ body.Exposes n := hNever site n b body (self_mem_nodes _) hCache
      have hIn : ∀ c, body.Exposes c → σ.enter site n b c = none := by
        intro c hc
        have hNe : c ≠ n := by
          rintro rfl
          exact hHidden hc
        rw [LocalScope.enter_ne hNe]
        exact hExposes c (hc.of_child (by simp [children]))
      rw [if_pos hCache]
      refine withLocal_byName hCache (hBody _ hIn) (fun s r hRun => ?_) s
      exact (framed_of_runIn body _ env s r hRun).outside n (by simp [LocalScope.enter_local hCache]) hHidden
    · have hNone : σ n = none := hExposes n ⟨site, b, body, self_mem_nodes _, hCache⟩
      have hScope : σ.enter site n b = σ := by
        funext c
        by_cases hc : c = n
        · rw [hc, LocalScope.enter_visible hCache, hNone]
        · exact LocalScope.enter_ne hc
      rw [if_neg hCache, hScope]
      exact withVisible_byName hNone (hBody σ (hBelow (by simp [children]) hExposes)) s
  case loop =>
    intro site head body ih σ env s hNever hExposes
    have hBody := fun v s => ih σ (env.set head.iter v) s (hNever.of_child (by simp [children]))
      (hBelow (by simp [children]) hExposes)
    simp only [rounded_loop, run, runIn, Option.bind_eq_bind, Option.map_bind]
    refine Option.bind_congr fun lower _ => ?_
    simp only [Function.comp_apply, Option.map_bind]
    refine Option.bind_congr fun upper _ => ?_
    exact inTurn_byName (fun v _ s => hBody v s) s
  case guard =>
    intro site c body ih σ env s hNever hExposes
    have hBody := ih σ env s (hNever.of_child (by simp [children])) (hBelow (by simp [children]) hExposes)
    simp only [rounded_guard, run, runIn, Option.bind_eq_bind, Option.map_bind]
    refine Option.bind_congr fun v _ => ?_
    rw [Function.comp_apply]
    split
    · rfl
    · exact hBody
  case branch =>
    intro site c yes no ihYes ihNo σ env s hNever hExposes
    have hYes := ihYes σ env s (hNever.of_child (by simp [children])) (hBelow (by simp [children]) hExposes)
    have hNo := ihNo σ env s (hNever.of_child (by simp [children])) (hBelow (by simp [children]) hExposes)
    simp only [rounded_branch, run, runIn, Option.bind_eq_bind, Option.map_bind]
    refine Option.bind_congr fun v _ => ?_
    rw [Function.comp_apply]
    split
    · exact hNo
    · exact hYes
  case store =>
    intro site b is v σ env s _ _
    simp only [rounded_store, run, runIn, Option.bind_eq_bind, Option.map_bind]
    refine Option.bind_congr fun indices _ => ?_
    simp only [Function.comp_apply, Option.map_bind]
    refine Option.bind_congr fun value _ => ?_
    simp [byName, Stores.put_seen]
  case call => exact fun site f args σ env s _ _ => rfl
  case block =>
    intro site ts ih σ env s hNever hExposes
    have hEach : ∀ t ∈ ts, ∀ s : Stores, (t.rounded round).run fresh env (s.seen σ)
        = (t.runIn round (fun _ => fresh) σ env s).map (byName σ) := by
      intro t ht s
      have hChild : t ∈ (Stmt.block site ts).children := by simpa [children] using ht
      exact ih t ht σ env s (hNever.of_child hChild) (hBelow hChild hExposes)
    rw [rounded_block, run, runAll_eq_inTurn, runIn, runAllIn_eq_inTurn, List.map_map]
    exact inTurn_byName hEach s
  case hole => exact fun site σ env s _ _ => rfl

/-- A whole program that never declares a buffer visible inside of a local declaration of its name
    leaves the same memory and makes the same writes, when it runs by names and when it runs in
    scopes. -/
theorem run_eq_runIn {t : Stmt} (h : t.NeverResurfaces) (round : Float → Int) (fresh : Memory) (env : Env)
    (s : Stores) :
    (t.rounded round).run fresh env s.outside
      = (t.runIn round (fun _ => fresh) .outside env s).map fun r =>
        (r.1.outside, r.2.map ScopedWrite.toWrite) :=
  run_seen round fresh t .outside env s h fun _ _ => rfl

end Stmt

end LoopNest

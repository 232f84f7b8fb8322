import LoopNest.Dependence.Nest
import LoopNest.Proofs.Evaluation

/-! # Accesses as they happen

  `Stmt.accesses` lists the accesses in the text of a program. A run executes each of them many
  times. A `Touch` is one such execution: the access with the cell it reaches, the values of the
  iterators around it, and the local buffer it belongs to.

  * **Touches**: `Stmt.touchesWith` lists the touches of a run in the order in which they happen. A
    run that fails has touched what comes before the failure.
  * **Paths**: a touch happens in iterations that the loops around it really have
    (`Touch.Placed`); `Stmt.placed_of_mem_touchesWith` is the statement that all later ones rest
    on. -/

namespace LoopNest

/-! ## Touches -/

/-- A local buffer of a run: its declaration and the iteration in which that was entered. -/
structure Owner where
  /-- The number of the declaration. -/
  decl : Nat
  /-- The values of the iterators around the declaration, outermost first. -/
  turn : List Int
deriving DecidableEq, Repr, Inhabited

/-- Where a run stands inside the analysed statement. -/
structure Place where
  /-- The loops and declarations around. -/
  scope : Scope := {}
  /-- The values of the iterators of these loops, outermost first. -/
  turn : List Int := []
  /-- The local buffers that names refer to, innermost first. -/
  owners : List (String × Owner) := []

namespace Place

/-- The place inside one iteration of a loop. -/
def enter (p : Place) (l : Enclosing) (v : Int) : Place :=
  { p with scope := { p.scope with loops := p.scope.loops ++ [l] }, turn := p.turn ++ [v] }

/-- The scope below a declaration. -/
def declared (p : Place) (n : String) : Scope :=
  { p.scope with decls := (n, p.scope.loops.length) :: p.scope.decls }

/-- The place below the declaration of a local buffer. -/
def declare (p : Place) (n : String) (id : Nat) : Place :=
  { p with scope := p.declared n, owners := (n, ⟨id, p.turn⟩) :: p.owners }

/-- The place below the declaration of a visible buffer, which is no buffer of its own. -/
def expose (p : Place) (n : String) : Place := { p with scope := p.declared n }

end Place

/-- One execution of an access. -/
structure Touch where
  access : Access
  /-- The element that is read or written. -/
  cell : List Int
  /-- The values of the iterators of the loops around, outermost first. -/
  turn : List Int
  /-- The local buffer, unless the buffer comes from outside. -/
  owner : Option Owner
deriving Inhabited

namespace Touch

/-- The value that the iterator of the loop numbered `id` has, if that loop is around. -/
def value? (x : Touch) (id : Nat) : Option Int :=
  ((x.access.loops.zip x.turn).find? fun p => p.1.id == id).map Prod.snd

/-- Two touches meet when they reach one cell of one buffer and not both only read it. -/
structure Meets (x y : Touch) : Prop where
  buffer : x.access.buffer = y.access.buffer
  owner : x.owner = y.owner
  cell : x.cell = y.cell
  write : x.access.kind = .write ∨ y.access.kind = .write

theorem Meets.symm {x y : Touch} (h : x.Meets y) : y.Meets x :=
  ⟨h.buffer.symm, h.owner.symm, h.cell.symm, h.write.symm⟩

end Touch

namespace Place

/-- An access carried out here; none when a subscript has no value. -/
def touch? (c : Conventions) (env : Env) (m : Memory) (p : Place) (a : Access) : Option Touch :=
  (Expr.valuesWith? c env m a.indices).map fun cell =>
    ⟨a, cell, p.turn, p.owners.lookup a.buffer⟩

/-- Accesses carried out here one after the other. -/
def touch (c : Conventions) (env : Env) (m : Memory) (p : Place) (as : List Access) : List Touch :=
  as.filterMap (p.touch? c env m)

end Place

/-- The touches of a change, by the memory before it. -/
abbrev Trace := Memory → List Touch

/-- The touches of several changes one after the other, up to the first one that fails. -/
def Trace.inTurn : List (Change × Trace) → Trace
  | [], _ => []
  | (a, f) :: rest, m => f m ++ (a m).elim [] (Trace.inTurn rest)

namespace Stmt

mutual
/-- The touches of a run. -/
def touchesWith (c : Conventions) (p : Place) (env : Env) : Stmt → Trace
  | .decl s n b body => fun m =>
    if b.access = .cache then
      touchesWith c (p.declare n s.id) env body (m.exchange n (c.fresh s.label n))
    else touchesWith c (p.expose n) env body m
  | .loop s h body => fun m =>
    p.touch c env m (p.scope.reads s.id none h.lower ++ p.scope.reads s.id none h.upper) ++
      match h.lower.valueWith? c env m, h.upper.valueWith? c env m with
      | some lower, some upper =>
        Trace.inTurn ((counting lower upper).map fun v =>
          (body.change c (env.set h.iter v),
            touchesWith c (p.enter ⟨s.id, h⟩ v) (env.set h.iter v) body)) m
      | _, _ => []
  | .guard s e body => fun m =>
    p.touch c env m (p.scope.reads s.id none e) ++
      match e.valueWith? c env m with
      | some v => if v = 0 then [] else touchesWith c p env body m
      | none => []
  | .branch s e yes no => fun m =>
    p.touch c env m (p.scope.reads s.id none e) ++
      match e.valueWith? c env m with
      | some v => if v = 0 then touchesWith c p env no m else touchesWith c p env yes m
      | none => []
  | .store s b is v => fun m => p.touch c env m ((Stmt.store s b is v).accessesIn p.scope)
  | .block _ stmts => touchesAllWith c p env stmts
  | .call .. | .hole _ => fun _ => []
/-- The touches of statements one after the other. -/
def touchesAllWith (c : Conventions) (p : Place) (env : Env) : List Stmt → Trace
  | [] => fun _ => []
  | t :: ts => fun m =>
    touchesWith c p env t m ++ (t.change c env m).elim [] (touchesAllWith c p env ts)
end

/-- The touches of `Stmt.run`. -/
def touches (fresh : Memory) (env : Env) (t : Stmt) (m : Memory) : List Touch :=
  t.touchesWith (.reference fresh) {} env m

theorem touchesAllWith_eq_inTurn (c : Conventions) (p : Place) (env : Env) (ts : List Stmt) :
    touchesAllWith c p env ts
      = Trace.inTurn (ts.map fun t => (t.change c env, t.touchesWith c p env)) := by
  induction ts with
  | nil => rfl
  | cons t ts ih =>
    funext m
    simp [touchesAllWith, Trace.inTurn, ih]

end Stmt

/-- A touch of several changes is a touch of one of them. -/
theorem Trace.mem_inTurn {α : Type} {f : α → Change × Trace} {xs : List α} {m : Memory} {x : Touch}
    (h : x ∈ Trace.inTurn (xs.map f) m) : ∃ a ∈ xs, ∃ m', x ∈ (f a).2 m' := by
  induction xs generalizing m with
  | nil => cases h
  | cons a xs ih =>
    rcases List.mem_append.mp h with hHere | hLater
    · exact ⟨a, List.mem_cons_self, m, hHere⟩
    · cases hChange : (f a).1 m with
      | none =>
        rw [hChange] at hLater
        cases hLater
      | some m' =>
        rw [hChange] at hLater
        obtain ⟨b, hb, hx⟩ := ih hLater
        exact ⟨b, List.mem_cons_of_mem a hb, hx⟩

/-! ## Paths -/

/-- One iteration of a loop. -/
structure Turn where
  loop : Enclosing
  /-- The value of the loop's lower bound. -/
  lower : Int
  /-- The value of its iterator. -/
  value : Int

/-- The environment inside iterations, outermost first. -/
def Env.along (env : Env) (path : List Turn) : Env :=
  path.foldl (fun env r => env.set r.loop.head.iter r.value) env

theorem Env.along_append (env : Env) (path more : List Turn) :
    env.along (path ++ more) = (env.along path).along more := by
  simp [along]

/-- The loop of an iteration, entered in an environment, has it. -/
def Turn.Ran (c : Conventions) (env : Env) (r : Turn) : Prop :=
  ∃ m upper, r.loop.head.lower.valueWith? c env m = some r.lower
    ∧ r.loop.head.upper.valueWith? c env m = some upper ∧ r.lower ≤ r.value ∧ r.value < upper

/-- The loops of a path have these iterations, each in the environment of those before it. -/
def InRange (c : Conventions) : Env → List Turn → Prop
  | _, [] => True
  | env, r :: rest => r.Ran c env ∧ InRange c (env.set r.loop.head.iter r.value) rest

theorem InRange.append {c : Conventions} {env : Env} {path more : List Turn}
    (h : InRange c env path) (h' : InRange c (env.along path) more) :
    InRange c env (path ++ more) := by
  induction path generalizing env with
  | nil => exact h'
  | cons r path ih => exact ⟨h.1, ih h.2 h'⟩

/-- An environment that a run reaches at a place. -/
structure Place.At (c : Conventions) (start : Env) (p : Place) (env : Env) (path : List Turn) :
    Prop where
  loops : path.map Turn.loop = p.scope.loops
  turn : path.map Turn.value = p.turn
  inRange : InRange c start path
  env : env = start.along path

theorem Place.At.start (c : Conventions) (env : Env) : Place.At c env {} env [] :=
  ⟨rfl, rfl, trivial, rfl⟩

theorem Place.At.enter {c : Conventions} {start env : Env} {p : Place} {path : List Turn}
    (h : p.At c start env path) {l : Enclosing} {m : Memory} {lower upper v : Int}
    (hLower : l.head.lower.valueWith? c env m = some lower)
    (hUpper : l.head.upper.valueWith? c env m = some upper) (hv : v ∈ counting lower upper) :
    (p.enter l v).At c start (env.set l.head.iter v) (path ++ [⟨l, lower, v⟩]) := by
  have hRange := mem_counting.mp hv
  refine ⟨?_, ?_, ?_, ?_⟩
  · simp [Place.enter, h.loops]
  · simp [Place.enter, h.turn]
  · apply h.inRange.append
    rw [← h.env]
    exact ⟨⟨m, upper, hLower, hUpper, hRange.1, hRange.2⟩, trivial⟩
  · rw [Env.along_append, ← h.env]
    rfl

/-- A touch happens in iterations that the loops around it have. -/
structure Touch.Placed (c : Conventions) (start : Env) (x : Touch) (path : List Turn) : Prop where
  loops : path.map Turn.loop = x.access.loops
  turn : path.map Turn.value = x.turn
  inRange : InRange c start path
  cell : ∃ m, Expr.valuesWith? c (start.along path) m x.access.indices = some x.cell

/-- What a place touches is placed, and it is one of the accesses. -/
theorem Place.mem_touch {c : Conventions} {start env : Env} {m : Memory} {p : Place}
    {path : List Turn} (hAt : p.At c start env path) {as : List Access}
    (hLoops : ∀ a ∈ as, a.loops = p.scope.loops) {x : Touch} (h : x ∈ p.touch c env m as) :
    x.access ∈ as ∧ x.Placed c start path := by
  obtain ⟨a, ha, hx⟩ := List.mem_filterMap.mp h
  obtain ⟨cell, hCell, rfl⟩ := Option.map_eq_some_iff.mp hx
  refine ⟨ha, ?_, hAt.turn, hAt.inRange, m, ?_⟩
  · rw [hAt.loops, hLoops a ha]
  · rw [← hAt.env]
    exact hCell

theorem Scope.mem_reads {s : Scope} {stmt : Nat} {reduced : Option (String × ReduceOp)} {e : Expr}
    {a : Access} : a ∈ s.reads stmt reduced e ↔ ∃ b is, Expr.load b is ∈ e.parts ∧
      a = s.access .read stmt (reduced.bind fun (name, op) => if name == b then some op else none)
        b is := by
  unfold Scope.reads
  rw [List.mem_filterMap]
  constructor
  · rintro ⟨p, hp, ha⟩
    cases p <;> cases ha
    exact ⟨_, _, hp, rfl⟩
  · rintro ⟨b, is, hp, rfl⟩
    exact ⟨_, hp, rfl⟩

theorem Scope.loops_of_mem_reads {s : Scope} {stmt : Nat} {reduced : Option (String × ReduceOp)}
    {e : Expr} {a : Access} (h : a ∈ s.reads stmt reduced e) : a.loops = s.loops := by
  obtain ⟨b, is, _, rfl⟩ := Scope.mem_reads.mp h
  rfl

namespace Stmt

theorem accessesInAll_eq_flatMap (s : Scope) (ts : List Stmt) :
    accessesInAll s ts = ts.flatMap (accessesIn s) := by
  induction ts with
  | nil => rfl
  | cons t ts ih => simp [accessesInAll, ih]

theorem loops_of_mem_accessesIn_store {s : Scope} {site : Site} {b : String} {is : List Expr}
    {v : Expr} {a : Access} (h : a ∈ (Stmt.store site b is v).accessesIn s) :
    a.loops = s.loops := by
  simp only [accessesIn, List.mem_append, List.mem_flatMap, List.mem_singleton] at h
  rcases h with (⟨i, _, h⟩ | h) | rfl
  · exact Scope.loops_of_mem_reads h
  · exact Scope.loops_of_mem_reads h
  · rfl

/-- **Paths of touches**: every touch of a run executes an access of the text, in iterations that
    the loops around it have. -/
theorem placed_of_mem_touchesWith {c : Conventions} {start : Env} :
    ∀ (t : Stmt) (p : Place) (env : Env) (path : List Turn) (m : Memory) (x : Touch),
      p.At c start env path → x ∈ t.touchesWith c p env m →
        x.access ∈ t.accessesIn p.scope ∧ ∃ more, x.Placed c start (path ++ more) := by
  refine Stmt.ind ?_ ?_ ?_ ?_ ?_ ?_ ?_ ?_
  · intro s n b body ih p env path m x hAt hx
    simp only [touchesWith] at hx
    split at hx
    · exact ih (p.declare n s.id) env path _ x ⟨hAt.loops, hAt.turn, hAt.inRange, hAt.env⟩ hx
    · exact ih (p.expose n) env path _ x ⟨hAt.loops, hAt.turn, hAt.inRange, hAt.env⟩ hx
  · intro s h body ih p env path m x hAt hx
    simp only [touchesWith, List.mem_append] at hx
    rcases hx with hx | hx
    · -- the bounds are read outside the loop
      have hLoops : ∀ a ∈ p.scope.reads s.id none h.lower ++ p.scope.reads s.id none h.upper,
          a.loops = p.scope.loops := by
        intro a ha
        rcases List.mem_append.mp ha with ha | ha
        · exact Scope.loops_of_mem_reads ha
        · exact Scope.loops_of_mem_reads ha
      obtain ⟨hAccess, hPlaced⟩ := Place.mem_touch hAt hLoops hx
      exact ⟨List.mem_append_left _ hAccess, [], by rwa [List.append_nil]⟩
    · split at hx
      · rename_i lower upper hLower hUpper
        obtain ⟨v, hv, m', hx⟩ := Trace.mem_inTurn hx
        obtain ⟨hAccess, more, hPlaced⟩ :=
          ih _ _ _ m' x (hAt.enter (l := ⟨s.id, h⟩) hLower hUpper hv) hx
        refine ⟨List.mem_append_right _ hAccess, ⟨⟨s.id, h⟩, lower, v⟩ :: more, ?_⟩
        rwa [List.append_assoc] at hPlaced
      · cases hx
  · intro s e body ih p env path m x hAt hx
    simp only [touchesWith, List.mem_append] at hx
    rcases hx with hx | hx
    · obtain ⟨hAccess, hPlaced⟩ := Place.mem_touch hAt (fun a => Scope.loops_of_mem_reads) hx
      exact ⟨List.mem_append_left _ hAccess, [], by rwa [List.append_nil]⟩
    · split at hx
      · split at hx
        · cases hx
        · obtain ⟨hAccess, hPlaced⟩ := ih p env path m x hAt hx
          exact ⟨List.mem_append_right _ hAccess, hPlaced⟩
      · cases hx
  · intro s e yes no ihYes ihNo p env path m x hAt hx
    simp only [touchesWith, List.mem_append] at hx
    rcases hx with hx | hx
    · obtain ⟨hAccess, hPlaced⟩ := Place.mem_touch hAt (fun a => Scope.loops_of_mem_reads) hx
      exact ⟨List.mem_append_left _ (List.mem_append_left _ hAccess), [],
        by rwa [List.append_nil]⟩
    · split at hx
      · split at hx
        · obtain ⟨hAccess, hPlaced⟩ := ihNo p env path m x hAt hx
          exact ⟨List.mem_append_right _ hAccess, hPlaced⟩
        · obtain ⟨hAccess, hPlaced⟩ := ihYes p env path m x hAt hx
          exact ⟨List.mem_append_left _ (List.mem_append_right _ hAccess), hPlaced⟩
      · cases hx
  · intro s b is v p env path m x hAt hx
    obtain ⟨hAccess, hPlaced⟩ :=
      Place.mem_touch hAt (fun a => loops_of_mem_accessesIn_store) hx
    exact ⟨hAccess, [], by rwa [List.append_nil]⟩
  · intro s f args p env path m x _ hx
    cases hx
  · intro s stmts ih p env path m x hAt hx
    rw [touchesWith, touchesAllWith_eq_inTurn] at hx
    obtain ⟨t, ht, m', hx⟩ := Trace.mem_inTurn hx
    obtain ⟨hAccess, hPlaced⟩ := ih t ht p env path m' x hAt hx
    refine ⟨?_, hPlaced⟩
    rw [accessesIn, accessesInAll_eq_flatMap]
    exact List.mem_flatMap.mpr ⟨t, ht, hAccess⟩
  · intro s p env path m x _ hx
    cases hx

end Stmt

end LoopNest

import LoopNest.Proofs.WrittenPrograms

/-! # Sessions that are read back

  A session is written as JSON and read again. What can be read is more than what is written: fields
  may be left out or be null, members may be unknown, and variants may be spelled in several ways. What
  is read can always be written and read back, and nothing is lost on the way.

  Main statement: reading and writing agree (`Session.read_agrees_with_written`). -/

namespace LoopNest

open Json (Fields Gives Spelling)

/-! ## Commands -/

namespace Command

/-- Whether a file can hold a command: its expressions can be stored and its axes are numbers of 64
    bits. -/
structure Storable (c : Command) : Prop where
  exprs : ∀ e ∈ c.exprs, e.Storable
  axes : ∀ n ∈ c.axes, n < Word.naturals

theorem storable_of_ofFields? {op : String} {fs : Fields} {c : Command} (h : ofFields? op fs = some c) :
    c.Storable := by
  have hCount := (Expr.gives_ofJson? .free).nullable?
  unfold ofFields? at h
  simp only [Option.bind_eq_bind, Option.pure_def] at h
  split at h <;> simp only [Option.bind_eq_some_iff, Option.some.injEq, reduceCtorEq] at h
  · obtain ⟨order, -, rfl⟩ := h
    exact ⟨by simp [exprs], by simp [axes]⟩
  · obtain ⟨l, -, factor, hFactor, nparts, hParts, rfl⟩ := h
    have hCounts := And.intro (hCount.optional (by simp) hFactor) (hCount.optional (by simp) hParts)
    exact ⟨by simpa [exprs, or_imp, forall_and] using hCounts, by simp [axes]⟩
  · obtain ⟨l, -, tag, -, rfl⟩ := h
    exact ⟨by simp [exprs], by simp [axes]⟩
  · obtain ⟨l, -, after, -, rfl⟩ := h
    exact ⟨by simp [exprs], by simp [axes]⟩
  · obtain ⟨l, -, order, hOrder, rfl⟩ := h
    exact ⟨by simp [exprs], (Json.natBelow?_gives Word.naturals).listOf?.required hOrder⟩
  · subst h
    exact ⟨by simp [exprs], by simp [axes]⟩

/-- **Read commands** can be stored. -/
theorem gives_ofJson? : Gives ofJson? Storable := by
  intro j c h
  obtain ⟨j, -, h⟩ := Option.bind_eq_some_iff.mp h
  unfold ofLegible? at h
  -- an array or an object, both come to the same fields
  split at h
  · obtain ⟨op, -, h⟩ := Option.bind_eq_some_iff.mp h
    obtain ⟨fs, -, h⟩ := Option.bind_eq_some_iff.mp h
    exact storable_of_ofFields? h
  · obtain ⟨fs, -, h⟩ := Option.bind_eq_some_iff.mp h
    obtain ⟨op, -, h⟩ := Option.bind_eq_some_iff.mp h
    obtain ⟨fs, -, h⟩ := Option.bind_eq_some_iff.mp h
    exact storable_of_ofFields? h

theorem isLegible_toJson (c : Command) : c.toJson.isLegible = true := by
  rw [toJson, Json.isLegible_obj, List.forall_mem_cons]
  refine ⟨rfl, ?_⟩
  cases c with
  | split l factor nparts =>
    cases factor <;> cases nparts <;> simp [fields, Json.memberIfSome, Expr.isLegible_toJson]
  | varReorder l order => simp [fields, Json.ofNat, Json.isLegible, Json.allLegible_iff]
  | _ => simp [fields, Json.ofTexts]

/-- A count is read back. -/
theorem nullable?_toJson {e : Expr} (h : e.Storable) :
    Json.nullable? (Expr.ofJson? .free) e.toJson = some (some e) :=
  Json.nullable?_of_ne e.toJson_ne_null (Expr.ofJson?_toJson .free h)

/-- The fields of a command are read back. -/
theorem ofFields?_fields {c : Command} (h : c.Storable) : ofFields? c.opName c.fields = some c := by
  cases c with
  | reorder order => simp [ofFields?, opName, fields, Json.texts?_ofTexts]
  | split l factor nparts =>
    have hFactor : ∀ e ∈ factor, _ := fun e he =>
      nullable?_toJson (h.exprs e (by simp [exprs, Option.mem_def.mp he]))
    have hParts : ∀ e ∈ nparts, _ := fun e he =>
      nullable?_toJson (h.exprs e (by simp [exprs, Option.mem_def.mp he]))
    cases factor <;> cases nparts <;>
      simp_all [ofFields?, opName, fields, countOfFields?, Json.memberIfSome, Json.text?]
  | parallelize l tag => simp [ofFields?, opName, fields, Json.text?]
  | fission l after => simp [ofFields?, opName, fields, Json.text?]
  | varReorder l order =>
    have hOrder : wordsOfJson? (.arr (order.map .ofNat)) = some order :=
      Json.listOf?_map fun n hn => Json.natBelow?_ofNat (h.axes n hn)
    simp [ofFields?, opName, fields, Json.text?, hOrder]
  | inline => rfl

/-- Keys are different from each other and from the one of the name. -/
theorem nodup_keys (op : String) : ("op" :: keys op).Nodup := by
  unfold keys
  split <;> simp

/-- Fields are written under some of the keys that are looked for, in the same order. -/
theorem keys_fields (c : Command) : (c.fields.map (·.1)).Sublist (keys c.opName) := by
  cases c with
  | split l factor nparts =>
    cases factor <;> cases nparts <;> simp [opName, keys, fields, Json.memberIfSome]
  | _ => simp [opName, keys, fields]

/-- **Stored commands** are read back. -/
theorem ofJson?_toJson {c : Command} (h : c.Storable) : ofJson? c.toJson = some c := by
  obtain ⟨hOther, -⟩ := List.nodup_cons.mp (nodup_keys c.opName)
  have hNodup : ((("op", Json.str c.opName) :: c.fields).map (·.1)).Nodup :=
    (nodup_keys c.opName).sublist ((keys_fields c).cons_cons "op")
  have hKnown : ∀ m ∈ c.fields, m.1 ∈ keys c.opName := fun m hm =>
    (keys_fields c).subset (List.mem_map_of_mem hm)
  -- the object is read twice: for the name of the command, then for the fields of that command
  have hOp : c.toJson.objectFields? ["op"] = some [("op", .str c.opName)] := by
    have hNone : (c.fields.filter fun m => ["op"].contains m.1) = [] := by
      rw [List.filter_eq_nil_iff]
      intro m hm hSame
      have hKey : m.1 = "op" := by simpa using hSame
      exact hOther (hKey ▸ hKnown m hm)
    rw [toJson, Json.objectFields?_obj hNodup, List.filter_cons_of_pos (by simp), hNone]
  have hFields : c.toJson.objectFields? (keys c.opName) = some c.fields := by
    rw [toJson, Json.objectFields?_obj hNodup, List.filter_cons_of_neg (by simpa using hOther),
      List.filter_eq_self.mpr fun m hm => by simpa using hKnown m hm]
  have hLegible : c.toJson.legible? = some c.toJson :=
    Json.legible?_eq_some.mpr ⟨isLegible_toJson c, rfl⟩
  rw [ofJson?, hLegible]
  show ofLegible? c.toJson = _
  have hRead : ofLegible? c.toJson = (do
      let op ← (← c.toJson.objectFields? ["op"]).required "op" Json.text?
      ofFields? op (← c.toJson.objectFields? (keys op))) := rfl
  simp [hRead, hOp, Json.text?, hFields, ofFields?_fields h]

end Command

/-! ## Sessions -/

namespace Session

/-- Whether a file can hold a session. -/
structure Storable (s : Session) : Prop where
  functions : ∀ f ∈ s.functions, f.Storable
  program : s.program.Storable
  schedule : ∀ c ∈ s.schedule, c.Storable

/-- **Read sessions** can be stored. -/
theorem gives_ofJson? (sp : Spelling) : Gives (ofJson? sp) Storable := by
  intro j s h
  simp only [ofJson?, Option.bind_eq_bind, Option.pure_def, Option.bind_eq_some_iff,
    Option.some.injEq] at h
  obtain ⟨fs, -, functions, hFunctions, program, hProgram, schedule, hSchedule, rfl⟩ := h
  exact ⟨(Function.gives_ofJson? sp).listOf?.optional (by simp) hFunctions,
    (Stmt.gives_ofJson? sp).required hProgram,
    Command.gives_ofJson?.listOf?.optional (by simp) hSchedule⟩

/-- **Stored sessions** are read back. -/
theorem Storable.read {s : Session} (h : s.Storable) (sp : Spelling) :
    ofJson? sp s.toJson = some s := by
  obtain ⟨functions, program, schedule⟩ := s
  have hFunctions : Json.listOf? (Function.ofJson? sp) (.arr (functions.map Function.toJson))
      = some functions :=
    Json.listOf?_map fun f hf => Function.ofJson?_toJson sp (h.functions f hf)
  have hProgram := Stmt.ofJson?_toJson sp h.program
  have hSchedule : Json.listOf? Command.ofJson? (.arr (schedule.map Command.toJson))
      = some schedule :=
    Json.listOf?_map fun c hc => Command.ofJson?_toJson (h.schedule c hc)
  -- an empty schedule is left out
  cases schedule with
  | nil => simp [ofJson?, toJson, Json.recordFields?_known, hFunctions, hProgram]
  | cons c cs =>
    rw [List.map_cons] at hSchedule
    simp [ofJson?, toJson, Json.recordFields?_known, hFunctions, hProgram, hSchedule]

/-- A session whose programs were built or read can be stored when its numbers can. -/
theorem storable_of_built {s : Session}
    (hBuilt : ∀ t ∈ s.programs, (∃ t₀ : Stmt, t₀.commit = .ok t) ∨ ∃ a : Arena, a.program? = .ok t)
    (hRange : s.InRange) (hFinite : s.Finite) : s.Storable := by
  have hExprs : ∀ e ∈ s.exprs, e.Storable := by
    intro e he p hp
    cases p with
    | int v => exact hRange.constants e he v hp
    | float v => exact hFinite e he v hp
    | _ => trivial
  have hCommitted : ∀ t ∈ s.programs, t.Committed := by
    intro t ht
    rcases hBuilt t ht with ⟨t₀, h⟩ | ⟨a, h⟩
    · exact Stmt.committed_of_commit h
    · exact Stmt.committed_of_program? h
  -- the numbers of a session are those of its program, its functions and its schedule
  simp only [exprs, List.forall_mem_append] at hExprs
  obtain ⟨⟨hProgram, hFunctions⟩, hSchedule⟩ := hExprs
  refine ⟨fun f hf => ?_, ⟨hCommitted _ (by simp [programs]), hRange.statements _ (by simp [programs]),
    hProgram⟩, fun c hc => ⟨fun e he => hSchedule e (List.mem_flatMap.mpr ⟨c, hc, he⟩),
    hRange.axes c hc⟩⟩
  have hBody : f.body ∈ s.programs := List.mem_cons_of_mem _ (List.mem_map_of_mem hf)
  have hOwn : ∀ e ∈ f.exprs, e.Storable := fun e he => hFunctions e (List.mem_flatMap.mpr ⟨f, hf, he⟩)
  rw [Function.exprs, List.forall_mem_append] at hOwn
  exact ⟨fun p hp e he => hOwn.1 e (List.mem_flatMap.mpr ⟨p, hp, he⟩),
    hCommitted _ hBody, hRange.statements _ hBody, hOwn.2⟩

/-- **Reading and writing agree**, however variants may be spelled where the session is read.

    * Write what was read from any value: reading it gives the same session.
    * Take a session whose programs were built or read from tables, whose integers stay within their
      types and whose floating point constants are finite. Reading what is written gives this
      session. -/
theorem read_agrees_with_written (s : Session) :
    (∀ sp j, ofJson? sp j = some s → ∀ sp', ofJson? sp' s.toJson = some s)
    ∧ ((∀ t ∈ s.programs, (∃ t₀ : Stmt, t₀.commit = .ok t) ∨ ∃ a : Arena, a.program? = .ok t) →
      s.InRange → s.Finite → ∀ sp, ofJson? sp s.toJson = some s) :=
  ⟨fun sp j h => (gives_ofJson? sp j s h).read,
    fun hBuilt hRange hFinite => (storable_of_built hBuilt hRange hFinite).read⟩

/-- A function that halves a row, a program that calls it where a condition holds, and a schedule. -/
def halving : Session where
  functions := [
    { name := "halve"
      params := [⟨"A", ⟨[.var "n"], .float32, .inout, .cpu⟩⟩]
      body := .loop ⟨0, some "L"⟩ { iter := "i", lower := .int 0, upper := .var "n" }
        (.store ⟨1, some "S"⟩ "A" [.var "i"] (.binary .mul (.float 0.5) (.load "A" [.var "i"]))) }]
  program := .guard ⟨0, none⟩ (.binary .lt (.var "n") (.int 64))
    (.call ⟨1, some "C"⟩ "halve" [.buffer "A"])
  schedule := [.inline, .split "L" (some (.int 32)) none, .varReorder "V" [1, 0]]

theorem read_halving : ofJson? .file halving.toJson = some halving := by
  have hExprs : halving.exprs = [.binary .lt (.var "n") (.int 64), .var "n", .int 0, .var "n",
      .var "i", .binary .mul (.float 0.5) (.load "A" [.var "i"]), .int 32] := rfl
  refine (read_agrees_with_written halving).2 ?_ ⟨?_, ?_, ?_⟩ ?_ .file
  · -- both programs are numbered as their builder numbers them
    intro t ht
    refine .inl ⟨t, ?_⟩
    simp only [programs, halving, List.map_cons, List.map_nil, List.mem_cons, List.not_mem_nil,
      or_false] at ht
    rcases ht with rfl | rfl <;> rfl
  · rw [hExprs]
    simp [Expr.parts, Expr.partsAll, Word.fits, Word.least, Word.greatest]
  · simp [programs, halving, Stmt.size, places]
  · simp [halving, Command.axes, Word.naturals]
  · have hHalf : (0.5 : Float).isFinite = true := by decide +kernel
    rw [Finite, hExprs]
    simpa [Expr.parts, Expr.partsAll] using hHalf

end Session

end LoopNest

import LoopNest.Proofs.ReadTables
import LoopNest.Proofs.WrittenExprs
import LoopNest.Session.Contents

/-! # Programs that are read back

  A table can be stored in a file when its expressions can be stored and its places are numbers of 32
  bits. Every table that is read can be stored, and one that can be stored is read back. Programs are
  read through tables:

  * **Read programs** (`Stmt.gives_ofJson?`) are committed, they have no more statements than there
    are places, and their expressions can be stored.
  * **Such programs** are read back (`Stmt.ofJson?_toJson`), because the table of a committed program
    is read as this program. -/

namespace LoopNest

open Json (Fields Gives Spelling)

/-! ## Buffers -/

theorem AccessClass.ofJson?_toJson (s : Spelling) (a : AccessClass) :
    AccessClass.ofJson? s a.toJson = some a := by
  cases a <;> exact Json.oneOf?_name (by decide)

theorem MemSpace.ofJson?_toJson (s : Spelling) (m : MemSpace) :
    MemSpace.ofJson? s m.toJson = some m := by
  cases m <;> exact Json.oneOf?_name (by decide)

theorem gives_exprsOfJson? (s : Spelling) :
    Gives (exprsOfJson? s) fun es => ∀ e ∈ es, e.Storable :=
  (Expr.gives_ofJson? s).listOf?

theorem exprsOfJson?_toJsons (s : Spelling) {es : List Expr} (h : ∀ e ∈ es, e.Storable) :
    exprsOfJson? s (.arr (Expr.toJsons es)) = some es := by
  rw [Expr.toJsons_eq_map]
  exact Json.listOf?_map fun e he => Expr.ofJson?_toJson s (h e he)

namespace Buffer

variable {s : Spelling} {b : Buffer}

theorem storable_of_ofFields? {fs : Fields} (h : ofFields? s fs = some b) :
    ∀ e ∈ b.shape, e.Storable := by
  simp only [ofFields?, Option.bind_eq_bind, Option.pure_def, Option.bind_eq_some_iff,
    Option.some.injEq] at h
  obtain ⟨shape, hShape, elem, -, access, -, space, -, rfl⟩ := h
  exact (gives_exprsOfJson? s).required hShape

theorem gives_ofJson? (s : Spelling) : Gives (ofJson? s) fun b => ∀ e ∈ b.shape, e.Storable := by
  intro j b h
  obtain ⟨fs, -, h⟩ := Option.bind_eq_some_iff.mp h
  exact storable_of_ofFields? h

theorem ofFields?_fields (h : ∀ e ∈ b.shape, e.Storable) : ofFields? s b.fields = some b := by
  simp [ofFields?, fields, exprsOfJson?_toJsons s h, ElemType.ofJson?_toJson,
    AccessClass.ofJson?_toJson, MemSpace.ofJson?_toJson]

/-- Other fields do no harm. -/
theorem ofFields?_cons {key : String} {j : Json} {fs : Fields} (h : key ∉ keys) :
    ofFields? s ((key, j) :: fs) = ofFields? s fs := by
  simp only [keys, List.mem_cons, List.not_mem_nil, or_false, not_or] at h
  obtain ⟨hShape, hElem, hAccess, hSpace⟩ := h
  simp [ofFields?, Ne.symm hShape, Ne.symm hElem, Ne.symm hAccess, Ne.symm hSpace]

theorem ofJson?_toJson (h : ∀ e ∈ b.shape, e.Storable) : ofJson? s b.toJson = some b := by
  rw [ofJson?, toJson, Json.recordFields?_known (by simp [fields]) (by simp [fields, keys])]
  exact ofFields?_fields h

theorem isLegible_of_mem_fields {m : String × Json} (h : m ∈ b.fields) : m.2.isLegible = true := by
  simp only [fields, List.mem_cons, List.not_mem_nil, or_false] at h
  rcases h with rfl | rfl | rfl | rfl
  · rw [Expr.toJsons_eq_map, Json.isLegible_arr]
    intro j hj
    obtain ⟨e, -, rfl⟩ := List.mem_map.mp hj
    exact Expr.isLegible_toJson e
  · rfl
  · rfl
  · rfl

end Buffer

namespace Param

theorem gives_ofJson? : Gives ofJson? fun p => ∀ e ∈ p.buffer.shape, e.Storable := by
  intro j p h
  simp only [ofJson?, Option.bind_eq_bind, Option.pure_def, Option.bind_eq_some_iff,
    Option.some.injEq] at h
  obtain ⟨j, -, fs, -, name, -, buffer, hBuffer, rfl⟩ := h
  exact Buffer.storable_of_ofFields? hBuffer

theorem ofJson?_toJson {p : Param} (h : ∀ e ∈ p.buffer.shape, e.Storable) :
    ofJson? p.toJson = some p := by
  -- the fields of the buffer stand beside the name, so a parameter is read as a value first
  have hLegible : p.toJson.isLegible = true := by
    rw [toJson, Json.isLegible_obj, List.forall_mem_cons]
    exact ⟨rfl, fun m hm => Buffer.isLegible_of_mem_fields hm⟩
  have hFields : p.toJson.objectFields? ("name" :: Buffer.keys)
      = some (("name", .str p.name) :: p.buffer.fields) :=
    Json.objectFields?_known (by simp [Buffer.fields]) (by simp [Buffer.fields, Buffer.keys])
  have hName : "name" ∉ Buffer.keys := by simp [Buffer.keys]
  simp [ofJson?, Json.legible?_eq_some.mpr ⟨hLegible, rfl⟩, hFields, Json.text?,
    Buffer.ofFields?_cons hName, Buffer.ofFields?_fields h]

end Param

/-! ## Nodes -/

theorem Mode.ofJson?_toJson (s : Spelling) (m : Mode) : Mode.ofJson? s m.toJson = some m := by
  cases m <;> rfl

theorem LoopHead.propertyOfJson?_propertyToJson (s : Spelling) (h : LoopHead) :
    LoopHead.propertyOfJson? s h.propertyToJson = some (h.mode, h.noDeps) := by
  obtain ⟨iter, lower, upper, mode, noDeps⟩ := h
  cases noDeps with
  | nil =>
    simp [propertyOfJson?, propertyToJson, Json.recordFields?_known, Mode.ofJson?_toJson]
  | cons name names =>
    simp [propertyOfJson?, propertyToJson, Json.recordFields?_known, Mode.ofJson?_toJson,
      Json.texts?_ofTexts]

/-- Whether a file can hold an argument. -/
def Arg.Storable : Arg → Prop
  | buffer _ => True
  | value e => e.Storable

theorem forall_argValues_iff {args : List Arg} :
    (∀ e ∈ Stmt.argValues args, e.Storable) ↔ ∀ a ∈ args, a.Storable := by
  induction args with
  | nil => simp [Stmt.argValues]
  | cons a args ih =>
    rw [List.forall_mem_cons, ← ih]
    cases a <;> simp [Stmt.argValues, Arg.Storable]

theorem Arg.gives_ofJson? (s : Spelling) : Gives (Arg.ofJson? s) Arg.Storable := by
  intro j a h
  obtain ⟨⟨name, part⟩, -, h⟩ := Option.bind_eq_some_iff.mp h
  split at h
  · obtain ⟨b, -, rfl⟩ := Option.map_eq_some_iff.mp h
    trivial
  · exact Gives.map (f := Arg.value) (Expr.gives_ofJson? s) (fun _ he => he) h
  · cases h

theorem Arg.ofJson?_toJson (s : Spelling) {a : Arg} (h : a.Storable) :
    Arg.ofJson? s a.toJson = some a := by
  cases a with
  | buffer b => rfl
  | value e =>
    simp [ofJson?, toJson, Json.ofCase, Json.case?, Expr.ofJson?_toJson s (show e.Storable from h)]

/-- Whether a file can hold an entry: its expressions can be stored and its children are places. -/
structure NodeKind.Storable (k : NodeKind) : Prop where
  children : ∀ c ∈ k.children, c < places
  exprs : ∀ e ∈ k.exprs, e.Storable

namespace NodeKind

variable {s : Spelling}

theorem gives_placeOfJson? : Gives placeOfJson? (· < places) := Json.natBelow?_gives places

theorem gives_declOfJson? (s : Spelling) : Gives (declOfJson? s) Storable := by
  intro j k h
  simp only [declOfJson?, Option.bind_eq_bind, Option.pure_def, Option.bind_eq_some_iff,
    Option.some.injEq] at h
  obtain ⟨fs, -, name, -, buffer, hBuffer, body, hBody, rfl⟩ := h
  exact ⟨by simpa [children] using gives_placeOfJson?.required hBody,
    (Buffer.gives_ofJson? s).required hBuffer⟩

theorem gives_loopOfJson? (s : Spelling) : Gives (loopOfJson? s) Storable := by
  intro j k h
  simp only [loopOfJson?, Option.bind_eq_bind, Option.pure_def, Option.bind_eq_some_iff,
    Option.some.injEq] at h
  obtain ⟨fs, -, iter, -, lower, hLower, upper, hUpper, property, -, body, hBody, rfl⟩ := h
  have hBounds := And.intro ((Expr.gives_ofJson? s).required hLower)
    ((Expr.gives_ofJson? s).required hUpper)
  exact ⟨by simpa [children] using gives_placeOfJson?.required hBody, by simpa [exprs] using hBounds⟩

theorem gives_condOfJson? (s : Spelling) : Gives (condOfJson? s) Storable := by
  intro j k h
  simp only [condOfJson?, Option.bind_eq_bind, Option.pure_def, Option.bind_eq_some_iff,
    Option.some.injEq] at h
  obtain ⟨fs, -, test, hTest, yes, hYes, no, hNo, rfl⟩ := h
  have hPlaces := And.intro (gives_placeOfJson?.required hYes)
    (gives_placeOfJson?.nullable?.optional (by simp) hNo)
  exact ⟨by simpa [children] using hPlaces,
    by simpa [exprs] using (Expr.gives_ofJson? s).required hTest⟩

theorem gives_storeOfJson? (s : Spelling) : Gives (storeOfJson? s) Storable := by
  intro j k h
  simp only [storeOfJson?, Option.bind_eq_bind, Option.pure_def, Option.bind_eq_some_iff,
    Option.some.injEq] at h
  obtain ⟨fs, -, b, -, is, hIs, v, hv, rfl⟩ := h
  refine ⟨by simp [children], ?_⟩
  rw [exprs, List.forall_mem_append]
  exact ⟨(gives_exprsOfJson? s).required hIs, by simpa using (Expr.gives_ofJson? s).required hv⟩

theorem gives_callOfJson? (s : Spelling) : Gives (callOfJson? s) Storable := by
  intro j k h
  simp only [callOfJson?, Option.bind_eq_bind, Option.pure_def, Option.bind_eq_some_iff,
    Option.some.injEq] at h
  obtain ⟨fs, -, f, -, args, hArgs, rfl⟩ := h
  exact ⟨by simp [children], forall_argValues_iff.mpr ((Arg.gives_ofJson? s).listOf?.required hArgs)⟩

theorem gives_ofJson? (s : Spelling) : Gives (ofJson? s) Storable := by
  intro j k h
  obtain ⟨⟨name, part⟩, -, h⟩ := Option.bind_eq_some_iff.mp h
  split at h
  · exact gives_declOfJson? s _ k h
  · exact gives_loopOfJson? s _ k h
  · exact gives_condOfJson? s _ k h
  · exact gives_storeOfJson? s _ k h
  · exact gives_callOfJson? s _ k h
  · obtain ⟨stmts, hStmts, rfl⟩ := Option.map_eq_some_iff.mp h
    exact ⟨gives_placeOfJson?.listOf? _ _ hStmts, by simp [exprs]⟩
  · obtain ⟨name, -, h⟩ := Option.bind_eq_some_iff.mp h
    split at h
    · cases h
      exact ⟨by simp [children], by simp [exprs]⟩
    · cases h

theorem ofJson?_toJson (s : Spelling) {k : NodeKind} (h : k.Storable) :
    ofJson? s k.toJson = some k := by
  obtain ⟨hChildren, hExprs⟩ := h
  -- the parts are read back first; what is left is to look up fields by known keys
  cases k with
  | decl name b body =>
    have hBody : placeOfJson? (.ofNat body) = some body :=
      Json.natBelow?_ofNat (hChildren body (by simp [children]))
    simp [ofJson?, declOfJson?, toJson, Json.ofCase, Json.case?, Json.caseFields?_known, Json.text?,
      Buffer.ofJson?_toJson hExprs, hBody]
  | loop head body =>
    have hBody : placeOfJson? (.ofNat body) = some body :=
      Json.natBelow?_ofNat (hChildren body (by simp [children]))
    have hLower := Expr.ofJson?_toJson s (hExprs head.lower (by simp [exprs]))
    have hUpper := Expr.ofJson?_toJson s (hExprs head.upper (by simp [exprs]))
    simp [ofJson?, loopOfJson?, toJson, Json.ofCase, Json.case?, Json.caseFields?_known, Json.text?,
      hLower, hUpper, LoopHead.propertyOfJson?_propertyToJson, hBody]
  | cond test yes no =>
    have hTest := Expr.ofJson?_toJson s (hExprs test (by simp [exprs]))
    have hYes : placeOfJson? (.ofNat yes) = some yes :=
      Json.natBelow?_ofNat (hChildren yes (by simp [children]))
    cases no with
    | none =>
      simp [ofJson?, condOfJson?, toJson, Json.ofCase, Json.case?, Json.caseFields?_known,
        Json.memberIfSome, hTest, hYes]
    | some no =>
      have hNo : placeOfJson? (.ofNat no) = some no :=
        Json.natBelow?_ofNat (hChildren no (by simp [children]))
      have hOther := Json.nullable?_of_ne (by simp [Json.ofNat]) hNo
      simp [ofJson?, condOfJson?, toJson, Json.ofCase, Json.case?, Json.caseFields?_known,
        Json.memberIfSome, hTest, hYes, hOther]
  | store b is v =>
    rw [exprs, List.forall_mem_append] at hExprs
    have hValue := Expr.ofJson?_toJson s (hExprs.2 v (by simp))
    simp [ofJson?, storeOfJson?, toJson, Json.ofCase, Json.case?, Json.caseFields?_known, Json.text?,
      exprsOfJson?_toJsons s hExprs.1, hValue]
  | call f args =>
    have hArgs : Json.listOf? (Arg.ofJson? s) (.arr (args.map Arg.toJson)) = some args :=
      Json.listOf?_map fun a ha => Arg.ofJson?_toJson s (forall_argValues_iff.mp hExprs a ha)
    simp [ofJson?, callOfJson?, toJson, Json.ofCase, Json.case?, Json.caseFields?_known, Json.text?,
      hArgs]
  | block stmts =>
    have hStmts : Json.listOf? placeOfJson? (.arr (stmts.map .ofNat)) = some stmts :=
      Json.listOf?_map fun c hc => Json.natBelow?_ofNat (hChildren c hc)
    simp [ofJson?, toJson, Json.ofCase, Json.case?, hStmts]
  | hole => rfl

end NodeKind

theorem Node.gives_ofJson? (s : Spelling) : Gives (Node.ofJson? s) fun n => n.kind.Storable := by
  intro j n h
  simp only [Node.ofJson?, Option.bind_eq_bind, Option.pure_def, Option.bind_eq_some_iff,
    Option.some.injEq] at h
  obtain ⟨fs, -, label, -, kind, hKind, rfl⟩ := h
  exact (NodeKind.gives_ofJson? s).required hKind

theorem Node.ofJson?_toJson (s : Spelling) {n : Node} (h : n.kind.Storable) :
    Node.ofJson? s n.toJson = some n := by
  obtain ⟨label, kind⟩ := n
  have hKind := NodeKind.ofJson?_toJson s h
  cases label with
  | none => simp [ofJson?, toJson, Json.memberIfSome, Json.recordFields?_known, hKind]
  | some l =>
    simp [ofJson?, toJson, Json.memberIfSome, Json.recordFields?_known, hKind, Json.nullable?,
      Json.text?]

/-! ## Tables -/

namespace Arena

variable {a b : Arena}

/-- Whether a file can hold a table. -/
structure Storable (a : Arena) : Prop where
  root : a.root < places
  nodes : ∀ n ∈ a.nodes.toList, n.kind.Storable

theorem gives_ofJson? (s : Spelling) : Gives (ofJson? s) Storable := by
  intro j a h
  simp only [ofJson?, Option.bind_eq_bind, Option.pure_def, Option.bind_eq_some_iff,
    Option.some.injEq] at h
  obtain ⟨fs, -, nodes, hNodes, root, hRoot, rfl⟩ := h
  exact ⟨NodeKind.gives_placeOfJson?.required hRoot, (Node.gives_ofJson? s).listOf?.required hNodes⟩

/-- The index is not written. -/
theorem ofJson?_toJson (s : Spelling) (h : a.Storable) :
    ofJson? s a.toJson = some ⟨a.nodes, a.root, []⟩ := by
  have hNodes : Json.listOf? (Node.ofJson? s) (.arr (a.nodes.toList.map Node.toJson))
      = some a.nodes.toList :=
    Json.listOf?_map fun n hn => Node.ofJson?_toJson s (h.nodes n hn)
  have hRoot : placeOfJson? (.ofNat a.root) = some a.root := Json.natBelow?_ofNat h.root
  simp [ofJson?, toJson, Json.recordFields?_known, hNodes, hRoot]

theorem faultFrom_congr (hNodes : a.nodes = b.nodes) (fuel : Nat) (seen stack : List Nat) :
    a.faultFrom fuel seen stack = b.faultFrom fuel seen stack := by
  have hChildren : a.children = b.children := by
    funext id
    rw [children, children, kind, kind, hNodes]
  induction fuel generalizing seen stack with
  | zero => rfl
  | succ fuel ih =>
    cases stack with
    | nil => rfl
    | cons id stack =>
      simp only [faultFrom, hChildren, size, hNodes, ih]
      rfl

theorem unfold_congr (hNodes : a.nodes = b.nodes) (depth : Nat) : a.unfold depth = b.unfold depth := by
  induction depth with
  | zero => rfl
  | succ depth ih =>
    funext id
    rw [unfold, unfold, hNodes, ih]

/-- What is read depends on the entries and the root alone. -/
theorem program?_congr (hNodes : a.nodes = b.nodes) (hRoot : a.root = b.root) :
    a.program? = b.program? := by
  have hFault : a.fault? = b.fault? := by
    rw [fault?, fault?, faultFrom_congr hNodes, hRoot, size, size, hNodes]
  have hTree : a.tree = b.tree := by
    rw [tree, tree, stmtAt, stmtAt, unfold_congr hNodes, hRoot, size, size, hNodes]
  rw [program?, program?, hFault, hTree]

/-- The places that are reached in a table from a file are numbers of 32 bits. -/
theorem Storable.lt_places (h : a.Storable) {id : Nat} (hId : a.Reaches id) : id < places := by
  refine hId.induction (P := (· < places)) h.root fun id c _ hc => ?_
  unfold children kind at hc
  cases hNode : a.nodes[id]? with
  | none => simp [hNode, NodeKind.children] at hc
  | some n =>
    rw [hNode] at hc
    exact (h.nodes n (by simpa using Array.mem_of_getElem? hNode)).children c hc

end Arena

/-! ## Programs -/

namespace Stmt

theorem exprs_ofStmt (u : Stmt) : (NodeKind.ofStmt u).exprs = u.exprs := by
  cases u <;> rfl

theorem exprs_moved (place : Nat → Nat) (t : Stmt) : (t.moved place).exprs = t.exprs := by
  rw [moved_eq]
  cases t <;> rfl

/-- A program that a file can hold.

    * **committed**: it is numbered, and its labels are different;
    * **size**: its numbers are places;
    * **exprs**: its expressions can be stored. -/
structure Storable (t : Stmt) : Prop where
  committed : t.Committed
  size : t.size ≤ places
  exprs : ∀ e ∈ t.nodes.flatMap exprs, e.Storable

theorem storable_of_program? {a : Arena} {t : Stmt} (ha : a.Storable) (h : a.program? = .ok t) :
    t.Storable := by
  obtain ⟨hFault, -, hNumber⟩ := Arena.program?_eq_ok.mp h
  have hNodup := Arena.nodup_ids_tree hFault
  have hMoved : t = a.tree.moved a.tree.ids.idxOf := hNumber.trans (number_eq_moved hNodup)
  refine ⟨committed_of_program? h, ?_, fun e he => ?_⟩
  · -- the places that are reached are different from each other
    have hSize : t.size = a.tree.ids.length := by
      rw [hMoved, Stmt.size, nodes_moved, List.length_map, ids, List.length_map]
    rw [hSize]
    refine Arena.length_le_of_nodup hNodup fun id hId => ?_
    obtain ⟨u, hu, rfl⟩ := List.mem_map.mp hId
    exact ha.lt_places (Arena.entry_of_mem_tree hFault hu).1
  · -- an expression of the program is one of an entry, because moving leaves expressions alone
    obtain ⟨v, hv, he⟩ := List.mem_flatMap.mp he
    rw [hMoved, nodes_moved] at hv
    obtain ⟨u, hu, rfl⟩ := List.mem_map.mp hv
    have hEntry := Array.mem_of_getElem? (Arena.entry_of_mem_tree hFault hu).2
    rw [exprs_moved, ← exprs_ofStmt] at he
    exact (ha.nodes _ (by simpa using hEntry)).exprs e he

/-- **Read programs** can be stored. -/
theorem gives_ofJson? (s : Spelling) : Gives (ofJson? s) Storable := by
  intro j t h
  obtain ⟨a, ha, h⟩ := Option.bind_eq_some_iff.mp h
  refine storable_of_program? (Arena.gives_ofJson? s j a ha) ?_
  cases hRead : a.program? with
  | ok t' =>
    rw [hRead] at h
    cases h
    rfl
  | error e =>
    rw [hRead] at h
    cases h

theorem Storable.toArena {t : Stmt} (h : t.Storable) : t.toArena.Storable := by
  have hPlace : ∀ u ∈ t.nodes, u.id < places := by
    intro u hu
    have hId : u.id ∈ t.ids := List.mem_map_of_mem hu
    rw [h.committed.ids, List.mem_range] at hId
    exact Nat.lt_of_lt_of_le hId h.size
  refine ⟨hPlace t (self_mem_nodes t), fun n hn => ?_⟩
  obtain ⟨u, hu, rfl⟩ : ∃ u ∈ t.nodes, Node.ofStmt u = n := by simpa [Stmt.toArena] using hn
  refine ⟨fun c hc => ?_, fun e he => ?_⟩
  · rw [Node.ofStmt, children_ofStmt] at hc
    obtain ⟨v, hv, rfl⟩ := List.mem_map.mp hc
    exact hPlace v (mem_nodes_trans (mem_nodes_of_child hv (self_mem_nodes v)) hu)
  · rw [Node.ofStmt, exprs_ofStmt] at he
    exact h.exprs e (List.mem_flatMap.mpr ⟨u, hu, he⟩)

/-- **Stored programs** are read back. -/
theorem ofJson?_toJson (s : Spelling) {t : Stmt} (h : t.Storable) : ofJson? s t.toJson = some t := by
  -- the table that is read has no index, which makes no difference to the program
  have hSame : Arena.program? ⟨t.toArena.nodes, t.toArena.root, []⟩ = t.toArena.program? :=
    Arena.program?_congr rfl rfl
  rw [ofJson?, toJson, Arena.ofJson?_toJson s h.toArena]
  show (Arena.program? _).toOption = _
  rw [hSame, Arena.program?_toArena h.committed]
  rfl

end Stmt

/-! ## Functions -/

namespace Function

/-- Whether a file can hold a function. -/
structure Storable (f : Function) : Prop where
  params : ∀ p ∈ f.params, ∀ e ∈ p.buffer.shape, e.Storable
  body : f.body.Storable

theorem gives_ofJson? (s : Spelling) : Gives (ofJson? s) Storable := by
  intro j f h
  simp only [ofJson?, Option.bind_eq_bind, Option.pure_def, Option.bind_eq_some_iff,
    Option.some.injEq] at h
  obtain ⟨fs, -, name, -, params, hParams, body, hBody, rfl⟩ := h
  exact ⟨Param.gives_ofJson?.listOf?.required hParams, (Stmt.gives_ofJson? s).required hBody⟩

theorem ofJson?_toJson (s : Spelling) {f : Function} (h : f.Storable) :
    ofJson? s f.toJson = some f := by
  have hParams : Json.listOf? Param.ofJson? (.arr (f.params.map Param.toJson)) = some f.params :=
    Json.listOf?_map fun p hp => Param.ofJson?_toJson (h.params p hp)
  simp [ofJson?, toJson, Json.recordFields?_known, Json.text?, hParams, Stmt.ofJson?_toJson s h.body]

end Function

end LoopNest

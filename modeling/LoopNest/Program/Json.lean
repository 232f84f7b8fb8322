import LoopNest.Arena.Basic
import LoopNest.Expr.Json
import LoopNest.Program.Function

/-! # Programs in JSON

  A program is written as a table of nodes with the place of its root. Every table can be read as an
  `Arena`; `Stmt.ofJson?` also asks that the table is a program, see `Arena.program?`.

  * A loop may be written without its properties, a node without its label, and a condition without
    its alternative.
  * A parameter is written as one record with the fields of its buffer. All of it has to be legible,
    and variants in it may be spelled freely. -/

namespace LoopNest

open Json (Fields Spelling)

/-! ## Buffers -/

namespace AccessClass

def toJson (a : AccessClass) : Json := .str a.name

def ofJson? (s : Spelling) : Json → Option AccessClass := Json.oneOf? s all name

end AccessClass

namespace MemSpace

def toJson (m : MemSpace) : Json := .str m.name

def ofJson? (s : Spelling) : Json → Option MemSpace := Json.oneOf? s all name

end MemSpace

/-- Expressions one after the other. -/
def exprsOfJson? (s : Spelling) : Json → Option (List Expr) := Json.listOf? (Expr.ofJson? s)

namespace Buffer

/-- The names of the fields in order. -/
def keys : List String := ["shape", "dtype", "atype", "mtype"]

def fields (b : Buffer) : Fields :=
  [("shape", .arr (Expr.toJsons b.shape)), ("dtype", b.elem.toJson), ("atype", b.access.toJson),
    ("mtype", b.space.toJson)]

def toJson (b : Buffer) : Json := .obj b.fields

def ofFields? (s : Spelling) (fs : Fields) : Option Buffer := do
  let shape ← fs.required "shape" (exprsOfJson? s)
  let elem ← fs.required "dtype" (ElemType.ofJson? s)
  let access ← fs.required "atype" (AccessClass.ofJson? s)
  let space ← fs.required "mtype" (MemSpace.ofJson? s)
  return { shape, elem, access, space }

def ofJson? (s : Spelling) (j : Json) : Option Buffer := do ofFields? s (← j.recordFields? keys)

end Buffer

namespace Param

def toJson (p : Param) : Json := .obj (("name", .str p.name) :: p.buffer.fields)

def ofJson? (j : Json) : Option Param := do
  let fs ← (← j.legible?).objectFields? ("name" :: Buffer.keys)
  return { name := ← fs.required "name" Json.text?, buffer := ← Buffer.ofFields? .free fs }

end Param

/-! ## Nodes -/

namespace Mode

def toJson : Mode → Json
  | sequential => .str "sequential"
  | parallel tag => .ofCase "parallel" (.str tag)

def ofJson? (s : Spelling) (j : Json) : Option Mode := do
  match ← j.case? with
  | ("parallel", some tag) => parallel <$> tag.text?
  | _ => if (← j.plainCase? s) == "sequential" then some sequential else none

end Mode

namespace LoopHead

/-- The properties of a loop: how it runs and what is asserted of it. -/
def propertyToJson (h : LoopHead) : Json :=
  .obj (("mode", h.mode.toJson) ::
    if h.noDeps.isEmpty then [] else [("no_deps", Json.ofTexts h.noDeps)])

def propertyOfJson? (s : Spelling) (j : Json) : Option (Mode × List String) := do
  let fs ← j.recordFields? ["mode", "no_deps"]
  let mode ← fs.optional "mode" (Mode.ofJson? s) .sequential
  let noDeps ← fs.optional "no_deps" Json.texts? []
  return (mode, noDeps)

end LoopHead

namespace Arg

def toJson : Arg → Json
  | buffer name => .ofCase "buffer" (.str name)
  | value e => .ofCase "value" e.toJson

def ofJson? (s : Spelling) (j : Json) : Option Arg := do
  match ← j.case? with
  | ("buffer", some j) => buffer <$> j.text?
  | ("value", some j) => value <$> Expr.ofJson? s j
  | _ => none

end Arg

/-- How many places there are: a place is a number of 32 bits. -/
def places : Nat := 4294967296

/-- A place in a table. -/
def placeOfJson? : Json → Option Nat := Json.natBelow? places

namespace NodeKind

def toJson : NodeKind → Json
  | decl name buffer body =>
    .ofCase "VarDef"
      (.obj [("name", .str name), ("buffer", buffer.toJson), ("body", .ofNat body)])
  | loop h body =>
    .ofCase "For"
      (.obj [("iter", .str h.iter), ("begin", h.lower.toJson), ("end", h.upper.toJson),
        ("property", h.propertyToJson), ("body", .ofNat body)])
  | cond test yes no =>
    .ofCase "If"
      (.obj ([("cond", test.toJson), ("then_case", .ofNat yes)] ++
        Json.memberIfSome "else_case" .ofNat no))
  | store buffer indices value =>
    .ofCase "Store"
      (.obj [("var", .str buffer), ("indices", .arr (Expr.toJsons indices)),
        ("expr", value.toJson)])
  | call callee args =>
    .ofCase "Call" (.obj [("callee", .str callee), ("args", .arr (args.map Arg.toJson))])
  | block stmts => .ofCase "Block" (.arr (stmts.map .ofNat))
  | hole => .str "Any"

def declOfJson? (s : Spelling) (j : Json) : Option NodeKind := do
  let fs ← j.caseFields? s ["name", "buffer", "body"]
  return decl (← fs.required "name" Json.text?) (← fs.required "buffer" (Buffer.ofJson? s))
    (← fs.required "body" placeOfJson?)

def loopOfJson? (s : Spelling) (j : Json) : Option NodeKind := do
  let fs ← j.caseFields? s ["iter", "begin", "end", "property", "body"]
  let iter ← fs.required "iter" Json.text?
  let lower ← fs.required "begin" (Expr.ofJson? s)
  let upper ← fs.required "end" (Expr.ofJson? s)
  let (mode, noDeps) ← fs.optional "property" (LoopHead.propertyOfJson? s) (.sequential, [])
  return loop { iter, lower, upper, mode, noDeps } (← fs.required "body" placeOfJson?)

def condOfJson? (s : Spelling) (j : Json) : Option NodeKind := do
  let fs ← j.caseFields? s ["cond", "then_case", "else_case"]
  return cond (← fs.required "cond" (Expr.ofJson? s)) (← fs.required "then_case" placeOfJson?)
    (← fs.optional "else_case" (Json.nullable? placeOfJson?) none)

def storeOfJson? (s : Spelling) (j : Json) : Option NodeKind := do
  let fs ← j.caseFields? s ["var", "indices", "expr"]
  return store (← fs.required "var" Json.text?) (← fs.required "indices" (exprsOfJson? s))
    (← fs.required "expr" (Expr.ofJson? s))

def callOfJson? (s : Spelling) (j : Json) : Option NodeKind := do
  let fs ← j.caseFields? s ["callee", "args"]
  return call (← fs.required "callee" Json.text?) (← fs.required "args" (Json.listOf? (Arg.ofJson? s)))

def ofJson? (s : Spelling) (j : Json) : Option NodeKind := do
  match ← j.case? with
  | ("VarDef", some j) => declOfJson? s j
  | ("For", some j) => loopOfJson? s j
  | ("If", some j) => condOfJson? s j
  | ("Store", some j) => storeOfJson? s j
  | ("Call", some j) => callOfJson? s j
  | ("Block", some j) => block <$> Json.listOf? placeOfJson? j
  | _ => if (← j.plainCase? s) == "Any" then some hole else none

end NodeKind

namespace Node

def toJson (n : Node) : Json :=
  .obj (Json.memberIfSome "label" .str n.label ++ [("kind", n.kind.toJson)])

def ofJson? (s : Spelling) (j : Json) : Option Node := do
  let fs ← j.recordFields? ["label", "kind"]
  return { label := ← fs.optional "label" (Json.nullable? Json.text?) none
           kind := ← fs.required "kind" (NodeKind.ofJson? s) }

end Node

/-! ## Programs -/

namespace Arena

def toJson (a : Arena) : Json :=
  .obj [("nodes", .arr (a.nodes.toList.map Node.toJson)), ("root", .ofNat a.root)]

def ofJson? (s : Spelling) (j : Json) : Option Arena := do
  let fs ← j.recordFields? ["nodes", "root"]
  let nodes ← fs.required "nodes" (Json.listOf? (Node.ofJson? s))
  return { nodes := nodes.toArray, root := ← fs.required "root" placeOfJson? }

end Arena

namespace Stmt

/-- A program as a JSON value. -/
def toJson (t : Stmt) : Json := t.toArena.toJson

/-- Reads a program. -/
def ofJson? (s : Spelling) (j : Json) : Option Stmt := do
  let a ← Arena.ofJson? s j
  a.program?.toOption

end Stmt

namespace Function

def toJson (f : Function) : Json :=
  .obj [("name", .str f.name), ("params", .arr (f.params.map Param.toJson)),
    ("body", f.body.toJson)]

def ofJson? (s : Spelling) (j : Json) : Option Function := do
  let fs ← j.recordFields? ["name", "params", "body"]
  return { name := ← fs.required "name" Json.text?
           params := ← fs.required "params" (Json.listOf? Param.ofJson?)
           body := ← fs.required "body" (Stmt.ofJson? s) }

end Function

end LoopNest

import LoopNest.Expr.Json
import LoopNest.Schedule.Command

/-! # Schedule commands in JSON

  A command is a record whose field `op` says which command it is. All of it has to be legible, and
  variants in it may be spelled freely. -/

namespace LoopNest.Command

open Json (Fields)

/-- The word under which a command is written. -/
def opName : Command → String
  | reorder _ => "reorder"
  | split .. => "split"
  | parallelize .. => "parallelize"
  | fission .. => "fission"
  | varReorder .. => "var_reorder"
  | inline => "inline"

/-- The other fields of a command. -/
def fields : Command → Fields
  | reorder order => [("order", Json.ofTexts order)]
  | split l factor nparts =>
    ("id", .str l) :: (Json.memberIfSome "factor" Expr.toJson factor ++
      Json.memberIfSome "nparts" Expr.toJson nparts)
  | parallelize l tag => [("id", .str l), ("tag", .str tag)]
  | fission l after => [("id", .str l), ("after", .str after)]
  | varReorder l order => [("id", .str l), ("order", .arr (order.map .ofNat))]
  | inline => []

def toJson (c : Command) : Json := .obj (("op", .str c.opName) :: c.fields)

/-- The names of the other fields in order. -/
def keys : String → List String
  | "reorder" => ["order"]
  | "split" => ["id", "factor", "nparts"]
  | "parallelize" => ["id", "tag"]
  | "fission" => ["id", "after"]
  | "var_reorder" => ["id", "order"]
  | _ => []

/-- Numbers of 64 bits. -/
def wordsOfJson? : Json → Option (List Nat) := Json.listOf? (Json.natBelow? Word.naturals)

/-- A count that may be left out. -/
def countOfFields? (fs : Fields) (key : String) : Option (Option Expr) :=
  fs.optional key (Json.nullable? (Expr.ofJson? .free)) none

/-- Reads the other fields of a command. -/
def ofFields? (op : String) (fs : Fields) : Option Command :=
  match op with
  | "reorder" => do
    return reorder (← fs.required "order" Json.texts?)
  | "split" => do
    return split (← fs.required "id" Json.text?) (← countOfFields? fs "factor")
      (← countOfFields? fs "nparts")
  | "parallelize" => do
    return parallelize (← fs.required "id" Json.text?) (← fs.required "tag" Json.text?)
  | "fission" => do
    return fission (← fs.required "id" Json.text?) (← fs.required "after" Json.text?)
  | "var_reorder" => do
    return varReorder (← fs.required "id" Json.text?) (← fs.required "order" wordsOfJson?)
  | "inline" => some inline
  | _ => none

/-- Reads a command that is legible as a whole. -/
def ofLegible? : Json → Option Command
  | .arr (j :: items) => do
    let op ← j.text?
    ofFields? op (← Json.recordFields? (keys op) (.arr items))
  | j => do
    let op ← (← j.objectFields? ["op"]).required "op" Json.text?
    ofFields? op (← j.objectFields? (keys op))

/-- Reads a command. -/
def ofJson? (j : Json) : Option Command := do ofLegible? (← j.legible?)

end LoopNest.Command

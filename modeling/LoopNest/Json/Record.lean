import LoopNest.Json.Basic

/-! # Records and variants in JSON

  The data of a program are written as JSON in two shapes.

  * A *record* is an object with a member for every field. Its known keys are different from each
    other and members under other keys are ignored. Where the order of the fields is fixed, the
    array of their values is the same record.
  * A *variant* is an object with one member, whose key names the case. A case that carries nothing
    is also written as its name alone.

  How freely a variant may be spelled depends on where it stands, see `Spelling`.

  Every reader gives an option: a value of another shape cannot be read. -/

namespace LoopNest.Json

/-! ## Records -/

/-- The values of fields under their names. -/
abbrev Fields := List (String × Json)

/-- The members of an object under known keys. -/
def objectFields? (keys : List String) : Json → Option Fields
  | .obj members =>
    let known := members.filter fun m => keys.contains m.1
    if (known.map (·.1)).Nodup then some known else none
  | _ => none

/-- The fields of a record, which may also be written as an array in the order of the keys. -/
def recordFields? (keys : List String) : Json → Option Fields
  | .arr items => if items.length ≤ keys.length then some (keys.zip items) else none
  | j => objectFields? keys j

/-- A field that has to be there. -/
def Fields.required {α : Type} (fs : Fields) (key : String) (read? : Json → Option α) : Option α :=
  (fs.lookup key).bind read?

/-- A field that may be left out. -/
def Fields.optional {α : Type} (fs : Fields) (key : String) (read? : Json → Option α)
    (default : α) : Option α :=
  match fs.lookup key with
  | some j => read? j
  | none => some default

/-! ## Variants -/

/-- How a variant may be spelled apart from its usual form. -/
structure Spelling where
  /-- The fields of a case may also be written as an array. -/
  arrays : Bool := false
  /-- A case that carries nothing may also carry an empty object. -/
  emptyObjects : Bool := false
deriving DecidableEq, Repr, Inhabited

namespace Spelling

/-- The usual form alone. -/
def plain : Spelling := {}

/-- How variants are spelled in files. -/
def file : Spelling := { arrays := true }

/-- How variants are spelled inside records that are taken in as a whole before anything is known of
    their fields: parameters and commands. -/
def free : Spelling := { arrays := true, emptyObjects := true }

/-- Whether a value stands for nothing. -/
def isNothing (s : Spelling) : Json → Bool
  | .null => true
  | .obj [] => s.emptyObjects
  | _ => false

end Spelling

/-- The name of a case with what it carries. -/
def case? : Json → Option (String × Option Json)
  | .str name => some (name, none)
  | .obj [(name, j)] => some (name, some j)
  | _ => none

/-- The fields of a case. -/
def caseFields? (s : Spelling) (keys : List String) (j : Json) : Option Fields :=
  if s.arrays then j.recordFields? keys else j.objectFields? keys

/-- The name of a case that carries nothing. -/
def plainCase? (s : Spelling) (j : Json) : Option String :=
  match j.case? with
  | some (name, none) => some name
  | some (name, some j) => if s.isNothing j then some name else none
  | none => none

/-- The value of a finite type that has a given name. -/
def oneOf? {α : Type} (s : Spelling) (all : List α) (name : α → String) (j : Json) : Option α := do
  let found ← j.plainCase? s
  all.find? (name · == found)

/-- A case with what it carries. -/
def ofCase (name : String) (j : Json) : Json := .obj [(name, j)]

/-! ## Parts -/

/-- Null, or a value. -/
def nullable? {α : Type} (read? : Json → Option α) : Json → Option (Option α)
  | .null => some none
  | j => some <$> read? j

/-- An array with elements of one kind. -/
def listOf? {α : Type} (read? : Json → Option α) (j : Json) : Option (List α) := do
  let items ← j.items?
  items.mapM read?

/-- Texts. -/
def texts? : Json → Option (List String) := listOf? text?

/-- A member that is written only if there is something to write. -/
def memberIfSome {α : Type} (key : String) (write : α → Json) : Option α → Fields
  | some a => [(key, write a)]
  | none => []

end LoopNest.Json

/-! # JSON values

  The members of an object keep their order, and a key may occur more than once: what that means is
  for the reader of the object to say. Integers are exact; all other numbers are floating point.

  A text may hold parts that are JSON by their form and yet stand for no value, such as a number
  that is too large. Such a part is `Json.illegible`; it does no harm where nobody looks at it.
  `Json.isLegible` says that a value has no such part. -/

namespace LoopNest

/-- A JSON value. -/
inductive Json where
  | null
  | bool (b : Bool)
  | int (v : Int)
  | float (v : Float)
  | str (s : String)
  | arr (items : List Json)
  | obj (members : List (String × Json))
  /-- What has the form of a value and stands for none. -/
  | illegible
deriving Repr, Inhabited

namespace Json

mutual
/-- How many levels deep a value is nested. -/
def depth : Json → Nat
  | .arr items => depthAll items + 1
  | .obj members => depthMembers members + 1
  | _ => 1
/-- How many levels deep the values of a list are nested. -/
def depthAll : List Json → Nat
  | [] => 0
  | j :: js => max (depth j) (depthAll js)
/-- How many levels deep the members of an object are nested. -/
def depthMembers : List (String × Json) → Nat
  | [] => 0
  | (_, j) :: ms => max (depth j) (depthMembers ms)
end

mutual
/-- Whether every part stands for a value. -/
def isLegible : Json → Bool
  | .arr items => allLegible items
  | .obj members => membersLegible members
  | .illegible => false
  | _ => true
/-- Whether every value of a list is legible. -/
def allLegible : List Json → Bool
  | [] => true
  | j :: js => isLegible j && allLegible js
/-- Whether the value of every member is legible. -/
def membersLegible : List (String × Json) → Bool
  | [] => true
  | (_, j) :: ms => isLegible j && membersLegible ms
end

/-- The value itself when it is legible. -/
def legible? (j : Json) : Option Json := if j.isLegible then some j else none

/-- A floating point number; JSON has no spelling for infinities and undefined numbers. -/
def ofFloat (x : Float) : Json := if x.isFinite then .float x else .null

/-- A natural number. -/
def ofNat (n : Nat) : Json := .int n

/-- A text, or null. -/
def ofText? : Option String → Json
  | some s => .str s
  | none => .null

/-- Texts. -/
def ofTexts (ss : List String) : Json := .arr (ss.map .str)

/-- The value of the last member with that key. -/
def get? (j : Json) (key : String) : Option Json :=
  match j with
  | obj members => members.reverse.lookup key
  | _ => none

def text? : Json → Option String
  | str s => some s
  | _ => none

def bool? : Json → Option Bool
  | bool b => some b
  | _ => none

def items? : Json → Option (List Json)
  | arr items => some items
  | _ => none

def members? : Json → Option (List (String × Json))
  | obj members => some members
  | _ => none

/-- An integer between two bounds. -/
def intWithin? (least greatest : Int) : Json → Option Int
  | int v => if least ≤ v ∧ v ≤ greatest then some v else none
  | _ => none

/-- A natural number below a bound. -/
def natBelow? (bound : Nat) : Json → Option Nat
  | int v => if 0 ≤ v ∧ v < (bound : Int) then some v.toNat else none
  | _ => none

/-- The floating point number itself when it is finite. -/
def finite? (x : Float) : Option Float := if x.isFinite then some x else none

/-- A finite floating point number. Integers count as well. -/
def float? : Json → Option Float
  | float v => finite? v
  | int v =>
    let x := (UInt64.ofNat v.natAbs).toFloat
    finite? (if v < 0 then -x else x)
  | _ => none

end Json

end LoopNest

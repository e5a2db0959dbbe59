namespace EditorSync

inductive Json.Number where
  | int (n : Int)
  | real (bits : UInt64)
  deriving DecidableEq, Repr

/-- A JSON text as it was written: objects keep the order and the repetitions of their
members. `unreadable` is a well-formed text that denotes no value, such as a number beyond
every binary64 or half of a surrogate pair. -/
inductive Json where
  | null
  | bool (b : Bool)
  | num (n : Json.Number)
  | str (s : String)
  | arr (elements : List Json)
  | obj (members : List (String × Json))
  | unreadable
  deriving Repr, Inhabited

namespace Json

def ofNat (n : Nat) : Json := num (.int n)

def ofInt (n : Int) : Json := num (.int n)

def ofOption {α : Type} (f : α → Json) : Option α → Json
  | none => null
  | some a => f a

def ofList {α : Type} (f : α → Json) (as : List α) : Json := arr (as.map f)

def memberIfSome {α : Type} (name : String) (f : α → Json) : Option α → List (String × Json)
  | none => []
  | some a => [(name, f a)]

def get? (name : String) : Json → Option Json
  | obj members => (members.reverse.find? (·.1 == name)).map (·.2)
  | _ => none

def at? : List String → Json → Option Json
  | [], j => some j
  | name :: names, j => (j.get? name).bind (at? names)

def insertSorted (name : String) (value : Json) :
    List (String × Json) → List (String × Json)
  | [] => [(name, value)]
  | (n, v) :: rest =>
    if name < n then (name, value) :: (n, v) :: rest
    else if name = n then (name, value) :: rest
    else (n, v) :: insertSorted name value rest

mutual

def value? : Nat → Json → Option Json
  | _, null => some null
  | _, bool b => some (bool b)
  | _, num n => some (num n)
  | _, str s => some (str s)
  | 0, arr _ => none
  | depth + 1, arr elements => (values? depth elements).map arr
  | 0, obj _ => none
  | depth + 1, obj members => (members? depth members []).map obj
  | _, unreadable => none

def values? : Nat → List Json → Option (List Json)
  | _, [] => some []
  | depth, j :: js => do
    let v ← value? depth j
    let vs ← values? depth js
    return v :: vs

def members? : Nat → List (String × Json) → List (String × Json) → Option (List (String × Json))
  | _, [], sorted => some sorted
  | depth, (name, j) :: rest, sorted => do
    let v ← value? depth j
    members? depth rest (insertSorted name v sorted)

end

mutual

def height : Json → Nat
  | arr elements => heights elements + 1
  | obj members => memberHeights members + 1
  | _ => 0

def heights : List Json → Nat
  | [] => 0
  | j :: js => max (height j) (heights js)

def memberHeights : List (String × Json) → Nat
  | [] => 0
  | (_, j) :: rest => max (height j) (memberHeights rest)

end

def maxDepth : Nat := 127

def sorted (j : Json) : Json := (value? j.height j).getD j

end Json
end EditorSync

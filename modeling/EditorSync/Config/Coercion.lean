import EditorSync.Json.Number
import EditorSync.Toml.Basic

namespace EditorSync.Config

def roundReal (bits : UInt64) : Nat :=
  let (m, e) := Json.Number.parts bits
  if 0 ≤ e then m * Nat.pow 2 e.toNat
  else (2 * m + Nat.pow 2 (-e).toNat) / (2 * Nat.pow 2 (-e).toNat)

def isNegative (bits : UInt64) : Bool := bits.toNat / 0x8000000000000000 = 1

def isNaN (bits : UInt64) : Bool := bits.toNat % 0x8000000000000000 > 0x7FF0000000000000

def isInfinite (bits : UInt64) : Bool := bits.toNat % 0x8000000000000000 = 0x7FF0000000000000

def wordLimit : Nat := 0x10000000000000000

def wordOfReal (bits : UInt64) : Nat :=
  if isNaN bits ∨ isNegative bits then 0
  else if isInfinite bits then wordLimit - 1
  else min (roundReal bits) (wordLimit - 1)

def realText (bits : UInt64) : String :=
  if isNaN bits then "NaN"
  else
    let sign := if isNegative bits then "-" else ""
    if isInfinite bits then sign ++ "inf"
    else
      let r := Json.Number.Rounding.ofBits bits
      if r.value = 0 then sign ++ "0"
      else
        let (n, e) := r.shortest 700 309
        let (n, e) := Json.Number.normalize 20 n e
        let digits := Nat.repr n
        let point := digits.length + e
        sign ++
          if 0 ≤ e then digits.pushn '0' e.toNat
          else if 0 < point then
            String.ofList (digits.toList.take point.toNat) ++ "." ++
              String.ofList (digits.toList.drop point.toNat)
          else "0." ++ "".pushn '0' (-point).toNat ++ digits

def lower (s : String) : String := String.ofList (s.toList.map Char.toLower)

def wordOfText? (s : String) : Option Nat :=
  let digits := match s.toList with
    | '+' :: cs => cs
    | cs => cs
  if digits ≠ [] ∧ digits.all Char.isDigit then
    (String.ofList digits).toNat?.filter (· < wordLimit)
  else none

def word? : Toml → Option Nat
  | .integer n => if 0 ≤ n then some n.toNat else none
  | .real bits => some (wordOfReal bits)
  | .boolean b => some b.toNat
  | .string s | .moment s =>
    if lower s ∈ ["true", "on", "yes"] then some 1
    else if lower s ∈ ["false", "off", "no"] then some 0
    else wordOfText? s
  | .list _ | .table _ => none

def flag? : Toml → Option Bool
  | .integer n => some (n != 0)
  | .real bits => some (bits.toNat % 0x8000000000000000 != 0)
  | .boolean b => some b
  | .string s | .moment s =>
    if lower s ∈ ["1", "true", "on", "yes"] then some true
    else if lower s ∈ ["0", "false", "off", "no"] then some false
    else none
  | .list _ | .table _ => none

def text? : Toml → Option String
  | .integer n => some (toString n)
  | .real bits => some (realText bits)
  | .boolean b => some (if b then "true" else "false")
  | .string s | .moment s => some s
  | .list _ | .table _ => none

mutual

def toJson : Toml → Json
  | .string s | .moment s => .str s
  | .integer n => .ofInt n
  | .real bits => if isNaN bits || isInfinite bits then .null else .num (.real bits)
  | .boolean b => .bool b
  | .list elements => .arr (listToJson elements)
  | .table members => .obj (tableToJson members)

def listToJson : List Toml → List Json
  | [] => []
  | v :: rest => toJson v :: listToJson rest

def tableToJson : List (String × Toml) → List (String × Json)
  | [] => []
  | (name, v) :: rest => Json.insertSorted name (toJson v) (tableToJson rest)

end

end EditorSync.Config

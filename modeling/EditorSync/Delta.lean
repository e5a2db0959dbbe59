import EditorSync.Text.Encoding

namespace EditorSync

open Text

/-- One atomic change of a text. Offsets and lengths are counted in the encoding of the
session. -/
inductive Delta where
  | insert (offset : Nat) (text : String)
  | remove (offset length : Nat)
  | replaceAll (text : String)
  deriving DecidableEq, Repr

namespace Delta

inductive Kind where
  | insert
  | remove
  | replaceAll
  deriving DecidableEq, Repr

def Kind.name : Kind → String
  | insert => "INSERT"
  | remove => "REMOVE"
  | replaceAll => "REPLACE_ALL"

def Kind.all : List Kind := [insert, remove, replaceAll]

def kind : Delta → Kind
  | insert .. => .insert
  | remove .. => .remove
  | replaceAll .. => .replaceAll

def offset : Delta → Nat
  | insert offset _ => offset
  | remove offset _ => offset
  | replaceAll _ => 0

inductive Rejection where
  | emptyInsert
  | emptyRemove
  | rangeOverflow (offset length : Nat)
  | beyondEnd (offset length : Nat)
  | splitsCharacter (offset : Nat)
  deriving DecidableEq, Repr

def Rejection.message : Rejection → String
  | emptyInsert => "insert carries no text"
  | emptyRemove => "remove of zero characters"
  | rangeOverflow offset length => s!"remove range {offset}+{length} overflows"
  | beyondEnd offset length => s!"offset {offset} beyond content length {length}"
  | splitsCharacter offset => s!"offset {offset} splits a character"

def offsetLimit : Nat := 0x10000000000000000

def check : Delta → Except Rejection Unit
  | insert _ text => if text = "" then .error .emptyInsert else .ok ()
  | remove _ length => if length = 0 then .error .emptyRemove else .ok ()
  | replaceAll _ => .ok ()

def cut (enc : Encoding) (content : List Char) (offset : Nat) :
    Except Rejection (List Char × List Char) :=
  match enc.cut? content offset with
  | some parts => .ok parts
  | none =>
    if enc.span content < offset then .error (.beyondEnd offset (enc.span content))
    else .error (.splitsCharacter offset)

def apply (delta : Delta) (content : String) (enc : Encoding) : Except Rejection String := do
  delta.check
  match delta with
  | insert offset text =>
    let (before, after) ← cut enc content.toList offset
    return String.ofList (before ++ text.toList ++ after)
  | remove offset length =>
    if offsetLimit ≤ offset + length then throw (.rangeOverflow offset length)
    let (before, _) ← cut enc content.toList offset
    let (_, after) ← cut enc content.toList (offset + length)
    return String.ofList (before ++ after)
  | replaceAll text => return text

end Delta
end EditorSync

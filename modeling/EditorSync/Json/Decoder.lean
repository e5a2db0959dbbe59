import EditorSync.Json.Basic

namespace EditorSync.Json

abbrev Decoder (α : Type) := Nat → Json → Option α

namespace Decoder

variable {α β : Type}

def value : Decoder Json := value?

def string : Decoder String
  | _, str s => some s
  | _, _ => none

def boolean : Decoder Bool
  | _, bool b => some b
  | _, _ => none

def integer (low high : Int) : Decoder Int
  | _, num (.int n) => if low ≤ n ∧ n ≤ high then some n else none
  | _, _ => none

def int64 : Decoder Int := integer (-0x8000000000000000) 0x7FFFFFFFFFFFFFFF

def word (bits : Nat) : Decoder Nat := fun depth j =>
  (integer 0 (Nat.pow 2 bits - 1) depth j).map Int.toNat

def word64 : Decoder Nat := word 64

def word32 : Decoder Nat := word 32

def map (f : α → β) (d : Decoder α) : Decoder β := fun depth j => (d depth j).map f

def optional (d : Decoder α) : Decoder (Option α)
  | _, null => some none
  | depth, j => (d depth j).map some

def list (d : Decoder α) : Decoder (List α)
  | depth + 1, arr elements => elements.mapM (d depth)
  | _, _ => none

def dictionary (d : Decoder α) : Decoder (List (String × α))
  | depth + 1, obj members => do
    let read ← members.mapM fun (name, j) => (d depth j).map (name, ·)
    return read.foldl (fun kept (name, a) => kept.filter (·.1 ≠ name) ++ [(name, a)]) []
  | _, _ => none

def oneOf (names : List (String × α)) : Decoder α
  | _, str s => names.lookup s
  | _ + 1, obj [(name, null)] => names.lookup name
  | _, _ => none

def or (first second : Decoder α) : Decoder α := fun depth j =>
  (first depth j).or (second depth j)

end Decoder

structure Record where
  positional : Bool
  depth : Nat
  members : List (String × Json)

namespace Record

variable {α : Type}

def required (r : Record) (name : String) (d : Decoder α) : Option α :=
  (r.members.lookup name).bind (d r.depth)

def optional (r : Record) (name : String) (d : Decoder α) : Option (Option α) :=
  match r.members.lookup name with
  | some j => d.optional r.depth j
  | none => if r.positional then none else some none

def withDefault (r : Record) (name : String) (default : α) (d : Decoder α) : Option α :=
  match r.members.lookup name with
  | some j => d r.depth j
  | none => some default

def optionalOrAbsent (r : Record) (name : String) (d : Decoder α) : Option (Option α) :=
  r.withDefault name none d.optional

end Record

def Decoder.record {α : Type} (names : List String) (read : Record → Option α) : Decoder α
  | depth + 1, obj members =>
    let known := members.filter fun (name, _) => names.contains name
    if (known.map (·.1)).Nodup then read ⟨false, depth, known⟩ else none
  | depth + 1, arr elements =>
    if elements.length ≤ names.length then read ⟨true, depth, names.zip elements⟩ else none
  | _, _ => none

def Decoder.tagged {α : Type} (tag : String) (variants : List (String × Decoder α)) : Decoder α :=
  let variant? : Json → Option (Decoder α)
    | str name => variants.lookup name
    | num (.int (.ofNat n)) => (variants[n]?).map (·.2)
    | _ => none
  fun depth j =>
    match depth, j with
    | depth + 1, obj members =>
      match members.filter (·.1 == tag) with
      | [(_, name)] =>
        (variant? name).bind fun d => d (depth + 1) (obj (members.filter (·.1 != tag)))
      | _ => none
    | depth + 1, arr (name :: rest) => (variant? name).bind fun d => d (depth + 1) (arr rest)
    | _, _ => none

def decode? {α : Type} (d : Decoder α) (j : Json) : Option α := d j.height j

end EditorSync.Json

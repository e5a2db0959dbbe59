namespace EditorSync

inductive Toml where
  | string (s : String)
  | integer (n : Int)
  | real (bits : UInt64)
  | boolean (b : Bool)
  | moment (text : String)
  | list (elements : List Toml)
  | table (members : List (String × Toml))
  deriving Repr, Inhabited

namespace Toml

def members : Toml → List (String × Toml)
  | table members => members
  | _ => []

def assign {α : Type} (name : String) (a : α) : List (String × α) → List (String × α)
  | [] => [(name, a)]
  | (n, b) :: rest => if n = name then (name, a) :: rest else (n, b) :: assign name a rest

end Toml
end EditorSync

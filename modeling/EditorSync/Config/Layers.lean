import EditorSync.Toml.Basic

namespace EditorSync.Config

open Toml (assign)

mutual

def put (target : Toml) (name : String) : Toml → Toml
  | .table incoming =>
    let inner := (target.members.lookup name).getD (.table [])
    .table (assign name (putAll inner incoming) target.members)
  | v => .table (assign name v target.members)

def putAll (target : Toml) : List (String × Toml) → Toml
  | [] => target
  | (name, v) :: rest => putAll (put target name v) rest

end

def putPath (target : Toml) : List String → Toml → Toml
  | [], _ => target
  | [name], v => put target name v
  | name :: names, v =>
    let inner := (target.members.lookup name).getD (.table [])
    .table (assign name (putPath inner names v) target.members)

def isNameChar (c : Char) : Bool := c.isAlphanum || c = '_' || c = '-'

def pathOf (name : String) : List String :=
  let pieces := name.toList.splitOn '.'
  if pieces.all fun piece => piece ≠ [] && piece.all isNameChar then pieces.map String.ofList
  else [name]

def overlay (target : Toml) (layer : List (String × Toml)) : Toml :=
  layer.foldl (fun target (name, v) => putPath target (pathOf name) v) target

def ofEnvironment (named : List (String × String)) : List (String × Toml) :=
  let mark := "tandem_".toList
  named.filterMap fun (name, value) =>
    let name := name.toList.map Char.toLower
    if mark.isPrefixOf name then
      some (String.ofList (name.drop mark.length), .string value)
    else none

end EditorSync.Config

import EditorSync.Path.Basic
import EditorSync.Table
import EditorSync.Text.Bytes

namespace EditorSync

open Text (Bytes)

inductive Disk.Entry where
  | dir
  | file (content : Bytes)
  | link (target : String)
  deriving DecidableEq, Repr

/-- A tree of directories, files and symbolic links. Every entry but the root stands under the
names that lead to it, without links among them. -/
structure Disk where
  entries : Table (List String) Disk.Entry
  deriving DecidableEq, Repr

namespace Disk

inductive Fault where
  | notFound
  | notDirectory
  | isDirectory
  | occupied
  | notEmpty
  | tooManyLinks
  | nameTooLong
  | badPath
  | notText
  deriving DecidableEq, Repr

def Fault.message : Fault → String
  | notFound => "No such file or directory (os error 2)"
  | notDirectory => "Not a directory (os error 20)"
  | isDirectory => "Is a directory (os error 21)"
  | occupied => "File exists (os error 17)"
  | notEmpty => "Directory not empty (os error 39)"
  | tooManyLinks => "Too many levels of symbolic links (os error 40)"
  | nameTooLong => "File name too long (os error 36)"
  | badPath => "file name contained an unexpected NUL byte"
  | notText => "stream did not contain valid UTF-8"

def empty : Disk := ⟨.empty⟩

def entry? (d : Disk) (place : List String) : Option Entry :=
  if place = [] then some .dir else d.entries.get? place

def maxLinks : Nat := 40

def maxName : Nat := 255

def maxPath : Nat := 4096

inductive Target where
  | found (place : List String) (entry : Entry)
  | vacant (place : List String)
  deriving DecidableEq, Repr

/-- Follows segments from a directory. A link at the end is followed only if `follow` says so,
and at most `links` links are followed altogether. -/
def walk (d : Disk) (follow : Bool) (links : Nat) (place : List String) :
    List String → Except Fault Target
  | [] => .ok (.found place .dir)
  | name :: rest =>
    if name = "" ∨ name = "." then d.walk follow links place rest
    else if name = ".." then d.walk follow links place.dropLast rest
    else if maxName < name.utf8ByteSize then .error .nameTooLong
    else
      let here := place ++ [name]
      match d.entry? here with
      | none => if rest = [] then .ok (.vacant here) else .error .notFound
      | some .dir => d.walk follow links here rest
      | some (.file content) =>
        if rest = [] then .ok (.found here (.file content)) else .error .notDirectory
      | some (.link target) =>
        if rest = [] ∧ !follow then .ok (.found here (.link target))
        else
          match links with
          | 0 => .error .tooManyLinks
          | links + 1 =>
            let start := if Path.isAbsolute target then [] else place
            d.walk follow links start (Path.segments target ++ rest)
  termination_by segments => (links, segments.length)

def locate (d : Disk) (follow : Bool) (path : String) : Except Fault Target :=
  if '\x00' ∈ path.toList then .error .badPath
  else if maxPath ≤ path.utf8ByteSize then .error .nameTooLong
  else d.walk follow maxLinks [] (Path.segments path)

/-- The entries that can be asked for by their own path. Those that lie deeper are reached from a
directory or through a link only. -/
def shallow (d : Disk) : Disk :=
  ⟨d.entries.filter fun place _ => (Path.ofNames place).utf8ByteSize < maxPath⟩

/-- The path without links of what a path leads to. Every entry on the way is asked for by its own
path, so there is none if one of them lies too deep. -/
def canonical? (d : Disk) (path : String) : Option String :=
  if '\x00' ∈ path.toList then none
  else
    match d.shallow.walk true maxLinks [] (Path.segments path) with
    | .ok (.found place _) => some (Path.ofNames place)
    | _ => none

def isDir (d : Disk) (path : String) : Bool :=
  match d.locate true path with
  | .ok (.found _ .dir) => true
  | _ => false

def isThere (d : Disk) (path : String) : Bool :=
  match d.locate true path with
  | .ok (.found _ _) => true
  | _ => false

def read (d : Disk) (path : String) : Except Fault Bytes := do
  match ← d.locate true path with
  | .found _ (.file content) => return content
  | .found _ _ => throw .isDirectory
  | .vacant _ => throw .notFound

def readText (d : Disk) (path : String) : Except Fault String := do
  match Text.decode? (← d.read path) with
  | some text => return text
  | none => throw .notText

def list (d : Disk) (path : String) : List (String × Entry) :=
  match d.locate true path with
  | .ok (.found place .dir) =>
    d.entries.entries.filterMap fun (p, e) =>
      match p.getLast? with
      | some name => if p = place ++ [name] then some (name, e) else none
      | none => none
  | _ => []

end Disk
end EditorSync

import EditorSync.Json.Decoder

namespace EditorSync

open Json (Decoder)

inductive FileOperation.Kind where
  | start
  | stop
  | suspend
  | resume
  | move
  | delete
  deriving DecidableEq, Repr

structure FileOperation where
  kind : FileOperation.Kind
  path : String
  oldPath : Option String
  deriving DecidableEq, Repr

namespace FileOperation

def method : String := "track:file-operation"

namespace Kind

def name : Kind → String
  | start => "start"
  | stop => "stop"
  | suspend => "suspend"
  | resume => "resume"
  | move => "move"
  | delete => "delete"

def wireName (kind : Kind) : String := kind.name.map Char.toUpper

def all : List Kind := [start, stop, suspend, resume, move, delete]

def decoder : Decoder Kind := Decoder.oneOf (all.map fun kind => (kind.wireName, kind))

end Kind

def toJson (m : FileOperation) : Json :=
  .obj ([("type", .str m.kind.wireName), ("path", .str m.path)] ++
    Json.memberIfSome "oldPath" .str m.oldPath)

def decoder : Decoder FileOperation :=
  Decoder.record ["type", "path", "oldPath"] fun r => do
    return {
      kind := ← r.required "type" Kind.decoder
      path := ← r.required "path" Decoder.string
      oldPath := ← r.optionalOrAbsent "oldPath" Decoder.string }

end FileOperation

structure ProjectRemoved where
  project : String
  deriving DecidableEq, Repr

namespace ProjectRemoved

def method : String := "track:project-removed"

def toJson (m : ProjectRemoved) : Json := .obj [("projectPath", .str m.project)]

def decoder : Decoder ProjectRemoved :=
  Decoder.record ["projectPath"] fun r => do
    return { project := ← r.required "projectPath" Decoder.string }

end ProjectRemoved

structure ReconcileRequest where
  path : String
  owner : Option String
  deriving DecidableEq, Repr

namespace ReconcileRequest

def method : String := "track:reconcile"

def toJson (m : ReconcileRequest) : Json :=
  .obj (("path", .str m.path) :: Json.memberIfSome "workingCopyOwnerID" .str m.owner)

def decoder : Decoder ReconcileRequest :=
  Decoder.record ["path", "workingCopyOwnerID"] fun r => do
    return {
      path := ← r.required "path" Decoder.string
      owner := ← r.optionalOrAbsent "workingCopyOwnerID" Decoder.string }

end ReconcileRequest
end EditorSync

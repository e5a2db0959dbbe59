import EditorSync.Delta
import EditorSync.Json.Decoder
import EditorSync.Path.Basic
import EditorSync.SyncError

namespace EditorSync

open Json (Decoder)
open Text (Encoding)

namespace Delta.Kind

def decoder : Decoder Kind := Decoder.oneOf (all.map fun kind => (kind.name, kind))

def toJson (kind : Kind) : Json := .str kind.name

end Delta.Kind

structure ChangeTarget where
  owner : String
  project : String
  file : String
  deriving DecidableEq, Repr

structure EditorChanges where
  kind : Delta.Kind
  owner : String
  project : String
  file : String
  offset : Nat
  length : Option Nat
  removed : Option Nat
  text : Option String
  seq : Option Nat
  deriving DecidableEq, Repr

namespace EditorChanges

def method : String := "track:editor-changes"

def ofDelta (delta : Delta) (target : ChangeTarget) (enc : Encoding) (seq : Option Nat) :
    EditorChanges where
  kind := delta.kind
  owner := target.owner
  project := target.project
  file := target.file
  offset := delta.offset
  length := match delta with
    | .insert _ text => some (enc.len text)
    | _ => none
  removed := match delta with
    | .remove _ length => some length
    | _ => none
  text := match delta with
    | .insert _ text => some text
    | .replaceAll text => some text
    | _ => none
  seq := seq

def delta? (m : EditorChanges) : Option Delta :=
  match m.kind with
  | .insert => some (.insert m.offset (m.text.getD ""))
  | .remove => some (.remove m.offset (m.removed.getD 0))
  | .replaceAll => m.text.map .replaceAll

def toDelta (m : EditorChanges) : Except SyncError Delta := do
  unless Path.isProperAncestor m.project m.file do
    throw (.invalidEnvelope s!"project {m.project} does not contain {m.file}")
  match m.delta? with
  | none => throw (.invalidEnvelope s!"REPLACE_ALL for {m.file} carries no text")
  | some delta =>
    match delta.check with
    | .ok () => return delta
    | .error e => throw (.invalidDelta m.file e.message)

def toJson (m : EditorChanges) : Json :=
  .obj ([("type", m.kind.toJson), ("workingCopyOwnerID", .str m.owner),
      ("projectPath", .str m.project), ("fileLocation", .str m.file),
      ("offset", .ofNat m.offset)] ++
    Json.memberIfSome "length" .ofNat m.length ++
    Json.memberIfSome "removedCharCount" .ofNat m.removed ++
    Json.memberIfSome "text" .str m.text ++
    Json.memberIfSome "seq" .ofNat m.seq)

def decoder : Decoder EditorChanges :=
  Decoder.record ["type", "workingCopyOwnerID", "projectPath", "fileLocation", "offset",
      "length", "removedCharCount", "text", "seq"] fun r => do
    return {
      kind := ← r.required "type" Delta.Kind.decoder
      owner := ← r.required "workingCopyOwnerID" Decoder.string
      project := ← r.required "projectPath" Decoder.string
      file := ← r.required "fileLocation" Decoder.string
      offset := ← r.withDefault "offset" 0 Decoder.word64
      length := ← r.optionalOrAbsent "length" Decoder.word64
      removed := ← r.optionalOrAbsent "removedCharCount" Decoder.word64
      text := ← r.optionalOrAbsent "text" Decoder.string
      seq := ← r.optionalOrAbsent "seq" Decoder.word64 }

end EditorChanges
end EditorSync

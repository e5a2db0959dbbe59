import EditorSync.Json.Decoder

namespace EditorSync

open Json (Decoder)

structure Problem where
  message : String
  id : Int
  error : Bool
  warning : Bool
  sourceStart : Nat
  sourceEnd : Nat
  sourceLine : Nat
  file : String
  arguments : List String
  deriving DecidableEq, Repr

namespace Problem

def toJson (p : Problem) : Json :=
  .obj [("message", .str p.message), ("id", .ofInt p.id), ("error", .bool p.error),
    ("warning", .bool p.warning), ("sourceStart", .ofNat p.sourceStart),
    ("sourceEnd", .ofNat p.sourceEnd), ("sourceLineNumber", .ofNat p.sourceLine),
    ("originatingFileName", .str p.file), ("arguments", .ofList .str p.arguments)]

def decoder : Decoder Problem :=
  Decoder.record ["message", "id", "error", "warning", "sourceStart", "sourceEnd",
      "sourceLineNumber", "originatingFileName", "arguments"] fun r => do
    return {
      message := ← r.required "message" Decoder.string
      id := ← r.required "id" Decoder.int64
      error := ← r.required "error" Decoder.boolean
      warning := ← r.required "warning" Decoder.boolean
      sourceStart := ← r.required "sourceStart" Decoder.word64
      sourceEnd := ← r.required "sourceEnd" Decoder.word64
      sourceLine := ← r.required "sourceLineNumber" Decoder.word64
      file := ← r.required "originatingFileName" Decoder.string
      arguments := ← r.withDefault "arguments" [] Decoder.string.list }

end Problem

structure Highlight where
  offset : Nat
  length : Nat
  kind : String
  deriving DecidableEq, Repr

namespace Highlight

def toJson (h : Highlight) : Json :=
  .obj [("offset", .ofNat h.offset), ("length", .ofNat h.length), ("type", .str h.kind)]

def decoder : Decoder Highlight :=
  Decoder.record ["offset", "length", "type"] fun r => do
    return {
      offset := ← r.required "offset" Decoder.word64
      length := ← r.required "length" Decoder.word64
      kind := ← r.required "type" Decoder.string }

end Highlight

structure ReconcileState where
  owner : String
  problems : List Problem
  highlights : List Highlight
  deriving DecidableEq, Repr

namespace ReconcileState

def method : String := "event:reconcile-state-changed"

def toJson (m : ReconcileState) : Json :=
  .obj [("workingCopyOwnerID", .str m.owner), ("problems", .ofList Problem.toJson m.problems),
    ("highlightedPositions", .ofList Highlight.toJson m.highlights)]

def decoder : Decoder ReconcileState :=
  Decoder.record ["workingCopyOwnerID", "problems", "highlightedPositions"] fun r => do
    return {
      owner := ← r.required "workingCopyOwnerID" Decoder.string
      problems := ← r.required "problems" Problem.decoder.list
      highlights := ← r.required "highlightedPositions" Highlight.decoder.list }

end ReconcileState
end EditorSync

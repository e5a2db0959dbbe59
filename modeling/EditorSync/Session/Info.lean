import EditorSync.Session.Entry

namespace EditorSync.Session

open Json (Decoder)
open Time (Timestamp)

structure Info where
  id : String
  pid : Nat
  workspace : String
  startedAt : Timestamp
  offsetEncoding : Option String
  projects : Option (List String)
  deriving DecidableEq, Repr

namespace Info

def decoder : Decoder Info :=
  Decoder.record ["id", "pid", "workspace", "started_at", "offset_encoding", "projects"] fun r =>
    return {
      id := ← r.required "id" Decoder.string
      pid := ← r.required "pid" Decoder.word32
      workspace := ← r.required "workspace" Decoder.string
      startedAt := ← r.required "started_at" timestampDecoder
      offsetEncoding := ← r.optionalOrAbsent "offset_encoding" Decoder.string
      projects := ← r.optionalOrAbsent "projects" (Decoder.list Decoder.string) }

def toJson (s : Info) : Json :=
  .obj ([("id", .str s.id), ("pid", .ofNat s.pid), ("workspace", .str s.workspace),
    ("started_at", .str s.startedAt.text), ("offset_encoding", .ofOption .str s.offsetEncoding)] ++
    Json.memberIfSome "projects" (.ofList .str) s.projects)

def ofText? (text : String) : Option Info := (Json.parse? text).bind (decoder Json.maxDepth)

end Info
end EditorSync.Session

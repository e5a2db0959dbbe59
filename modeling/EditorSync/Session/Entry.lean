import EditorSync.Json.Parser
import EditorSync.Json.Printer
import EditorSync.Session.Event
import EditorSync.Text.Bytes
import EditorSync.Time.Parser

namespace EditorSync.Session

open Json (Decoder)
open Text (Bytes)
open Time (Timestamp)

structure Entry where
  timestamp : Timestamp
  event : Event
  deriving DecidableEq, Repr

def timestampDecoder : Decoder Timestamp := fun depth j =>
  (Decoder.string depth j).bind Timestamp.parse?

namespace Entry

def toJson (e : Entry) : Json :=
  .obj (("timestamp", .str e.timestamp.text) :: ("type", .str e.event.typeName) :: e.event.members)

def decoder : Decoder Entry
  | depth + 1, .obj members =>
    let event := members.filter (·.1 != "timestamp")
    match members.filter (·.1 == "timestamp") with
    | [(_, time)] => do
      guard (event.all fun (_, j) => (j.value? depth).isSome)
      return ⟨← timestampDecoder depth time, ← Event.decoder (depth + 1) (.obj event)⟩
    | _ => none
  | _, _ => none

def ofLine? (line : String) : Option Entry :=
  (Json.parse? line).bind (decoder Json.maxDepth)

def toLine (e : Entry) : Bytes := Text.encode (e.toJson.compact ++ "\n")

end Entry

/-- The entries of a log up to the first line that is no text. Other lines that are no entries
are skipped. -/
def entries (log : Bytes) : List Entry :=
  (((Text.byteLines log).map Text.decode?).takeWhile Option.isSome).filterMap
    fun line => line.bind Entry.ofLine?

end EditorSync.Session

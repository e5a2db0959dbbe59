import EditorSync.Json.Decoder

namespace EditorSync.Session

open Json (Decoder)

inductive Event where
  | endpointConnected (endpoint : String)
  | endpointDisconnected (endpoint : String)
  | tracking (path operation : String) (oldPath : Option String)
  | deltaApplied (path kind : String) (seq : Option Nat) (length : Nat)
  | deltaBuffered (path : String) (seq : Nat)
  | rejected (path : Option String) (error reason : String)
  | reconciled (path owner : String) (problems highlights durationMs : Nat)
  | reconcileFailed (path reason : String)
  | serverState (language state : String)
  | started
  | shutdown
  deriving DecidableEq, Repr

namespace Event

def typeName : Event → String
  | endpointConnected .. => "endpoint_connected"
  | endpointDisconnected .. => "endpoint_disconnected"
  | tracking .. => "tracking"
  | deltaApplied .. => "delta_applied"
  | deltaBuffered .. => "delta_buffered"
  | rejected .. => "rejected"
  | reconciled .. => "reconciled"
  | reconcileFailed .. => "reconcile_failed"
  | serverState .. => "server_state"
  | started => "started"
  | shutdown => "shutdown"

def members : Event → List (String × Json)
  | endpointConnected endpoint => [("endpoint", .str endpoint)]
  | endpointDisconnected endpoint => [("endpoint", .str endpoint)]
  | tracking path operation oldPath =>
    [("path", .str path), ("operation", .str operation)] ++
      Json.memberIfSome "old_path" .str oldPath
  | deltaApplied path kind seq length =>
    [("path", .str path), ("kind", .str kind), ("seq", .ofOption .ofNat seq),
      ("length", .ofNat length)]
  | deltaBuffered path seq => [("path", .str path), ("seq", .ofNat seq)]
  | rejected path error reason =>
    [("path", .ofOption .str path), ("error", .str error), ("reason", .str reason)]
  | reconciled path owner problems highlights durationMs =>
    [("path", .str path), ("owner", .str owner), ("problems", .ofNat problems),
      ("highlights", .ofNat highlights), ("duration_ms", .ofNat durationMs)]
  | reconcileFailed path reason => [("path", .str path), ("reason", .str reason)]
  | serverState language state => [("language", .str language), ("state", .str state)]
  | started => []
  | shutdown => []

def toJson (e : Event) : Json := .obj (("type", .str e.typeName) :: e.members)

def textOf (r : Json.Record) (name : String) : Option String := r.required name Decoder.string

def wordOf (r : Json.Record) (name : String) : Option Nat := r.required name Decoder.word64

def decoder : Decoder Event :=
  Decoder.tagged "type" [
    ("endpoint_connected", Decoder.record ["endpoint"] fun r =>
      return endpointConnected (← textOf r "endpoint")),
    ("endpoint_disconnected", Decoder.record ["endpoint"] fun r =>
      return endpointDisconnected (← textOf r "endpoint")),
    ("tracking", Decoder.record ["path", "operation", "old_path"] fun r =>
      return tracking (← textOf r "path") (← textOf r "operation")
        (← r.optionalOrAbsent "old_path" Decoder.string)),
    ("delta_applied", Decoder.record ["path", "kind", "seq", "length"] fun r =>
      return deltaApplied (← textOf r "path") (← textOf r "kind")
        (← r.optional "seq" Decoder.word64) (← wordOf r "length")),
    ("delta_buffered", Decoder.record ["path", "seq"] fun r =>
      return deltaBuffered (← textOf r "path") (← wordOf r "seq")),
    ("rejected", Decoder.record ["path", "error", "reason"] fun r =>
      return rejected (← r.optional "path" Decoder.string) (← textOf r "error")
        (← textOf r "reason")),
    ("reconciled", Decoder.record ["path", "owner", "problems", "highlights", "duration_ms"]
      fun r =>
        return reconciled (← textOf r "path") (← textOf r "owner") (← wordOf r "problems")
          (← wordOf r "highlights") (← wordOf r "duration_ms")),
    ("reconcile_failed", Decoder.record ["path", "reason"] fun r =>
      return reconcileFailed (← textOf r "path") (← textOf r "reason")),
    ("server_state", Decoder.record ["language", "state"] fun r =>
      return serverState (← textOf r "language") (← textOf r "state")),
    ("started", fun _ _ => some started),
    ("shutdown", fun _ _ => some shutdown)]

end Event
end EditorSync.Session

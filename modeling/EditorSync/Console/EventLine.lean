import EditorSync.Console.Layout
import EditorSync.Console.Paint
import EditorSync.Session.Entry

namespace EditorSync.Console

open Session (Entry Event)

def description (colours : Bool) : Event → String
  | .started => "Session started"
  | .shutdown => "Session shutting down"
  | .endpointConnected endpoint => endpoint ++ " connected"
  | .endpointDisconnected endpoint => endpoint ++ " disconnected"
  | .tracking path operation (some old) => s!"{alignLeft 8 operation} {old} -> {path}"
  | .tracking path operation none => s!"{alignLeft 8 operation} {path}"
  | .deltaApplied path kind seq length =>
    let number := match seq with
      | some n => s!" #{n}"
      | none => ""
    paint colours .green (alignLeft 11 kind) ++ s!" {path}{number} ({length} bytes)"
  | .deltaBuffered path seq =>
    paint colours .yellow (alignLeft 11 "BUFFERED") ++ s!" {path} #{seq}"
  | .rejected path error reason =>
    " ".intercalate [paint colours .red ("REJECTED " ++ error), path.getD "-",
      paint colours .dim reason]
  | .reconciled path owner problems highlights durationMs =>
    paint colours .blue "RECONCILED" ++
      s!" {path} -> {owner}: {problems} problems, {highlights} highlights ({durationMs}ms)"
  | .reconcileFailed path reason =>
    paint colours .red "RECONCILE FAILED" ++ s!" {path}: " ++ paint colours .dim reason
  | .serverState language state => paint colours .cyan language ++ s!" server {state}"

def eventLine (zone : Time.Zone) (entry : Entry) (colours : Bool) (width : Nat) : String :=
  paint colours .dim s!"[{(entry.timestamp.inZone zone).clock}]" ++ " " ++
    truncate (description colours entry.event) (max (width - 11) 20)

end EditorSync.Console

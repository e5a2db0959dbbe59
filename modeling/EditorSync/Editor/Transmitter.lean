import EditorSync.Message.EditorChanges
import EditorSync.Message.FileOperation
import EditorSync.Rpc.Line

namespace EditorSync.Editor

structure Transmitter where
  connected : Bool
  sent : String
  deriving DecidableEq, Repr

namespace Transmitter

def new : Transmitter := ⟨false, ""⟩

def transmit (t : Transmitter) (reachable : Bool) (line : String) : Transmitter :=
  if t.connected || reachable then ⟨true, t.sent ++ line⟩ else t

def changesLine (m : EditorChanges) : String :=
  (Rpc.Notification.of EditorChanges.method m.toJson).toLine

def operationLine (m : FileOperation) : String :=
  (Rpc.Notification.of FileOperation.method m.toJson).toLine

end Transmitter
end EditorSync.Editor

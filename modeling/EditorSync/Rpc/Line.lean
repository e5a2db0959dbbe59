import EditorSync.Rpc.Message
import EditorSync.Text.Blank

namespace EditorSync.Rpc

inductive Line where
  | blank
  | malformed
  | notification (message : Notification)

def malformedMessage : String := "Malformed notification"

def Line.ofText (text : String) : Line :=
  let text := Text.trim text
  if text = "" then .blank
  else
    match read? Notification.decoder text with
    | some message => .notification message
    | none => .malformed

def toLine (message : Json) : String := message.compact ++ "\n"

def Notification.toLine (message : Notification) : String := Rpc.toLine message.toJson

end EditorSync.Rpc

import EditorSync.LanguageServer.Engine

namespace EditorSync.LanguageServer

structure Recorded (σ : Type) where
  inner : σ
  processes : List Nat
  told : List (Nat × Json)

def Host.recorded {σ : Type} (h : Host σ) : Host (Recorded σ) where
  start r language := (h.start r.inner language).map fun (process, inner) =>
    (r.processes.length, { r with inner := inner, processes := r.processes ++ [process] })
  tell r process message :=
    let (reaction, inner) := h.tell r.inner (r.processes.getD process 0) message
    (reaction, { r with inner := inner, told := r.told ++ [(process, message)] })
  answer r process message :=
    { r with inner := h.answer r.inner (r.processes.getD process 0) message }

inductive DocumentEvent where
  | opened (version : Int)
  | changed (version : Int)
  | closed
  deriving DecidableEq, Repr

def documentEvent? (message : Json) : Option (String × DocumentEvent) :=
  let document := ((message.get? "params").bind (·.get? "textDocument")).getD .null
  let uri := match document.get? "uri" with
    | some (.str uri) => uri
    | _ => ""
  let version := match document.get? "version" with
    | some (.num (.int version)) => version
    | _ => 0
  match message.get? "method" with
  | some (.str "textDocument/didOpen") => some (uri, .opened version)
  | some (.str "textDocument/didChange") => some (uri, .changed version)
  | some (.str "textDocument/didClose") => some (uri, .closed)
  | _ => none

def DocumentEvent.next? : Option Int → DocumentEvent → Option (Option Int)
  | none, opened version => if version = 1 then some (some 1) else none
  | some old, changed version => if version = old + 1 then some (some version) else none
  | some _, closed => some none
  | _, _ => none

def documentEvents (told : List (Nat × Json)) (process : Nat) (uri : String) :
    List DocumentEvent :=
  told.filterMap fun (p, message) =>
    (documentEvent? message).bind fun (u, event) =>
      if p = process ∧ u = uri then some event else none

/-- The version of a document that a server has open, as long as all it has been told about the
document has been in order. -/
def standing? (told : List (Nat × Json)) (process : Nat) (uri : String) : Option (Option Int) :=
  (documentEvents told process uri).foldlM DocumentEvent.next? none

variable {told : List (Nat × Json)} {process p : Nat} {uri u : String} {message : Json}
variable {event : DocumentEvent}

theorem standing?_quiet (h : documentEvent? message = none) :
    standing? (told ++ [(p, message)]) process uri = standing? told process uri := by
  simp [standing?, documentEvents, h]

theorem standing?_other (h : documentEvent? message = some (u, event))
    (hother : ¬(p = process ∧ u = uri)) :
    standing? (told ++ [(p, message)]) process uri = standing? told process uri := by
  simp [standing?, documentEvents, h, hother]

theorem standing?_told (h : documentEvent? message = some (uri, event)) :
    standing? (told ++ [(process, message)]) process uri =
      (standing? told process uri).bind fun version => DocumentEvent.next? version event := by
  simp [standing?, documentEvents, h, List.foldlM_append]

theorem documentEvent?_didOpen (language content : String) (version : Nat) :
    documentEvent? (Rpc.Notification.of "textDocument/didOpen" (.obj [
      ("textDocument", .obj [("uri", .str uri), ("languageId", .str language),
        ("version", .ofNat version), ("text", .str content)])])).toJson =
      some (uri, .opened version) := by
  rfl

theorem documentEvent?_didChange (content : String) (version : Nat) :
    documentEvent? (Rpc.Notification.of "textDocument/didChange" (.obj [
      ("textDocument", .obj [("uri", .str uri), ("version", .ofNat version)]),
      ("contentChanges", .arr [.obj [("text", .str content)]])])).toJson =
      some (uri, .changed version) := by
  rfl

theorem documentEvent?_didClose :
    documentEvent? (Rpc.Notification.of "textDocument/didClose"
      (.obj [("textDocument", .obj [("uri", .str uri)])])).toJson = some (uri, .closed) := by
  rfl

end EditorSync.LanguageServer

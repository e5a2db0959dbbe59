import EditorSync.Editor.DirtyQueue
import EditorSync.Editor.DocumentChange
import EditorSync.Editor.Timer
import EditorSync.Message.EditorChanges

namespace EditorSync.Editor

open Text (Encoding)

structure Document where
  location : String
  text : String
  dirty : Bool
  project : Option String
  saveFails : Bool
  saves : Nat
  deriving DecidableEq, Repr

def Document.save (d : Document) : Document :=
  if d.saveFails then d else { d with dirty := false, saves := d.saves + 1 }

def autoSavePreference : String := "editor.autoSave"

def lookUpPreference (stored : Option Bool) (key : String) : Option Bool :=
  if key = autoSavePreference then stored else none

inductive AutoSave.Mode where
  | activated
  | deactivated
  | suspended
  | resuming
  deriving DecidableEq, Repr

def AutoSave.Mode.name : AutoSave.Mode → String
  | activated => "activated"
  | deactivated => "deactivated"
  | suspended => "suspended"
  | resuming => "resuming"

/-- Collects the edits of one document and sends them on after a pause. -/
structure AutoSave where
  document : Document
  preference : Option Bool
  encoding : Encoding
  owner : Option String
  mode : AutoSave.Mode
  queue : DirtyQueue
  timer : Timer
  activeEditor : Bool
  nextSeq : Nat
  deriving DecidableEq, Repr

namespace AutoSave

inductive Event where
  | changed (change : DocumentChange)
  | activate
  | deactivate
  | trackingSuspended
  | trackingResumed
  | activePartChanged (isThisEditor : Bool)
  | settingsChanged
  | save
  deriving DecidableEq, Repr

abbrev Step := AutoSave × List EditorChanges

def enabled? (a : AutoSave) : Option Bool := lookUpPreference a.preference autoSavePreference

def activate (a : AutoSave) (now : Nat) : AutoSave :=
  if a.enabled? = some false then a
  else { a with mode := .activated, timer := a.timer.schedule now }

def deactivate (a : AutoSave) : AutoSave :=
  if a.mode = .suspended then a
  else { a with mode := .deactivated, timer := a.timer.cancel }

def suspend (a : AutoSave) : AutoSave :=
  { a with mode := .suspended, timer := a.timer.cancel }

def resume (a : AutoSave) (now : Nat) : AutoSave :=
  { a with mode := .resuming, timer := a.timer.schedule now }

def settingsChanged (a : AutoSave) (now : Nat) : AutoSave :=
  match a.enabled? with
  | some false => if a.mode = .deactivated then a else a.deactivate
  | some true => if a.mode = .activated then a else a.activate now
  | none => a

def changed (a : AutoSave) (change : DocumentChange) (now : Nat) : AutoSave :=
  if a.mode = .suspended ∨ change.document ≠ a.document.location then a
  else
    let queue := if a.activeEditor then a.queue.addAll change.toDeltas now else a.queue
    { a with queue := queue, timer := a.timer.schedule now }

def send (a : AutoSave) (delta : Delta) (project : String) : AutoSave × EditorChanges :=
  let target : ChangeTarget :=
    ⟨a.owner.getD a.document.location, project, a.document.location⟩
  ({ a with nextSeq := a.nextSeq + 1 },
    EditorChanges.ofDelta delta target a.encoding (some a.nextSeq))

def sendAll (project : String) : AutoSave → List Delta → Step
  | a, [] => (a, [])
  | a, delta :: deltas =>
    let (a, message) := a.send delta project
    let (a, messages) := sendAll project a deltas
    (a, message :: messages)

def saveDocument (a : AutoSave) : AutoSave :=
  if a.mode = .activated ∧ a.document.dirty then { a with document := a.document.save } else a

def resynchronize (a : AutoSave) (project : String) : Step :=
  let (a, message) := { a with queue := .empty }.send (.replaceAll a.document.text) project
  let mode : Mode := if a.enabled? = some false then .deactivated else .activated
  ({ a with mode := mode }, [message])

def flush (a : AutoSave) : Step :=
  let a := a.saveDocument
  match a.document.project with
  | none => ({ a with queue := .empty }, [])
  | some project => sendAll project { a with queue := .empty } a.queue.deltas

def save (a : AutoSave) : Step :=
  match a.mode, a.document.project with
  | .suspended, _ => (a, [])
  | .resuming, some project => a.resynchronize project
  | _, _ => a.flush

def tick (a : AutoSave) (now : Nat) : Step × Bool :=
  let (timer, due) := a.timer.takeDue now
  if due then ({ a with timer := timer }.save, true) else ((a, []), false)

def handle (a : AutoSave) (event : Event) (now : Nat) : Step :=
  match event with
  | .changed change => (a.changed change now, [])
  | .activate => (a.activate now, [])
  | .deactivate => (a.deactivate, [])
  | .trackingSuspended => (a.suspend, [])
  | .trackingResumed => (a.resume now, [])
  | .activePartChanged active => ({ a with activeEditor := active }, [])
  | .settingsChanged => (a.settingsChanged now, [])
  | .save => a.save

def install (document : Document) (preference : Option Bool) (delay : Nat) (encoding : Encoding)
    (owner : Option String) (now : Nat) : AutoSave :=
  let a : AutoSave := {
    document := document
    preference := preference
    encoding := encoding
    owner := owner
    mode := .activated
    queue := .empty
    timer := .new delay
    activeEditor := true
    nextSeq := 1 }
  a.settingsChanged now

/-- Lets time pass up to a moment. The timer goes off on the way, and going off does not set
it again. -/
def sleepUntil (a : AutoSave) (now : Nat) : Step :=
  match a.timer.deadline with
  | some deadline => if deadline ≤ now then (a.tick deadline).1 else (a, [])
  | none => (a, [])

end AutoSave
end EditorSync.Editor

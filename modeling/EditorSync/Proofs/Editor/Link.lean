import EditorSync.Proofs.Editor.DocumentChange
import EditorSync.Proofs.Editor.Resume
import EditorSync.Proofs.Message.EditorChanges
import EditorSync.Proofs.WorkingCopy.Transitions

namespace EditorSync.Editor

open Text (Encoding)
open AutoSave (Stimulus)

def Document.Owned (d : Document) : Prop :=
  ∃ project, d.project = some project ∧ Path.isProperAncestor project d.location = true

instance (d : Document) : Decidable d.Owned :=
  match h : d.project with
  | none => isFalse fun ⟨project, hproject, _⟩ => by rw [h] at hproject; cases hproject
  | some project =>
    if howns : Path.isProperAncestor project d.location = true then isTrue ⟨project, h, howns⟩
    else isFalse fun ⟨project', hproject, howns'⟩ => by
      rw [h, Option.some.injEq] at hproject
      exact howns (hproject ▸ howns')

/-- An editor and the working copy of its document, with the messages on their way from one to
the other. They are synchronized from the start if the copy has the text of the document, or
else from the arrival of a snapshot, until a message is lost or tracking is suspended. -/
structure Link where
  editor : AutoSave
  inFlight : List EditorChanges
  copy : WorkingCopy
  synced : Bool
  deriving DecidableEq, Repr

namespace Link

/-- Every edit of the text is reported. A message that arrives at the far end of the line is
delivered or lost. -/
inductive Move where
  | edit (change : DocumentChange) (now : Nat)
  | stimulus (s : Stimulus)
  | deliver
  | lose
  deriving DecidableEq, Repr

/-- The stimuli of a host that reports its edits, keeps the document in a project and this editor
in front, and does not switch saving on or off around a suspension. -/
def Allows (a : AutoSave) : Stimulus → Prop
  | .event (.changed change) _ => change.document ≠ a.document.location
  | .event .activate _ | .event .deactivate _ | .event .settingsChanged _ => a.Streaming
  | .event (.activePartChanged active) _ => active = true
  | .host document => document.text = a.document.text ∧ document.Owned
  | _ => True

instance (a : AutoSave) : Decidable a.Streaming := inferInstanceAs (Decidable (_ ∨ _))

instance (a : AutoSave) : (s : Stimulus) → Decidable (Allows a s)
  | .event (.changed _) _ => inferInstanceAs (Decidable (_ ≠ _))
  | .event .activate _ | .event .deactivate _ | .event .settingsChanged _ =>
    inferInstanceAs (Decidable a.Streaming)
  | .event (.activePartChanged _) _ => inferInstanceAs (Decidable (_ = _))
  | .event .trackingSuspended _ | .event .trackingResumed _ | .event .save _ => .isTrue trivial
  | .tick _ | .prefer _ => .isTrue trivial
  | .host _ => inferInstanceAs (Decidable (_ ∧ _))

def isSuspension : Stimulus → Bool
  | .event .trackingSuspended _ => true
  | _ => false

def isSnapshot (message : EditorChanges) : Bool :=
  match message.toDelta with
  | .ok (.replaceAll _) => true
  | _ => false

def receive (copy : WorkingCopy) (enc : Encoding) (maxPending : Nat) (message : EditorChanges) :
    WorkingCopy :=
  match message.toDelta with
  | .ok delta => copy.deliver enc maxPending delta message.seq
  | .error _ => copy

def arrive (maxPending : Nat) (l : Link) (message : EditorChanges) (rest : List EditorChanges) :
    Link :=
  { l with
    inFlight := rest
    copy := receive l.copy l.editor.encoding maxPending message
    synced := l.synced || isSnapshot message }

def lose (l : Link) (rest : List EditorChanges) : Link := { l with inFlight := rest, synced := false }

def revise (l : Link) (change : DocumentChange) (now : Nat) (text : String) : Link :=
  let document := { l.editor.document with text := text }
  { l with editor := ({ l.editor with document := document }).changed change now }

def follow (l : Link) (s : Stimulus) : Link :=
  { l with
    editor := (l.editor.react s).1
    inFlight := l.inFlight ++ (l.editor.react s).2
    synced := l.synced && !isSuspension s }

def step (maxPending : Nat) (l : Link) : Move → Option Link
  | .edit change now =>
    if change.document = l.editor.document.location then
      (change.on? l.editor.document.text l.editor.encoding).map (l.revise change now)
    else none
  | .stimulus s => if Allows l.editor s then some (l.follow s) else none
  | .deliver =>
    match l.inFlight with
    | [] => none
    | message :: rest => some (l.arrive maxPending message rest)
  | .lose =>
    match l.inFlight with
    | [] => none
    | _ :: rest => some (l.lose rest)

def run (maxPending : Nat) (l : Link) : List Move → Option Link
  | [] => some l
  | m :: rest => (l.step maxPending m).bind fun l => run maxPending l rest

def connect (document : Document) (preference : Option Bool) (delay : Nat) (enc : Encoding)
    (owner : Option String) (now : Nat) (copy : WorkingCopy) : Link where
  editor := .install document preference delay enc owner now
  inFlight := []
  copy := copy
  synced := copy.content = document.text

def Move.arrives : Move → Bool
  | .deliver | .lose => true
  | _ => false

end Link
end EditorSync.Editor

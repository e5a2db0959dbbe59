import EditorSync.Session.Entry

namespace EditorSync.Session

structure Stats where
  tracked : List String
  applied : Nat
  rejected : Nat
  reconciled : Nat
  languages : List String
  deriving DecidableEq, Repr

namespace Stats

def empty : Stats := ⟨[], 0, 0, 0, []⟩

def trackedAfter (tracked : List String) (path operation : String) (oldPath : Option String) :
    List String :=
  match operation, oldPath with
  | "start", _ => tracked.insert path
  | "stop", _ | "delete", _ => tracked.filter (· ≠ path)
  | "move", some old =>
    if old ∈ tracked then (tracked.filter (· ≠ old)).insert path else tracked
  | _, _ => tracked

def add (s : Stats) : Event → Stats
  | .tracking path operation oldPath =>
    { s with tracked := trackedAfter s.tracked path operation oldPath }
  | .deltaApplied .. => { s with applied := s.applied + 1 }
  | .rejected .. => { s with rejected := s.rejected + 1 }
  | .reconciled .. => { s with reconciled := s.reconciled + 1 }
  | .serverState language state =>
    { s with languages :=
        if state = "dead" then s.languages.filter (· ≠ language) else s.languages.insert language }
  | _ => s

def sort (names : List String) : List String := names.mergeSort fun a b => a ≤ b

def ofEvents (events : List Event) : Stats :=
  let s := events.foldl add empty
  { s with tracked := sort s.tracked, languages := sort s.languages }

end Stats
end EditorSync.Session

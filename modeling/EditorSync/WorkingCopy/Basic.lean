import EditorSync.Delta
import EditorSync.SyncError
import EditorSync.Table

namespace EditorSync

open Text (Encoding)

structure WorkingCopy.Key where
  project : String
  file : String
  deriving DecidableEq, Repr

/-- The shadow of a document. Deltas with a number apply in the order of their numbers, and
those that come early wait in `pending`. -/
structure WorkingCopy where
  key : WorkingCopy.Key
  content : String
  lastApplied : Option Nat
  pending : Table Nat Delta
  discarded : Bool
  deriving DecidableEq, Repr

namespace WorkingCopy

def new (key : Key) (content : String) : WorkingCopy where
  key := key
  content := content
  lastApplied := none
  pending := .empty
  discarded := false

structure Applied where
  kind : Delta.Kind
  seq : Option Nat
  content : String
  deriving DecidableEq, Repr

def resetSequence (w : WorkingCopy) : WorkingCopy :=
  { w with lastApplied := none, pending := .empty }

def reset (w : WorkingCopy) (content : String) : WorkingCopy :=
  { w with content := content }.resetSequence

def patch (w : WorkingCopy) (delta : Delta) (enc : Encoding) : Except SyncError WorkingCopy :=
  match delta.apply w.content enc with
  | .ok content => .ok { w with content := content }
  | .error e => .error (.invalidDelta w.key.file e.message)

/-- Applies the waiting deltas whose turn has come. One that does not fit is dropped, and its
number counts as applied. The fuel is the number of waiting deltas. -/
def drainWith (enc : Encoding) : Nat → WorkingCopy → WorkingCopy × List Applied
  | 0, w => (w, [])
  | fuel + 1, w =>
    match w.lastApplied with
    | none => (w, [])
    | some last =>
      match w.pending.get? (last + 1) with
      | none => (w, [])
      | some delta =>
        let w := { w with lastApplied := some (last + 1), pending := w.pending.erase (last + 1) }
        match w.patch delta enc with
        | .error _ => drainWith enc fuel w
        | .ok w =>
          let (final, applied) := drainWith enc fuel w
          (final, ⟨delta.kind, some (last + 1), w.content⟩ :: applied)

def drain (w : WorkingCopy) (enc : Encoding) : WorkingCopy × List Applied :=
  drainWith enc w.pending.size w

def advance (w : WorkingCopy) (delta : Delta) (seq : Nat) (enc : Encoding) :
    Except SyncError (WorkingCopy × List Applied) := do
  let w ← w.patch delta enc
  let w := { w with lastApplied := some seq, pending := w.pending.filter fun n _ => seq < n }
  let (final, applied) := w.drain enc
  return (final, ⟨delta.kind, some seq, w.content⟩ :: applied)

/-- Takes in a delta. It is applied at once if it has no number, if it is the next one or the
first one, or if it replaces the whole content. A later one waits while there is room. -/
def apply (w : WorkingCopy) (delta : Delta) (seq : Option Nat) (enc : Encoding)
    (maxPending : Nat) : Except SyncError (WorkingCopy × List Applied) :=
  match seq, w.lastApplied with
  | none, _ => do
    let w ← w.patch delta enc
    return (w, [⟨delta.kind, none, w.content⟩])
  | some seq, none => w.advance delta seq enc
  | some seq, some last =>
    if seq ≤ last then .error (.staleDelta w.key.file seq last)
    else if last + 1 < seq ∧ delta.kind ≠ .replaceAll then
      if maxPending ≤ w.pending.size then .error (.sequenceGap w.key.file (last + 1) seq)
      else .ok ({ w with pending := w.pending.insert seq delta }, [])
    else w.advance delta seq enc

end WorkingCopy
end EditorSync

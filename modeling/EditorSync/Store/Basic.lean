import EditorSync.Message.EditorChanges
import EditorSync.Tracking
import EditorSync.Workspace.Shadows
import EditorSync.WorkingCopy.Basic
import EditorSync.Digest.Sha256

namespace EditorSync

open Text (Encoding)

structure Store.Settings where
  encoding : Encoding
  verifyOnStart : Bool
  persist : Bool
  maxPending : Nat
  deriving DecidableEq, Repr

structure Store where
  shadows : Shadows
  settings : Store.Settings
  copies : Table WorkingCopy.Key WorkingCopy
  tracking : Tracking
  unreported : List SyncError
  deriving DecidableEq, Repr

namespace Store

def Settings.default : Settings := ⟨.utf16, true, true, 64⟩

def new (shadows : Shadows) (settings : Settings) : Store := ⟨shadows, settings, .empty, .empty, []⟩

def workspace (s : Store) : Workspace := s.shadows.workspace

/-- A store with the disk that its shadows and the real files are on. -/
structure World where
  store : Store
  disk : Disk
  deriving DecidableEq, Repr

abbrev Action := ExceptT SyncError (StateM World)

structure Snapshot where
  key : WorkingCopy.Key
  owner : String
  content : String
  deriving DecidableEq, Repr

def Snapshot.of (w : WorkingCopy) : Snapshot := ⟨w.key, w.key.file, w.content⟩

inductive ApplyOutcome where
  | applied (steps : List (WorkingCopy.Applied × Snapshot))
  | buffered (seq : Nat)
  | skipped
  deriving DecidableEq, Repr

def modifyStore (f : Store → Store) : Action Unit :=
  modify fun w => { w with store := f w.store }

def modifyTracking (f : Tracking → Tracking) : Action Unit :=
  modifyStore fun s => { s with tracking := f s.tracking }

def putCopy (copy : WorkingCopy) : Action Unit :=
  modifyStore fun s => { s with copies := s.copies.insert copy.key copy }

def note (s : Store) : Except SyncError Unit → Store
  | .ok () => s
  | .error e => { s with unreported := s.unreported ++ [e] }

def attempt (effect : Store → Disk → Shadows.Effect) : Action Unit :=
  modify fun w =>
    let (disk, result) := effect w.store w.disk
    ⟨w.store.note result, disk⟩

def perform (effect : Store → Disk → Shadows.Effect) : Action Unit := do
  let w ← get
  let (disk, result) := effect w.store w.disk
  set { w with disk := disk }
  MonadExcept.ofExcept result

def query {α : Type} (f : Store → Disk → Except SyncError α) : Action α := do
  let w ← get
  MonadExcept.ofExcept (f w.store w.disk)

def key (s : Store) (disk : Disk) (path : String) : Except SyncError WorkingCopy.Key := do
  let file ← Workspace.normalize path
  let _ ← s.workspace.realPath disk file
  let project ← s.workspace.projectOf disk file
  return ⟨project, file⟩

def keyOf (path : String) : Action WorkingCopy.Key := query fun s disk => s.key disk path

def persist (copy : WorkingCopy) : Action Unit := do
  if (← get).store.settings.persist then
    attempt fun s disk => s.shadows.write disk copy.key.project copy.key.file copy.content

def initialContent (s : Store) (disk : Disk) (key : WorkingCopy.Key) :
    Except SyncError (String × Bool) := do
  let shadow ← if s.settings.persist then s.shadows.read disk key.project key.file else .ok none
  match shadow with
  | some content => return (content, true)
  | none =>
    let real ← s.shadows.readReal disk key.file
    return (real.getD "", false)

/-- The working copy of a file. A new one starts with the shadow, or else the real file. -/
def getOrCreate (key : WorkingCopy.Key) : Action WorkingCopy := do
  match (← get).store.copies.get? key with
  | some copy => return copy
  | none =>
    let (content, fromShadow) ← query fun s disk => s.initialContent disk key
    let copy := WorkingCopy.new key content
    unless fromShadow do persist copy
    putCopy copy
    return copy

def discard (key : WorkingCopy.Key) : Action (Option WorkingCopy) := do
  match (← get).store.copies.get? key with
  | none => return none
  | some copy =>
    modifyStore fun s => { s with copies := s.copies.erase key }
    if (← get).store.settings.persist then
      attempt fun s disk => s.shadows.remove disk key.project key.file
    return some { copy with discarded := true }

/-- Begins to track a file. Its numbering starts anew, and if the settings ask for it, its
content is that of the real file. -/
def start (path : String) : Action Snapshot := do
  let key ← keyOf path
  modifyTracking (·.start key.file)
  let copy ← getOrCreate key
  let verify := (← get).store.settings.verifyOnStart
  let real ← if verify then query fun s disk => s.shadows.readReal disk key.file else pure none
  let copy ← match real with
    | some text =>
      if Digest.Sha256.hex text = Digest.Sha256.hex copy.content then pure copy
      else do
        let fresh := copy.reset text
        persist fresh
        pure fresh
    | none => pure copy
  let copy := copy.resetSequence
  putCopy copy
  return Snapshot.of copy

def stop (path : String) : Action Unit := do
  let key ← keyOf path
  modifyTracking (·.stop key.file)
  let _ ← discard key

def suspend (path : String) : Action Unit := do
  let file ← query fun _ _ => Workspace.normalize path
  modifyTracking (·.suspend file)

def resume (path : String) : Action Unit := do
  let file ← query fun _ _ => Workspace.normalize path
  modifyTracking (·.resume file)

def move (old new : String) : Action (Option Snapshot) := do
  let oldKey ← keyOf old
  let newKey ← keyOf new
  modifyTracking (·.rename oldKey.file newKey.file)
  match (← get).store.copies.get? oldKey with
  | none => return none
  | some copy =>
    let moved := { copy with key := newKey }
    modifyStore fun s => { s with copies := (s.copies.erase oldKey).insert newKey moved }
    if (← get).store.settings.persist then
      attempt fun s disk =>
        s.shadows.rename disk oldKey.project oldKey.file newKey.project newKey.file
    return some (Snapshot.of moved)

def ownerOf (changes : EditorChanges) (file : String) : String :=
  if changes.owner = "" then file else changes.owner

def apply (changes : EditorChanges) : Action ApplyOutcome := do
  let delta ← MonadExcept.ofExcept changes.toDelta
  let key ← keyOf changes.file
  let project ← query fun _ _ => Workspace.normalize changes.project
  if project ≠ key.project then throw (.projectResolution key.file)
  if !(← get).store.tracking.acceptsDeltas key.file then return .skipped
  let copy ← getOrCreate key
  if copy.discarded then return .skipped
  let settings := (← get).store.settings
  let (copy, applied) ←
    MonadExcept.ofExcept (copy.apply delta changes.seq settings.encoding settings.maxPending)
  putCopy copy
  if applied.isEmpty then return .buffered (changes.seq.getD 0)
  persist copy
  let owner := ownerOf changes key.file
  return .applied (applied.map fun a => (a, ⟨key, owner, a.content⟩))

def snapshot (path : String) : Action Snapshot := do
  let key ← keyOf path
  match (← get).store.copies.get? key with
  | some copy => return Snapshot.of copy
  | none => throw (.unknownWorkingCopy key.file)

def discardFile (path : String) : Action Bool := do
  let key ← keyOf path
  modifyTracking (·.stop key.file)
  return (← discard key).isSome

def discardProject (project : String) : Action (List String) := do
  let project ← query fun _ _ => Workspace.normalize project
  let removed := (← get).store.copies.filter fun key _ => key.project = project
  modifyStore fun s => { s with copies := s.copies.filter fun key _ => key.project ≠ project }
  modifyTracking (·.removeUnder project)
  perform fun s disk => s.shadows.removeProject disk project
  return (removed.entries.map fun (_, copy) => copy.key.file).mergeSort (fun a b => a ≤ b)

def trackingState? (s : Store) (path : String) : Option Tracking.State :=
  (Path.normalize? path).bind s.tracking.state?

def content? (s : Store) (disk : Disk) (path : String) : Option String :=
  match s.key disk path with
  | .ok key => (s.copies.get? key).map (·.content)
  | .error _ => none

def Action.perform {α : Type} (action : Action α) (w : World) : Except SyncError α × World :=
  action.run w

end Store
end EditorSync

import EditorSync.Message.FileOperation
import EditorSync.Reconcile.Engine
import EditorSync.Rpc.Message
import EditorSync.Store.Basic

namespace EditorSync.Tracker

open Reconcile (Job)
open Rpc (Notification)
open Session (Event)
open Store (World Snapshot)

inductive Output where
  | event (event : Event)
  | dispatch (file : String) (job : Job)
  deriving DecidableEq, Repr

structure State where
  world : World
  outputs : List Output

abbrev Action := ExceptT SyncError (StateM State)

def emit (output : Output) : Action Unit :=
  modify fun s => { s with outputs := s.outputs ++ [output] }

def onStore {α : Type} (action : Store.Action α) : Action α := do
  let s ← get
  let (result, world) := action.perform s.world
  set { s with world := world }
  MonadExcept.ofExcept result

def submit (snapshot : Snapshot) : Action Unit := do
  let real ← onStore (Store.query fun s disk => s.workspace.realPath disk snapshot.key.file)
  let request : Reconcile.Request :=
    ⟨snapshot.key.project, snapshot.key.file, real, snapshot.content⟩
  emit (.dispatch request.file (.pass request snapshot.owner))

def release (path : String) : Action Unit := do
  let file ← onStore (Store.query fun _ _ => Workspace.normalize path)
  emit (.dispatch file .release)

def report (steps : List (WorkingCopy.Applied × Snapshot)) : Action Unit := do
  for (applied, snapshot) in steps do
    emit (.event (.deltaApplied snapshot.key.file applied.kind.name applied.seq
      applied.content.utf8ByteSize))
    submit snapshot

def onChanges (changes : EditorChanges) : Action Unit := do
  match ← onStore (Store.apply changes) with
  | .applied steps => report steps
  | .buffered seq => emit (.event (.deltaBuffered changes.file seq))
  | .skipped => return

def onOperation (op : FileOperation) : Action Unit := do
  match op.kind with
  | .start => submit (← onStore (Store.start op.path))
  | .stop =>
    onStore (Store.stop op.path)
    release op.path
  | .suspend => onStore (Store.suspend op.path)
  | .resume => onStore (Store.resume op.path)
  | .move =>
    match op.oldPath with
    | none => throw (.invalidEnvelope s!"move to {op.path} without oldPath")
    | some old =>
      if (← onStore (Store.move old op.path)).isSome then release old
  | .delete =>
    let _ ← onStore (Store.discardFile op.path)
    release op.path
  emit (.event (.tracking op.path op.kind.name op.oldPath))

def onProjectRemoved (removed : ProjectRemoved) : Action Unit := do
  for file in ← onStore (Store.discardProject removed.project) do
    emit (.dispatch file .release)
    emit (.event (.tracking file FileOperation.Kind.delete.name none))

def onReconcile (request : ReconcileRequest) : Action Unit := do
  let store := (← get).world.store
  if store.trackingState? request.path = some .suspended then return
  let snapshot ← onStore (Store.snapshot request.path)
  submit { snapshot with owner := request.owner.getD snapshot.owner }

inductive Message where
  | changes (m : EditorChanges)
  | operation (m : FileOperation)
  | reconcile (m : ReconcileRequest)
  | projectRemoved (m : ProjectRemoved)

def Message.path : Message → String
  | changes m => m.file
  | operation m => m.path
  | reconcile m => m.path
  | projectRemoved m => m.project

def Message.of? (n : Notification) : Option (Except SyncError Message) :=
  let read {α : Type} (d : Json.Decoder α) (f : α → Message) : Except SyncError Message :=
    match Json.decode? d n.params with
    | some m => .ok (f m)
    | none => .error (.invalidEnvelope s!"bad {n.method} params: unexpected value")
  if n.method = EditorChanges.method then some (read EditorChanges.decoder changes)
  else if n.method = FileOperation.method then some (read FileOperation.decoder operation)
  else if n.method = ReconcileRequest.method then some (read ReconcileRequest.decoder reconcile)
  else if n.method = ProjectRemoved.method then some (read ProjectRemoved.decoder projectRemoved)
  else none

def onMessage : Message → Action Unit
  | .changes m => onChanges m
  | .operation m => onOperation m
  | .reconcile m => onReconcile m
  | .projectRemoved m => onProjectRemoved m

def rejection (path : Option String) (e : SyncError) : Output :=
  .event (.rejected path e.kind e.message)

def handle (w : World) (n : Notification) : World × List Output :=
  match Message.of? n with
  | none => (w, [])
  | some (.error e) => (w, [rejection none e])
  | some (.ok m) =>
    match (onMessage m).run ⟨w, []⟩ with
    | (.ok (), s) => (s.world, s.outputs)
    | (.error e, s) => (s.world, s.outputs ++ [rejection (some m.path) e])

end EditorSync.Tracker

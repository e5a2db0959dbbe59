import EditorSync.Rpc.Line
import EditorSync.Tracker.Basic

namespace EditorSync.Endpoint

open Reconcile (Engine Pass Schedule)
open Rpc (Notification)
open Session (Event)
open Store (World)
open Text (Bytes)

structure Service (σ : Type) where
  world : World
  schedule : Schedule
  engine : σ
  connections : Nat
  log : List Event

variable {σ : Type}

namespace Service

def new (world : World) (engine : σ) : Service σ := ⟨world, .empty, engine, 0, []⟩

def withDisk (s : Service σ) (disk : Disk) : Service σ :=
  { s with world := { s.world with disk := disk } }

def record (s : Service σ) (events : List Event) : Service σ := { s with log := s.log ++ events }

def accept (s : Service σ) (outputs : List Tracker.Output) : Service σ :=
  outputs.foldl (fun s output =>
    match output with
    | .event e => s.record [e]
    | .dispatch file job => { s with schedule := s.schedule.dispatch file job }) s

def settle (engine : Engine σ) (s : Service σ) : Service σ × List ReconcileState :=
  let (schedule, state, passes) := Reconcile.settle engine s.schedule s.engine
  ({ s with schedule := schedule, engine := state }.record (passes.map Pass.event),
    passes.filterMap Pass.state)

def handle (engine : Engine σ) (s : Service σ) (n : Notification) :
    Service σ × List ReconcileState :=
  let (world, outputs) := Tracker.handle s.world n
  ({ s with world := world }.accept outputs).settle engine

def malformed : Event :=
  .rejected none "invalid_envelope" s!"{Rpc.malformedMessage}: unreadable"

def handleLine (engine : Engine σ) (s : Service σ) (line : String) :
    Service σ × List ReconcileState :=
  match Rpc.Line.ofText line with
  | .blank => (s, [])
  | .malformed => (s.record [malformed], [])
  | .notification n => s.handle engine n

def handleLines (engine : Engine σ) : Service σ → List Bytes → Service σ × List ReconcileState
  | s, [] => (s, [])
  | s, line :: rest =>
    match Text.decode? line with
    | none => (s, [])
    | some text =>
      let (s, results) := s.handleLine engine text
      let (s, more) := handleLines engine s rest
      (s, results ++ more)

def resultLine (r : ReconcileState) : Json :=
  (Notification.of ReconcileState.method r.toJson).toJson

def connect (engine : Engine σ) (s : Service σ) (stream : Bytes) :
    Service σ × List ReconcileState :=
  let name := s!"endpoint-{s.connections + 1}"
  let s := { s with connections := s.connections + 1 }.record [.endpointConnected name]
  let (s, results) := s.handleLines engine (Text.byteLines stream)
  (s.record [.endpointDisconnected name], results)

end Service
end EditorSync.Endpoint

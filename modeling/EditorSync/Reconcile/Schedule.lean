import EditorSync.Reconcile.Diagnostic
import EditorSync.Table

namespace EditorSync.Reconcile

structure Request where
  project : String
  file : String
  real : String
  content : String
  deriving DecidableEq, Repr

inductive Job where
  | pass (request : Request) (owner : String)
  | release
  deriving DecidableEq, Repr

structure Ticket where
  number : Nat
  job : Job
  deriving DecidableEq, Repr

inductive Worker.Phase where
  | idle
  | busy (ticket : Ticket)
  | retiring
  deriving DecidableEq, Repr

structure Worker where
  file : String
  phase : Worker.Phase
  queue : List Ticket
  deriving DecidableEq, Repr

/-- The running workers by number, and for each file the worker that takes its jobs. -/
structure Schedule where
  workers : Table Nat Worker
  registered : Table String Nat
  nextWorker : Nat
  nextTicket : Nat
  deriving DecidableEq, Repr

namespace Schedule

def empty : Schedule := ⟨.empty, .empty, 0, 0⟩

def dispatch (s : Schedule) (file : String) (job : Job) : Schedule :=
  let ticket : Ticket := ⟨s.nextTicket, job⟩
  let s := { s with nextTicket := s.nextTicket + 1 }
  match (s.registered.get? file).bind fun id => (s.workers.get? id).map (id, ·) with
  | some (id, worker) =>
    { s with workers := s.workers.insert id { worker with queue := worker.queue ++ [ticket] } }
  | none =>
    { s with
      workers := s.workers.insert s.nextWorker ⟨file, .idle, [ticket]⟩
      registered := s.registered.insert file s.nextWorker
      nextWorker := s.nextWorker + 1 }

def receive (s : Schedule) (id : Nat) : Option (Schedule × Worker × Ticket) :=
  match s.workers.get? id with
  | some ⟨file, .idle, ticket :: queue⟩ =>
    let worker : Worker := ⟨file, .busy ticket, queue⟩
    some ({ s with workers := s.workers.insert id worker }, worker, ticket)
  | _ => none

def finish (s : Schedule) (id : Nat) : Schedule :=
  match s.workers.get? id with
  | some ⟨file, .busy ⟨_, .release⟩, queue⟩ =>
    { s with workers := s.workers.insert id ⟨file, .retiring, queue⟩ }
  | some ⟨file, .busy ⟨_, .pass ..⟩, queue⟩ =>
    { s with workers := s.workers.insert id ⟨file, .idle, queue⟩ }
  | _ => s

def retire (s : Schedule) (id : Nat) : Schedule :=
  match s.workers.get? id with
  | some ⟨file, .retiring, []⟩ =>
    { s with
      workers := s.workers.erase id
      registered := if s.registered.get? file = some id then s.registered.erase file
        else s.registered }
  | some ⟨file, .retiring, queue⟩ => { s with workers := s.workers.insert id ⟨file, .idle, queue⟩ }
  | _ => s

def next? (s : Schedule) : Option Nat :=
  let waiting := s.workers.entries.filterMap fun (id, w) =>
    match w.phase, w.queue with
    | .idle, ticket :: _ => some (ticket.number, id)
    | _, _ => none
  (waiting.foldl (fun best w =>
    match best with
    | none => some w
    | some b => if w.1 < b.1 then some w else some b) none).map (·.2)

def waiting (s : Schedule) : Nat := (s.workers.entries.flatMap fun (_, w) => w.queue).length

end Schedule
end EditorSync.Reconcile

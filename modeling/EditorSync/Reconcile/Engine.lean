import EditorSync.Reconcile.Schedule
import EditorSync.Session.Event

namespace EditorSync.Reconcile

open Session (Event)

abbrev Failure := List String

structure Engine (σ : Type) where
  reconcile : σ → Request → Except Failure Outcome × σ
  release : σ → String → σ

def Engine.idle {σ : Type} : Engine σ := ⟨fun s _ => (.ok .empty, s), fun s _ => s⟩

structure Pass where
  event : Event
  state : Option ReconcileState
  deriving DecidableEq, Repr

def Pass.of (request : Request) (owner : String) : Except Failure Outcome → Pass
  | .error causes => ⟨.reconcileFailed request.file (": ".intercalate causes), none⟩
  | .ok outcome =>
    let state : ReconcileState :=
      ⟨owner, outcome.diagnostics.map (·.toProblem request.file), outcome.highlights⟩
    ⟨.reconciled request.file owner state.problems.length state.highlights.length 0, some state⟩

variable {σ : Type}

def runJob (engine : Engine σ) (s : Schedule) (state : σ) (id : Nat) :
    Schedule × σ × Option Pass :=
  match s.receive id with
  | none => (s, state, none)
  | some (s, worker, ticket) =>
    match ticket.job with
    | .release => ((s.finish id).retire id, engine.release state worker.file, none)
    | .pass request owner =>
      let (outcome, state) := engine.reconcile state request
      (s.finish id, state, some (Pass.of request owner outcome))

/-- Does all jobs that wait, in the order of dispatch. The fuel is their number. -/
def settleWith (engine : Engine σ) : Nat → Schedule → σ → Schedule × σ × List Pass
  | 0, s, state => (s, state, [])
  | fuel + 1, s, state =>
    match s.next? with
    | none => (s, state, [])
    | some id =>
      let (s, state, pass) := runJob engine s state id
      let (s, state, passes) := settleWith engine fuel s state
      (s, state, pass.toList ++ passes)

def settle (engine : Engine σ) (s : Schedule) (state : σ) : Schedule × σ × List Pass :=
  settleWith engine s.waiting s state

end EditorSync.Reconcile

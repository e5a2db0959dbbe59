import EditorSync.Table

namespace EditorSync

inductive Tracking.State where
  | started
  | suspended
  deriving DecidableEq, Repr

structure Tracking.Session where
  path : String
  state : Tracking.State
  deriving DecidableEq, Repr

structure Tracking where
  sessions : Table String Tracking.Session
  deriving DecidableEq, Repr

namespace Tracking

def State.name : State → String
  | started => "started"
  | suspended => "suspended"

def empty : Tracking := ⟨.empty⟩

def session? (t : Tracking) (path : String) : Option Session := t.sessions.get? path

def state? (t : Tracking) (path : String) : Option State := (t.session? path).map (·.state)

def isTracked (t : Tracking) (path : String) : Bool := t.sessions.contains path

/-- Only a suspended file refuses deltas. A file nobody announced takes them. -/
def acceptsDeltas (t : Tracking) (path : String) : Bool := t.state? path ≠ some .suspended

def start (t : Tracking) (path : String) : Tracking := ⟨t.sessions.insert path ⟨path, .started⟩⟩

def stop (t : Tracking) (path : String) : Tracking := ⟨t.sessions.erase path⟩

def setState (t : Tracking) (path : String) (state : State) : Tracking :=
  ⟨t.sessions.modify path fun session => { session with state := state }⟩

def suspend (t : Tracking) (path : String) : Tracking := t.setState path .suspended

def resume (t : Tracking) (path : String) : Tracking := t.setState path .started

def rename (t : Tracking) (old new : String) : Tracking :=
  match t.session? old with
  | none => t
  | some session => ⟨(t.sessions.erase old).insert new { session with path := new }⟩

/-- Whether a path is another one or goes on below it. Slashes at the end of the other one do
not count. -/
def isUnder (dir path : String) : Bool :=
  let stem := (dir.toList.reverse.dropWhile (· = '/')).reverse ++ ['/']
  path == dir || stem.isPrefixOf path.toList

def removeUnder (t : Tracking) (dir : String) : Tracking :=
  ⟨t.sessions.filter fun path _ => !isUnder dir path⟩

def paths (t : Tracking) : List String := t.sessions.keys.mergeSort (fun a b => a ≤ b)

end Tracking
end EditorSync

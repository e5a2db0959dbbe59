import EditorSync.Disk.Edit
import EditorSync.Session.Info
import EditorSync.Session.Stats

namespace EditorSync.Session

open Text (Bytes)

inductive Fault where
  | unreadable (path : String)
  | noSession (id : String)
  | notText
  deriving DecidableEq, Repr

def Fault.message : Fault → String
  | unreadable path => s!"Failed to parse {path}"
  | noSession id => s!"Session not found: {id}"
  | notText => "stream did not contain valid UTF-8"

structure Directory where
  home : String
  isAlive : Nat → Bool

namespace Directory

variable (d : Directory)

def dirOf (id : String) : String := Path.append d.home id

def socketOf (id : String) : String := Path.append (d.dirOf id) "sync.sock"

def infoFile (dir : String) : String := Path.append dir "info.json"

def logFile (id : String) : String := Path.append (d.dirOf id) "events.jsonl"

def load (disk : Disk) (dir : String) : Disk × Except Fault (Option Info) :=
  let file := infoFile dir
  if !disk.isThere file then (disk, .ok none)
  else
    match (disk.readText file).toOption.bind Info.ofText? with
    | none => (disk, .error (.unreadable file))
    | some info =>
      if d.isAlive info.pid then (disk, .ok (some info))
      else ((disk.removeDirs dir).toOption.getD disk, .ok none)

def loadAll : Disk → List String → Disk × List Info
  | disk, [] => (disk, [])
  | disk, dir :: rest =>
    let (disk, found) := d.load disk dir
    let (disk, others) := loadAll disk rest
    match found with
    | .ok (some info) => (disk, info :: others)
    | _ => (disk, others)

def sessions (disk : Disk) : Disk × List Info :=
  let (disk, found) := d.loadAll disk ((disk.list d.home).map fun (name, _) => d.dirOf name)
  (disk, found.mergeSort fun a b => !a.startedAt.isBefore b.startedAt)

def get (disk : Disk) (id : String) : Disk × Except Fault (Option Info) :=
  d.load disk (d.dirOf id)

def widest : List Info → Option Info
  | [] => none
  | info :: rest =>
    match widest rest with
    | none => some info
    | some other =>
      if other.workspace.utf8ByteSize < info.workspace.utf8ByteSize then some info else some other

def choose (sessions : List Info) (path : String) : Option Info :=
  widest (sessions.filter fun info => Path.contains info.workspace path)

def find (disk : Disk) (path : String) : Disk × Option Info :=
  let (disk, found) := d.sessions disk
  (disk, choose found path)

def log (disk : Disk) (id : String) : Except Fault Bytes :=
  match disk.read (d.logFile id) with
  | .ok log => .ok log
  | .error _ => .error (.noSession id)

def entries (disk : Disk) (id : String) : Except Fault (List Entry) :=
  (d.log disk id).map Session.entries

def stats (disk : Disk) (id : String) : Stats :=
  match d.entries disk id with
  | .ok found => .ofEvents (found.map (·.event))
  | .error _ => .empty

end Directory
end EditorSync.Session

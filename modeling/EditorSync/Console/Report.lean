import EditorSync.Config.Basic
import EditorSync.Console.Command
import EditorSync.Console.EventLine
import EditorSync.Editor.Transmitter
import EditorSync.Pattern.Parser
import EditorSync.Session.Directory
import EditorSync.Session.Tail
import EditorSync.Workspace.Basic

namespace EditorSync.Console

open Session (Directory Entry Info)
open Text (Encoding)
open Time (Timestamp)

structure Setting where
  sessions : Directory
  settingsFile : String
  environment : List (String × String)
  directory : String
  width : Nat
  isTerminal : Bool
  now : Timestamp
  zone : Time.Zone

structure Report where
  disk : Disk
  out : List String
  err : List String
  sent : List (String × String)

abbrev Action := ExceptT String (StateM Report)

namespace Report

def new (disk : Disk) : Report := ⟨disk, [], [], []⟩

variable (s : Setting)

def print (lines : List String) : Action Unit :=
  modify fun r => { r with out := r.out ++ lines }

def warn (lines : List String) : Action Unit :=
  modify fun r => { r with err := r.err ++ lines }

def onDisk {α : Type} (f : Disk → Disk × α) : Action α :=
  modifyGet fun r => let (disk, a) := f r.disk; (a, { r with disk := disk })

def ofSync {α : Type} : Except SyncError α → Action α
  | .ok a => return a
  | .error e => throw e.message

def ofSession {α : Type} : Except Session.Fault α → Action α
  | .ok a => return a
  | .error f => throw f.message

def ofConfig {α : Type} : Except Config.Fault α → Action α
  | .ok a => return a
  | .error f => throw f.message

def sessions : Action (List Info) := onDisk s.sessions.sessions

def byName (id : String) : Action Info := do
  match ← ofSession (← onDisk fun disk => s.sessions.get disk id) with
  | some info => return info
  | none =>
    match (← sessions s).filter fun info => id.toList.isPrefixOf info.id.toList with
    | [] => throw s!"No session found matching '{id}'"
    | [info] => return info
    | several =>
      warn (s!"Multiple sessions match '{id}':" :: several.map fun info => "  " ++ info.id)
      throw "Please specify a more complete session ID"

def resolve (id : String) : Action Info := do
  match Config.wordOfText? id with
  | some (row + 1) =>
    let all ← sessions s
    match all[row]? with
    | some info => return info
    | none =>
      try byName s id
      catch _ => throw s!"Row number {row + 1} out of range (1-{all.length})"
  | _ => byName s id

def sessionFor (path : String) : Option String → Action Info
  | some id => resolve s id
  | none => do
    let found ← onDisk fun disk =>
      s.sessions.find disk ((disk.canonical? path).getD path)
    match found with
    | some info => return info
    | none => throw s!"No running session contains {path}"

def workspaceOf (info : Info) : Action Workspace := do
  let disk := (← get).disk
  match info.projects with
  | some projects => ofSync (Workspace.withProjects disk info.workspace projects)
  | none => return Workspace.ofRoot disk info.workspace

def workspacePath (w : Workspace) (path : String) : Action String := do
  ofSync (w.workspacePath (← get).disk path)

def send (info : Info) (line : String) : Action Unit :=
  modify fun r => { r with sent := r.sent ++ [(s.sessions.socketOf info.id, line)] }

def listing : Action Unit := do
  match ← sessions s with
  | [] => print ["No active Tandem sessions"]
  | infos =>
    let columns := Columns.ofWidth s.width
    print [columns.line "#" "ID" "PID" "WORKSPACE" "ENCODING" "STARTED",
      "".pushn '-' (min s.width 120)]
    print (infos.mapIdx fun i info =>
      columns.line (Nat.repr (i + 1)) (truncate info.id columns.id) (Nat.repr info.pid)
        (truncate info.workspace columns.workspace) (info.offsetEncoding.getD "-")
        (ago (s.now.millis - info.startedAt.millis)))

def status (id : String) : Action Unit := do
  let info ← resolve s id
  let disk := (← get).disk
  let stats := s.sessions.stats disk info.id
  let startedAt := info.startedAt.inZone s.zone
  let started := s!"{startedAt.dateText} {startedAt.clock}"
  print [s!"Session: {info.id}", s!"PID: {info.pid}", s!"Workspace: {info.workspace}",
    s!"Started: {started} ({ago (s.now.millis - info.startedAt.millis)})"]
  print (info.offsetEncoding.toList.map ("Offset encoding: " ++ ·))
  print [s!"Deltas: {stats.applied} applied, {stats.rejected} rejected; " ++
    s!"{stats.reconciled} reconcile results"]
  if stats.languages ≠ [] then
    print ["Language servers: " ++ ", ".intercalate stats.languages]
  print ["", s!"Tracked files ({stats.tracked.length}):"]
  print (stats.tracked.map ("  " ++ ·))
  print ["", "Recent events:"]
  let entries ← ofSession (s.sessions.entries disk info.id)
  print ((entries.drop (entries.length - 10)).map fun e => eventLine s.zone e false s.width)

def rawLines (zone : Time.Zone) (e : Entry) : List String :=
  s!"[{(e.timestamp.inZone zone).clock}] {e.event.toJson.pretty}".splitOn "\n"

structure Watch where
  id : String
  raw : Bool
  colours : Bool
  filter : Option Pattern

def Watch.lines (w : Watch) (zone : Time.Zone) (width : Nat) (e : Entry) : List String :=
  if !w.filter.all fun p => p.isIn e.event.toJson.compact then []
  else if w.raw then rawLines zone e
  else [eventLine zone e w.colours width]

def watch (id : String) (raw noColour : Bool) (filter : Option String) : Action Watch := do
  let info ← resolve s id
  let filter ← match filter with
    | none => pure none
    | some text =>
      match Pattern.parse? text with
      | some p => pure (some p)
      | none => throw "Invalid filter regex: regex parse error:"
  print [s!"Monitoring session {info.id} (Ctrl+C to stop)", ""]
  return ⟨info.id, raw, usesColour noColour s.isTerminal, filter⟩

def sessionEnd : List String := ["", "Session ended"]

def replay (w : Watch) : Action Unit := do
  let log ← ofSession (s.sessions.log (← get).disk w.id)
  let (entries, isText) := Session.Tail.replay log
  print (entries.flatMap (w.lines s.zone s.width))
  if !isText then throw Session.Fault.notText.message
  print sessionEnd

def track (kind : FileOperation.Kind) (path : String) (oldPath session : Option String) :
    Action Unit := do
  let path := Path.absolute s.directory path
  let info ← sessionFor s path session
  let w ← workspaceOf info
  let oldPath ← match kind, oldPath with
    | .move, some old => some <$> workspacePath w (Path.absolute s.directory old)
    | .move, none => throw "move requires --old-path"
    | _, _ => pure none
  let operation : FileOperation := ⟨kind, ← workspacePath w path, oldPath⟩
  send s info (Editor.Transmitter.operationLine operation)
  print [s!"{kind.name} {operation.path} -> {info.id}"]

def push (path : String) (session : Option String) : Action Unit := do
  let path := Path.absolute s.directory path
  let text ← match (← get).disk.readText path with
    | .ok text => pure text
    | .error _ => throw s!"Failed to read {path}"
  let info ← sessionFor s path session
  let w ← workspaceOf info
  let file ← workspacePath w path
  let project ← ofSync (w.projectOf (← get).disk file)
  let encoding := (info.offsetEncoding.bind Encoding.ofName?).getD .utf16
  let changes := EditorChanges.ofDelta (.replaceAll text) ⟨file, project, file⟩ encoding none
  send s info (Editor.Transmitter.changesLine changes)
  print [s!"pushed {file} -> {info.id}"]

end Report
end EditorSync.Console

import EditorSync.Console.Run
import EditorSync.Disk.Changes
import EditorSync.Disk.Edit
import EditorSync.Session.Basic
import Std.Time.Zoned.Database

namespace EditorSync.Main

open Console (Command Hosted Outcome Report Setting)
open LanguageServer (Host State)
open Session (Active Tail)
open Time (Timestamp)

def now : IO Timestamp := do
  let t ← Std.Time.Timestamp.now
  return ⟨t.toSecondsSinceUnixEpoch.val, t.val.nano.val.toNat⟩

def zone : IO Time.Zone := do
  try
    let rules ← Std.Time.Database.defaultGetLocalZoneRules
    return fun seconds =>
      (rules.findLocalTimeTypeForTimestamp (.ofSecondsSinceUnixEpoch ⟨seconds⟩)).gmtOffset.second.val
  catch _ => return .utc

def pathExists (path : String) : IO Bool :=
  try let _ ← IO.FS.realPath path; return true
  catch _ => return false

def steps (place : List String) : List (List String) :=
  (List.range (place.length + 1)).map place.take

partial def gather (whole : Bool) (disk : Disk) (place : List String) : IO Disk := do
  try
    let real ← IO.FS.realPath (Path.ofNames place)
    if real.toString ≠ Path.ofNames place then
      let disk ← (steps (Path.names real.toString)).foldlM (gather false) disk
      return disk.put place (.link real.toString)
    match (← real.metadata).type with
    | .dir =>
      let disk := if place = [] then disk else disk.put place .dir
      if whole then
        (← real.readDir).foldlM (fun disk e => gather true disk (place ++ [e.fileName])) disk
      else return disk
    | .file => return disk.put place (.file (← IO.FS.readBinFile real).data.toList)
    | _ => return disk.put place (.file [])
  catch _ => return disk

def gatherPath (whole : Bool) (disk : Disk) (path : String) : IO Disk := do
  let place := Path.names path
  let disk ← (steps place.dropLast).foldlM (gather false) disk
  gather whole (if whole then disk.removeTree place else disk) place

def attempt (action : IO Unit) : IO Unit :=
  try action
  catch _ => return

def store (old new : Disk) : IO Unit := do
  for place in old.gone new do
    let path := Path.ofNames place
    attempt (try IO.FS.removeFile path catch _ => IO.FS.removeDir path)
  for (place, entry) in old.fresh new do
    let path := Path.ofNames place
    match entry with
    | .dir => attempt (IO.FS.createDirAll path)
    | .file content => attempt (IO.FS.writeBinFile path ⟨content.toArray⟩)
    | .link _ => pure ()

def homeDir (name fallback : String) : IO String := do
  match (← IO.getEnv name).filter Path.isAbsolute with
  | some dir => return dir
  | none => return Path.append ((← IO.getEnv "HOME").getD "/") fallback

def environment : IO (List (String × String)) := do
  let entries := (← IO.FS.readBinFile "/proc/self/environ").data.toList.splitOn 0
  return (entries.filterMap Text.decode?).map fun entry =>
    let name := entry.toList.takeWhile (· ≠ '=')
    (String.ofList name, String.ofList (entry.toList.drop (name.length + 1)))

def ownPid : IO Nat := do
  return ((← IO.FS.realPath "/proc/self").fileName.bind String.toNat?).getD 0

def livePids : IO (List Nat) := do
  return (← (← IO.FS.realPath "/proc").readDir).toList.filterMap (·.fileName.toNat?)

def setting : IO Setting := do
  let alive ← livePids
  let state ← homeDir "XDG_STATE_HOME" ".local/state"
  let config ← homeDir "XDG_CONFIG_HOME" ".config"
  return {
    sessions := ⟨Path.append state "tandem/sessions", alive.contains⟩
    settingsFile := Path.append config "tandem/config.toml"
    environment := ← environment
    directory := (← IO.currentDir).toString
    width := 80
    isTerminal := ← (← IO.getStdout).isTty
    now := ← now
    zone := ← zone }

def load (s : Setting) (words : List String) : IO Disk := do
  let known ← gatherPath true .empty s.sessions.home
  let workspaces := (s.sessions.sessions known).2.map (·.workspace)
  let named := words.map (Path.absolute s.directory)
  let disk ← (s.settingsFile :: s.directory :: workspaces ++ named).foldlM (gatherPath false)
    known
  match Command.request? words with
  | some (.run (.serve _ root _)) =>
    gatherPath true disk (Path.absolute s.directory (root.getD "."))
  | _ => return disk

def send (socket line : String) : IO Unit := attempt do
  if ← pathExists socket then
    (← IO.FS.Handle.mk socket .append).putStr line

partial def follow (s : Setting) (w : Report.Watch) (content : Text.Bytes) (t : Tail) :
    IO UInt32 := do
  let file := s.sessions.logFile w.id
  let isThere ← pathExists file
  let content ← if isThere then pure (← IO.FS.readBinFile file).data.toList else pure content
  match Tail.next ⟨content, isThere⟩ t with
  | (.entry e, t) =>
    (w.lines s.zone s.width e).forM (IO.println ·)
    follow s w content t
  | (.waiting, t) =>
    IO.sleep 100
    follow s w content t
  | (.failed, _) =>
    IO.eprintln s!"Error: {Session.Fault.notText.message}"
    return 1
  | (.ended, _) =>
    Report.sessionEnd.forM (IO.println ·)
    return 0

structure Server where
  hosted : Hosted
  service : Endpoint.Service (State Unit)
  active : Active
  written : Disk

namespace Server

def engine (v : Server) : Reconcile.Engine (State Unit) :=
  v.hosted.engine Host.barren v.active.info.pid fun _ => "UnexpectedChar"

def commit (v : Server) (s : Setting) (service : Endpoint.Service (State Unit)) : IO Server := do
  let time ← now
  let news := service.log.drop v.service.log.length
  let active := news.foldl (fun (a : Active) e => a.broadcast time e) v.active
  let disk := active.save s.sessions service.world.disk
  store v.written disk
  return { v with service := service.withDisk disk, active, written := disk }

partial def listen (v : Server) (s : Setting) (input : IO.FS.Stream) : IO Server := do
  let line ← input.getLine
  if line.isEmpty then return v
  let disk ← gatherPath true v.written v.hosted.workspace.root
  let (service, results) :=
    (v.service.withDisk disk).handleLines v.engine (Text.byteLines (Text.encode line))
  let v ← { v with written := disk }.commit s service
  results.forM fun r => IO.println (Endpoint.Service.resultLine r).compact
  listen v s input

end Server

def serve (s : Setting) (h : Hosted) (disk : Disk) : IO UInt32 := do
  let pid ← ownPid
  let active := Active.create (Session.newId s.now pid 0) pid h.workspace.root
    (some h.encoding.name) s.now
  let active := h.config.projects.elim active active.recordProjects
  let service := h.service disk ()
  let v ← (⟨h, service, active, disk⟩ : Server).commit s service
  let v ← v.listen s (← IO.getStdin)
  let disk ← gatherPath true v.written (s.sessions.dirOf v.active.info.id)
  store disk (v.active.remove s.sessions disk)
  return 0

end EditorSync.Main

open EditorSync Main in
def main (words : List String) : IO UInt32 := do
  let s ← setting
  let disk ← load s words
  let o := Console.start s words disk
  store disk o.report.disk
  o.report.sent.forM fun (socket, line) => send socket line
  o.report.out.forM (IO.println ·)
  o.report.err.forM (IO.eprintln ·)
  match o.task with
  | some (.watch w) => follow s w [] .start
  | some (.serve h) => serve s h o.report.disk
  | none => return o.code.toUInt32

import EditorSync.Console.Report
import EditorSync.Endpoint.Service
import EditorSync.LanguageServer.Engine

namespace EditorSync.Console

open Report (ofConfig ofSync)

def textAt? (disk : Disk) (path : String) : Option String := (disk.readText path).toOption

def isFile (disk : Disk) (path : String) : Bool := (disk.read path).toOption.isSome

def settingsText? (disk : Disk) (path : String) : Option String :=
  if isFile disk path then
    if Path.extension? path = some "toml" then textAt? disk path else none
  else textAt? disk (path ++ ".toml")

structure Hosted where
  config : Config
  workspace : Workspace

def prepare (s : Setting) (file root : Option String) (servers : List String) :
    Action Hosted := do
  let disk := (← get).disk
  let user := if disk.isThere s.settingsFile then [settingsText? disk s.settingsFile] else []
  let given := file.toList.map fun path => settingsText? disk (Path.absolute s.directory path)
  let loaded ← ofConfig (Config.load (user ++ given) s.environment)
  let config ← ofConfig (servers.foldlM Config.addServer loaded)
  let _ ← ofConfig config.encoding
  match disk.canonical? (Path.absolute s.directory (root.getD ".")) with
  | none => throw "Failed to resolve workspace root"
  | some root =>
    match config.projects with
    | none => return ⟨config, Workspace.ofRoot disk root⟩
    | some projects => return ⟨config, ← ofSync (Workspace.withProjects disk root projects)⟩

inductive Task where
  | serve (hosted : Hosted)
  | watch (w : Report.Watch)

def perform (s : Setting) : Command → Action (Option Task)
  | .serve file root servers => some <$> .serve <$> prepare s file root servers
  | .list => do Report.listing s; return none
  | .monitor id raw noColour filter => some <$> .watch <$> Report.watch s id raw noColour filter
  | .status id => do Report.status s id; return none
  | .track kind path oldPath session => do Report.track s kind path oldPath session; return none
  | .push path session => do Report.push s path session; return none

structure Outcome where
  code : Nat
  report : Report
  task : Option Task

def outcome (action : Action (Option Task)) (report : Report) : Outcome :=
  match action.run report with
  | (.ok task, report) => ⟨0, report, task⟩
  | (.error message, report) =>
    ⟨1, { report with err := report.err ++ ["Error: " ++ message] }, none⟩

def start (s : Setting) (words : List String) (disk : Disk) : Outcome :=
  match Command.request? words with
  | none => ⟨2, { Report.new disk with err := ["For more information, try '--help'."] }, none⟩
  | some .version => ⟨0, { Report.new disk with out := [Command.versionLine] }, none⟩
  | some (.explain m atLength) => ⟨0, { Report.new disk with out := m.page atLength }, none⟩
  | some (.run command) => outcome (perform s command) (.new disk)

def run (s : Setting) (words : List String) (disk : Disk) : Outcome :=
  match start s words disk with
  | ⟨0, report, some (.watch w)⟩ =>
    outcome (do Report.replay s w; return none) report
  | o => o

namespace Hosted

def encoding (h : Hosted) : Text.Encoding := (h.config.encoding.toOption).getD .utf16

def servers (h : Hosted) : List (String × String × Option Json) :=
  h.config.servers.map fun (language, command) => (language, command.program, command.options)

variable {σ : Type}

def engine (h : Hosted) (host : LanguageServer.Host σ) (pid : Nat) (refusal : String → String) :
    Reconcile.Engine (LanguageServer.State σ) :=
  if h.servers = [] then .idle
  else
    let u : LanguageServer.Setup σ :=
      ⟨host, h.servers, h.workspace.root, pid, h.encoding, refusal⟩
    u.engine

def service (h : Hosted) (disk : Disk) (host : σ) : Endpoint.Service (LanguageServer.State σ) :=
  let settings : Store.Settings :=
    ⟨h.encoding, h.config.verifyOnStart, h.config.persistCopies, h.config.maxPending⟩
  .new ⟨.new ⟨h.workspace, h.config.metadataDir⟩ settings, disk⟩ (.new host)

end Hosted
end EditorSync.Console

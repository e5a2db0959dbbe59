import EditorSync.Console.Manual
import EditorSync.Message.FileOperation

namespace EditorSync.Console

inductive Command where
  | serve (settings root : Option String) (servers : List String)
  | list
  | monitor (id : String) (raw noColour : Bool) (filter : Option String)
  | status (id : String)
  | track (kind : FileOperation.Kind) (path : String) (oldPath session : Option String)
  | push (path : String) (session : Option String)
  deriving DecidableEq, Repr

namespace Command

def settingsOption : Opt := ⟨"config", none, .path "CONFIG", false, "Path to configuration file"⟩

def sessionOption : Opt :=
  ⟨"session", none, .text "SESSION", false,
    "Session ID or row number. Defaults to the session whose workspace contains the file"⟩

def manualOf (name about : String) (operands : List Operand) (options : List Opt) : Manual where
  call := " ".intercalate (["tandem", name, "[OPTIONS]"] ++ operands.map (·.label))
  about := about
  commands := []
  operands := operands
  options := settingsOption :: options

def manuals : List (String × Manual) :=
  [("serve", "Host working copies for a workspace (default if no subcommand given)", [],
    [⟨"root", some 'r', .path "ROOT", false,
        "Workspace root. Defaults to the current directory"⟩,
      ⟨"server", some 's', .text "SERVERS", true,
        "Language servers in \"lang:command\" format (e.g., \"rust:rust-analyzer\"). " ++
          "Can be specified multiple times. These override/append to the config file"⟩]),
  ("list", "List active Tandem sessions", [], []),
  ("monitor", "Monitor events from a session",
    [⟨"ID", .text, "Session ID or row number (use 'tandem list' to see available sessions)"⟩],
    [⟨"raw", none, .flag, false, "Show raw JSON output"⟩,
      ⟨"nocolor", none, .flag, false, "Disable colored output"⟩,
      ⟨"filter", some 'f', .text "FILTER", false, "Filter events by regex pattern"⟩]),
  ("status", "Show status of a session", [⟨"ID", .text, "Session ID or row number"⟩], []),
  ("track", "Send a tracking event for a file to a running session",
    [⟨"ACTION", .choice [
        ("start", "An editor opened the file"),
        ("stop", "The editor closed the file"),
        ("suspend", "Ignore deltas until resumed"),
        ("resume", "Accept deltas again"),
        ("move", "The file was renamed"),
        ("delete", "The file was deleted")],
      "Lifecycle transition to send"⟩,
      ⟨"PATH", .path, "The file (the new path for \x60move\x60)"⟩],
    [⟨"old-path", none, .path "OLD_PATH", false, "Previous path, required for \x60move\x60"⟩,
      sessionOption]),
  ("push", "Send the file's on-disk content as a full snapshot",
    [⟨"PATH", .path, "The file to push"⟩], [sessionOption])].map
  fun (name, about, operands, options) => (name, manualOf name about operands options)

def overview : Manual where
  call := "tandem [OPTIONS] [COMMAND]"
  about := "Streams editor changes into server-side working copies"
  commands := manuals.map (fun (name, m) => (name, m.about)) ++
    [("help", "Print this message or the help of the given subcommand(s)")]
  operands := []
  options := [settingsOption]

def versionLine : String := "tandem 0.4.0"

def build (name : String) (a : Arguments) : Option Command :=
  match name, a.words with
  | "serve", [] => some (serve (a.value? "config") (a.value? "root") (a.values "server"))
  | "list", [] => some list
  | "monitor", [id] => some (monitor id (a.has "raw") (a.has "nocolor") (a.value? "filter"))
  | "status", [id] => some (status id)
  | "track", [action, path] =>
    (FileOperation.Kind.all.find? (·.name == action)).map fun kind =>
      track kind path (a.value? "old-path") (a.value? "session")
  | "push", [path] => some (push path (a.value? "session"))
  | _, _ => none

inductive Request where
  | run (command : Command)
  | explain (manual : Manual) (atLength : Bool)
  | version
  deriving DecidableEq, Repr

def ofWords? (name : String) (m : Manual) (front : Arguments) (words : List String) :
    Option Request :=
  match Arguments.read (.help "" :: m.options) false .empty words with
  | some (.read a _) =>
    let a := { a with options := front.options ++ a.options }
    if m.accepts a then (build name a).map .run else none
  | some (.help a atLength) => if m.accepts a then some (.explain m atLength) else none
  | _ => none

def request? (words : List String) : Option Request :=
  match Arguments.read (.help "" :: .version :: overview.options) true .empty words with
  | some (.read _ ["help"]) => some (.explain overview true)
  | some (.read _ ["help", name]) => (manuals.lookup name).map (.explain · true)
  | some (.read front rest) =>
    let name := rest.headD "serve"
    (manuals.lookup name).bind fun m => ofWords? name m front rest.tail
  | some (.help a atLength) =>
    if overview.accepts a then some (.explain overview atLength) else none
  | some (.version a) => if overview.accepts a then some .version else none
  | none => none

end Command
end EditorSync.Console

import EditorSync.Config.Coercion
import EditorSync.Config.Layers
import EditorSync.Store.Basic
import EditorSync.Text.Blank
import EditorSync.Toml.Parser

namespace EditorSync

open Text (Encoding)

structure Config.Command where
  program : String
  arguments : List String
  options : Option Json

structure Config where
  debounceMs : Nat
  autoSave : Bool
  offsetEncoding : String
  metadataDir : String
  verifyOnStart : Bool
  persistCopies : Bool
  maxPending : Nat
  reconcileTimeout : Nat
  projects : Option (List String)
  servers : List (String × Config.Command)

namespace Config

inductive Fault where
  | build
  | deserialize
  | unknownEncoding (name : String)
  | noColon (spec : String)
  | noCommand (spec : String)
  deriving DecidableEq, Repr

def Fault.message : Fault → String
  | build => "Failed to build configuration"
  | deserialize => "Failed to deserialize configuration"
  | unknownEncoding name => s!"Unknown offset_encoding '{name}'"
  | noColon spec => s!"Invalid server spec '{spec}', expected lang:command"
  | noCommand spec => s!"Missing command in server spec '{spec}'"

def default : Config where
  debounceMs := 1000
  autoSave := true
  offsetEncoding := Encoding.utf16.name
  metadataDir := ".tandem"
  verifyOnStart := true
  persistCopies := true
  maxPending := 64
  reconcileTimeout := 10
  projects := none
  servers := []

def encoding (c : Config) : Except Fault Encoding :=
  match Encoding.ofName? c.offsetEncoding with
  | some e => .ok e
  | none => .error (.unknownEncoding c.offsetEncoding)

def addServer (c : Config) (spec : String) : Except Fault Config :=
  let language := spec.toList.takeWhile (· ≠ ':')
  match spec.toList.drop language.length with
  | [] => .error (.noColon spec)
  | _ :: commandLine =>
    match Text.words (String.ofList commandLine) with
    | [] => .error (.noCommand spec)
    | program :: arguments =>
      let name := Text.trim (String.ofList language)
      .ok { c with servers := Toml.assign name ⟨program, arguments, none⟩ c.servers }

def setting {α : Type} (members : List (String × Toml)) (name : String) (default : α)
    (read : Toml → Option α) : Option α :=
  match members.lookup name with
  | some v => read v
  | none => some default

def texts? : Toml → Option (List String)
  | .list elements => elements.mapM text?
  | _ => none

def command? (v : Toml) : Option Command := do
  let members ← match v with
    | .table members => some members
    | .list elements => some (["command", "args", "initialization_options"].zip elements)
    | _ => none
  return {
    program := ← (members.lookup "command").bind text?
    arguments := ← setting members "args" [] texts?
    options := (members.lookup "initialization_options").map toJson }

def servers? : Toml → Option (List (String × Command))
  | .table members => members.mapM fun (name, v) => (command? v).map (name, ·)
  | _ => none

def ofToml? (v : Toml) : Option Config := do
  let members := v.members
  return {
    debounceMs := ← setting members "debounce_ms" default.debounceMs word?
    autoSave := ← setting members "auto_save" default.autoSave flag?
    offsetEncoding := ← setting members "offset_encoding" default.offsetEncoding text?
    metadataDir := ← setting members "metadata_dir" default.metadataDir text?
    verifyOnStart := ← setting members "verify_on_start" default.verifyOnStart flag?
    persistCopies := ← setting members "persist_working_copies" default.persistCopies flag?
    maxPending := ← setting members "max_pending_deltas" default.maxPending word?
    reconcileTimeout := ← setting members "reconcile_timeout_secs" default.reconcileTimeout word?
    projects := ← setting members "projects" none fun v => (texts? v).map some
    servers := ← setting members "server" [] servers? }

def defaults : Toml :=
  .table [("debounce_ms", .integer default.debounceMs), ("auto_save", .boolean default.autoSave),
    ("offset_encoding", .string default.offsetEncoding),
    ("metadata_dir", .string default.metadataDir),
    ("verify_on_start", .boolean default.verifyOnStart),
    ("persist_working_copies", .boolean default.persistCopies),
    ("max_pending_deltas", .integer default.maxPending),
    ("reconcile_timeout_secs", .integer default.reconcileTimeout)]

def load (layers : List (Option String)) (environment : List (String × String)) :
    Except Fault Config := do
  let some tables := layers.mapM fun text => text.bind Toml.parse? | throw .build
  let merged := (tables ++ [ofEnvironment environment]).foldl overlay defaults
  let some c := ofToml? merged | throw .deserialize
  let _ ← c.encoding
  return c

def storeSettings (c : Config) : Except Fault Store.Settings := do
  return ⟨← c.encoding, c.verifyOnStart, c.persistCopies, c.maxPending⟩

def Command.toJson (c : Command) : Json :=
  .obj [("command", .str c.program), ("args", .ofList .str c.arguments),
    ("initialization_options", c.options.getD .null)]

def members (c : Config) : List (String × Json) :=
  [("debounce_ms", .ofNat c.debounceMs), ("auto_save", .bool c.autoSave),
    ("offset_encoding", .str c.offsetEncoding), ("metadata_dir", .str c.metadataDir),
    ("verify_on_start", .bool c.verifyOnStart), ("persist_working_copies", .bool c.persistCopies),
    ("max_pending_deltas", .ofNat c.maxPending),
    ("reconcile_timeout_secs", .ofNat c.reconcileTimeout),
    ("projects", .ofOption (.ofList .str) c.projects),
    ("server", .obj (c.servers.map fun (name, command) => (name, command.toJson)))]

end Config
end EditorSync

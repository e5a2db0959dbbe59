import EditorSync.LanguageServer.Client
import EditorSync.LanguageServer.Language
import EditorSync.Reconcile.Engine

namespace EditorSync.LanguageServer

open Reconcile (Failure Outcome Request)
open Rpc (Notification RequestId)
open Session (Event)
open Text (Encoding)

/-- How the servers are set up: where they run, the languages that have one with the program
and the options for it, the workspace, the units that results are given in, and how the parser of
URIs words its refusal of a path. -/
structure Setup (σ : Type) where
  host : Host σ
  servers : List (String × String × Option Json)
  root : String
  pid : Nat
  wire : Encoding
  refusal : String → String

structure Document where
  language : String
  uri : String
  version : Nat
  deriving DecidableEq, Repr

/-- The state of the engine: the servers, the clients that talk to them by process, the process
that serves each language, and the documents by path. Of clients that have been given up, `dropped`
are those of this pass and `ending` those of the pass before, whose servers end by and by. -/
structure State (σ : Type) where
  host : σ
  clients : Table Nat Client
  serving : Table String Nat
  documents : Table String Document
  dropped : List Client
  ending : List Client
  log : List Event

abbrev Action (σ : Type) := ExceptT Failure (StateM (State σ))

structure Started where
  request : Request
  language : String
  process : Nat
  options : Option Json

structure Held where
  request : Request
  language : String
  process : Nat
  fresh : Bool

def Started.held (p : Started) : Held := ⟨p.request, p.language, p.process, true⟩

structure Addressed extends Held where
  uri : String
  after : Nat

structure Noted extends Addressed where
  version : Nat
  isOpen : Bool

structure Judged extends Noted where
  findings : List Finding

variable {σ : Type}

namespace State

def new (host : σ) : State σ := ⟨host, .empty, .empty, .empty, [], [], []⟩

def client (s : State σ) (process : Nat) : Client :=
  (s.clients.get? process).getD { Client.new "" process with state := .dead }

def keep (s : State σ) (process : Nat) (c : Client) : State σ :=
  { s with clients := s.clients.insert process c }

def active? (s : State σ) (language : String) : Option Nat :=
  (s.serving.get? language).filter fun process => (s.client process).isAlive

def opened (s : State σ) (language : String) (fresh : Bool) : Table String Document :=
  if fresh then s.documents.filter fun _ d => d.language ≠ language else s.documents

def announce (s : State σ) (language : String) (states : List ServerState) : State σ :=
  { s with log := s.log ++ states.map fun state => .serverState language state.name }

def bury (s : State σ) : State σ :=
  s.ending.foldl (fun s c => s.announce c.language (c.moveTo .dead).states) { s with ending := [] }

def between (s : State σ) : State σ := { s with ending := s.ending ++ s.dropped, dropped := [] }

end State

namespace Setup

variable (u : Setup σ)

def brokenPipe : Failure := ["Broken pipe (os error 32)"]

def hear (process : Nat) (reaction : Reaction) (s : State σ) : State σ :=
  let c := s.client process
  let heard := c.observe reaction
  let host := heard.answers.foldl (fun host j => u.host.answer host process j) s.host
  ({ s with host := host }.keep process heard.client).announce c.language heard.states

def exchange (process : Nat) (message : Json) : Action σ Unit := do
  let s ← get
  if !(s.client process).isAlive then throw brokenPipe
  let (reaction, host) := u.host.tell s.host process message
  set (u.hear process reaction { s with host := host })

def notify (process : Nat) (method : String) (params : Json) : Action σ Unit :=
  u.exchange process (Notification.of method params).toJson

def ask (process : Nat) (method : String) (params : Json) : Action σ RequestId := do
  let c := (← get).client process
  let id := RequestId.number c.nextId
  modify (·.keep process { c with nextId := c.nextId + 1, pending := c.pending.insert id none })
  u.exchange process (⟨Rpc.version, id, method, params⟩ : Rpc.Request).toJson
  return id

def resultOf (method : String) : Option Rpc.Response → Except Failure Json
  | none => .error [s!"LSP request '{method}' timed out after 30s"]
  | some r =>
    match r.error with
    | some e => .error [s!"LSP error {e.code}: {e.message}"]
    | none => .ok (r.result.getD .null)

def answered (process : Nat) (method : String) (id : RequestId) : Action σ Json := do
  let c := (← get).client process
  modify (·.keep process { c with pending := c.pending.erase id })
  MonadExcept.ofExcept (resultOf method (c.pending.get? id).join)

def unparsed : Failure := ["Failed to parse LSP response"]

def ownCapabilities : Json :=
  .obj [
    ("general", .obj [("positionEncodings", .arr [.str "utf-8", .str "utf-16", .str "utf-32"])]),
    ("textDocument", .obj [
      ("publishDiagnostics", .obj [("versionSupport", .bool true)]),
      ("semanticTokens", .obj [
        ("formats", .arr [.str "relative"]),
        ("requests", .obj [("full", .bool true), ("range", .bool false)]),
        ("tokenModifiers", .arr []),
        ("tokenTypes", .arr [])])])]

def uriOrFail (path : String) : Except Failure String :=
  (uriOf path).mapError fun e => [e.message u.refusal]

def folderName (path : String) : String :=
  match (Path.components path).getLast? with
  | some (.name name) => name
  | _ => "workspace"

def initializeParams (uri : String) (options : Option Json) : Json :=
  .obj ([("processId", .ofNat u.pid), ("rootUri", .null), ("capabilities", ownCapabilities),
    ("workspaceFolders", .arr [.obj [("uri", .str uri), ("name", .str (folderName u.root))]])] ++
    Json.memberIfSome "initializationOptions" (fun j => j) options)

def giveUp (process : Nat) : Action σ Unit :=
  modify fun s =>
    let c := s.client process
    if c.isAlive then { s with dropped := s.dropped ++ [c] } else s

def orGiveUp {α : Type} (process : Nat) (x : Action σ α) : Action σ α :=
  tryCatch x fun e => do
    giveUp process
    throw e

def start (language program : String) : Action σ Nat := do
  modify fun s => { s with serving := s.serving.erase language }
  match u.host.start (← get).host language with
  | none => throw [s!"Failed to spawn LSP server: {program}"]
  | some (process, host) =>
    modify fun s =>
      let s := ({ s with host := host }.announce language [.initializing]).bury
      s.keep process (.new language process)
    return process

def server? (r : Request) : Option (String × String × Option Json) :=
  (languageOf? r.real).bind fun language => (u.servers.lookup language).map (language, ·)

def enter (r : Request) : Action σ (Option (Held ⊕ Started)) := do
  let some (language, program, options) := u.server? r | return none
  match (← get).active? language with
  | some process => return some (.inl ⟨r, language, process, false⟩)
  | none => return some (.inr ⟨r, language, ← u.start language program, options⟩)

def introduce (p : Started) : Action σ RequestId :=
  orGiveUp p.process do
    let uri ← MonadExcept.ofExcept (u.uriOrFail u.root)
    u.ask p.process "initialize" (u.initializeParams uri p.options)

def acquaint (p : Started) (id : RequestId) : Action σ Unit :=
  orGiveUp p.process do
    let result ← answered p.process "initialize" id
    let some capabilities := Json.decode? Capabilities.decoder result | throw unparsed
    modify fun s => s.keep p.process { s.client p.process with capabilities := capabilities }

def confirm (p : Started) : Action σ Unit :=
  orGiveUp p.process (u.notify p.process "initialized" (.obj []))

def engage (p : Started) : Action σ Held := do
  modify fun s =>
    let ready := (s.client p.process).moveTo .ready
    let s := (s.keep p.process ready.client).announce p.language ready.states
    { s with serving := s.serving.insert p.language p.process }
  return p.held

def acquire (r : Request) : Action σ (Option Held) := do
  match ← u.enter r with
  | none => return none
  | some (.inl held) => return some held
  | some (.inr started) =>
    let id ← u.introduce started
    acquaint started id
    u.confirm started
    return some (← engage started)

def documentId (uri : String) : Json := .obj [("uri", .str uri)]

def address (p : Held) : Action σ Addressed := do
  let uri ← MonadExcept.ofExcept (u.uriOrFail p.request.real)
  let c := (← get).client p.process
  return ⟨p, uri, (c.published.get? uri).elim 0 (·.generation)⟩

def note (p : Addressed) : Action σ Noted :=
  modifyGet fun s =>
    let documents := s.opened p.language p.fresh
    let known := documents.get? p.request.file
    let d := known.elim ⟨p.language, p.uri, 1⟩ fun d => { d with version := d.version + 1 }
    (⟨p, d.version, known.isSome⟩, { s with documents := documents.insert p.request.file d })

def inform (p : Noted) : Action σ Unit :=
  if p.isOpen then
    u.notify p.process "textDocument/didChange" (.obj [
      ("textDocument", .obj [("uri", .str p.uri), ("version", .ofNat p.version)]),
      ("contentChanges", .arr [.obj [("text", .str p.request.content)]])])
  else
    u.notify p.process "textDocument/didOpen" (.obj [
      ("textDocument", .obj [("uri", .str p.uri), ("languageId", .str p.language),
        ("version", .ofNat p.version), ("text", .str p.request.content)])])

def judge (p : Noted) : Action σ Judged := do
  let c := (← get).client p.process
  match c.covering? p.uri p.version p.after with
  | some findings => return ⟨p, findings⟩
  | none =>
    if !c.isAlive then throw [s!"{p.language} server died while reconciling"]
    return ⟨p, (c.published.get? p.uri).elim [] (·.findings)⟩

def tokensMethod : String := "textDocument/semanticTokens/full"

def inquire (p : Judged) : Action σ (Option RequestId) := do
  match ((← get).client p.process).capabilities.legend with
  | none => return none
  | some _ =>
    let ask := do
      let document := ("textDocument", documentId p.uri)
      return some (← u.ask p.process tokensMethod (.obj [document]))
    tryCatch ask fun _ => return none

def tokens (p : Judged) : Option RequestId → Action σ (List SemanticToken)
  | none => return []
  | some id =>
    let receive := do
      let j ← answered p.process tokensMethod id
      return (Json.decode? answeredTokens j).getD []
    tryCatch receive fun _ => return []

def conclude (p : Judged) (asked : Option RequestId) : Action σ Outcome := do
  let content := p.request.content
  let capabilities := ((← get).client p.process).capabilities
  let tokens ← tokens p asked
  let highlights := capabilities.legend.elim [] fun legend =>
    highlightsOf tokens legend content capabilities.encoding u.wire
  return ⟨diagnosticsOf p.findings content capabilities.encoding u.wire, highlights⟩

def pass (r : Request) : Action σ Outcome := do
  let some held ← u.acquire r | return .empty
  let noted ← note (← u.address held)
  u.inform noted
  let judged ← judge noted
  u.conclude judged (← u.inquire judged)

def reconcile (s : State σ) (r : Request) : Except Failure Outcome × State σ :=
  let (outcome, s) := (u.pass r).run s.between
  (outcome, s.bury)

def remove (file : String) : Action σ (Option Document) :=
  modifyGet fun s => (s.documents.get? file, { s with documents := s.documents.erase file })

def forget (process : Nat) (uri : String) : Action σ Unit :=
  modify fun s =>
    let c := s.client process
    s.keep process { c with published := c.published.erase uri }

def farewell (process : Nat) (uri : String) : Action σ Unit :=
  u.notify process "textDocument/didClose" (.obj [("textDocument", documentId uri)])

def close (file : String) : Action σ Unit := do
  let some d ← remove file | return
  let some process := (← get).active? d.language | return
  forget process d.uri
  u.farewell process d.uri

def release (s : State σ) (file : String) : State σ := ((u.close file).run s.between).2.bury

def stop (process : Nat) : Action σ Unit := do
  let id ← u.ask process "shutdown" .null
  let _ ← answered process "shutdown" id
  u.notify process "exit" .null

def shutdown (s : State σ) : State σ :=
  s.serving.entries.foldl
    (fun s (_, process) => if (s.client process).isAlive then ((u.stop process).run s).2 else s)
    { s with serving := .empty }

def engine : Reconcile.Engine (State σ) := ⟨u.reconcile, u.release⟩

end Setup
end EditorSync.LanguageServer

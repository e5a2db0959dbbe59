import EditorSync.LanguageServer.Capabilities
import EditorSync.LanguageServer.Finding
import EditorSync.LanguageServer.Host
import EditorSync.LanguageServer.ServerState
import EditorSync.Table

namespace EditorSync.LanguageServer

open Rpc (ErrorInfo Notification RequestId Response)
open Text (Bytes)

structure Published where
  version : Option Int
  generation : Nat
  findings : List Finding
  deriving DecidableEq, Repr

structure Client where
  language : String
  process : Nat
  nextId : Nat
  state : ServerState
  buffer : Bytes
  active : List Label
  published : Table String Published
  pending : Table RequestId (Option Response)
  capabilities : Capabilities

structure Heard where
  client : Client
  states : List ServerState
  answers : List Json

namespace Client

def new (language : String) (process : Nat) : Client :=
  ⟨language, process, 1, .initializing, [], [], .empty, .empty, .default⟩

def isAlive (c : Client) : Bool := c.state != .dead

def moveTo (c : Client) (next : ServerState) : Heard :=
  match c.state.change? next with
  | some state => ⟨{ c with state := state }, [state], []⟩
  | none => ⟨c, [], []⟩

def answerTo (method : String) (id : RequestId) : Json :=
  let (result, error) : Option Json × Option ErrorInfo :=
    match method with
    | "window/workDoneProgress/create" | "client/registerCapability" => (some .null, none)
    | "workspace/configuration" => (some (.arr []), none)
    | _ => (none, some ⟨-32601, s!"Method '{method}' not supported by client", none⟩)
  (⟨Rpc.version, some id, result, error⟩ : Response).toJson

def publish (c : Client) (p : Publication) : Client :=
  let generation := (c.published.get? p.uri).elim 0 (·.generation)
  { c with published := c.published.insert p.uri ⟨p.version, generation + 1, p.findings⟩ }

def notified (c : Client) (n : Notification) : Heard :=
  match n.method with
  | "textDocument/publishDiagnostics" =>
    match Json.decode? Publication.decoder n.params with
    | some p => ⟨c.publish p, [], []⟩
    | none => ⟨c, [], []⟩
  | "$/progress" =>
    match Json.decode? Progress.decoder n.params with
    | some p =>
      let c := { c with active := Progress.update c.active p }
      if c.state = .initializing then ⟨c, [], []⟩
      else c.moveTo (if c.active = [] then .ready else .indexing)
    | none => ⟨c, [], []⟩
  | _ => ⟨c, [], []⟩

def responded (c : Client) (r : Response) : Client :=
  match r.id.bind fun id => (c.pending.get? id).map (id, ·) with
  | some (id, none) => { c with pending := c.pending.insert id (some r) }
  | _ => c

def hear (c : Client) (body : String) : Heard :=
  match Json.read? body with
  | none => ⟨c, [], []⟩
  | some message =>
    match message.get? "method", message.get? "id" with
    | some (.str method), some id =>
      ⟨c, [], [answerTo method ((Json.decode? RequestId.decoder id).getD (.number 0))]⟩
    | some (.str _), none =>
      match Json.decode? Notification.decoder message with
      | some n => c.notified n
      | none => ⟨c, [], []⟩
    | _, some _ =>
      match Json.decode? Response.decoder message with
      | some r => ⟨c.responded r, [], []⟩
      | none => ⟨c, [], []⟩
    | _, none => ⟨c, [], []⟩

def hearAll (c : Client) : List String → Heard
  | [] => ⟨c, [], []⟩
  | body :: rest =>
    let first := c.hear body
    let later := hearAll first.client rest
    ⟨later.client, first.states ++ later.states, first.answers ++ later.answers⟩

def receive (c : Client) (chunk : Bytes) : Heard :=
  let u := Rpc.unframe (c.buffer ++ chunk)
  hearAll { c with buffer := u.rest } u.messages

def chunkSize : Nat := 4096

/-- Takes in all that a server has written, piece by piece. The fuel is the number of bytes. -/
def receiveAll : Nat → Client → Bytes → Heard
  | 0, c, _ => ⟨c, [], []⟩
  | _, c, [] => ⟨c, [], []⟩
  | fuel + 1, c, b :: bytes =>
    let first := c.receive ((b :: bytes).take chunkSize)
    let later := receiveAll fuel first.client ((b :: bytes).drop chunkSize)
    ⟨later.client, first.states ++ later.states, first.answers ++ later.answers⟩

def observe (c : Client) (r : Reaction) : Heard :=
  let heard := receiveAll r.output.length c r.output
  if r.ends then
    let last := heard.client.moveTo .dead
    ⟨last.client, heard.states ++ last.states, heard.answers⟩
  else heard

def covering? (c : Client) (uri : String) (version : Int) (after : Nat) : Option (List Finding) :=
  (c.published.get? uri).bind fun p =>
    match p.version with
    | some v => if version ≤ v then some p.findings else none
    | none => if after < p.generation then some p.findings else none

end Client
end EditorSync.LanguageServer

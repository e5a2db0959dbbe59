import EditorSync.Json.Parser
import EditorSync.Rpc.Frame
import EditorSync.Rpc.Message

namespace EditorSync.LanguageServer

open Text (Bytes)

structure Reaction where
  output : Bytes
  ends : Bool
  deriving DecidableEq, Repr

structure Host (σ : Type) where
  start : σ → String → Option (Nat × σ)
  tell : σ → Nat → Json → Reaction × σ
  answer : σ → Nat → Json → σ

def Host.barren {σ : Type} : Host σ :=
  ⟨fun _ _ => none, fun s _ _ => (⟨[], false⟩, s), fun s _ _ => s⟩

inductive Act where
  | result (j : Json)
  | error (j : Json)
  | send (j : Json)
  | raw (bytes : Bytes)
  | exit

structure Scripted where
  language : String
  reactions : List (String × List (List Act))
  received : List Json

structure Stage where
  scripts : List (String × List (List (String × List (List Act))))
  missing : List String
  servers : List Scripted

namespace Stage

def frameOf (j : Json) : Bytes := Rpc.frame j.compact

def Act.output (id : Json) : Act → Bytes
  | .result j => frameOf (.obj [("jsonrpc", .str Rpc.version), ("id", id), ("result", j)])
  | .error j => frameOf (.obj [("jsonrpc", .str Rpc.version), ("id", id), ("error", j)])
  | .send j => frameOf j
  | .raw bytes => bytes
  | .exit => []

def Act.isExit : Act → Bool
  | .exit => true
  | _ => false

def usual (method : String) (id : Option Json) : List Act :=
  match id with
  | none => []
  | some _ => [.result (if method = "initialize" then .obj [("capabilities", .obj [])] else .null)]

def react (s : Scripted) (message : Json) : Reaction × Scripted :=
  let method := match message.get? "method" with
    | some (.str m) => m
    | _ => ""
  let id := message.get? "id"
  let s := { s with received := s.received ++ [message] }
  let (acts, s) : List Act × Scripted := match s.reactions.lookup method with
    | some (acts :: later) =>
      let left := s.reactions.map fun (m, rs) => (m, if m = method then later else rs)
      (acts, { s with reactions := left })
    | _ => (usual method id, s)
  let before := acts.takeWhile (!Act.isExit ·)
  (⟨before.flatMap (Act.output (id.getD .null)), before.length < acts.length⟩, s)

def start (s : Stage) (language : String) : Option (Nat × Stage) :=
  if language ∈ s.missing then none
  else
    let scripts := (s.scripts.lookup language).getD []
    let server : Scripted := ⟨language, scripts.headD [], []⟩
    some (s.servers.length, { s with
      scripts := s.scripts.map fun (l, ss) => (l, if l = language then ss.tail else ss)
      servers := s.servers ++ [server] })

def tell (s : Stage) (process : Nat) (message : Json) : Reaction × Stage :=
  match s.servers[process]? with
  | none => (⟨[], true⟩, s)
  | some server =>
    let (reaction, server) := react server message
    (reaction, { s with servers := s.servers.set process server })

def answer (s : Stage) (process : Nat) (message : Json) : Stage :=
  { s with servers := s.servers.modify process fun server =>
      { server with received := server.received ++ [message] } }

def host : Host Stage := ⟨start, tell, answer⟩

def received (s : Stage) (language : String) : List (List Json) :=
  s.servers.filterMap fun server =>
    if server.language = language then some server.received else none

end Stage
end EditorSync.LanguageServer

import EditorSync.Json.Decoder
import EditorSync.Json.Parser
import EditorSync.Json.Printer

namespace EditorSync.Rpc

open Json (Decoder)

def version : String := "2.0"

inductive RequestId where
  | number (n : Int)
  | text (s : String)
  deriving DecidableEq, Repr

structure Request where
  jsonrpc : String
  id : RequestId
  method : String
  params : Json

structure ErrorInfo where
  code : Int
  message : String
  data : Option Json

structure Response where
  jsonrpc : String
  id : Option RequestId
  result : Option Json
  error : Option ErrorInfo

structure Notification where
  jsonrpc : String
  method : String
  params : Json
  deriving Repr

namespace RequestId

def decoder : Decoder RequestId :=
  (Decoder.int64.map number).or (Decoder.string.map text)

def toJson : RequestId → Json
  | number n => Json.ofInt n
  | text s => .str s

end RequestId

namespace Request

def decoder : Decoder Request :=
  Decoder.record ["jsonrpc", "id", "method", "params"] fun r => do
    return {
      jsonrpc := ← r.required "jsonrpc" Decoder.string
      id := ← r.required "id" RequestId.decoder
      method := ← r.required "method" Decoder.string
      params := ← r.withDefault "params" .null Decoder.value }

def toJson (m : Request) : Json :=
  .obj [("jsonrpc", .str m.jsonrpc), ("id", m.id.toJson), ("method", .str m.method),
    ("params", m.params)]

def of (id : Int) (method : String) (params : Json) : Request :=
  ⟨version, .number id, method, params⟩

end Request

namespace ErrorInfo

def decoder : Decoder ErrorInfo :=
  Decoder.record ["code", "message", "data"] fun r => do
    return {
      code := ← r.required "code" Decoder.int64
      message := ← r.required "message" Decoder.string
      data := ← r.optional "data" Decoder.value }

def toJson (e : ErrorInfo) : Json :=
  .obj ([("code", Json.ofInt e.code), ("message", .str e.message)] ++
    Json.memberIfSome "data" (fun j => j) e.data)

end ErrorInfo

namespace Response

def decoder : Decoder Response :=
  Decoder.record ["jsonrpc", "id", "result", "error"] fun r => do
    return {
      jsonrpc := ← r.required "jsonrpc" Decoder.string
      id := ← r.optional "id" RequestId.decoder
      result := ← r.optional "result" Decoder.value
      error := ← r.optional "error" ErrorInfo.decoder }

def toJson (m : Response) : Json :=
  .obj ([("jsonrpc", .str m.jsonrpc), ("id", Json.ofOption RequestId.toJson m.id)] ++
    Json.memberIfSome "result" (fun j => j) m.result ++
    Json.memberIfSome "error" ErrorInfo.toJson m.error)

end Response

namespace Notification

def decoder : Decoder Notification :=
  Decoder.record ["jsonrpc", "method", "params"] fun r => do
    return {
      jsonrpc := ← r.required "jsonrpc" Decoder.string
      method := ← r.required "method" Decoder.string
      params := ← r.withDefault "params" .null Decoder.value }

def toJson (m : Notification) : Json :=
  .obj [("jsonrpc", .str m.jsonrpc), ("method", .str m.method), ("params", m.params)]

def of (method : String) (params : Json) : Notification := ⟨version, method, params.sorted⟩

end Notification

def read? {α : Type} (d : Decoder α) (text : String) : Option α :=
  (Json.parse? text).bind (d Json.maxDepth)

end EditorSync.Rpc

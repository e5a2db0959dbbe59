import EditorSync.LanguageServer.SemanticTokens
import EditorSync.Json.Decoder

namespace EditorSync.LanguageServer

open Json (Decoder)
open Text (Encoding)

structure Capabilities where
  encoding : Encoding
  legend : Option (List String)
  deriving DecidableEq, Repr

namespace Capabilities

def default : Capabilities := ⟨.utf16, none⟩

def encodingOf (name : String) : Encoding := (Encoding.ofWireName? name).getD .utf16

def fullDecoder : Decoder Unit := fun depth j =>
  match j with
  | .bool _ => some ()
  | .obj _ =>
    Decoder.record ["delta"] (fun r => do let _ ← r.optional "delta" Decoder.boolean) depth j
  | _ => none

def legendDecoder : Decoder (List String) :=
  Decoder.record ["tokenTypes", "tokenModifiers"] fun r => do
    let _ ← r.required "tokenModifiers" (Decoder.list Decoder.string)
    r.required "tokenTypes" (Decoder.list Decoder.string)

def tokensDecoder : Decoder (Option (List String)) := fun depth j =>
  match j with
  | .obj _ =>
    Decoder.record ["workDoneProgress", "legend", "range", "full"] (fun r => do
      let _ ← r.optional "workDoneProgress" Decoder.boolean
      let _ ← r.optional "range" Decoder.boolean
      let legend ← r.required "legend" legendDecoder
      let full ← r.optional "full" fullDecoder
      return full.map fun () => legend) depth j
  | _ => none

def offeredDecoder : Decoder Capabilities :=
  Decoder.record ["positionEncoding", "semanticTokensProvider"] fun r => do
    let encoding ← r.optional "positionEncoding" Decoder.string
    let tokens ← r.optional "semanticTokensProvider" tokensDecoder
    return ⟨(encoding.map encodingOf).getD .utf16, tokens.join⟩

def decoder : Decoder Capabilities :=
  Decoder.record ["capabilities", "serverInfo"] fun r => do
    let _ ← r.optional "serverInfo" (Decoder.record ["name", "version"] fun r => do
      let _ ← r.required "name" Decoder.string
      r.optional "version" Decoder.string)
    r.required "capabilities" offeredDecoder

end Capabilities

def tokensOf? : List Nat → Option (List SemanticToken)
  | [] => some []
  | a :: b :: c :: d :: _ :: rest => (tokensOf? rest).map (⟨a, b, c, d⟩ :: ·)
  | _ => none

def answeredTokens : Decoder (List SemanticToken) :=
  Decoder.record ["resultId", "data"] fun r => do
    let _ ← r.optional "resultId" Decoder.string
    tokensOf? (← r.required "data" (Decoder.list Decoder.word32))

end EditorSync.LanguageServer

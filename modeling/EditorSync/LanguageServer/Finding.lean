import EditorSync.LanguageServer.Progress
import EditorSync.LanguageServer.Uri
import EditorSync.Reconcile.Diagnostic
import EditorSync.Text.Lines

namespace EditorSync.LanguageServer

open Json (Decoder)
open Text (Encoding LineIndex)

structure Position where
  line : Nat
  column : Nat
  deriving DecidableEq, Repr

structure Span where
  start : Position
  stop : Position
  deriving DecidableEq, Repr

structure Finding where
  span : Span
  severity : Option Int
  code : Option Label
  message : String
  deriving DecidableEq, Repr

structure Publication where
  uri : String
  findings : List Finding
  version : Option Int
  deriving DecidableEq, Repr

def int32 : Decoder Int := Decoder.integer (-0x80000000) 0x7FFFFFFF

def uriDecoder : Decoder String := fun depth j => (Decoder.string depth j).filter isUri

namespace Position

def decoder : Decoder Position :=
  Decoder.record ["line", "character"] fun r =>
    return ⟨← r.required "line" Decoder.word32, ← r.required "character" Decoder.word32⟩

end Position

namespace Span

def decoder : Decoder Span :=
  Decoder.record ["start", "end"] fun r =>
    return ⟨← r.required "start" Position.decoder, ← r.required "end" Position.decoder⟩

end Span

namespace Finding

def related : Decoder Unit :=
  Decoder.record ["location", "message"] fun r => do
    let _ ← r.required "location" (Decoder.record ["uri", "range"] fun r => do
      let _ ← r.required "uri" uriDecoder
      r.required "range" Span.decoder)
    let _ ← r.required "message" Decoder.string

def decoder : Decoder Finding :=
  Decoder.record ["range", "severity", "code", "codeDescription", "source", "message",
    "relatedInformation", "tags", "data"] fun r => do
      let _ ← r.optional "codeDescription"
        (Decoder.record ["href"] fun r => r.required "href" uriDecoder)
      let _ ← r.optional "source" Decoder.string
      let _ ← r.optional "relatedInformation" (Decoder.list related)
      let _ ← r.optional "tags" (Decoder.list int32)
      let _ ← r.optional "data" Decoder.value
      return {
        span := ← r.required "range" Span.decoder
        severity := ← r.optional "severity" int32
        code := ← r.optional "code" Label.decoder
        message := ← r.required "message" Decoder.string }

def toDiagnostic? (f : Finding) (index : LineIndex) (server wire : Encoding) :
    Option Reconcile.Diagnostic := do
  let start ← index.byteOfPosition? f.span.start.line f.span.start.column server
  let stop := max (← index.byteOfPosition? f.span.stop.line f.span.stop.column server) start
  return {
    message := f.message
    isError := f.severity = none ∨ f.severity = some 1
    isWarning := f.severity = some 2
    start := ← index.offsetOfByte? start wire
    stop := ← index.offsetOfByte? stop wire
    line := index.lineOfByte start + 1
    code := f.code.map Label.toString }

end Finding

def diagnosticsOf (findings : List Finding) (content : String) (server wire : Encoding) :
    List Reconcile.Diagnostic :=
  let index := LineIndex.of content
  (findings.mapM fun (f : Finding) => f.toDiagnostic? index server wire).getD []

namespace Publication

def decoder : Decoder Publication :=
  Decoder.record ["uri", "diagnostics", "version"] fun r =>
    return {
      uri := ← r.required "uri" uriDecoder
      findings := ← r.required "diagnostics" (Decoder.list Finding.decoder)
      version := ← r.optional "version" int32 }

end Publication
end EditorSync.LanguageServer

import EditorSync.Message.ReconcileState
import EditorSync.Text.Lines

namespace EditorSync.LanguageServer

open Text (Encoding LineIndex)

structure SemanticToken where
  deltaLine : Nat
  deltaStart : Nat
  length : Nat
  kind : Nat
  deriving DecidableEq, Repr

def positionMax : Nat := 0xFFFFFFFF

def addPosition (a b : Nat) : Nat := min (a + b) positionMax

def tokenStarts : Nat → Nat → List SemanticToken → List (Nat × Nat × SemanticToken)
  | _, _, [] => []
  | line, column, token :: tokens =>
    let (line, column) :=
      if 0 < token.deltaLine then (addPosition line token.deltaLine, token.deltaStart)
      else (line, addPosition column token.deltaStart)
    (line, column, token) :: tokenStarts line column tokens

def highlightAt? (legend : List String) (index : LineIndex) (server wire : Encoding)
    (line column : Nat) (token : SemanticToken) : Option Highlight := do
  let start ← index.byteOfPosition? line column server
  let stop ← index.byteOfPosition? line (addPosition column token.length) server
  let offset ← index.offsetOfByte? start wire
  return {
    offset := offset
    length := (← index.offsetOfByte? stop wire) - offset
    kind := (legend[token.kind]?).getD "unknown" }

def highlightsOf? (tokens : List SemanticToken) (legend : List String) (content : String)
    (server wire : Encoding) : Option (List Highlight) :=
  let index := LineIndex.of content
  (tokenStarts 0 0 tokens).mapM fun (line, column, token) =>
    highlightAt? legend index server wire line column token

def highlightsOf (tokens : List SemanticToken) (legend : List String) (content : String)
    (server wire : Encoding) : List Highlight :=
  (highlightsOf? tokens legend content server wire).getD []

end EditorSync.LanguageServer

import EditorSync.Text.Blank
import EditorSync.Text.Bytes

namespace EditorSync.Rpc

open Text (Bytes)

def frame (body : String) : Bytes :=
  Text.encode s!"Content-Length: {(Text.encode body).length}\r\n\r\n" ++ Text.encode body

def splitHeader : Bytes → Option (Bytes × Bytes)
  | 13 :: 10 :: 13 :: 10 :: rest => some ([], rest)
  | b :: rest => (splitHeader rest).map fun (header, body) => (b :: header, body)
  | [] => none

inductive FrameError where
  | headerNotText
  | badLength
  | bodyNotText
  deriving DecidableEq, Repr

def FrameError.message : FrameError → String
  | headerNotText => "Failed to parse headers as UTF-8"
  | badLength => "Invalid Content-Length"
  | bodyNotText => "Message body is not UTF-8"

def readLength (text : String) : Option Nat :=
  let digits := match text.toList with
    | '+' :: rest => rest
    | cs => cs
  if digits ≠ [] ∧ digits.all Char.isDigit then
    let n := digits.foldl (fun n c => n * 10 + (c.toNat - '0'.toNat)) 0
    if n ≤ 0xFFFFFFFFFFFFFFFF then some n else none
  else none

def announced (line : List Char) : Except FrameError (Option Nat) :=
  match line.span (· ≠ ':') with
  | (_, []) => .ok none
  | (name, _ :: value) =>
    if (Text.trim (String.ofList name)).map Char.toLower = "content-length" then
      match readLength (Text.trim (String.ofList value)) with
      | some n => .ok (some n)
      | none => .error .badLength
    else .ok none

def contentLength (header : String) : Except FrameError (Option Nat) :=
  (header.toList.splitOn '\n').foldlM (fun found line => do
    return (← announced line).or found) none

inductive FrameStep where
  | incomplete
  | message (body : String) (rest : Bytes)
  | failed (error : FrameError) (rest : Bytes)
  deriving DecidableEq

/-- Takes one frame off a buffer. A frame whose body is no text is taken off too, but a bad
header stays. -/
def nextFrame (buffer : Bytes) : FrameStep :=
  match splitHeader buffer with
  | none => .incomplete
  | some (header, rest) =>
    match Text.decode? header with
    | none => .failed .headerNotText buffer
    | some header =>
      match contentLength header with
      | .error e => .failed e buffer
      | .ok none => .incomplete
      | .ok (some n) =>
        if rest.length < n then .incomplete
        else
          match Text.decode? (rest.take n) with
          | some body => .message body (rest.drop n)
          | none => .failed .bodyNotText (rest.drop n)

structure Unframed where
  messages : List String
  error : Option FrameError
  rest : Bytes

/-- Takes frames off a buffer until none is left or one fails. Every frame shortens the
buffer, so the fuel is its length. -/
def unframeWith : Nat → Bytes → Unframed
  | 0, buffer => ⟨[], none, buffer⟩
  | fuel + 1, buffer =>
    match nextFrame buffer with
    | .incomplete => ⟨[], none, buffer⟩
    | .failed e rest => ⟨[], some e, rest⟩
    | .message body rest =>
      let next := unframeWith fuel rest
      { next with messages := body :: next.messages }

def unframe (buffer : Bytes) : Unframed := unframeWith buffer.length buffer

end EditorSync.Rpc

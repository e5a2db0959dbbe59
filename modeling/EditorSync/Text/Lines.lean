import EditorSync.Text.Bytes
import EditorSync.Text.Encoding

namespace EditorSync.Text

def slice? (text : String) (start stop : Nat) : Option String := do
  let (upTo, _) ← Encoding.utf8.cut? text.toList stop
  let (_, part) ← Encoding.utf8.cut? upTo start
  return String.ofList part

def search (ns : List Nat) (n : Nat) : Except Nat Nat :=
  let place := ns.countP (· < n)
  if ns[place]? = some n then .ok place else .error place

structure LineIndex where
  text : String
  starts : List Nat
  deriving DecidableEq, Repr

namespace LineIndex

def newlineEnds (bytes : Bytes) (start : Nat) : List Nat :=
  ((bytes.zipIdx start).filter (·.1 = 10)).map (·.2 + 1)

/-- A line ends at a newline only. A carriage return before it stays on the line, and the empty
text has one line. -/
def of (text : String) : LineIndex := ⟨text, 0 :: newlineEnds (encode text) 0⟩

variable (index : LineIndex)

def lineCount : Nat := index.starts.length

def lineOfByte (byte : Nat) : Nat :=
  match search index.starts byte with
  | .ok line => line
  | .error next => next - 1

/-- The byte position of a column in a line. A column past the end means the end, and one inside a
character its start, which is looked for to the left. -/
def columnByte? (enc : Encoding) (line : String) (column : Nat) : Option Nat :=
  match enc.byteIndex? line column with
  | some byte => some byte
  | none =>
    if enc.len line ≤ column then some (Encoding.utf8.len line)
    else
      match column with
      | 0 => none
      | column + 1 => columnByte? enc line column

def byteOfPosition? (line column : Nat) (enc : Encoding) : Option Nat :=
  match index.starts[line]? with
  | none => some (Encoding.utf8.len index.text)
  | some start => do
    let stop := (index.starts[line + 1]?).elim (Encoding.utf8.len index.text) (· - 1)
    let byte ← columnByte? enc (← slice? index.text start stop) column
    return start + byte

def offsetOfByte? (byte : Nat) (enc : Encoding) : Option Nat :=
  (slice? index.text 0 (min byte (Encoding.utf8.len index.text))).map enc.len

end LineIndex

def lineCount (text : String) : Nat := (LineIndex.of text).lineCount

def lineOfByte (text : String) (byte : Nat) : Nat := (LineIndex.of text).lineOfByte byte

def byteOfPosition (text : String) (line column : Nat) (enc : Encoding) : Nat :=
  ((LineIndex.of text).byteOfPosition? line column enc).getD 0

def offsetOfByte (text : String) (byte : Nat) (enc : Encoding) : Nat :=
  ((LineIndex.of text).offsetOfByte? byte enc).getD 0

end EditorSync.Text

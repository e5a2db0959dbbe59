import EditorSync.Toml.Quoted
import EditorSync.Toml.Scalar
import EditorSync.Toml.Tree

namespace EditorSync.Toml

open Text (Reader)

def skipBlanks (cs : List Char) : List Char := cs.dropWhile fun c => c = ' ' || c = '\t'

def lineEnd : Reader Unit
  | [] => some ((), [])
  | '\n' :: cs => some ((), cs)
  | '\r' :: '\n' :: cs => some ((), cs)
  | _ => none

def trailer : Reader Unit := fun cs =>
  match skipBlanks cs with
  | '#' :: cs => lineEnd (cs.dropWhile isPrintable)
  | cs => lineEnd cs

def skipLines : Nat → List Char → List Char
  | 0, cs => cs
  | fuel + 1, cs =>
    match trailer cs with
    | some ((), rest) => if rest = [] then [] else skipLines fuel rest
    | none => skipBlanks cs

def isKeyChar (c : Char) : Bool := c.isAlphanum || c = '_' || c = '-'

def name : Reader String := fun cs =>
  match cs with
  | '"' :: _ | '\'' :: _ => line cs
  | _ =>
    let bare := cs.takeWhile isKeyChar
    if bare = [] then none else some (String.ofList bare, cs.drop bare.length)

def key : Nat → Reader (List String × String)
  | 0, _ => none
  | fuel + 1, cs => do
    let (first, cs) ← name (skipBlanks cs)
    match skipBlanks cs with
    | '.' :: cs =>
      let ((front, last), cs) ← key fuel cs
      return ((first :: front, last), cs)
    | cs => return (([], first), cs)

mutual

def value : Nat → Reader Toml
  | 0, _ => none
  | fuel + 1, cs =>
    match cs with
    | '"' :: _ | '\'' :: _ => (quoted cs).map fun (s, rest) => (.string s, rest)
    | '[' :: cs => (elements fuel cs).map fun (vs, rest) => (.list vs, rest)
    | '\x7b' :: cs => (pairs fuel [] cs).map fun (ms, rest) => (.table (Members.close ms), rest)
    | cs => scalar cs

def elements : Nat → Reader (List Toml)
  | 0, _ => none
  | fuel + 1, cs =>
    match skipLines cs.length cs with
    | ']' :: cs => some ([], cs)
    | cs => do
      let (v, cs) ← value fuel cs
      match skipLines cs.length cs with
      | ',' :: cs => (elements fuel cs).map fun (vs, rest) => (v :: vs, rest)
      | ']' :: cs => some ([v], cs)
      | _ => none

def pairs : Nat → Members → Reader Members
  | 0, _, _ => none
  | fuel + 1, ms, cs =>
    match skipLines cs.length cs with
    | '\x7d' :: cs => some (ms, cs)
    | cs => do
      let ((front, last), cs) ← key cs.length cs
      let ((), cs) ← Reader.exact ['='] cs
      let (v, cs) ← value fuel (skipBlanks cs)
      let ms ← ms.set front last v
      match skipLines cs.length cs with
      | ',' :: cs => pairs fuel ms cs
      | '\x7d' :: cs => some (ms, cs)
      | _ => none

end

structure Document where
  members : Members
  current : List String

def Document.line (d : Document) : Reader Document := fun cs =>
  match skipBlanks cs with
  | '[' :: '[' :: cs => do
    let ((front, last), cs) ← key cs.length cs
    let ((), cs) ← Reader.exact [']', ']'] cs
    let ((), cs) ← trailer cs
    return (⟨← d.members.openItem front last, front ++ [last]⟩, cs)
  | '[' :: cs => do
    let ((front, last), cs) ← key cs.length cs
    let ((), cs) ← Reader.exact [']'] cs
    let ((), cs) ← trailer cs
    return (⟨← d.members.openTable front last, front ++ [last]⟩, cs)
  | cs =>
    match trailer cs with
    | some ((), cs) => some (d, cs)
    | none => do
      let ((front, last), cs) ← key cs.length cs
      let ((), cs) ← Reader.exact ['='] cs
      let (v, cs) ← value (cs.length + 1) (skipBlanks cs)
      let ((), cs) ← trailer cs
      let members ← d.members.enter false (fun _ ms => ms.set front last v) false d.current
      return (⟨members, d.current⟩, cs)

def Document.lines : Nat → Document → List Char → Option Document
  | _, d, [] => some d
  | 0, _, _ => none
  | fuel + 1, d, cs => (d.line cs).bind fun (d, rest) => lines fuel d rest

def parse? (text : String) : Option (List (String × Toml)) :=
  let cs := match text.toList with
    | '\uFEFF' :: cs => cs
    | cs => cs
  (Document.lines cs.length ⟨[], []⟩ cs).map fun d => Members.close d.members

end EditorSync.Toml

import EditorSync.Text.Reader

namespace EditorSync.Toml

open Text (Reader number?)

def isPrintable (c : Char) : Bool := c = '\t' || (0x20 ≤ c.toNat && c.toNat ≠ 0x7F)

def escaped? : Char → Option Char
  | 'b' => some '\x08'
  | 't' => some '\t'
  | 'n' => some '\n'
  | 'f' => some '\x0c'
  | 'r' => some '\r'
  | 'e' => some '\x1b'
  | '"' => some '"'
  | '\\' => some '\\'
  | _ => none

def charOf? (n : Nat) : Option Char := if h : n.isValidChar then some (Char.ofNatAux n h) else none

def numbered? (digits : List Char) : Option Char := (number? 16 digits).bind charOf?

def escape? : List Char → Option (Char × Nat)
  | 'x' :: cs => if 2 ≤ cs.length then (numbered? (cs.take 2)).map (·, 3) else none
  | 'u' :: cs => if 4 ≤ cs.length then (numbered? (cs.take 4)).map (·, 5) else none
  | 'U' :: cs => if 8 ≤ cs.length then (numbered? (cs.take 8)).map (·, 9) else none
  | c :: _ => (escaped? c).map (·, 1)
  | [] => none

def basic : Nat → Reader (List Char)
  | _, [] => none
  | skip + 1, _ :: cs => basic skip cs
  | 0, '"' :: cs => some ([], cs)
  | 0, '\\' :: cs => do
    let (c, width) ← escape? cs
    let (text, rest) ← basic width cs
    return (c :: text, rest)
  | 0, c :: cs =>
    if isPrintable c then (basic 0 cs).map fun (text, rest) => (c :: text, rest) else none

def literal : Reader (List Char)
  | [] => none
  | '\'' :: cs => some ([], cs)
  | c :: cs =>
    if isPrintable c then (literal cs).map fun (text, rest) => (c :: text, rest) else none

def isGap (c : Char) : Bool := c = ' ' || c = '\t' || c = '\n' || c = '\r'

def endsLine (cs : List Char) : Bool :=
  match cs.dropWhile fun c => c = ' ' || c = '\t' with
  | '\n' :: _ | '\r' :: '\n' :: _ => true
  | _ => false

def block (quote : Char) : Bool → Nat → Reader (List Char)
  | _, _, [] => none
  | inGap, skip + 1, _ :: cs => block quote inGap skip cs
  | inGap, 0, c :: cs =>
    if inGap && isGap c then block quote true 0 cs
    else if c = quote ∧ cs.take 2 = [quote, quote] then
      let extra := min ((cs.drop 2).takeWhile (· = quote)).length 2
      some (List.replicate extra quote, cs.drop (2 + extra))
    else if c = '\\' ∧ quote = '"' then
      if endsLine cs then block quote true 0 cs
      else do
        let (c, width) ← escape? cs
        let (text, rest) ← block quote false width cs
        return (c :: text, rest)
    else if isPrintable c ∨ c = '\n' ∨ (c = '\r' ∧ cs.head? = some '\n') then
      (block quote false 0 cs).map fun (text, rest) => (c :: text, rest)
    else none

def dropBreak : List Char → List Char
  | '\n' :: cs => cs
  | '\r' :: '\n' :: cs => cs
  | cs => cs

def line : Reader String
  | '"' :: cs => (basic 0 cs).map fun (text, rest) => (String.ofList text, rest)
  | '\'' :: cs => (literal cs).map fun (text, rest) => (String.ofList text, rest)
  | _ => none

def quoted : Reader String
  | '"' :: '"' :: '"' :: cs =>
    (block '"' false 0 (dropBreak cs)).map fun (text, rest) => (String.ofList text, rest)
  | '\'' :: '\'' :: '\'' :: cs =>
    (block '\'' false 0 (dropBreak cs)).map fun (text, rest) => (String.ofList text, rest)
  | cs => line cs

end EditorSync.Toml

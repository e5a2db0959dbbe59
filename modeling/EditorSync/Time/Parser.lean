import EditorSync.Text.Blank
import EditorSync.Text.Reader
import EditorSync.Time.Timestamp

namespace EditorSync.Time

open Text (Reader isBlank)

def skipBlanks (cs : List Char) : List Char := cs.dropWhile isBlank

def valueOf (digits : List Char) : Nat := (Text.number? 10 digits).getD 0

def number (width : Nat) : Reader Nat := fun cs =>
  let found := (cs.takeWhile Char.isDigit).take width
  if found = [] then none else some (valueOf found, cs.drop found.length)

def field (width : Nat) : Reader Nat := fun cs => number width (skipBlanks cs)

def mark (c : Char) : Reader Unit := fun cs =>
  match skipBlanks cs with
  | d :: rest => if d = c then some ((), rest) else none
  | [] => none

def year : Reader Int := fun cs =>
  match skipBlanks cs with
  | '-' :: rest => (number rest.length rest).map fun (n, r) => (-(n : Int), r)
  | '+' :: rest => (number rest.length rest).map fun (n, r) => ((n : Int), r)
  | cs => (number 4 cs).map fun (n, r) => ((n : Int), r)

def calendarDate : Reader Date := fun cs => do
  let (y, cs) ← year cs
  let ((), cs) ← mark '-' cs
  let (m, cs) ← field 2 cs
  let ((), cs) ← mark '-' cs
  let (d, cs) ← field 2 cs
  return (⟨y, m, d⟩, cs)

def fraction : Reader Nat
  | '.' :: cs =>
    let found := cs.takeWhile Char.isDigit
    if found = [] then none
    else some (valueOf ((found ++ List.replicate 9 '0').take 9), cs.drop found.length)
  | cs => some (0, cs)

def timeOfDay : Reader (Nat × Nat) := fun cs => do
  let (hour, cs) ← field 2 cs
  let ((), cs) ← mark ':' cs
  let (minute, cs) ← field 2 cs
  let ((), cs) ← mark ':' cs
  let (second, cs) ← field 2 cs
  let (nanos, cs) ← fraction cs
  guard (hour < 24 ∧ minute < 60 ∧ second ≤ 60)
  let start := hour * 3600 + minute * 60
  if second = 60 then return ((start + 59, 1000000000 + nanos), cs)
  else return ((start + second, nanos), cs)

def twoDigits : Reader Nat
  | a :: b :: cs => if a.isDigit ∧ b.isDigit then some (valueOf [a, b], cs) else none
  | _ => none

def hoursAndMinutes : Reader Nat := fun cs => do
  let (hours, cs) ← twoDigits cs
  let (minutes, cs) ← twoDigits (cs.dropWhile fun c => c = ':' || isBlank c)
  guard (hours < 24 ∧ minutes < 60)
  return (hours * 3600 + minutes * 60, cs)

def clockOffset : Reader Int := fun cs =>
  match cs with
  | 'Z' :: rest | 'z' :: rest => some (0, rest)
  | '+' :: rest => (hoursAndMinutes rest).map fun (n, r) => ((n : Int), r)
  | '-' :: rest | '−' :: rest => (hoursAndMinutes rest).map fun (n, r) => (-(n : Int), r)
  | u :: t :: c :: rest =>
    if [u, t, c].map Char.toLower = ['u', 't', 'c'] then some (0, rest) else none
  | _ => none

def inRange (year : Int) : Bool := -262143 ≤ year && year ≤ 262142

def Timestamp.parse? (text : String) : Option Timestamp := do
  let (date, cs) ← calendarDate text.toList
  let (c, cs) ← cs.head?.map ((·, cs.drop 1))
  guard (c = 'T' ∨ c = 't' ∨ c = ' ')
  let ((second, nanos), cs) ← timeOfDay cs
  let (offset, cs) ← clockOffset (skipBlanks cs)
  guard (skipBlanks cs = [] ∧ inRange date.year ∧ date.isReal)
  let t : Timestamp := ⟨date.dayNumber * 86400 + second - offset, nanos⟩
  guard (inRange t.date.year)
  return t

end EditorSync.Time

import EditorSync.Text.Reader
import EditorSync.Time.Calendar
import EditorSync.Toml.Basic

namespace EditorSync.Toml

open Text (Reader number?)

def groups? (base : Nat) (cs : List Char) : Option (List Nat) :=
  let pieces := cs.splitOn '_'
  if [] ∈ pieces then none else pieces.flatten.mapM (Text.digit? base)

def whole? (cs : List Char) : Option (List Nat) :=
  (groups? 10 cs).filter fun ds => ds.length = 1 ∨ ds.head? ≠ some 0

def splitSign : List Char → Option Bool × List Char
  | '+' :: cs => (some false, cs)
  | '-' :: cs => (some true, cs)
  | cs => (none, cs)

def inRange? (n : Int) : Option Toml :=
  if -0x8000000000000000 ≤ n ∧ n ≤ 0x7FFFFFFFFFFFFFFF then some (integer n) else none

def exponent? (cs : List Char) : Option Int :=
  let (negative, digits) := splitSign cs
  (groups? 10 digits).map fun ds =>
    let n : Int := Text.ofDigits 10 ds
    if negative = some true then -n else n

def realOf (negative : Bool) (digits : List Nat) (exponent : Int) : Toml :=
  let n := Text.ofDigits 10 digits
  let f : Float :=
    if n = 0 ∨ digits.length + exponent < -400 then 0.0
    else if 400 < exponent then 1.0 / 0.0
    else Float.ofScientific n (exponent < 0) exponent.natAbs
  real (if negative then -f else f).toBits

def decimal? (negative : Bool) (cs : List Char) : Option Toml := do
  let mantissa := cs.takeWhile fun c => c ≠ 'e' ∧ c ≠ 'E'
  let power := cs.drop mantissa.length
  let whole ← whole? (mantissa.takeWhile (· ≠ '.'))
  let fraction ← match mantissa.dropWhile (· ≠ '.') with
    | [] => some none
    | _ :: places => (groups? 10 places).map some
  let exponent ← match power with
    | [] => some none
    | _ :: digits => (exponent? digits).map some
  match fraction, exponent with
  | none, none =>
    let n : Int := Text.ofDigits 10 whole
    inRange? (if negative then -n else n)
  | _, _ =>
    let places := fraction.getD []
    return realOf negative (whole ++ places) (exponent.getD 0 - places.length)

def number (cs : List Char) : Option Toml :=
  let (negative, body) := splitSign cs
  let based (base : Nat) (digits : List Char) : Option Toml :=
    (groups? base digits).bind fun ds => inRange? (Text.ofDigits base ds)
  match negative, body with
  | none, '0' :: 'x' :: digits => based 16 digits
  | none, '0' :: 'o' :: digits => based 8 digits
  | none, '0' :: 'b' :: digits => based 2 digits
  | _, ['i', 'n', 'f'] =>
    let f : Float := if negative = some true then -1.0 / 0.0 else 1.0 / 0.0
    some (real f.toBits)
  | _, ['n', 'a', 'n'] => some (real (0.0 / 0.0 : Float).toBits)
  | _, _ => decimal? (negative = some true) body

def digits (width : Nat) : Reader Nat := fun cs =>
  if width ≤ cs.length then (number? 10 (cs.take width)).map (·, cs.drop width) else none

def date : Reader Unit := fun cs => do
  let (year, cs) ← digits 4 cs
  let ((), cs) ← Reader.exact ['-'] cs
  let (month, cs) ← digits 2 cs
  let ((), cs) ← Reader.exact ['-'] cs
  let (day, cs) ← digits 2 cs
  if (⟨year, month, day⟩ : Time.Date).isReal then some ((), cs) else none

def hourAndMinute : Reader Unit := fun cs => do
  let (hour, cs) ← digits 2 cs
  let ((), cs) ← Reader.exact [':'] cs
  let (minute, cs) ← digits 2 cs
  if hour < 24 ∧ minute < 60 then some ((), cs) else none

def time : Reader Unit := fun cs => do
  let ((), cs) ← hourAndMinute cs
  match cs with
  | ':' :: cs =>
    let (second, cs) ← digits 2 cs
    if 60 < second then none
    else
      match cs with
      | '.' :: places =>
        let rest := places.dropWhile Char.isDigit
        if rest.length = places.length then none else some ((), rest)
      | cs => some ((), cs)
  | cs => some ((), cs)

def clockOffset : Reader Unit
  | 'Z' :: cs | 'z' :: cs => some ((), cs)
  | '+' :: cs | '-' :: cs => hourAndMinute cs
  | cs => some ((), cs)

def isMoment (cs : List Char) : Bool :=
  match date cs with
  | some ((), []) => true
  | some ((), c :: rest) =>
    (c == 'T' || c == 't' || c == ' ') &&
      ((time rest).bind fun ((), rest) => clockOffset rest).any fun ((), rest) => rest.isEmpty
  | none => (time cs).any fun ((), rest) => rest.isEmpty

def momentText (cs : List Char) : String :=
  String.ofList (cs.map fun c => if c = ' ' then 'T' else c.toUpper)

def scalar? (cs : List Char) : Option Toml :=
  if cs = "true".toList then some (boolean true)
  else if cs = "false".toList then some (boolean false)
  else if isMoment cs then some (moment (momentText cs))
  else number cs

def isScalarChar (c : Char) : Bool := c.isAlphanum || "+-_.:".toList.contains c

def scalar : Reader Toml := fun cs =>
  let token := cs.takeWhile isScalarChar
  let rest := cs.drop token.length
  match (date token), rest with
  | some ((), []), ' ' :: c :: more =>
    if c.isDigit then
      let time := (c :: more).takeWhile isScalarChar
      (scalar? (token ++ ' ' :: time)).map (·, (c :: more).drop time.length)
    else (scalar? token).map (·, rest)
  | _, _ => (scalar? token).map (·, rest)

end EditorSync.Toml

import EditorSync.Json.Basic

namespace EditorSync.Json.Number

def wordMax : Nat := 0xFFFFFFFFFFFFFFFF

def absorb : Nat → List Nat → Nat × List Nat
  | n, [] => (n, [])
  | n, d :: ds => if wordMax < n * 10 + d then (n, d :: ds) else absorb (n * 10 + d) ds

def scale (f : Float) (exponent : Int) : Option Float :=
  if exponent.natAbs ≤ 308 then
    let power := Float.ofScientific 1 false exponent.natAbs
    if 0 ≤ exponent then
      let scaled := f * power
      if scaled.isInf then none else some scaled
    else some (f / power)
  else if f == 0.0 then some f
  else if 0 ≤ exponent then none
  else scale (f / 1e308) (exponent + 308)
  termination_by exponent.natAbs
  decreasing_by omega

def realOf (negative : Bool) (significand : Nat) (exponent : Int) : Option Number :=
  (scale significand.toUInt64.toFloat exponent).map fun f =>
    real (if negative then -f else f).toBits

def ofDigits (negative : Bool) (whole : List Nat) (fraction : Option (List Nat))
    (exponent : Option (Bool × List Nat)) : Option Number :=
  let (n, rest) := absorb 0 whole
  let shift : Int := match exponent with
    | none => 0
    | some (down, ds) =>
      let e : Nat := ds.foldl (fun e d => e * 10 + d) 0
      if down then -(e : Int) else e
  match fraction, exponent with
  | none, none =>
    if rest ≠ [] then realOf negative n rest.length
    else if !negative then some (int n)
    else if n = 0 ∨ 0x8000000000000000 < n then realOf true n 0
    else some (int (-n))
  | none, some _ => realOf negative n (rest.length + shift)
  | some ds, _ =>
    let (m, unread) := absorb n ds
    let places := ds.length - unread.length
    realOf negative m (rest.length - places + shift)

def parts (bits : UInt64) : Nat × Int :=
  let field : Nat := bits.toNat / 0x10000000000000 % 0x800
  let mantissa : Nat := bits.toNat % 0x10000000000000
  if field = 0 then (mantissa, -1074) else (mantissa + 0x10000000000000, (field : Int) - 1075)

structure Rounding where
  low : Nat
  value : Nat
  high : Nat
  closed : Bool
  exponent : Int

def Rounding.ofBits (bits : UInt64) : Rounding :=
  let (m, e) := parts bits
  let gap := if m = 0x10000000000000 ∧ -1074 < e then 1 else 2
  ⟨4 * m - gap, 4 * m, 4 * m + 2, m % 2 = 0, e - 2⟩

def Rounding.onGrid (r : Rounding) (grid : Int) (n : Nat) : Nat × Nat :=
  (n * Nat.pow 2 r.exponent.toNat * Nat.pow 10 (-grid).toNat,
    Nat.pow 2 (-r.exponent).toNat * Nat.pow 10 grid.toNat)

def Rounding.admits (r : Rounding) (grid : Int) (point : Nat) : Bool :=
  let (low, den) := r.onGrid grid r.low
  let (high, _) := r.onGrid grid r.high
  if r.closed then low ≤ point * den && point * den ≤ high
  else low < point * den && point * den < high

def Rounding.point? (r : Rounding) (grid : Int) : Option Nat :=
  let (top, bottom) := r.onGrid grid r.value
  let below := top / bottom
  let twice := 2 * (top % bottom)
  let up := bottom < twice || (twice == bottom && below % 2 == 1)
  match r.admits grid below, r.admits grid (below + 1) with
  | true, true => some (if up then below + 1 else below)
  | true, false => some below
  | false, true => some (below + 1)
  | false, false => none

def Rounding.shortest (r : Rounding) : Nat → Int → Nat × Int
  | 0, grid => ((r.point? grid).getD 0, grid)
  | fuel + 1, grid =>
    match r.point? grid with
    | some (n + 1) => (n + 1, grid)
    | _ => r.shortest fuel (grid - 1)

def normalize : Nat → Nat → Int → Nat × Int
  | 0, n, e => (n, e)
  | fuel + 1, n, e => if n ≠ 0 ∧ n % 10 = 0 then normalize fuel (n / 10) (e + 1) else (n, e)

def layout (n : Nat) (exponent : Int) : String :=
  let digits := toString n
  let point := digits.length + exponent
  if 0 ≤ exponent ∧ point ≤ 16 then
    digits ++ String.ofList (List.replicate exponent.toNat '0') ++ ".0"
  else if 0 < point ∧ point ≤ 16 then
    String.ofList (digits.toList.take point.toNat) ++ "." ++
      String.ofList (digits.toList.drop point.toNat)
  else if -5 < point ∧ point ≤ 0 then
    "0." ++ String.ofList (List.replicate (-point).toNat '0') ++ digits
  else
    let tail := digits.toList.drop 1
    String.ofList (digits.toList.take 1) ++
      (if tail.isEmpty then "" else "." ++ String.ofList tail) ++ "e" ++ toString (point - 1)

def renderReal (bits : UInt64) : String :=
  let sign := if bits.toNat / 0x8000000000000000 = 1 then "-" else ""
  let r := Rounding.ofBits bits
  if r.value = 0 then sign ++ "0.0"
  else
    let (n, e) := r.shortest 700 309
    let (n, e) := normalize 20 n e
    sign ++ layout n e

def render : Number → String
  | int n => toString n
  | real bits => renderReal bits

end EditorSync.Json.Number

import EditorSync.Time.Calendar

namespace EditorSync.Time

/-- A point in time in seconds since 1970-01-01 and nanoseconds. In a leap second the
nanoseconds go on to count from one billion. -/
structure Timestamp where
  seconds : Int
  nanos : Nat
  deriving DecidableEq, Repr

/-- How many seconds the clocks of a place are ahead at a point in time. -/
def Zone := Int → Int

def Zone.utc : Zone := fun _ => 0

def digits (width n : Nat) : String :=
  let text := Nat.repr n
  "".pushn '0' (width - text.length) ++ text

namespace Timestamp

def inZone (t : Timestamp) (zone : Zone) : Timestamp :=
  { t with seconds := t.seconds + zone t.seconds }

def date (t : Timestamp) : Date := Date.ofDayNumber (t.seconds / 86400)

def secondOfDay (t : Timestamp) : Nat := (t.seconds % 86400).toNat

def second (t : Timestamp) : Nat := t.secondOfDay % 60 + t.nanos / 1000000000

def clock (t : Timestamp) : String :=
  digits 2 (t.secondOfDay / 3600) ++ ":" ++ digits 2 (t.secondOfDay / 60 % 60) ++ ":" ++
    digits 2 t.second

def yearText (year : Int) : String :=
  if 0 ≤ year ∧ year ≤ 9999 then digits 4 year.toNat
  else (if year < 0 then "-" else "+") ++ digits 4 year.natAbs

def dateText (t : Timestamp) : String :=
  yearText t.date.year ++ "-" ++ digits 2 t.date.month ++ "-" ++ digits 2 t.date.day

def fractionText (nanos : Nat) : String :=
  if nanos = 0 then ""
  else if nanos % 1000000 = 0 then "." ++ digits 3 (nanos / 1000000)
  else if nanos % 1000 = 0 then "." ++ digits 6 (nanos / 1000)
  else "." ++ digits 9 nanos

def text (t : Timestamp) : String :=
  t.dateText ++ "T" ++ t.clock ++ fractionText (t.nanos % 1000000000) ++ "Z"

def isBefore (a b : Timestamp) : Bool :=
  a.seconds < b.seconds || (a.seconds == b.seconds && a.nanos < b.nanos)

def millis (t : Timestamp) : Int := t.seconds * 1000 + t.nanos / 1000000

def ofMillis (ms : Int) : Timestamp := ⟨ms / 1000, (ms % 1000).toNat * 1000000⟩

end Timestamp
end EditorSync.Time

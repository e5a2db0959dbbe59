import EditorSync.Time.Timestamp

namespace EditorSync.Console

def truncate (text : String) (width : Nat) : String :=
  if text.length ≤ width then text
  else if width ≤ 3 then "".pushn '.' width
  else String.ofList (text.toList.take (width - 3)) ++ "..."

def alignLeft (width : Nat) (text : String) : String := text.pushn ' ' (width - text.length)

def alignRight (width : Nat) (text : String) : String :=
  "".pushn ' ' (width - text.length) ++ text

structure Columns where
  row : Nat
  id : Nat
  pid : Nat
  workspace : Nat
  encoding : Nat
  deriving DecidableEq, Repr

def Columns.ofWidth (width : Nat) : Columns where
  row := 3
  id := 14
  pid := 8
  workspace := max (width - 50) 20
  encoding := 8

def Columns.line (c : Columns) (row id pid workspace encoding last : String) : String :=
  " ".intercalate [alignRight c.row row, alignLeft c.id id, alignLeft c.pid pid,
    alignLeft c.workspace workspace, alignLeft c.encoding encoding, last]

def ago (elapsedMs : Int) : String :=
  let seconds := elapsedMs.tdiv 1000
  let minutes := elapsedMs.tdiv 60000
  let hours := elapsedMs.tdiv 3600000
  if 0 < hours then s!"{hours}h {minutes.tmod 60}m ago"
  else if 0 < minutes then s!"{minutes}m ago"
  else s!"{seconds}s ago"

theorem length_truncate_le (text : String) (width : Nat) :
    (truncate text width).length ≤ width := by
  unfold truncate
  split
  · assumption
  · split
    · simp [String.length_pushn]
    · simp only [String.length_append, String.length_ofList, List.length_take]
      have : "...".length = 3 := rfl
      omega

end EditorSync.Console

import EditorSync.Message.ReconcileState

namespace EditorSync.Reconcile

structure Diagnostic where
  message : String
  isError : Bool
  isWarning : Bool
  start : Nat
  stop : Nat
  line : Nat
  code : Option String
  deriving DecidableEq, Repr

def codeNumber? (code : String) : Option Int :=
  let (negative, digits) := match code.toList with
    | '-' :: rest => (true, rest)
    | '+' :: rest => (false, rest)
    | cs => (false, cs)
  if digits = [] ∨ !digits.all Char.isDigit then none
  else
    let n : Nat := digits.foldl (fun n c => n * 10 + (c.toNat - '0'.toNat)) 0
    let i : Int := if negative then -n else n
    if -0x8000000000000000 ≤ i ∧ i ≤ 0x7FFFFFFFFFFFFFFF then some i else none

namespace Diagnostic

def toProblem (d : Diagnostic) (file : String) : Problem where
  message := d.message
  id := (d.code.bind codeNumber?).getD 0
  error := d.isError
  warning := d.isWarning
  sourceStart := d.start
  sourceEnd := max (d.stop - 1) d.start
  sourceLine := d.line
  file := file
  arguments := d.code.toList

def toJson (d : Diagnostic) : Json :=
  .obj [("message", .str d.message), ("is_error", .bool d.isError),
    ("is_warning", .bool d.isWarning), ("start", .ofNat d.start), ("end", .ofNat d.stop),
    ("line", .ofNat d.line), ("code", .ofOption .str d.code)]

end Diagnostic

structure Outcome where
  diagnostics : List Diagnostic
  highlights : List Highlight
  deriving DecidableEq, Repr

def Outcome.empty : Outcome := ⟨[], []⟩

end EditorSync.Reconcile

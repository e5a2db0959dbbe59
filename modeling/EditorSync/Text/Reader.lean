namespace EditorSync.Text

abbrev Reader (α : Type) := List Char → Option (α × List Char)

def Reader.exact (word : List Char) : Reader Unit := fun cs =>
  if word.isPrefixOf cs then some ((), cs.drop word.length) else none

def digit? (base : Nat) (c : Char) : Option Nat :=
  let value : Option Nat :=
    if c.isDigit then some (c.toNat - '0'.toNat)
    else if 'a' ≤ c ∧ c ≤ 'f' then some (c.toNat - 'a'.toNat + 10)
    else if 'A' ≤ c ∧ c ≤ 'F' then some (c.toNat - 'A'.toNat + 10)
    else none
  value.filter (· < base)

def ofDigits (base : Nat) (digits : List Nat) : Nat := digits.foldl (fun n d => n * base + d) 0

def number? (base : Nat) (cs : List Char) : Option Nat :=
  if cs = [] then none else (cs.mapM (digit? base)).map (ofDigits base)

end EditorSync.Text

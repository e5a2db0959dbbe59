import EditorSync.Delta

namespace EditorSync.Editor

structure DocumentChange where
  document : String
  offset : Nat
  length : Nat
  removed : Nat
  text : String
  deriving DecidableEq, Repr

namespace DocumentChange

def replacement (document : String) (offset removed : Nat) (text : String) : DocumentChange :=
  ⟨document, offset, text.length, removed, text⟩

def insertion (document : String) (offset : Nat) (text : String) : DocumentChange :=
  replacement document offset 0 text

def removal (document : String) (offset removed : Nat) : DocumentChange :=
  replacement document offset removed ""

def toDeltas (change : DocumentChange) : List Delta :=
  (if change.removed = 0 then [] else [.remove change.offset change.removed]) ++
    (if change.text = "" then [] else [.insert change.offset change.text])

end DocumentChange
end EditorSync.Editor

import EditorSync.Disk.Basic

namespace EditorSync.Disk

def gone (old new : Disk) : List (List String) :=
  (old.entries.keys.filter fun p => (new.entry? p).isNone).mergeSort fun p q =>
    q.length ≤ p.length

def fresh (old new : Disk) : List (List String × Entry) :=
  (new.entries.entries.filter fun (p, e) => old.entry? p ≠ some e).mergeSort fun a b =>
    a.1.length ≤ b.1.length

end EditorSync.Disk

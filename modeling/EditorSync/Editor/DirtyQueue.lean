import EditorSync.Delta

namespace EditorSync.Editor

structure DirtyRegion where
  delta : Delta
  since : Nat
  deriving DecidableEq, Repr

structure DirtyQueue where
  regions : List DirtyRegion
  deriving DecidableEq, Repr

namespace DirtyQueue

def empty : DirtyQueue := ⟨[]⟩

def size (q : DirtyQueue) : Nat := q.regions.length

def add (q : DirtyQueue) (delta : Delta) (now : Nat) : DirtyQueue :=
  ⟨q.regions ++ [⟨delta, now⟩]⟩

def addAll (q : DirtyQueue) (deltas : List Delta) (now : Nat) : DirtyQueue :=
  deltas.foldl (fun q delta => q.add delta now) q

def next? (q : DirtyQueue) : Option DirtyRegion := q.regions.head?

def tail (q : DirtyQueue) : DirtyQueue := ⟨q.regions.tail⟩

def deltas (q : DirtyQueue) : List Delta := q.regions.map (·.delta)

def oldest? (q : DirtyQueue) : Option Nat := q.next?.map (·.since)

@[simp] theorem deltas_add (q : DirtyQueue) (delta : Delta) (now : Nat) :
    (q.add delta now).deltas = q.deltas ++ [delta] := by
  simp [deltas, add]

@[simp] theorem deltas_addAll (q : DirtyQueue) (ds : List Delta) (now : Nat) :
    (q.addAll ds now).deltas = q.deltas ++ ds := by
  induction ds generalizing q with
  | nil => simp [addAll]
  | cons d ds ih =>
    change ((q.add d now).addAll ds now).deltas = _
    simp [ih]

end DirtyQueue
end EditorSync.Editor

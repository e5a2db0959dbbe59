namespace EditorSync

structure Table (κ α : Type) where
  entries : List (κ × α)
  nodup : (entries.map (·.1)).Nodup
  deriving DecidableEq

namespace Table

variable {κ α β : Type} [DecidableEq κ]

instance [Repr κ] [Repr α] : Repr (Table κ α) := ⟨fun t n => reprPrec t.entries n⟩

def empty : Table κ α := ⟨[], by simp⟩

instance : Inhabited (Table κ α) := ⟨empty⟩

def keys (t : Table κ α) : List κ := t.entries.map (·.1)

def size (t : Table κ α) : Nat := t.entries.length

def get? (t : Table κ α) (k : κ) : Option α := t.entries.lookup k

def contains (t : Table κ α) (k : κ) : Bool := (t.get? k).isSome

def filter (t : Table κ α) (p : κ → α → Bool) : Table κ α :=
  ⟨t.entries.filter fun (k, a) => p k a, t.nodup.sublist (List.filter_sublist.map _)⟩

def erase (t : Table κ α) (k : κ) : Table κ α := t.filter fun k' _ => k' ≠ k

def insert (t : Table κ α) (k : κ) (a : α) : Table κ α :=
  ⟨(t.erase k).entries ++ [(k, a)], by
    have h : k ∉ (t.erase k).entries.map (·.1) := by simp [erase, filter]
    simpa [List.nodup_append] using ⟨(t.erase k).nodup, fun a b hab hak => h (by simp_all)⟩⟩

def ofList (entries : List (κ × α)) : Table κ α :=
  entries.foldl (fun t (k, a) => t.insert k a) empty

def modify (t : Table κ α) (k : κ) (f : α → α) : Table κ α :=
  match t.get? k with
  | some a => t.insert k (f a)
  | none => t

private theorem lookup_filter (p : κ → α → Bool) (k : κ) (entries : List (κ × α))
    (nodup : (entries.map (·.1)).Nodup) :
    (entries.filter fun (k, a) => p k a).lookup k = (entries.lookup k).filter (p k) := by
  induction entries with
  | nil => rfl
  | cons e rest ih =>
    obtain ⟨k', a⟩ := e
    simp only [List.map_cons, List.nodup_cons] at nodup
    have ih := ih nodup.2
    by_cases hk : k = k'
    · subst hk
      have hnone : rest.lookup k = none := by
        rw [List.lookup_eq_none_iff]
        intro e he
        simp only [bne_iff_ne, ne_eq]
        rintro rfl
        exact nodup.1 (List.mem_map_of_mem he)
      by_cases hp : p k a <;> simp [hp, ih, hnone, Option.filter]
    · by_cases hp : p k' a <;> simp [hp, ih, hk, List.lookup_cons, beq_false_of_ne]

@[simp] theorem get?_empty (k : κ) : (empty : Table κ α).get? k = none := rfl

@[simp] theorem get?_filter (t : Table κ α) (p : κ → α → Bool) (k : κ) :
    (t.filter p).get? k = (t.get? k).filter (p k) :=
  lookup_filter p k t.entries t.nodup

theorem get?_erase (t : Table κ α) (k k' : κ) :
    (t.erase k).get? k' = if k' = k then none else t.get? k' := by
  rw [erase, get?_filter]
  by_cases h : k' = k
  · subst h
    cases t.get? k' <;> simp [Option.filter]
  · cases t.get? k' <;> simp [h, Option.filter]

theorem get?_insert (t : Table κ α) (k k' : κ) (a : α) :
    (t.insert k a).get? k' = if k' = k then some a else t.get? k' := by
  have h : (t.insert k a).get? k' = ((t.erase k).get? k').or ([(k, a)].lookup k') := by
    simp [get?, insert, List.lookup_append]
  rw [h, get?_erase]
  by_cases hk : k' = k
  · simp [hk]
  · simp [hk, List.lookup_cons, beq_false_of_ne]

end Table
end EditorSync

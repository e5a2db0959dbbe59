import EditorSync.Table

namespace EditorSync.Table

variable {κ α : Type}

theorem size_le_of_keys_subset (t : Table κ α) (ks : List κ) (h : t.keys ⊆ ks) :
    t.size ≤ ks.length := by
  have hlen : t.size = t.keys.length := by simp [size, keys]
  rw [hlen]
  exact t.nodup.length_le_of_subset h

variable [DecidableEq κ]

theorem mem_keys_iff (t : Table κ α) (k : κ) : k ∈ t.keys ↔ (t.get? k).isSome := by
  have h : t.get? k = none ↔ k ∉ t.keys := by
    simp only [get?, List.lookup_eq_none_iff, keys, List.mem_map, not_exists, not_and, bne_iff_ne]
    exact ⟨fun h e he hk => h e he hk.symm, fun h e he hk => h e he hk.symm⟩
  rw [← Decidable.not_iff_not, ← h]
  simp

theorem get?_eq_some_iff (t : Table κ α) (k : κ) (a : α) :
    t.get? k = some a ↔ (k, a) ∈ t.entries := by
  obtain ⟨entries, nodup⟩ := t
  change entries.lookup k = some a ↔ (k, a) ∈ entries
  induction entries with
  | nil => simp
  | cons e rest ih =>
    obtain ⟨k', a'⟩ := e
    rw [List.map_cons, List.nodup_cons] at nodup
    rw [List.lookup_cons, List.mem_cons, Prod.mk.injEq]
    by_cases hk : k = k'
    · subst hk
      have hrest : (k, a) ∉ rest := fun h => nodup.1 (List.mem_map.mpr ⟨(k, a), h, rfl⟩)
      simp [hrest, eq_comm]
    · simp [hk, beq_false_of_ne hk, ih nodup.2]

theorem get?_insert_self (t : Table κ α) (k : κ) (a : α) : (t.insert k a).get? k = some a := by
  rw [get?_insert, if_pos rfl]

theorem get?_modify (t : Table κ α) (k k' : κ) (f : α → α) :
    (t.modify k f).get? k' = if k' = k then (t.get? k).map f else t.get? k' := by
  unfold modify
  cases hk : t.get? k with
  | none =>
    dsimp only
    split
    · rename_i hsame
      rw [hsame, hk]
      rfl
    · rfl
  | some a => exact get?_insert t k k' (f a)

theorem size_erase_lt (t : Table κ α) (k : κ) (a : α) (h : t.get? k = some a) :
    (t.erase k).size < t.size := by
  have hk : k ∈ t.keys := by rw [mem_keys_iff, h, Option.isSome_some]
  obtain ⟨e, he, hek⟩ := List.mem_map.mp hk
  exact List.length_filter_lt_length_iff_exists.mpr ⟨e, he, by simp [hek]⟩

theorem size_insert_le (t : Table κ α) (k : κ) (a : α) : (t.insert k a).size ≤ t.size + 1 := by
  have herase : (t.erase k).size ≤ t.size := List.length_filter_le _ _
  have hinsert : (t.insert k a).size = (t.erase k).size + 1 := List.length_append
  omega

theorem perm_erase (t : Table κ α) {k : κ} {a : α} (h : t.get? k = some a) :
    t.entries.Perm ((k, a) :: (t.erase k).entries) := by
  have hmem : (k, a) ∈ t.entries := (t.get?_eq_some_iff k a).mp h
  obtain ⟨entries, nodup⟩ := t
  change entries.Perm ((k, a) :: entries.filter fun e => e.1 ≠ k)
  change (k, a) ∈ entries at hmem
  clear h
  induction entries with
  | nil => cases hmem
  | cons e rest ih =>
    rw [List.map_cons, List.nodup_cons] at nodup
    rw [List.filter_cons]
    rcases List.mem_cons.mp hmem with rfl | hrest
    · have hall : rest.filter (fun e => e.1 ≠ k) = rest := by
        rw [List.filter_eq_self]
        intro e he
        have hne : e.1 ≠ k := fun hk => nodup.1 (List.mem_map.mpr ⟨e, he, hk⟩)
        exact decide_eq_true hne
      simp only [ne_eq, not_true, decide_false, Bool.false_eq_true, if_false, hall, List.Perm.refl]
    · have hne : e.1 ≠ k := fun hk => nodup.1 (List.mem_map.mpr ⟨_, hrest, hk.symm⟩)
      rw [if_pos (decide_eq_true hne)]
      exact ((ih nodup.2 hrest).cons e).trans (List.Perm.swap _ _ _)

theorem eq_empty_of_get?_eq_none (t : Table κ α) (h : ∀ k, t.get? k = none) : t = empty := by
  obtain ⟨entries, nodup⟩ := t
  cases entries with
  | nil => rfl
  | cons e rest =>
    have hhead := h e.1
    simp [get?] at hhead

end EditorSync.Table

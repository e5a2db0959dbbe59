import EditorSync.Json.Decoder
import EditorSync.Proofs.Json.Parser

namespace EditorSync.Json

variable {name other : String} {value j : Json} {members sorted : List (String × Json)}

def Scalar (j : Json) : Prop := ∀ depth, value? depth j = some j

theorem scalar_str (s : String) : Scalar (str s) := fun depth => by cases depth <;> rfl

theorem scalar_num (n : Number) : Scalar (num n) := fun depth => by cases depth <;> rfl

def gather (members : List (String × Json)) : List (String × Json) :=
  members.foldl (fun sorted m => insertSorted m.1 m.2 sorted) []

theorem lookup_cons_eq_ite (other name : String) (value : Json) (members : List (String × Json)) :
    ((name, value) :: members).lookup other =
      if other = name then some value else members.lookup other := by
  rw [List.lookup_cons]
  by_cases h : other = name
  · rw [beq_iff_eq.mpr h, if_pos h]
  · rw [beq_eq_false_iff_ne.mpr h, if_neg h]

theorem lookup_memberIfSome {α : Type} (other name : String) (f : α → Json) (a? : Option α) :
    (memberIfSome name f a?).lookup other = if other = name then a?.map f else none := by
  cases a? with
  | none => exact (ite_self none).symm
  | some a => exact lookup_cons_eq_ite other name (f a) []

theorem names_memberIfSome {α : Type} (name : String) (f : α → Json) (a? : Option α) :
    ((memberIfSome name f a?).map (·.1)).Sublist [name] := by
  cases a? with
  | none => exact List.nil_sublist _
  | some a => exact List.Sublist.refl _

theorem forall_mem_memberIfSome {α : Type} {P : String × Json → Prop} {f : α → Json}
    {a? : Option α} (h : ∀ a, a? = some a → P (name, f a)) :
    ∀ m ∈ memberIfSome name f a?, P m := by
  cases a? with
  | none => exact fun _ hm => nomatch hm
  | some a => exact List.forall_mem_singleton.mpr (h a rfl)

theorem lookup_insertSorted (other name : String) (value : Json)
    (members : List (String × Json)) : (insertSorted name value members).lookup other =
      if other = name then some value else members.lookup other := by
  induction members with
  | nil => exact lookup_cons_eq_ite other name value []
  | cons m members ih =>
    obtain ⟨n, v⟩ := m
    rw [insertSorted]
    split
    next => exact lookup_cons_eq_ite ..
    split
    next heq =>
      subst heq
      rw [lookup_cons_eq_ite, lookup_cons_eq_ite]
      split <;> rfl
    next hne =>
      rw [lookup_cons_eq_ite, lookup_cons_eq_ite, ih]
      by_cases hother : other = n
      · rw [if_pos hother, if_neg (hother ▸ Ne.symm hne), if_pos hother]
      · rw [if_neg hother, if_neg hother]

theorem mem_insertSorted {m : String × Json} (h : m ∈ insertSorted name value members) :
    m = (name, value) ∨ m ∈ members := by
  induction members with
  | nil => exact .inl (List.mem_singleton.mp h)
  | cons m' members ih =>
    rw [insertSorted] at h
    split at h
    · exact (List.mem_cons.mp h)
    · split at h
      · exact (List.mem_cons.mp h).imp_right (List.mem_cons_of_mem _)
      · rcases List.mem_cons.mp h with h | h
        · exact .inr (h ▸ List.mem_cons_self)
        · exact (ih h).imp_right (List.mem_cons_of_mem _)

def Ordered (members : List (String × Json)) : Prop := members.Pairwise (·.1 < ·.1)

theorem Ordered.insertSorted (h : Ordered members) (name : String) (value : Json) :
    Ordered (insertSorted name value members) := by
  induction members with
  | nil => exact List.pairwise_singleton _ _
  | cons m members ih =>
    obtain ⟨n, v⟩ := m
    obtain ⟨hfirst, hrest⟩ := List.pairwise_cons.mp h
    rw [Json.insertSorted]
    split
    next hlt =>
      refine List.pairwise_cons.mpr ⟨fun m hm => ?_, h⟩
      rcases List.mem_cons.mp hm with rfl | hm
      · exact hlt
      · exact String.lt_trans hlt (hfirst m hm)
    next hge =>
      split
      next heq =>
        subst heq
        exact List.pairwise_cons.mpr ⟨hfirst, hrest⟩
      next hne =>
        have hlt : n < name := by
          refine Decidable.byContradiction fun hnot => hne ?_
          exact String.le_antisymm (String.not_lt.mp hnot) (String.not_lt.mp hge)
        refine List.pairwise_cons.mpr ⟨fun m hm => ?_, ih hrest⟩
        rcases mem_insertSorted hm with rfl | hm
        · exact hlt
        · exact hfirst m hm

theorem insertSorted_last (h : ∀ m ∈ members, m.1 < name) :
    insertSorted name value members = members ++ [(name, value)] := by
  induction members with
  | nil => rfl
  | cons m members ih =>
    obtain ⟨n, v⟩ := m
    have hlt : n < name := h (n, v) List.mem_cons_self
    have hge : ¬name < n := fun hgt => String.lt_irrefl n (String.lt_trans hlt hgt)
    have hne : name ≠ n := fun heq => String.lt_irrefl n (heq ▸ hlt)
    rw [insertSorted, if_neg hge, if_neg hne, ih fun m hm => h m (List.mem_cons_of_mem _ hm)]
    rfl

theorem ordered_foldl (h : Ordered sorted) :
    Ordered (members.foldl (fun sorted m => Json.insertSorted m.1 m.2 sorted) sorted) := by
  induction members generalizing sorted with
  | nil => exact h
  | cons m members ih => exact ih (h.insertSorted m.1 m.2)

theorem ordered_gather (members : List (String × Json)) : Ordered (gather members) :=
  ordered_foldl List.Pairwise.nil

theorem mem_of_mem_foldl {m : String × Json}
    (h : m ∈ members.foldl (fun sorted m => insertSorted m.1 m.2 sorted) sorted) :
    m ∈ members ∨ m ∈ sorted := by
  induction members generalizing sorted with
  | nil => exact .inr h
  | cons first members ih =>
    rcases ih h with h | h
    · exact .inl (List.mem_cons_of_mem _ h)
    · rcases mem_insertSorted h with rfl | h
      · exact .inl List.mem_cons_self
      · exact .inr h

theorem mem_of_mem_gather {m : String × Json} (h : m ∈ gather members) : m ∈ members :=
  (mem_of_mem_foldl h).resolve_right List.not_mem_nil

theorem lookup_foldl (h : (members.map (·.1)).Nodup) (name : String) :
    (members.foldl (fun sorted m => insertSorted m.1 m.2 sorted) sorted).lookup name =
      (members.lookup name).or (sorted.lookup name) := by
  induction members generalizing sorted with
  | nil => rfl
  | cons m members ih =>
    obtain ⟨n, v⟩ := m
    rw [List.map_cons, List.nodup_cons] at h
    rw [List.foldl_cons, ih h.2, lookup_insertSorted, lookup_cons_eq_ite]
    by_cases hname : name = n
    · have hnone : members.lookup name = none := by
        refine List.lookup_eq_none_iff.mpr fun m hm => bne_iff_ne.mpr fun heq => h.1 ?_
        exact List.mem_map.mpr ⟨m, hm, heq.symm.trans hname⟩
      rw [if_pos hname, if_pos hname, hnone]
      rfl
    · rw [if_neg hname, if_neg hname]

theorem lookup_gather (h : (members.map (·.1)).Nodup) (name : String) :
    (gather members).lookup name = members.lookup name :=
  (lookup_foldl h name).trans Option.or_none

theorem foldl_of_ordered (h : Ordered (sorted ++ members)) :
    members.foldl (fun sorted m => Json.insertSorted m.1 m.2 sorted) sorted =
      sorted ++ members := by
  induction members generalizing sorted with
  | nil => exact (List.append_nil sorted).symm
  | cons m members ih =>
    have hbelow : ∀ m' ∈ sorted, m'.1 < m.1 := fun m' hm' =>
      (List.pairwise_append.mp h).2.2 m' hm' m List.mem_cons_self
    have hmove : sorted ++ m :: members = sorted ++ [m] ++ members := by simp
    rw [hmove] at h ⊢
    rw [List.foldl_cons, insertSorted_last hbelow]
    exact ih h

theorem Ordered.gather_eq (h : Ordered members) : gather members = members :=
  foldl_of_ordered h

theorem Ordered.nodup (h : Ordered members) : (members.map (·.1)).Nodup := by
  refine List.pairwise_map.mpr (List.Pairwise.imp ?_ h)
  intro a b hlt heq
  rw [heq] at hlt
  exact String.lt_irrefl b.1 hlt

theorem value?_obj (h : ∀ m ∈ members, Scalar m.2) (depth : Nat) :
    value? (depth + 1) (obj members) = some (obj (gather members)) := by
  have hfold (sorted : List (String × Json)) : members? depth members sorted =
      some (members.foldl (fun sorted m => insertSorted m.1 m.2 sorted) sorted) := by
    induction members generalizing sorted with
    | nil => rw [members?, List.foldl_nil]
    | cons m members ih =>
      have hm := h m List.mem_cons_self depth
      rw [members?, hm]
      exact ih (fun m' hm' => h m' (List.mem_cons_of_mem _ hm')) _
  rw [value?, hfold]
  rfl

theorem sorted_obj (h : ∀ m ∈ members, Scalar m.2) :
    Json.sorted (obj members) = obj (gather members) := by
  rw [Json.sorted, height, value?_obj h, Option.getD_some]

theorem lookup_filter (names : List String) (members : List (String × Json)) (name : String)
    (h : name ∈ names) :
    (members.filter fun m => names.contains m.1).lookup name = members.lookup name := by
  induction members with
  | nil => rfl
  | cons m members ih =>
    obtain ⟨n, v⟩ := m
    rw [List.filter_cons, lookup_cons_eq_ite]
    split
    next => rw [lookup_cons_eq_ite, ih]
    next hskip =>
      have hname : name ≠ n := by
        rintro rfl
        exact hskip (List.contains_iff_mem.mpr h)
      rw [ih, if_neg hname]

theorem record_obj {α : Type} (names : List String) (read : Record → Option α)
    (h : (members.map (·.1)).Nodup) (depth : Nat) :
    Decoder.record names read (depth + 1) (obj members) =
      read ⟨false, depth, members.filter fun m => names.contains m.1⟩ := by
  have hnodup : ((members.filter fun m => names.contains m.1).map (·.1)).Nodup :=
    h.sublist (List.filter_sublist.map _)
  exact if_pos hnodup

namespace Record

variable {α : Type} {r : Record} {d : Decoder α} {a : α}

theorem required_eq (hlookup : r.members.lookup name = some j) (hread : d r.depth j = some a) :
    r.required name d = some a := by
  rw [required, hlookup, Option.bind_some, hread]

theorem withDefault_eq {default : α} (hlookup : r.members.lookup name = some j)
    (hread : d r.depth j = some a) : r.withDefault name default d = some a := by
  rw [withDefault, hlookup]
  exact hread

theorem optionalOrAbsent_eq {a? : Option α} {f : α → Json}
    (hlookup : r.members.lookup name = a?.map f) (hne : ∀ a, f a ≠ null)
    (hread : ∀ a, a? = some a → d r.depth (f a) = some a) :
    r.optionalOrAbsent name d = some a? := by
  rw [optionalOrAbsent, withDefault, hlookup]
  cases a? with
  | none => rfl
  | some a =>
    have hsome : d.optional r.depth (f a) = (d r.depth (f a)).map some :=
      Decoder.optional.eq_2 d _ _ (hne a)
    rw [Option.map_some]
    dsimp only
    rw [hsome, hread a rfl, Option.map_some]

end Record

theorem word64_ofNat {n : Nat} (h : n < 0x10000000000000000) (depth : Nat) :
    Decoder.word64 depth (ofNat n) = some n := by
  have hpow : ((Nat.pow 2 64 : Nat) : Int) = 0x10000000000000000 := by decide
  have hbounds : (0 : Int) ≤ n ∧ (n : Int) ≤ ((Nat.pow 2 64 : Nat) : Int) - 1 := by omega
  have hinteger : Decoder.integer 0 ((Nat.pow 2 64 : Nat) - 1) depth (ofNat n) = some (n : Int) :=
    if_pos hbounds
  rw [Decoder.word64, Decoder.word, hinteger]
  rfl

end EditorSync.Json

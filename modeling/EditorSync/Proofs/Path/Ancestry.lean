import Mathlib.Data.List.Infix
import EditorSync.Proofs.Path

/-! Ancestry of paths, which goes by components, and the size of paths, which goes by bytes. -/

namespace EditorSync.Path

variable {a b path : String} {ns ms : List String}

theorem Component.ofName_injective : Function.Injective Component.ofName := by
  intro a b h
  unfold Component.ofName at h
  split at h <;> split at h <;> simp_all

theorem components_normal (h : normalize? path = some path) :
    components path = .root :: (names path).map Component.ofName := by
  have habsolute : isAbsolute path = true := by
    rw [(normalize?_normal h).2.1]
    exact isAbsolute_ofNames _
  unfold components
  rw [if_pos habsolute]

theorem contains_iff : contains a path = true ↔ components a <+: components path :=
  List.isPrefixOf_iff_prefix

theorem contains_refl (path : String) : contains path path = true :=
  contains_iff.mpr List.prefix_rfl

theorem isProperAncestor_iff : isProperAncestor a path = true ↔
    contains a path = true ∧ (components a).length < (components path).length := by
  rw [isProperAncestor, Bool.and_eq_true, decide_eq_true_eq]
  rfl

theorem contains_normal (ha : normalize? a = some a) (hpath : normalize? path = some path) :
    contains a path = true ↔ names a <+: names path := by
  rw [contains_iff, components_normal ha, components_normal hpath, List.cons_prefix_cons,
    List.prefix_map_iff_of_injective Component.ofName_injective]
  exact and_iff_right rfl

theorem contains_ofNames (hns : ∀ name ∈ ns, Plain name) (hms : ∀ name ∈ ms, Plain name) :
    contains (ofNames ns) (ofNames ms) = true ↔ ns <+: ms := by
  rw [contains_normal (normalize?_ofNames hns) (normalize?_ofNames hms), names_ofNames_of_plain hns,
    names_ofNames_of_plain hms]

theorem contains_ofNames_append (ns ms : List String) :
    contains (ofNames ns) (ofNames (ns ++ ms)) = true := by
  rw [contains_iff]
  simp only [components, isAbsolute_ofNames, if_true, names_ofNames, List.flatMap_append,
    List.map_append]
  exact List.cons_prefix_cons.mpr ⟨rfl, List.prefix_append _ _⟩

theorem isProperAncestor_normal (ha : normalize? a = some a) (hpath : normalize? path = some path) :
    isProperAncestor a path = true ↔ ∃ rest, rest ≠ [] ∧ names path = names a ++ rest := by
  rw [isProperAncestor_iff, contains_normal ha hpath, components_normal ha, components_normal hpath]
  simp only [List.length_cons, List.length_map]
  constructor
  · rintro ⟨⟨rest, hrest⟩, hlength⟩
    refine ⟨rest, ?_, hrest.symm⟩
    rintro rfl
    rw [List.append_nil] at hrest
    rw [hrest] at hlength
    exact Nat.lt_irrefl _ hlength
  · rintro ⟨rest, hne, hrest⟩
    have hpos := List.length_pos_iff.mpr hne
    rw [hrest, List.length_append]
    exact ⟨List.prefix_append _ _, by omega⟩

theorem contains_antisymm (ha : normalize? a = some a) (hb : normalize? b = some b)
    (hab : contains a b = true) (hba : contains b a = true) : a = b := by
  rw [contains_normal ha hb] at hab
  rw [contains_normal hb ha] at hba
  rw [(normalize?_normal ha).2.1, (normalize?_normal hb).2.1,
    hab.eq_of_length_le hba.length_le]

theorem eq_or_isProperAncestor_of_contains (ha : normalize? a = some a) (hb : normalize? b = some b)
    (h : contains a b = true) : a = b ∨ isProperAncestor a b = true := by
  obtain ⟨rest, hrest⟩ := (contains_normal ha hb).mp h
  cases rest with
  | nil =>
    rw [List.append_nil] at hrest
    exact .inl (by rw [(normalize?_normal ha).2.1, (normalize?_normal hb).2.1, hrest])
  | cons name rest =>
    exact .inr ((isProperAncestor_normal ha hb).mpr ⟨_, List.cons_ne_nil name rest, hrest.symm⟩)

theorem contains_of_utf8ByteSize_le (ha : normalize? a = some a) (hb : normalize? b = some b)
    (hpath : contains a path = true) (hpath' : contains b path = true)
    (hle : a.utf8ByteSize ≤ b.utf8ByteSize) : contains a b = true := by
  rw [contains_iff] at hpath hpath' ⊢
  rcases List.prefix_or_prefix_of_prefix hpath hpath' with hab | hba
  · exact hab
  · have hnames : names b <+: names a := by
      rwa [← contains_iff, contains_normal hb ha] at hba
    by_cases hsame : names b = names a
    · rw [components_normal ha, components_normal hb, hsame]
    · have hlt := utf8ByteSize_ofNames_lt hnames hsame fun name hname =>
        ((normalize?_normal ha).2.2 name hname).1
      rw [← (normalize?_normal ha).2.1, ← (normalize?_normal hb).2.1] at hlt
      exact absurd hle (Nat.not_le_of_lt hlt)

end EditorSync.Path

import EditorSync.Disk.Edit
import EditorSync.Proofs.Disk.Walk
import EditorSync.Proofs.Table

namespace EditorSync.Disk

open Text (Bytes)

variable {d d' d'' mid : Disk} {root path : String} {base names place : List String}
variable {touched : List String → Prop}

theorem entry?_put (place p : List String) (e : Entry) (hne : place ≠ []) :
    entry? (d.put place e) p = if p = place then some e else d.entry? p := by
  rw [put, entry?, entry?, Table.get?_insert]
  by_cases hp : p = []
  · rw [if_pos hp, if_pos hp, if_neg fun heq : p = place => hne (heq ▸ hp)]
  · rw [if_neg hp, if_neg hp]

theorem entry?_erase (place p : List String) :
    entry? ⟨d.entries.erase place⟩ p =
      if p = [] then some .dir else if p = place then none else d.entry? p := by
  unfold entry?
  rw [Table.get?_erase]
  by_cases hp : p = []
  · rw [if_pos hp, if_pos hp]
  · rw [if_neg hp, if_neg hp, if_neg hp]

theorem entry?_removeTree (place p : List String) :
    entry? (d.removeTree place) p =
      if p = [] then some .dir else if place <+: p then none else d.entry? p := by
  rw [removeTree, entry?, entry?, Table.get?_filter]
  by_cases hp : p = []
  · rw [if_pos hp, if_pos hp]
  · rw [if_neg hp, if_neg hp, if_neg hp]
    cases hentry : d.entries.get? p with
    | none =>
      rw [Option.filter_none]
      split <;> rfl
    | some e =>
      by_cases hinit : place <+: p
      · rw [if_pos hinit, Option.filter_some, if_neg]
        simpa using hinit
      · rw [if_neg hinit, Option.filter_some, if_pos]
        rw [Bool.not_eq_true', Bool.eq_false_iff, ne_eq, List.isPrefixOf_iff_prefix]
        exact hinit

structure Alters (base : List String) (touched : List String → Prop) (d d' : Disk) : Prop where
  keeps : ∀ place e, ¬touched place → d.entry? place = some e → d'.entry? place = some e
  outside : ∀ place, ¬(base <+: place ∧ place ≠ base) → d'.entry? place = d.entry? place
  links : ∀ place target, base <+: place → d'.entry? place = some (.link target) →
    ∃ p, base <+: p ∧ d.entry? p = some (.link target)

theorem Alters.refl (d : Disk) : Alters base touched d d :=
  ⟨fun _ _ _ h => h, fun _ _ => rfl, fun place _ hbase h => ⟨place, hbase, h⟩⟩

theorem Alters.trans (h : Alters base touched d d') (h' : Alters base touched d' d'') :
    Alters base touched d d'' := by
  refine ⟨fun place e ht he => ?_, fun place ho => ?_, fun place target hbase hlink => ?_⟩
  · exact h'.keeps place e ht (h.keeps place e ht he)
  · exact (h'.outside place ho).trans (h.outside place ho)
  · obtain ⟨p, hp, hlink⟩ := h'.links place target hbase hlink
    exact h.links p target hp hlink

def Fills (filled : List String → Prop) (d d' : Disk) : Prop :=
  ∀ place, ¬filled place → d.entry? place = none → d'.entry? place = none

theorem Fills.refl (d : Disk) : Fills touched d d := fun _ _ h => h

theorem Fills.trans (h : Fills touched d d') (h' : Fills touched d' d'') : Fills touched d d'' :=
  fun place hp hnone => h' place hp (h place hp hnone)

theorem Fills.mono {less : List String → Prop} (h : Fills less d d')
    (hless : ∀ place, less place → touched place) : Fills touched d d' :=
  fun place hp => h place fun hl => hp (hless place hl)

theorem fills_of_shrinks (h : ∀ place e, d'.entry? place = some e → d.entry? place = some e) :
    Fills touched d d' := by
  intro place _ hnone
  cases hentry : d'.entry? place with
  | none => rfl
  | some e =>
    rw [h place e hentry] at hnone
    cases hnone

theorem Grounds.alter (h : d.Grounds root base) (halters : Alters base touched d d') :
    d'.Grounds root base := by
  constructor
  · intro d'' hsame
    exact h.leads d'' fun place ho => (hsame place ho).trans (halters.outside place ho)
  · intro place target hbase hlink
    obtain ⟨p, hp, hlink⟩ := halters.links place target hbase hlink
    exact h.free p target hp hlink

theorem below_ne_nil {p : List String} (h : base <+: p ∧ p ≠ base) : p ≠ [] := by
  rintro rfl
  exact h.2 (List.prefix_nil.mp h.1).symm

theorem strictly_below_trans {p : List String} (hbelow : base <+: place ∧ place ≠ base)
    (hinit : place <+: p) : base <+: p ∧ p ≠ base := by
  refine ⟨hbelow.1.trans hinit, ?_⟩
  rintro rfl
  exact hbelow.2 (hinit.eq_of_length_le hbelow.1.length_le)

theorem alters_put {e : Entry} (hbelow : base <+: place ∧ place ≠ base)
    (htouched : touched place ∨ d.entry? place = none) (hlink : ∀ target, e ≠ .link target) :
    Alters base touched d (d.put place e) := by
  have hne := below_ne_nil hbelow
  refine ⟨fun p x ht hx => ?_, fun p ho => ?_, fun p target hp h => ?_⟩
  · rw [entry?_put place p e hne]
    split
    · rename_i heq
      rw [heq] at ht hx
      rcases htouched with htouched | hnone
      · exact absurd htouched ht
      · rw [hnone] at hx
        cases hx
    · exact hx
  · rw [entry?_put place p e hne, if_neg]
    rintro rfl
    exact ho hbelow
  · rw [entry?_put place p e hne] at h
    split at h
    · rw [Option.some.injEq] at h
      exact absurd h (hlink target)
    · exact ⟨p, hp, h⟩

theorem fills_put {e : Entry} (hne : place ≠ []) (hplace : touched place) :
    Fills touched d (d.put place e) := by
  intro p hp hnone
  rw [entry?_put place p e hne, if_neg fun heq : p = place => hp (heq ▸ hplace)]
  exact hnone

theorem alters_erase (hbelow : base <+: place ∧ place ≠ base) (htouched : touched place) :
    Alters base touched d ⟨d.entries.erase place⟩ := by
  have hroot : d.entry? [] = some .dir := rfl
  refine ⟨fun p x ht hx => ?_, fun p ho => ?_, fun p target hp h => ?_⟩
  · rw [entry?_erase]
    split
    · rename_i hempty
      rw [← hx, hempty, hroot]
    · rw [if_neg fun heq : p = place => ht (heq ▸ htouched)]
      exact hx
  · rw [entry?_erase, if_neg fun heq : p = place => ho (heq ▸ hbelow)]
    split
    · rename_i hempty
      rw [hempty, hroot]
    · rfl
  · rw [entry?_erase] at h
    split at h
    · cases h
    · split at h
      · cases h
      · exact ⟨p, hp, h⟩

theorem fills_erase : Fills touched d ⟨d.entries.erase place⟩ := by
  intro p _ hnone
  have hne : p ≠ [] := by
    rintro rfl
    cases hnone
  rw [entry?_erase, if_neg hne, hnone, ite_self]

theorem alters_removeTree (hbelow : base <+: place ∧ place ≠ base)
    (htouched : ∀ p, place <+: p → touched p) : Alters base touched d (d.removeTree place) := by
  have hroot : d.entry? [] = some .dir := rfl
  refine ⟨fun p x ht hx => ?_, fun p ho => ?_, fun p target hp h => ?_⟩
  · rw [entry?_removeTree]
    split
    · rename_i hempty
      rw [← hx, hempty, hroot]
    · rw [if_neg fun hinit => ht (htouched p hinit)]
      exact hx
  · rw [entry?_removeTree]
    split
    · rename_i hempty
      rw [hempty, hroot]
    · rw [if_neg]
      exact fun hinit => ho (strictly_below_trans hbelow hinit)
  · rw [entry?_removeTree] at h
    split at h
    · cases h
    · split at h
      · cases h
      · exact ⟨p, hp, h⟩

theorem removeDirs_shrinks {e : Entry} (h : d.removeDirs path = .ok d')
    (hentry : d'.entry? place = some e) : d.entry? place = some e := by
  have hroot : d.entry? [] = some .dir := rfl
  unfold removeDirs at h
  cases hlocate : d.locate false path with
  | error fault =>
    rw [hlocate] at h
    cases h
  | ok t =>
    rw [hlocate] at h
    cases t with
    | vacant p => cases h
    | found p x =>
      cases x with
      | file content => cases h
      | dir =>
        cases h
        rw [entry?_removeTree] at hentry
        split at hentry
        · rename_i hempty
          rw [← hentry, hempty, hroot]
        · split at hentry
          · cases hentry
          · exact hentry
      | link target =>
        cases h
        rw [entry?_erase] at hentry
        split at hentry
        · rename_i hempty
          rw [← hentry, hempty, hroot]
        · split at hentry
          · cases hentry
          · exact hentry

theorem entry?_foldl_put (f : List String → List String) (moved : List (List String × Entry))
    (hne : ∀ x ∈ moved, f x.1 ≠ []) (q : List String) :
    entry? (moved.foldl (fun d x => d.put (f x.1) x.2) d) q = d.entry? q ∧
        (∀ x ∈ moved, f x.1 ≠ q) ∨
      ∃ x ∈ moved, f x.1 = q ∧
        entry? (moved.foldl (fun d x => d.put (f x.1) x.2) d) q = some x.2 := by
  induction moved generalizing d with
  | nil => exact .inl ⟨rfl, fun x hx => absurd hx List.not_mem_nil⟩
  | cons x rest ih =>
    rw [List.foldl_cons]
    have hrest := fun y hy => hne y (List.mem_cons_of_mem x hy)
    rcases ih (d := d.put (f x.1) x.2) hrest with ⟨hsame, hother⟩ | ⟨y, hy, hfy, hentry⟩
    · rw [hsame, entry?_put _ _ _ (hne x List.mem_cons_self)]
      by_cases hq : q = f x.1
      · exact .inr ⟨x, List.mem_cons_self, hq.symm, if_pos hq⟩
      · refine .inl ⟨if_neg hq, fun y hy => ?_⟩
        rcases List.mem_cons.mp hy with rfl | hy
        · exact fun heq => hq heq.symm
        · exact hother y hy
    · exact .inr ⟨y, List.mem_cons_of_mem x hy, hfy, hentry⟩

theorem entry?_moveTree {a b q : List String} (ha : a ≠ []) (hb : b ≠ []) :
    entry? (d.moveTree a b) q = entry? ((d.removeTree b).removeTree a) q ∧
        (∀ p e, a <+: p → d.entry? p = some e → b ++ p.drop a.length ≠ q) ∨
      ∃ p e, a <+: p ∧ d.entry? p = some e ∧ b ++ p.drop a.length = q ∧
        entry? (d.moveTree a b) q = some e := by
  have hmem (x : List String × Entry) :
      x ∈ d.entries.entries.filter (fun x => a.isPrefixOf x.1) ↔
        a <+: x.1 ∧ d.entry? x.1 = some x.2 := by
    rw [List.mem_filter, List.isPrefixOf_iff_prefix, and_comm]
    refine and_congr_right fun hinit => ?_
    have hne : x.1 ≠ [] := by
      intro hnil
      rw [hnil] at hinit
      exact ha (List.prefix_nil.mp hinit)
    unfold entry?
    rw [if_neg hne, Table.get?_eq_some_iff]
  have hfold := entry?_foldl_put (d := (d.removeTree b).removeTree a)
    (fun p => b ++ p.drop a.length) (d.entries.entries.filter fun x => a.isPrefixOf x.1)
    (fun x _ => by simp [hb]) q
  rcases hfold with ⟨hsame, hother⟩ | ⟨x, hx, hq, hentry⟩
  · refine .inl ⟨hsame, fun p e hinit hentry => hother (p, e) ((hmem (p, e)).mpr ⟨hinit, hentry⟩)⟩
  · exact .inr ⟨x.1, x.2, ((hmem x).mp hx).1, ((hmem x).mp hx).2, hq, hentry⟩

theorem alters_moveTree {a b : List String} (ha : base <+: a ∧ a ≠ base)
    (hb : base <+: b ∧ b ≠ base) :
    Alters base (fun p => a <+: p ∨ b <+: p) d (d.moveTree a b) := by
  have hcleared : Alters base (fun p => a <+: p ∨ b <+: p) d ((d.removeTree b).removeTree a) :=
    (alters_removeTree hb fun _ => .inr).trans (alters_removeTree ha fun _ => .inl)
  have hmoved (q : List String) :=
    entry?_moveTree (d := d) (q := q) (below_ne_nil ha) (below_ne_nil hb)
  refine ⟨fun q e ht he => ?_, fun q ho => ?_, fun q target hq hlink => ?_⟩
  · rcases hmoved q with ⟨hsame, -⟩ | ⟨p, x, -, -, hto, -⟩
    · rw [hsame]
      exact hcleared.keeps q e ht he
    · exact absurd (.inr (hto ▸ List.prefix_append _ _)) ht
  · rcases hmoved q with ⟨hsame, -⟩ | ⟨p, x, -, -, hto, -⟩
    · rw [hsame]
      exact hcleared.outside q ho
    · exact absurd (strictly_below_trans hb (hto ▸ List.prefix_append _ _)) ho
  · rcases hmoved q with ⟨hsame, -⟩ | ⟨p, x, hfrom, hentry, -, hx⟩
    · rw [hsame] at hlink
      exact hcleared.links q target hq hlink
    · rw [hx] at hlink
      exact ⟨p, ha.1.trans hfrom, hentry.trans hlink⟩

theorem fills_moveTree {a b : List String} (ha : a ≠ []) (hb : b ≠ []) :
    Fills (b <+: ·) d (d.moveTree a b) := by
  intro q hq hnone
  have hempty : q ≠ [] := by
    rintro rfl
    cases hnone
  rcases entry?_moveTree (d := d) (q := q) ha hb with ⟨hsame, -⟩ | ⟨p, x, -, -, hto, -⟩
  · rw [hsame, entry?_removeTree, entry?_removeTree, if_neg hempty, if_neg hempty, hnone, ite_self,
      ite_self]
  · exact absurd (hto ▸ List.prefix_append _ _) hq

theorem entry?_moveTree_target {a b : List String} {e : Entry} (ha : a ≠ []) (hb : b ≠ [])
    (hentry : d.entry? a = some e) : entry? (d.moveTree a b) b = some e := by
  rcases entry?_moveTree (d := d) (q := b) ha hb with ⟨-, hother⟩ | ⟨p, x, hfrom, hp, hto, hx⟩
  · exact absurd (by simp) (hother a e List.prefix_rfl hentry)
  · have hdrop : p.drop a.length = [] := List.append_right_eq_self.mp hto
    have hlength : p.length ≤ a.length := List.drop_eq_nil_iff.mp hdrop
    rw [← hfrom.eq_of_length_le hlength, hentry] at hp
    rw [hx, hp]

end EditorSync.Disk

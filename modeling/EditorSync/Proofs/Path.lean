import Mathlib.Algebra.GroupWithZero.Nat
import EditorSync.Path.Basic

namespace EditorSync.Path

variable {base path name p : String} {ns ms : List String}

def Plain (name : String) : Prop := name ≠ "" ∧ name ≠ "." ∧ name ≠ ".." ∧ '/' ∉ name.toList

instance (name : String) : Decidable (Plain name) := inferInstanceAs (Decidable (_ ∧ _ ∧ _ ∧ _))

theorem segments_ne_nil (path : String) : segments path ≠ [] := by
  simp [segments]

theorem not_slash_mem_of_mem_splitOn {cs piece : List Char} (h : piece ∈ cs.splitOn '/') :
    '/' ∉ piece := by
  induction cs generalizing piece with
  | nil =>
    rw [List.splitOn_nil, List.mem_singleton] at h
    simp [h]
  | cons c cs ih =>
    rw [List.splitOn_cons_eq_if_modifyHead] at h
    split at h
    · rcases List.mem_cons.mp h with rfl | h
      · simp
      · exact ih h
    · rename_i hc
      obtain ⟨first, rest, hsplit⟩ := List.exists_cons_of_ne_nil (List.splitOn_ne_nil '/' cs)
      rw [hsplit] at h ih
      rcases List.mem_cons.mp h with rfl | h
      · have hfirst := ih List.mem_cons_self
        have hne : '/' ≠ c := fun heq => hc (beq_iff_eq.mpr heq.symm)
        simp [hne, hfirst]
      · exact ih (List.mem_cons_of_mem _ h)

theorem not_slash_mem_of_mem_segments (h : name ∈ segments path) : '/' ∉ name.toList := by
  obtain ⟨piece, hpiece, rfl⟩ := List.mem_map.mp h
  rw [String.toList_ofList]
  exact not_slash_mem_of_mem_splitOn hpiece

theorem segments_of_not_mem (h : '/' ∉ name.toList) : segments name = [name] := by
  rw [segments, List.splitOn_eq_singleton h, List.map_singleton, String.ofList_toList]

theorem segments_append_slash (base path : String) :
    segments (base ++ "/" ++ path) = segments base ++ segments path := by
  have hlist : (base ++ "/" ++ path).toList = base.toList ++ '/' :: path.toList := by
    simp [String.toList_append]
  rw [segments, hlist, List.splitOn_append_cons_self, List.map_append]
  rfl

theorem names_append_slash (base path : String) :
    names (base ++ "/" ++ path) = names base ++ names path := by
  rw [names, segments_append_slash, List.filter_append]
  rfl

theorem names_append_of_slash (base : String) : names (base ++ "/") = names base := by
  have hempty := names_append_slash base ""
  rwa [String.append_empty, show names "" = [] from rfl, List.append_nil] at hempty

theorem append_cases (base path : String) (h : isAbsolute path = false) :
    base = "" ∧ append base path = path ∨
      ∃ stem, append base path = stem ++ "/" ++ path ∧ (base = stem ∨ base = stem ++ "/") := by
  unfold append
  rw [if_neg (by simp [h])]
  split
  · rename_i hend
    by_cases hempty : base = ""
    · refine .inl ⟨hempty, ?_⟩
      rw [hempty, String.empty_append]
    · obtain ⟨stem, hstem⟩ := List.getLast?_eq_some_iff.mp (hend.resolve_left hempty)
      have hbase : base = String.ofList stem ++ "/" := by
        rw [← String.toList_inj, hstem]
        simp
      exact .inr ⟨String.ofList stem, by rw [← hbase], .inr hbase⟩
  · exact .inr ⟨base, rfl, .inl rfl⟩

theorem names_append (base path : String) (h : isAbsolute path = false) :
    names (append base path) = names base ++ names path := by
  rcases append_cases base path h with ⟨rfl, happend⟩ | ⟨stem, happend, hbase⟩
  · rw [happend]
    rfl
  · rw [happend, names_append_slash]
    rcases hbase with rfl | rfl
    · rfl
    · rw [names_append_of_slash]

theorem getLast?_segments_append (base path : String) :
    (segments (append base path)).getLast? = (segments path).getLast? := by
  by_cases habs : isAbsolute path = true
  · rw [append, if_pos habs]
  · rw [Bool.not_eq_true] at habs
    rcases append_cases base path habs with ⟨-, happend⟩ | ⟨stem, happend, -⟩
    · rw [happend]
    · rw [happend, segments_append_slash, List.getLast?_append,
        List.getLast?_eq_some_getLast (segments_ne_nil path), Option.some_or]

theorem isAbsolute_of_not_mem (h : '/' ∉ name.toList) : isAbsolute name = false := by
  unfold isAbsolute
  cases hlist : name.toList with
  | nil => rfl
  | cons c cs =>
    rw [hlist] at h
    have hne : c ≠ '/' := fun heq => h (heq ▸ List.mem_cons_self)
    simp [hne]

theorem segments_append (base : String) (h : isAbsolute name = false) :
    ∃ above, segments (append base name) = above ++ segments name ∧
      above.filter (fun s => s ≠ "" ∧ s ≠ ".") = names base := by
  rcases append_cases base name h with ⟨rfl, happend⟩ | ⟨stem, happend, hbase⟩
  · refine ⟨[], ?_, rfl⟩
    rw [happend, List.nil_append]
  · refine ⟨segments stem, ?_, ?_⟩
    · rw [happend, segments_append_slash]
    · rcases hbase with rfl | rfl
      · rfl
      · exact (names_append_of_slash stem).symm

theorem segments_append_of_not_mem (base : String) (h : '/' ∉ name.toList) :
    ∃ above, segments (append base name) = above ++ [name] ∧
      above.filter (fun s => s ≠ "" ∧ s ≠ ".") = names base := by
  rw [← segments_of_not_mem h]
  exact segments_append base (isAbsolute_of_not_mem h)

theorem isAbsolute_ofNames (ns : List String) : isAbsolute (ofNames ns) = true := by
  rw [isAbsolute, ofNames, String.toList_append]
  rfl

theorem names_of_plain (h : Plain name) : names name = [name] := by
  obtain ⟨hempty, hdot, -, hslash⟩ := h
  rw [names, segments_of_not_mem hslash]
  simp [hempty, hdot]

theorem segments_join (hplain : ∀ name ∈ ns, '/' ∉ name.toList) (hne : ns ≠ []) :
    segments (join ns) = ns := by
  have hslash : "/".toList = ['/'] := rfl
  rw [segments, join, String.toList_intercalate, hslash, List.splitOn_intercalate]
  · simp
  · intro piece hpiece
    obtain ⟨name, hname, rfl⟩ := List.mem_map.mp hpiece
    exact hplain name hname
  · simpa using hne

theorem segments_ofNames (hplain : ∀ name ∈ ns, '/' ∉ name.toList) (hne : ns ≠ []) :
    segments (ofNames ns) = "" :: ns := by
  have hslash : ofNames ns = "" ++ "/" ++ join ns := by rw [ofNames, String.empty_append]
  rw [hslash, segments_append_slash, segments_join hplain hne]
  rfl

theorem names_join (ns : List String) : names (join ns) = ns.flatMap names := by
  induction ns with
  | nil => rfl
  | cons name rest ih =>
    rw [List.flatMap_cons, ← ih]
    cases rest with
    | nil => rw [join, String.intercalate_singleton]; exact (List.append_nil _).symm
    | cons next rest => rw [join, String.intercalate_cons_cons, names_append_slash]; rfl

theorem names_ofNames (ns : List String) : names (ofNames ns) = ns.flatMap names := by
  have hslash : ofNames ns = "" ++ "/" ++ join ns := by rw [ofNames, String.empty_append]
  rw [hslash, names_append_slash, names_join]
  rfl

theorem getLast?_segments_ofNames (above : List String) (h : '/' ∉ name.toList) :
    (segments (ofNames (above ++ [name]))).getLast? = some name := by
  have hlast (stem : String) : (segments (stem ++ "/" ++ name)).getLast? = some name := by
    rw [segments_append_slash, segments_of_not_mem h, List.getLast?_append]
    rfl
  by_cases habove : above = []
  · rw [habove, List.nil_append, ofNames, join, String.intercalate_singleton]
    have hroot := hlast ""
    rwa [String.empty_append] at hroot
  · rw [ofNames, join, String.intercalate_append_of_ne_nil habove (by simp),
      String.intercalate_singleton, ← String.append_assoc, ← String.append_assoc]
    exact hlast _

theorem flatMap_names (h : ∀ name ∈ ns, names name = [name]) : ns.flatMap names = ns := by
  induction ns with
  | nil => rfl
  | cons name rest ih =>
    rw [List.flatMap_cons, h name List.mem_cons_self,
      ih fun n hn => h n (List.mem_cons_of_mem _ hn)]
    rfl

theorem names_ofNames_of_plain (h : ∀ name ∈ ns, Plain name) : names (ofNames ns) = ns := by
  rw [names_ofNames, flatMap_names fun name hname => names_of_plain (h name hname)]

theorem names_of_mem_names (h : name ∈ names path) : names name = [name] := by
  rw [names, List.mem_filter] at h
  rw [names, segments_of_not_mem (not_slash_mem_of_mem_segments h.1), List.filter_eq_self]
  intro s hs
  rw [List.mem_singleton.mp hs]
  exact h.2

theorem plain_of_mem_names (hup : ".." ∉ segments path) : ∀ name ∈ names path, Plain name := by
  intro name hname
  rw [names, List.mem_filter] at hname
  obtain ⟨hmem, hname⟩ := hname
  rw [decide_eq_true_eq] at hname
  exact ⟨hname.1, hname.2, fun hdots => hup (hdots ▸ hmem), not_slash_mem_of_mem_segments hmem⟩

theorem normalize?_eq_some_iff :
    normalize? path = some p ↔ ".." ∉ segments path ∧ p = ofNames (names path) := by
  unfold normalize?
  split <;> simp_all [eq_comm]

theorem up_not_mem_segments_of_mem_names (h : ".." ∈ segments path) : ".." ∈ names path := by
  rw [names, List.mem_filter]
  exact ⟨h, by decide⟩

theorem normalize?_ofNames (h : ∀ name ∈ ns, Plain name) :
    normalize? (ofNames ns) = some (ofNames ns) := by
  have hnames := names_ofNames_of_plain h
  refine normalize?_eq_some_iff.mpr ⟨fun hmem => ?_, by rw [hnames]⟩
  have hdots := up_not_mem_segments_of_mem_names hmem
  rw [hnames] at hdots
  exact (h _ hdots).2.2.1 rfl

theorem normalize?_normal (h : normalize? path = some p) :
    normalize? p = some p ∧ p = ofNames (names p) ∧ ∀ name ∈ names p, Plain name := by
  obtain ⟨hup, rfl⟩ := normalize?_eq_some_iff.mp h
  have hplain := plain_of_mem_names hup
  rw [names_ofNames_of_plain hplain]
  exact ⟨normalize?_ofNames hplain, rfl, hplain⟩

theorem exists_mem_of_mem_ofNames {c : Char} (hc : c ≠ '/') (h : c ∈ (ofNames ns).toList) :
    ∃ name ∈ ns, c ∈ name.toList := by
  have hslash : "/".toList = ['/'] := rfl
  rw [ofNames, String.toList_append, hslash, List.singleton_append, List.mem_cons] at h
  replace h := h.resolve_left hc
  induction ns with
  | nil => cases h
  | cons name rest ih =>
    cases rest with
    | nil =>
      rw [join, String.intercalate_singleton] at h
      exact ⟨name, List.mem_cons_self, h⟩
    | cons next rest =>
      rw [join, String.intercalate_cons_cons, String.toList_append, String.toList_append,
        List.mem_append, List.mem_append, hslash, List.mem_singleton] at h
      obtain (hname | hsep) | hrest := h
      · exact ⟨name, List.mem_cons_self, hname⟩
      · exact absurd hsep hc
      · obtain ⟨found, hfound, hmem⟩ := ih hrest
        exact ⟨found, List.mem_cons_of_mem name hfound, hmem⟩

theorem utf8ByteSize_ofNames (hne : ns ≠ []) :
    (ofNames ns).utf8ByteSize = (ns.map fun name => name.utf8ByteSize + 1).sum := by
  have hslash : "/".utf8ByteSize = 1 := rfl
  induction ns with
  | nil => exact absurd rfl hne
  | cons name rest ih =>
    rw [List.map_cons, List.sum_cons]
    cases rest with
    | nil =>
      rw [ofNames, join, String.intercalate_singleton, String.utf8ByteSize_append, hslash]
      exact Nat.add_comm _ _
    | cons next rest =>
      rw [← ih (List.cons_ne_nil _ _), ofNames, ofNames, join, join, String.intercalate_cons_cons]
      simp only [String.utf8ByteSize_append, hslash]
      omega

theorem utf8ByteSize_ofNames_le (h : ns <+: ms) :
    (ofNames ns).utf8ByteSize ≤ (ofNames ms).utf8ByteSize := by
  by_cases hns : ns = []
  · have hone : (ofNames ([] : List String)).utf8ByteSize = 1 := rfl
    rw [hns, hone, ofNames, String.utf8ByteSize_append]
    exact Nat.le_add_right 1 _
  · obtain ⟨rest, rfl⟩ := h
    rw [utf8ByteSize_ofNames hns, utf8ByteSize_ofNames (by simp [hns]), List.map_append,
      List.sum_append]
    exact Nat.le_add_right _ _

theorem utf8ByteSize_ofNames_lt (h : ns <+: ms) (hne : ns ≠ ms) (hms : ∀ name ∈ ms, name ≠ "") :
    (ofNames ns).utf8ByteSize < (ofNames ms).utf8ByteSize := by
  obtain ⟨rest, rfl⟩ := h
  cases rest with
  | nil => exact absurd (List.append_nil ns).symm hne
  | cons name rest =>
    have hname : 0 < name.utf8ByteSize := by
      rw [Nat.pos_iff_ne_zero, Ne, String.utf8ByteSize_eq_zero_iff]
      exact hms name (by simp)
    rw [utf8ByteSize_ofNames (List.append_ne_nil_of_right_ne_nil ns (List.cons_ne_nil name rest))]
    by_cases hns : ns = []
    · have hone : (ofNames ([] : List String)).utf8ByteSize = 1 := rfl
      rw [hns, hone, List.nil_append, List.map_cons, List.sum_cons]
      omega
    · rw [utf8ByteSize_ofNames hns, List.map_append, List.sum_append, List.map_cons, List.sum_cons]
      omega

end EditorSync.Path

import EditorSync.Proofs.Path.Ancestry
import EditorSync.Proofs.Workspace

namespace EditorSync.Path

variable {base path : String} {ns : List String}

def front (path : String) : List Component :=
  if isAbsolute path then [.root]
  else if (segments path).head? = some "." then [.here]
  else []

theorem components_eq (path : String) :
    components path = front path ++ (names path).map Component.ofName := by
  unfold components front
  split
  · rfl
  · split <;> rfl

theorem isAbsolute_append_of_ne (h : base ≠ "") (rest : String) :
    isAbsolute (base ++ rest) = isAbsolute base := by
  unfold isAbsolute
  rw [String.toList_append]
  cases hbase : base.toList with
  | nil => exact absurd (String.toList_eq_nil_iff.mp hbase) h
  | cons c cs => rfl

theorem head?_segments_append_slash (stem path : String) :
    (segments (stem ++ "/" ++ path)).head? = (segments stem).head? := by
  obtain ⟨first, rest, hstem⟩ := List.exists_cons_of_ne_nil (segments_ne_nil stem)
  rw [segments_append_slash, hstem]
  rfl

theorem front_append (hbase : base ≠ "") (h : isAbsolute path = false) :
    front (append base path) = front base := by
  have hfront {a b : String} (habs : isAbsolute a = isAbsolute b)
      (hhead : (segments a).head? = (segments b).head?) : front a = front b := by
    rw [front, front, habs, hhead]
  rcases append_cases base path h with ⟨hempty, -⟩ | ⟨stem, happend, rfl | rfl⟩
  · exact absurd hempty hbase
  · rw [happend]
    refine hfront ?_ (head?_segments_append_slash _ _)
    rw [String.append_assoc, isAbsolute_append_of_ne hbase]
  · rw [happend]
    refine hfront (isAbsolute_append_of_ne hbase path) ?_
    rw [head?_segments_append_slash, ← head?_segments_append_slash stem "", String.append_empty]

theorem components_append_join (base : String) (hplain : ∀ name ∈ ns, Plain name)
    (hrelative : isAbsolute (join ns) = false) :
    components (append base (join ns)) = components base ++ ns.map .name := by
  have hnames : names (append base (join ns)) = names base ++ ns := by
    rw [names_append _ _ hrelative, names_join,
      flatMap_names fun name hname => names_of_plain (hplain name hname)]
  have hofName : ns.map Component.ofName = ns.map .name :=
    List.map_congr_left fun name hname => if_neg (hplain name hname).2.2.1
  have hfront : front (append base (join ns)) = front base := by
    by_cases hbase : base = ""
    · have hdot : (segments (join ns)).head? ≠ some "." := by
        cases ns with
        | nil => decide
        | cons name rest =>
          rw [segments_join (fun n hn => (hplain n hn).2.2.2) (List.cons_ne_nil name rest)]
          have hname := (hplain name List.mem_cons_self).2.1
          simpa using hname
      have hempty : append "" (join ns) = join ns := by
        rw [append, if_neg (by simp [hrelative]), if_pos (.inl rfl), String.empty_append]
      rw [hbase, hempty, front, if_neg (by simp [hrelative]), if_neg hdot]
      rfl
    · exact front_append hbase hrelative
  rw [components_eq, components_eq base, hfront, hnames, List.map_append, hofName,
    List.append_assoc]

end EditorSync.Path

namespace EditorSync.Workspace

variable {path p : String}

theorem normalize_eq_error (h : ".." ∈ Path.segments path) :
    normalize path = .error (.pathOutsideWorkspace path) := by
  rw [normalize, Path.normalize?, if_pos h]

theorem normalize_eq_ok (h : ".." ∉ Path.segments path) :
    normalize path = .ok (Path.ofNames (Path.names path)) :=
  normalize_eq_ok_iff.mpr (Path.normalize?_eq_some_iff.mpr ⟨h, rfl⟩)

/-- A path with a parent segment is refused. Every other path has a normal form, which is a slash and
the names of the path with slashes between them. It is its own normal form, is shared by the paths
with the same names only, and leads from every root down these names and nowhere else. -/
theorem normalize_cases (path : String) :
    (".." ∈ Path.segments path ∧ normalize path = .error (.pathOutsideWorkspace path)) ∨
      (".." ∉ Path.segments path ∧ ∃ p, normalize path = .ok p ∧ Path.isAbsolute p = true ∧
        (Path.names path = [] ∧ p = "/" ∨
          Path.names path ≠ [] ∧ Path.segments p = "" :: Path.names path) ∧
        normalize p = .ok p ∧
        (∀ other, normalize other = .ok p ↔
          ".." ∉ Path.segments other ∧ Path.names other = Path.names path) ∧
        ∀ root, Path.components (Path.append root (relative p)) =
            Path.components root ++ (Path.names path).map .name ∧
          Path.contains root (Path.append root (relative p)) = true) := by
  by_cases hup : ".." ∈ Path.segments path
  · exact .inl ⟨hup, normalize_eq_error hup⟩
  · have hplain := Path.plain_of_mem_names hup
    have hnames := Path.names_ofNames_of_plain hplain
    refine .inr ⟨hup, _, normalize_eq_ok hup, Path.isAbsolute_ofNames _, ?_, ?_, ?_, ?_⟩
    · by_cases hnil : Path.names path = []
      · exact .inl ⟨hnil, by rw [hnil]; rfl⟩
      · exact .inr ⟨hnil, Path.segments_ofNames (fun name hname => (hplain name hname).2.2.2) hnil⟩
    · exact normalize_eq_ok_iff.mpr (Path.normalize?_ofNames hplain)
    · intro other
      rw [normalize_eq_ok_iff, Path.normalize?_eq_some_iff]
      refine and_congr_right fun hother => ⟨fun h => ?_, fun h => by rw [h]⟩
      rw [← hnames, h, Path.names_ofNames_of_plain (Path.plain_of_mem_names hother)]
    · intro root
      rw [relative_ofNames hplain]
      have hcomponents := Path.components_append_join root hplain (isAbsolute_join hplain)
      refine ⟨hcomponents, ?_⟩
      rw [Path.contains_iff, hcomponents]
      exact List.prefix_append _ _

example : normalize "a//./b/" = .ok "/a/b" := by decide

end EditorSync.Workspace

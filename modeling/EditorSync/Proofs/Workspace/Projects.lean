import EditorSync.Proofs.Workspace

namespace EditorSync.Workspace

variable {w : Workspace} {disk : Disk} {projects projects' : List String}
variable {path p q : String}

section Deepest

def larger (best : Option String) (p : String) : Option String :=
  match best with
  | none => some p
  | some q => if q.utf8ByteSize ≤ p.utf8ByteSize then some p else some q

theorem deepest_eq_foldl (projects : List String) (path : String) : deepest projects path =
    (projects.filter fun p => Path.isProperAncestor p path).foldl larger none := rfl

theorem le_larger {best : Option String} (h : best = some q ∨ q = p) :
    ∃ r, larger best p = some r ∧ q.utf8ByteSize ≤ r.utf8ByteSize := by
  rcases h with rfl | rfl
  · by_cases hle : q.utf8ByteSize ≤ p.utf8ByteSize
    · exact ⟨p, if_pos hle, hle⟩
    · exact ⟨q, if_neg hle, Nat.le_refl _⟩
  · cases best with
    | none => exact ⟨q, rfl, Nat.le_refl _⟩
    | some p =>
      by_cases hle : p.utf8ByteSize ≤ q.utf8ByteSize
      · exact ⟨q, if_pos hle, Nat.le_refl _⟩
      · exact ⟨p, if_neg hle, Nat.le_of_not_le hle⟩

theorem le_foldl_larger {best : Option String} {candidates : List String}
    (h : best = some q ∨ q ∈ candidates) :
    ∃ p, candidates.foldl larger best = some p ∧ q.utf8ByteSize ≤ p.utf8ByteSize := by
  induction candidates generalizing best q with
  | nil => exact ⟨q, h.resolve_right List.not_mem_nil, Nat.le_refl _⟩
  | cons first rest ih =>
    rw [List.mem_cons, ← or_assoc] at h
    rw [List.foldl_cons]
    rcases h with hseen | hrest
    · obtain ⟨r, hr, hle⟩ := le_larger hseen
      obtain ⟨p, hp, hle'⟩ := ih (.inl hr)
      exact ⟨p, hp, Nat.le_trans hle hle'⟩
    · exact ih (.inr hrest)

theorem exists_deepest (hq : q ∈ projects) (h : Path.isProperAncestor q path = true) :
    ∃ p, deepest projects path = some p ∧ q.utf8ByteSize ≤ p.utf8ByteSize := by
  rw [deepest_eq_foldl]
  exact le_foldl_larger (.inr (List.mem_filter.mpr ⟨hq, h⟩))

theorem deepest_eq_none_iff :
    deepest projects path = none ↔ ∀ p ∈ projects, Path.isProperAncestor p path = false := by
  constructor
  · intro hnone p hp
    rw [← Bool.not_eq_true]
    intro hholds
    obtain ⟨q, hq, -⟩ := exists_deepest hp hholds
    cases hnone.symm.trans hq
  · intro h
    cases hdeepest : deepest projects path with
    | none => rfl
    | some p =>
      obtain ⟨hp, hholds⟩ := deepest_mem hdeepest
      cases (h p hp).symm.trans hholds

theorem deepest_eq_some_iff (hprojects : ∀ p ∈ projects, Path.normalize? p = some p) :
    deepest projects path = some p ↔ p ∈ projects ∧ Path.isProperAncestor p path = true ∧
      ∀ q ∈ projects, Path.isProperAncestor q path = true → Path.contains q p = true := by
  have hcontains {q r : String} (hq : q ∈ projects) (hr : r ∈ projects)
      (hqpath : Path.isProperAncestor q path = true) (hrpath : Path.isProperAncestor r path = true)
      (hle : q.utf8ByteSize ≤ r.utf8ByteSize) : Path.contains q r = true :=
    Path.contains_of_utf8ByteSize_le (hprojects q hq) (hprojects r hr)
      (Path.isProperAncestor_iff.mp hqpath).1 (Path.isProperAncestor_iff.mp hrpath).1 hle
  constructor
  · intro hdeepest
    obtain ⟨hp, hholds⟩ := deepest_mem hdeepest
    refine ⟨hp, hholds, fun q hq hqpath => ?_⟩
    obtain ⟨r, hr, hle⟩ := exists_deepest hq hqpath
    obtain rfl := Option.some.inj (hdeepest.symm.trans hr)
    exact hcontains hq hp hqpath hholds hle
  · rintro ⟨hp, hholds, hall⟩
    obtain ⟨r, hdeepest, hle⟩ := exists_deepest hp hholds
    obtain ⟨hr, hrpath⟩ := deepest_mem hdeepest
    have hsame : p = r := Path.contains_antisymm (hprojects p hp) (hprojects r hr)
      (hcontains hp hr hholds hrpath hle) (hall r hr hrpath)
    rw [hdeepest, hsame]

end Deepest

section Registered

def Registered (projects : List String) (project : String) : Prop :=
  ∃ p ∈ projects, Path.normalize? p = some project

instance (projects : List String) (project : String) : Decidable (Registered projects project) :=
  inferInstanceAs (Decidable (∃ p ∈ projects, _))

/-- A project holds a path, and it is held by every other project that holds the path. -/
structure Owns (projects : List String) (path project : String) : Prop where
  registered : Registered projects project
  holds : Path.isProperAncestor project path = true
  deepest : ∀ other, Registered projects other → Path.isProperAncestor other path = true →
    other = project ∨ Path.isProperAncestor other project = true

theorem Registered.normal (h : Registered projects p) : Path.normalize? p = some p := by
  obtain ⟨q, -, hq⟩ := h
  exact (Path.normalize?_normal hq).1

theorem mapM_normalize (h : ∀ p ∈ projects, ".." ∉ Path.segments p) :
    ∃ normals, projects.mapM normalize = .ok normals ∧
      ∀ project, project ∈ normals ↔ Registered projects project := by
  induction projects with
  | nil => exact ⟨[], rfl, fun project => by simp [Registered]⟩
  | cons p rest ih =>
    rw [List.forall_mem_cons] at h
    obtain ⟨normals, hnormals, hmem⟩ := ih h.2
    have hp : Path.normalize? p = some (Path.ofNames (Path.names p)) :=
      Path.normalize?_eq_some_iff.mpr ⟨h.1, rfl⟩
    refine ⟨Path.ofNames (Path.names p) :: normals, ?_, fun project => ?_⟩
    · rw [List.mapM_cons, normalize_eq_ok_iff.mpr hp, hnormals]
      rfl
    · rw [List.mem_cons, hmem]
      simp only [Registered, List.exists_mem_cons_iff, hp, Option.some.injEq, eq_comm]

theorem exists_withProjects (disk : Disk) (root : String)
    (h : ∀ p ∈ projects, ".." ∉ Path.segments p) :
    ∃ w normals, withProjects disk root projects = .ok w ∧ w.projects = some normals ∧
      ∀ project, project ∈ normals ↔ Registered projects project := by
  obtain ⟨normals, hnormals, hmem⟩ := mapM_normalize h
  refine ⟨{ ofRoot disk root with projects := some normals }, normals, ?_, rfl, hmem⟩
  rw [withProjects, hnormals]
  rfl

theorem projectOf_eq {normals : List String} (hprojects : w.projects = some normals)
    (hpath : Path.normalize? path = some p) (disk : Disk) :
    w.projectOf disk path = (deepest normals p).elim (.error (.projectResolution path)) .ok := by
  rw [projectOf, normalize_eq_ok_iff.mpr hpath, hprojects]
  simp only [bind, Except.bind]
  cases deepest normals p <;> rfl

theorem owns_iff {normals : List String}
    (hmem : ∀ project, project ∈ normals ↔ Registered projects project) :
    deepest normals path = some p ↔ Owns projects path p := by
  have hnormal (q : String) (hq : q ∈ normals) : Path.normalize? q = some q :=
    ((hmem q).mp hq).normal
  rw [deepest_eq_some_iff hnormal]
  constructor
  · rintro ⟨hp, hholds, hall⟩
    refine ⟨(hmem p).mp hp, hholds, fun other hother hpath => ?_⟩
    have hother := (hmem other).mpr hother
    exact Path.eq_or_isProperAncestor_of_contains (hnormal other hother) (hnormal p hp)
      (hall other hother hpath)
  · rintro ⟨hp, hholds, hall⟩
    refine ⟨(hmem p).mpr hp, hholds, fun other hother hpath => ?_⟩
    rcases hall other ((hmem other).mp hother) hpath with rfl | habove
    · exact Path.contains_refl other
    · exact (Path.isProperAncestor_iff.mp habove).1

theorem registers_iff {normals : List String} (hprojects : w.projects = some normals)
    (hmem : ∀ project, project ∈ normals ↔ Registered projects project)
    (hpath : Path.normalize? path = some p) (disk : Disk) (project : String) :
    w.projectOf disk path = .ok project ↔ Owns projects p project := by
  rw [projectOf_eq hprojects hpath, ← owns_iff hmem]
  cases deepest normals p <;> simp

theorem exists_owns_iff (h : ∀ p ∈ projects, ".." ∉ Path.segments p) :
    (∃ project, Owns projects path project) ↔
      ∃ project, Registered projects project ∧ Path.isProperAncestor project path = true := by
  constructor
  · rintro ⟨project, hproject⟩
    exact ⟨project, hproject.registered, hproject.holds⟩
  · rintro ⟨project, hproject, hholds⟩
    obtain ⟨normals, -, hmem⟩ := mapM_normalize h
    obtain ⟨deepest, hdeepest, -⟩ := exists_deepest ((hmem project).mpr hproject) hholds
    exact ⟨deepest, (owns_iff hmem).mp hdeepest⟩

theorem owns_congr (h : ∀ project, Registered projects project ↔ Registered projects' project) :
    Owns projects path p ↔ Owns projects' path p := by
  have hone {ps qs : List String} (h : ∀ project, Registered ps project ↔ Registered qs project)
      (howns : Owns ps path p) : Owns qs path p :=
    ⟨(h p).mp howns.registered, howns.holds, fun other hother =>
      howns.deepest other ((h other).mpr hother)⟩
  exact ⟨hone h, hone fun project => (h project).symm⟩

/-- A workspace with listed projects gives a path to the deepest of those that hold it, and to none
if there is no such project. Neither the list nor the path counts for more than its normal forms, so
the order of the list, what it repeats and the disk make no difference. Between normal paths one
holds another just when the names of the other go on from its own. -/
theorem projectOf_of_listed (disk : Disk) (root : String)
    (hprojects : ∀ p ∈ projects, ".." ∉ Path.segments p) (hpath : ".." ∉ Path.segments path) :
    ∃ w normal, withProjects disk root projects = .ok w ∧ Path.normalize? path = some normal ∧
      (∀ now project, w.projectOf now path = .ok project ↔ Owns projects normal project) ∧
      ((∃ project, Owns projects normal project) ↔
        ∃ project, Registered projects project ∧ Path.isProperAncestor project normal = true) ∧
      (∀ now, (∀ project, Registered projects project →
          Path.isProperAncestor project normal = false) →
        w.projectOf now path = .error (.projectResolution path)) ∧
      (∀ disk' root' projects' path' w', withProjects disk' root' projects' = .ok w' →
        (∀ project, Registered projects project ↔ Registered projects' project) →
        (∀ p ∈ projects', ".." ∉ Path.segments p) →
        Path.normalize? path' = some normal → ∀ now now' project,
          w'.projectOf now' path' = .ok project ↔ w.projectOf now path = .ok project) ∧
      ∀ a b, Path.normalize? a = some a → Path.normalize? b = some b →
        (Path.isProperAncestor a b = true ↔
          ∃ rest, rest ≠ [] ∧ Path.names b = Path.names a ++ rest) := by
  obtain ⟨w, normals, hw, hnormals, hmem⟩ := exists_withProjects disk root hprojects
  have hnormal : Path.normalize? path = some (Path.ofNames (Path.names path)) :=
    Path.normalize?_eq_some_iff.mpr ⟨hpath, rfl⟩
  refine ⟨w, Path.ofNames (Path.names path), hw, hnormal, registers_iff hnormals hmem hnormal,
    exists_owns_iff hprojects, fun now hnone => ?_, ?_, fun a b ha hb =>
      Path.isProperAncestor_normal ha hb⟩
  · have hdeepest := deepest_eq_none_iff.mpr fun p hp => hnone p ((hmem p).mp hp)
    rw [projectOf_eq hnormals hnormal, hdeepest]
    rfl
  · intro disk' root' projects' path' w' hw' hsame hprojects' hpath' now now' project
    obtain ⟨found, normals', hfound, hnormals', hmem'⟩ := exists_withProjects disk' root' hprojects'
    cases hw'.symm.trans hfound
    rw [registers_iff hnormals' hmem' hpath', registers_iff hnormals hmem hnormal, owns_congr hsame]

theorem projectOf_of_listed_nested :
    (∀ p ∈ ["p//q", "/", "/project", "/p/", "./p/q/."], ".." ∉ Path.segments p) ∧
      ".." ∉ Path.segments "p/q/./project" ∧ ∃ w,
        withProjects ⟨.empty⟩ "/w" ["p//q", "/", "/project", "/p/", "./p/q/."] = .ok w ∧
          w.projectOf ⟨.empty⟩ "p/q/./project" = .ok "/p/q" := by
  have hlisted : ∀ p ∈ ["p//q", "/", "/project", "/p/", "./p/q/."], ".." ∉ Path.segments p := by
    decide
  have hpath : ".." ∉ Path.segments "p/q/./project" := by decide
  have hdeepest : ∀ p ∈ ["p//q", "/", "/project", "/p/", "./p/q/."],
      ∀ other ∈ Path.normalize? p, Path.isProperAncestor other "/p/q/project" = true →
        other = "/p/q" ∨ Path.isProperAncestor other "/p/q" = true := by decide
  obtain ⟨w, normal, hw, hnormal, howner, -⟩ := projectOf_of_listed ⟨.empty⟩ "/w" hlisted hpath
  obtain rfl : "/p/q/project" = normal := Option.some.inj hnormal
  refine ⟨hlisted, hpath, w, hw, (howner _ _).mpr ⟨by decide, by decide, ?_⟩⟩
  rintro other ⟨p, hp, hother⟩ hholds
  exact hdeepest p hp other hother hholds

example : Path.isProperAncestor "/proj" "/project/a" = false := by decide

end Registered

end EditorSync.Workspace

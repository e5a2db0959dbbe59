import EditorSync.Proofs.Disk.Resolution
import EditorSync.Proofs.Path.Ancestry
import EditorSync.Proofs.Procedure
import EditorSync.Workspace.Basic

namespace EditorSync.Workspace

open Disk (Grounds Beneath Ends)
open Procedure (bind_eq_ok_iff)

variable {w : Workspace} {disk : Disk} {base ns : List String} {path p : String}

theorem normalize_eq_ok_iff : normalize path = .ok p ↔ Path.normalize? path = some p := by
  unfold normalize
  split
  · rename_i q hq
    rw [hq, Except.ok.injEq, Option.some.injEq]
  · rename_i hnone
    rw [hnone]
    constructor <;> intro h <;> cases h

theorem dropWhile_slash_join (hplain : ∀ name ∈ ns, Path.Plain name) :
    (Path.join ns).toList.dropWhile (· = '/') = (Path.join ns).toList := by
  cases ns with
  | nil => rfl
  | cons name rest =>
    obtain ⟨hempty, -, -, hslash⟩ := hplain name List.mem_cons_self
    obtain ⟨tail, htail⟩ : ∃ tail, (Path.join (name :: rest)).toList = name.toList ++ tail := by
      cases rest with
      | nil => exact ⟨[], by rw [Path.join, String.intercalate_singleton, List.append_nil]⟩
      | cons next rest =>
        rw [Path.join, String.intercalate_cons_cons, String.append_assoc, String.toList_append]
        exact ⟨_, rfl⟩
    rw [htail]
    cases hname : name.toList with
    | nil => exact absurd (String.toList_eq_nil_iff.mp hname) hempty
    | cons c cs =>
      rw [hname] at hslash
      have hc : c ≠ '/' := fun heq => hslash (heq ▸ List.mem_cons_self)
      rw [List.cons_append, List.dropWhile_cons_of_neg]
      simpa using hc

theorem relative_ofNames (hplain : ∀ name ∈ ns, Path.Plain name) :
    relative (Path.ofNames ns) = Path.join ns := by
  have hlist : (Path.ofNames ns).toList = '/' :: (Path.join ns).toList := by
    rw [Path.ofNames, String.toList_append]
    rfl
  rw [relative, hlist, List.dropWhile_cons_of_pos (by simp), dropWhile_slash_join hplain,
    String.ofList_toList]

theorem isAbsolute_join (hplain : ∀ name ∈ ns, Path.Plain name) :
    Path.isAbsolute (Path.join ns) = false := by
  have hdrop := dropWhile_slash_join hplain
  unfold Path.isAbsolute
  cases hlist : (Path.join ns).toList with
  | nil => rfl
  | cons c cs =>
    by_cases hc : c = '/'
    · rw [hlist, List.dropWhile_cons_of_pos (by simpa using hc)] at hdrop
      have hlength := congrArg List.length hdrop
      have hle := (List.dropWhile_suffix (l := cs) (· = '/')).length_le
      simp only [List.length_cons] at hlength
      omega
    · simp [hc]

theorem relative_normal (h : Path.normalize? path = some p) :
    relative p = Path.join (Path.names p) := by
  obtain ⟨-, hp, hplain⟩ := Path.normalize?_normal h
  conv => lhs; rw [hp]
  exact relative_ofNames hplain

theorem isAbsolute_relative (h : Path.normalize? path = some p) :
    Path.isAbsolute (relative p) = false := by
  rw [relative_normal h]
  exact isAbsolute_join (Path.normalize?_normal h).2.2

theorem beneath_joined (h : Path.normalize? path = some p) (root : String) :
    Beneath root (Path.append root (relative p)) (Path.names p) := by
  obtain ⟨-, -, hplain⟩ := Path.normalize?_normal h
  refine ⟨?_, hplain⟩
  rw [Path.names_append _ _ (isAbsolute_relative h), relative_normal h, Path.names_join,
    Path.flatMap_names fun name hname => Path.names_of_plain (hplain name hname)]

theorem ends_joined (h : Path.normalize? path = some p) (hne : Path.names p ≠ []) (root : String) :
    Ends (Path.append root (relative p)) := by
  obtain ⟨-, -, hplain⟩ := Path.normalize?_normal h
  intro last hlast
  rw [Path.getLast?_segments_append, relative_normal h,
    Path.segments_join (fun name hname => (hplain name hname).2.2.2) hne] at hlast
  have hlastPlain := hplain last (List.mem_of_getLast? hlast)
  exact not_or.mpr ⟨hlastPlain.1, hlastPlain.2.1⟩

theorem realPath_eq_ok_iff {real : String} : w.realPath disk path = .ok real ↔
    ∃ normal, normalize path = .ok normal ∧ real = Path.append w.root (relative normal) ∧
      ∀ canonical, disk.canonical? real = some canonical →
        Path.contains w.canonicalRoot canonical = true := by
  unfold realPath
  rw [bind_eq_ok_iff]
  refine exists_congr fun normal => and_congr_right fun _ => ?_
  dsimp only
  generalize Path.append w.root (relative normal) = joined
  cases hcanonical : disk.canonical? joined with
  | none =>
    change Except.ok joined = Except.ok real ↔ _
    rw [Except.ok.injEq, eq_comm]
    refine (and_iff_left_of_imp ?_).symm
    rintro rfl canonical h
    cases hcanonical.symm.trans h
  | some canonical =>
    dsimp only
    split
    · rename_i hinside
      change Except.ok joined = Except.ok real ↔ _
      rw [Except.ok.injEq, eq_comm]
      refine (and_iff_left_of_imp ?_).symm
      rintro rfl found h
      cases hcanonical.symm.trans h
      exact hinside
    · rename_i houtside
      constructor
      · intro h
        cases h
      · rintro ⟨rfl, h⟩
        exact absurd (h canonical hcanonical) houtside

theorem realPath_eq (h : disk.Grounds w.root base) (hroot : w.canonicalRoot = Path.ofNames base)
    (hpath : Path.normalize? path = some p) :
    w.realPath disk path = .ok (Path.append w.root (relative p)) := by
  have hbeneath := beneath_joined hpath w.root
  refine realPath_eq_ok_iff.mpr
    ⟨p, normalize_eq_ok_iff.mpr hpath, rfl, fun canonical hcanonical => ?_⟩
  obtain ⟨place, e, hleads, -, rfl⟩ := Disk.canonical?_eq_some_iff.mp hcanonical
  rw [hroot, h.eq_of_leads hbeneath (fun hne => ends_joined hpath hne w.root) hleads]
  exact Path.contains_ofNames_append base (Path.names p)

def owner? (w : Workspace) (file : String) : Option String :=
  match w.projects with
  | some projects => deepest projects file
  | none =>
    match Path.names file with
    | top :: _ :: _ => some (Path.ofNames [top])
    | _ => none

theorem owner?_of_projectOf {project : String} (h : w.projectOf disk path = .ok project) :
    ∃ file, Path.normalize? path = some file ∧ w.owner? file = some project := by
  obtain ⟨file, hfile, h⟩ := bind_eq_ok_iff.mp h
  refine ⟨file, normalize_eq_ok_iff.mp hfile, ?_⟩
  unfold owner?
  cases hprojects : w.projects with
  | some projects =>
    rw [hprojects] at h
    dsimp only at h ⊢
    cases hdeepest : deepest projects file with
    | none =>
      rw [hdeepest] at h
      cases h
    | some q =>
      rw [hdeepest] at h
      exact congrArg some (Except.ok.inj h)
  | none =>
    rw [hprojects] at h
    dsimp only at h ⊢
    rcases hnames : Path.names file with _ | ⟨top, _ | ⟨next, rest⟩⟩
    · rw [hnames] at h
      cases h
    · rw [hnames] at h
      cases h
    · rw [hnames] at h
      dsimp only at h ⊢
      by_cases hdir : disk.isDir (Path.append w.root top) = true
      · rw [if_pos hdir] at h
        exact congrArg some (Except.ok.inj h)
      · rw [if_neg hdir] at h
        cases h

theorem projectOf_eq_ok {project : String} (hpath : Path.normalize? path = some p)
    (howner : w.owner? p = some project)
    (hthere : Path.names project ≠ [] →
      disk.isDir (Path.append w.root (relative project)) = true) :
    w.projectOf disk path = .ok project := by
  have hnormalize : normalize path = .ok p := normalize_eq_ok_iff.mpr hpath
  unfold owner? at howner
  unfold projectOf
  rw [hnormalize]
  simp only [bind, Except.bind, pure, Except.pure]
  cases hprojects : w.projects with
  | some projects =>
    rw [hprojects] at howner
    dsimp only at howner ⊢
    rw [howner]
  | none =>
    rw [hprojects] at howner
    have hplain := (Path.normalize?_normal hpath).2.2
    dsimp only at howner ⊢
    rcases hnames : Path.names p with _ | ⟨top, _ | ⟨next, rest⟩⟩
    · rw [hnames] at howner
      cases howner
    · rw [hnames] at howner
      cases howner
    · rw [hnames] at howner hplain
      dsimp only at howner ⊢
      obtain rfl : Path.ofNames [top] = project := Option.some.inj howner
      have htop : ∀ name ∈ [top], Path.Plain name := fun name hname =>
        List.mem_singleton.mp hname ▸ hplain top List.mem_cons_self
      rw [Path.names_ofNames_of_plain htop, relative_ofNames htop, Path.join,
        String.intercalate_singleton] at hthere
      rw [if_pos (hthere (List.cons_ne_nil _ _))]

def Normal (w : Workspace) : Prop :=
  ∀ projects, w.projects = some projects → ∀ q ∈ projects, Path.normalize? q = some q

theorem mem_of_foldl_eq_some {choose : Option String → String → Option String}
    (hchoose : ∀ best q, choose best q = best ∨ choose best q = some q)
    {candidates : List String} {best : Option String}
    (h : candidates.foldl choose best = some p) : best = some p ∨ p ∈ candidates := by
  induction candidates generalizing best with
  | nil => exact .inl h
  | cons q rest ih =>
    rw [List.foldl_cons] at h
    rcases ih h with hnext | hrest
    · rcases hchoose best q with hsame | htaken
      · exact .inl (hsame.symm.trans hnext)
      · exact .inr (List.mem_cons.mpr (.inl (Option.some.inj (hnext.symm.trans htaken))))
    · exact .inr (List.mem_cons_of_mem _ hrest)

theorem deepest_mem {projects : List String} (h : deepest projects path = some p) :
    p ∈ projects ∧ Path.isProperAncestor p path = true := by
  unfold deepest at h
  refine (mem_of_foldl_eq_some (fun best q => ?_) h).elim (fun hnone => ?_) List.mem_filter.mp
  · cases best with
    | none => exact .inr rfl
    | some p =>
      dsimp only
      split
      · exact .inr rfl
      · exact .inl rfl
  · cases hnone

theorem names_ne_nil_of_isProperAncestor (hp : Path.normalize? p = some p)
    (hpath : Path.normalize? path = some path) (h : Path.isProperAncestor p path = true) :
    Path.names path ≠ [] := by
  obtain ⟨rest, hrest, hnames⟩ := (Path.isProperAncestor_normal hp hpath).mp h
  rw [hnames]
  exact List.append_ne_nil_of_right_ne_nil _ hrest

theorem owner?_normal {project : String} (hnormal : w.Normal)
    (hpath : Path.normalize? path = some path) (h : w.owner? path = some project) :
    Path.normalize? project = some project ∧ Path.names path ≠ [] := by
  unfold owner? at h
  split at h
  · rename_i projects hprojects
    obtain ⟨hmem, hancestor⟩ := deepest_mem h
    have hproject := hnormal projects hprojects project hmem
    exact ⟨hproject, names_ne_nil_of_isProperAncestor hproject hpath hancestor⟩
  · split at h
    · rename_i top next rest hnames
      rw [Option.some.injEq] at h
      subst h
      have htop : Path.Plain top :=
        (Path.normalize?_normal hpath).2.2 top (hnames ▸ List.mem_cons_self)
      have hplain : ∀ name ∈ [top], Path.Plain name := fun name hname =>
        List.mem_singleton.mp hname ▸ htop
      refine ⟨Path.normalize?_ofNames hplain, ?_⟩
      rw [hnames]
      exact List.cons_ne_nil _ _
    · cases h

theorem ofRoot_normal (disk : Disk) (root : String) : (ofRoot disk root).Normal := by
  intro projects hprojects
  cases hprojects

theorem withProjects_normal {root : String} {projects : List String}
    (h : withProjects disk root projects = .ok w) :
    w.Normal ∧ w.root = root ∧ w.canonicalRoot = (ofRoot disk root).canonicalRoot := by
  have hmap (ps qs : List String) (hps : ps.mapM normalize = .ok qs) :
      ∀ q ∈ qs, Path.normalize? q = some q := by
    induction ps generalizing qs with
    | nil =>
      cases hps
      exact fun q hq => absurd hq List.not_mem_nil
    | cons p rest ih =>
      rw [List.mapM_cons] at hps
      obtain ⟨q, hp, hps⟩ := bind_eq_ok_iff.mp hps
      obtain ⟨qs, hrest, hps⟩ := bind_eq_ok_iff.mp hps
      cases hps
      intro r hr
      rcases List.mem_cons.mp hr with rfl | hr
      · exact (Path.normalize?_normal (normalize_eq_ok_iff.mp hp)).1
      · exact ih qs hrest r hr
  obtain ⟨qs, hprojects, hnew⟩ := bind_eq_ok_iff.mp h
  cases hnew
  refine ⟨fun ps hps => ?_, rfl, rfl⟩
  rw [Option.some.injEq] at hps
  exact hps ▸ hmap projects qs hprojects

theorem canonical?_root {root : String} (h : disk.Grounds root base) :
    disk.canonical? root = some (Path.ofNames base) :=
  (h.leads disk fun _ _ => rfl).2

def Built (w : Workspace) (disk : Disk) (root : String) (projects : Option (List String)) : Prop :=
  match projects with
  | none => w = ofRoot disk root
  | some projects => withProjects disk root projects = .ok w

theorem Built.normal {root : String} {projects : Option (List String)}
    (h : w.Built disk root projects) :
    w.Normal ∧ w.root = root ∧ w.canonicalRoot = (ofRoot disk root).canonicalRoot := by
  cases projects with
  | none =>
    obtain rfl : w = ofRoot disk root := h
    exact ⟨ofRoot_normal disk root, rfl, rfl⟩
  | some projects => exact withProjects_normal h

theorem Built.eq {w' : Workspace} {disk' : Disk} {root : String} {projects : Option (List String)}
    (h : w.Built disk root projects) (h' : w'.Built disk' root projects)
    (hroot : disk.canonical? root = disk'.canonical? root) : w = w' := by
  cases projects with
  | none =>
    obtain rfl : w = ofRoot disk root := h
    obtain rfl : w' = ofRoot disk' root := h'
    rw [ofRoot, ofRoot, hroot]
  | some projects =>
    have hsame : withProjects disk root projects = withProjects disk' root projects := by
      rw [withProjects, withProjects, ofRoot, ofRoot, hroot]
    exact Except.ok.inj (h.symm.trans (hsame.trans h'))

theorem Built.of_grounds {disk' : Disk} {root : String} {projects : Option (List String)}
    (h : w.Built disk root projects) (hgrounds : disk.Grounds root base)
    (hgrounds' : disk'.Grounds root base) : w.Built disk' root projects := by
  have hroot : ofRoot disk root = ofRoot disk' root := by
    rw [ofRoot, ofRoot, canonical?_root hgrounds, canonical?_root hgrounds']
  cases projects with
  | none => exact h.trans hroot
  | some projects =>
    rw [Built, withProjects, ← hroot]
    exact h

end EditorSync.Workspace

import EditorSync.Proofs.Disk.Leaves
import EditorSync.Proofs.Workspace
import EditorSync.Workspace.Shadows

namespace EditorSync.Shadows

open Disk (Grounds Beneath Ends Alters Fills Grows Gains)

variable {s : Shadows} {disk disk' : Disk} {base : List String}
variable {project file project' file' content : String}
variable {touched : List String → Prop}

structure Rooted (s : Shadows) (base : List String) : Prop where
  canonical : s.workspace.canonicalRoot = Path.ofNames base
  normal : s.workspace.Normal
  plain : Path.Plain s.metadataDir

def IsFile (file : String) : Prop := Path.normalize? file = some file ∧ Path.names file ≠ []

def dirPath (s : Shadows) (project : String) : String :=
  Path.append
    (Path.append (Path.append s.workspace.root (Workspace.relative project)) s.metadataDir)
    copiesDir

def dirNames (s : Shadows) (project : String) : List String :=
  Path.names project ++ [s.metadataDir, copiesDir]

def names (s : Shadows) (project file : String) : List String :=
  s.dirNames project ++ [flatten file]

theorem dirNames_ne_nil : s.dirNames project ≠ [] := by
  simp [dirNames]

theorem names_ne_nil : s.names project file ≠ [] := by
  simp [names]

theorem not_slash_mem_flatten (file : String) : '/' ∉ (flatten file).toList := by
  intro hslash
  rw [flatten, String.toList_ofList, List.mem_map] at hslash
  obtain ⟨c, -, hc⟩ := hslash
  split at hc
  · cases hc
  · exact absurd hc ‹_›

theorem flatten_plain (h : IsFile file) : Path.Plain (flatten file) := by
  obtain ⟨hfile, hne⟩ := h
  obtain ⟨-, hnames, hplain⟩ := Path.normalize?_normal hfile
  have hrelative : Workspace.relative file = Path.join (Path.names file) := by
    conv => lhs; rw [hnames]
    exact Workspace.relative_ofNames hplain
  have hflatten : (flatten file).toList =
      (Path.join (Path.names file)).toList.map fun c => if c = '/' then '.' else c := by
    rw [← hrelative, Workspace.relative, flatten, String.toList_ofList, String.toList_ofList]
  have hsegments : Path.segments (Path.join (Path.names file)) = Path.names file :=
    Path.segments_join (fun name hname => (hplain name hname).2.2.2) hne
  generalize hjoin : Path.join (Path.names file) = joined at hflatten hsegments
  -- A short flattened name comes from a path that has a name which is not plain.
  have hshort (l : List Char) (hl : joined.toList = l) :
      ∀ segment ∈ (l.splitOn '/').map String.ofList, Path.Plain segment := by
    intro segment hsegment
    apply hplain
    rw [← hsegments, Path.segments, hl]
    exact hsegment
  have hdot (c : Char) (hc : (if c = '/' then '.' else c) = '.') : c = '/' ∨ c = '.' := by
    split at hc
    · exact .inl ‹_›
    · exact .inr hc
  refine ⟨fun hempty => ?_, fun hdots => ?_, fun hdots => ?_, fun hslash => ?_⟩
  · rw [hempty] at hflatten
    have hl : joined.toList = [] := List.map_eq_nil_iff.mp hflatten.symm
    exact absurd (hshort [] hl "" (by decide)) (by decide)
  · rw [hdots] at hflatten
    obtain ⟨c, cs, hl, hc, hcs⟩ := List.map_eq_cons_iff.mp hflatten.symm
    rw [List.map_eq_nil_iff] at hcs
    subst hcs
    rcases hdot c hc with rfl | rfl
    · exact absurd (hshort ['/'] hl "" (by decide)) (by decide)
    · exact absurd (hshort ['.'] hl "." (by decide)) (by decide)
  · rw [hdots] at hflatten
    obtain ⟨c, cs, hl, hc, hcs⟩ := List.map_eq_cons_iff.mp hflatten.symm
    obtain ⟨c', cs', rfl, hc', hcs'⟩ := List.map_eq_cons_iff.mp hcs
    rw [List.map_eq_nil_iff] at hcs'
    subst hcs'
    rcases hdot c hc with rfl | rfl <;> rcases hdot c' hc' with rfl | rfl
    · exact absurd (hshort ['/', '/'] hl "" (by decide)) (by decide)
    · exact absurd (hshort ['/', '.'] hl "" (by decide)) (by decide)
    · exact absurd (hshort ['.', '/'] hl "." (by decide)) (by decide)
    · exact absurd (hshort ['.', '.'] hl ".." (by decide)) (by decide)
  · exact not_slash_mem_flatten file hslash

theorem dirPath_beneath (hs : s.Rooted base) (hproject : Path.normalize? project = some project) :
    Beneath s.workspace.root (s.dirPath project) (s.dirNames project) ∧
      Ends (s.dirPath project) := by
  have hjoined := Workspace.beneath_joined hproject s.workspace.root
  have hmeta := (hjoined.append hs.plain).1
  have hcopies : Path.Plain copiesDir := by decide
  have hdir := hmeta.append hcopies
  rw [List.append_assoc] at hdir
  exact hdir

theorem dir_eq (hs : s.Rooted base) (h : disk.Grounds s.workspace.root base)
    (hproject : Path.normalize? project = some project) :
    s.dir disk project = .ok (s.dirPath project) := by
  rw [dir, Workspace.realPath_eq h hs.canonical hproject]
  rfl

theorem path_eq (hs : s.Rooted base) (h : disk.Grounds s.workspace.root base)
    (hproject : Path.normalize? project = some project) :
    s.path disk project file = .ok (Path.append (s.dirPath project) (flatten file)) := by
  rw [path, dir_eq hs h hproject]
  rfl

theorem path_beneath (hs : s.Rooted base) (hproject : Path.normalize? project = some project)
    (hfile : IsFile file) :
    Beneath s.workspace.root (Path.append (s.dirPath project) (flatten file))
        (s.names project file) ∧
      Ends (Path.append (s.dirPath project) (flatten file)) :=
  (dirPath_beneath hs hproject).1.append (flatten_plain hfile)

theorem decode?_eq_some_iff {bytes : Text.Bytes} :
    Text.decode? bytes = some content ↔ bytes = Text.encode content :=
  ⟨Text.encode_of_decode?, fun h => h ▸ Text.decode?_encode content⟩

theorem readText_eq_ok_iff {path : String} :
    disk.readText path = .ok content ↔ readOptional disk path = .ok (some content) := by
  unfold readOptional
  split
  · rename_i text htext
    rw [htext, Except.ok.injEq, Except.ok.injEq, Option.some.injEq]
  · rename_i htext
    rw [htext]
    constructor <;> intro h <;> cases h
  · rename_i e _ htext
    rw [htext]
    constructor <;> intro h <;> cases h

theorem readOptional_eq_some_iff {path : String} :
    readOptional disk path = .ok (some content) ↔ disk.read path = .ok (Text.encode content) := by
  rw [← readText_eq_ok_iff, Disk.readText]
  cases disk.read path with
  | error e => constructor <;> intro h <;> cases h
  | ok bytes =>
    rw [Except.ok.injEq, ← decode?_eq_some_iff]
    simp only [bind, Except.bind, pure, Except.pure]
    cases Text.decode? bytes with
    | none => constructor <;> intro h <;> cases h
    | some text => rw [Except.ok.injEq, Option.some.injEq]

theorem read_eq_some_iff (hs : s.Rooted base) (h : disk.Grounds s.workspace.root base)
    (hproject : Path.normalize? project = some project) :
    s.read disk project file = .ok (some content) ↔
      disk.read (Path.append (s.dirPath project) (flatten file)) = .ok (Text.encode content) := by
  have hread : s.read disk project file =
      readOptional disk (Path.append (s.dirPath project) (flatten file)) := by
    rw [read, path_eq hs h hproject]
    simp only [bind, Except.bind]
  rw [hread, readOptional_eq_some_iff]

theorem entry?_of_read (hs : s.Rooted base) (h : disk.Grounds s.workspace.root base)
    (hproject : Path.normalize? project = some project) (hfile : IsFile file)
    (hread : s.read disk project file = .ok (some content)) :
    disk.entry? (base ++ s.names project file) = some (.file (Text.encode content)) := by
  obtain ⟨hbeneath, hends⟩ := path_beneath hs hproject hfile
  rw [read_eq_some_iff hs h hproject] at hread
  exact ((h.read_eq_ok_iff hbeneath names_ne_nil hends).mp hread).2.2

/-- Somebody else changes the disk. What is in the metadata directories stays, and so do the
directories that these are in. -/
structure Spares (s : Shadows) (base : List String) (disk disk' : Disk) : Prop where
  grounds : disk'.Grounds s.workspace.root base
  keeps : ∀ above below e, s.metadataDir ∈ below → above <+: below →
    disk.entry? (base ++ below) ≠ none → disk.entry? (base ++ above) = some e →
    disk'.entry? (base ++ above) = some e

theorem read_spares (hs : s.Rooted base) (h : disk.Grounds s.workspace.root base)
    (hproject : Path.normalize? project = some project) (hfile : IsFile file)
    (hspares : s.Spares base disk disk') (hread : s.read disk project file = .ok (some content)) :
    s.read disk' project file = .ok (some content) := by
  obtain ⟨hbeneath, hends⟩ := path_beneath hs hproject hfile
  have hentry := entry?_of_read hs h hproject hfile hread
  rw [read_eq_some_iff hs h hproject] at hread
  rw [read_eq_some_iff hs hspares.grounds hproject]
  refine h.read_keep hspares.grounds hbeneath names_ne_nil hends (fun above e hinit he => ?_) hread
  refine hspares.keeps above _ e ?_ hinit ?_ he
  · simp [names, dirNames]
  · rw [hentry]
    exact Option.some_ne_none _

theorem read_alter (hs : s.Rooted base) (h : disk.Grounds s.workspace.root base)
    (hproject : Path.normalize? project = some project) (hfile : IsFile file)
    (halters : Alters base touched disk disk')
    (hspared : ∀ above, above <+: s.names project file → ¬touched (base ++ above))
    (hread : s.read disk project file = .ok (some content)) :
    s.read disk' project file = .ok (some content) := by
  obtain ⟨hbeneath, hends⟩ := path_beneath hs hproject hfile
  rw [read_eq_some_iff hs h hproject] at hread
  rw [read_eq_some_iff hs (h.alter halters) hproject]
  exact h.read_alter hbeneath names_ne_nil hends halters hspared hread

theorem isDir_of_read (hs : s.Rooted base) (h : disk.Grounds s.workspace.root base)
    (hproject : Path.normalize? project = some project) (hfile : IsFile file)
    (hread : s.read disk project file = .ok (some content)) (hne : Path.names project ≠ []) :
    disk.isDir (Path.append s.workspace.root (Workspace.relative project)) = true := by
  obtain ⟨hbeneath, hends⟩ := path_beneath hs hproject hfile
  rw [read_eq_some_iff hs h hproject] at hread
  obtain ⟨hsound, hopen, -⟩ := (h.read_eq_ok_iff hbeneath names_ne_nil hends).mp hread
  have hinit : Path.names project <+: s.names project file := by
    rw [names, dirNames, List.append_assoc]
    exact List.prefix_append _ _
  have hproper : Path.names project ≠ s.names project file := by
    simp [names, dirNames]
  have hplainFile := Path.isAbsolute_of_not_mem (flatten_plain hfile).2.2.2
  have hplainMeta := Path.isAbsolute_of_not_mem hs.plain.2.2.2
  have hsoundProject := ((hsound.of_append hplainFile).of_append (by decide)).of_append hplainMeta
  have hopenProject := hopen.above hinit hproper
  have hdir := hopen.dirs _ hne hinit hproper
  have hlook := (Disk.look_eq_found_iff.mpr ⟨rfl, hdir⟩).symm
  rw [Disk.isDir, (h.locate_eq_ok_iff (Workspace.beneath_joined hproject s.workspace.root) hne
    (Workspace.ends_joined hproject hne s.workspace.root)).mpr ⟨hsoundProject, hopenProject, hlook⟩]

inductive Writes (s : Shadows) (disk : Disk) (project file content : String) : Effect → Prop
  | misplaced {e : SyncError} (hdir : s.dir disk project = .error e) :
    Writes s disk project file content (disk, .error e)
  | unhoused {dir : String} {grown : Disk} {e : Disk.Fault} (hdir : s.dir disk project = .ok dir)
      (hmake : disk.makeDirs dir = (grown, .error e)) :
    Writes s disk project file content (grown, .error (.io dir e.message))
  | unwritten {dir : String} {grown : Disk} {e : Disk.Fault} (hdir : s.dir disk project = .ok dir)
      (hmake : disk.makeDirs dir = (grown, .ok ()))
      (hwrite : grown.write (Path.append dir (flatten file)) (Text.encode content) = .error e) :
    Writes s disk project file content
      (grown, .error (.io (Path.append dir (flatten file)) e.message))
  | written {dir : String} {grown disk' : Disk} (hdir : s.dir disk project = .ok dir)
      (hmake : disk.makeDirs dir = (grown, .ok ()))
      (hwrite : grown.write (Path.append dir (flatten file)) (Text.encode content) = .ok disk') :
    Writes s disk project file content (disk', .ok ())

theorem writes (s : Shadows) (disk : Disk) (project file content : String) :
    Writes s disk project file content (s.write disk project file content) := by
  unfold write
  cases hdir : s.dir disk project with
  | error e => exact .misplaced hdir
  | ok dir =>
    dsimp only
    cases hmake : disk.makeDirs dir with
    | mk grown made =>
      cases made with
      | error e => exact .unhoused hdir hmake
      | ok _ =>
        dsimp only
        cases hwrite : grown.write (Path.append dir (flatten file)) (Text.encode content) with
        | error e => exact .unwritten hdir hmake hwrite
        | ok disk' => exact .written hdir hmake hwrite

theorem write_alters (hs : s.Rooted base) (h : disk.Grounds s.workspace.root base)
    (hproject : Path.normalize? project = some project) (hfile : IsFile file) :
    Alters base (· = base ++ s.names project file) disk (s.write disk project file content).1 ∧
      Fills (· <+: base ++ s.names project file) disk (s.write disk project file content).1 ∧
      ((s.write disk project file content).2 = .ok () →
        s.read (s.write disk project file content).1 project file = .ok (some content)) := by
  obtain ⟨hdirBeneath, hdirEnds⟩ := dirPath_beneath hs hproject
  obtain ⟨hbeneath, hends⟩ := path_beneath hs hproject hfile
  have hmade : Alters base (· = base ++ s.names project file) disk
        (disk.makeDirs (s.dirPath project)).1 ∧
      Fills (· <+: base ++ s.dirNames project) disk (disk.makeDirs (s.dirPath project)).1 :=
    h.makeDirsWith hdirBeneath dirNames_ne_nil hdirEnds _
  obtain ⟨hdirs, hmade⟩ := hmade
  have hfills := hmade.mono fun place (hplace : place <+: _) => hplace.trans
    ((List.prefix_append_right_inj base).mpr (List.prefix_append _ [flatten file]))
  have hwrites := writes s disk project file content
  generalize s.write disk project file content = effect at hwrites ⊢
  cases hwrites with
  | misplaced hdir => cases (dir_eq hs h hproject).symm.trans hdir
  | unhoused hdir hmake | unwritten hdir hmake =>
    cases (dir_eq hs h hproject).symm.trans hdir
    rw [hmake] at hdirs hfills
    exact ⟨hdirs, hfills, fun hok => nomatch hok⟩
  | @written _ mid disk' hdir hmake hput =>
    cases (dir_eq hs h hproject).symm.trans hdir
    rw [hmake] at hdirs hfills
    have hmid := h.alter hdirs
    have hput' : disk' = mid.put (base ++ s.names project file) (.file (Text.encode content)) :=
      (hmid.write_eq_ok hbeneath names_ne_nil hends hput).2.2
    have hplace : base ++ s.names project file ≠ [] := by simp [names]
    have hfilled : Fills (· <+: base ++ s.names project file) mid disk' :=
      hput' ▸ Disk.fills_put hplace List.prefix_rfl
    have hwritten : Alters base (· = base ++ s.names project file) mid disk' ∧
        disk'.read (Path.append (s.dirPath project) (flatten file)) = .ok (Text.encode content) :=
      hmid.write hbeneath names_ne_nil hends hput rfl
    have hall := hdirs.trans hwritten.1
    exact ⟨hall, hfills.trans hfilled,
      fun _ => (read_eq_some_iff hs (h.alter hall) hproject).mpr hwritten.2⟩

theorem write_ok (hs : s.Rooted base) (h : disk.Grounds s.workspace.root base)
    (hproject : Path.normalize? project = some project) (hfile : IsFile file)
    (hwrite : (s.write disk project file content).2 = .ok ()) :
    Alters base (· = base ++ s.names project file) disk (s.write disk project file content).1 ∧
      s.read (s.write disk project file content).1 project file = .ok (some content) :=
  ⟨(write_alters hs h hproject hfile).1, (write_alters hs h hproject hfile).2.2 hwrite⟩

theorem write_succeeds (hs : s.Rooted base) (h : disk.Grounds s.workspace.root base)
    (hproject : Path.normalize? project = some project) (hfile : IsFile file)
    (hsound : Disk.Sound (Path.append (s.dirPath project) (flatten file)))
    (hopen : disk.Open base (s.names project file))
    (hleaf : disk.Leaf (base ++ s.names project file)) :
    (s.write disk project file content).2 = .ok () := by
  obtain ⟨hdirBeneath, hdirEnds⟩ := dirPath_beneath hs hproject
  obtain ⟨hbeneath, hends⟩ := path_beneath hs hproject hfile
  have hinit : s.dirNames project <+: s.names project file := List.prefix_append _ _
  have hproper : s.dirNames project ≠ s.names project file := by
    simp [names]
  have hsoundDir : Disk.Sound (s.dirPath project) :=
    hsound.of_append (Path.isAbsolute_of_not_mem (flatten_plain hfile).2.2.2)
  have hdir := hopen.dirs _ dirNames_ne_nil hinit hproper
  have hlocateDir (follow : Bool) : disk.locate follow (s.dirPath project) =
      .ok (.found (base ++ s.dirNames project) .dir) :=
    (h.locate_eq_ok_iff hdirBeneath dirNames_ne_nil hdirEnds).mpr
      ⟨hsoundDir, hopen.above hinit hproper, (Disk.look_eq_found_iff.mpr ⟨rfl, hdir⟩).symm⟩
  have hmade := Disk.makeDirs_of_dir hlocateDir
  have hlocate : disk.locate true (Path.append (s.dirPath project) (flatten file)) =
      .ok (disk.look (base ++ s.names project file)) :=
    (h.locate_eq_ok_iff hbeneath names_ne_nil hends).mpr ⟨hsound, hopen, rfl⟩
  unfold write
  rw [dir_eq hs h hproject]
  dsimp only
  rw [hmade]
  dsimp only
  rw [Disk.write, hlocate, Disk.look]
  cases hentry : disk.entry? (base ++ s.names project file) with
  | none => rfl
  | some e =>
    obtain ⟨old, rfl⟩ := hleaf e hentry
    rfl

theorem remove_cases (hs : s.Rooted base) (h : disk.Grounds s.workspace.root base)
    (hproject : Path.normalize? project = some project) (hfile : IsFile file) :
    (s.remove disk project file).1 = disk ∨
      (s.remove disk project file).1 = ⟨disk.entries.erase (base ++ s.names project file)⟩ := by
  obtain ⟨hbeneath, hends⟩ := path_beneath hs hproject hfile
  unfold remove
  rw [path_eq hs h hproject]
  dsimp only
  cases hremove : disk.removeFile (Path.append (s.dirPath project) (flatten file)) with
  | error e => cases e <;> exact .inl rfl
  | ok disk' => exact .inr (h.removeFile_eq_ok hbeneath names_ne_nil hends hremove)

theorem remove_alters (hs : s.Rooted base) (h : disk.Grounds s.workspace.root base)
    (hproject : Path.normalize? project = some project) (hfile : IsFile file) :
    Alters base (· = base ++ s.names project file) disk (s.remove disk project file).1 ∧
      Fills (fun _ => False) disk (s.remove disk project file).1 := by
  rcases remove_cases hs h hproject hfile with hsame | herased
  · rw [hsame]
    exact ⟨Alters.refl disk, Fills.refl disk⟩
  · rw [herased]
    exact ⟨Disk.alters_erase (Disk.strictly_below base names_ne_nil) rfl, Disk.fills_erase⟩

def Vacant (s : Shadows) (base : List String) (disk : Disk) (project file : String) : Prop :=
  disk.entry? (base ++ s.names project file) = none

theorem remove_vacant (hs : s.Rooted base) (h : disk.Grounds s.workspace.root base)
    (hproject : Path.normalize? project = some project) (hfile : IsFile file)
    (hread : s.read disk project file = .ok (some content)) :
    s.Vacant base (s.remove disk project file).1 project file := by
  obtain ⟨hbeneath, hends⟩ := path_beneath hs hproject hfile
  have hbytes := (read_eq_some_iff hs h hproject).mp hread
  obtain ⟨hsound, hopen, hentry⟩ := (h.read_eq_ok_iff hbeneath names_ne_nil hends).mp hbytes
  have hlook := (Disk.look_eq_found_iff.mpr ⟨rfl, hentry⟩).symm
  have hlocate : disk.locate false (Path.append (s.dirPath project) (flatten file)) =
      .ok (.found (base ++ s.names project file) (.file (Text.encode content))) :=
    (h.locate_eq_ok_iff hbeneath names_ne_nil hends).mpr ⟨hsound, hopen, hlook⟩
  have hne : base ++ s.names project file ≠ [] := by simp [names]
  unfold remove
  rw [path_eq hs h hproject]
  dsimp only
  rw [Disk.removeFile, hlocate]
  change Disk.entry? ⟨disk.entries.erase (base ++ s.names project file)⟩ _ = none
  rw [Disk.entry?_erase, if_neg hne, if_pos rfl]

theorem read_ne_some_of_vacant (hs : s.Rooted base) (h : disk.Grounds s.workspace.root base)
    (hproject : Path.normalize? project = some project) (hfile : IsFile file)
    (hvacant : s.Vacant base disk project file) :
    s.read disk project file ≠ .ok (some content) := by
  intro hread
  cases hvacant.symm.trans (entry?_of_read hs h hproject hfile hread)

theorem rename_alters (hs : s.Rooted base) (h : disk.Grounds s.workspace.root base)
    (hproject : Path.normalize? project = some project) (hfile : IsFile file)
    (hproject' : Path.normalize? project' = some project') (hfile' : IsFile file') :
    Alters base
        (fun p => base ++ s.names project file <+: p ∨ base ++ s.names project' file' <+: p)
        disk (s.rename disk project file project' file').1 ∧
      Fills
        (fun p => p <+: base ++ s.names project' file' ∨ base ++ s.names project' file' <+: p)
        disk (s.rename disk project file project' file').1 := by
  obtain ⟨hbeneath, hends⟩ := path_beneath hs hproject hfile
  obtain ⟨hdirBeneath, hdirEnds⟩ := dirPath_beneath hs hproject'
  obtain ⟨hbeneath', hends'⟩ := path_beneath hs hproject' hfile'
  unfold rename
  rw [path_eq hs h hproject, dir_eq hs h hproject']
  dsimp only
  split
  · exact ⟨Alters.refl disk, Fills.refl disk⟩
  have hmake : Alters base
        (fun p => base ++ s.names project file <+: p ∨ base ++ s.names project' file' <+: p)
        disk (disk.makeDirs (s.dirPath project')).1 ∧
      Fills (· <+: base ++ s.dirNames project') disk (disk.makeDirs (s.dirPath project')).1 :=
    h.makeDirsWith hdirBeneath dirNames_ne_nil hdirEnds _
  generalize disk.makeDirs (s.dirPath project') = made at hmake ⊢
  obtain ⟨mid, result⟩ := made
  obtain ⟨hdirs, hmade⟩ := hmake
  have hfills : Fills
      (fun p => p <+: base ++ s.names project' file' ∨ base ++ s.names project' file' <+: p)
      disk mid :=
    hmade.mono fun place (hplace : place <+: _) => .inl (hplace.trans
      ((List.prefix_append_right_inj base).mpr (List.prefix_append _ _)))
  cases result with
  | error e => exact ⟨hdirs, hfills⟩
  | ok _ =>
    dsimp only at hdirs ⊢
    cases hmove : mid.rename (Path.append (s.dirPath project) (flatten file))
        (Path.append (s.dirPath project') (flatten file')) with
    | error e => exact ⟨hdirs, hfills⟩
    | ok disk' =>
      have ha : base <+: base ++ s.names project file ∧ base ++ s.names project file ≠ base :=
        Disk.strictly_below base names_ne_nil
      have hb : base <+: base ++ s.names project' file' ∧ base ++ s.names project' file' ≠ base :=
        Disk.strictly_below base names_ne_nil
      rcases (h.alter hdirs).rename_cases hbeneath names_ne_nil hends hbeneath' names_ne_nil hends'
        hmove with rfl | rfl
      · exact ⟨hdirs, hfills⟩
      · have hfilled := Disk.fills_moveTree (d := mid) (Disk.below_ne_nil ha)
          (Disk.below_ne_nil hb)
        exact ⟨hdirs.trans (Disk.alters_moveTree ha hb),
          hfills.trans (hfilled.mono fun _ => .inr)⟩

theorem read_rename (hs : s.Rooted base) (h : disk.Grounds s.workspace.root base)
    (hproject : Path.normalize? project = some project) (hfile : IsFile file)
    (hproject' : Path.normalize? project' = some project') (hfile' : IsFile file')
    (hread : s.read disk project file = .ok (some content))
    (hrename : (s.rename disk project file project' file').2 = .ok ()) :
    s.read (s.rename disk project file project' file').1 project' file' = .ok (some content) := by
  have halters := (rename_alters hs h hproject hfile hproject' hfile').1
  refine (read_eq_some_iff hs (h.alter halters) hproject').mpr ?_
  obtain ⟨hbeneath, hends⟩ := path_beneath hs hproject hfile
  obtain ⟨hdirBeneath, hdirEnds⟩ := dirPath_beneath hs hproject'
  obtain ⟨hbeneath', hends'⟩ := path_beneath hs hproject' hfile'
  have hbytes := (read_eq_some_iff hs h hproject).mp hread
  have hthere : disk.isThere (Path.append (s.dirPath project) (flatten file)) = true := by
    obtain ⟨hsound, hopen, hentry⟩ := (h.read_eq_ok_iff hbeneath names_ne_nil hends).mp hbytes
    have hlook := (Disk.look_eq_found_iff.mpr ⟨rfl, hentry⟩).symm
    rw [Disk.isThere, (h.locate_eq_ok_iff hbeneath names_ne_nil hends).mpr ⟨hsound, hopen, hlook⟩]
  unfold rename at hrename ⊢
  rw [path_eq hs h hproject, dir_eq hs h hproject'] at hrename ⊢
  simp only [hthere, Bool.not_true, Bool.false_eq_true, if_false] at hrename ⊢
  have hnone : Alters base (fun _ => False) disk (disk.makeDirs (s.dirPath project')).1 :=
    (h.makeDirsWith hdirBeneath dirNames_ne_nil hdirEnds _).1
  generalize disk.makeDirs (s.dirPath project') = made at hrename hnone ⊢
  obtain ⟨mid, result⟩ := made
  cases result with
  | error e => cases hrename
  | ok _ =>
    dsimp only at hrename hnone ⊢
    have hbytes' := h.read_alter hbeneath names_ne_nil hends hnone (fun _ _ => id) hbytes
    cases hmove : mid.rename (Path.append (s.dirPath project) (flatten file))
        (Path.append (s.dirPath project') (flatten file')) with
    | error e =>
      rw [hmove] at hrename
      cases hrename
    | ok disk' =>
      exact (h.alter hnone).read_rename hbeneath names_ne_nil hends hbeneath' names_ne_nil hends'
        hbytes' hmove

theorem removeProject_alters (hs : s.Rooted base) (h : disk.Grounds s.workspace.root base)
    (hproject : Path.normalize? project = some project) :
    (s.removeProject disk project).1 = disk ∨
      disk.entry? (base ++ s.dirNames project) = some .dir ∧
        Alters base (base ++ s.dirNames project <+: ·) disk (s.removeProject disk project).1 := by
  obtain ⟨hbeneath, hends⟩ := dirPath_beneath hs hproject
  unfold removeProject
  rw [dir_eq hs h hproject]
  dsimp only
  cases hremove : disk.removeDirs (s.dirPath project) with
  | error e => cases e <;> exact .inl rfl
  | ok disk' =>
    exact .inr (h.removeDirs hbeneath dirNames_ne_nil hends hremove fun _ hp => hp)

theorem prefix_of_mark {mark : String} {xs ys zs ws : List String}
    (h : xs ++ mark :: zs <+: ys ++ ws) (hmark : mark ∉ ys) : ys <+: xs := by
  induction ys generalizing xs with
  | nil => exact List.nil_prefix
  | cons y ys ih =>
    rw [List.mem_cons, not_or] at hmark
    cases xs with
    | nil => exact absurd (List.cons_prefix_cons.mp h).1 hmark.1
    | cons x xs =>
      obtain ⟨rfl, hrest⟩ := List.cons_prefix_cons.mp h
      exact List.cons_prefix_cons.mpr ⟨rfl, ih hrest hmark.2⟩

theorem dirNames_prefix (hapart : s.metadataDir ∉ Path.names project')
    (h : s.dirNames project <+: s.names project' file') :
    Path.names project = Path.names project' ∨ s.dirNames project = s.names project' file' := by
  have hlength := h.length_le
  simp only [names, dirNames, List.append_assoc, List.length_append, List.length_cons,
    List.length_nil] at hlength
  have hproject : Path.names project' <+: Path.names project := by
    rw [dirNames, names, dirNames, List.append_assoc] at h
    exact prefix_of_mark h hapart
  obtain ⟨more, hmore⟩ := hproject
  rw [← hmore, List.length_append] at hlength
  match more with
  | [] => exact .inl (by rw [← hmore, List.append_nil])
  | name :: rest =>
    right
    apply h.eq_of_length
    simp only [names, dirNames, List.append_assoc, List.length_append, List.length_cons,
      List.length_nil, ← hmore] at hlength ⊢
    omega

theorem removeProject_grounds (hs : s.Rooted base) (h : disk.Grounds s.workspace.root base)
    (hproject : Path.normalize? project = some project) :
    (s.removeProject disk project).1.Grounds s.workspace.root base := by
  rcases removeProject_alters hs h hproject with hsame | ⟨-, halters⟩
  · rw [hsame]
    exact h
  · exact h.alter halters

theorem removeProject_shrinks {place : List String} {e : Disk.Entry}
    (h : Disk.entry? (s.removeProject disk project).1 place = some e) :
    disk.entry? place = some e := by
  unfold removeProject at h
  split at h
  · exact h
  · rename_i dir _
    cases hremove : disk.removeDirs dir with
    | error fault =>
      rw [hremove] at h
      cases fault <;> exact h
    | ok disk' =>
      rw [hremove] at h
      exact Disk.removeDirs_shrinks hremove h

theorem read_removeProject (hs : s.Rooted base) (h : disk.Grounds s.workspace.root base)
    (hproject : Path.normalize? project = some project)
    (hproject' : Path.normalize? project' = some project') (hfile' : IsFile file')
    (hapart : s.metadataDir ∉ Path.names project') (hother : project' ≠ project) :
    s.read (s.removeProject disk project).1 project' file' = .ok (some content) ↔
      s.read disk project' file' = .ok (some content) := by
  obtain ⟨hbeneath, hends⟩ := path_beneath hs hproject' hfile'
  rcases removeProject_alters hs h hproject with hsame | ⟨hdir, halters⟩
  · rw [hsame]
  constructor
  · intro hread
    have hgrounds := removeProject_grounds hs h hproject
    rw [read_eq_some_iff hs hgrounds hproject'] at hread
    rw [read_eq_some_iff hs h hproject']
    exact hgrounds.read_keep h hbeneath names_ne_nil hends
      (fun above e _ he => removeProject_shrinks he) hread
  · intro hread
    refine read_alter hs h hproject' hfile' halters (fun above habove hunder => ?_) hread
    have hinit := ((List.prefix_append_right_inj base).mp hunder).trans habove
    rcases dirNames_prefix hapart hinit with hnames | hsame
    · apply hother
      rw [(Path.normalize?_normal hproject').2.1, (Path.normalize?_normal hproject).2.1, hnames]
    · -- The place is that of a shadow, which is no directory.
      rw [hsame, entry?_of_read hs h hproject' hfile' hread] at hdir
      cases hdir

theorem flatten_eq_of_names (hapart : s.metadataDir ∉ Path.names project')
    (h : s.names project file <+: s.names project' file') : flatten file = flatten file' := by
  have hlength := h.length_le
  have hproject : Path.names project' <+: Path.names project := by
    simp only [names, dirNames, List.append_assoc, List.cons_append] at h
    exact prefix_of_mark h hapart
  have hle := hproject.length_le
  have heq : s.names project file = s.names project' file' := by
    apply h.eq_of_length
    simp only [names, dirNames, List.append_assoc, List.length_append, List.length_cons,
      List.length_nil] at hlength ⊢
    omega
  have hlast := congrArg List.getLast? heq
  simpa only [names, List.getLast?_concat, Option.some.injEq] using hlast

def Houses (s : Shadows) (disk : Disk) (project : String) (place : List String) : Prop :=
  ∃ dir grown, s.dir disk project = .ok dir ∧ disk.Grows grown ∧
    grown.locate true dir = .ok (.found place .dir)

def Unlinked (s : Shadows) (disk : Disk) (project : String) : Prop :=
  ∀ place name target, s.Houses disk project place →
    disk.entry? (place ++ [name]) ≠ some (.link target)

def Own (s : Shadows) (disk : Disk) (project file : String) (place : List String) : Prop :=
  ∃ dir, s.Houses disk project dir ∧ place = dir ++ [flatten file]

theorem Houses.unique {place place' : List String} (h : s.Houses disk project place)
    (h' : s.Houses disk project place') : place = place' := by
  obtain ⟨dir, grown, hdir, hgrows, hlocate⟩ := h
  obtain ⟨dir', grown', hdir', hgrows', hlocate'⟩ := h'
  rw [hdir, Except.ok.injEq] at hdir'
  subst hdir'
  exact hgrows.walk_unique hgrows' (Disk.locate_of_walk hlocate) (Disk.locate_of_walk hlocate')

theorem Own.unique {place place' : List String} (h : s.Own disk project file place)
    (h' : s.Own disk project file place') : place = place' := by
  obtain ⟨dir, hdir, rfl⟩ := h
  obtain ⟨dir', hdir', rfl⟩ := h'
  rw [hdir.unique hdir']

theorem write_puts (content : String) (hfile : IsFile file) (hunlinked : s.Unlinked disk project) :
    ∃ grown, disk.Grows grown ∧ ((s.write disk project file content).1 = grown ∨
      ∃ place, s.Own disk project file place ∧ grown.Leaf place ∧
        (s.write disk project file content).1 = grown.put place (.file (Text.encode content))) := by
  have hwrites := writes s disk project file content
  generalize s.write disk project file content = effect at hwrites ⊢
  have hgrows (dir : String) : disk.Grows (disk.makeDirs dir).1 := Disk.makeDirsWith_grows _ disk dir
  cases hwrites with
  | misplaced => exact ⟨disk, Grows.refl disk, .inl rfl⟩
  | @unhoused dir grown e _ hmake | @unwritten dir grown e _ hmake =>
    have hgrown := hgrows dir
    rw [hmake] at hgrown
    exact ⟨grown, hgrown, .inl rfl⟩
  | @written dir grown disk' hdir hmake hwrite =>
    have hgrown := hgrows dir
    have hleads : (disk.makeDirs dir).2 = .ok () →
        ∃ p, (disk.makeDirs dir).1.locate true dir = .ok (.found p .dir) :=
      Disk.leads_of_makeDirsWith
    rw [hmake] at hgrown hleads
    obtain ⟨place, hplace⟩ := hleads rfl
    have hhouses : s.Houses disk project place := ⟨dir, grown, hdir, hgrown, hplace⟩
    -- A link could send the text anywhere, but the disk had none here and got none.
    have hfree (target : String) :
        grown.entry? (place ++ [flatten file]) ≠ some (.link target) :=
      fun hlink => hunlinked place _ target hhouses (hgrown.link hlink)
    obtain ⟨t, p, hlocate, rfl, htarget⟩ := Disk.write_eq_ok hwrite
    have hlook := Disk.locate_append hplace (flatten_plain hfile) hfree hlocate
    refine ⟨grown, hgrown, .inr ⟨p, ?_⟩⟩
    rcases htarget with rfl | ⟨old, rfl⟩
    · obtain ⟨rfl, hnone⟩ := Disk.look_eq_vacant_iff.mp hlook.symm
      have hleaf : grown.Leaf (place ++ [flatten file]) := fun e he => by
        cases hnone.symm.trans he
      exact ⟨⟨place, hhouses, rfl⟩, hleaf, rfl⟩
    · obtain ⟨rfl, hold⟩ := Disk.look_eq_found_iff.mp hlook.symm
      have hleaf : grown.Leaf (place ++ [flatten file]) := fun e he =>
        ⟨old, Option.some.inj (he.symm.trans hold)⟩
      exact ⟨⟨place, hhouses, rfl⟩, hleaf, rfl⟩

theorem write_gains_own (hfile : IsFile file) (hunlinked : s.Unlinked disk project) :
    Gains (s.Own disk project file) (Text.encode content) disk
      (s.write disk project file content).1 := by
  obtain ⟨grown, hgrows, hgrown | ⟨place, hown, hleaf, hput⟩⟩ :=
    write_puts content hfile hunlinked
  · rw [hgrown]
    exact hgrows.gains
  · rw [hput]
    intro q
    have hentry := Disk.entry?_put (d := grown) place q (.file (Text.encode content)) hleaf.ne_nil
    by_cases hq : q = place
    · exact .inr (.inr ⟨hq ▸ hown, hentry.trans (if_pos hq)⟩)
    · have hgains : Gains (s.Own disk project file) (Text.encode content) disk grown :=
        hgrows.gains
      rw [hentry, if_neg hq]
      exact hgains q

theorem write_gains (hfile : IsFile file) (hunlinked : s.Unlinked disk project) :
    ∃ place, Gains (fun p => p = place ∧ s.Own disk project file p) (Text.encode content) disk
      (s.write disk project file content).1 := by
  have hgains : Gains (s.Own disk project file) (Text.encode content) disk
      (s.write disk project file content).1 := write_gains_own hfile hunlinked
  by_cases hown : ∃ place, s.Own disk project file place
  · obtain ⟨place, hplace⟩ := hown
    exact ⟨place, hgains.mono fun p hp => ⟨hp.unique hplace, hp⟩⟩
  · exact ⟨[], hgains.mono fun p hp => absurd ⟨p, hp⟩ hown⟩

end EditorSync.Shadows

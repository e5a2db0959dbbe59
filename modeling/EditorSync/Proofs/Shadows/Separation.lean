import EditorSync.Proofs.Shadows

/-! What changes of some shadows leave to the others, in a workspace that may have links. -/

namespace EditorSync.Shadows

open Disk (Grounds Grows Leaf SameBut)

variable {s : Shadows} {disk disk' grown : Disk} {base place : List String}
variable {project file project' file' content : String}
variable {touched : String → Prop}

theorem append_inj {dir name name' : String} (hname : '/' ∉ name.toList)
    (hname' : '/' ∉ name'.toList) : Path.append dir name = Path.append dir name' ↔ name = name' := by
  refine ⟨fun h => ?_, fun h => h ▸ rfl⟩
  rw [Path.append, Path.append, Path.isAbsolute_of_not_mem hname,
    Path.isAbsolute_of_not_mem hname', if_neg Bool.false_ne_true, if_neg Bool.false_ne_true] at h
  split at h
  · exact String.append_right_inj _ |>.mp h
  · exact String.append_right_inj _ |>.mp h

theorem path_inj {path path' : String} (h : s.path disk project file = .ok path)
    (h' : s.path disk project file' = .ok path') :
    path = path' ↔ flatten file = flatten file' := by
  unfold Shadows.path at h h'
  cases hdir : s.dir disk project with
  | error e =>
    rw [hdir] at h
    cases h
  | ok dir =>
    rw [hdir] at h h'
    cases h
    cases h'
    exact append_inj (not_slash_mem_flatten file) (not_slash_mem_flatten file')

theorem read_congr (h : flatten file = flatten file') :
    s.read disk project file = s.read disk project file' := by
  rw [read, read, Shadows.path, Shadows.path, h]

def Tidy (s : Shadows) (disk : Disk) (project : String) : Prop :=
  ∀ dir place name e, s.dir disk project = .ok dir → s.Houses disk project place →
    disk.entry? (place ++ [name]) = some e →
      (∃ content, e = .file content) ∧ disk.locate true dir = .ok (.found place .dir)

theorem Tidy.leaf (h : s.Tidy disk project) (hhouses : s.Houses disk project place) (name : String) :
    disk.Leaf (place ++ [name]) := by
  intro e he
  obtain ⟨dir, _, hdir, -⟩ := id hhouses
  exact (h dir place name e hdir hhouses he).1

theorem Tidy.unlinked (h : s.Tidy disk project) : s.Unlinked disk project := by
  intro place name target hhouses hlink
  obtain ⟨content, hcontent⟩ := h.leaf hhouses name _ hlink
  cases hcontent

theorem tidy_of_located {dir : String} (hdir : s.dir disk project = .ok dir)
    (hlocate : disk.locate true dir = .ok (.found place .dir))
    (hleaf : ∀ name, disk.Leaf (place ++ [name])) : s.Tidy disk project := by
  intro dir' place' name e hdir' hhouses hentry
  obtain rfl := hhouses.unique ⟨dir, disk, hdir, Grows.refl disk, hlocate⟩
  cases hdir.symm.trans hdir'
  exact ⟨hleaf name e hentry, hlocate⟩

theorem dir_eq_ok_iff {dir : String} : s.dir disk project = .ok dir ↔
    ∃ p, Path.normalize? project = some p ∧ s.dirPath p = dir ∧
      ∀ canonical,
        disk.canonical? (Path.append s.workspace.root (Workspace.relative p)) = some canonical →
          Path.contains s.workspace.canonicalRoot canonical = true := by
  rw [Shadows.dir, Workspace.realPath, Workspace.normalize]
  cases Path.normalize? project with
  | none => constructor <;> simp [bind, Except.bind]
  | some p =>
    simp only [bind, Except.bind, pure, Except.pure, Option.some.injEq, exists_eq_left', dirPath]
    cases disk.canonical? (Path.append s.workspace.root (Workspace.relative p)) with
    | none => simp
    | some canonical =>
      by_cases hinside : Path.contains s.workspace.canonicalRoot canonical = true <;>
        simp [hinside, throw, throwThe, MonadExceptOf.throw]

theorem locate_project (hrelative : Path.isAbsolute s.metadataDir = false)
    (h : disk.locate true (s.dirPath project) = .ok (.found place .dir)) :
    ∃ q, disk.locate true (Path.append s.workspace.root (Workspace.relative project)) =
      .ok (.found q .dir) := by
  obtain ⟨p, hp⟩ := Disk.locate_of_append (by decide) h
  exact Disk.locate_of_append hrelative hp

theorem dir_of_grows {dir : String} (hgrows : disk.Grows grown)
    (hdir : s.dir grown project = .ok dir) : s.dir disk project = .ok dir := by
  rw [dir_eq_ok_iff] at hdir ⊢
  obtain ⟨p, hp, hpath, hinside⟩ := hdir
  refine ⟨p, hp, hpath, fun canonical hcanonical => hinside canonical ?_⟩
  obtain ⟨place, e, hleads, -⟩ := Disk.canonical?_eq_some_iff.mp hcanonical
  rw [hgrows.canonical?_eq hleads, hcanonical]

theorem dir_of_located {dir : String} (hrelative : Path.isAbsolute s.metadataDir = false)
    (hdir : s.dir disk project = .ok dir) (hlocate : disk.locate true dir = .ok (.found place .dir))
    (hkeep : ∀ path q, disk.locate true path = .ok (.found q .dir) →
      disk'.canonical? path = disk.canonical? path) : s.dir disk' project = .ok dir := by
  rw [dir_eq_ok_iff] at hdir ⊢
  obtain ⟨p, hp, rfl, hinside⟩ := hdir
  obtain ⟨q, hq⟩ := locate_project hrelative hlocate
  exact ⟨p, hp, rfl, fun canonical hcanonical =>
    hinside canonical ((hkeep _ q hq).symm.trans hcanonical)⟩

def Touches (touched : String → Prop) (disk disk' : Disk) : Prop :=
  ∃ grown own, disk.Grows grown ∧ grown.SameBut own disk' ∧
    ∀ p, own p → ∃ dir file, touched file ∧ p = dir ++ [flatten file]

theorem touches_of_grows (h : disk.Grows disk') : Touches touched disk disk' :=
  ⟨disk', _, h, SameBut.refl disk', fun _ => False.elim⟩

theorem Touches.mono {more : String → Prop} (h : Touches touched disk disk')
    (hmore : ∀ f, touched f → more f) : Touches more disk disk' := by
  obtain ⟨grown, own, hgrows, hsame, hown⟩ := h
  refine ⟨grown, own, hgrows, hsame, fun p hp => ?_⟩
  obtain ⟨dir, f, hf, heq⟩ := hown p hp
  exact ⟨dir, f, hmore f hf, heq⟩

theorem write_touches (hfile : IsFile file) (htidy : s.Tidy disk project) :
    Touches (· = file) disk (s.write disk project file content).1 := by
  obtain ⟨grown, hgrows, hgrown | ⟨place, ⟨dir, -, rfl⟩, hleaf, hput⟩⟩ :=
    write_puts content hfile htidy.unlinked
  · rw [hgrown]
    exact touches_of_grows hgrows
  · rw [hput]
    exact ⟨grown, _, hgrows, Disk.put_sameBut hleaf, fun p hp => ⟨dir, file, rfl, hp⟩⟩

theorem leaf_of_locate {dir : String} {t : Disk.Target} {follow : Bool} (hfile : IsFile file)
    (htidy : s.Tidy disk project) (hdir : s.dir disk project = .ok dir) (hgrows : disk.Grows grown)
    (hlocate : grown.locate follow (Path.append dir (flatten file)) = .ok t) :
    ∃ place, grown.locate true dir = .ok (.found place .dir) ∧ s.Houses disk project place ∧
      t = grown.look (place ++ [flatten file]) := by
  have hname := Path.isAbsolute_of_not_mem (not_slash_mem_flatten file)
  obtain ⟨place, hplace⟩ := Disk.locate_of_append hname hlocate
  have hhouses : s.Houses disk project place := ⟨dir, grown, hdir, hgrows, hplace⟩
  have hfree (target : String) : grown.entry? (place ++ [flatten file]) ≠ some (.link target) :=
    fun hlink => htidy.unlinked place _ target hhouses (hgrows.link hlink)
  exact ⟨place, hplace, hhouses, Disk.locate_append hplace (flatten_plain hfile) hfree hlocate⟩

theorem remove_touches (hfile : IsFile file) (htidy : s.Tidy disk project) :
    Touches (· = file) disk (s.remove disk project file).1 := by
  unfold remove Shadows.path
  cases hdir : s.dir disk project with
  | error e => exact touches_of_grows (Grows.refl disk)
  | ok dir =>
    simp only [bind, Except.bind, pure, Except.pure]
    cases hremove : disk.removeFile (Path.append dir (flatten file)) with
    | error e => cases e <;> exact touches_of_grows (Grows.refl disk)
    | ok removed =>
      obtain ⟨p, e, hlocate, rfl⟩ := Disk.removeFile_eq_ok hremove
      obtain ⟨place, -, hhouses, hlook⟩ := leaf_of_locate hfile htidy hdir (Grows.refl disk) hlocate
      obtain ⟨rfl, -⟩ := Disk.look_eq_found_iff.mp hlook.symm
      have hsame := Disk.erase_sameBut (htidy.leaf hhouses (flatten file))
      exact ⟨disk, _, Grows.refl disk, hsame, fun p hp => ⟨place, file, rfl, hp⟩⟩

theorem read_eq_some_iff_of_dir : s.read disk project file = .ok (some content) ↔
    ∃ dir, s.dir disk project = .ok dir ∧
      disk.read (Path.append dir (flatten file)) = .ok (Text.encode content) := by
  rw [read, Shadows.path]
  cases hdir : s.dir disk project with
  | error e => simp [bind, Except.bind]
  | ok dir =>
    simp only [bind, Except.bind, pure, Except.pure, Except.ok.injEq, exists_eq_left']
    exact readOptional_eq_some_iff

theorem file_of_isThere {dir : String} (hfile : IsFile file) (htidy : s.Tidy disk project)
    (hdir : s.dir disk project = .ok dir)
    (hthere : disk.isThere (Path.append dir (flatten file)) = true) :
    ∃ place content, disk.locate true dir = .ok (.found place .dir) ∧
      disk.entry? (place ++ [flatten file]) = some (.file content) := by
  unfold Disk.isThere at hthere
  split at hthere
  · rename_i p e hlocate
    obtain ⟨place, hplace, hhouses, hlook⟩ := leaf_of_locate hfile htidy hdir (Grows.refl disk) hlocate
    obtain ⟨rfl, hentry⟩ := Disk.look_eq_found_iff.mp hlook.symm
    obtain ⟨content, rfl⟩ := htidy.leaf hhouses _ e hentry
    exact ⟨place, content, hplace, hentry⟩
  · cases hthere

theorem moved_touches {dir dir' : String} {renamed : Disk} (hfile : IsFile file)
    (hfile' : IsFile file') (htidy : s.Tidy disk project) (htidy' : s.Tidy disk project')
    (hdir : s.dir disk project = .ok dir) (hdir' : s.dir disk project' = .ok dir')
    (hthere : disk.isThere (Path.append dir (flatten file)) = true) (hgrows : disk.Grows grown)
    (hrename : grown.rename (Path.append dir (flatten file)) (Path.append dir' (flatten file')) =
      .ok renamed) : Touches (fun f => f = file ∨ f = file') disk renamed := by
  obtain ⟨⟨a, e, hsource⟩, t, htarget⟩ := Disk.locate_of_rename hrename
  obtain ⟨place, content, hplace, hentry⟩ := file_of_isThere hfile htidy hdir hthere
  have hlocated := hgrows.locate hplace
  have hkept := hgrows.keep hentry
  have hsource' : grown.locate false (Path.append dir (flatten file)) =
      .ok (.found (place ++ [flatten file]) (.file content)) := by
    have hlook := Disk.locate_append hlocated (flatten_plain hfile)
      (fun target hlink => by cases hkept.symm.trans hlink) hsource
    rw [hsource, hlook, Disk.look_eq_found_iff.mpr ⟨rfl, hkept⟩]
  obtain ⟨place', -, hhouses', rfl⟩ := leaf_of_locate hfile' htidy' hdir' hgrows htarget
  have hfree (target : String) : grown.entry? (place' ++ [flatten file']) ≠ some (.link target) :=
    fun hlink => htidy'.unlinked place' _ target hhouses' (hgrows.link hlink)
  rcases Disk.rename_sameBut hsource' hkept (Disk.reached_of_locate hlocated) htarget hfree
    hrename with rfl | hsame
  · exact touches_of_grows hgrows
  · refine ⟨grown, _, hgrows, hsame, ?_⟩
    rintro p (rfl | rfl)
    · exact ⟨place, file, .inl rfl, rfl⟩
    · exact ⟨place', file', .inr rfl, rfl⟩

theorem rename_touches (hfile : IsFile file) (hfile' : IsFile file') (htidy : s.Tidy disk project)
    (htidy' : s.Tidy disk project') :
    Touches (fun f => f = file ∨ f = file') disk (s.rename disk project file project' file').1 := by
  unfold rename Shadows.path
  cases hdir : s.dir disk project with
  | error e => exact touches_of_grows (Grows.refl disk)
  | ok dir =>
    cases hdir' : s.dir disk project' with
    | error e => exact touches_of_grows (Grows.refl disk)
    | ok dir' =>
      simp only [bind, Except.bind, pure, Except.pure]
      split
      · exact touches_of_grows (Grows.refl disk)
      rename_i hgone
      have hthere : disk.isThere (Path.append dir (flatten file)) = true := by
        simpa using hgone
      have hgrows : disk.Grows (disk.makeDirs dir').1 := Disk.makeDirsWith_grows _ disk dir'
      generalize disk.makeDirs dir' = made at hgrows ⊢
      obtain ⟨grown, result⟩ := made
      cases result with
      | error e => exact touches_of_grows hgrows
      | ok _ =>
        dsimp only at hgrows ⊢
        cases hrename : grown.rename (Path.append dir (flatten file))
            (Path.append dir' (flatten file')) with
        | error e => exact touches_of_grows hgrows
        | ok renamed => exact moved_touches hfile hfile' htidy htidy' hdir hdir' hthere hgrows hrename

inductive Handles (s : Shadows) (handled : String → Prop) (disk : Disk) : Disk → Prop
  | write {project file : String} (content : String) (hfile : IsFile file)
    (htidy : s.Tidy disk project) (hhandled : handled file) :
    Handles s handled disk (s.write disk project file content).1
  | remove {project file : String} (hfile : IsFile file) (htidy : s.Tidy disk project)
    (hhandled : handled file) : Handles s handled disk (s.remove disk project file).1
  | rename {project file project' file' : String} (hfile : IsFile file) (hfile' : IsFile file')
    (htidy : s.Tidy disk project) (htidy' : s.Tidy disk project') (hhandled : handled file)
    (hhandled' : handled file') : Handles s handled disk (s.rename disk project file project' file').1

theorem Handles.touches (h : s.Handles touched disk disk') : Touches touched disk disk' := by
  cases h with
  | write content hfile htidy hhandled =>
    exact (write_touches hfile htidy).mono fun _ hf => hf ▸ hhandled
  | remove hfile htidy hhandled =>
    exact (remove_touches hfile htidy).mono fun _ hf => hf ▸ hhandled
  | rename hfile hfile' htidy htidy' hhandled hhandled' =>
    refine (rename_touches hfile hfile' htidy htidy').mono ?_
    rintro f (rfl | rfl)
    · exact hhandled
    · exact hhandled'

section Read

variable {own : List String → Prop}

theorem read_before (hrelative : Path.isAbsolute s.metadataDir = false) (hfile : IsFile file)
    (htidy : s.Tidy disk project) (hgrows : disk.Grows grown) (hsame : grown.SameBut own disk')
    (hother : ∀ place, ¬own (place ++ [flatten file]))
    (hread : s.read disk' project file = .ok (some content)) :
    s.read disk project file = .ok (some content) := by
  have hname := flatten_plain hfile
  obtain ⟨dir, hdir', hbytes⟩ := read_eq_some_iff_of_dir.mp hread
  obtain ⟨_, hfound⟩ := Disk.locate_of_read hbytes
  obtain ⟨place, hplace'⟩ := Disk.locate_of_append (Path.isAbsolute_of_not_mem hname.2.2.2) hfound
  have hplace : grown.locate true dir = .ok (.found place .dir) := hsame.symm.locate hplace'
  have hdir : s.dir disk project = .ok dir :=
    dir_of_grows hgrows (dir_of_located hrelative hdir' hplace' fun _ _ h =>
      hsame.symm.canonical?_eq (Disk.leads_of_locate h))
  have hhouses : s.Houses disk project place := ⟨dir, grown, hdir, hgrows, hplace⟩
  have hentry : disk'.entry? (place ++ [flatten file]) = grown.entry? (place ++ [flatten file]) :=
    hsame.entry? (Disk.reached_of_locate hplace) (hother place)
  have hfile' : disk'.entry? (place ++ [flatten file]) = some (.file (Text.encode content)) :=
    Disk.entry?_of_read_append hplace' hname (fun target hlink =>
      htidy.unlinked place _ target hhouses (hgrows.link (hentry.symm.trans hlink))) hbytes
  -- What has been made on the way are directories, so the file was there before.
  have hbefore : disk.entry? (place ++ [flatten file]) = some (.file (Text.encode content)) := by
    rcases hgrows (place ++ [flatten file]) with hold | ⟨-, hmade⟩
    · rw [← hold, ← hentry, hfile']
    · cases (hentry.symm.trans hfile').symm.trans hmade
  obtain ⟨-, hlocate⟩ := htidy dir place _ _ hdir hhouses hbefore
  rw [read_eq_some_iff_of_dir]
  refine ⟨dir, hdir, ?_⟩
  rw [← hbytes]
  exact Disk.read_append_congr hplace' hlocate hname
    (fun target hlink => by cases hfile'.symm.trans hlink) (hbefore.trans hfile'.symm)

theorem read_after (hrelative : Path.isAbsolute s.metadataDir = false) (hfile : IsFile file)
    (htidy : s.Tidy disk project) (hgrows : disk.Grows grown) (hsame : grown.SameBut own disk')
    (hother : ∀ place, ¬own (place ++ [flatten file]))
    (hread : s.read disk project file = .ok (some content)) :
    s.read disk' project file = .ok (some content) := by
  have hname := flatten_plain hfile
  obtain ⟨dir, hdir, hbytes⟩ := read_eq_some_iff_of_dir.mp hread
  obtain ⟨_, hfound⟩ := Disk.locate_of_read hbytes
  obtain ⟨place, hplace, hhouses, -⟩ := leaf_of_locate hfile htidy hdir (Grows.refl disk) hfound
  have hfree (target : String) : disk.entry? (place ++ [flatten file]) ≠ some (.link target) :=
    htidy.unlinked place _ target hhouses
  have hentry := Disk.entry?_of_read_append hplace hname hfree hbytes
  have hgrown := hgrows.locate hplace
  have hentry' : disk'.entry? (place ++ [flatten file]) = disk.entry? (place ++ [flatten file]) :=
    (hsame.entry? (Disk.reached_of_locate hgrown) (hother place)).trans
      ((hgrows.keep hentry).trans hentry.symm)
  have hdir' : s.dir disk' project = .ok dir :=
    dir_of_located hrelative hdir hplace fun _ _ h =>
      (hsame.canonical?_eq (Disk.leads_of_locate (hgrows.locate h))).trans
        (hgrows.canonical?_eq (Disk.leads_of_locate h))
  rw [read_eq_some_iff_of_dir]
  refine ⟨dir, hdir', ?_⟩
  rw [← hbytes]
  exact Disk.read_append_congr hplace (hsame.locate hgrown) hname hfree hentry'

end Read

theorem read_touches (hrelative : Path.isAbsolute s.metadataDir = false) (hfile : IsFile file)
    (htidy : s.Tidy disk project) (htouches : Touches touched disk disk')
    (hapart : ∀ f, touched f → flatten f ≠ flatten file) :
    s.read disk' project file = .ok (some content) ↔
      s.read disk project file = .ok (some content) := by
  obtain ⟨grown, own, hgrows, hsame, hown⟩ := htouches
  have hother (place : List String) : ¬own (place ++ [flatten file]) := by
    intro hp
    obtain ⟨dir, f, hf, heq⟩ := hown _ hp
    have hname := (List.append_inj' heq rfl).2
    exact hapart f hf (List.cons.inj hname).1.symm
  exact ⟨read_before hrelative hfile htidy hgrows hsame hother,
    read_after hrelative hfile htidy hgrows hsame hother⟩

end EditorSync.Shadows

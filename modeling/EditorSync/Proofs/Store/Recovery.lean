import EditorSync.Proofs.Shadows.Separation
import EditorSync.Proofs.Store.Forgetting

/-! What a working copy begins with that is made again from a shadow, when other files have been
worked on meanwhile. -/

namespace EditorSync.Store

open Disk (Grounds Alters Fills)
open WorkingCopy (Key)
open Shadows (IsFile flatten)

variable {s : Shadows} {base : List String} {w w' : World} {key key' : Key} {disk disk' : Disk}
variable {shadow : Option String} {path : String} {c : Call}

structure Apart (s : Shadows) (file other : String) : Prop where
  differs : flatten other ≠ flatten file
  outside : ∀ project, s.workspace.owner? other = some project → s.metadataDir ∉ Path.names project

/-- What can happen to a store: calls, whether they succeed or not, changes of the real files by
somebody else, and restarts. -/
inductive Course (s : Shadows) (root : String) (projects : Option (List String))
    (base : List String) (allowed : Call → Prop) (w : World) : World → Prop
  | refl : Course s root projects base allowed w w
  | call {w' : World} (h : Course s root projects base allowed w w') (c : Call) (hc : allowed c) :
    Course s root projects base allowed w (c.after w')
  | edit {w' : World} (h : Course s root projects base allowed w w') (disk : Disk)
    (hleaves : Leaves s base w'.disk disk) :
    Course s root projects base allowed w { w' with disk := disk }
  | restart {w' : World} (h : Course s root projects base allowed w w') (s' : Shadows)
    (settings : Settings) (hbuilt : s'.workspace.Built w'.disk root projects)
    (hmeta : s'.metadataDir = s.metadataDir) :
    Course s root projects base allowed w ⟨.new s' settings, w'.disk⟩

def Stands (s : Shadows) (base : List String) (disk : Disk) (key : Key) : Option String → Prop
  | some text => s.read disk key.project key.file = .ok (some text)
  | none => s.Vacant base disk key.project key.file

structure Placed (s : Shadows) (base : List String) (key : Key) : Prop where
  rooted : s.Rooted base
  normal : Path.normalize? key.file = some key.file
  owner : s.workspace.owner? key.file = some key.project
  outside : s.metadataDir ∉ Path.names key.project

namespace Placed

theorem isFile (h : Placed s base key) :
    Path.normalize? key.project = some key.project ∧ IsFile key.file := by
  obtain ⟨hproject, hne⟩ := Workspace.owner?_normal h.rooted.normal h.normal h.owner
  exact ⟨hproject, h.normal, hne⟩

theorem of_addressed (hs : s.Rooted base) (hkey : Addressed s (Apart s key.file) key') :
    Placed s base key' :=
  ⟨hs, hkey.normal, hkey.owner, hkey.used.outside _ hkey.owner⟩

theorem not_prefix (h : Placed s base key) (hkey : Addressed s (Apart s key.file) key')
    {above : List String} (habove : above <+: s.names key.project key.file) :
    ¬base ++ s.names key'.project key'.file <+: base ++ above := by
  intro hinit
  have hnames := ((List.prefix_append_right_inj base).mp hinit).trans habove
  exact hkey.used.differs (Shadows.flatten_eq_of_names h.outside hnames)

theorem not_under (hkey : Addressed s (Apart s key.file) key') :
    ¬base ++ s.names key.project key.file <+: base ++ s.names key'.project key'.file := by
  intro hinit
  have hnames := (List.prefix_append_right_inj base).mp hinit
  have houtside := hkey.used.outside _ hkey.owner
  exact hkey.used.differs (Shadows.flatten_eq_of_names houtside hnames).symm

end Placed

structure Recovers (s : Shadows) (base : List String) (key : Key) (shadow : Option String)
    (w : World) : Prop where
  keyed : w.Keyed s fun _ => True
  grounds : w.disk.Grounds s.workspace.root base
  stands : Stands s base w.disk key shadow

namespace Recovers

theorem track (h : Recovers s base key shadow w) (f : Tracking → Tracking) :
    Recovers s base key shadow (w.track f) :=
  ⟨h.keyed.track f, h.grounds, h.stands⟩

theorem retain (h : Recovers s base key shadow w) (keep : Key → Bool) :
    Recovers s base key shadow (w.retain keep) :=
  ⟨h.keyed.retain keep, h.grounds, h.stands⟩

theorem put {copy : WorkingCopy} (h : Recovers s base key shadow w)
    (hcopy : Addressed s (Apart s key.file) copy.key) : Recovers s base key shadow (w.put copy) :=
  ⟨h.keyed.put ⟨trivial, hcopy.normal, hcopy.owner⟩, h.grounds, h.stands⟩

theorem undergo {effect : Shadows.Effect} {touched filled : List String → Prop}
    (hplaced : Placed s base key) (h : Recovers s base key shadow w)
    (halters : Alters base touched w.disk effect.1) (hfills : Fills filled w.disk effect.1)
    (hspared : ∀ above, above <+: s.names key.project key.file → ¬touched (base ++ above))
    (hunfilled : ¬filled (base ++ s.names key.project key.file)) :
    Recovers s base key shadow (w.undergo effect) := by
  obtain ⟨hproject, hfile⟩ := hplaced.isFile
  refine ⟨h.keyed.undergo effect, h.grounds.alter halters, ?_⟩
  have hstands := h.stands
  cases shadow with
  | none => exact hfills _ hunfilled hstands
  | some text =>
    exact Shadows.read_alter hplaced.rooted h.grounds hproject hfile halters hspared hstands

theorem persisted {copy : WorkingCopy} (hplaced : Placed s base key)
    (h : Recovers s base key shadow w) (hcopy : Addressed s (Apart s key.file) copy.key) :
    Recovers s base key shadow (w.persisted copy) := by
  unfold World.persisted
  split
  · rw [h.keyed.shadows_eq]
    obtain ⟨hproject, hfile⟩ := (Placed.of_addressed hplaced.rooted hcopy).isFile
    obtain ⟨halters, hfills, -⟩ :=
      Shadows.write_alters hplaced.rooted h.grounds hproject hfile
    refine h.undergo hplaced halters hfills (fun above habove heq => ?_) (Placed.not_under hcopy)
    exact hplaced.not_prefix hcopy habove (heq ▸ List.prefix_rfl)
  · exact h

theorem discard (hplaced : Placed s base key) (h : Recovers s base key shadow w)
    (hkey' : Addressed s (Apart s key.file) key') : Recovers s base key shadow (w.discard key') := by
  unfold World.discard
  split
  · exact h
  · split
    · rw [h.keyed.shadows_eq]
      obtain ⟨hproject, hfile⟩ := (Placed.of_addressed hplaced.rooted hkey').isFile
      obtain ⟨halters, hfills⟩ :=
        Shadows.remove_alters hplaced.rooted h.grounds hproject hfile
      refine (h.retain _).undergo hplaced halters hfills (fun above habove heq => ?_) id
      exact hplaced.not_prefix hkey' habove (heq ▸ List.prefix_rfl)
    · exact h.retain _

theorem rehome {old new : Key} {copy : WorkingCopy} (hplaced : Placed s base key)
    (h : Recovers s base key shadow w) (hold : Addressed s (Apart s key.file) old)
    (hnew : Addressed s (Apart s key.file) new) :
    Recovers s base key shadow (w.rehome old new copy) := by
  have hput : Recovers s base key shadow ((w.retain (· ≠ old)).put { copy with key := new }) :=
    (h.retain _).put hnew
  unfold World.rehome
  dsimp only
  split
  · rw [h.keyed.shadows_eq]
    obtain ⟨hproject, hfile⟩ := (Placed.of_addressed hplaced.rooted hold).isFile
    obtain ⟨hproject', hfile'⟩ := (Placed.of_addressed hplaced.rooted hnew).isFile
    obtain ⟨halters, hfills⟩ := Shadows.rename_alters hplaced.rooted h.grounds hproject hfile
      hproject' hfile'
    refine hput.undergo hplaced halters hfills ?_ ?_
    · rintro above habove (hinit | hinit)
      · exact hplaced.not_prefix hold habove hinit
      · exact hplaced.not_prefix hnew habove hinit
    · rintro (hinit | hinit)
      · exact Placed.not_under hnew hinit
      · exact hplaced.not_prefix hnew List.prefix_rfl hinit
  · exact hput

theorem forgetProject {project : String} (hplaced : Placed s base key)
    (h : Recovers s base key shadow w) (hproject : Path.normalize? project = some project)
    (hother : project ≠ key.project) :
    Recovers s base key shadow { w.forgetProject project with
      disk := (w.store.shadows.removeProject w.disk project).1 } := by
  have hforgotten := (h.retain (·.project ≠ project)).track (·.removeUnder project)
  obtain ⟨hproject', hfile⟩ := hplaced.isFile
  rw [h.keyed.shadows_eq]
  refine ⟨⟨hforgotten.keyed.shadows_eq, hforgotten.keyed.copies⟩,
    Shadows.removeProject_grounds hplaced.rooted h.grounds hproject, ?_⟩
  have hstands := h.stands
  cases shadow with
  | none =>
    have hfills : Fills (fun _ => False) w.disk (s.removeProject w.disk project).1 :=
      Disk.fills_of_shrinks fun _ _ => Shadows.removeProject_shrinks
    exact hfills _ id hstands
  | some text =>
    exact (Shadows.read_removeProject hplaced.rooted h.grounds hproject hproject' hfile
      hplaced.outside hother.symm).mpr hstands

theorem upholds (hplaced : Placed s base key) :
    Upholds (Addressed s (Apart s key.file)) (Recovers s base key shadow) where
  known _ k copy h hcopy := (h.keyed.copies k copy hcopy).1
  track _ f h := h.track f
  put _ _ h hcopy := h.put hcopy
  persisted _ _ h hcopy := h.persisted hplaced hcopy

theorem addressed (h : Recovers s base key shadow w)
    (hused : ∀ file, Path.normalize? path = some file → Apart s key.file file)
    (hkey : w.store.key w.disk path = .ok key') : Addressed s (Apart s key.file) key' := by
  obtain ⟨hpath, -⟩ := key_eq_ok hkey
  obtain ⟨-, hnormal, howner⟩ := h.keyed.addressed (fun _ _ => trivial) hkey
  exact ⟨hused _ hpath, hnormal, howner⟩

theorem after (hplaced : Placed s base key) (h : Recovers s base key shadow w)
    (hwithin : c.Within (Apart s key.file)) (hspares : c.Spares key) :
    Recovers s base key shadow (c.after w) := by
  have hperforms := performs w c
  generalize c.after w = w' at hperforms ⊢
  cases hperforms with
  | refused => exact h
  | started hstart =>
    exact hstart.upheld (upholds hplaced) h fun _ => h.addressed (hwithin _ List.mem_cons_self)
  | applied happly =>
    exact happly.upheld (upholds hplaced) h fun _ => h.addressed (hwithin _ List.mem_cons_self)
  | forgotten hcall hkey' =>
    have hused := hwithin _ (Call.mem_paths_of_forgets hcall)
    exact (h.track _).discard hplaced (h.addressed hused hkey')
  | retracked => exact h.track _
  | passed => exact h.track _
  | moved hold hnew =>
    have husedOld := hwithin _ List.mem_cons_self
    have husedNew := hwithin _ (List.mem_cons_of_mem _ List.mem_cons_self)
    exact (h.track _).rehome hplaced (h.addressed husedOld hold) (h.addressed husedNew hnew)
  | ended hproject =>
    refine h.forgetProject hplaced (Path.normalize?_normal hproject).1 ?_
    rintro rfl
    exact hspares hproject

end Recovers

theorem Course.recovers {root : String} {projects : Option (List String)}
    (hhosts : Hosts s disk root projects base fun _ => False) (hplaced : Placed s base key)
    (h : Recovers s base key shadow w)
    (hcourse : Course s root projects base (fun c => c.Within (Apart s key.file) ∧ c.Spares key) w w') :
    Recovers s base key shadow w' := by
  induction hcourse with
  | refl => exact h
  | call _ c hc ih => exact ih.after hplaced hc.1 hc.2
  | edit _ disk hleaves ih =>
    obtain ⟨hproject, hfile⟩ := hplaced.isFile
    refine ⟨⟨ih.keyed.shadows_eq, ih.keyed.copies⟩, hleaves.spares.grounds, ?_⟩
    have hstands := ih.stands
    cases shadow with
    | none =>
      have hmark : s.metadataDir ∈ s.names key.project key.file := by
        simp [Shadows.names, Shadows.dirNames]
      exact hleaves.adds _ hmark hstands
    | some text =>
      exact Shadows.read_spares hplaced.rooted ih.grounds hproject hfile hleaves.spares hstands
  | restart _ s' settings hbuilt hmeta ih =>
    obtain rfl := hhosts.rebuilt ih.grounds hbuilt hmeta
    refine ⟨⟨rfl, fun k copy hcopy => ?_⟩, ih.grounds, ih.stands⟩
    cases hcopy

/-- Two files of a project share a shadow just when their paths are the same once flattened. Else
no change of the other shadow is seen in the one, and whatever is done with the other file, also
across restarts, a working copy made from the shadow has the text of this shadow, and without one
that of the real file. -/
theorem shadows_apart {file : String} (hrelative : Path.isAbsolute s.metadataDir = false)
    (hfile : IsFile file) :
    (∀ disk project other path path', s.path disk project file = .ok path →
      s.path disk project other = .ok path' → (path = path' ↔ flatten file = flatten other)) ∧
    (∀ disk disk' project text, s.Tidy disk project →
      s.Handles (fun other => flatten other ≠ flatten file) disk disk' →
        (s.read disk' project file = .ok (some text) ↔
          s.read disk project file = .ok (some text))) ∧
    ∀ root projects base project w w', Path.Plain s.metadataDir →
      s.workspace.Built w.disk root projects → w.disk.Grounds root base →
      s.workspace.owner? file = some project →
      s.metadataDir ∉ Path.names project → Reachable s w →
      Course s root projects base
        (fun c => c.Within (Apart s file) ∧ c.Spares ⟨project, file⟩) w w' →
      w'.store.copies.get? ⟨project, file⟩ = none →
        (∀ text, s.read w.disk project file = .ok (some text) →
          w'.store.settings.persist = true →
            ((getOrCreate ⟨project, file⟩).perform w').1 = .ok (.new ⟨project, file⟩ text)) ∧
        (s.Vacant base w.disk project file → ∀ copy w'',
          (getOrCreate ⟨project, file⟩).perform w' = (.ok copy, w'') →
            ∃ real, s.readReal w'.disk file = .ok real ∧
              copy = .new ⟨project, file⟩ (real.getD "")) := by
  refine ⟨fun disk project other path path' => Shadows.path_inj, ?_, ?_⟩
  · intro disk disk' project text htidy hhandles
    exact Shadows.read_touches hrelative hfile htidy hhandles.touches fun _ hother => hother
  intro root projects base project w w' hplain hbuilt hgrounds howner houtside hreachable hcourse habsent
  let key : Key := ⟨project, file⟩
  have hhosts : Hosts s w.disk root projects base fun _ => False :=
    ⟨hbuilt, hgrounds, hplain, fun _ _ => False.elim, fun _ _ => False.elim⟩
  obtain ⟨hserves, hgrounds⟩ := hhosts.serves .default fun _ _ => False
  have hplaced : Placed s base key := ⟨hserves.rooted, hfile.1, howner, houtside⟩
  obtain ⟨hproject, -⟩ := hplaced.isFile
  constructor
  · intro text hread hpersist
    have hstart : Recovers s base key (some text) w := ⟨hreachable.keyed, hgrounds, hread⟩
    have hend := Course.recovers hhosts hplaced hstart hcourse
    have hread' := hend.stands
    rw [Stands, ← hend.keyed.shadows_eq] at hread'
    rw [perform_getOrCreate_of_read hpersist habsent hread']
  · intro hvacant copy w'' hcreate
    have hstart : Recovers s base key none w := ⟨hreachable.keyed, hgrounds, hvacant⟩
    have hend := Course.recovers hhosts hplaced hstart hcourse
    have hreal : ∃ real, s.readReal w'.disk key.file = .ok real ∧ copy = .new key (real.getD "") :=
      real_of_create hplaced.rooted hend.keyed.shadows_eq hend.grounds hproject hfile habsent
        hend.stands hcreate
    exact hreal

theorem sampleDisk_leaf (name : String) :
    sampleDisk.Leaf (["ws", "p", ".tandem", "workingCopies"] ++ [name]) := by
  intro e he
  unfold Disk.entry? at he
  rw [if_neg (by simp), Table.get?_eq_some_iff] at he
  revert he
  simp only [sampleDisk, Table.ofList, Table.insert, Table.erase, Table.filter, Table.empty]
  simp +contextual

theorem sampleShadows_tidy : sampleShadows.Tidy sampleDisk "/p" := by
  obtain ⟨hserves, hgrounds⟩ := sampleShadows_hosts.serves sampleSettings fun _ _ => False
  have hproject : Path.normalize? "/p" = some "/p" := by decide
  obtain ⟨hbeneath, hends⟩ := Shadows.dirPath_beneath hserves.rooted hproject
  have hnames : sampleShadows.dirNames "/p" = ["p", ".tandem", "workingCopies"] := by decide
  have hopen : sampleDisk.Open ["ws"] ["p", ".tandem", "workingCopies"] := by
    rw [Disk.open_cons_iff (List.cons_ne_nil _ _), Disk.open_cons_iff (List.cons_ne_nil _ _)]
    exact ⟨by decide, by decide, by decide, by decide, Disk.open_singleton (by decide)⟩
  have hlocate : sampleDisk.locate true (sampleShadows.dirPath "/p") =
      .ok (.found ["ws", "p", ".tandem", "workingCopies"] .dir) := by
    rw [hnames] at hbeneath
    exact (hgrounds.locate_eq_ok_iff hbeneath (List.cons_ne_nil _ _) hends).mpr
      ⟨⟨by decide, by decide⟩, hopen, by decide⟩
  exact Shadows.tidy_of_located (Shadows.dir_eq hserves.rooted hgrounds hproject) hlocate
    sampleDisk_leaf

theorem shadows_apart_neighbours :
    let w' : World := ⟨.new sampleShadows sampleSettings,
      ((Call.start "/p/b").after sampleWorld).disk⟩
    flatten "/p/b" ≠ flatten "/p/a" ∧
      (∃ path path', sampleShadows.path sampleDisk "/p" "/p/a" = .ok path ∧
        sampleShadows.path sampleDisk "/p" "/p/b" = .ok path' ∧ path ≠ path') ∧
      (∀ content, sampleShadows.read (sampleShadows.write sampleDisk "/p" "/p/b" content).1
        "/p" "/p/a" = .ok (some "x")) ∧
      ((getOrCreate ⟨"/p", "/p/a"⟩).perform w').1 = .ok (.new ⟨"/p", "/p/a"⟩ "x") := by
  intro w'
  have hdiffers : flatten "/p/b" ≠ flatten "/p/a" := by decide
  have hfile : IsFile "/p/a" := ⟨by decide, by decide⟩
  have hplain : Path.Plain sampleShadows.metadataDir := by decide
  have hrelative := Path.isAbsolute_of_not_mem hplain.2.2.2
  have howner : sampleShadows.workspace.owner? "/p/a" = some "/p" := by decide
  obtain ⟨hpaths, hhandles, hcourses⟩ := shadows_apart (s := sampleShadows) hrelative hfile
  obtain ⟨hserves, hgrounds⟩ := sampleShadows_hosts.serves sampleSettings fun _ _ => False
  have hpath (file : String) : sampleShadows.path sampleDisk "/p" file =
      .ok (Path.append (sampleShadows.dirPath "/p") (flatten file)) :=
    Shadows.path_eq hserves.rooted hgrounds (by decide)
  refine ⟨hdiffers, ⟨_, _, hpath _, hpath _, fun heq => ?_⟩, fun content => ?_, ?_⟩
  · exact hdiffers ((hpaths _ _ _ _ _ (hpath _) (hpath _)).mp heq).symm
  · have hwrite : sampleShadows.Handles (fun other => flatten other ≠ flatten "/p/a") sampleDisk
        (sampleShadows.write sampleDisk "/p" "/p/b" content).1 :=
      .write content ⟨by decide, by decide⟩ sampleShadows_tidy hdiffers
    exact (hhandles _ _ _ _ sampleShadows_tidy hwrite).mpr sampleShadows_read
  · have hapart : Apart sampleShadows "/p/a" "/p/b" := by
      refine ⟨hdiffers, fun project hproject => ?_⟩
      have hp : sampleShadows.workspace.owner? "/p/b" = some "/p" := by decide
      rw [hp, Option.some.injEq] at hproject
      subst hproject
      decide
    have hwithin : (Call.start "/p/b").Within (Apart sampleShadows "/p/a") := by
      intro path hpath file hnormal
      have hb : Path.normalize? "/p/b" = some "/p/b" := by decide
      rw [List.mem_singleton.mp hpath, hb, Option.some.injEq] at hnormal
      exact hnormal ▸ hapart
    have hspares : (Call.start "/p/b").Spares ⟨"/p", "/p/a"⟩ := by
      unfold Call.Spares
      decide
    have hhosts : Hosts sampleShadows sampleDisk "/ws" none ["ws"] fun _ => False :=
      ⟨rfl, hgrounds, hplain, fun _ _ => False.elim, fun _ _ => False.elim⟩
    have hplaced : Placed sampleShadows ["ws"] ⟨"/p", "/p/a"⟩ :=
      ⟨hserves.rooted, by decide, howner, by decide⟩
    have hreachable : Reachable sampleShadows sampleWorld := .new sampleSettings sampleDisk
    have hcourse : Course sampleShadows "/ws" none ["ws"]
        (fun c => c.Within (Apart sampleShadows "/p/a") ∧ c.Spares ⟨"/p", "/p/a"⟩) sampleWorld
        ((Call.start "/p/b").after sampleWorld) := .call .refl _ ⟨hwithin, hspares⟩
    have hstart : Recovers sampleShadows ["ws"] ⟨"/p", "/p/a"⟩ (some "x") sampleWorld :=
      ⟨hreachable.keyed, hgrounds, sampleShadows_read⟩
    have hgrounds' := (Course.recovers hhosts hplaced hstart hcourse).grounds
    have hbuilt := Workspace.Built.of_grounds hhosts.built hgrounds hgrounds'
    have hrestarted := Course.restart hcourse sampleShadows sampleSettings hbuilt rfl
    exact (hcourses _ _ _ _ _ _ hplain hhosts.built hgrounds howner (by decide) hreachable hrestarted
      rfl).1 "x" sampleShadows_read rfl

theorem shadow_of_dotted_name_shared :
    let written := sampleShadows.write sampleDisk "/p" "/p/a.b" "x"
    IsFile "/p/a.b" ∧ IsFile "/p/a/b" ∧ "/p/a.b" ≠ "/p/a/b" ∧
      sampleShadows.workspace.owner? "/p/a.b" = some "/p" ∧
      sampleShadows.workspace.owner? "/p/a/b" = some "/p" ∧
      (∃ path, sampleShadows.path sampleDisk "/p" "/p/a.b" = .ok path ∧
        sampleShadows.path sampleDisk "/p" "/p/a/b" = .ok path) ∧
      sampleShadows.read sampleDisk "/p" "/p/a/b" ≠ .ok (some "x") ∧ written.2 = .ok () ∧
      sampleShadows.read written.1 "/p" "/p/a/b" = .ok (some "x") ∧
      ((getOrCreate ⟨"/p", "/p/a/b"⟩).perform ⟨.new sampleShadows sampleSettings, written.1⟩).1 =
        .ok (.new ⟨"/p", "/p/a/b"⟩ "x") := by
  intro written
  obtain ⟨hserves, hgrounds⟩ := sampleShadows_hosts.serves sampleSettings fun _ _ => False
  have hproject : Path.normalize? "/p" = some "/p" := by decide
  have hdotted : IsFile "/p/a.b" := ⟨by decide, by decide⟩
  have hnested : IsFile "/p/a/b" := ⟨by decide, by decide⟩
  have hsame : flatten "/p/a.b" = flatten "/p/a/b" := by decide
  have hpath (file : String) : sampleShadows.path sampleDisk "/p" file =
      .ok (Path.append (sampleShadows.dirPath "/p") (flatten file)) :=
    Shadows.path_eq hserves.rooted hgrounds hproject
  have hnames : sampleShadows.names "/p" "/p/a.b" = ["p", ".tandem", "workingCopies", "p.a.b"] := by
    decide
  have hvacant : sampleShadows.Vacant ["ws"] sampleDisk "/p" "/p/a/b" := by
    unfold Shadows.Vacant
    decide
  have hopen : sampleDisk.Open ["ws"] ["p", ".tandem", "workingCopies", "p.a.b"] := by
    rw [Disk.open_cons_iff (List.cons_ne_nil _ _), Disk.open_cons_iff (List.cons_ne_nil _ _),
      Disk.open_cons_iff (List.cons_ne_nil _ _)]
    exact ⟨by decide, by decide, by decide, by decide, by decide, by decide,
      Disk.open_singleton (by decide)⟩
  have hwritten : written.2 = .ok () := by
    refine Shadows.write_succeeds hserves.rooted hgrounds hproject hdotted ⟨by decide, by decide⟩
      ?_ ?_
    · rw [hnames]
      exact hopen
    · rw [hnames]
      exact sampleDisk_leaf "p.a.b"
  have hread : sampleShadows.read written.1 "/p" "/p/a/b" = .ok (some "x") := by
    rw [← Shadows.read_congr hsame]
    exact (Shadows.write_ok hserves.rooted hgrounds hproject hdotted hwritten).2
  clear_value written
  have hcreate : (getOrCreate ⟨"/p", "/p/a/b"⟩).perform
      ⟨.new sampleShadows sampleSettings, written.1⟩ =
        (.ok (.new ⟨"/p", "/p/a/b"⟩ "x"), World.create _ ⟨"/p", "/p/a/b"⟩ "x") :=
    perform_getOrCreate_of_read rfl rfl hread
  refine ⟨hdotted, hnested, by decide, by decide, by decide, ⟨_, hpath _, hsame ▸ hpath _⟩, ?_,
    hwritten, hread, ?_⟩
  · exact Shadows.read_ne_some_of_vacant hserves.rooted hgrounds hproject hnested hvacant
  · rw [hcreate]

end EditorSync.Store

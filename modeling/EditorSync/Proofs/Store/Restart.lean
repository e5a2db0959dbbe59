import EditorSync.Proofs.Store.Run
import EditorSync.Proofs.Store.Transitions

namespace EditorSync.Store

open Disk (Grounds)
open WorkingCopy (Key)
open Shadows (flatten)

variable {r : Setup} {w : World} {key : Key} {disk : Disk} {path content : String}

theorem Setup.durable_new (hgrounds : disk.Grounds r.shadows.workspace.root r.base)
    (hrest : ∀ k c, r.rest k c → r.Addresses k ∧
      r.shadows.read disk k.project k.file = .ok (some c)) :
    r.Durable (fun _ => False) ⟨.new r.shadows r.settings, disk⟩ := by
  refine ⟨rfl, rfl, hgrounds, fun k c hc => ?_, fun k c hc => ⟨rfl, (hrest k c hc).1⟩,
    fun k c _ hholds => ?_⟩
  · cases hc
  · rcases hholds with ⟨copy, hcopy, -⟩ | hresting
    · cases hcopy
    · exact (hrest k c hresting).2

theorem Setup.Durable.key_eq (hserves : r.Serves) (h : r.Durable (fun _ => False) w)
    (hholds : r.Holds w key content) (hpath : Path.normalize? path = some key.file) :
    w.store.key w.disk path = .ok key := by
  have hkey := h.addresses hholds
  have hread := h.kept key content id hholds
  obtain ⟨hproject, hfile⟩ := hkey.isFile hserves
  have hreal := Workspace.realPath_eq h.grounds hserves.rooted.canonical hkey.normal
  have howner : r.shadows.workspace.projectOf w.disk key.file = .ok key.project :=
    Workspace.projectOf_eq_ok hkey.normal hkey.owner
      (Shadows.isDir_of_read hserves.rooted h.grounds hproject hfile hread)
  rw [Store.key, Workspace.normalize_eq_ok_iff.mpr hpath, Store.workspace, h.shadows_eq]
  simp only [bind, Except.bind, pure, Except.pure, hreal, howner]

def World.create (w : World) (key : Key) (content : String) : World :=
  { w with store := { w.store with copies := w.store.copies.insert key (.new key content) } }

theorem perform_getOrCreate_of_read (hpersist : w.store.settings.persist = true)
    (hnone : w.store.copies.get? key = none)
    (hread : w.store.shadows.read w.disk key.project key.file = .ok (some content)) :
    (getOrCreate key).perform w = (.ok (.new key content), w.create key content) := by
  have hcontent : w.store.initialContent w.disk key = .ok (content, true) :=
    (initialContent_eq_ok_iff hpersist).mpr hread
  unfold getOrCreate
  simp only [Action.perform_bind, Action.perform_get, hnone, Action.perform_query, hcontent]
  rfl

theorem perform_getOrCreate_resting (hpersist : r.settings.persist = true)
    (h : r.Durable (fun _ => False) w) (hresting : r.rest key content) :
    (getOrCreate key).perform w = (.ok (.new key content), w.create key content) := by
  have hread := h.kept key content id (.inr hresting)
  rw [← h.shadows_eq] at hread
  exact perform_getOrCreate_of_read (h.settings_eq ▸ hpersist) (h.resting key content hresting).1
    hread

theorem World.persisted_quietly {copy : WorkingCopy}
    (h : (w.store.shadows.write w.disk copy.key.project copy.key.file copy.content).2 = .ok ()) :
    (w.persisted copy).store.unreported = w.store.unreported := by
  unfold World.persisted World.undergo
  split
  · rw [h]
    rfl
  · rfl

theorem perform_start_resting (hserves : r.Serves) (hpersist : r.settings.persist = true)
    (hverify : r.settings.verifyOnStart = false) (h : r.Durable (fun _ => False) w)
    (hresting : r.rest key content) (hpath : Path.normalize? path = some key.file) :
    ∃ w', (start path).perform w = (.ok ⟨key, key.file, content⟩, w') ∧
      w'.store.copies.get? key = some (.new key content) ∧
      w'.store.unreported = w.store.unreported ∧ w'.disk = w.disk := by
  have hkeyOf : (keyOf path).perform w = (.ok key, w) := by
    rw [keyOf, Action.perform_query, h.key_eq hserves (.inr hresting) hpath]
  have htrack := Action.perform_modifyStore
    (fun s => { s with tracking := s.tracking.start key.file }) w
  have htracked := h.track (w.store.tracking.start key.file)
  have hcreate := perform_getOrCreate_resting hpersist htracked hresting
  have hoff : ¬w.store.settings.verifyOnStart = true := by
    rw [h.settings_eq, hverify]
    decide
  unfold start
  rw [Action.perform_bind_of_ok _ hkeyOf, modifyTracking, Action.perform_bind_of_ok _ htrack,
    Action.perform_bind_of_ok _ hcreate, Action.perform_bind_of_ok _ (Action.perform_get _)]
  dsimp only [World.create]
  rw [if_neg hoff]
  exact ⟨_, rfl, Table.get?_insert_self _ _ _, rfl, rfl⟩

theorem perform_apply_resting {changes : EditorChanges} {delta : Delta} {copy : WorkingCopy}
    {applied : List WorkingCopy.Applied} (hserves : r.Serves) (hpersist : r.settings.persist = true)
    (h : r.Durable (fun _ => False) w) (hresting : r.rest key content)
    (hdelta : changes.toDelta = .ok delta) (hfile : Path.normalize? changes.file = some key.file)
    (hproject : Path.normalize? changes.project = some key.project)
    (haccepts : w.store.tracking.acceptsDeltas key.file = true)
    (happly : (WorkingCopy.new key content).apply delta changes.seq w.store.settings.encoding
      w.store.settings.maxPending = .ok (copy, applied)) :
    ((apply changes).perform w).2.store.copies.get? key = some copy ∧
      ((w.store.shadows.write w.disk key.project key.file copy.content).2 = .ok () →
        ((apply changes).perform w).2.store.unreported = w.store.unreported) := by
  have hkey : copy.key = key := WorkingCopy.apply_key _ _ happly
  have hkeyOf : (keyOf changes.file).perform w = (.ok key, w) := by
    rw [keyOf, Action.perform_query, h.key_eq hserves (.inr hresting) hfile]
  have htake : (MonadExcept.ofExcept changes.toDelta : Action Delta).perform w =
      (.ok delta, w) := by
    rw [Action.perform_ofExcept, hdelta]
  have hnormalize : (query fun _ _ => Workspace.normalize changes.project).perform w =
      (.ok key.project, w) := by
    rw [Action.perform_query, Workspace.normalize_eq_ok_iff.mpr hproject]
  have hcreate := perform_getOrCreate_resting hpersist h hresting
  have hlive : ¬(WorkingCopy.new key content).discarded = true := Bool.false_ne_true
  have hsettings : (w.create key content).store.settings = w.store.settings := rfl
  have hstep := Action.perform_ofExcept (.ok (copy, applied) : Except SyncError _)
    (w.create key content)
  unfold Store.apply
  rw [Action.perform_bind_of_ok _ htake, Action.perform_bind_of_ok _ hkeyOf,
    Action.perform_bind_of_ok _ hnormalize, if_neg (fun hne => hne rfl)]
  dsimp only
  rw [Action.perform_bind_of_ok _ (Action.perform_get w), haccepts, if_neg (by decide),
    Action.perform_bind_of_ok _ hcreate, if_neg hlive,
    Action.perform_bind_of_ok _ (Action.perform_get _), hsettings, happly,
    Action.perform_bind_of_ok _ hstep, putCopy,
    Action.perform_bind_of_ok _ (Action.perform_modifyStore _ _), hkey]
  split
  · exact ⟨Table.get?_insert_self _ _ _, fun _ => rfl⟩
  · rw [Action.perform_bind_of_ok _ (perform_persist copy _), Action.perform_pure,
      World.persisted_copies]
    refine ⟨Table.get?_insert_self _ _ _, fun hwrite => ?_⟩
    rw [← hkey] at hwrite
    exact World.persisted_quietly hwrite

/-- A file gets a working copy with a certain content and without a past, be it that it is
started or that a delta for it comes. -/
structure World.Revives (w : World) (key : Key) (content : String) : Prop where
  starts : ∀ path, Path.normalize? path = some key.file →
    ∃ w', (start path).perform w = (.ok ⟨key, key.file, content⟩, w') ∧
      w'.store.copies.get? key = some (.new key content)
  creates : ∃ w', (getOrCreate key).perform w = (.ok (.new key content), w') ∧
    w'.store.copies.get? key = some (.new key content)
  applies : ∀ changes delta copy applied, changes.toDelta = .ok delta →
    Path.normalize? changes.file = some key.file →
    Path.normalize? changes.project = some key.project →
    w.store.tracking.acceptsDeltas key.file = true →
    (WorkingCopy.new key content).apply delta changes.seq w.store.settings.encoding
      w.store.settings.maxPending = .ok (copy, applied) →
    ((apply changes).perform w).2.store.copies.get? key = some copy

theorem Setup.Durable.revives (hserves : r.Serves) (hpersist : r.settings.persist = true)
    (hverify : r.settings.verifyOnStart = false) (h : r.Durable (fun _ => False) w)
    (hresting : r.rest key content) : w.Revives key content := by
  refine ⟨fun path hpath => ?_, ?_, ?_⟩
  · obtain ⟨w', hstart, hcopy, -⟩ :=
      perform_start_resting hserves hpersist hverify h hresting hpath
    exact ⟨w', hstart, hcopy⟩
  · exact ⟨_, perform_getOrCreate_resting hpersist h hresting, Table.get?_insert_self _ _ _⟩
  · intro changes delta copy applied hdelta hfile hproject haccepts happly
    exact (perform_apply_resting hserves hpersist h hresting hdelta hfile hproject haccepts
      happly).1

/-- A workspace without links, in which the shadows of certain files are not in each other's way,
nor in that of the projects. -/
structure Hosts (s : Shadows) (disk : Disk) (root : String) (projects : Option (List String))
    (base : List String) (used : String → Prop) : Prop where
  built : s.workspace.Built disk root projects
  grounds : disk.Grounds root base
  plain : Path.Plain s.metadataDir
  apart : ∀ file project, used file → s.workspace.owner? file = some project →
    s.metadataDir ∉ Path.names project
  distinct : ∀ file file', used file → used file' → flatten file = flatten file' → file = file'

variable {s s' : Shadows} {root : String} {projects : Option (List String)} {base : List String}
variable {used : String → Prop} {settings : Settings}

theorem Hosts.serves (h : Hosts s disk root projects base used) (settings : Settings)
    (rest : Key → String → Prop) :
    (⟨s, settings, base, used, rest⟩ : Setup).Serves ∧ disk.Grounds s.workspace.root base := by
  obtain ⟨hnormal, hroot, hcanonical⟩ := h.built.normal
  have hbase : (Workspace.ofRoot disk root).canonicalRoot = Path.ofNames base := by
    rw [Workspace.ofRoot, Workspace.canonical?_root h.grounds]
    rfl
  exact ⟨⟨⟨hcanonical.trans hbase, hnormal, h.plain⟩, h.apart, h.distinct⟩, hroot ▸ h.grounds⟩

theorem Hosts.rebuilt {disk' : Disk} (h : Hosts s disk root projects base used)
    (hgrounds : disk'.Grounds s.workspace.root base)
    (hbuilt : s'.workspace.Built disk' root projects) (hmeta : s'.metadataDir = s.metadataDir) :
    s' = s := by
  rw [h.built.normal.2.1] at hgrounds
  have hworkspace := h.built.eq hbuilt ((Workspace.canonical?_root h.grounds).trans
    (Workspace.canonical?_root hgrounds).symm)
  obtain ⟨workspace, metadataDir⟩ := s
  obtain ⟨workspace', metadataDir'⟩ := s'
  exact (Shadows.mk.injEq ..).mpr ⟨hworkspace.symm, hmeta⟩

theorem Hosts.durable (h : Hosts s disk root projects base used) (hpersist : settings.persist = true)
    (hrun : Run s base (·.Within used) ⟨.new s settings, disk⟩ w) (hquiet : w.Quiet) :
    (⟨s, settings, base, used, fun _ _ => False⟩ : Setup).Durable (fun _ => False) w := by
  obtain ⟨hserves, hgrounds⟩ := h.serves settings fun _ _ => False
  have hnew := Setup.durable_new (r := ⟨s, settings, base, used, fun _ _ => False⟩) hgrounds
    fun _ _ => False.elim
  exact hrun.durable (r := ⟨s, settings, base, used, fun _ _ => False⟩) hserves hpersist
    (fun c hc => ⟨hc, fun _ _ => False.elim⟩) hnew hquiet

/-- The shadows always hold the contents of the working copies, and after a restart they give
them back. -/
theorem contents_outlast_restart (hhosts : Hosts s disk root projects base used)
    (hpersist : settings.persist = true)
    (hrun : Run s base (·.Within used) ⟨.new s settings, disk⟩ w) (hquiet : w.Quiet) :
    (∀ key copy, w.store.copies.get? key = some copy →
      s.read w.disk key.project key.file = .ok (some copy.content)) ∧
    ∀ (s' : Shadows) (settings' : Settings) (key : Key) (copy : WorkingCopy) (w' : World),
      s'.workspace.Built w.disk root projects → s'.metadataDir = s.metadataDir →
      settings'.persist = true → settings'.verifyOnStart = false →
      w.store.copies.get? key = some copy →
      Run s' base (fun c => c.Within used ∧ c.Spares key) ⟨.new s' settings', w.disk⟩ w' →
      w'.Quiet → w'.Revives key copy.content := by
  have hdurable := hhosts.durable hpersist hrun hquiet
  have hkept (key : Key) (copy : WorkingCopy) (hcopy : w.store.copies.get? key = some copy) :
      s.read w.disk key.project key.file = .ok (some copy.content) :=
    hdurable.kept key copy.content id (.inl ⟨copy, hcopy, rfl⟩)
  refine ⟨hkept, ?_⟩
  intro s' settings' key copy w' hbuilt hmeta hpersist' hverify hcopy hrun' hquiet'
  obtain rfl := (hhosts.rebuilt hdurable.grounds hbuilt hmeta).symm
  -- After the restart, the shadow of the file rests until the file has a working copy again.
  let r' : Setup := ⟨s, settings', base, used, fun k c => k = key ∧ c = copy.content⟩
  obtain ⟨hserves', -⟩ := hhosts.serves settings' r'.rest
  have hrest (k : Key) (c : String) (hc : r'.rest k c) : r'.Addresses k ∧
      s.read w.disk k.project k.file = .ok (some c) := by
    obtain ⟨rfl, rfl⟩ := hc
    obtain ⟨-, hused, hnormal, howner⟩ := hdurable.keyed k copy hcopy
    exact ⟨⟨hused, hnormal, howner⟩, hkept k copy hcopy⟩
  have hallowed (c : Call) (hc : c.Within used ∧ c.Spares key) :
      c.Within used ∧ ∀ k content, r'.rest k content → c.Spares k :=
    ⟨hc.1, fun k _ hk => hk.1 ▸ hc.2⟩
  have hdurable' := hrun'.durable (r := r') hserves' hpersist' hallowed
    (Setup.durable_new hdurable.grounds hrest) hquiet'
  exact hdurable'.revives hserves' hpersist' hverify ⟨rfl, rfl⟩

def sampleDisk : Disk :=
  ⟨.ofList [(["ws"], .dir), (["ws", "p"], .dir), (["ws", "p", ".tandem"], .dir),
    (["ws", "p", ".tandem", "workingCopies"], .dir),
    (["ws", "p", ".tandem", "workingCopies", "p.a"], .file (Text.encode "x"))]⟩

def sampleShadows : Shadows := ⟨.ofRoot sampleDisk "/ws", ".tandem"⟩

def sampleSettings : Settings := { Settings.default with verifyOnStart := false }

theorem sampleDisk_grounds : sampleDisk.Grounds "/ws" (Path.names "/ws") := by
  refine Disk.grounds_name (by decide) ⟨by decide, by decide⟩ (by decide) (by decide) (by decide)
    rfl ?_
  simp [sampleDisk, Table.ofList, Table.insert, Table.erase, Table.filter, Table.empty]

theorem sampleShadows_hosts : Hosts sampleShadows sampleDisk "/ws" none ["ws"] (· = "/p/a") := by
  refine ⟨rfl, sampleDisk_grounds, by decide, ?_, fun _ _ h h' _ => h.trans h'.symm⟩
  rintro file project rfl howner
  have hproject : sampleShadows.workspace.owner? "/p/a" = some "/p" := by decide
  rw [hproject, Option.some.injEq] at howner
  subst howner
  decide

theorem sampleDisk_open : sampleDisk.Open ["ws"] ["p", ".tandem", "workingCopies", "p.a"] := by
  rw [Disk.open_cons_iff (List.cons_ne_nil _ _), Disk.open_cons_iff (List.cons_ne_nil _ _),
    Disk.open_cons_iff (List.cons_ne_nil _ _)]
  exact ⟨by decide, by decide, by decide, by decide, by decide, by decide,
    Disk.open_singleton (by decide)⟩

theorem sampleShadows_names :
    sampleShadows.names "/p" "/p/a" = ["p", ".tandem", "workingCopies", "p.a"] := by decide

theorem sampleShadows_read : sampleShadows.read sampleDisk "/p" "/p/a" = .ok (some "x") := by
  obtain ⟨hserves, hgrounds⟩ := sampleShadows_hosts.serves sampleSettings fun _ _ => False
  have hproject : Path.normalize? "/p" = some "/p" := by decide
  have hfile : Shadows.IsFile "/p/a" := ⟨by decide, by decide⟩
  obtain ⟨hbeneath, hends⟩ := Shadows.path_beneath hserves.rooted hproject hfile
  rw [sampleShadows_names] at hbeneath
  rw [Shadows.read_eq_some_iff hserves.rooted hgrounds hproject,
    hgrounds.read_eq_ok_iff hbeneath (List.cons_ne_nil _ _) hends]
  exact ⟨⟨by decide, by decide⟩, sampleDisk_open, by decide⟩

theorem sampleShadows_write (content : String) :
    (sampleShadows.write sampleDisk "/p" "/p/a" content).2 = .ok () := by
  obtain ⟨hserves, hgrounds⟩ := sampleShadows_hosts.serves sampleSettings fun _ _ => False
  have hproject : Path.normalize? "/p" = some "/p" := by decide
  refine Shadows.write_succeeds hserves.rooted hgrounds hproject ⟨by decide, by decide⟩
    ⟨by decide, by decide⟩ (sampleShadows_names ▸ sampleDisk_open) fun e he => ?_
  have hentry : sampleDisk.entry? ["ws", "p", ".tandem", "workingCopies", "p.a"] =
      some (.file (Text.encode "x")) := by decide
  rw [sampleShadows_names] at he
  exact ⟨_, Option.some.inj (he.symm.trans hentry)⟩

def sampleInsertion : EditorChanges :=
  ⟨.insert, "o", "/p", "/p/a", 1, none, none, some "!", none⟩

theorem contents_outlast_restart_inserted :
    let w : World := ⟨.new sampleShadows sampleSettings, sampleDisk⟩
    let w' := (Call.apply sampleInsertion).after w
    w'.Quiet ∧ sampleShadows.read w'.disk "/p" "/p/a" = .ok (some "x!") ∧
      ∃ w'', (start "/p/a").perform ⟨.new sampleShadows sampleSettings, w'.disk⟩ =
        (.ok ⟨⟨"/p", "/p/a"⟩, "/p/a", "x!"⟩, w'') := by
  intro w w'
  let key : Key := ⟨"/p", "/p/a"⟩
  let r : Setup := ⟨sampleShadows, sampleSettings, ["ws"], (· = "/p/a"),
    fun k c => k = key ∧ c = "x"⟩
  obtain ⟨hserves, hgrounds⟩ := sampleShadows_hosts.serves sampleSettings r.rest
  have hrest (k : Key) (c : String) (hc : r.rest k c) : r.Addresses k ∧
      r.shadows.read sampleDisk k.project k.file = .ok (some c) := by
    obtain ⟨rfl, rfl⟩ := hc
    exact ⟨⟨rfl, by decide, by decide⟩, sampleShadows_read⟩
  have hpath : Path.normalize? "/p/a" = some key.file := by decide
  have hdelta : sampleInsertion.toDelta = .ok (.insert 1 "!") := by decide
  have happly : (WorkingCopy.new key "x").apply (.insert 1 "!") none
      sampleSettings.encoding sampleSettings.maxPending =
        .ok ({ WorkingCopy.new key "x" with content := "x!" }, [⟨.insert, none, "x!"⟩]) := by decide
  have hnew := Setup.durable_new hgrounds hrest
  obtain ⟨hcopy, hunreported⟩ := perform_apply_resting hserves rfl hnew ⟨rfl, rfl⟩ hdelta hpath
    (by decide) rfl happly
  have hquiet : w'.Quiet := hunreported (sampleShadows_write _)
  have hwithin : (Call.apply sampleInsertion).Within (· = "/p/a") := by
    intro path hpath file hfile
    rw [List.mem_singleton.mp hpath] at hfile
    exact (Option.some.inj hfile).symm
  have hrun : Run sampleShadows ["ws"] (·.Within (· = "/p/a")) w w' := .call .refl _ hwithin
  have hmain := contents_outlast_restart sampleShadows_hosts rfl hrun hquiet
  refine ⟨hquiet, hmain.1 key _ hcopy, ?_⟩
  have hbuilt : sampleShadows.workspace.Built w'.disk "/ws" none :=
    sampleShadows_hosts.built.of_grounds sampleDisk_grounds
      (sampleShadows_hosts.durable rfl hrun hquiet).grounds
  have hrevives := hmain.2 sampleShadows sampleSettings key _ _ hbuilt rfl rfl rfl hcopy .refl rfl
  obtain ⟨w'', hrestart, -⟩ := hrevives.starts "/p/a" hpath
  exact ⟨w'', hrestart⟩

end EditorSync.Store

import Mathlib
import EditorSync.Proofs.Path.Ancestry
import EditorSync.Proofs.Shadows
import EditorSync.Session.Directory

namespace EditorSync.Time.Timestamp

variable {a b c : Timestamp}

theorem isBefore_iff : a.isBefore b = true ↔
    a.seconds < b.seconds ∨ a.seconds = b.seconds ∧ a.nanos < b.nanos := by
  simp [isBefore]

theorem not_isBefore_trans (hab : a.isBefore b = false) (hbc : b.isBefore c = false) :
    a.isBefore c = false := by
  rw [Bool.eq_false_iff, Ne, isBefore_iff] at *
  omega

theorem eq_or_isBefore (h : b.isBefore a = false) : b = a ∨ a.isBefore b = true := by
  rw [Bool.eq_false_iff, Ne, isBefore_iff] at h
  rw [isBefore_iff]
  cases a
  cases b
  simp only [mk.injEq] at h ⊢
  omega

theorem isBefore_asymm (h : a.isBefore b = true) : b.isBefore a = false := by
  rw [isBefore_iff] at h
  rw [Bool.eq_false_iff, Ne, isBefore_iff]
  omega

end EditorSync.Time.Timestamp

namespace EditorSync.Session

open Disk (Alters Beneath Ends Grounds)
open Time (Timestamp)

namespace Directory

section Listing

variable {d : Directory} {disk disk' : Disk} {base names : List String} {name path : String}
variable {info : Info}

def Tells (d : Directory) (disk : Disk) (name : String) (info : Info) : Prop :=
  ∃ text, disk.readText (infoFile (d.dirOf name)) = .ok text ∧ Info.ofText? text = some info

/-- A session that a directory at home tells of, and whose process is alive. -/
def Live (d : Directory) (disk : Disk) (info : Info) : Prop :=
  ∃ name entry, (name, entry) ∈ disk.list d.home ∧ d.Tells disk name info ∧
    d.isAlive info.pid = true

theorem tells_iff : d.Tells disk name info ↔
    (disk.readText (infoFile (d.dirOf name))).toOption.bind Info.ofText? = some info := by
  unfold Tells
  cases disk.readText (infoFile (d.dirOf name)) <;> simp [Except.toOption]

theorem tells_iff_read : d.Tells disk name info ↔
    ∃ text, disk.read (infoFile (d.dirOf name)) = .ok (Text.encode text) ∧
      Info.ofText? text = some info := by
  simp only [Tells, Shadows.readText_eq_ok_iff, Shadows.readOptional_eq_some_iff]

theorem load_cases (d : Directory) (disk : Disk) (name : String) :
    (∃ info, d.Tells disk name info ∧ d.isAlive info.pid = true ∧
      d.load disk (d.dirOf name) = (disk, .ok (some info))) ∨
    (∃ disk' found, (∀ info, d.Tells disk name info → d.isAlive info.pid = false) ∧
      d.load disk (d.dirOf name) = (disk', found) ∧ (∀ info, found ≠ .ok (some info)) ∧
      (disk' = disk ∨ disk.removeDirs (d.dirOf name) = .ok disk')) := by
  unfold load
  by_cases hthere : disk.isThere (infoFile (d.dirOf name)) = true
  · simp only [hthere, Bool.not_true, Bool.false_eq_true, if_false]
    cases htold : (disk.readText (infoFile (d.dirOf name))).toOption.bind Info.ofText? with
    | none =>
      refine .inr ⟨disk, _, fun info htells => ?_, rfl, fun info => nofun, .inl rfl⟩
      cases htold.symm.trans (tells_iff.mp htells)
    | some info =>
      by_cases halive : d.isAlive info.pid = true
      · exact .inl ⟨info, tells_iff.mpr htold, halive, if_pos halive⟩
      · refine .inr ⟨_, _, fun other htells => ?_, if_neg halive, fun info => nofun, ?_⟩
        · obtain rfl := Option.some.inj (htold.symm.trans (tells_iff.mp htells))
          exact Bool.eq_false_iff.mpr halive
        · cases hremove : disk.removeDirs (d.dirOf name) with
          | error e => exact .inl rfl
          | ok disk' => exact .inr rfl
  · rw [Bool.not_eq_true] at hthere
    simp only [hthere, Bool.not_false, if_true]
    refine .inr ⟨disk, _, fun info htells => ?_, rfl, fun info => nofun, .inl rfl⟩
    obtain ⟨text, hread, -⟩ := tells_iff_read.mp htells
    obtain ⟨place, hlocate⟩ := Disk.locate_of_read hread
    rw [Disk.isThere, hlocate] at hthere
    cases hthere

theorem load_of_tells (h : d.Tells disk name info) (halive : d.isAlive info.pid = true) :
    d.load disk (d.dirOf name) = (disk, .ok (some info)) := by
  rcases d.load_cases disk name with ⟨found, htells, -, hload⟩ | ⟨_, _, hdead, -⟩
  · rw [hload, Option.some.inj ((tells_iff.mp h).symm.trans (tells_iff.mp htells))]
  · cases (hdead info h).symm.trans halive

theorem beneath_dirOf (d : Directory) (hname : Path.Plain name) :
    Beneath d.home (d.dirOf name) [name] ∧ Ends (d.dirOf name) := by
  have hhome : Beneath d.home d.home [] := ⟨(List.append_nil _).symm, nofun⟩
  exact hhome.append hname

theorem beneath_infoFile (d : Directory) (hname : Path.Plain name) :
    Beneath d.home (infoFile (d.dirOf name)) [name, "info.json"] ∧ Ends (infoFile (d.dirOf name)) :=
  (d.beneath_dirOf hname).1.append (by decide)

theorem tells_removeDirs (h : disk.Grounds d.home base) (hname : Path.Plain name)
    (hdead : ∀ info, d.Tells disk name info → d.isAlive info.pid = false)
    (hremove : disk.removeDirs (d.dirOf name) = .ok disk') :
    disk'.Grounds d.home base ∧ ∀ other info, Path.Plain other → d.isAlive info.pid = true →
      (d.Tells disk' other info ↔ d.Tells disk other info) := by
  obtain ⟨hdir, hends⟩ := d.beneath_dirOf hname
  have halters : Alters base (base ++ [name] <+: ·) disk disk' :=
    (h.removeDirs hdir (List.cons_ne_nil _ _) hends hremove fun _ => id).2
  have hgrounds := h.alter halters
  have hback (other : String) (info : Info) (hother : Path.Plain other)
      (htells : d.Tells disk' other info) : d.Tells disk other info := by
    obtain ⟨hfile, hends⟩ := d.beneath_infoFile hother
    obtain ⟨text, hread, hinfo⟩ := tells_iff_read.mp htells
    refine tells_iff_read.mpr ⟨text, ?_, hinfo⟩
    exact hgrounds.read_keep h hfile (List.cons_ne_nil _ _) hends
      (fun above e _ he => Disk.removeDirs_shrinks hremove he) hread
  refine ⟨hgrounds, fun other info hother halive => ⟨hback other info hother, fun htells => ?_⟩⟩
  have hne : other ≠ name := by
    rintro rfl
    cases (hdead info htells).symm.trans halive
  obtain ⟨hfile, hends⟩ := d.beneath_infoFile hother
  obtain ⟨text, hread, hinfo⟩ := tells_iff_read.mp htells
  refine tells_iff_read.mpr ⟨text, ?_, hinfo⟩
  refine h.read_alter hfile (List.cons_ne_nil _ _) hends halters (fun above habove hbelow => ?_)
    hread
  have hprefix := List.IsPrefix.trans ((List.prefix_append_right_inj base).mp hbelow) habove
  exact hne (List.cons_prefix_cons.mp hprefix).1.symm

theorem mem_loadAll_iff (h : disk.Grounds d.home base) (hnames : ∀ name ∈ names, Path.Plain name) :
    info ∈ (d.loadAll disk (names.map d.dirOf)).2 ↔
      ∃ name ∈ names, d.Tells disk name info ∧ d.isAlive info.pid = true := by
  induction names generalizing disk with
  | nil => simp [loadAll]
  | cons name rest ih =>
    rw [List.forall_mem_cons] at hnames
    rw [List.map_cons, loadAll, List.exists_mem_cons_iff]
    rcases d.load_cases disk name with
      ⟨found, htells, halive, hload⟩ | ⟨disk', found, hdead, hload, hnone, hdisk⟩
    · simp only [hload, List.mem_cons, ih h hnames.2]
      refine or_congr_left ⟨?_, fun ⟨htells', _⟩ => ?_⟩
      · rintro rfl
        exact ⟨htells, halive⟩
      · exact Option.some.inj ((tells_iff.mp htells').symm.trans (tells_iff.mp htells))
    · have hkeep : disk'.Grounds d.home base ∧ ∀ other info, Path.Plain other →
          d.isAlive info.pid = true → (d.Tells disk' other info ↔ d.Tells disk other info) := by
        rcases hdisk with rfl | hremove
        · exact ⟨h, fun _ _ _ _ => Iff.rfl⟩
        · exact tells_removeDirs h hnames.1 hdead hremove
      have hfirst : ¬(d.Tells disk name info ∧ d.isAlive info.pid = true) := fun ⟨htells, halive⟩ =>
        Bool.false_ne_true ((hdead info htells).symm.trans halive)
      have hrest : info ∈ (d.loadAll disk' (rest.map d.dirOf)).2 ↔
          ∃ name ∈ rest, d.Tells disk name info ∧ d.isAlive info.pid = true := by
        rw [ih hkeep.1 hnames.2]
        exact exists_congr fun other => and_congr_right fun hother =>
          and_congr_left (hkeep.2 other info (hnames.2 other hother))
      rw [or_iff_right hfirst, ← hrest, hload]
      rcases found with e | _ | found
      · rfl
      · rfl
      · exact absurd rfl (hnone found)

theorem mem_sessions_iff (h : disk.Grounds d.home base)
    (hnames : ∀ name entry, (name, entry) ∈ disk.list d.home → Path.Plain name) :
    info ∈ (d.sessions disk).2 ↔ d.Live disk info := by
  have hall : ∀ name ∈ (disk.list d.home).map (·.1), Path.Plain name := by
    rw [List.forall_mem_map]
    exact fun found hfound => hnames found.1 found.2 hfound
  have hdirs : (disk.list d.home).map (fun found => d.dirOf found.1) =
      ((disk.list d.home).map (·.1)).map d.dirOf := by rw [List.map_map]; rfl
  have hsessions : (d.sessions disk).2 =
      (d.loadAll disk ((disk.list d.home).map fun found => d.dirOf found.1)).2.mergeSort
        (fun a b => !a.startedAt.isBefore b.startedAt) := rfl
  rw [hsessions, List.mem_mergeSort, hdirs, mem_loadAll_iff h hall]
  constructor
  · rintro ⟨name, hname, htells⟩
    obtain ⟨⟨_, entry⟩, hmem, rfl⟩ := List.mem_map.mp hname
    exact ⟨_, entry, hmem, htells⟩
  · rintro ⟨name, entry, hmem, htells⟩
    exact ⟨name, List.mem_map.mpr ⟨_, hmem, rfl⟩, htells⟩

end Listing

section Choice

variable {d : Directory} {disk : Disk} {path : String} {info other : Info} {sessions : List Info}

theorem widest_eq_none (h : widest sessions = none) : sessions = [] := by
  cases sessions with
  | nil => rfl
  | cons first rest =>
    rw [widest] at h
    cases hrest : widest rest with
    | none =>
      rw [hrest] at h
      cases h
    | some found =>
      rw [hrest] at h
      dsimp only at h
      split at h <;> cases h

theorem widest_eq_some (h : widest sessions = some info) :
    ∃ before after, sessions = before ++ info :: after ∧
      (∀ other ∈ before, other.workspace.utf8ByteSize ≤ info.workspace.utf8ByteSize) ∧
      ∀ other ∈ after, other.workspace.utf8ByteSize < info.workspace.utf8ByteSize := by
  induction sessions generalizing info with
  | nil => cases h
  | cons first rest ih =>
    rw [widest] at h
    cases hrest : widest rest with
    | none =>
      rw [hrest, Option.some.injEq] at h
      rw [widest_eq_none hrest, h]
      exact ⟨[], [], rfl, List.forall_mem_nil _, List.forall_mem_nil _⟩
    | some found =>
      obtain ⟨before, after, rfl, hbefore, hafter⟩ := ih hrest
      rw [hrest] at h
      dsimp only at h
      by_cases hlarger : found.workspace.utf8ByteSize < first.workspace.utf8ByteSize
      · rw [if_pos hlarger, Option.some.injEq] at h
        subst h
        refine ⟨[], before ++ found :: after, rfl, List.forall_mem_nil _, ?_⟩
        rw [List.forall_mem_append, List.forall_mem_cons]
        exact ⟨fun other hother => Nat.lt_of_le_of_lt (hbefore other hother) hlarger, hlarger,
          fun other hother => Nat.lt_trans (hafter other hother) hlarger⟩
      · rw [if_neg hlarger, Option.some.injEq] at h
        subst h
        refine ⟨first :: before, after, rfl, ?_, hafter⟩
        rw [List.forall_mem_cons]
        exact ⟨Nat.le_of_not_lt hlarger, hbefore⟩

/-- Of the sessions whose workspaces contain a path, one with the deepest workspace, and of these
the one that was started first. -/
structure Answers (sessions : List Info) (path : String) (info : Info) : Prop where
  mem : info ∈ sessions
  contains : Path.contains info.workspace path = true
  deepest : ∀ other ∈ sessions, Path.contains other.workspace path = true →
    Path.contains other.workspace info.workspace = true
  first : ∀ other ∈ sessions, other.workspace = info.workspace →
    other = info ∨ info.startedAt.isBefore other.startedAt = true

def Recent (sessions : List Info) : Prop :=
  sessions.Pairwise fun a b => a.startedAt.isBefore b.startedAt = false

theorem recent_sessions (d : Directory) (disk : Disk) : Recent (d.sessions disk).2 := by
  have hsorted : (d.sessions disk).2.Pairwise
      fun a b => (!a.startedAt.isBefore b.startedAt) = true := by
    refine List.pairwise_mergeSort (fun a b c hab hbc => ?_) (fun a b => ?_) _
    · rw [Bool.not_eq_true'] at hab hbc ⊢
      exact Timestamp.not_isBefore_trans hab hbc
    · rw [Bool.or_eq_true, Bool.not_eq_true', Bool.not_eq_true']
      exact (Bool.eq_false_or_eq_true _).symm.imp_right Timestamp.isBefore_asymm
  exact hsorted.imp fun hab => (Bool.not_eq_true' _).mp hab

theorem answers_of_choose (hrecent : Recent sessions)
    (hnormal : ∀ info ∈ sessions, Path.normalize? info.workspace = some info.workspace)
    (hdistinct : ∀ a ∈ sessions, ∀ b ∈ sessions, a.startedAt = b.startedAt → a = b)
    (h : choose sessions path = some info) : Answers sessions path info := by
  obtain ⟨before, after, hsplit, hbefore, hafter⟩ := widest_eq_some h
  have hsorted := hrecent.filter fun info => Path.contains info.workspace path
  rw [hsplit, List.pairwise_append] at hsorted
  have hcandidate (other : Info) : other ∈ before ++ info :: after ↔
      other ∈ sessions ∧ Path.contains other.workspace path = true := by
    rw [← hsplit, List.mem_filter]
  obtain ⟨hmem, hcontains⟩ := (hcandidate info).mp (by simp)
  have hsplit' (other : Info) (hother : other ∈ sessions)
      (hpath : Path.contains other.workspace path = true) :
      other ∈ before ∨ other = info ∨ other ∈ after := by
    have hboth := (hcandidate other).mpr ⟨hother, hpath⟩
    rwa [List.mem_append, List.mem_cons] at hboth
  refine ⟨hmem, hcontains, fun other hother hpath => ?_, fun other hother hsame => ?_⟩
  · refine Path.contains_of_utf8ByteSize_le (hnormal other hother) (hnormal info hmem) hpath
      hcontains ?_
    rcases hsplit' other hother hpath with hother | rfl | hother
    · exact hbefore other hother
    · exact Nat.le_refl _
    · exact Nat.le_of_lt (hafter other hother)
  · rcases hsplit' other hother (hsame ▸ hcontains) with hother' | rfl | hother'
    · have hlater := hsorted.2.2 other hother' info List.mem_cons_self
      exact (Timestamp.eq_or_isBefore hlater).imp_left (hdistinct other hother info hmem)
    · exact .inl rfl
    · exact absurd (hafter other hother') (by rw [hsame]; exact Nat.lt_irrefl _)

theorem exists_choose (hmem : info ∈ sessions) (h : Path.contains info.workspace path = true) :
    ∃ found, choose sessions path = some found := by
  cases hchoose : choose sessions path with
  | some found => exact ⟨found, rfl⟩
  | none =>
    have hcandidate : info ∈ sessions.filter fun info => Path.contains info.workspace path :=
      List.mem_filter.mpr ⟨hmem, h⟩
    rw [widest_eq_none hchoose] at hcandidate
    cases hcandidate

theorem Answers.unique {other : Info}
    (hnormal : ∀ info ∈ sessions, Path.normalize? info.workspace = some info.workspace)
    (h : Answers sessions path info) (h' : Answers sessions path other) : info = other := by
  have hsame : info.workspace = other.workspace :=
    Path.contains_antisymm (hnormal info h.mem) (hnormal other h'.mem)
      (h'.deepest info h.mem h.contains) (h.deepest other h'.mem h'.contains)
  rcases h'.first info h.mem hsame with hinfo | hlater
  · exact hinfo
  · rcases h.first other h'.mem hsame.symm with hother | hearlier
    · exact hother.symm
    · cases (Timestamp.isBefore_asymm hlater).symm.trans hearlier

def olderInfo : Info := ⟨"a", 1, "/w", ⟨1767225600, 0⟩, none, none⟩

def newerInfo : Info := ⟨"b", 1, "/w", ⟨1767312000, 0⟩, none, none⟩

def sharedHome : Directory := ⟨"/s", (· = 1)⟩

def sharedDisk (older newer : Text.Bytes) : Disk :=
  ⟨.ofList [(["s"], .dir), (["s", "a"], .dir), (["s", "b"], .dir),
    (["s", "a", "info.json"], .file older), (["s", "b", "info.json"], .file newer)]⟩

def bothDisk : Disk :=
  sharedDisk (Text.encode olderInfo.toJson.compact) (Text.encode newerInfo.toJson.compact)

theorem load_bothDisk (name : String) (info : Info) (hname : Disk.LooksUp name)
    (hdir : bothDisk.entry? ["s", name] = some .dir)
    (hfile : bothDisk.entry? ["s", name, "info.json"] =
      some (.file (Text.encode info.toJson.compact)))
    (hsegments : Path.segments (infoFile (sharedHome.dirOf name)) = ["", "s", name, "info.json"])
    (hsound : Disk.Sound (infoFile (sharedHome.dirOf name)))
    (hinfo : Info.ofText? info.toJson.compact = some info) (halive : sharedHome.isAlive info.pid) :
    sharedHome.load bothDisk (sharedHome.dirOf name) = (bothDisk, .ok (some info)) := by
  have hs : Disk.LooksUp "s" := ⟨by decide, by decide, by decide⟩
  have hjson : Disk.LooksUp "info.json" := ⟨by decide, by decide, by decide⟩
  have hhome : bothDisk.entry? ([] ++ ["s"]) = some .dir := rfl
  refine load_of_tells (tells_iff_read.mpr ⟨info.toJson.compact, ?_, hinfo⟩) halive
  rw [Disk.read, Disk.locate_of_sound hsound, hsegments, Disk.walk_skip _ (.inl rfl),
    Disk.walk_dir _ hs hhome, Disk.walk_dir _ hname hdir, Disk.walk_file _ hjson hfile]
  rfl

theorem sessions_bothDisk : (sharedHome.sessions bothDisk).2 = [newerInfo, olderInfo] := by
  have holder := load_bothDisk "a" olderInfo ⟨by decide, by decide, by decide⟩ rfl rfl (by decide)
    ⟨by decide, by decide⟩ (by decide +kernel) (by decide)
  have hnewer := load_bothDisk "b" newerInfo ⟨by decide, by decide, by decide⟩ rfl rfl (by decide)
    ⟨by decide, by decide⟩ (by decide +kernel) (by decide)
  have hlist (older newer : Text.Bytes) :
      ((sharedDisk older newer).list "/s").map (fun found => sharedHome.dirOf found.1) =
        [sharedHome.dirOf "a", sharedHome.dirOf "b"] := by cbv
  have hload : (sharedHome.loadAll bothDisk [sharedHome.dirOf "a", sharedHome.dirOf "b"]).2 =
      [olderInfo, newerInfo] := by simp only [loadAll, holder, hnewer]
  have hsort : [olderInfo, newerInfo].mergeSort (fun a b => !a.startedAt.isBefore b.startedAt) =
      [newerInfo, olderInfo] := by cbv
  rw [← hsort, ← hload, ← hlist]
  rfl

theorem find_bothDisk : (sharedHome.find bothDisk "/w/x").2 = some olderInfo := by
  have hfind : (sharedHome.find bothDisk "/w/x").2 =
      choose (sharedHome.sessions bothDisk).2 "/w/x" := rfl
  rw [hfind, sessions_bothDisk]
  decide

theorem grounds_sharedDisk (older newer : Text.Bytes) :
    (sharedDisk older newer).Grounds "/s" ["s"] := by
  refine Disk.grounds_name (by decide) ⟨by decide, by decide⟩ (by decide) (by decide) (by decide)
    rfl ?_
  simp [sharedDisk, Table.ofList, Table.insert, Table.erase, Table.filter, Table.empty]

/-- A session is found for a path just when a workspace of a session contains it. It is one with the
deepest workspace, and the first that was started of several in the same workspace. The sessions are
those that are alive. -/
theorem find_answers (d : Directory) (disk : Disk) (path : String)
    (hnormal : ∀ info ∈ (d.sessions disk).2, Path.normalize? info.workspace = some info.workspace)
    (hdistinct : ∀ a ∈ (d.sessions disk).2, ∀ b ∈ (d.sessions disk).2,
      a.startedAt = b.startedAt → a = b) :
    ((∃ info, (d.find disk path).2 = some info) ↔
        ∃ info ∈ (d.sessions disk).2, Path.contains info.workspace path = true) ∧
      (∀ info, (d.find disk path).2 = some info ↔ Answers (d.sessions disk).2 path info) ∧
      ∀ base, disk.Grounds d.home base →
        (∀ name entry, (name, entry) ∈ disk.list d.home → Path.Plain name) →
        ∀ info, info ∈ (d.sessions disk).2 ↔ d.Live disk info := by
  have hsound (info : Info) (h : (d.find disk path).2 = some info) :
      Answers (d.sessions disk).2 path info :=
    answers_of_choose (d.recent_sessions disk) hnormal hdistinct h
  refine ⟨⟨?_, ?_⟩, fun info => ⟨hsound info, fun h => ?_⟩, fun base h hnames info =>
    mem_sessions_iff h hnames⟩
  · rintro ⟨info, hinfo⟩
    exact ⟨info, (hsound info hinfo).mem, (hsound info hinfo).contains⟩
  · rintro ⟨info, hmem, hcontains⟩
    exact exists_choose hmem hcontains
  · obtain ⟨found, hfound⟩ := exists_choose h.mem h.contains
    rw [h.unique hnormal (hsound found hfound)]
    exact hfound

theorem find_both_older :
    (sharedHome.sessions bothDisk).2 = [newerInfo, olderInfo] ∧
      olderInfo.workspace = newerInfo.workspace ∧
      Path.contains newerInfo.workspace "/w/x" = true ∧
      olderInfo.startedAt.isBefore newerInfo.startedAt = true ∧
      (sharedHome.find bothDisk "/w/x").2 = some olderInfo :=
  ⟨sessions_bothDisk, rfl, by decide, by decide, find_bothDisk⟩

theorem find_answers_both :
    (∀ info ∈ (sharedHome.sessions bothDisk).2,
        Path.normalize? info.workspace = some info.workspace) ∧
      (∀ a ∈ (sharedHome.sessions bothDisk).2, ∀ b ∈ (sharedHome.sessions bothDisk).2,
        a.startedAt = b.startedAt → a = b) ∧
      bothDisk.Grounds sharedHome.home ["s"] ∧
      (∀ name entry, (name, entry) ∈ bothDisk.list sharedHome.home → Path.Plain name) ∧
      Answers (sharedHome.sessions bothDisk).2 "/w/x" olderInfo ∧
      sharedHome.Live bothDisk newerInfo := by
  have hnormal : ∀ info ∈ (sharedHome.sessions bothDisk).2,
      Path.normalize? info.workspace = some info.workspace := by
    rw [sessions_bothDisk]
    decide
  have hdistinct : ∀ a ∈ (sharedHome.sessions bothDisk).2, ∀ b ∈ (sharedHome.sessions bothDisk).2,
      a.startedAt = b.startedAt → a = b := by
    rw [sessions_bothDisk]
    decide
  have hgrounds : bothDisk.Grounds sharedHome.home ["s"] := grounds_sharedDisk _ _
  have hnames : ∀ name entry, (name, entry) ∈ bothDisk.list sharedHome.home → Path.Plain name := by
    have hlist (older newer : Text.Bytes) :
        ((sharedDisk older newer).list "/s").map (·.1) = ["a", "b"] := by cbv
    have hplain : ∀ name ∈ ["a", "b"], Path.Plain name := by decide
    intro name entry hentry
    exact hplain name (hlist _ _ ▸ List.mem_map_of_mem hentry)
  obtain ⟨-, hanswers, hlive⟩ := find_answers sharedHome bothDisk "/w/x" hnormal hdistinct
  refine ⟨hnormal, hdistinct, hgrounds, hnames, (hanswers _).mp find_bothDisk, ?_⟩
  refine (hlive _ hgrounds hnames _).mp ?_
  rw [sessions_bothDisk]
  exact List.mem_cons_self

end Choice

end Directory

end EditorSync.Session

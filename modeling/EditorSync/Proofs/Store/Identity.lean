import EditorSync.Proofs.Store.Calls
import EditorSync.Proofs.Store.Restart
import EditorSync.Proofs.Tracking
import Mathlib

namespace EditorSync.Workspace

variable {w : Workspace} {file project : String}

theorem isProperAncestor_owner? (hfile : Path.normalize? file = some file)
    (h : w.owner? file = some project) : Path.isProperAncestor project file = true := by
  unfold owner? at h
  split at h
  · exact (deepest_mem h).2
  · split at h
    · rename_i top next rest hnames
      obtain rfl : Path.ofNames [top] = project := Option.some.inj h
      have htop : ∀ name ∈ [top], Path.Plain name := fun name hname =>
        List.mem_singleton.mp hname ▸
          (Path.normalize?_normal hfile).2.2 top (hnames ▸ List.mem_cons_self)
      refine (Path.isProperAncestor_normal (Path.normalize?_ofNames htop) hfile).mpr ?_
      rw [Path.names_ofNames_of_plain htop, hnames]
      exact ⟨next :: rest, List.cons_ne_nil _ _, rfl⟩
    · cases h

end EditorSync.Workspace

namespace EditorSync.Tracking

variable {t : Tracking} {path : String}

def Normal (t : Tracking) : Prop :=
  ∀ path session, t.session? path = some session →
    session.path = path ∧ Path.normalize? path = some path

theorem normal_start (h : t.Normal) (hpath : Path.normalize? path = some path) :
    (t.start path).Normal := by
  intro p session hp
  rw [session?_start] at hp
  split at hp
  · rename_i hsame
    cases hp
    exact ⟨hsame.symm, hsame ▸ hpath⟩
  · exact h p session hp

theorem normal_filter (h : t.Normal) (keep : String → Session → Bool) :
    Normal ⟨t.sessions.filter keep⟩ := by
  intro p session hp
  rw [session?, Table.get?_filter, Option.filter_eq_some_iff] at hp
  exact h p session hp.1

theorem normal_setState (h : t.Normal) (path : String) (state : State) :
    (t.setState path state).Normal := by
  intro p session hp
  rw [session?_setState] at hp
  split at hp
  · rename_i hsame
    obtain ⟨old, hold, rfl⟩ := Option.map_eq_some_iff.mp hp
    exact hsame ▸ h path old hold
  · exact h p session hp

theorem normal_rename {new : String} (h : t.Normal) (hnew : Path.normalize? new = some new)
    (old : String) : (t.rename old new).Normal := by
  unfold rename
  split
  · exact h
  · intro p found hp
    rw [session?, Table.get?_insert] at hp
    split at hp
    · rename_i hsame
      cases hp
      exact ⟨hsame.symm, hsame ▸ hnew⟩
    · exact normal_filter h _ p found hp

end EditorSync.Tracking

namespace EditorSync.Store

open WorkingCopy (Key)

variable {s : Shadows} {w w' : World} {key : Key} {copy : WorkingCopy} {path : String}

theorem resolves_of_key (h : w.store.key w.disk path = .ok key) :
    (∃ real, w.store.workspace.realPath w.disk key.file = .ok real) ∧
      w.store.workspace.projectOf w.disk key.file = .ok key.project :=
  (key_eq_ok_iff.mp h).2

structure Proper (s : Shadows) (key : Key) (copy : WorkingCopy) : Prop where
  key_eq : copy.key = key
  live : copy.discarded = false
  normal : Path.normalize? key.file = some key.file
  assigned : ∃ disk, s.workspace.projectOf disk key.file = .ok key.project

theorem Proper.owner (h : Proper s key copy) : s.workspace.owner? key.file = some key.project := by
  obtain ⟨disk, hdisk⟩ := h.assigned
  obtain ⟨file, hfile, howner⟩ := Workspace.owner?_of_projectOf hdisk
  cases h.normal.symm.trans hfile
  exact howner

theorem Proper.key_unique {key' : Key} (h : Proper s key copy)
    (howner : s.workspace.owner? key.file = some key'.project) (hfile : key.file = key'.file) :
    key = key' := by
  have hproject : key.project = key'.project := Option.some.inj (h.owner.symm.trans howner)
  cases key
  cases key'
  cases hproject
  cases hfile
  rfl

structure World.Proper (s : Shadows) (w : World) : Prop where
  shadows_eq : w.store.shadows = s
  copies : ∀ key copy, w.store.copies.get? key = some copy → Store.Proper s key copy
  sessions : w.store.tracking.Normal

namespace World.Proper

theorem address (h : w.Proper s) (hkey : w.store.key w.disk path = .ok key) :
    Path.normalize? key.file = some key.file ∧
      ∃ disk, s.workspace.projectOf disk key.file = .ok key.project := by
  refine ⟨(key_eq_ok hkey).2.1, w.disk, ?_⟩
  have hproject := (resolves_of_key hkey).2
  rwa [Store.workspace, h.shadows_eq] at hproject

theorem track (h : w.Proper s) {f : Tracking → Tracking}
    (hf : w.store.tracking.Normal → (f w.store.tracking).Normal) : (w.track f).Proper s :=
  ⟨h.shadows_eq, h.copies, hf h.sessions⟩

theorem put (h : w.Proper s) (hcopy : Store.Proper s copy.key copy) : (w.put copy).Proper s := by
  refine ⟨h.shadows_eq, fun k c hc => ?_, h.sessions⟩
  rw [World.get?_put] at hc
  split at hc
  · rename_i hk
    cases hc
    exact hk ▸ hcopy
  · exact h.copies k c hc

theorem retain (h : w.Proper s) (keep : Key → Bool) : (w.retain keep).Proper s := by
  refine ⟨h.shadows_eq, fun k c hc => ?_, h.sessions⟩
  dsimp only [World.retain] at hc
  rw [Table.get?_filter, Option.filter_eq_some_iff] at hc
  exact h.copies k c hc.1

theorem undergo (h : w.Proper s) (effect : Shadows.Effect) : (w.undergo effect).Proper s := by
  refine ⟨?_, ?_, ?_⟩ <;> dsimp only [World.undergo]
  · rw [note_shadows, h.shadows_eq]
  · rw [note_copies]
    exact h.copies
  · rw [note_tracking]
    exact h.sessions

theorem persisted (h : w.Proper s) (copy : WorkingCopy) : (w.persisted copy).Proper s := by
  unfold World.persisted
  split
  · exact h.undergo _
  · exact h

theorem discard (h : w.Proper s) (key : Key) : (w.discard key).Proper s := by
  unfold World.discard
  split
  · exact h
  · split
    · exact (h.retain _).undergo _
    · exact h.retain _

theorem rehome {old new : Key} (h : w.Proper s)
    (hnew : Store.Proper s new { copy with key := new }) : (w.rehome old new copy).Proper s := by
  have hput : ((w.retain (· ≠ old)).put { copy with key := new }).Proper s :=
    (h.retain _).put hnew
  unfold World.rehome
  dsimp only
  split
  · exact hput.undergo _
  · exact hput

end World.Proper

theorem Creates.proper {r : Except SyncError WorkingCopy} (hcreate : Creates w key r w')
    (h : w.Proper s) (hnormal : Path.normalize? key.file = some key.file)
    (hassigned : ∃ disk, s.workspace.projectOf disk key.file = .ok key.project) :
    w'.Proper s ∧ ∀ copy, r = .ok copy → Store.Proper s key copy := by
  have hnew (content : String) : Store.Proper s key (.new key content) :=
    ⟨rfl, rfl, hnormal, hassigned⟩
  cases hcreate with
  | known hcopy =>
    refine ⟨h, fun copy hok => ?_⟩
    cases hok
    exact h.copies _ _ hcopy
  | @loaded content _ _ =>
    refine ⟨h.put (hnew content), fun copy hok => ?_⟩
    cases hok
    exact hnew content
  | @made content _ _ =>
    refine ⟨(h.persisted _).put (hnew content), fun copy hok => ?_⟩
    cases hok
    exact hnew content
  | failed =>
    refine ⟨h, fun copy hok => ?_⟩
    cases hok

theorem Proper.update {copy' : WorkingCopy} (h : Proper s key copy) (hkey : copy'.key = copy.key)
    (hdiscarded : copy'.discarded = copy.discarded) : Proper s copy'.key copy' := by
  rw [hkey, h.key_eq]
  exact ⟨hkey.trans h.key_eq, hdiscarded.trans h.live, h.normal, h.assigned⟩

theorem Creates.proper_started {r : Except SyncError WorkingCopy}
    (hcreate : Creates (w.track (·.start key.file)) key r w') (h : w.Proper s)
    (hkey : w.store.key w.disk path = .ok key) :
    w'.Proper s ∧ ∀ copy, r = .ok copy → Proper s key copy := by
  obtain ⟨hnormal, hassigned⟩ := h.address hkey
  exact hcreate.proper (h.track fun ht => Tracking.normal_start ht hnormal) hnormal hassigned

theorem Creates.proper_addressed {r : Except SyncError WorkingCopy} (hcreate : Creates w key r w')
    (h : w.Proper s) (hkey : w.store.key w.disk path = .ok key) :
    w'.Proper s ∧ ∀ copy, r = .ok copy → Proper s key copy := by
  obtain ⟨hnormal, hassigned⟩ := h.address hkey
  exact hcreate.proper h hnormal hassigned

theorem Starts.proper {r : Except SyncError Snapshot} (hstart : Starts w path r w')
    (h : w.Proper s) : w'.Proper s := by
  cases hstart with
  | unaddressed => exact h
  | failed hkey hcreate => exact (hcreate.proper_started h hkey).1
  | unread hkey hcreate => exact (hcreate.proper_started h hkey).1
  | kept hkey hcreate =>
    obtain ⟨hworld, hcopy⟩ := hcreate.proper_started h hkey
    exact hworld.put ((hcopy _ rfl).update rfl rfl)
  | renewed hkey hcreate =>
    obtain ⟨hworld, hcopy⟩ := hcreate.proper_started h hkey
    exact (hworld.persisted _).put ((hcopy _ rfl).update rfl rfl)

theorem Applies.proper {changes : EditorChanges} {r : Except SyncError ApplyOutcome}
    (happly : Applies w changes r w') (h : w.Proper s) : w'.Proper s := by
  cases happly with
  | undecoded => exact h
  | unaddressed => exact h
  | outside => exact h
  | foreign => exact h
  | suspended => exact h
  | failed hkey hcreate => exact (hcreate.proper_addressed h hkey).1
  | discarded hkey hcreate => exact (hcreate.proper_addressed h hkey).1
  | rejected _ hkey hcreate => exact (hcreate.proper_addressed h hkey).1
  | held _ hkey _ _ hcreate _ happly =>
    obtain ⟨hworld, hcopy⟩ := hcreate.proper_addressed h hkey
    have hsame := WorkingCopy.apply_key _ _ happly
    have hlive := WorkingCopy.apply_discarded _ _ happly
    exact hworld.put ((hcopy _ rfl).update hsame hlive)
  | taken _ hkey _ _ hcreate _ happly =>
    obtain ⟨hworld, hcopy⟩ := hcreate.proper_addressed h hkey
    have hsame := WorkingCopy.apply_key _ _ happly
    have hlive := WorkingCopy.apply_discarded _ _ happly
    exact (hworld.put ((hcopy _ rfl).update hsame hlive)).persisted _

theorem World.Proper.after (h : w.Proper s) (c : Call) : (c.after w).Proper s := by
  have hperforms := performs w c
  generalize c.after w = w' at hperforms ⊢
  cases hperforms with
  | refused => exact h
  | started hstart => exact hstart.proper h
  | applied happly => exact happly.proper h
  | forgotten => exact (h.track fun ht => Tracking.normal_filter ht _).discard _
  | @retracked _ path file change hcall =>
    refine h.track fun ht => ?_
    rcases hcall with ⟨-, rfl⟩ | ⟨-, rfl⟩
    · exact Tracking.normal_setState ht file _
    · exact Tracking.normal_setState ht file _
  | passed _ hnew => exact h.track fun ht => Tracking.normal_rename ht (h.address hnew).1 _
  | @moved old new oldKey newKey copy _ hnew hcopy =>
    obtain ⟨hnormal, hassigned⟩ := h.address hnew
    have htracked : (w.track (·.rename oldKey.file newKey.file)).Proper s :=
      h.track fun ht => Tracking.normal_rename ht hnormal _
    exact htracked.rehome ⟨rfl, (h.copies _ _ hcopy).live, hnormal, hassigned⟩
  | @ended _ project =>
    have hforgotten : (w.forgetProject project).Proper s :=
      (h.retain _).track fun ht => Tracking.normal_filter ht _
    exact ⟨hforgotten.shadows_eq, hforgotten.copies, hforgotten.sessions⟩

theorem Reachable.proper (h : Reachable s w) : w.Proper s := by
  induction h with
  | new settings disk =>
    refine ⟨rfl, fun key copy hcopy => ?_, fun path session hpath => ?_⟩
    · cases hcopy
    · cases hpath
  | call _ c ih => exact ih.after c
  | disk _ disk ih => exact ⟨ih.shadows_eq, ih.copies, ih.sessions⟩

/-- However a store has been used, each working copy stands under its own key and is not discarded,
its path is normal, its project contains it and is the one that the workspace gives to the file,
no file has two working copies, and each session stands under its own path, which is normal. -/
theorem tables_of_reachable (h : Reachable s w) :
    (∀ key copy, w.store.copies.get? key = some copy →
      copy.key = key ∧ copy.discarded = false ∧ Path.normalize? key.file = some key.file ∧
        Path.isProperAncestor key.project key.file = true ∧
        (∃ disk, s.workspace.projectOf disk key.file = .ok key.project) ∧
        ∀ disk project, s.workspace.projectOf disk key.file = .ok project →
          project = key.project) ∧
      (∀ key key' copy copy', w.store.copies.get? key = some copy →
        w.store.copies.get? key' = some copy' → key.file = key'.file → key = key') ∧
      ∀ path session, w.store.tracking.session? path = some session →
        session.path = path ∧ Path.normalize? path = some path := by
  have hproper := h.proper
  refine ⟨fun key copy hcopy => ?_, fun key key' copy copy' hcopy hcopy' hfile => ?_,
    hproper.sessions⟩
  · have hentry := hproper.copies key copy hcopy
    refine ⟨hentry.key_eq, hentry.live, hentry.normal,
      Workspace.isProperAncestor_owner? hentry.normal hentry.owner, hentry.assigned,
      fun disk project hproject => ?_⟩
    obtain ⟨file, hfile, howner⟩ := Workspace.owner?_of_projectOf hproject
    cases hentry.normal.symm.trans hfile
    exact Option.some.inj (howner.symm.trans hentry.owner)
  · have hentry := hproper.copies key copy hcopy
    have howner := (hproper.copies key' copy' hcopy').owner
    rw [← hfile] at howner
    exact hentry.key_unique howner hfile

def movedWorld : World :=
  (Call.move "p/a" "/p//b").after ((Call.suspend "/p/./a").after ((Call.start "//p/a").after
    ⟨.new sampleShadows { sampleSettings with persist := false }, sampleDisk⟩))

theorem tables_of_reachable_moved : Reachable sampleShadows movedWorld ∧
    movedWorld.store.copies.keys = [⟨"/p", "/p/b"⟩] ∧
    (∀ copy, movedWorld.store.copies.get? ⟨"/p", "/p/b"⟩ = some copy →
      copy.key = ⟨"/p", "/p/b"⟩ ∧ copy.discarded = false ∧
        Path.isProperAncestor "/p" "/p/b" = true) ∧
    ∃ session, movedWorld.store.tracking.session? "/p/b" = some session ∧
      session.path = "/p/b" ∧ session.state = .suspended := by
  have hreachable : Reachable sampleShadows movedWorld := .call (.call (.call (.new _ _) _) _) _
  obtain ⟨hcopies, -, hsessions⟩ := tables_of_reachable hreachable
  have hsession : movedWorld.store.tracking.session? "/p/b" = some ⟨"/p/b", .suspended⟩ := by cbv
  refine ⟨hreachable, by cbv, fun copy hcopy => ?_, _, hsession, (hsessions _ _ hsession).1, rfl⟩
  obtain ⟨hkey, hlive, -, hancestor, -⟩ := hcopies _ copy hcopy
  exact ⟨hkey, hlive, hancestor⟩

end EditorSync.Store

import EditorSync.Proofs.Store.Run
import EditorSync.Proofs.Store.Transitions

namespace EditorSync.Store

open WorkingCopy (Key)

variable {s : Shadows} {w w' : World} {key : Key} {path : String}

inductive Performs (w : World) : Call → World → Prop
  | refused (c : Call) : Performs w c w
  | started {path : String} {r : Except SyncError Snapshot} {w' : World}
    (hstart : Starts w path r w') : Performs w (.start path) w'
  | applied {changes : EditorChanges} {r : Except SyncError ApplyOutcome} {w' : World}
    (happly : Applies w changes r w') : Performs w (.apply changes) w'
  | forgotten {c : Call} {path : String} {key : Key} (hcall : c = .stop path ∨ c = .discardFile path)
    (hkey : w.store.key w.disk path = .ok key) :
    Performs w c ((w.track (·.stop key.file)).discard key)
  | retracked {c : Call} {path file : String} {change : Tracking → Tracking}
    (hcall : c = .suspend path ∧ change = (·.suspend file) ∨
      c = .resume path ∧ change = (·.resume file))
    (hfile : Path.normalize? path = some file) : Performs w c (w.track change)
  | passed {old new : String} {oldKey newKey : Key} (hold : w.store.key w.disk old = .ok oldKey)
    (hnew : w.store.key w.disk new = .ok newKey) (hnone : w.store.copies.get? oldKey = none) :
    Performs w (.move old new) (w.track (·.rename oldKey.file newKey.file))
  | moved {old new : String} {oldKey newKey : Key} {copy : WorkingCopy}
    (hold : w.store.key w.disk old = .ok oldKey) (hnew : w.store.key w.disk new = .ok newKey)
    (hcopy : w.store.copies.get? oldKey = some copy) :
    Performs w (.move old new)
      ((w.track (·.rename oldKey.file newKey.file)).rehome oldKey newKey copy)
  | ended {path project : String} (hproject : Path.normalize? path = some project) :
    Performs w (.discardProject path)
      { w.forgetProject project with disk := (w.store.shadows.removeProject w.disk project).1 }

theorem performs (w : World) (c : Call) : Performs w c (c.after w) := by
  cases c with
  | start path => exact .started (starts w path)
  | apply changes => exact .applied (applies w changes)
  | stop path =>
    dsimp only [Call.after]
    rw [perform_stop]
    cases hkey : w.store.key w.disk path with
    | error e => exact .refused _
    | ok key => exact .forgotten (.inl rfl) hkey
  | discardFile path =>
    dsimp only [Call.after]
    rw [perform_discardFile]
    cases hkey : w.store.key w.disk path with
    | error e => exact .refused _
    | ok key => exact .forgotten (.inr rfl) hkey
  | suspend path =>
    dsimp only [Call.after]
    rw [perform_suspend]
    cases hfile : Workspace.normalize path with
    | error e => exact .refused _
    | ok file => exact .retracked (.inl ⟨rfl, rfl⟩) (Workspace.normalize_eq_ok_iff.mp hfile)
  | resume path =>
    dsimp only [Call.after]
    rw [perform_resume]
    cases hfile : Workspace.normalize path with
    | error e => exact .refused _
    | ok file => exact .retracked (.inr ⟨rfl, rfl⟩) (Workspace.normalize_eq_ok_iff.mp hfile)
  | move old new =>
    dsimp only [Call.after]
    rw [perform_move]
    cases hold : w.store.key w.disk old with
    | error e => exact .refused _
    | ok oldKey =>
      cases hnew : w.store.key w.disk new with
      | error e => exact .refused _
      | ok newKey =>
        dsimp only
        cases hcopy : w.store.copies.get? oldKey with
        | none => exact .passed hold hnew hcopy
        | some copy => exact .moved hold hnew hcopy
  | discardProject path =>
    dsimp only [Call.after]
    rw [perform_discardProject]
    cases hproject : Workspace.normalize path with
    | error e => exact .refused _
    | ok project => exact .ended (Workspace.normalize_eq_ok_iff.mp hproject)

theorem Call.mem_paths_of_forgets {c : Call} (h : c = .stop path ∨ c = .discardFile path) :
    path ∈ c.paths := by
  rcases h with rfl | rfl
  · exact List.mem_cons_self
  · exact List.mem_cons_self

structure Upholds (admitted : Key → Prop) (P : World → Prop) : Prop where
  known : ∀ w key copy, P w → w.store.copies.get? key = some copy → copy.key = key
  track : ∀ w f, P w → P (w.track f)
  put : ∀ w copy, P w → admitted copy.key → P (w.put copy)
  persisted : ∀ w copy, P w → admitted copy.key → P (w.persisted copy)

section Upholds

variable {admitted : Key → Prop} {P : World → Prop}

theorem Creates.upheld {r : Except SyncError WorkingCopy} (hcreate : Creates w key r w')
    (hP : Upholds admitted P) (h : P w) (hkey : admitted key) :
    P w' ∧ ∀ copy, r = .ok copy → copy.key = key := by
  cases hcreate with
  | known hcopy =>
    refine ⟨h, fun copy hok => ?_⟩
    cases hok
    exact hP.known w key _ h hcopy
  | loaded hnone hcontent =>
    refine ⟨hP.put w _ h hkey, fun copy hok => ?_⟩
    cases hok
    rfl
  | made hnone hcontent =>
    refine ⟨hP.put _ _ (hP.persisted w _ h hkey) hkey, fun copy hok => ?_⟩
    cases hok
    rfl
  | failed hnone herror =>
    refine ⟨h, fun copy hok => ?_⟩
    cases hok

theorem Starts.upheld {r : Except SyncError Snapshot} (hstart : Starts w path r w')
    (hP : Upholds admitted P) (h : P w)
    (hadmits : ∀ key, w.store.key w.disk path = .ok key → admitted key) : P w' := by
  cases hstart with
  | unaddressed => exact h
  | failed hkey hcreate => exact (hcreate.upheld hP (hP.track _ _ h) (hadmits _ hkey)).1
  | unread hkey hcreate => exact (hcreate.upheld hP (hP.track _ _ h) (hadmits _ hkey)).1
  | kept hkey hcreate =>
    obtain ⟨hcreated, hcopy⟩ := hcreate.upheld hP (hP.track _ _ h) (hadmits _ hkey)
    apply hP.put _ _ hcreated
    exact hcopy _ rfl ▸ hadmits _ hkey
  | @renewed key copy text _ hkey hcreate =>
    obtain ⟨hcreated, hcopy⟩ := hcreate.upheld hP (hP.track _ _ h) (hadmits _ hkey)
    have hreset : admitted (copy.reset text).key := hcopy _ rfl ▸ hadmits _ hkey
    exact hP.put _ _ (hP.persisted _ _ hcreated hreset) hreset

theorem Applies.upheld {changes : EditorChanges} {r : Except SyncError ApplyOutcome}
    (happly : Applies w changes r w') (hP : Upholds admitted P) (h : P w)
    (hadmits : ∀ key, w.store.key w.disk changes.file = .ok key → admitted key) : P w' := by
  cases happly with
  | undecoded => exact h
  | unaddressed => exact h
  | outside => exact h
  | foreign => exact h
  | suspended => exact h
  | failed hkey hcreate => exact (hcreate.upheld hP h (hadmits _ hkey)).1
  | discarded hkey hcreate => exact (hcreate.upheld hP h (hadmits _ hkey)).1
  | rejected _ hkey hcreate => exact (hcreate.upheld hP h (hadmits _ hkey)).1
  | @held key _ copy' _ _ _ hkey _ _ hcreate _ happly =>
    obtain ⟨hcreated, hcopy⟩ := hcreate.upheld hP h (hadmits _ hkey)
    have hsame : copy'.key = key := (WorkingCopy.apply_key _ _ happly).trans (hcopy _ rfl)
    exact hP.put _ _ hcreated (hsame ▸ hadmits _ hkey)
  | @taken key _ copy' _ _ _ _ hkey _ _ hcreate _ happly =>
    obtain ⟨hcreated, hcopy⟩ := hcreate.upheld hP h (hadmits _ hkey)
    have hsame : copy'.key = key := (WorkingCopy.apply_key _ _ happly).trans (hcopy _ rfl)
    have hadmitted : admitted copy'.key := hsame ▸ hadmits _ hkey
    exact hP.persisted _ _ (hP.put _ _ hcreated hadmitted) hadmitted

end Upholds

structure Addressed (s : Shadows) (used : String → Prop) (key : Key) : Prop where
  used : used key.file
  normal : Path.normalize? key.file = some key.file
  owner : s.workspace.owner? key.file = some key.project

structure World.Keyed (s : Shadows) (used : String → Prop) (w : World) : Prop where
  shadows_eq : w.store.shadows = s
  copies : ∀ key copy, w.store.copies.get? key = some copy → copy.key = key ∧ Addressed s used key

namespace World.Keyed

variable {used : String → Prop}

theorem addressed (h : w.Keyed s used)
    (hused : ∀ file, Path.normalize? path = some file → used file)
    (hkey : w.store.key w.disk path = .ok key) : Addressed s used key := by
  obtain ⟨hpath, hnormal, howner⟩ := key_eq_ok hkey
  rw [Store.workspace, h.shadows_eq] at howner
  exact ⟨hused _ hpath, hnormal, howner⟩

theorem track (h : w.Keyed s used) (f : Tracking → Tracking) : (w.track f).Keyed s used :=
  ⟨h.shadows_eq, h.copies⟩

theorem put {copy : WorkingCopy} (h : w.Keyed s used) (hcopy : Addressed s used copy.key) :
    (w.put copy).Keyed s used := by
  refine ⟨h.shadows_eq, fun k c hc => ?_⟩
  dsimp only [World.put] at hc
  rw [Table.get?_insert] at hc
  split at hc
  · rename_i hk
    cases hc
    exact ⟨hk.symm, hk ▸ hcopy⟩
  · exact h.copies k c hc

theorem retain (h : w.Keyed s used) (keep : Key → Bool) : (w.retain keep).Keyed s used := by
  refine ⟨h.shadows_eq, fun k c hc => ?_⟩
  dsimp only [World.retain] at hc
  rw [Table.get?_filter, Option.filter_eq_some_iff] at hc
  exact h.copies k c hc.1

theorem undergo (h : w.Keyed s used) (effect : Shadows.Effect) :
    (w.undergo effect).Keyed s used := by
  constructor
  · dsimp only [World.undergo]
    rw [note_shadows, h.shadows_eq]
  · dsimp only [World.undergo]
    rw [note_copies]
    exact h.copies

theorem persisted (h : w.Keyed s used) (copy : WorkingCopy) : (w.persisted copy).Keyed s used := by
  unfold World.persisted
  split
  · exact h.undergo _
  · exact h

theorem discard (h : w.Keyed s used) (key : Key) : (w.discard key).Keyed s used := by
  unfold World.discard
  split
  · exact h
  · split
    · exact (h.retain _).undergo _
    · exact h.retain _

theorem rehome {copy : WorkingCopy} {old new : Key} (h : w.Keyed s used)
    (hnew : Addressed s used new) : (w.rehome old new copy).Keyed s used := by
  have hput : ((w.retain (· ≠ old)).put { copy with key := new }).Keyed s used :=
    (h.retain _).put hnew
  unfold World.rehome
  dsimp only
  split
  · exact hput.undergo _
  · exact hput

theorem upholds : Upholds (Addressed s used) (World.Keyed s used) where
  known _ key copy h hcopy := (h.copies key copy hcopy).1
  track _ f h := h.track f
  put _ _ h hcopy := h.put hcopy
  persisted _ copy h _ := h.persisted copy

theorem after (h : w.Keyed s used) (c : Call) (hwithin : c.Within used) :
    (c.after w).Keyed s used := by
  have hperforms := performs w c
  generalize c.after w = w' at hperforms ⊢
  cases hperforms with
  | refused => exact h
  | started hstart =>
    exact hstart.upheld upholds h fun _ => h.addressed (hwithin _ List.mem_cons_self)
  | applied happly =>
    exact happly.upheld upholds h fun _ => h.addressed (hwithin _ List.mem_cons_self)
  | forgotten => exact (h.track _).discard _
  | retracked => exact h.track _
  | passed => exact h.track _
  | moved _ hnew =>
    have hused := hwithin _ (List.mem_cons_of_mem _ List.mem_cons_self)
    exact (h.track _).rehome (h.addressed hused hnew)
  | @ended _ project =>
    have hforgotten := (h.retain (·.project ≠ project)).track (·.removeUnder project)
    exact ⟨hforgotten.shadows_eq, hforgotten.copies⟩

end World.Keyed

/-- A store that calls are made to, while anything may happen to the disk. -/
inductive Reachable (s : Shadows) : World → Prop
  | new (settings : Settings) (disk : Disk) : Reachable s ⟨.new s settings, disk⟩
  | call {w : World} (h : Reachable s w) (c : Call) : Reachable s (c.after w)
  | disk {w : World} (h : Reachable s w) (disk : Disk) : Reachable s { w with disk := disk }

theorem Reachable.keyed (h : Reachable s w) : w.Keyed s fun _ => True := by
  induction h with
  | new settings disk =>
    refine ⟨rfl, fun key copy hcopy => ?_⟩
    cases hcopy
  | call _ c ih => exact ih.after c fun _ _ _ _ => trivial
  | disk _ disk ih => exact ⟨ih.shadows_eq, ih.copies⟩

end EditorSync.Store

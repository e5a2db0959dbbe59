import EditorSync.Proofs.Store.Identity
import EditorSync.Proofs.Tracking

namespace EditorSync.Store

open WorkingCopy (Key)

variable {s : Shadows} {w w' : World} {key : Key} {copy : WorkingCopy} {path file : String}

def World.copyOf? (w : World) (file : String) : Option WorkingCopy :=
  (w.store.copies.entries.find? fun e => e.1.file = file).map (·.2)

/-- A file has the same working copy and the same session in both worlds. -/
def World.Agree (file : String) (w w' : World) : Prop :=
  w'.copyOf? file = w.copyOf? file ∧
    w'.store.tracking.state? file = w.store.tracking.state? file

def Call.subject? : Call → Option String
  | start path | stop path | suspend path | resume path | discardFile path => some path
  | apply changes => some changes.file
  | move _ _ | discardProject _ => none

theorem Starts.tracking {r : Except SyncError Snapshot} (h : Starts w path r w') :
    (∃ e, w.store.key w.disk path = .error e ∧ r = .error e ∧ w' = w) ∨
      ∃ key, w.store.key w.disk path = .ok key ∧
        w'.store.tracking = w.store.tracking.start key.file := by
  cases h with
  | unaddressed hkey => exact .inl ⟨_, hkey, rfl, rfl⟩
  | failed hkey hcreate => exact .inr ⟨_, hkey, hcreate.tracking⟩
  | unread hkey hcreate => exact .inr ⟨_, hkey, hcreate.tracking⟩
  | kept hkey hcreate => exact .inr ⟨_, hkey, hcreate.tracking⟩
  | renewed hkey hcreate =>
    exact .inr ⟨_, hkey, (World.persisted_tracking _ _).trans hcreate.tracking⟩

theorem Applies.tracking {changes : EditorChanges} {r : Except SyncError ApplyOutcome}
    (h : Applies w changes r w') : w'.store.tracking = w.store.tracking := by
  cases h with
  | failed _ hcreate => exact hcreate.tracking
  | discarded _ hcreate => exact hcreate.tracking
  | rejected _ _ hcreate => exact hcreate.tracking
  | held _ _ _ _ hcreate => exact hcreate.tracking
  | taken _ _ _ _ hcreate => exact (World.persisted_tracking _ _).trans hcreate.tracking
  | _ => rfl

def World.Keeps (file : String) (w w' : World) : Prop :=
  ∀ key, key.file = file → w'.store.copies.get? key = w.store.copies.get? key

namespace World.Keeps

theorem refl (file : String) (w : World) : w.Keeps file w := fun _ _ => rfl

theorem track (h : w.Keeps file w') (f : Tracking → Tracking) : w.Keeps file (w'.track f) := h

theorem put (h : w.Keeps file w') (hother : copy.key.file ≠ file) :
    w.Keeps file (w'.put copy) := by
  intro key hkey
  have hne : key ≠ copy.key := by
    rintro rfl
    exact hother hkey
  rw [World.get?_put, if_neg hne]
  exact h key hkey

theorem undergo (h : w.Keeps file w') (effect : Shadows.Effect) :
    w.Keeps file (w'.undergo effect) := by
  unfold World.undergo World.Keeps
  rw [note_copies]
  exact h

theorem persisted (h : w.Keeps file w') (copy : WorkingCopy) : w.Keeps file (w'.persisted copy) := by
  unfold World.persisted
  split
  · exact h.undergo _
  · exact h

theorem discard (h : w.Keeps file w') (hother : key.file ≠ file) :
    w.Keeps file (w'.discard key) := by
  intro k hk
  have hne : k ≠ key := by
    rintro rfl
    exact hother hk
  rw [World.get?_discard, if_neg hne, h k hk]

theorem rehome {old new : Key} (h : w.Keeps file w') (hold : old.file ≠ file)
    (hnew : new.file ≠ file) : w.Keeps file (w'.rehome old new copy) := by
  intro k hk
  have hneold : k ≠ old := by
    rintro rfl
    exact hold hk
  have hnenew : k ≠ new := by
    rintro rfl
    exact hnew hk
  rw [World.get?_rehome, if_neg hnenew, if_neg hneold, h k hk]

theorem upholds (s : Shadows) (file : String) (w : World) :
    Upholds (fun key => Addressed s (fun _ => True) key ∧ key.file ≠ file)
      (fun w' => w'.Keyed s (fun _ => True) ∧ w.Keeps file w') where
  known _ key copy h hcopy := (h.1.copies key copy hcopy).1
  track _ f h := ⟨h.1.track f, h.2.track f⟩
  put _ _ h hcopy := ⟨h.1.put hcopy.1, h.2.put hcopy.2⟩
  persisted _ copy h _ := ⟨h.1.persisted copy, h.2.persisted copy⟩

end World.Keeps

theorem World.Keyed.keeps (h : w.Keyed s fun _ => True) {c : Call}
    (hsubject : c.subject? = some path) (hother : Path.normalize? path ≠ some file) :
    w.Keeps file (c.after w) ∧
      (c.after w).store.tracking.state? file = w.store.tracking.state? file := by
  have haddress {key : Key} (hkey : w.store.key w.disk path = .ok key) :
      Addressed s (fun _ => True) key ∧ key.file ≠ file :=
    ⟨h.addressed (fun _ _ => trivial) hkey, fun hsame => hother (hsame ▸ (key_eq_ok hkey).1)⟩
  have hstart : w.Keyed s (fun _ => True) ∧ w.Keeps file w := ⟨h, .refl file w⟩
  have hperforms := performs w c
  generalize c.after w = w' at hperforms ⊢
  cases hperforms with
  | refused => exact ⟨.refl file w, rfl⟩
  | started hstarts =>
    cases hsubject
    refine ⟨(hstarts.upheld (World.Keeps.upholds s file w) hstart fun _ => haddress).2, ?_⟩
    rcases hstarts.tracking with ⟨-, -, -, rfl⟩ | ⟨key, hkey, htracking⟩
    · rfl
    · rw [htracking, Tracking.state?_start, if_neg (haddress hkey).2.symm]
  | applied happlies =>
    cases hsubject
    refine ⟨(happlies.upheld (World.Keeps.upholds s file w) hstart fun _ => haddress).2, ?_⟩
    rw [happlies.tracking]
  | @forgotten _ forgotten key hcall hkey =>
    obtain rfl : forgotten = path := by
      rcases hcall with rfl | rfl <;> exact Option.some.inj hsubject
    have hne := (haddress hkey).2
    refine ⟨((World.Keeps.refl file w).track _).discard hne, ?_⟩
    rw [World.discard_tracking]
    exact (Tracking.state?_stop _ _ _).trans (if_neg hne.symm)
  | @retracked _ named named' _ hcall hfile =>
    obtain rfl : named = path := by
      rcases hcall with ⟨rfl, -⟩ | ⟨rfl, -⟩ <;> exact Option.some.inj hsubject
    have hne : file ≠ named' := fun hsame => hother (hsame ▸ hfile)
    refine ⟨(World.Keeps.refl file w).track _, ?_⟩
    rcases hcall with ⟨-, rfl⟩ | ⟨-, rfl⟩
    · exact (Tracking.state?_suspend _ _ _).trans (if_neg hne)
    · exact (Tracking.state?_resume _ _ _).trans (if_neg hne)
  | passed => cases hsubject
  | moved => cases hsubject
  | ended => cases hsubject

theorem World.Proper.key_unique (h : w.Proper s) {key' : Key} {copy : WorkingCopy}
    (hcopy : w.store.copies.get? key = some copy)
    (howner : s.workspace.owner? key.file = some key'.project) (hfile : key.file = key'.file) :
    key = key' :=
  (h.copies key copy hcopy).key_unique howner hfile

theorem World.Proper.copyOf?_eq_some_iff (h : w.Proper s) : w.copyOf? file = some copy ↔
    ∃ key, key.file = file ∧ w.store.copies.get? key = some copy := by
  have hfound {e : Key × WorkingCopy}
      (he : w.store.copies.entries.find? (fun e => e.1.file = file) = some e) :
      e.1.file = file ∧ w.store.copies.get? e.1 = some e.2 :=
    ⟨of_decide_eq_true (List.find?_some he :),
      (Table.get?_eq_some_iff _ _ _).mpr (List.mem_of_find?_eq_some he)⟩
  rw [World.copyOf?, Option.map_eq_some_iff]
  constructor
  · rintro ⟨e, he, rfl⟩
    exact ⟨e.1, hfound he⟩
  · rintro ⟨key, hkey, hcopy⟩
    have hmem := (Table.get?_eq_some_iff _ _ _).mp hcopy
    have hsome : (w.store.copies.entries.find? fun e => e.1.file = file).isSome = true :=
      List.find?_isSome.mpr ⟨(key, copy), hmem, decide_eq_true hkey⟩
    obtain ⟨e, he⟩ := Option.isSome_iff_exists.mp hsome
    refine ⟨e, he, ?_⟩
    obtain ⟨hfile, hcopy'⟩ := hfound he
    have howner := (h.copies e.1 e.2 hcopy').owner
    have hsame : key = e.1 := by
      refine h.key_unique hcopy ?_ (hkey.trans hfile.symm)
      rw [hkey, ← hfile]
      exact howner
    rw [← hsame, hcopy] at hcopy'
    exact (Option.some.inj hcopy').symm

theorem World.Proper.copyOf?_eq (h : w.Proper s)
    (howner : s.workspace.owner? key.file = some key.project) :
    w.copyOf? key.file = w.store.copies.get? key := by
  refine Option.ext fun copy => h.copyOf?_eq_some_iff.trans ?_
  constructor
  · rintro ⟨key', hfile, hcopy⟩
    have hsame : key' = key := h.key_unique hcopy (hfile ▸ howner) hfile
    exact hsame ▸ hcopy
  · exact fun hcopy => ⟨key, rfl, hcopy⟩

theorem World.Keeps.copyOf?_eq (hkeeps : w.Keeps file w') (h : w.Proper s) (h' : w'.Proper s) :
    w'.copyOf? file = w.copyOf? file := by
  refine Option.ext fun copy => ?_
  rw [h.copyOf?_eq_some_iff, h'.copyOf?_eq_some_iff]
  constructor
  · rintro ⟨key, hkey, hcopy⟩
    exact ⟨key, hkey, hkeeps key hkey ▸ hcopy⟩
  · rintro ⟨key, hkey, hcopy⟩
    exact ⟨key, hkey, (hkeeps key hkey).trans hcopy⟩

theorem move_ok {old new : String} {moved : Option Snapshot}
    (h : (move old new).perform w = (.ok moved, w')) :
    ∃ oldKey newKey, w.store.key w.disk old = .ok oldKey ∧ w.store.key w.disk new = .ok newKey ∧
      w'.store.tracking = w.store.tracking.rename oldKey.file newKey.file ∧
      ∀ k, w'.store.copies.get? k =
        match w.store.copies.get? oldKey with
        | none => w.store.copies.get? k
        | some copy =>
          if k = newKey then some { copy with key := newKey }
          else if k = oldKey then none else w.store.copies.get? k := by
  rw [perform_move] at h
  cases hold : w.store.key w.disk old with
  | error e =>
    rw [hold] at h
    cases h
  | ok oldKey =>
    cases hnew : w.store.key w.disk new with
    | error e =>
      rw [hold, hnew] at h
      cases h
    | ok newKey =>
      rw [hold, hnew] at h
      refine ⟨oldKey, newKey, rfl, rfl, ?_⟩
      cases hcopy : w.store.copies.get? oldKey with
      | none =>
        simp only [hcopy] at h
        cases h
        exact ⟨rfl, fun _ => rfl⟩
      | some copy =>
        simp only [hcopy] at h
        cases h
        exact ⟨World.rehome_tracking _ _ _ _, World.get?_rehome _ _ _ _⟩

structure World.Moved (p q : String) (w w' : World) : Prop where
  copy : ∀ copy, w.copyOf? p = some copy →
    ∃ key, key.file = q ∧ w'.copyOf? q = some { copy with key := key }
  copy_absent : w.copyOf? p = none → w'.copyOf? q = w.copyOf? q
  session : w'.store.tracking.state? q =
    (w.store.tracking.state? p).or (w.store.tracking.state? q)
  left : w'.copyOf? p = none ∧ w'.store.tracking.state? p = none

theorem World.Proper.moved (h : w.Proper s) {old new : String} {moved : Option Snapshot}
    (hok : (move old new).perform w = (.ok moved, w')) :
    ∃ p q, Path.normalize? old = some p ∧ Path.normalize? new = some q ∧
      (∀ file, file ≠ p → file ≠ q → w.Agree file w') ∧
      (p = q → w.Agree p w') ∧ (p ≠ q → w.Moved p q w') := by
  have h' : w'.Proper s := by
    have hafter := h.after (.move old new)
    rwa [Call.after, hok] at hafter
  obtain ⟨oldKey, newKey, hold, hnew, htracking, hcopies⟩ := move_ok hok
  obtain ⟨hp, -, hpowner⟩ := key_eq_ok hold
  obtain ⟨hq, -, hqowner⟩ := key_eq_ok hnew
  rw [Store.workspace, h.shadows_eq] at hpowner hqowner
  have hsession (file : String) :
      w'.store.tracking.state? file =
        if file = newKey.file then
          (w.store.tracking.state? oldKey.file).or (w.store.tracking.state? newKey.file)
        else if file = oldKey.file then none else w.store.tracking.state? file := by
    rw [htracking, Tracking.state?_rename]
  refine ⟨oldKey.file, newKey.file, hp, hq, fun file hne hne' => ?_, fun hsame => ?_,
    fun hdiffer => ?_⟩
  · have hkeeps : w.Keeps file w' := by
      intro k hk
      rw [hcopies]
      cases w.store.copies.get? oldKey with
      | none => rfl
      | some copy =>
        have hneold : k ≠ oldKey := fun heq => hne (hk.symm.trans (congrArg Key.file heq))
        have hnenew : k ≠ newKey := fun heq => hne' (hk.symm.trans (congrArg Key.file heq))
        exact (if_neg hnenew).trans (if_neg hneold)
    refine ⟨hkeeps.copyOf?_eq h h', ?_⟩
    rw [hsession, if_neg hne', if_neg hne]
  · have hkey : newKey = oldKey := by
      have hproject : oldKey.project = newKey.project :=
        Option.some.inj ((hsame ▸ hpowner).symm.trans hqowner)
      cases oldKey
      cases newKey
      cases hsame
      cases hproject
      rfl
    subst hkey
    constructor
    · rw [h.copyOf?_eq hpowner, h'.copyOf?_eq hpowner, hcopies]
      cases hcopy : w.store.copies.get? newKey with
      | none => rfl
      | some copy =>
        refine (if_pos rfl).trans (congrArg some ?_)
        rw [← (h.copies newKey copy hcopy).key_eq]
    · rw [hsession, if_pos rfl, Option.or_self]
  · have hdiffer' : oldKey ≠ newKey := fun heq => hdiffer (congrArg Key.file heq)
    have hcopyp : w'.copyOf? oldKey.file = none := by
      rw [h'.copyOf?_eq hpowner, hcopies]
      cases hcopy : w.store.copies.get? oldKey with
      | none => rfl
      | some copy => exact (if_neg hdiffer').trans (if_pos rfl)
    have hsessionp : w'.store.tracking.state? oldKey.file = none := by
      rw [hsession, if_neg hdiffer, if_pos rfl]
    refine ⟨fun copy hcopy => ⟨newKey, rfl, ?_⟩, fun hnone => ?_, ?_, hcopyp, hsessionp⟩
    · rw [h.copyOf?_eq hpowner] at hcopy
      rw [h'.copyOf?_eq hqowner, hcopies, hcopy]
      exact if_pos rfl
    · rw [h.copyOf?_eq hpowner] at hnone
      rw [h.copyOf?_eq hqowner, h'.copyOf?_eq hqowner, hcopies, hnone]
    · rw [hsession, if_pos rfl]

/-- Calls for one file leave every other as it is in memory, whether they succeed or fail. A move
leaves all but its two files, and it leaves them too if they are one file. Else the new file has
what the old one had, or else keeps its own, and nothing is left under the old one. -/
theorem files_apart (h : Reachable s w) :
    (∀ c path file, Call.subject? c = some path → Path.normalize? path ≠ some file →
      w.Agree file (c.after w)) ∧
    ∀ old new moved w', (move old new).perform w = (.ok moved, w') →
      ∃ p q, Path.normalize? old = some p ∧ Path.normalize? new = some q ∧
        (∀ file, file ≠ p → file ≠ q → w.Agree file w') ∧
        (p = q → w.Agree p w') ∧ (p ≠ q → w.Moved p q w') := by
  refine ⟨fun c path file hsubject hother => ?_, fun old new moved w' => h.proper.moved⟩
  obtain ⟨hkeeps, hsession⟩ := h.keyed.keeps hsubject hother
  exact ⟨hkeeps.copyOf?_eq h.proper (h.proper.after c), hsession⟩

theorem files_apart_suspended : Reachable sampleShadows movedWorld ∧
    (movedWorld.copyOf? "/p/b").isSome = true ∧
    movedWorld.store.tracking.state? "/p/b" = some .suspended ∧
    movedWorld.Agree "/p/b" ((Call.start "p//a").after movedWorld) ∧
    ∃ moved w', (move "/p/b" "p/./c").perform movedWorld = (.ok moved, w') ∧
      movedWorld.Moved "/p/b" "/p/c" w' := by
  have hreachable : Reachable sampleShadows movedWorld := .call (.call (.call (.new _ _) _) _) _
  obtain ⟨hcalls, hmoves⟩ := files_apart hreachable
  have hok : ((move "/p/b" "p/./c").perform movedWorld).1.isOk = true := by cbv
  cases hmove : (move "/p/b" "p/./c").perform movedWorld with
  | mk result w' =>
    rw [hmove] at hok
    cases result with
    | error e => cases hok
    | ok moved =>
      obtain ⟨p, q, hp, hq, -, -, hdiffer⟩ := hmoves _ _ _ _ hmove
      obtain rfl : "/p/b" = p := Option.some.inj (Eq.trans (by decide +kernel) hp)
      obtain rfl : "/p/c" = q := Option.some.inj (Eq.trans (by decide +kernel) hq)
      exact ⟨hreachable, by cbv, by cbv, hcalls (.start "p//a") _ _ rfl (by decide +kernel),
        moved, w', rfl, hdiffer (by decide)⟩

end EditorSync.Store

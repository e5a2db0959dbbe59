import Mathlib
import EditorSync.Proofs.Store.Run
import EditorSync.Proofs.Store.Transitions

namespace EditorSync.Store

open WorkingCopy (Key)

variable {w w' : World} {key : Key} {path : String} {c : Call} {e : SyncError}

def Call.Fails (w : World) (e : SyncError) : Call → Prop
  | start path => ((Store.start path).perform w).1 = .error e
  | stop path => ((Store.stop path).perform w).1 = .error e
  | suspend path => ((Store.suspend path).perform w).1 = .error e
  | resume path => ((Store.resume path).perform w).1 = .error e
  | move old new => ((Store.move old new).perform w).1 = .error e
  | apply changes => ((Store.apply changes).perform w).1 = .error e
  | discardFile path => ((Store.discardFile path).perform w).1 = .error e
  | discardProject project => ((Store.discardProject project).perform w).1 = .error e

theorem Creates.copies {r : Except SyncError WorkingCopy} (h : Creates w key r w') :
    w'.store.copies = w.store.copies ∨ w.store.copies.get? key = none ∧
      ∃ content, w'.store.copies = w.store.copies.insert key (.new key content) := by
  cases h with
  | known hcopy => exact .inl rfl
  | failed hnone herror => exact .inl rfl
  | loaded hnone hcontent => exact .inr ⟨hnone, _, rfl⟩
  | @made content hnone hcontent =>
    refine .inr ⟨hnone, content, ?_⟩
    dsimp only [World.put]
    rw [World.persisted_copies]
    rfl

/-- A start that fails because a content could not be read. -/
structure HalfStarted (w : World) (path : String) (key : Key) (e : SyncError) (w' : World) :
    Prop where
  addressed : w.store.key w.disk path = .ok key
  cause : w.store.initialContent w.disk key = .error e ∨
    w'.store.shadows.readReal w'.disk key.file = .error e
  tracking : w'.store.tracking = w.store.tracking.start key.file
  copies : w'.store.copies = w.store.copies ∨ w.store.copies.get? key = none ∧
    ∃ content, w'.store.copies = w.store.copies.insert key (.new key content)

theorem start_error (h : ((start path).perform w).1 = .error e) :
    ((start path).perform w).2 = w ∨
      ∃ key, HalfStarted w path key e ((start path).perform w).2 := by
  have hstarts := starts w path
  rw [h] at hstarts
  generalize ((start path).perform w).2 = w' at hstarts
  cases hstarts with
  | unaddressed => exact .inl rfl
  | @failed key _ _ hkey hcreate =>
    cases hcreate with
    | failed _ herror => exact .inr ⟨key, hkey, .inl herror, rfl, .inl rfl⟩
  | @unread key _ _ _ hkey hcreate _ hreal =>
    exact .inr ⟨key, hkey, .inr hreal, hcreate.tracking, hcreate.copies⟩

structure HalfForgotten (w : World) (path project : String) (e : SyncError) (w' : World) :
    Prop where
  addressed : Path.normalize? path = some project
  cause : (w.store.shadows.removeProject w.disk project).2 = .error e
  tracking : w'.store.tracking = w.store.tracking.removeUnder project
  copies : w'.store.copies = w.store.copies.filter fun key _ => key.project ≠ project

theorem discardProject_error (h : ((discardProject path).perform w).1 = .error e) :
    ((discardProject path).perform w).2 = w ∨
      ∃ project, HalfForgotten w path project e ((discardProject path).perform w).2 := by
  rw [perform_discardProject] at h ⊢
  cases hproject : Workspace.normalize path with
  | error e => exact .inl rfl
  | ok project =>
    rw [hproject] at h
    dsimp only at h
    cases hremove : (w.store.shadows.removeProject w.disk project).2 with
    | ok _ =>
      rw [hremove] at h
      cases h
    | error e' =>
      rw [hremove] at h
      cases h
      exact .inr ⟨project, Workspace.normalize_eq_ok_iff.mp hproject, hremove, rfl, rfl⟩

/-- A call that fails leaves everything as it was, but a start or the end of a project may have
been left halfway. -/
theorem unchanged_of_fails (hfails : c.Fails w e) (hlifecycle : ∀ changes, c ≠ .apply changes) :
    c.after w = w ∨
      (∃ path key, c = .start path ∧ HalfStarted w path key e (c.after w)) ∨
      ∃ path project, c = .discardProject path ∧ HalfForgotten w path project e (c.after w) := by
  cases c with
  | start path =>
    rcases start_error hfails with hsame | ⟨key, hhalf⟩
    · exact .inl hsame
    · exact .inr (.inl ⟨path, key, rfl, hhalf⟩)
  | discardProject path =>
    rcases discardProject_error hfails with hsame | ⟨project, hhalf⟩
    · exact .inl hsame
    · exact .inr (.inr ⟨path, project, rfl, hhalf⟩)
  | apply changes => exact absurd rfl (hlifecycle changes)
  | stop path =>
    left
    simp only [Call.Fails, Call.after, perform_stop] at hfails ⊢
    cases hkey : w.store.key w.disk path with
    | error e => rfl
    | ok key =>
      rw [hkey] at hfails
      cases hfails
  | discardFile path =>
    left
    simp only [Call.Fails, Call.after, perform_discardFile] at hfails ⊢
    cases hkey : w.store.key w.disk path with
    | error e => rfl
    | ok key =>
      rw [hkey] at hfails
      cases hfails
  | suspend path =>
    left
    simp only [Call.Fails, Call.after, perform_suspend] at hfails ⊢
    cases hfile : Workspace.normalize path with
    | error e => rfl
    | ok file =>
      rw [hfile] at hfails
      cases hfails
  | resume path =>
    left
    simp only [Call.Fails, Call.after, perform_resume] at hfails ⊢
    cases hfile : Workspace.normalize path with
    | error e => rfl
    | ok file =>
      rw [hfile] at hfails
      cases hfails
  | move old new =>
    left
    simp only [Call.Fails, Call.after, perform_move] at hfails ⊢
    cases hold : w.store.key w.disk old with
    | error e => rfl
    | ok oldKey =>
      cases hnew : w.store.key w.disk new with
      | error e => rfl
      | ok newKey =>
        rw [hold, hnew] at hfails
        dsimp only at hfails
        split at hfails <;> cases hfails

def bareDisk : Disk := ⟨.ofList [(["ws"], .dir), (["ws", "p"], .dir)]⟩

def unreadableWorld : World :=
  let started := (Call.start "/p/a").after
    ⟨.new ⟨.ofRoot bareDisk "/ws", ".tandem"⟩ { Settings.default with persist := false }, bareDisk⟩
  { (Call.suspend "/p/a").after started with disk := bareDisk.put ["ws", "p", "a"] (.file [0xff]) }

theorem unreadableWorld_fails : (Call.start "/p/a").Fails unreadableWorld
    (.io "/ws/p/a" "stream did not contain valid UTF-8") := by
  unfold Call.Fails
  cbv

theorem unreadableWorld_state :
    unreadableWorld.store.trackingState? "/p/a" = some .suspended ∧
      ((Call.start "/p/a").after unreadableWorld).store.trackingState? "/p/a" = some .started := by
  constructor <;> cbv

theorem unchanged_of_fails_unreadable : ∃ e key, (Call.start "/p/a").Fails unreadableWorld e ∧
    HalfStarted unreadableWorld "/p/a" key e ((Call.start "/p/a").after unreadableWorld) := by
  rcases unchanged_of_fails unreadableWorld_fails (by simp) with
    hsame | ⟨path, key, hcall, hhalf⟩ | ⟨path, project, hcall, -⟩
  · have hstate := unreadableWorld_state
    rw [hsame] at hstate
    cases hstate.1.symm.trans hstate.2
  · cases hcall
    exact ⟨_, key, unreadableWorld_fails, hhalf⟩
  · cases hcall

theorem failed_start_resumes :
    ∃ e, (Call.start "/p/a").Fails unreadableWorld e ∧
      unreadableWorld.store.trackingState? "/p/a" = some .suspended ∧
      ((Call.start "/p/a").after unreadableWorld).store.trackingState? "/p/a" = some .started :=
  ⟨_, unreadableWorld_fails, unreadableWorld_state⟩

end EditorSync.Store

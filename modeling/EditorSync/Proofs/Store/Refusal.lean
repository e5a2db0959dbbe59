import Mathlib
import EditorSync.Proofs.Store.Restart
import EditorSync.Proofs.Store.Transitions

namespace EditorSync.Store

open Disk (Gains)
open WorkingCopy (Key)

variable {w w' : World} {key : Key} {path : String} {changes : EditorChanges}

/-- A file gets a working copy with its shadow or else its real text. In the second case this
text may come to the place of its shadow, and nothing else is written. -/
inductive World.Begins (w : World) (key : Key) (w' : World) : Prop
  | shadow {content : String} (hpersist : w.store.settings.persist = true)
    (hread : w.store.shadows.read w.disk key.project key.file = .ok (some content))
    (hcopies : w'.store.copies = w.store.copies.insert key (.new key content))
    (hdisk : w'.disk = w.disk)
  | real {text : Option String}
    (hread : w.store.settings.persist = true →
      w.store.shadows.read w.disk key.project key.file = .ok none)
    (hreal : w.store.shadows.readReal w.disk key.file = .ok text)
    (hcopies : w'.store.copies = w.store.copies.insert key (.new key (text.getD "")))
    (hgains : ∃ place,
      Gains (fun p => p = place ∧ w.store.shadows.Own w.disk key.project key.file p)
        (Text.encode (text.getD "")) w.disk w'.disk)
    (hoff : w.store.settings.persist = false → w'.disk = w.disk)

theorem World.Begins.keeps (h : w.Begins key w') (hnone : w.store.copies.get? key = none)
    {k : Key} {copy : WorkingCopy} (hcopy : w.store.copies.get? k = some copy) :
    w'.store.copies.get? k = some copy := by
  have hne : k ≠ key := by
    rintro rfl
    rw [hnone] at hcopy
    cases hcopy
  cases h with
  | shadow _ _ hcopies => rw [hcopies, Table.get?_insert, if_neg hne, hcopy]
  | real _ _ hcopies => rw [hcopies, Table.get?_insert, if_neg hne, hcopy]

theorem Creates.begins {r : Except SyncError WorkingCopy} (h : Creates w key r w')
    (hfile : Shadows.IsFile key.file) (hunlinked : w.store.shadows.Unlinked w.disk key.project) :
    w' = w ∨ w.store.copies.get? key = none ∧ w.Begins key w' := by
  cases h with
  | known hcopy => exact .inl rfl
  | failed hnone herror => exact .inl rfl
  | loaded hnone hcontent =>
    refine .inr ⟨hnone, ?_⟩
    rcases initialContent_eq_ok hcontent with ⟨-, hpersist, hread⟩ | ⟨hfalse, -⟩
    · exact .shadow hpersist hread rfl rfl
    · cases hfalse
  | @made content hnone hcontent =>
    refine .inr ⟨hnone, ?_⟩
    rcases initialContent_eq_ok hcontent with ⟨htrue, -⟩ | ⟨-, hread, text, hreal, rfl⟩
    · cases htrue
    have hdisk := w.persisted_disk (.new key (text.getD ""))
    refine .real hread hreal ?_ ?_ fun hoff => ?_
    · dsimp only [World.put]
      rw [World.persisted_copies]
      rfl
    · dsimp only [World.put]
      rw [hdisk]
      split
      · exact Shadows.write_gains hfile hunlinked
      · exact ⟨[], (Disk.Grows.refl _).gains⟩
    · dsimp only [World.put]
      rw [hdisk, if_neg (Bool.eq_false_iff.mp hoff)]

end EditorSync.Store

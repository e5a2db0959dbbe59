import EditorSync.Proofs.Shadows
import EditorSync.Proofs.Store.Actions

namespace EditorSync.Store

open Disk (Grounds Alters)
open WorkingCopy (Key)
open Shadows (Rooted IsFile flatten)

structure Setup where
  shadows : Shadows
  settings : Settings
  base : List String
  used : String → Prop
  rest : Key → String → Prop

structure Setup.Serves (r : Setup) : Prop where
  rooted : r.shadows.Rooted r.base
  apart : ∀ file project, r.used file → r.shadows.workspace.owner? file = some project →
    r.shadows.metadataDir ∉ Path.names project
  distinct : ∀ file file', r.used file → r.used file' → flatten file = flatten file' → file = file'

structure Setup.Addresses (r : Setup) (key : Key) : Prop where
  used : r.used key.file
  normal : Path.normalize? key.file = some key.file
  owner : r.shadows.workspace.owner? key.file = some key.project

def Setup.Awake (r : Setup) (key : Key) : Prop := r.Addresses key ∧ ∀ content, ¬r.rest key content

def Setup.Holds (r : Setup) (w : World) (key : Key) (content : String) : Prop :=
  (∃ copy, w.store.copies.get? key = some copy ∧ copy.content = content) ∨ r.rest key content

structure Setup.Durable (r : Setup) (loose : Key → Prop) (w : World) : Prop where
  shadows_eq : w.store.shadows = r.shadows
  settings_eq : w.store.settings = r.settings
  grounds : w.disk.Grounds r.shadows.workspace.root r.base
  keyed : ∀ key copy, w.store.copies.get? key = some copy → copy.key = key ∧ r.Addresses key
  resting : ∀ key content, r.rest key content →
    w.store.copies.get? key = none ∧ r.Addresses key
  kept : ∀ key content, ¬loose key → r.Holds w key content →
    r.shadows.read w.disk key.project key.file = .ok (some content)

variable {r : Setup} {loose : Key → Prop} {w : World} {key key' : Key} {disk : Disk}
variable {content : String} {copy : WorkingCopy}

theorem Setup.Addresses.isFile (hserves : r.Serves) (h : r.Addresses key) :
    Path.normalize? key.project = some key.project ∧ IsFile key.file := by
  obtain ⟨hproject, hne⟩ := Workspace.owner?_normal hserves.rooted.normal h.normal h.owner
  exact ⟨hproject, h.normal, hne⟩

theorem Setup.Addresses.eq_of_names (hserves : r.Serves)
    (h : r.Addresses key) (h' : r.Addresses key')
    (hinit : r.shadows.names key.project key.file <+: r.shadows.names key'.project key'.file) :
    key = key' := by
  have hapart := hserves.apart _ _ h'.used h'.owner
  have hfile : key.file = key'.file :=
    hserves.distinct _ _ h.used h'.used (Shadows.flatten_eq_of_names hapart hinit)
  have hproject : key.project = key'.project := by
    have howner := h.owner
    rw [hfile, h'.owner, Option.some.injEq] at howner
    exact howner.symm
  obtain ⟨project, file⟩ := key
  obtain ⟨project', file'⟩ := key'
  simp only [Key.mk.injEq]
  exact ⟨hproject, hfile⟩

theorem Setup.Durable.addresses (h : r.Durable loose w)
    (hholds : r.Holds w key content) : r.Addresses key := by
  rcases hholds with ⟨copy, hcopy, -⟩ | hrest
  · exact (h.keyed key copy hcopy).2
  · exact (h.resting key content hrest).2

theorem Setup.Durable.loosen {loose' : Key → Prop} (h : r.Durable loose w)
    (hloose : ∀ k, loose k → loose' k) : r.Durable loose' w :=
  ⟨h.shadows_eq, h.settings_eq, h.grounds, h.keyed, h.resting,
    fun k c hk => h.kept k c fun hl => hk (hloose k hl)⟩

theorem Setup.Durable.alter {touched : List String → Prop} (hserves : r.Serves)
    (h : r.Durable loose w) (halters : Alters r.base touched w.disk disk)
    (hspared : ∀ k c, ¬loose k → r.Holds w k c →
      ∀ above, above <+: r.shadows.names k.project k.file → ¬touched (r.base ++ above)) :
    r.Durable loose { w with disk := disk } := by
  refine ⟨h.shadows_eq, h.settings_eq, h.grounds.alter halters, h.keyed, h.resting, ?_⟩
  intro k c hk hholds
  obtain ⟨hproject, hfile⟩ := (h.addresses hholds).isFile hserves
  exact Shadows.read_alter hserves.rooted h.grounds hproject hfile halters (hspared k c hk hholds)
    (h.kept k c hk hholds)

theorem Setup.Durable.write (hserves : r.Serves) (h : r.Durable (· = key) w)
    (hkey : r.Addresses key)
    (hwrite : (r.shadows.write w.disk key.project key.file content).2 = .ok ()) :
    r.Durable (· = key)
        { w with disk := (r.shadows.write w.disk key.project key.file content).1 } ∧
      r.shadows.read (r.shadows.write w.disk key.project key.file content).1 key.project key.file =
        .ok (some content) := by
  obtain ⟨hproject, hfile⟩ := hkey.isFile hserves
  obtain ⟨halters, hread⟩ := Shadows.write_ok hserves.rooted h.grounds hproject hfile hwrite
  refine ⟨h.alter hserves halters fun k c hk hholds above habove heq => ?_, hread⟩
  rw [List.append_cancel_left heq] at habove
  exact hk (hkey.eq_of_names hserves (h.addresses hholds) habove).symm

theorem Setup.Durable.put (h : r.Durable (· = copy.key) w) (hkey : r.Awake copy.key) :
    r.Durable (· = copy.key)
      { w with store := { w.store with copies := w.store.copies.insert copy.key copy } } := by
  refine ⟨h.shadows_eq, h.settings_eq, h.grounds, fun k c hc => ?_, fun k c hc => ?_,
    fun k c hk hholds => ?_⟩
  · rw [Table.get?_insert] at hc
    split at hc
    · rename_i heq
      rw [Option.some.injEq] at hc
      subst hc
      exact ⟨heq.symm, heq ▸ hkey.1⟩
    · exact h.keyed k c hc
  · refine ⟨?_, (h.resting k c hc).2⟩
    rw [Table.get?_insert, if_neg fun heq : k = copy.key => hkey.2 c (heq ▸ hc)]
    exact (h.resting k c hc).1
  · refine h.kept k c hk ?_
    rcases hholds with ⟨copy', hcopy', hcontent⟩ | hresting
    · rw [Table.get?_insert, if_neg hk] at hcopy'
      exact .inl ⟨copy', hcopy', hcontent⟩
    · exact .inr hresting

theorem Setup.Durable.settle (h : r.Durable (· = copy.key) w) (hkey : r.Awake copy.key)
    (hcopy : w.store.copies.get? copy.key = some copy)
    (hread : r.shadows.read w.disk copy.key.project copy.key.file = .ok (some copy.content)) :
    r.Durable (fun _ => False) w := by
  refine ⟨h.shadows_eq, h.settings_eq, h.grounds, h.keyed, h.resting, fun k c _ hholds => ?_⟩
  by_cases hk : k = copy.key
  · subst hk
    rcases hholds with ⟨copy', hcopy', rfl⟩ | hresting
    · rw [hcopy, Option.some.injEq] at hcopy'
      exact hcopy' ▸ hread
    · exact absurd hresting (hkey.2 c)
  · exact h.kept k c hk hholds

theorem Setup.Durable.track (h : r.Durable loose w) (tracking : Tracking) :
    r.Durable loose { w with store := { w.store with tracking := tracking } } :=
  ⟨h.shadows_eq, h.settings_eq, h.grounds, h.keyed, h.resting, h.kept⟩

theorem Setup.Durable.filter (h : r.Durable loose w)
    (keep : Key → Bool) : r.Durable loose
      { w with store := { w.store with copies := w.store.copies.filter fun k _ => keep k } } := by
  have hsub (k : Key) (c : WorkingCopy)
      (hc : (w.store.copies.filter fun k _ => keep k).get? k = some c) :
      w.store.copies.get? k = some c := by
    rw [Table.get?_filter, Option.filter_eq_some_iff] at hc
    exact hc.1
  refine ⟨h.shadows_eq, h.settings_eq, h.grounds, fun k c hc => h.keyed k c (hsub k c hc),
    fun k c hc => ⟨?_, (h.resting k c hc).2⟩, fun k c hk hholds => h.kept k c hk ?_⟩
  · rw [Table.get?_filter, (h.resting k c hc).1]
    rfl
  · rcases hholds with ⟨copy', hcopy', hcontent⟩ | hresting
    · exact .inl ⟨copy', hsub k copy' hcopy', hcontent⟩
    · exact .inr hresting

theorem Setup.Durable.remove (hserves : r.Serves)
    (h : r.Durable loose w) (hkey : r.Addresses key)
    (hnone : ∀ c, ¬r.Holds w key c) :
    r.Durable loose
      { w with disk := (r.shadows.remove w.disk key.project key.file).1 } := by
  obtain ⟨hproject, hfile⟩ := hkey.isFile hserves
  have halters := (Shadows.remove_alters hserves.rooted h.grounds hproject hfile).1
  refine h.alter hserves halters fun k c _ hholds above habove heq => ?_
  rw [List.append_cancel_left heq] at habove
  have hsame := hkey.eq_of_names hserves (h.addresses hholds) habove
  exact hnone c (hsame ▸ hholds)

theorem Setup.Durable.move {old new : Key} (hserves : r.Serves)
    (h : r.Durable (fun _ => False) w)
    (hold : w.store.copies.get? old = some copy) (hnew : r.Awake new)
    (hrename : (r.shadows.rename w.disk old.project old.file new.project new.file).2 = .ok ()) :
    r.Durable (fun _ => False)
      { store := { w.store with
          copies := (w.store.copies.erase old).insert new { copy with key := new } }
        disk := (r.shadows.rename w.disk old.project old.file new.project new.file).1 } := by
  obtain ⟨-, hkey⟩ := h.keyed old copy hold
  obtain ⟨hproject, hfile⟩ := hkey.isFile hserves
  obtain ⟨hproject', hfile'⟩ := hnew.1.isFile hserves
  have hread := h.kept old copy.content id (.inl ⟨copy, hold, rfl⟩)
  have halters := (Shadows.rename_alters hserves.rooted h.grounds hproject hfile hproject' hfile').1
  have hmoved := Shadows.read_rename hserves.rooted h.grounds hproject hfile hproject' hfile' hread
    hrename
  refine ⟨h.shadows_eq, h.settings_eq, h.grounds.alter halters, fun k c hc => ?_,
    fun k c hc => ⟨?_, (h.resting k c hc).2⟩, fun k c _ hholds => ?_⟩
  · rw [Table.get?_insert] at hc
    split at hc
    · rename_i heq
      rw [Option.some.injEq] at hc
      subst hc
      exact ⟨heq.symm, heq ▸ hnew.1⟩
    · rw [Table.get?_erase] at hc
      split at hc
      · cases hc
      · exact h.keyed k c hc
  · rw [Table.get?_insert, if_neg fun heq : k = new => hnew.2 c (heq ▸ hc), Table.get?_erase]
    split
    · rfl
    · exact (h.resting k c hc).1
  · by_cases hk : k = new
    · subst hk
      rcases hholds with ⟨copy', hcopy', rfl⟩ | hresting
      · rw [Table.get?_insert_self, Option.some.injEq] at hcopy'
        exact hcopy' ▸ hmoved
      · exact absurd hresting (hnew.2 c)
    · -- The other files keep their contents, and their shadows are apart from both places.
      have hbefore : r.Holds w k c ∧ k ≠ old := by
        rcases hholds with ⟨copy', hcopy', hcontent⟩ | hresting
        · rw [Table.get?_insert, if_neg hk, Table.get?_erase] at hcopy'
          split at hcopy'
          · cases hcopy'
          · exact ⟨.inl ⟨copy', hcopy', hcontent⟩, ‹_›⟩
        · refine ⟨.inr hresting, ?_⟩
          rintro rfl
          rw [(h.resting k c hresting).1] at hold
          cases hold
      have hkey' := h.addresses hbefore.1
      obtain ⟨hprojectk, hfilek⟩ := hkey'.isFile hserves
      refine Shadows.read_alter hserves.rooted h.grounds hprojectk hfilek halters ?_
        (h.kept k c id hbefore.1)
      intro above habove htouched
      rcases htouched with hunder | hunder
      · have hinit := ((List.prefix_append_right_inj r.base).mp hunder).trans habove
        exact hbefore.2 (hkey.eq_of_names hserves hkey' hinit).symm
      · have hinit := ((List.prefix_append_right_inj r.base).mp hunder).trans habove
        exact hk (hnew.1.eq_of_names hserves hkey' hinit).symm

theorem Setup.Durable.removeProject {project : String} (hserves : r.Serves)
    (h : r.Durable (fun _ => False) w)
    (hproject : Path.normalize? project = some project)
    (hnone : ∀ k c, r.Holds w k c → k.project ≠ project) :
    r.Durable (fun _ => False)
      { w with disk := (r.shadows.removeProject w.disk project).1 } := by
  have hgrounds := Shadows.removeProject_grounds hserves.rooted h.grounds hproject
  refine ⟨h.shadows_eq, h.settings_eq, hgrounds, h.keyed, h.resting, fun k c _ hholds => ?_⟩
  have hkey := h.addresses hholds
  obtain ⟨hprojectk, hfilek⟩ := hkey.isFile hserves
  exact (Shadows.read_removeProject hserves.rooted h.grounds hproject hprojectk hfilek
    (hserves.apart _ _ hkey.used hkey.owner) (hnone k c hholds)).mpr (h.kept k c id hholds)

end EditorSync.Store

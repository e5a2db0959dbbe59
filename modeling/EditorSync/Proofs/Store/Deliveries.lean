import EditorSync.Proofs.Store.Identity
import EditorSync.Proofs.WorkingCopy.Turns

namespace EditorSync.Store

open WorkingCopy (Key)

variable {shadows : Shadows} {w w' : World} {key : Key} {path file : String}
variable {m : EditorChanges}

def World.text? (w : World) (file : String) : Option String :=
  (w.store.copies.entries.find? fun entry => entry.1.file = file).map (·.2.content)

def World.copyFor? (w : World) (key : Key) : Option WorkingCopy :=
  (w.store.copies.get? key).or
    ((w.store.initialContent w.disk key).toOption.map fun initial => .new key initial.1)

def World.textsOnDelivery (w : World) (m : EditorChanges) : List String :=
  match m.toDelta, w.store.key w.disk m.file with
  | .ok delta, .ok key =>
    if Path.normalize? m.project = some key.project ∧ w.store.tracking.acceptsDeltas key.file then
      (w.copyFor? key).elim [] fun copy =>
        copy.textsOnDelivery w.store.settings.encoding delta m.seq
    else []
  | _, _ => []

theorem World.Proper.text?_eq (h : w.Proper shadows)
    (howner : shadows.workspace.owner? key.file = some key.project) :
    w.text? key.file = (w.store.copies.get? key).map (·.content) := by
  unfold World.text?
  cases hfound : w.store.copies.entries.find? fun entry => entry.1.file = key.file with
  | some entry =>
    obtain ⟨key', copy⟩ := entry
    have hfile : key'.file = key.file := by simpa using List.find?_some hfound
    have hcopy : w.store.copies.get? key' = some copy :=
      (Table.get?_eq_some_iff _ _ _).mpr (List.mem_of_find?_eq_some hfound)
    obtain rfl : key' = key := (h.copies key' copy hcopy).key_unique (hfile ▸ howner) hfile
    rw [hcopy]
    rfl
  | none =>
    cases hcopy : w.store.copies.get? key with
    | none => rfl
    | some copy =>
      have hmem := (Table.get?_eq_some_iff _ _ _).mp hcopy
      exact absurd (decide_eq_true rfl) (List.find?_eq_none.mp hfound _ hmem)

theorem Creates.settings {r : Except SyncError WorkingCopy} (h : Creates w key r w') :
    w'.store.settings = w.store.settings := by
  cases h with
  | made => exact w.persisted_settings _
  | _ => rfl

theorem Creates.copyFor? {r : Except SyncError WorkingCopy} (h : Creates w key r w') :
    w.copyFor? key = r.toOption := by
  unfold World.copyFor?
  cases h with
  | known hcopy => rw [hcopy]; rfl
  | loaded hnone hcontent | made hnone hcontent => rw [hnone, hcontent]; rfl
  | failed hnone herror => rw [hnone, herror]; rfl

theorem Starts.text?_eq {snapshot : Snapshot} (h : Starts w path (.ok snapshot) w')
    (hproper : w.Proper shadows) : Path.normalize? path = some snapshot.key.file ∧
      w'.text? snapshot.key.file = some snapshot.content := by
  have hstored {w₁ : World} {copy : WorkingCopy} (hw₁ : (w₁.put copy).Proper shadows) :
      (w₁.put copy).text? copy.key.file = some copy.content := by
    have hcopy : (w₁.put copy).store.copies.get? copy.key = some copy := Table.get?_insert_self _ _ _
    rw [hw₁.text?_eq (hw₁.copies _ _ hcopy).owner, hcopy]
    rfl
  have hproper' := h.proper hproper
  cases h with
  | @kept key copy _ hkey hcreate =>
    have hsame : copy.key = key := ((hcreate.proper_started hproper hkey).2 copy rfl).key_eq
    exact ⟨(key_eq_ok hkey).1.trans (congrArg (some ·.file) hsame.symm), hstored hproper'⟩
  | @renewed key copy _ _ hkey hcreate =>
    have hsame : copy.key = key := ((hcreate.proper_started hproper hkey).2 copy rfl).key_eq
    exact ⟨(key_eq_ok hkey).1.trans (congrArg (some ·.file) hsame.symm), hstored hproper'⟩

theorem World.textsOnDelivery_of_key {delta : Delta} (hdelta : m.toDelta = .ok delta)
    (hkey : w.store.key w.disk m.file = .ok key)
    (hproject : Workspace.normalize m.project = .ok key.project)
    (haccepts : w.store.tracking.acceptsDeltas key.file = true) :
    w.textsOnDelivery m = (w.copyFor? key).elim [] fun copy =>
      copy.textsOnDelivery w.store.settings.encoding delta m.seq := by
  simp only [World.textsOnDelivery, hdelta, hkey]
  rw [if_pos ⟨Workspace.normalize_eq_ok_iff.mp hproject, haccepts⟩]

theorem World.textsOnDelivery_eq_nil
    (h : ∀ delta key copy, m.toDelta = .ok delta → w.store.key w.disk m.file = .ok key →
      Workspace.normalize m.project = .ok key.project →
      w.store.tracking.acceptsDeltas key.file = true → w.copyFor? key = some copy →
        copy.textsOnDelivery w.store.settings.encoding delta m.seq = []) :
    w.textsOnDelivery m = [] := by
  unfold World.textsOnDelivery
  split
  · rename_i delta key hdelta hkey
    split
    · rename_i hcond
      cases hcopy : w.copyFor? key with
      | none => rfl
      | some copy =>
        exact h delta key copy hdelta hkey (Workspace.normalize_eq_ok_iff.mpr hcond.1) hcond.2 hcopy
    · rfl
  · rfl

theorem Applies.textsOnDelivery_of_applied {steps : List (WorkingCopy.Applied × Snapshot)}
    (h : Applies w m (.ok (.applied steps)) w') :
    (∀ step ∈ steps, Path.normalize? m.file = some step.2.key.file) ∧ steps ≠ [] ∧
      steps.map (·.2.content) = w.textsOnDelivery m := by
  cases h with
  | @taken key copy copy' delta applied _ hdelta hkey hproject haccepts hcreate _ happly hne =>
    refine ⟨fun step hstep => ?_, fun hnil => hne (List.map_eq_nil_iff.mp hnil), ?_⟩
    · obtain ⟨a, -, rfl⟩ := List.mem_map.mp hstep
      exact (key_eq_ok hkey).1
    · rw [hcreate.settings] at happly
      rw [List.map_map, World.textsOnDelivery_of_key hdelta hkey hproject haccepts,
        hcreate.copyFor?]
      exact WorkingCopy.contents_of_apply _ _ happly

theorem Applies.textsOnDelivery_of_not_applied {r : Except SyncError ApplyOutcome}
    (h : Applies w m r w') (hproper : w.Proper shadows)
    (hr : ∀ steps, r ≠ .ok (.applied steps)) : w.textsOnDelivery m = [] := by
  cases h with
  | undecoded hdelta =>
    refine World.textsOnDelivery_eq_nil fun _ _ _ hdelta' => ?_
    cases hdelta.symm.trans hdelta'
  | unaddressed hkey =>
    refine World.textsOnDelivery_eq_nil fun _ _ _ _ hkey' => ?_
    cases hkey.symm.trans hkey'
  | outside hproject =>
    refine World.textsOnDelivery_eq_nil fun _ _ _ _ _ hproject' => ?_
    cases hproject.symm.trans hproject'
  | foreign hkey hproject hother =>
    refine World.textsOnDelivery_eq_nil fun _ _ _ _ hkey' hproject' => ?_
    cases hkey.symm.trans hkey'
    cases hproject.symm.trans hproject'
    exact absurd rfl hother
  | suspended hkey hrefuses =>
    refine World.textsOnDelivery_eq_nil fun _ _ _ _ hkey' _ haccepts => ?_
    cases hkey.symm.trans hkey'
    cases hrefuses.symm.trans haccepts
  | failed hkey hcreate =>
    refine World.textsOnDelivery_eq_nil fun _ _ _ _ hkey' _ _ hcopy => ?_
    cases hkey.symm.trans hkey'
    cases hcreate.copyFor?.symm.trans hcopy
  | @discarded key copy _ hkey hcreate hdiscarded =>
    have hlive := ((hcreate.proper_addressed hproper hkey).2 copy rfl).live
    cases hdiscarded.symm.trans hlive
  | @rejected key copy delta e _ hdelta hkey hcreate happly =>
    refine World.textsOnDelivery_eq_nil fun _ _ _ hdelta' hkey' _ _ hcopy => ?_
    cases hdelta.symm.trans hdelta'
    cases hkey.symm.trans hkey'
    cases hcreate.copyFor?.symm.trans hcopy
    rw [hcreate.settings] at happly
    exact WorkingCopy.textsOnDelivery_of_error _ happly
  | @held key copy copy' delta _ hdelta hkey hproject haccepts hcreate _ happly =>
    rw [hcreate.settings] at happly
    rw [World.textsOnDelivery_of_key hdelta hkey hproject haccepts, hcreate.copyFor?]
    exact (WorkingCopy.contents_of_apply _ _ happly).symm
  | taken => exact absurd rfl (hr _)

end EditorSync.Store

import EditorSync.Proofs.Store.Separation

namespace EditorSync.Path

variable {name : String}

theorem ofNames_append {front rest : List String} (hfront : front ≠ []) (hrest : rest ≠ []) :
    ofNames (front ++ rest) = ofNames front ++ "/" ++ join rest := by
  rw [ofNames, ofNames, join, String.intercalate_append_of_ne_nil hfront hrest, join, join]
  simp only [String.append_assoc]

theorem exists_ofNames_concat (above : List String) (name : String) :
    ∃ stem, ofNames (above ++ [name]) = stem ++ name := by
  have hname : join [name] = name := String.intercalate_singleton
  by_cases habove : above = []
  · refine ⟨"/", ?_⟩
    rw [habove, List.nil_append, ofNames, hname]
  · refine ⟨ofNames above ++ "/", ?_⟩
    rw [ofNames_append habove (List.cons_ne_nil _ _), hname]

theorem dropWhile_slash_ofNames {above : List String} (hname : Plain name) :
    (ofNames (above ++ [name])).toList.reverse.dropWhile (· = '/') =
      (ofNames (above ++ [name])).toList.reverse := by
  obtain ⟨stem, hstem⟩ := exists_ofNames_concat above name
  obtain ⟨hempty, -, -, hslash⟩ := hname
  rw [hstem, String.toList_append, List.reverse_append]
  cases hreverse : name.toList.reverse with
  | nil =>
    rw [List.reverse_eq_nil_iff, String.toList_eq_nil_iff] at hreverse
    exact absurd hreverse hempty
  | cons c rest =>
    have hc : c ≠ '/' := by
      rintro rfl
      apply hslash
      rw [← List.mem_reverse, hreverse]
      exact List.mem_cons_self
    exact List.dropWhile_cons_of_neg (by simpa using hc)

end EditorSync.Path

namespace EditorSync.Tracking

theorem isUnder_of_isProperAncestor {dir file : String} (hdir : Path.normalize? dir = some dir)
    (hfile : Path.normalize? file = some file) (h : Path.isProperAncestor dir file = true) :
    isUnder dir file = true := by
  obtain ⟨-, hofNames, hplain⟩ := Path.normalize?_normal hdir
  obtain ⟨rest, hrest, hnames⟩ := (Path.isProperAncestor_normal hdir hfile).mp h
  have hwhole : file = Path.ofNames (Path.names dir ++ rest) := by
    rw [← hnames]
    exact (Path.normalize?_normal hfile).2.1
  unfold isUnder
  rw [Bool.or_eq_true, List.isPrefixOf_iff_prefix]
  right
  rcases List.eq_nil_or_concat (Path.names dir) with htop | ⟨above, name, hconcat⟩
  · have hdirRoot : dir = "/" := by
      rw [hofNames, htop]
      rfl
    rw [hdirRoot, hwhole, Path.ofNames, String.toList_append]
    exact List.prefix_append _ _
  · have hname : Path.Plain name := hplain name (by simp [hconcat])
    have hne : Path.names dir ≠ [] := by simp [hconcat]
    have hstem : dir.toList.reverse.dropWhile (· = '/') = dir.toList.reverse := by
      rw [hofNames, hconcat, List.concat_eq_append]
      exact Path.dropWhile_slash_ofNames hname
    rw [hstem, List.reverse_reverse, hwhole, Path.ofNames_append hne hrest, ← hofNames,
      String.toList_append, String.toList_append]
    exact List.prefix_append _ _

end EditorSync.Tracking

namespace EditorSync.Store

open WorkingCopy (Key)

variable {s : Shadows} {w w' : World} {key : Key} {path : String}

def World.Backed (w : World) : Prop :=
  ∀ file, (w.store.tracking.state? file).isSome →
    ∃ key, key.file = file ∧ (w.store.copies.get? key).isSome

def World.Retains (w w' : World) : Prop :=
  ∀ key, (w.store.copies.get? key).isSome → (w'.store.copies.get? key).isSome

namespace World.Retains

theorem refl (w : World) : w.Retains w := fun _ h => h

theorem put {copy : WorkingCopy} (h : w.Retains w') : w.Retains (w'.put copy) := by
  intro key hkey
  rw [World.get?_put]
  split
  · rfl
  · exact h key hkey

theorem persisted {copy : WorkingCopy} (h : w.Retains w') : w.Retains (w'.persisted copy) := by
  unfold World.Retains
  rw [World.persisted_copies]
  exact h

theorem upholds (s : Shadows) (w : World) :
    Upholds (Addressed s fun _ => True)
      (fun w' => w'.Keyed s (fun _ => True) ∧ w.Retains w') where
  known _ key copy h hcopy := (h.1.copies key copy hcopy).1
  track _ f h := ⟨h.1.track f, h.2⟩
  put _ _ h hcopy := ⟨h.1.put hcopy, h.2.put⟩
  persisted _ copy h _ := ⟨h.1.persisted copy, h.2.persisted⟩

end World.Retains

namespace World.Backed

theorem retain (h : w.Backed) (hcopies : w.Retains w')
    (hsessions : ∀ file, (w'.store.tracking.state? file).isSome →
      (w.store.tracking.state? file).isSome) : w'.Backed := by
  intro file hfile
  obtain ⟨key, hkey, hcopy⟩ := h file (hsessions file hfile)
  exact ⟨key, hkey, hcopies key hcopy⟩

theorem key_of_address (h : w.Backed) (hproper : w.Proper s)
    (hkey : w.store.key w.disk path = .ok key)
    (hsome : (w.store.tracking.state? key.file).isSome) : (w.store.copies.get? key).isSome := by
  obtain ⟨key', hfile, hcopy⟩ := h key.file hsome
  obtain ⟨copy, hcopy'⟩ := Option.isSome_iff_exists.mp hcopy
  obtain ⟨-, -, howner⟩ := key_eq_ok hkey
  rw [Store.workspace, hproper.shadows_eq, ← hfile] at howner
  have hsame : key' = key := hproper.key_unique hcopy' howner hfile
  rwa [hsame] at hcopy

end World.Backed

theorem World.Backed.start (h : w.Backed) (hcopies : w.Retains w')
    (htracking : w'.store.tracking = w.store.tracking.start key.file)
    (hcopy : (w'.store.copies.get? key).isSome) : w'.Backed := by
  intro file hfile
  rw [htracking, Tracking.state?_start] at hfile
  by_cases hsame : file = key.file
  · exact ⟨key, hsame.symm, hcopy⟩
  · rw [if_neg hsame] at hfile
    obtain ⟨key', hkey', hcopy'⟩ := h file hfile
    exact ⟨key', hkey', hcopies key' hcopy'⟩

theorem Starts.backed {r : Except SyncError Snapshot} (hstarts : Starts w path r w')
    (h : Reachable s w) (hbacked : w.Backed)
    (hkept : ∀ key, w.store.key w.disk path = .ok key →
      r.isOk = true ∨ (w.store.tracking.state? key.file).isSome) : w'.Backed := by
  have hcopies : w.Retains w' :=
    (hstarts.upheld (World.Retains.upholds s w) ⟨h.keyed, .refl w⟩
      fun _ => h.keyed.addressed fun _ _ => trivial).2
  cases hstarts with
  | unaddressed => exact hbacked
  | @failed key e _ hkey hcreate =>
    rcases hkept key hkey with hok | hsome
    · cases hok
    · have hcopy := hbacked.key_of_address h.proper hkey hsome
      cases hcreate with
      | failed hnone =>
        have hnone' : w.store.copies.get? key = none := hnone
        rw [hnone'] at hcopy
        cases hcopy
  | unread hkey hcreate =>
    have hcopy := Option.isSome_of_eq_some hcreate.get?_eq
    exact hbacked.start hcopies hcreate.tracking hcopy
  | kept hkey hcreate =>
    have hcopy := Option.isSome_of_eq_some hcreate.get?_eq
    exact hbacked.start hcopies hcreate.tracking ((World.Retains.refl _).put _ hcopy)
  | renewed hkey hcreate =>
    have hcopy := Option.isSome_of_eq_some hcreate.get?_eq
    exact hbacked.start hcopies ((World.persisted_tracking _ _).trans hcreate.tracking)
      ((World.Retains.refl _).persisted.put _ hcopy)

theorem World.Backed.after (hbacked : w.Backed) (h : Reachable s w) (c : Call)
    (hstart : ∀ path, c ≠ .start path) : (c.after w).Backed := by
  have hperforms := performs w c
  generalize c.after w = w' at hperforms ⊢
  cases hperforms with
  | refused => exact hbacked
  | started => exact absurd rfl (hstart _)
  | applied happlies =>
    have hcopies := happlies.upheld (World.Retains.upholds s w) ⟨h.keyed, .refl w⟩
      fun _ => h.keyed.addressed fun _ _ => trivial
    refine hbacked.retain hcopies.2 fun file hfile => ?_
    rwa [happlies.tracking] at hfile
  | @forgotten _ _ key =>
    intro file hfile
    rw [World.discard_tracking] at hfile
    have hstate := Tracking.state?_stop w.store.tracking key.file file
    by_cases hsame : file = key.file
    · rw [if_pos hsame] at hstate
      rw [World.track, hstate] at hfile
      cases hfile
    · rw [if_neg hsame] at hstate
      rw [World.track, hstate] at hfile
      obtain ⟨k, hk, hcopy⟩ := hbacked file hfile
      have hne : k ≠ key := fun hkey => hsame (hk ▸ hkey ▸ rfl)
      refine ⟨k, hk, ?_⟩
      rw [World.get?_discard, if_neg hne]
      exact hcopy
  | retracked hcall =>
    refine hbacked.retain (.refl w) fun other hother => ?_
    rcases hcall with ⟨-, rfl⟩ | ⟨-, rfl⟩
    · rwa [← Tracking.isSome_state?_setState]
    · rwa [← Tracking.isSome_state?_setState]
  | @passed old new oldKey newKey hold hnew hnone =>
    -- a file without a working copy has no session that could move
    refine hbacked.retain (.refl w) fun other hother => ?_
    have hstate : w.store.tracking.state? oldKey.file = none := by
      rw [← Option.not_isSome_iff_eq_none]
      intro hsome
      have hcopy := hbacked.key_of_address h.proper hold hsome
      rw [hnone] at hcopy
      cases hcopy
    rwa [World.track, Tracking.rename_of_state?_eq_none _ _ hstate] at hother
  | @moved old new oldKey newKey copy hold hnew hcopy =>
    intro file hfile
    rw [World.rehome_tracking, World.track, Tracking.state?_rename] at hfile
    by_cases hsame : file = newKey.file
    · refine ⟨newKey, hsame.symm, ?_⟩
      rw [World.get?_rehome, if_pos rfl]
      rfl
    · rw [if_neg hsame] at hfile
      by_cases hgone : file = oldKey.file
      · rw [if_pos hgone] at hfile
        cases hfile
      · rw [if_neg hgone] at hfile
        obtain ⟨k, rfl, hkcopy⟩ := hbacked file hfile
        have hnenew : k ≠ newKey := fun hk => hsame (hk ▸ rfl)
        have hneold : k ≠ oldKey := fun hk => hgone (hk ▸ rfl)
        refine ⟨k, rfl, ?_⟩
        rw [World.get?_rehome, if_neg hnenew, if_neg hneold]
        exact hkcopy
  | @ended path project hproject =>
    intro file hfile
    have hstate := Tracking.state?_removeUnder w.store.tracking file project
    by_cases hunder : Tracking.isUnder project file = true
    · rw [if_pos hunder] at hstate
      have hnone : (none : Option Tracking.State).isSome := hstate ▸ hfile
      cases hnone
    · rw [if_neg hunder] at hstate
      have hsome : (w.store.tracking.state? file).isSome := hstate ▸ hfile
      obtain ⟨k, rfl, hkcopy⟩ := hbacked file hsome
      obtain ⟨copy, hcopy⟩ := Option.isSome_iff_exists.mp hkcopy
      have hentry := h.proper.copies k copy hcopy
      have hother : k.project ≠ project := by
        rintro rfl
        apply hunder
        apply Tracking.isUnder_of_isProperAncestor (Path.normalize?_normal hproject).1 hentry.normal
        exact Workspace.isProperAncestor_owner? hentry.normal hentry.owner
      refine ⟨k, rfl, ?_⟩
      have hretained : (w.forgetProject project).store.copies.get? k = some copy := by
        dsimp only [World.forgetProject, World.track, World.retain]
        rw [Table.get?_filter, hcopy, Option.filter_some, decide_eq_true hother]
        rfl
      exact Option.isSome_of_eq_some hretained

end EditorSync.Store

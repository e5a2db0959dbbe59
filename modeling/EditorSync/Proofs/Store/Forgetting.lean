import Mathlib
import EditorSync.Proofs.Store.Calls
import EditorSync.Proofs.Store.Restart
import EditorSync.Proofs.Tracking

namespace EditorSync.Store

open Disk (Grounds Alters Fills)
open WorkingCopy (Key)

variable {r : Setup} {w w' : World} {key key' : Key} {path : String} {c : Call} {disk : Disk}

namespace Call

def Avoids (key : Key) : Call → Prop
  | start path | move _ path => Path.normalize? path ≠ some key.file
  | apply changes => Path.normalize? changes.file ≠ some key.file
  | stop _ | suspend _ | resume _ | discardFile _ | discardProject _ => True

end Call

structure Setup.Bare (r : Setup) (key : Key) (w : World) : Prop where
  keyed : w.Keyed r.shadows r.used
  grounds : w.disk.Grounds r.shadows.workspace.root r.base
  absent : w.store.copies.get? key = none
  vacant : r.shadows.Vacant r.base w.disk key.project key.file

theorem Addressed.addresses (h : Addressed r.shadows r.used key) : r.Addresses key :=
  ⟨h.used, h.normal, h.owner⟩

theorem Setup.Addresses.apart (hserves : r.Serves) (hkey : r.Addresses key)
    (hkey' : r.Addresses key') (hne : key ≠ key') :
    ¬r.base ++ r.shadows.names key.project key.file <+:
      r.base ++ r.shadows.names key'.project key'.file :=
  fun hinit => hne (hkey.eq_of_names hserves hkey' ((List.prefix_append_right_inj r.base).mp hinit))

namespace Setup.Bare

theorem track (h : r.Bare key w) (f : Tracking → Tracking) : r.Bare key (w.track f) :=
  ⟨h.keyed.track f, h.grounds, h.absent, h.vacant⟩

theorem put {copy : WorkingCopy} (h : r.Bare key w) (hcopy : Addressed r.shadows r.used copy.key)
    (hne : copy.key ≠ key) : r.Bare key (w.put copy) := by
  refine ⟨h.keyed.put hcopy, h.grounds, ?_, h.vacant⟩
  rw [World.get?_put, if_neg hne.symm]
  exact h.absent

theorem retain (h : r.Bare key w) (keep : Key → Bool) : r.Bare key (w.retain keep) := by
  refine ⟨h.keyed.retain keep, h.grounds, ?_, h.vacant⟩
  dsimp only [World.retain]
  rw [Table.get?_filter, h.absent]
  rfl

theorem undergo {effect : Shadows.Effect} {touched filled : List String → Prop}
    (h : r.Bare key w) (halters : Alters r.base touched w.disk effect.1)
    (hfills : Fills filled w.disk effect.1)
    (hspared : ¬filled (r.base ++ r.shadows.names key.project key.file)) :
    r.Bare key (w.undergo effect) := by
  refine ⟨h.keyed.undergo effect, h.grounds.alter halters, ?_, hfills _ hspared h.vacant⟩
  dsimp only [World.undergo]
  rw [note_copies]
  exact h.absent

theorem persisted {copy : WorkingCopy} (hserves : r.Serves) (hkey : r.Addresses key)
    (h : r.Bare key w) (hcopy : Addressed r.shadows r.used copy.key) (hne : copy.key ≠ key) :
    r.Bare key (w.persisted copy) := by
  unfold World.persisted
  split
  · rw [h.keyed.shadows_eq]
    obtain ⟨hproject, hfile⟩ := hcopy.addresses.isFile hserves
    obtain ⟨halters, hfills, -⟩ :=
      Shadows.write_alters hserves.rooted h.grounds hproject hfile
    exact h.undergo halters hfills (hkey.apart hserves hcopy.addresses hne.symm)
  · exact h

theorem discard (hserves : r.Serves) (h : r.Bare key w)
    (hkey' : Addressed r.shadows r.used key') : r.Bare key (w.discard key') := by
  unfold World.discard
  split
  · exact h
  · split
    · rw [h.keyed.shadows_eq]
      obtain ⟨hproject, hfile⟩ := hkey'.addresses.isFile hserves
      obtain ⟨halters, hfills⟩ := Shadows.remove_alters hserves.rooted h.grounds hproject hfile
      exact (h.retain _).undergo halters hfills id
    · exact h.retain _

theorem rehome {old new : Key} {copy : WorkingCopy} (hserves : r.Serves) (hkey : r.Addresses key)
    (h : r.Bare key w) (hold : Addressed r.shadows r.used old)
    (hnew : Addressed r.shadows r.used new) (hne : new ≠ key) :
    r.Bare key (w.rehome old new copy) := by
  have hput : r.Bare key ((w.retain (· ≠ old)).put { copy with key := new }) :=
    (h.retain _).put hnew hne
  unfold World.rehome
  dsimp only
  split
  · rw [h.keyed.shadows_eq]
    obtain ⟨hproject, hfile⟩ := hold.addresses.isFile hserves
    obtain ⟨hproject', hfile'⟩ := hnew.addresses.isFile hserves
    obtain ⟨halters, hfills⟩ := Shadows.rename_alters hserves.rooted h.grounds hproject hfile
      hproject' hfile'
    refine hput.undergo halters hfills ?_
    rintro (hinit | hinit)
    · exact hkey.apart hserves hnew.addresses hne.symm hinit
    · exact hnew.addresses.apart hserves hkey hne hinit
  · exact hput

theorem forgetProject {project : String} (hserves : r.Serves) (h : r.Bare key w)
    (hproject : Path.normalize? project = some project) :
    r.Bare key { w.forgetProject project with
      disk := (w.store.shadows.removeProject w.disk project).1 } := by
  have hforgotten := (h.retain (·.project ≠ project)).track (·.removeUnder project)
  have hfills : Fills (fun _ => False) w.disk (r.shadows.removeProject w.disk project).1 :=
    Disk.fills_of_shrinks fun _ _ => Shadows.removeProject_shrinks
  rw [h.keyed.shadows_eq]
  exact ⟨⟨hforgotten.keyed.shadows_eq, hforgotten.keyed.copies⟩,
    Shadows.removeProject_grounds hserves.rooted h.grounds hproject, hforgotten.absent,
    hfills _ id h.vacant⟩

theorem upholds (hserves : r.Serves) (hkey : r.Addresses key) :
    Upholds (fun k => Addressed r.shadows r.used k ∧ k ≠ key) (r.Bare key) where
  known _ k copy h hcopy := (h.keyed.copies k copy hcopy).1
  track _ f h := h.track f
  put _ _ h hcopy := h.put hcopy.1 hcopy.2
  persisted _ _ h hcopy := h.persisted hserves hkey hcopy.1 hcopy.2

theorem admits (h : r.Bare key w) (hused : ∀ file, Path.normalize? path = some file → r.used file)
    (havoids : Path.normalize? path ≠ some key.file) (k : Key)
    (hk : w.store.key w.disk path = .ok k) : Addressed r.shadows r.used k ∧ k ≠ key := by
  refine ⟨h.keyed.addressed hused hk, ?_⟩
  rintro rfl
  exact havoids (key_eq_ok hk).1

theorem after (hserves : r.Serves) (hkey : r.Addresses key) (h : r.Bare key w)
    (hwithin : c.Within r.used) (havoids : c.Avoids key) : r.Bare key (c.after w) := by
  have hperforms := performs w c
  generalize c.after w = w' at hperforms ⊢
  cases hperforms with
  | refused => exact h
  | started hstart =>
    exact hstart.upheld (upholds hserves hkey) h (h.admits (hwithin _ List.mem_cons_self) havoids)
  | applied happly =>
    exact happly.upheld (upholds hserves hkey) h (h.admits (hwithin _ List.mem_cons_self) havoids)
  | forgotten hcall hkey' =>
    have hused := hwithin _ (Call.mem_paths_of_forgets hcall)
    exact (h.track _).discard hserves (h.keyed.addressed hused hkey')
  | retracked => exact h.track _
  | passed => exact h.track _
  | moved hold hnew hcopy =>
    have husedOld := hwithin _ List.mem_cons_self
    have husedNew := hwithin _ (List.mem_cons_of_mem _ List.mem_cons_self)
    obtain ⟨hnew', hne⟩ := h.admits husedNew havoids _ hnew
    exact (h.track _).rehome hserves hkey (h.keyed.addressed husedOld hold) hnew' hne
  | ended hproject => exact h.forgetProject hserves (Path.normalize?_normal hproject).1

end Setup.Bare

structure Leaves (s : Shadows) (base : List String) (disk disk' : Disk) : Prop where
  spares : s.Spares base disk disk'
  adds : ∀ below, s.metadataDir ∈ below → disk.entry? (base ++ below) = none →
    disk'.entry? (base ++ below) = none

/-- What can happen to a store while no failure goes unreported: calls, changes of the real files
by somebody else, and restarts. -/
inductive History (s : Shadows) (root : String) (projects : Option (List String))
    (base : List String) (allowed : Call → Prop) (w : World) : World → Prop
  | refl : History s root projects base allowed w w
  | call {w' : World} (h : History s root projects base allowed w w') (c : Call) (hc : allowed c)
    (hquiet : (c.after w').Quiet) : History s root projects base allowed w (c.after w')
  | edit {w' : World} (h : History s root projects base allowed w w') (disk : Disk)
    (hleaves : Leaves s base w'.disk disk) :
    History s root projects base allowed w { w' with disk := disk }
  | restart {w' : World} (h : History s root projects base allowed w w') (s' : Shadows)
    (settings : Settings) (hbuilt : s'.workspace.Built w'.disk root projects)
    (hmeta : s'.metadataDir = s.metadataDir) (hpersist : settings.persist = true) :
    History s root projects base allowed w ⟨.new s' settings, w'.disk⟩

variable {s s' : Shadows} {root : String} {projects : Option (List String)} {base : List String}
variable {used : String → Prop} {settings : Settings}

theorem History.durable (hhosts : Hosts s disk root projects base used)
    (hpersist : settings.persist = true)
    (h : History s root projects base (·.Within used) ⟨.new s settings, disk⟩ w) :
    ∃ settings, settings.persist = true ∧
      (⟨s, settings, base, used, fun _ _ => False⟩ : Setup).Durable (fun _ => False) w := by
  induction h with
  | refl =>
    obtain ⟨-, hgrounds⟩ := hhosts.serves settings fun _ _ => False
    exact ⟨settings, hpersist, Setup.durable_new hgrounds fun _ _ => False.elim⟩
  | call _ c hc hquiet ih =>
    obtain ⟨settings, hpersist, hdurable⟩ := ih
    obtain ⟨hserves, -⟩ := hhosts.serves settings fun _ _ => False
    exact ⟨settings, hpersist,
      c.durable hserves hpersist hc (fun _ _ => False.elim) (fun _ => hdurable) hquiet⟩
  | edit _ disk hleaves ih =>
    obtain ⟨settings, hpersist, hdurable⟩ := ih
    obtain ⟨hserves, -⟩ := hhosts.serves settings fun _ _ => False
    exact ⟨settings, hpersist, hdurable.edit hserves hleaves.spares⟩
  | restart _ s' settings' hbuilt hmeta hpersist' ih =>
    obtain ⟨settings, -, hdurable⟩ := ih
    obtain rfl := hhosts.rebuilt hdurable.grounds hbuilt hmeta
    exact ⟨settings', hpersist',
      Setup.durable_new (r := ⟨s', settings', base, used, fun _ _ => False⟩) hdurable.grounds
        fun _ _ => False.elim⟩

theorem History.bare (hserves : r.Serves) (hhosts : Hosts r.shadows disk root projects r.base r.used)
    (hkey : r.Addresses key) (hbare : r.Bare key w)
    (h : History r.shadows root projects r.base (fun c => c.Within r.used ∧ c.Avoids key) w w') :
    r.Bare key w' := by
  induction h with
  | refl => exact hbare
  | call _ c hc _ ih => exact ih.after hserves hkey hc.1 hc.2
  | edit _ disk hleaves ih =>
    have hmark : r.shadows.metadataDir ∈ r.shadows.names key.project key.file := by
      simp [Shadows.names, Shadows.dirNames]
    exact ⟨⟨ih.keyed.shadows_eq, ih.keyed.copies⟩, hleaves.spares.grounds, ih.absent,
      hleaves.adds _ hmark ih.vacant⟩
  | restart _ s' settings hbuilt hmeta _ ih =>
    have hsame := hhosts.rebuilt ih.grounds hbuilt hmeta
    refine ⟨⟨hsame, fun k copy hcopy => ?_⟩, ih.grounds, rfl, ih.vacant⟩
    cases hcopy

theorem real_of_create {s : Shadows} {base : List String} {copy : WorkingCopy} (hs : s.Rooted base)
    (hshadows : w.store.shadows = s) (hgrounds : w.disk.Grounds s.workspace.root base)
    (hproject : Path.normalize? key.project = some key.project) (hfile : Shadows.IsFile key.file)
    (habsent : w.store.copies.get? key = none) (hvacant : s.Vacant base w.disk key.project key.file)
    (hcreate : (getOrCreate key).perform w = (.ok copy, w')) :
    ∃ real, s.readReal w.disk key.file = .ok real ∧ copy = .new key (real.getD "") := by
  have hcreates := creates w key
  rw [hcreate] at hcreates
  cases hcreates with
  | known hcopy => cases habsent.symm.trans hcopy
  | loaded _ hcontent =>
    rcases initialContent_eq_ok hcontent with ⟨-, -, hread⟩ | ⟨hfalse, -⟩
    · rw [hshadows] at hread
      exact absurd hread (Shadows.read_ne_some_of_vacant hs hgrounds hproject hfile hvacant)
    · cases hfalse
  | made _ hcontent =>
    rcases initialContent_eq_ok hcontent with ⟨htrue, -⟩ | ⟨-, -, real, hreal, rfl⟩
    · cases htrue
    · rw [hshadows] at hreal
      exact ⟨real, hreal, rfl⟩

theorem Setup.Bare.real_of_create (hserves : r.Serves) (hkey : r.Addresses key) (h : r.Bare key w)
    {copy : WorkingCopy} (hcreate : (getOrCreate key).perform w = (.ok copy, w')) :
    ∃ real, r.shadows.readReal w.disk key.file = .ok real ∧
      copy = .new key (real.getD "") := by
  obtain ⟨hproject, hfile⟩ := hkey.isFile hserves
  exact Store.real_of_create hserves.rooted h.keyed.shadows_eq h.grounds hproject hfile h.absent
    h.vacant hcreate

theorem after_forget (hforgets : c = .stop path ∨ c = .discardFile path)
    (hkey : w.store.key w.disk path = .ok key) :
    c.after w = (w.track (·.stop key.file)).discard key := by
  rcases hforgets with rfl | rfl
  · dsimp only [Call.after]
    rw [perform_stop, hkey]
  · dsimp only [Call.after]
    rw [perform_discardFile, hkey]

theorem Setup.Durable.world_keyed (h : r.Durable (fun _ => False) w) :
    w.Keyed r.shadows r.used := by
  refine ⟨h.shadows_eq, fun k copy hcopy => ?_⟩
  obtain ⟨hk, haddresses⟩ := h.keyed k copy hcopy
  exact ⟨hk, haddresses.used, haddresses.normal, haddresses.owner⟩

theorem Setup.Durable.bare_of_discard (hserves : r.Serves) (hpersist : r.settings.persist = true)
    (h : r.Durable (fun _ => False) w) (hkey : r.Addresses key)
    (hforgotten : w.store.copies.get? key ≠ none ∨
      r.shadows.Vacant r.base w.disk key.project key.file) :
    r.Bare key (w.discard key) := by
  obtain ⟨hproject, hfile⟩ := hkey.isFile hserves
  have habsent := w.get?_discard key key
  rw [if_pos rfl] at habsent
  cases hcopy : w.store.copies.get? key with
  | none =>
    rw [World.discard_absent hcopy]
    exact ⟨h.world_keyed, h.grounds, hcopy, hforgotten.resolve_left (absurd hcopy)⟩
  | some copy =>
    have hread := h.kept key copy.content id (.inl ⟨copy, hcopy, rfl⟩)
    refine ⟨h.world_keyed.discard key, ?_, habsent, ?_⟩
    all_goals rw [World.discard_present hcopy (h.settings_eq ▸ hpersist), h.shadows_eq]
    · exact h.grounds.alter (Shadows.remove_alters hserves.rooted h.grounds hproject hfile).1
    · exact Shadows.remove_vacant hserves.rooted h.grounds hproject hfile hread

/-- Once a file has been stopped or discarded, it has no session and no working copy. If it had a
working copy, or no shadow to begin with, it has no shadow either, and whatever happens until it
gets a working copy again, this one begins with the real text. -/
theorem bare_of_forgotten (hhosts : Hosts s disk root projects base used)
    (hpersist : settings.persist = true)
    (hhistory : History s root projects base (·.Within used) ⟨.new s settings, disk⟩ w)
    (hforgets : c = .stop path ∨ c = .discardFile path) (hwithin : c.Within used)
    (hkey : w.store.key w.disk path = .ok key) :
    let w' := c.after w
    w'.store.trackingState? path = none ∧
      (∀ k, k.file = key.file → w'.store.copies.get? k = none) ∧
      (w.store.copies.get? key = none → w'.disk = w.disk) ∧
      (w.store.copies.get? key ≠ none ∨ s.Vacant base w.disk key.project key.file →
        s.Vacant base w'.disk key.project key.file ∧
          ∀ w'', History s root projects base (fun c => c.Within used ∧ c.Avoids key) w' w'' →
            ∀ copy w''', (getOrCreate key).perform w'' = (.ok copy, w''') →
              ∃ real, s.readReal w''.disk key.file = .ok real ∧
                copy = .new key (real.getD "")) := by
  obtain ⟨settings, hpersist, hdurable⟩ := hhistory.durable hhosts hpersist
  let r : Setup := ⟨s, settings, base, used, fun _ _ => False⟩
  obtain ⟨hserves, -⟩ := hhosts.serves settings fun _ _ => False
  obtain ⟨hpath, -⟩ := key_eq_ok hkey
  have hused : ∀ file, Path.normalize? path = some file → used file := by
    rcases hforgets with rfl | rfl
    · exact hwithin _ List.mem_cons_self
    · exact hwithin _ List.mem_cons_self
  have hkeyed := hdurable.world_keyed
  have haddressed : Addressed s used key := hkeyed.addressed hused hkey
  have hkeyAddresses : r.Addresses key := haddressed.addresses
  rw [after_forget hforgets hkey]
  refine ⟨?_, fun k hfile => ?_, fun hnone => ?_, fun hforgotten => ?_⟩
  · rw [trackingState?, hpath, World.discard_tracking]
    exact (Tracking.state?_stop ..).trans (if_pos rfl)
  · rw [World.get?_discard]
    split
    · rfl
    · rename_i hne
      cases hcopy : (w.track (·.stop key.file)).store.copies.get? k with
      | none => rfl
      | some copy =>
        have howner := (hkeyed.copies k copy hcopy).2.owner
        rw [hfile, haddressed.owner, Option.some.injEq] at howner
        obtain ⟨project, file⟩ := k
        cases key
        cases hfile
        cases howner
        exact absurd rfl hne
  · have hsame : (w.track (·.stop key.file)).discard key = w.track (·.stop key.file) :=
      World.discard_absent hnone
    rw [hsame]
    rfl
  · have hbare : r.Bare key ((w.track (·.stop key.file)).discard key) :=
      (hdurable.track _).bare_of_discard hserves hpersist hkeyAddresses hforgotten
    refine ⟨hbare.vacant, fun w'' hmeanwhile copy w''' hcreate => ?_⟩
    have hbare' := History.bare (r := r) hserves hhosts hkeyAddresses hbare hmeanwhile
    exact hbare'.real_of_create hserves hkeyAddresses hcreate

def sampleWorld : World := ⟨.new sampleShadows sampleSettings, sampleDisk⟩

theorem sampleWorld_started :
    let w := (Call.start "/p/a").after sampleWorld
    w.Quiet ∧ w.disk = sampleDisk ∧ w.store.copies.get? ⟨"/p", "/p/a"⟩ ≠ none ∧
      w.store.key w.disk "/p/a" = .ok ⟨"/p", "/p/a"⟩ := by
  intro w
  let key : Key := ⟨"/p", "/p/a"⟩
  let r : Setup := ⟨sampleShadows, sampleSettings, ["ws"], (· = "/p/a"),
    fun k c => k = key ∧ c = "x"⟩
  obtain ⟨hserves, hgrounds⟩ := sampleShadows_hosts.serves sampleSettings r.rest
  have hrest (k : Key) (c : String) (hc : r.rest k c) : r.Addresses k ∧
      r.shadows.read sampleDisk k.project k.file = .ok (some c) := by
    obtain ⟨rfl, rfl⟩ := hc
    exact ⟨⟨rfl, by decide, by decide⟩, sampleShadows_read⟩
  have hpath : Path.normalize? "/p/a" = some key.file := by decide
  obtain ⟨after, hstart, hcopy, hquiet, hdisk⟩ := perform_start_resting hserves rfl rfl
    (Setup.durable_new hgrounds hrest) ⟨rfl, rfl⟩ hpath
  obtain rfl : w = after := congrArg Prod.snd hstart
  have hkeyed : w.Keyed sampleShadows fun _ => True :=
    (Reachable.call (.new sampleSettings sampleDisk) (.start "/p/a")).keyed
  refine ⟨hquiet, hdisk, fun hnone => ?_, ?_⟩
  · cases hcopy.symm.trans hnone
  · have hkey : (Store.new sampleShadows sampleSettings).key sampleDisk "/p/a" = .ok key := by cbv
    rw [Store.key, Store.workspace, hkeyed.shadows_eq, hdisk]
    exact hkey

theorem sampleCall_within (call : String → Call) (hpaths : (call "/p/a").paths = ["/p/a"]) :
    (call "/p/a").Within (· = "/p/a") := by
  intro path hpath file hfile
  rw [hpaths, List.mem_singleton] at hpath
  have hnormal : Path.normalize? "/p/a" = some "/p/a" := by decide
  rw [hpath, hnormal, Option.some.injEq] at hfile
  exact hfile.symm

theorem sampleWorld_history :
    History sampleShadows "/ws" none ["ws"] (·.Within (· = "/p/a")) sampleWorld
      ((Call.start "/p/a").after sampleWorld) :=
  .call .refl _ (sampleCall_within .start rfl) sampleWorld_started.1

theorem bare_of_forgotten_started :
    let w := (Call.start "/p/a").after sampleWorld
    let w' := (Call.stop "/p/a").after w
    w.store.copies.get? ⟨"/p", "/p/a"⟩ ≠ none ∧ w'.store.trackingState? "/p/a" = none ∧
      (∀ k, k.file = "/p/a" → w'.store.copies.get? k = none) ∧
      sampleShadows.Vacant ["ws"] w'.disk "/p" "/p/a" ∧
      ∀ copy w'', (getOrCreate ⟨"/p", "/p/a"⟩).perform w' = (.ok copy, w'') →
        ∃ real, sampleShadows.readReal w'.disk "/p/a" = .ok real ∧
          copy = .new ⟨"/p", "/p/a"⟩ (real.getD "") := by
  intro w w'
  obtain ⟨-, -, hcopy, hkey⟩ := sampleWorld_started
  obtain ⟨hstate, habsent, -, hgone⟩ := bare_of_forgotten sampleShadows_hosts rfl
    sampleWorld_history (.inl rfl) (sampleCall_within .stop rfl) hkey
  obtain ⟨hvacant, hcreates⟩ := hgone (.inl hcopy)
  exact ⟨hcopy, hstate, habsent, hvacant, hcreates w' .refl⟩

theorem stop_leaves_shadow :
    let w : World := ⟨.new sampleShadows sampleSettings,
      ((Call.start "/p/a").after sampleWorld).disk⟩
    History sampleShadows "/ws" none ["ws"] (·.Within (· = "/p/a")) sampleWorld w ∧
      ((stop "/p/a").perform w).1 = .ok () ∧ ((Call.stop "/p/a").after w).Quiet ∧
      sampleShadows.read ((Call.stop "/p/a").after w).disk "/p" "/p/a" = .ok (some "x") := by
  intro w
  obtain ⟨-, hdisk, -⟩ := sampleWorld_started
  have hworld : w = sampleWorld := congrArg (World.mk _) hdisk
  have hbuilt : sampleShadows.workspace.Built ((Call.start "/p/a").after sampleWorld).disk "/ws"
      none := by
    rw [hdisk]
    rfl
  have hkey : sampleWorld.store.key sampleWorld.disk "/p/a" = .ok ⟨"/p", "/p/a"⟩ := by cbv
  refine ⟨.restart sampleWorld_history _ _ hbuilt rfl rfl, ?_⟩
  rw [hworld, after_forget (.inl rfl) hkey, perform_stop, hkey]
  exact ⟨rfl, rfl, sampleShadows_read⟩

end EditorSync.Store

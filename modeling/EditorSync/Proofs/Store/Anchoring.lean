import EditorSync.Proofs.Disk.Readback
import EditorSync.Proofs.Store.Deliveries
import EditorSync.Proofs.Store.Refusal

namespace EditorSync.WorkingCopy

open Text (Encoding)

variable {w : WorkingCopy} {delta : Delta} {enc : Encoding} {content : String}

theorem apply_first (seq maxPending : Nat) (hlast : w.lastApplied = none)
    (hidle : w.pending = .empty) (hfits : delta.apply w.content enc = .ok content) :
    w.apply delta (some seq) enc maxPending =
      .ok ({ w with content := content, lastApplied := some seq },
        [⟨delta.kind, some seq, content⟩]) := by
  have hdue (last : Nat) (hsome : w.lastApplied = some last) :
      last < seq ∧ (delta.kind ≠ .replaceAll → seq = last + 1) := by
    cases hlast.symm.trans hsome
  have hwaiting (s : Nat) (hs : (w.pending.get? s).isSome) : s < seq := by
    rw [hidle] at hs
    cases hs
  rw [apply_of_takes _ _ (.advanced hdue hfits), drain_jumpTo hwaiting, ← hidle]

end EditorSync.WorkingCopy

namespace EditorSync.Store

open WorkingCopy (Key)

variable {s : Shadows} {w w' : World} {key : Key} {copy : WorkingCopy} {path : String}

/-- What a file that has no session yet would be edited from. -/
inductive World.Offers (w : World) (key : Key) : String → Prop
  | known {copy : WorkingCopy} (hcopy : w.store.copies.get? key = some copy) :
    Offers w key copy.content
  | shadow {content : String} (hnone : w.store.copies.get? key = none)
    (hpersist : w.store.settings.persist = true)
    (hread : w.store.shadows.read w.disk key.project key.file = .ok (some content)) :
    Offers w key content
  | real {text : String} (hnone : w.store.copies.get? key = none)
    (hread : w.store.settings.persist = true →
      w.store.shadows.read w.disk key.project key.file = .ok none)
    (hreal : w.store.shadows.readReal w.disk key.file = .ok (some text)) : Offers w key text
  | nothing (hnone : w.store.copies.get? key = none)
    (hread : w.store.settings.persist = true →
      w.store.shadows.read w.disk key.project key.file = .ok none)
    (hreal : w.store.shadows.readReal w.disk key.file = .ok none) : Offers w key ""

def World.Saves (w w' : World) (key : Key) (content : String) : Prop :=
  (∃ p, w.store.shadows.path w.disk key.project key.file = .ok p ∧
      w'.disk.readText p = .ok content) ∧
    ∀ shadow, w.store.shadows.read w'.disk key.project key.file = .ok shadow →
      shadow = some content

theorem World.saves_of_readText {p content : String}
    (hpath : w.store.shadows.path w.disk key.project key.file = .ok p)
    (hread : w'.disk.readText p = .ok content) : w.Saves w' key content := by
  refine ⟨⟨p, hpath, hread⟩, fun shadow hshadow => ?_⟩
  obtain ⟨q, hpath', hread'⟩ := Procedure.bind_eq_ok_iff.mp hshadow
  cases Shadows.path_unique hpath hpath'
  rw [Shadows.readText_eq_ok_iff, hread', Except.ok.injEq] at hread
  exact hread

theorem unreported_note (s : Store) (r : Except SyncError Unit) :
    s.unreported <+: (s.note r).unreported ∧
      ((s.note r).unreported = s.unreported → r = .ok ()) := by
  cases r with
  | ok _ => exact ⟨List.prefix_rfl, fun _ => rfl⟩
  | error e =>
    refine ⟨List.prefix_append _ _, fun h => ?_⟩
    have hlength := congrArg List.length h
    simp [note] at hlength

namespace World

theorem persisted_shadows (w : World) (copy : WorkingCopy) :
    (w.persisted copy).store.shadows = w.store.shadows := by
  unfold persisted undergo
  split <;> simp

theorem persisted_unreported (w : World) (copy : WorkingCopy) :
    w.store.unreported <+: (w.persisted copy).store.unreported := by
  unfold persisted
  split
  · exact (unreported_note _ _).1
  · exact List.prefix_rfl

theorem persisted_readReal {file content : String}
    (h : w.store.shadows.readReal w.disk file = .ok (some content))
    (hcontent : copy.content = content) :
    w.store.shadows.readReal (w.persisted copy).disk file = .ok (some content) := by
  rw [persisted_disk]
  split
  · exact hcontent ▸ Shadows.readReal_write (hcontent ▸ h)
  · exact h

theorem saves_persisted (copy : WorkingCopy) (hpersist : w.store.settings.persist = true)
    (hquiet : (w.persisted copy).store.unreported = w.store.unreported) :
    w.Saves (w.persisted copy) copy.key copy.content := by
  rw [persisted, if_pos hpersist] at hquiet ⊢
  have hok := (unreported_note _ _).2 hquiet
  obtain ⟨p, hpath, hread⟩ := Shadows.readText_write (Prod.ext rfl hok)
  exact saves_of_readText hpath hread

end World

theorem Creates.offers (h : Creates w key (.ok copy) w') :
    w.Offers key copy.content ∧ w'.store.shadows = w.store.shadows ∧
      ∀ text, w.store.shadows.readReal w.disk key.file = .ok (some text) →
        w.store.shadows.readReal w'.disk key.file = .ok (some text) := by
  cases h with
  | known hcopy => exact ⟨.known hcopy, rfl, fun _ h => h⟩
  | loaded hnone hcontent =>
    rcases initialContent_eq_ok hcontent with ⟨-, hpersist, hread⟩ | ⟨hfalse, -⟩
    · exact ⟨.shadow hnone hpersist hread, rfl, fun _ h => h⟩
    · cases hfalse
  | made hnone hcontent =>
    rcases initialContent_eq_ok hcontent with ⟨htrue, -⟩ | ⟨-, hread, real, hreal, rfl⟩
    · cases htrue
    cases real with
    | none =>
      refine ⟨.nothing hnone hread hreal, w.persisted_shadows _, fun text h => ?_⟩
      cases hreal.symm.trans h
    | some text =>
      refine ⟨.real hnone hread hreal, w.persisted_shadows _, fun text' h => ?_⟩
      cases hreal.symm.trans h
      exact World.persisted_readReal hreal rfl

theorem Creates.unreported (h : Creates w key (.ok copy) w') :
    w.store.unreported <+: w'.store.unreported := by
  cases h with
  | made => exact w.persisted_unreported _
  | _ => exact List.prefix_rfl

theorem Creates.saves (h : Creates w key (.ok copy) w')
    (hpersist : w.store.settings.persist = true)
    (hquiet : w'.store.unreported = w.store.unreported) :
    w' = w ∧ w.store.copies.get? key = some copy ∨ w.Saves w' key copy.content := by
  cases h with
  | known hcopy => exact .inl ⟨rfl, hcopy⟩
  | loaded hnone hcontent =>
    right
    rw [initialContent_eq_ok_iff hpersist] at hcontent
    obtain ⟨p, hpath, hread⟩ := Procedure.bind_eq_ok_iff.mp hcontent
    exact World.saves_of_readText hpath (Shadows.readText_eq_ok_iff.mpr hread)
  | made hnone hcontent => exact .inr (World.saves_persisted (.new key _) hpersist hquiet)

structure World.Fresh (w : World) (key : Key) (copy : WorkingCopy) : Prop where
  started : w.store.tracking.state? key.file = some .started
  known : w.store.copies.get? key = some copy
  key_eq : copy.key = key
  live : copy.discarded = false
  unnumbered : copy.lastApplied = none
  idle : copy.pending = .empty

structure World.Anchors (w w' : World) (key : Key) (initial content : String) : Prop where
  offered : w.Offers key initial
  real_kept : ∀ text, w.store.shadows.readReal w.disk key.file = .ok (some text) →
    w.store.shadows.readReal w'.disk key.file = .ok (some text)
  verified : w.store.settings.verifyOnStart = true →
    w.store.shadows.readReal w'.disk key.file = .ok none ∧ content = initial ∨
      ∃ text, w.store.shadows.readReal w'.disk key.file = .ok (some text) ∧
        ((Digest.Sha256.hex text = Digest.Sha256.hex initial → text = initial) → content = text)
  unverified : w.store.settings.verifyOnStart = false → content = initial
  saved : w.store.settings.persist = true → w'.store.unreported = w.store.unreported →
    w.store.copies.get? key = none ∨ content ≠ initial → w.Saves w' key content

theorem World.Offers.of_track {f : Tracking → Tracking} {content : String}
    (h : (w.track f).Offers key content) : w.Offers key content := by
  cases h with
  | known hcopy => exact .known hcopy
  | shadow hnone hpersist hread => exact .shadow hnone hpersist hread
  | real hnone hread hreal => exact .real hnone hread hreal
  | nothing hnone hread hreal => exact .nothing hnone hread hreal

theorem anchors_kept (hcreate : Creates (w.track (·.start key.file)) key (.ok copy) w')
    (hsame : w'.store.settings.verifyOnStart = true →
      ∃ real, w'.store.shadows.readReal w'.disk key.file = .ok real ∧
        ∀ text, real = some text → Digest.Sha256.hex text = Digest.Sha256.hex copy.content) :
    w.Anchors (w'.put copy.resetSequence) key copy.content copy.resetSequence.content := by
  obtain ⟨hoffers, hshadows, hkept⟩ := hcreate.offers
  rw [hcreate.settings, hshadows] at hsame
  refine ⟨hoffers.of_track, hkept, fun hverify => ?_, fun _ => rfl, fun hpersist hquiet hnew => ?_⟩
  · obtain ⟨real, hreal, hhex⟩ := hsame hverify
    cases real with
    | none => exact .inl ⟨hreal, rfl⟩
    | some text => exact .inr ⟨text, hreal, fun hdistinct => (hdistinct (hhex text rfl)).symm⟩
  · rcases hcreate.saves hpersist hquiet with ⟨-, hcopy⟩ | hsaves
    · rcases hnew with hnone | hne
      · cases hcopy.symm.trans hnone
      · exact absurd rfl hne
    · exact hsaves

theorem anchors_renewed {text : String}
    (hcreate : Creates (w.track (·.start key.file)) key (.ok copy) w') (hkey : copy.key = key)
    (hreal : w'.store.shadows.readReal w'.disk key.file = .ok (some text))
    (hverify : w'.store.settings.verifyOnStart = true) :
    w.Anchors ((w'.persisted (copy.reset text)).put (copy.reset text)) key copy.content
      (copy.reset text).content := by
  obtain ⟨hoffers, hshadows, hkept⟩ := hcreate.offers
  have hsettings := hcreate.settings
  have hstays : w'.store.shadows.readReal (w'.persisted (copy.reset text)).disk key.file =
      .ok (some text) := World.persisted_readReal hreal rfl
  have hbefore := hcreate.unreported
  have hafter := w'.persisted_unreported (copy.reset text)
  rw [hshadows] at hreal hstays
  rw [hsettings] at hverify
  refine ⟨hoffers.of_track, fun real h => ?_, fun _ => .inr ⟨text, hstays, fun _ => rfl⟩,
    fun hoff => ?_, fun hpersist hquiet _ => ?_⟩
  · cases hreal.symm.trans (hkept real h)
    exact hstays
  · cases hoff.symm.trans hverify
  · -- The log only gets longer, so that neither of the two writes can have failed.
    have hquiet' : w'.store.unreported = w.store.unreported :=
      (hafter.eq_of_length_le ((congrArg List.length hquiet).trans_le hbefore.length_le)).trans
        hquiet
    have hsaved : w'.Saves (w'.persisted (copy.reset text)) key text :=
      hkey ▸ World.saves_persisted (copy.reset text) (hsettings ▸ hpersist)
        (hquiet.trans hquiet'.symm)
    obtain ⟨⟨p, hpath, hread⟩, -⟩ := hsaved
    rw [hshadows] at hpath
    rcases hcreate.saves hpersist hquiet' with ⟨rfl, -⟩ | ⟨⟨q, hpath', -⟩, -⟩
    · exact World.saves_of_readText hpath hread
    · cases Shadows.path_unique hpath hpath'
      exact World.saves_of_readText hpath' hread

theorem Starts.anchors {snapshot : Snapshot} (h : Starts w path (.ok snapshot) w')
    (hproper : w.Proper s) : ∃ key copy initial, w.store.key w.disk path = .ok key ∧
      snapshot = ⟨key, key.file, copy.content⟩ ∧ w'.Fresh key copy ∧
      w.Anchors w' key initial copy.content := by
  have hstarted {key : Key} {copy : WorkingCopy} {w₁ : World}
      (hcreate : Creates (w.track (·.start key.file)) key (.ok copy) w₁) :
      w₁.store.tracking.state? key.file = some .started := by
    rw [hcreate.tracking]
    exact (Tracking.state?_start ..).trans (if_pos rfl)
  cases h with
  | @kept key copy w₁ hkey hcreate hsame =>
    obtain ⟨hcopyKey, hlive, -⟩ := (hcreate.proper_started hproper hkey).2 copy rfl
    subst hcopyKey
    have hsession := hstarted hcreate
    refine ⟨copy.key, copy.resetSequence, copy.content, hkey, rfl, ?_, anchors_kept hcreate hsame⟩
    exact ⟨hsession, Table.get?_insert_self _ _ _, rfl, hlive, rfl, rfl⟩
  | @renewed key copy text w₁ hkey hcreate hverify hreal hdiffers =>
    obtain ⟨hcopyKey, hlive, -⟩ := (hcreate.proper_started hproper hkey).2 copy rfl
    subst hcopyKey
    refine ⟨copy.key, copy.reset text, copy.content, hkey, rfl, ?_,
      anchors_renewed hcreate rfl hreal hverify⟩
    refine ⟨?_, Table.get?_insert_self _ _ _, rfl, hlive, rfl, rfl⟩
    exact (congrArg (·.state? copy.key.file) (w₁.persisted_tracking _)).trans (hstarted hcreate)

theorem World.Fresh.takes {changes : EditorChanges} {delta : Delta} {seq : Nat} {text : String}
    (h : w.Fresh key copy) (hkey : w.store.key w.disk changes.file = .ok key)
    (hproject : Workspace.normalize changes.project = .ok key.project)
    (hdelta : changes.toDelta = .ok delta) (hseq : changes.seq = some seq)
    (hfits : delta.apply copy.content w.store.settings.encoding = .ok text) :
    ((apply changes).perform w).1 =
        .ok (.applied [(⟨delta.kind, some seq, text⟩, ⟨key, ownerOf changes key.file, text⟩)]) ∧
      ((apply changes).perform w).2.store.copies.get? key =
        some { copy with content := text, lastApplied := some seq } := by
  have htakes := WorkingCopy.apply_first seq w.store.settings.maxPending h.unnumbered h.idle hfits
  rw [← hseq] at htakes
  have happlies := applies w changes
  generalize ((apply changes).perform w).1 = r at happlies ⊢
  generalize ((apply changes).perform w).2 = w' at happlies ⊢
  cases happlies with
  | undecoded hdelta' => cases hdelta.symm.trans hdelta'
  | unaddressed hkey' => cases hkey.symm.trans hkey'
  | outside hproject' => cases hproject.symm.trans hproject'
  | foreign hkey' hproject' hother =>
    cases hkey.symm.trans hkey'
    cases hproject.symm.trans hproject'
    exact absurd rfl hother
  | suspended hkey' hrefuses =>
    cases hkey.symm.trans hkey'
    rw [Tracking.acceptsDeltas, h.started] at hrefuses
    cases hrefuses
  | failed hkey' hcreate =>
    cases hkey.symm.trans hkey'
    cases (hcreate.eq_of_known h.known).1
  | discarded hkey' hcreate hdiscarded =>
    cases hkey.symm.trans hkey'
    cases (hcreate.eq_of_known h.known).1
    cases hdiscarded.symm.trans h.live
  | rejected hdelta' hkey' hcreate happly =>
    cases hdelta.symm.trans hdelta'
    cases hkey.symm.trans hkey'
    obtain ⟨hcopy, rfl⟩ := hcreate.eq_of_known h.known
    cases hcopy
    cases htakes.symm.trans happly
  | held hdelta' hkey' _ _ hcreate _ happly =>
    cases hdelta.symm.trans hdelta'
    cases hkey.symm.trans hkey'
    obtain ⟨hcopy, rfl⟩ := hcreate.eq_of_known h.known
    cases hcopy
    cases htakes.symm.trans happly
  | taken hdelta' hkey' _ _ hcreate _ happly =>
    cases hdelta.symm.trans hdelta'
    cases hkey.symm.trans hkey'
    obtain ⟨hcopy, rfl⟩ := hcreate.eq_of_known h.known
    cases hcopy
    cases htakes.symm.trans happly
    refine ⟨?_, ?_⟩
    · rw [hseq]
      rfl
    · rw [World.persisted_copies, World.get?_put, if_pos h.key_eq.symm, hseq]

/-- Starting a file anchors it anew, whatever the store and the disk hold of it. -/
theorem anchored_of_start {snapshot : Snapshot} (hreach : Reachable s w)
    (hok : (start path).perform w = (.ok snapshot, w')) :
    ∃ key copy initial, w.store.key w.disk path = .ok key ∧
      snapshot = ⟨key, key.file, copy.content⟩ ∧ w'.Fresh key copy ∧
      w.Anchors w' key initial copy.content ∧
      ∀ disk changes delta seq text, w'.store.key disk changes.file = .ok key →
        Workspace.normalize changes.project = .ok key.project → changes.toDelta = .ok delta →
        changes.seq = some seq →
        delta.apply copy.content w'.store.settings.encoding = .ok text →
        ((apply changes).perform { w' with disk := disk }).1 =
            .ok (.applied [(⟨delta.kind, some seq, text⟩, ⟨key, ownerOf changes key.file, text⟩)]) ∧
          ((apply changes).perform { w' with disk := disk }).2.store.copies.get? key =
            some { copy with content := text, lastApplied := some seq } := by
  have hstarts := starts w path
  rw [hok] at hstarts
  obtain ⟨key, copy, initial, hkey, hsnapshot, hfresh, hanchors⟩ := hstarts.anchors hreach.proper
  refine ⟨key, copy, initial, hkey, hsnapshot, hfresh, hanchors, ?_⟩
  intro disk changes delta seq text hkey' hproject hdelta hseq hfits
  have hfresh' : World.Fresh { w' with disk := disk } key copy :=
    ⟨hfresh.started, hfresh.known, hfresh.key_eq, hfresh.live, hfresh.unnumbered, hfresh.idle⟩
  exact hfresh'.takes hkey' hproject hdelta hseq hfits

def divergedDisk : Disk := sampleDisk.put ["ws", "p", "a"] (.file (Text.encode "y"))

def divergedWorld : World := ⟨.new sampleShadows .default, divergedDisk⟩

theorem divergedWorld_key : divergedWorld.store.key divergedWorld.disk "/p/a" =
    .ok ⟨"/p", "/p/a"⟩ := by cbv

theorem divergedWorld_real : divergedWorld.store.shadows.readReal divergedWorld.disk "/p/a" =
    .ok (some "y") := by cbv

theorem divergedWorld_read : divergedWorld.store.shadows.read divergedWorld.disk "/p" "/p/a" =
    .ok (some "x") := by
  have hproject : divergedWorld.store.shadows.workspace.realPath divergedWorld.disk "/p" =
      .ok "/ws/p" := by cbv
  have hpath : divergedWorld.store.shadows.path divergedWorld.disk "/p" "/p/a" =
      .ok "/ws/p/.tandem/workingCopies/p.a" := by
    rw [Shadows.path, Shadows.dir, hproject]
    exact congrArg Except.ok (by decide)
  rw [Shadows.read, hpath]
  cbv

theorem divergedWorld_starts :
    ∃ snapshot, ((start "/p/a").perform divergedWorld).1 = .ok snapshot := by
  have hcreated {r : Except SyncError WorkingCopy} {w' : World}
      (hcreate : Creates (divergedWorld.track (·.start "/p/a")) ⟨"/p", "/p/a"⟩ r w') :
      (∃ copy, r = .ok copy) ∧ w'.disk = divergedWorld.disk ∧
        w'.store.shadows = divergedWorld.store.shadows := by
    have hcontent : divergedWorld.store.initialContent divergedWorld.disk ⟨"/p", "/p/a"⟩ =
        .ok ("x", true) := by
      rw [initialContent_eq_ok_iff rfl]
      exact divergedWorld_read
    cases hcreate with
    | known hcopy => cases hcopy
    | loaded => exact ⟨⟨_, rfl⟩, rfl, rfl⟩
    | made _ hmade => cases hcontent.symm.trans hmade
    | failed _ herror => cases hcontent.symm.trans herror
  have hstarts := starts divergedWorld "/p/a"
  generalize ((start "/p/a").perform divergedWorld).1 = r at hstarts ⊢
  generalize ((start "/p/a").perform divergedWorld).2 = w' at hstarts
  cases hstarts with
  | unaddressed hkey => cases divergedWorld_key.symm.trans hkey
  | failed hkey hcreate =>
    cases divergedWorld_key.symm.trans hkey
    obtain ⟨⟨copy, hcopy⟩, -⟩ := hcreated hcreate
    cases hcopy
  | unread hkey hcreate _ hreal =>
    cases divergedWorld_key.symm.trans hkey
    obtain ⟨-, hdisk, hshadows⟩ := hcreated hcreate
    rw [hdisk, hshadows] at hreal
    cases divergedWorld_real.symm.trans hreal
  | kept => exact ⟨_, rfl⟩
  | renewed => exact ⟨_, rfl⟩

theorem anchored_of_start_diverged :
    ∃ w', (start "/p/a").perform divergedWorld = (.ok ⟨⟨"/p", "/p/a"⟩, "/p/a", "y"⟩, w') := by
  obtain ⟨snapshot, hsnapshot⟩ := divergedWorld_starts
  obtain ⟨key, copy, initial, hkey, rfl, -, hanchors, -⟩ :=
    anchored_of_start (.new .default divergedDisk) (Prod.ext hsnapshot rfl)
  cases divergedWorld_key.symm.trans hkey
  have hinitial : initial = "x" := by
    cases hanchors.offered with
    | known hcopy => cases hcopy
    | shadow _ _ hread =>
      cases divergedWorld_read.symm.trans hread
      rfl
    | real _ hread | nothing _ hread => cases divergedWorld_read.symm.trans (hread rfl)
  have hdiffers : Digest.Sha256.hex "y" ≠ Digest.Sha256.hex "x" := by decide +kernel
  have hcontent : copy.content = "y" := by
    have hreal := hanchors.real_kept "y" divergedWorld_real
    rcases hanchors.verified rfl with ⟨hnone, -⟩ | ⟨text, hsome, htext⟩
    · cases hreal.symm.trans hnone
    · cases hreal.symm.trans hsome
      exact htext fun hhex => absurd (hinitial ▸ hhex) hdiffers
  refine ⟨_, Prod.ext (hsnapshot.trans ?_) rfl⟩
  rw [hcontent]

end EditorSync.Store

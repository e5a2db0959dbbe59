import EditorSync.Proofs.Session.Replay
import EditorSync.Proofs.Store.Backing
import EditorSync.Proofs.Store.Faults
import EditorSync.Proofs.Tracker.Submissions

namespace EditorSync.Tracker

open Procedure
open Rpc (Notification)
open Session (Directory Entry Event Mirrors Stats)
open Store (World Snapshot Call Reachable)
open Text (Bytes)

def trackings (outputs : List Output) : List Event :=
  outputs.filterMap fun
    | .event e => if e.isTracking then some e else none
    | .dispatch .. => none

def Message.Accepted (w : World) (m : Message) : Prop :=
  ((onMessage m).run ⟨w, []⟩).1.isOk = true

/-- Each file is named by its normal path. A start that is rejected is one of a file that has a
session. The end of a project is not rejected and ends no session of another project. -/
def Message.Faithful (w : World) (m : Message) : Prop :=
  match m with
  | .operation ⟨.start, path, _⟩ => ∀ key, w.store.key w.disk path = .ok key →
      (m.Accepted w → key.file = path) ∧
        (¬m.Accepted w → (w.store.tracking.state? key.file).isSome)
  | .operation ⟨.stop, path, _⟩ | .operation ⟨.delete, path, _⟩ =>
    ∀ key, w.store.key w.disk path = .ok key → key.file = path
  | .operation ⟨.move, path, some old⟩ => ∀ oldKey newKey,
      w.store.key w.disk old = .ok oldKey → w.store.key w.disk path = .ok newKey →
      oldKey.file = old ∧ newKey.file = path
  | .projectRemoved removed => ∀ project, Path.normalize? removed.project = some project →
      ∀ file, Tracking.isUnder project file → (w.store.tracking.state? file).isSome →
      m.Accepted w ∧
        ∀ disk owner, w.store.workspace.projectOf disk file = .ok owner → owner = project
  | _ => True

def Occurrence.Faithful (w : World) : Occurrence → Prop
  | notified n => ∀ m, Message.of? n = some (.ok m) → m.Faithful w
  | altered _ => True

def Faithful : World → List Occurrence → Prop
  | _, [] => True
  | w, occurrence :: rest => occurrence.Faithful w ∧ Faithful (occurrence.after w) rest

variable {shadows : Shadows} {w : World} {tracked : List String}

theorem trackings_append (outputs outputs' : List Output) :
    trackings (outputs ++ outputs') = trackings outputs ++ trackings outputs' :=
  List.filterMap_append

theorem trackings_rejections (path : String) (r : Except SyncError Unit) :
    trackings (rejections path r) = [] := by cases r <;> rfl

theorem trackings_deletions (files : List String) :
    trackings (files.flatMap fun file =>
      [.dispatch file .release, .event (.tracking file "delete" none)]) =
      files.map fun file => .tracking file "delete" none := by
  induction files with
  | nil => rfl
  | cons file files ih =>
    rw [List.flatMap_cons, trackings_append, ih]
    rfl

theorem trackings_emit {output : Output} (h : trackings [output] = []) :
    Leaves (fun s => trackings s.outputs) (emit output) := by
  apply leaves_emit
  intro w outputs
  dsimp only
  rw [trackings_append, h, List.append_nil]

theorem trackings_submit (snapshot : Snapshot) :
    Leaves (fun s => trackings s.outputs) (submit snapshot) := by
  apply leaves_submit
  intro w outputs snapshot real
  dsimp only
  rw [trackings_append]
  exact List.append_nil _

theorem trackings_onChanges (m : EditorChanges) :
    Leaves (fun s => trackings s.outputs) (onChanges m) := by
  refine (leaves_onStore (fun _ _ _ => rfl) _).bind fun outcome => ?_
  cases outcome with
  | applied steps => exact leaves_report (fun _ _ _ _ => trackings_emit rfl) trackings_submit steps
  | buffered => exact trackings_emit rfl
  | skipped => exact respects_pure _

theorem trackings_onReconcile (m : ReconcileRequest) :
    Leaves (fun s => trackings s.outputs) (onReconcile m) := by
  intro s
  change trackings ((onReconcile m).run s).2.outputs = trackings s.outputs
  rw [run_onReconcile]
  split
  · rfl
  · split
    · rfl
    · exact trackings_submit _ s

def Tells (tracked : List String) (r : Except SyncError Unit × State) : Prop :=
  Mirrors ((trackings r.2.outputs).foldl Event.retrack tracked) r.2.world.store.tracking

theorem tells_start (h : Mirrors tracked w.store.tracking) {path : String} {oldPath : Option String}
    (hfaithful : Message.Faithful w (.operation ⟨.start, path, oldPath⟩)) :
    Tells tracked ((onOperation ⟨.start, path, oldPath⟩).run ⟨w, []⟩) := by
  have hstarts := Store.starts w path
  have hrun := run_start path oldPath w
  rcases hstarted : (Store.start path).perform w with ⟨started, w'⟩
  rw [hstarted] at hstarts hrun
  dsimp only at hstarts
  generalize hr : (onOperation ⟨.start, path, oldPath⟩).run ⟨w, []⟩ = r at hrun ⊢
  have hrejected (hfails : r.1.isOk = false) : Mirrors tracked w'.store.tracking := by
    rcases hstarts.tracking with ⟨-, -, -, hsame⟩ | ⟨key, hkey, htracking⟩
    · rwa [hsame]
    · rw [htracking]
      refine h.restart ((hfaithful key hkey).2 fun haccepted => ?_)
      have hok : r.1.isOk = true := hr ▸ haccepted
      rw [hfails] at hok
      cases hok
  cases started with
  | error e =>
    subst hrun
    exact hrejected rfl
  | ok snapshot =>
    dsimp only at hrun
    cases hreal : w'.store.workspace.realPath w'.disk snapshot.key.file with
    | error e =>
      rw [hreal] at hrun
      subst hrun
      exact hrejected rfl
    | ok real =>
      rw [hreal] at hrun
      subst hrun
      rcases hstarts.tracking with ⟨e, -, herror, -⟩ | ⟨key, hkey, htracking⟩
      · cases herror
      · have haccepted : Message.Accepted w (.operation ⟨.start, path, oldPath⟩) := by
          change Except.isOk ((onOperation _).run _).1 = true
          rw [hr]
          rfl
        have hpath := (hfaithful key hkey).1 haccepted
        change Mirrors _ w'.store.tracking
        rw [htracking, hpath]
        exact h.start path oldPath

theorem tells_forget (h : Mirrors tracked w.store.tracking) {kind : FileOperation.Kind}
    (hkind : kind = .stop ∨ kind = .delete) {path : String} {oldPath : Option String}
    (hfaithful : ∀ key, w.store.key w.disk path = .ok key → key.file = path) :
    Tells tracked ((onOperation ⟨kind, path, oldPath⟩).run ⟨w, []⟩) := by
  rw [run_forget hkind]
  cases hkey : w.store.key w.disk path with
  | error e => exact h
  | ok key =>
    have hstopped := h.stop path
    unfold Tells
    dsimp only
    rw [World.discard_tracking, hfaithful key hkey]
    rcases hkind with rfl | rfl <;> exact hstopped

theorem tells_retrack (h : Mirrors tracked w.store.tracking) {kind : FileOperation.Kind}
    {change : Tracking → String → Tracking}
    (hkind : kind = .suspend ∧ change = Tracking.suspend ∨
      kind = .resume ∧ change = Tracking.resume)
    (path : String) (oldPath : Option String) :
    Tells tracked ((onOperation ⟨kind, path, oldPath⟩).run ⟨w, []⟩) := by
  rw [run_retrack hkind]
  cases Workspace.normalize path with
  | error e => exact h
  | ok file => rcases hkind with ⟨rfl, rfl⟩ | ⟨rfl, rfl⟩ <;> exact h.setState file _

theorem tells_move (h : Mirrors tracked w.store.tracking) {old path : String}
    (hfaithful : Message.Faithful w (.operation ⟨.move, path, some old⟩)) :
    Tells tracked ((onOperation ⟨.move, path, some old⟩).run ⟨w, []⟩) := by
  rw [run_move]
  cases hold : w.store.key w.disk old with
  | error e => exact h
  | ok oldKey =>
    cases hnew : w.store.key w.disk path with
    | error e => exact h
    | ok newKey =>
      obtain ⟨hfile, hfile'⟩ := hfaithful oldKey newKey hold hnew
      have hmoved := h.rename old path
      dsimp only
      cases w.store.copies.get? oldKey with
      | none =>
        rw [hfile, hfile']
        exact hmoved
      | some copy =>
        unfold Tells
        dsimp only
        rw [World.rehome_tracking, hfile, hfile']
        exact hmoved

theorem mem_discarded (h : w.Proper shadows) {project file : String} :
    file ∈ ((w.store.copies.filter fun key _ => key.project = project).entries.map
        fun (_, copy) => copy.key.file).mergeSort (fun a b => a ≤ b) ↔
      (w.store.copies.get? ⟨project, file⟩).isSome := by
  have hentry (key : WorkingCopy.Key) (copy : WorkingCopy) :
      (key, copy) ∈ (w.store.copies.filter fun key _ => key.project = project).entries ↔
        key.project = project ∧ w.store.copies.get? key = some copy := by
    rw [← Table.get?_eq_some_iff, Table.get?_filter, Option.filter_eq_some_iff, decide_eq_true_eq]
    exact and_comm
  rw [List.mem_mergeSort, List.mem_map, Option.isSome_iff_exists]
  constructor
  · rintro ⟨⟨key, copy⟩, hmem, rfl⟩
    obtain ⟨rfl, hcopy⟩ := (hentry key copy).mp hmem
    refine ⟨copy, ?_⟩
    dsimp only
    rw [(h.copies key copy hcopy).key_eq]
    exact hcopy
  · rintro ⟨copy, hcopy⟩
    refine ⟨(⟨project, file⟩, copy), (hentry _ _).mpr ⟨rfl, hcopy⟩, ?_⟩
    dsimp only
    rw [(h.copies _ copy hcopy).key_eq]

theorem tells_onProjectRemoved (h : Mirrors tracked w.store.tracking) (hproper : w.Proper shadows)
    (hbacked : w.Backed) {m : ProjectRemoved} (hfaithful : Message.Faithful w (.projectRemoved m)) :
    Tells tracked ((onProjectRemoved m).run ⟨w, []⟩) := by
  have hrun := run_onProjectRemoved m w
  rw [Store.perform_discardProject] at hrun
  generalize hr : (onProjectRemoved m).run ⟨w, []⟩ = r at hrun ⊢
  cases hnormalize : Workspace.normalize m.project with
  | error e =>
    rw [hnormalize] at hrun
    subst hrun
    exact h
  | ok project =>
    rw [hnormalize] at hrun
    have hproject := Workspace.normalize_eq_ok_iff.mp hnormalize
    cases hremove : (w.store.shadows.removeProject w.disk project).2 with
    | error e =>
      simp only [hremove] at hrun
      subst hrun
      -- nothing is told, so no session may end
      have hnone : ∀ file, (w.store.tracking.state? file).isSome →
          (Tracking.isUnder project file ↔ file ∈ []) := by
        intro file hsome
        refine ⟨fun hunder => ?_, fun hmem => absurd hmem List.not_mem_nil⟩
        have haccepted := (hfaithful project hproject file hunder hsome).1
        change Except.isOk ((onProjectRemoved m).run _).1 = true at haccepted
        rw [hr] at haccepted
        cases haccepted
      have hremoved := h.removeUnder hnone
      rwa [← Session.Stats.foldl_delete] at hremoved
    | ok done =>
      simp only [hremove, Except.map] at hrun
      subst hrun
      unfold Tells
      rw [trackings_deletions, Session.Stats.foldl_delete]
      refine h.removeUnder fun file hsome => ?_
      rw [mem_discarded hproper]
      obtain ⟨key, rfl, hkey⟩ := hbacked file hsome
      obtain ⟨copy, hcopy⟩ := Option.isSome_iff_exists.mp hkey
      have hentry := hproper.copies key copy hcopy
      constructor
      -- no other project has the file, so its working copy is among those of this one
      · intro hunder
        obtain ⟨disk, hassigned⟩ := hentry.assigned
        rw [← hproper.shadows_eq] at hassigned
        have howner := (hfaithful project hproject key.file hunder hsome).2 disk _ hassigned
        rwa [← howner]
      · intro hsome'
        obtain ⟨copy', hcopy'⟩ := Option.isSome_iff_exists.mp hsome'
        have hentry' := hproper.copies _ copy' hcopy'
        apply Tracking.isUnder_of_isProperAncestor (Path.normalize?_normal hproject).1 hentry.normal
        exact Workspace.isProperAncestor_owner? hentry.normal hentry'.owner

theorem tells_of_silent (h : Mirrors tracked w.store.tracking) {m : Message}
    (hsilent : Leaves (fun s => trackings s.outputs) (onMessage m))
    (htracking : ((onMessage m).run ⟨w, []⟩).2.world.store.tracking = w.store.tracking) :
    Tells tracked ((onMessage m).run ⟨w, []⟩) := by
  have hnothing : trackings ((onMessage m).run ⟨w, []⟩).2.outputs = [] := hsilent ⟨w, []⟩
  unfold Tells
  rw [hnothing, htracking]
  exact h

theorem tells_onMessage (h : Mirrors tracked w.store.tracking) (hreachable : Reachable shadows w)
    (hbacked : w.Backed) {m : Message} (hfaithful : m.Faithful w) :
    Tells tracked ((onMessage m).run ⟨w, []⟩) := by
  cases m with
  | changes m =>
    apply tells_of_silent (m := .changes m) h (trackings_onChanges m)
    rw [world_onMessage]
    exact (Store.applies w m).tracking
  | reconcile m =>
    apply tells_of_silent (m := .reconcile m) h (trackings_onReconcile m)
    rw [world_onMessage]
    rfl
  | projectRemoved m => exact tells_onProjectRemoved h hreachable.proper hbacked hfaithful
  | operation m =>
    obtain ⟨kind, path, oldPath⟩ := m
    cases kind with
    | start => exact tells_start h hfaithful
    | stop => exact tells_forget h (.inl rfl) hfaithful
    | delete => exact tells_forget h (.inr rfl) hfaithful
    | suspend => exact tells_retrack h (.inl ⟨rfl, rfl⟩) path oldPath
    | resume => exact tells_retrack h (.inr ⟨rfl, rfl⟩) path oldPath
    | move =>
      cases oldPath with
      | none => exact h
      | some old => exact tells_move h hfaithful

theorem backed_start (hreachable : Reachable shadows w) (hbacked : w.Backed) {path : String}
    {oldPath : Option String}
    (hfaithful : Message.Faithful w (.operation ⟨.start, path, oldPath⟩)) :
    ((Call.start path).after w).Backed := by
  have hstarts := Store.starts w path
  have hrun := run_start path oldPath w
  change ((Store.start path).perform w).2.Backed
  generalize (Store.start path).perform w = result at hstarts hrun ⊢
  obtain ⟨started, w'⟩ := result
  refine hstarts.backed hreachable hbacked fun key hkey => ?_
  cases started with
  | ok snapshot => exact .inl rfl
  | error e =>
    refine .inr ((hfaithful key hkey).2 fun haccepted => ?_)
    change Except.isOk ((onOperation _).run _).1 = true at haccepted
    rw [hrun] at haccepted
    cases haccepted

theorem backed_onMessage (hreachable : Reachable shadows w) (hbacked : w.Backed) {m : Message}
    (hfaithful : m.Faithful w) : ((onMessage m).run ⟨w, []⟩).2.world.Backed := by
  rw [world_onMessage]
  cases m with
  | changes m => exact hbacked.after hreachable (.apply m) nofun
  | reconcile m => exact hbacked
  | projectRemoved m => exact hbacked.after hreachable (.discardProject m.project) nofun
  | operation m =>
    obtain ⟨kind, path, oldPath⟩ := m
    cases kind with
    | start => exact backed_start hreachable hbacked hfaithful
    | stop => exact hbacked.after hreachable (.stop path) nofun
    | delete => exact hbacked.after hreachable (.discardFile path) nofun
    | suspend => exact hbacked.after hreachable (.suspend path) nofun
    | resume => exact hbacked.after hreachable (.resume path) nofun
    | move =>
      cases oldPath with
      | none => exact hbacked
      | some old => exact hbacked.after hreachable (.move old path) nofun

structure Told (shadows : Shadows) (tracked : List String) (w : World) : Prop where
  reachable : Reachable shadows w
  backed : w.Backed
  mirrors : Mirrors tracked w.store.tracking

theorem Told.new (shadows : Shadows) (settings : Store.Settings) (disk : Disk) :
    Told shadows [] ⟨.new shadows settings, disk⟩ where
  reachable := .new settings disk
  backed _ hsome := absurd hsome Bool.false_ne_true
  mirrors := .empty

theorem Told.handle (h : Told shadows tracked w) {n : Notification}
    (hfaithful : ∀ m, Message.of? n = some (.ok m) → m.Faithful w) :
    Told shadows ((trackings (Tracker.handle w n).2).foldl Event.retrack tracked)
      (Tracker.handle w n).1 := by
  cases hread : Message.of? n with
  | none =>
    simp only [Tracker.handle, hread]
    exact h
  | some read =>
    cases read with
    | error e =>
      simp only [Tracker.handle, hread]
      exact h
    | ok m =>
      have hmessage := hfaithful m hread
      refine ⟨reachable_handle h.reachable n, ?_, ?_⟩
      · rw [handle_of_message hread]
        exact backed_onMessage h.reachable h.backed hmessage
      · rw [handle_of_message hread, trackings_append, trackings_rejections, List.append_nil]
        exact tells_onMessage h.mirrors h.reachable h.backed hmessage

theorem Told.after (h : Told shadows tracked w) {occurrence : Occurrence}
    (hfaithful : occurrence.Faithful w) :
    Told shadows ((trackings (occurrence.outputs w)).foldl Event.retrack tracked)
      (occurrence.after w) := by
  cases occurrence with
  | notified n => exact h.handle hfaithful
  | altered disk => exact ⟨h.reachable.disk disk, h.backed, h.mirrors⟩

theorem Told.gather (h : Told shadows tracked w) {occurrences : List Occurrence}
    (hfaithful : Faithful w occurrences) :
    Told shadows
      ((trackings (Tracker.gather (fun w o => o.outputs w) w occurrences)).foldl Event.retrack tracked)
      (occurrences.foldl Occurrence.after w) := by
  induction occurrences generalizing w tracked with
  | nil => exact h
  | cons occurrence rest ih =>
    rw [Tracker.gather, trackings_append, List.foldl_append, List.foldl_cons]
    exact ih (h.after hfaithful.1) hfaithful.2

/-- A log that has the events of the sessions in their order gives as tracked files those that
have a session. -/
theorem tracked_of_run (shadows : Shadows) (settings : Store.Settings) (disk : Disk)
    {occurrences : List Occurrence} {written : List Entry} {directory : Directory} {id : String}
    {disk' : Disk} (hfaithful : Faithful ⟨.new shadows settings, disk⟩ occurrences)
    (hsound : ∀ entry ∈ written, entry.Sound)
    (hwritten : (written.map (·.event)).filter Event.isTracking =
      trackings (gather (fun w o => o.outputs w) ⟨.new shadows settings, disk⟩ occurrences))
    (hlog : directory.log disk' id = .ok (written.flatMap Entry.toLine)) :
    (directory.stats disk' id).tracked =
      (occurrences.foldl Occurrence.after ⟨.new shadows settings, disk⟩).store.tracking.paths := by
  have htold := (Told.new shadows settings disk).gather hfaithful
  rw [Directory.stats_of_log hsound hlog, Stats.tracked_ofEvents, hwritten]
  exact htold.mirrors.sort_eq

def sessions : Directory := ⟨"/home", fun _ => true⟩

def logDisk (log : Bytes) : Disk :=
  ⟨.ofList [(["home"], .dir), (["home", "s"], .dir), (["home", "s", "events.jsonl"], .file log)]⟩

theorem log_logDisk (log : Bytes) : sessions.log (logDisk log) "s" = .ok log := by
  have hfile : sessions.logFile "s" = "/home/s/events.jsonl" := by decide
  have hsegments : Path.segments "/home/s/events.jsonl" = ["", "home", "s", "events.jsonl"] := by
    decide
  have hhome : Disk.entry? (logDisk log) ["home"] = some .dir := rfl
  have hdir : Disk.entry? (logDisk log) ["home", "s"] = some .dir := rfl
  have hentry : Disk.entry? (logDisk log) ["home", "s", "events.jsonl"] = some (.file log) := rfl
  have hshort : ∀ name ∈ ["home", "s", "events.jsonl"], ¬Disk.maxName < name.utf8ByteSize := by
    decide
  simp only [List.forall_mem_cons] at hshort
  have hlocate : (logDisk log).locate true "/home/s/events.jsonl" =
      .ok (.found ["home", "s", "events.jsonl"] (.file log)) := by
    rw [Disk.locate, if_neg (by decide), if_neg (by decide), hsegments]
    simp [Disk.walk, hhome, hdir, hentry, hshort]
  unfold Directory.log Disk.read
  rw [hfile, hlocate]
  rfl

def bareShadows : Shadows := ⟨.ofRoot Store.bareDisk "/ws", ".tandem"⟩

def inMemory : Store.Settings := { Store.Settings.default with persist := false }

def bareWorld : World := ⟨.new bareShadows inMemory, Store.bareDisk⟩

def operation (m : FileOperation) : Occurrence :=
  .notified (.of FileOperation.method (FileOperation.toJson m))

theorem Occurrence.faithful_of_message {n : Notification} {m : Message}
    (hread : Message.of? n = some (.ok m)) (h : m.Faithful w) : (notified n).Faithful w := by
  intro m' hread'
  cases hread.symm.trans hread'
  exact h

def startThenMove : List Occurrence :=
  [operation ⟨.start, "/p/a", none⟩, operation ⟨.suspend, "//p/a", none⟩,
    operation ⟨.move, "/p/b", some "/p/a"⟩]

theorem faithful_startThenMove : Faithful bareWorld startThenMove := by
  have hnormal {w : World} {path : String} (h : Path.normalize? path = some path)
      {key : WorkingCopy.Key} (hkey : w.store.key w.disk path = .ok key) : key.file = path :=
    Option.some.inj ((Store.key_eq_ok hkey).1.symm.trans h)
  have hstart : Message.Accepted bareWorld (.operation ⟨.start, "/p/a", none⟩) := by
    unfold Message.Accepted
    cbv
  have ha : Path.normalize? "/p/a" = some "/p/a" := by decide
  have hb : Path.normalize? "/p/b" = some "/p/b" := by decide
  refine ⟨?_, ?_, ?_, trivial⟩
  · apply Occurrence.faithful_of_message (m := .operation ⟨.start, "/p/a", none⟩) (by cbv)
    exact fun key hkey => ⟨fun _ => hnormal ha hkey, fun hrejected => absurd hstart hrejected⟩
  · exact Occurrence.faithful_of_message (m := .operation ⟨.suspend, "//p/a", none⟩) (by cbv) trivial
  · apply Occurrence.faithful_of_message (m := .operation ⟨.move, "/p/b", some "/p/a"⟩) (by cbv)
    exact fun _ _ hold hnew => ⟨hnormal ha hold, hnormal hb hnew⟩

def noon : Time.Timestamp := ⟨1767268800, 0⟩

def stamped (events : List Event) : List Entry := events.map fun e => ⟨noon, e⟩

theorem sound_noon : noon.Sound := ⟨by decide, .inl (by decide)⟩

theorem tracked_of_run_moved :
    let written := stamped [.started, .tracking "/p/a" "start" none,
      .tracking "//p/a" "suspend" none, .tracking "/p/b" "move" (some "/p/a")]
    Faithful bareWorld startThenMove ∧ (∀ entry ∈ written, entry.Sound) ∧
      (written.map (·.event)).filter Event.isTracking =
        trackings (gather (fun w o => o.outputs w) bareWorld startThenMove) ∧
      sessions.log (logDisk (written.flatMap Entry.toLine)) "s" =
        .ok (written.flatMap Entry.toLine) ∧
      (sessions.stats (logDisk (written.flatMap Entry.toLine)) "s").tracked = ["/p/b"] := by
  intro written
  have hsound : ∀ entry ∈ written, entry.Sound := by
    intro entry hentry
    obtain ⟨e, he, rfl⟩ := List.mem_map.mp hentry
    refine ⟨sound_noon, ?_⟩
    simp only [List.mem_cons, List.not_mem_nil, or_false] at he
    rcases he with rfl | rfl | rfl | rfl <;> trivial
  have hwritten : (written.map (·.event)).filter Event.isTracking =
      trackings (gather (fun w o => o.outputs w) bareWorld startThenMove) := by cbv
  have hlog := log_logDisk (written.flatMap Entry.toLine)
  have hpaths : (startThenMove.foldl Occurrence.after bareWorld).store.tracking.paths =
      ["/p/b"] := by cbv
  refine ⟨faithful_startThenMove, hsound, hwritten, hlog, ?_⟩
  rw [← hpaths]
  exact tracked_of_run bareShadows inMemory Store.bareDisk faithful_startThenMove hsound hwritten hlog

theorem tracked_under_another_spelling :
    let start := operation ⟨.start, "//p/a", none⟩
    let written := stamped (trackings (start.outputs bareWorld))
    (start.after bareWorld).store.tracking.paths = ["/p/a"] ∧
      (sessions.stats (logDisk (written.flatMap Entry.toLine)) "s").tracked = ["//p/a"] := by
  intro start written
  have hevents : trackings (start.outputs bareWorld) = [.tracking "//p/a" "start" none] := by cbv
  have hwritten : written = stamped [.tracking "//p/a" "start" none] := by rw [← hevents]
  refine ⟨by cbv, ?_⟩
  rw [Directory.stats_of_log _ (log_logDisk _), hwritten]
  · cbv
  · rw [hwritten]
    intro entry hentry
    rw [List.mem_singleton.mp hentry]
    exact ⟨sound_noon, trivial⟩

end EditorSync.Tracker

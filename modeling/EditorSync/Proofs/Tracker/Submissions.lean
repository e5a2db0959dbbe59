import EditorSync.Proofs.Store.Deliveries
import EditorSync.Proofs.Tracker.Handling

namespace EditorSync.Tracker

open Procedure
open Rpc (Notification)
open Store (World Snapshot Reachable)

variable {α : Type} {shadows : Shadows} {w : World} {file : String}

def submitted (file : String) (outputs : List Output) : List String :=
  outputs.filterMap fun
    | .dispatch name (.pass request _) => if name = file then some request.content else none
    | _ => none

def Output.isRejection : Output → Bool
  | .event (.rejected ..) => true
  | _ => false

/-- The texts that the engine is owed for a file when a notification is handled. A delta may take
the real file out of the workspace, and then its message is rejected. -/
def owed (file : String) (w : World) (n : Notification) : List String :=
  let (w', outputs) := handle w n
  match Message.of? n with
  | some (.ok (.operation ⟨.start, path, _⟩)) =>
    if Path.normalize? path = some file ∧ !outputs.any Output.isRejection then (w'.text? file).toList
    else []
  | some (.ok (.changes m)) =>
    if Path.normalize? m.file = some file ∧ (w'.store.workspace.realPath w'.disk file).isOk then
      w.textsOnDelivery m
    else []
  | some (.ok (.reconcile m)) =>
    if Path.normalize? m.path = some file ∧ w.store.trackingState? m.path ≠ some .suspended ∧
        (w.store.key w.disk m.path).isOk then
      (w.text? file).toList
    else []
  | _ => []

inductive Occurrence where
  | notified (n : Notification)
  | altered (disk : Disk)

def Occurrence.after (w : World) : Occurrence → World
  | notified n => (handle w n).1
  | altered disk => { w with disk := disk }

def Occurrence.outputs (w : World) : Occurrence → List Output
  | notified n => (handle w n).2
  | altered _ => []

def Occurrence.owed (file : String) (w : World) : Occurrence → List String
  | notified n => Tracker.owed file w n
  | altered _ => []

def gather (f : World → Occurrence → List α) : World → List Occurrence → List α
  | _, [] => []
  | w, occurrence :: rest => f w occurrence ++ gather f (occurrence.after w) rest

theorem submitted_append (outputs outputs' : List Output) :
    submitted file (outputs ++ outputs') = submitted file outputs ++ submitted file outputs' :=
  List.filterMap_append

theorem submitted_job (snapshot : Snapshot) (real : String) :
    submitted file [Snapshot.job snapshot real] =
      if snapshot.key.file = file then [snapshot.content] else [] := by
  unfold submitted Snapshot.job
  rw [List.filterMap_cons]
  dsimp only
  split <;> simp_all

structure Plain (view : State → α) : Prop where
  store : ∀ w w' outputs, view ⟨w', outputs⟩ = view ⟨w, outputs⟩
  release : ∀ w outputs file, view ⟨w, outputs ++ [.dispatch file .release]⟩ = view ⟨w, outputs⟩
  event : ∀ w outputs event, (Output.event event).isRejection = false →
    view ⟨w, outputs ++ [.event event]⟩ = view ⟨w, outputs⟩

section Plain

variable {view : State → α} (h : Plain view)

include h

theorem Plain.emit {event : Session.Event} (hevent : (Output.event event).isRejection = false) :
    Leaves view (emit (.event event)) := leaves_emit fun w outputs => h.event w outputs event hevent

theorem Plain.onProjectRemoved (m : ProjectRemoved) : Leaves view (onProjectRemoved m) := by
  refine (leaves_onStore h.store _).bind fun files => ?_
  refine (respects_forIn (fun file => ?_) files).bind fun _ => respects_pure _
  exact (leaves_emit fun w outputs => h.release w outputs file).bind fun _ =>
    (h.emit rfl).bind fun _ => respects_pure _

theorem Plain.onOperation (m : FileOperation)
    (hsubmit : m.kind = .start → ∀ snapshot, Leaves view (submit snapshot)) :
    Leaves view (onOperation m) := by
  obtain ⟨kind, path, oldPath⟩ := m
  have hrelease := leaves_release h.release
  unfold Tracker.onOperation
  cases kind with
  | start =>
    exact (leaves_onStore h.store _).bind fun snapshot => (hsubmit rfl snapshot).bind fun _ =>
      h.emit rfl
  | suspend | resume => exact (leaves_onStore h.store _).bind fun _ => h.emit rfl
  | stop | delete =>
    exact (leaves_onStore h.store _).bind fun _ => (hrelease path).bind fun _ => h.emit rfl
  | move =>
    cases oldPath with
    | none => exact (respects_throw _).bind fun _ => h.emit rfl
    | some old =>
      refine (leaves_onStore h.store _).bind fun moved => ?_
      split
      · exact (hrelease old).bind fun _ => h.emit rfl
      · exact h.emit rfl

end Plain

theorem plain_submitted : Plain fun s => submitted file s.outputs where
  store _ _ _ := rfl
  release _ _ _ := (submitted_append _ _).trans (List.append_nil _)
  event _ _ _ _ := (submitted_append _ _).trans (List.append_nil _)

theorem plain_rejected : Plain fun s => s.outputs.any Output.isRejection where
  store _ _ _ := rfl
  release _ _ _ := List.any_append.trans (Bool.or_false _)
  event _ _ event h := by
    dsimp only
    rw [List.any_append, List.any_cons, h]
    exact Bool.or_false _

theorem rejected_onMessage (m : Message) :
    Leaves (fun s => s.outputs.any Output.isRejection) (onMessage m) := by
  have hsubmit (snapshot : Snapshot) :
      Leaves (fun s => s.outputs.any Output.isRejection) (submit snapshot) :=
    leaves_submit (fun _ _ _ _ => List.any_append.trans (Bool.or_false _)) snapshot
  cases m with
  | operation m => exact plain_rejected.onOperation m fun _ => hsubmit
  | projectRemoved m => exact plain_rejected.onProjectRemoved m
  | changes m =>
    refine (leaves_onStore plain_rejected.store _).bind fun outcome => ?_
    cases outcome with
    | applied steps => exact leaves_report (fun _ _ _ _ => plain_rejected.emit rfl) hsubmit steps
    | buffered => exact plain_rejected.emit rfl
    | skipped => exact respects_pure _
  | reconcile m =>
    intro s
    change _ = s.outputs.any Output.isRejection
    rw [onMessage, run_onReconcile]
    split
    · rfl
    · split
      · rfl
      · exact hsubmit _ s

theorem run_report {real : String} (steps : List (WorkingCopy.Applied × Snapshot))
    (hreal : ∀ step ∈ steps,
      w.store.workspace.realPath w.disk step.2.key.file = .ok real) (outputs : List Output) :
    (report steps).run ⟨w, outputs⟩ =
      (.ok (), ⟨w, outputs ++ steps.flatMap fun (applied, snapshot) =>
        [.event (.deltaApplied snapshot.key.file applied.kind.name applied.seq
          applied.content.utf8ByteSize), Snapshot.job snapshot real]⟩) := by
  unfold report
  rw [run_bind, run_forIn _ _ steps w outputs]
  · rfl
  · intro step hstep outputs
    dsimp only
    rw [run_bind, run_emit]
    dsimp only
    rw [run_bind, run_submit]
    dsimp only
    rw [hreal step hstep]
    dsimp only
    rw [List.append_assoc]
    rfl

theorem run_report_of_error {e : SyncError} {applied : WorkingCopy.Applied} {snapshot : Snapshot}
    (rest : List (WorkingCopy.Applied × Snapshot))
    (hreal : w.store.workspace.realPath w.disk snapshot.key.file = .error e) :
    (report ((applied, snapshot) :: rest)).run ⟨w, []⟩ =
      (.error e, ⟨w, [.event (.deltaApplied snapshot.key.file applied.kind.name applied.seq
          applied.content.utf8ByteSize)]⟩) := by
  unfold report
  rw [List.forIn_cons, run_bind, run_bind, run_bind, run_emit]
  dsimp only
  rw [run_bind, run_submit]
  dsimp only
  rw [hreal]
  rfl

theorem submitted_report {real name : String} {steps : List (WorkingCopy.Applied × Snapshot)}
    (hfile : ∀ step ∈ steps, step.2.key.file = name) :
    submitted file (steps.flatMap fun (applied, snapshot) =>
      [.event (.deltaApplied snapshot.key.file applied.kind.name applied.seq
        applied.content.utf8ByteSize), Snapshot.job snapshot real]) =
      if name = file then steps.map (·.2.content) else [] := by
  induction steps with
  | nil => exact (ite_self _).symm
  | cons step rest ih =>
    have hjob : submitted file [Snapshot.job step.2 real] = _ := submitted_job step.2 real
    rw [hfile step List.mem_cons_self] at hjob
    rw [List.flatMap_cons, submitted_append, ih fun s hs => hfile s (List.mem_cons_of_mem _ hs)]
    change submitted file [Snapshot.job step.2 real] ++ _ = _
    rw [hjob]
    split <;> rfl

structure Settles (file : String) (owed : List String) (r : Except SyncError Unit × State) :
    Prop where
  paid : submitted file r.2.outputs = owed
  rejected : r.1.isOk = false → submitted file r.2.outputs = []

theorem Settles.nothing {owed : List String} {r : Except SyncError Unit × State}
    (h : submitted file r.2.outputs = []) (howed : owed = []) : Settles file owed r :=
  ⟨h.trans howed.symm, fun _ => h⟩

theorem settles_report {w' : World} {m : EditorChanges}
    {steps : List (WorkingCopy.Applied × Snapshot)} (hne : steps ≠ [])
    (hfile : ∀ step ∈ steps, Path.normalize? m.file = some step.2.key.file) :
    Settles file
      (if Path.normalize? m.file = some file ∧
          (w'.store.workspace.realPath w'.disk file).isOk then steps.map (·.2.content) else [])
      ((report steps).run ⟨w', []⟩) := by
  obtain ⟨⟨applied, snapshot⟩, rest, rfl⟩ := List.exists_cons_of_ne_nil hne
  have hsame : ∀ step ∈ (applied, snapshot) :: rest, step.2.key.file = snapshot.key.file :=
    fun step hstep =>
      Option.some.inj ((hfile step hstep).symm.trans (hfile _ List.mem_cons_self))
  have hname : Path.normalize? m.file = some file ↔ snapshot.key.file = file := by
    rw [hfile _ List.mem_cons_self, Option.some.injEq]
  simp only [hname]
  cases hreal : w'.store.workspace.realPath w'.disk snapshot.key.file with
  | error e =>
    rw [run_report_of_error rest hreal]
    refine .nothing rfl (if_neg ?_)
    rintro ⟨rfl, hok⟩
    rw [hreal] at hok
    cases hok
  | ok real =>
    rw [run_report _ fun step hstep => hsame step hstep ▸ hreal]
    refine ⟨(submitted_report hsame).trans ?_, fun h => nomatch h⟩
    by_cases h : snapshot.key.file = file
    · rw [if_pos h, if_pos ⟨h, by rw [← h, hreal]; rfl⟩]
    · rw [if_neg h, if_neg fun hcond => h hcond.1]

theorem settles_onChanges (h : w.Proper shadows) (m : EditorChanges) :
    let w' := ((Store.apply m).perform w).2
    Settles file
      (if Path.normalize? m.file = some file ∧
          (w'.store.workspace.realPath w'.disk file).isOk then w.textsOnDelivery m else [])
      ((onChanges m).run ⟨w, []⟩) := by
  have happlies := Store.applies w m
  unfold onChanges
  rw [run_bind, run_onStore]
  dsimp only
  cases hrun : (Store.apply m).perform w with
  | mk r w' =>
    rw [hrun] at happlies
    dsimp only at happlies ⊢
    have hnone (hr : ∀ steps, r ≠ .ok (.applied steps)) :
        (if Path.normalize? m.file = some file ∧
          (w'.store.workspace.realPath w'.disk file).isOk then w.textsOnDelivery m else []) = [] := by
      rw [happlies.textsOnDelivery_of_not_applied h hr, ite_self]
    cases r with
    | error e => exact .nothing rfl (hnone fun _ hr => by cases hr)
    | ok outcome =>
      cases outcome with
      | buffered seq => exact .nothing rfl (hnone fun _ hr => by cases hr)
      | skipped => exact .nothing rfl (hnone fun _ hr => by cases hr)
      | applied steps =>
        obtain ⟨hfile, hne, htexts⟩ := happlies.textsOnDelivery_of_applied
        rw [← htexts]
        exact settles_report hne hfile

theorem settles_start (h : w.Proper shadows) (path : String) (oldPath : Option String) :
    let r := (onOperation ⟨.start, path, oldPath⟩).run ⟨w, []⟩
    Settles file
      (if Path.normalize? path = some file ∧ r.1.isOk then (r.2.world.text? file).toList else []) r := by
  have hstarts := Store.starts w path
  intro r
  have hr : r = _ := run_start path oldPath w
  clear_value r
  cases hrun : (Store.start path).perform w with
  | mk started w' =>
    rw [hrun] at hstarts hr
    cases started with
    | error e =>
      subst hr
      exact .nothing rfl (if_neg fun hcond => by cases hcond.2)
    | ok snapshot =>
      obtain ⟨hpath, htext⟩ := hstarts.text?_eq h
      dsimp only at hr
      cases hreal : w'.store.workspace.realPath w'.disk snapshot.key.file with
      | error e =>
        rw [hreal] at hr
        subst hr
        exact .nothing rfl (if_neg fun hcond => by cases hcond.2)
      | ok real =>
        rw [hreal] at hr
        subst hr
        refine ⟨(submitted_job snapshot real).trans ?_, fun h => nomatch h⟩
        by_cases hfile : snapshot.key.file = file
        · subst hfile
          rw [if_pos rfl, if_pos ⟨hpath, rfl⟩, htext]
          rfl
        · rw [if_neg hfile, if_neg fun hcond => hfile (Option.some.inj (hpath.symm.trans hcond.1))]

theorem settles_onReconcile (h : w.Proper shadows) (m : ReconcileRequest) :
    Settles file
      (if Path.normalize? m.path = some file ∧ w.store.trackingState? m.path ≠ some .suspended ∧
          (w.store.key w.disk m.path).isOk then (w.text? file).toList else [])
      ((onReconcile m).run ⟨w, []⟩) := by
  rw [run_onReconcile, Store.perform_snapshot]
  dsimp only
  by_cases hsuspended : w.store.trackingState? m.path = some .suspended
  · rw [if_pos hsuspended]
    exact .nothing rfl (if_neg fun hcond => hcond.2.1 hsuspended)
  rw [if_neg hsuspended]
  cases hkey : w.store.key w.disk m.path with
  | error e => exact .nothing rfl (if_neg fun hcond => by cases hcond.2.2)
  | ok key =>
    obtain ⟨hpath, -, howner⟩ := Store.key_eq_ok hkey
    rw [Store.workspace, h.shadows_eq] at howner
    have hcond : (Path.normalize? m.path = some file ∧
        w.store.trackingState? m.path ≠ some .suspended ∧
          (Except.ok key : Except SyncError WorkingCopy.Key).isOk) ↔ key.file = file := by
      rw [hpath, Option.some.injEq]
      exact ⟨fun hcond => hcond.1, fun hfile => ⟨hfile, hsuspended, rfl⟩⟩
    simp only [hcond]
    have htext := h.text?_eq howner
    cases hcopy : w.store.copies.get? key with
    | none =>
      refine .nothing rfl ?_
      split
      · rename_i hfile
        rw [← hfile, htext, hcopy]
        rfl
      · rfl
    | some copy =>
      obtain ⟨real, hreal⟩ := (Store.resolves_of_key hkey).1
      have hkeyed := (h.copies key copy hcopy).key_eq
      dsimp only [Store.Snapshot.of]
      rw [run_submit, hkeyed]
      dsimp only
      rw [hreal]
      refine ⟨(submitted_job _ real).trans ?_, fun h => by cases h⟩
      dsimp only
      by_cases hfile : key.file = file
      · rw [if_pos hfile, if_pos hfile, ← hfile, htext, hcopy]
        rfl
      · rw [if_neg hfile, if_neg hfile]

theorem settles_nothing {x : Action Unit} (h : Leaves (fun s => submitted file s.outputs) x) :
    Settles file [] (x.run ⟨w, []⟩) := .nothing (h ⟨w, []⟩) rfl

theorem submitted_rejections (path : String) (r : Except SyncError Unit) :
    submitted file (rejections path r) = [] := by cases r <;> rfl

theorem any_isRejection_handle {n : Notification} {m : Message}
    (hn : Message.of? n = some (.ok m)) :
    (handle w n).2.any Output.isRejection = !((onMessage m).run ⟨w, []⟩).1.isOk := by
  have hsilent : ((onMessage m).run ⟨w, []⟩).2.outputs.any Output.isRejection = false :=
    rejected_onMessage m ⟨w, []⟩
  rw [handle_of_message hn, List.any_append, hsilent, Bool.false_or]
  cases ((onMessage m).run ⟨w, []⟩).1 <;> rfl

theorem settles_onMessage (h : w.Proper shadows) {n : Notification} {m : Message}
    (hn : Message.of? n = some (.ok m)) :
    Settles file (owed file w n) ((onMessage m).run ⟨w, []⟩) := by
  have hrejects := any_isRejection_handle (w := w) hn
  have hworld : (handle w n).1 = ((onMessage m).run ⟨w, []⟩).2.world := by
    rw [handle_of_message hn]
  unfold owed
  dsimp only
  rw [hworld, hrejects, hn]
  cases m with
  | changes m =>
    have happlied := world_onMessage (.changes m) ⟨w, []⟩
    rw [happlied]
    exact settles_onChanges h m
  | reconcile m => exact settles_onReconcile h m
  | projectRemoved m => exact settles_nothing (plain_submitted.onProjectRemoved m)
  | operation m =>
    obtain ⟨kind, path, oldPath⟩ := m
    cases kind with
    | start =>
      simp only [Bool.not_not]
      exact settles_start h path oldPath
    | _ => exact settles_nothing (plain_submitted.onOperation _ fun hkind => nomatch hkind)

theorem submitted_handle (h : Reachable shadows w) (n : Notification) :
    submitted file (handle w n).2 = owed file w n ∧
      ((handle w n).2.any Output.isRejection → submitted file (handle w n).2 = []) := by
  cases hn : Message.of? n with
  | none => simp [handle, owed, hn, submitted]
  | some read =>
    cases read with
    | error e => simp [handle, owed, hn, submitted, rejection]
    | ok m =>
      have hsettles : Settles file _ _ := settles_onMessage h.proper hn
      have hsubmitted : submitted file (handle w n).2 =
          submitted file ((onMessage m).run ⟨w, []⟩).2.outputs := by
        rw [handle_of_message hn, submitted_append, submitted_rejections, List.append_nil]
      rw [any_isRejection_handle hn, hsubmitted]
      exact ⟨hsettles.paid, fun hrejected => hsettles.rejected (by simpa using hrejected)⟩

theorem Occurrence.reachable (h : Reachable shadows w) (occurrence : Occurrence) :
    Reachable shadows (occurrence.after w) := by
  cases occurrence with
  | notified n => exact reachable_handle h n
  | altered disk => exact h.disk disk

theorem submitted_gather (h : Reachable shadows w) (occurrences : List Occurrence) :
    submitted file (gather (fun w o => o.outputs w) w occurrences) =
      gather (fun w o => o.owed file w) w occurrences := by
  induction occurrences generalizing w with
  | nil => rfl
  | cons occurrence rest ih =>
    rw [gather, gather, submitted_append, ih (occurrence.reachable h)]
    cases occurrence with
    | notified n => exact congrArg (· ++ _) (submitted_handle h n).1
    | altered => rfl

/-- The engine gets for a file what it is owed, in the order in which it comes to be owed, and
nothing from a notification that is rejected. -/
theorem submitted_of_run (shadows : Shadows) (settings : Store.Settings) (disk : Disk)
    (file : String) :
    (∀ occurrences,
        submitted file (gather (fun w o => o.outputs w) ⟨.new shadows settings, disk⟩ occurrences) =
          gather (fun w o => o.owed file w) ⟨.new shadows settings, disk⟩ occurrences) ∧
      ∀ w, Reachable shadows w → ∀ n, (handle w n).2.any Output.isRejection →
        submitted file (handle w n).2 = [] :=
  ⟨submitted_gather (.new settings disk), fun _ h n => (submitted_handle h n).2⟩

def leakyDisk : Disk :=
  ⟨.ofList [(["ws"], .dir), (["ws", "p"], .dir), (["ws", "p", ".tandem"], .link "/"),
    (["ws", "p", "l"], .link "/workingCopies/p.l")]⟩

def leakedDisk (text : String) : Disk :=
  ⟨.ofList [(["ws"], .dir), (["ws", "p"], .dir), (["ws", "p", ".tandem"], .link "/"),
    (["ws", "p", "l"], .link "/workingCopies/p.l"), (["workingCopies"], .dir),
    (["workingCopies", "p.l"], .file (Text.encode text))]⟩

def leakyWorld : World := ⟨.new ⟨.ofRoot leakyDisk "/ws", ".tandem"⟩ .default, leakyDisk⟩

def firstInsertion : EditorChanges where
  kind := .insert
  owner := "o"
  project := "/p"
  file := "/p/l"
  offset := 0
  length := none
  removed := none
  text := some "x"
  seq := none

theorem leakyWorld_key : leakyWorld.store.key leakyDisk "/p/l" = .ok ⟨"/p", "/p/l"⟩ := by cbv

theorem leakyWorld_dir (disk : Disk)
    (h : leakyWorld.store.shadows.workspace.realPath disk "/p" = .ok "/ws/p") :
    leakyWorld.store.shadows.dir disk "/p" = .ok "/ws/p/.tandem/workingCopies" := by
  rw [Shadows.dir, h]
  exact congrArg Except.ok (by decide)

theorem leakyWorld_initialContent :
    leakyWorld.store.initialContent leakyDisk ⟨"/p", "/p/l"⟩ = .ok ("", false) := by
  have hdir := leakyWorld_dir leakyDisk (by cbv)
  have hpath : leakyWorld.store.shadows.path leakyDisk "/p" "/p/l" =
      .ok "/ws/p/.tandem/workingCopies/p.l" := by
    rw [Shadows.path, hdir]
    exact congrArg Except.ok (by decide)
  have hreal : leakyWorld.store.shadows.workspace.realPath leakyDisk "/p/l" = .ok "/ws/p/l" := by
    cbv
  have hshadow : leakyDisk.readText "/ws/p/.tandem/workingCopies/p.l" = .error .notFound := by cbv
  have hfile : leakyDisk.readText "/ws/p/l" = .error .notFound := by cbv
  have hread : leakyWorld.store.shadows.read leakyDisk "/p" "/p/l" = .ok none := by
    rw [Shadows.read, hpath]
    simp only [bind, Except.bind, Shadows.readOptional, hshadow]
  have hreadReal : leakyWorld.store.shadows.readReal leakyDisk "/p/l" = .ok none := by
    rw [Shadows.readReal, hreal]
    simp only [bind, Except.bind, Shadows.readOptional, hfile]
  have hpersist : leakyWorld.store.settings.persist = true := rfl
  unfold Store.initialContent
  rw [if_pos hpersist, hread, hreadReal]
  rfl

theorem leakyWorld_write (disk : Disk) (text : String) {disk' : Disk}
    (hreal : leakyWorld.store.shadows.workspace.realPath disk "/p" = .ok "/ws/p")
    (hmake : disk.makeDirs "/ws/p/.tandem/workingCopies" = (disk', .ok ()))
    (hwrite : disk'.write "/ws/p/.tandem/workingCopies/p.l" (Text.encode text) =
      .ok (leakedDisk text)) :
    leakyWorld.store.shadows.write disk "/p" "/p/l" text = (leakedDisk text, .ok ()) := by
  have hpath : Path.append "/ws/p/.tandem/workingCopies" (Shadows.flatten "/p/l") =
      "/ws/p/.tandem/workingCopies/p.l" := by decide
  simp only [Shadows.write, leakyWorld_dir disk hreal, hmake, hpath, hwrite]
  rfl

def insertedWorld : World :=
  let made : WorkingCopy := .new ⟨"/p", "/p/l"⟩ ""
  let inserted := { made with content := "x" }
  (((leakyWorld.persisted made).put made).put inserted).persisted inserted

theorem leakyWorld_creates {r : Except SyncError WorkingCopy} {w' : World}
    (h : Store.Creates leakyWorld ⟨"/p", "/p/l"⟩ r w') :
    r = .ok (.new ⟨"/p", "/p/l"⟩ "") ∧
      w' = (leakyWorld.persisted (.new ⟨"/p", "/p/l"⟩ "")).put (.new ⟨"/p", "/p/l"⟩ "") := by
  cases h with
  | known hcopy => cases hcopy
  | loaded _ hcontent => cases leakyWorld_initialContent.symm.trans hcontent
  | made _ hcontent =>
    cases leakyWorld_initialContent.symm.trans hcontent
    exact ⟨rfl, rfl⟩
  | failed _ herror => cases leakyWorld_initialContent.symm.trans herror

theorem leakyWorld_apply : leakyWorld.textsOnDelivery firstInsertion = ["x"] ∧
    ((Store.apply firstInsertion).perform leakyWorld).2 = insertedWorld := by
  have hdelta : firstInsertion.toDelta = .ok (.insert 0 "x") := by cbv
  have hproject : Workspace.normalize firstInsertion.project = .ok "/p" := by cbv
  have hfits : (WorkingCopy.new ⟨"/p", "/p/l"⟩ "").apply (.insert 0 "x") none .utf16 64 =
      .ok ({ WorkingCopy.new ⟨"/p", "/p/l"⟩ "" with content := "x" },
        [⟨.insert, none, "x"⟩]) := by cbv
  have hcopy : leakyWorld.copyFor? ⟨"/p", "/p/l"⟩ = some (.new ⟨"/p", "/p/l"⟩ "") := by
    change (leakyWorld.store.initialContent leakyDisk ⟨"/p", "/p/l"⟩).toOption.map _ = _
    rw [leakyWorld_initialContent]
    rfl
  have htexts : leakyWorld.textsOnDelivery firstInsertion = ["x"] := by
    rw [World.textsOnDelivery_of_key hdelta leakyWorld_key hproject rfl, hcopy]
    exact (WorkingCopy.contents_of_apply _ _ hfits).symm
  have happlies := Store.applies leakyWorld firstInsertion
  generalize (Store.apply firstInsertion).perform leakyWorld = result at happlies ⊢
  obtain ⟨r, w'⟩ := result
  refine ⟨htexts, ?_⟩
  by_cases hr : ∃ steps, r = .ok (.applied steps)
  · obtain ⟨steps, rfl⟩ := hr
    cases happlies with
    | taken hdelta' hkey' _ _ hcreate _ happly =>
      cases hdelta.symm.trans hdelta'
      cases leakyWorld_key.symm.trans hkey'
      obtain ⟨hmade, rfl⟩ := leakyWorld_creates hcreate
      cases hmade
      dsimp only [World.put] at happly
      rw [World.persisted_settings] at happly
      cases hfits.symm.trans happly
      rfl
  · have hnone := happlies.textsOnDelivery_of_not_applied (Reachable.new _ _).proper
      fun steps h => hr ⟨steps, h⟩
    cases htexts.symm.trans hnone

theorem insertedWorld_eq : insertedWorld =
    ⟨{ leakyWorld.store with
        copies := (leakyWorld.store.copies.insert ⟨"/p", "/p/l"⟩ (.new ⟨"/p", "/p/l"⟩ "")).insert
          ⟨"/p", "/p/l"⟩ (.new ⟨"/p", "/p/l"⟩ "x") }, leakedDisk "x"⟩ := by
  have hmade := leakyWorld_write leakyDisk "" (by cbv)
    (show leakyDisk.makeDirs "/ws/p/.tandem/workingCopies" =
      (leakyDisk.put ["workingCopies"] .dir, .ok ()) by cbv) (by cbv)
  have hinserted := leakyWorld_write (leakedDisk "") "x" (by cbv)
    (show (leakedDisk "").makeDirs "/ws/p/.tandem/workingCopies" = (leakedDisk "", .ok ()) by cbv)
    (by cbv)
  have hfirst : leakyWorld.persisted (.new ⟨"/p", "/p/l"⟩ "") =
      { leakyWorld with disk := leakedDisk "" } := World.persisted_of_write _ _ rfl hmade
  rw [insertedWorld, hfirst]
  exact World.persisted_of_write _ _ rfl hinserted

theorem insertedWorld_realPath : insertedWorld.store.workspace.realPath insertedWorld.disk "/p/l" =
    .error (.pathOutsideWorkspace "/p/l") := by
  have hroot : leakyWorld.store.workspace = ⟨"/ws", "/ws", none⟩ := by cbv
  have hnormal : Workspace.normalize "/p/l" = .ok "/p/l" := rfl
  have hjoined : Path.append "/ws" (Workspace.relative "/p/l") = "/ws/p/l" := by decide
  have hcanonical : (leakedDisk "x").canonical? "/ws/p/l" = some "/workingCopies/p.l" := by cbv
  have houtside : Path.contains "/ws" "/workingCopies/p.l" = false := by decide
  rw [insertedWorld_eq]
  change leakyWorld.store.workspace.realPath (leakedDisk "x") "/p/l" = _
  rw [hroot]
  simp only [Workspace.realPath, hnormal, hjoined, hcanonical, houtside, bind, Except.bind]
  rfl

def bareDisk : Disk := ⟨.ofList [(["ws"], .dir)]⟩

def strandedWorld : World :=
  { (Store.Call.start "/p/a").after
      ⟨.new Store.sampleShadows { Store.sampleSettings with persist := false }, Store.sampleDisk⟩ with
    disk := bareDisk }

theorem strandedWorld_key : strandedWorld.store.key strandedWorld.disk "/p/a" =
    .error (.projectResolution "/p/a") := by
  have hroot : strandedWorld.store.workspace = ⟨"/ws", "/ws", none⟩ := by cbv
  have hnormal : Workspace.normalize "/p/a" = .ok "/p/a" := rfl
  have hreal : (⟨"/ws", "/ws", none⟩ : Workspace).realPath bareDisk "/p/a" = .ok "/ws/p/a" := by cbv
  have hnames : Path.names "/p/a" = ["p", "a"] := by decide
  have hjoined : Path.append "/ws" "p" = "/ws/p" := by decide
  have hgone : bareDisk.isDir "/ws/p" = false := by cbv
  have hproject : (⟨"/ws", "/ws", none⟩ : Workspace).projectOf bareDisk "/p/a" =
      .error (.projectResolution "/p/a") := by
    simp only [Workspace.projectOf, hnormal, hnames, hjoined, hgone, bind, Except.bind]
    rfl
  rw [Store.key, hroot, hnormal]
  change (do
    let _ ← (⟨"/ws", "/ws", none⟩ : Workspace).realPath bareDisk "/p/a"
    let project ← (⟨"/ws", "/ws", none⟩ : Workspace).projectOf bareDisk "/p/a"
    return ⟨project, "/p/a"⟩ : Except SyncError WorkingCopy.Key) = _
  rw [hreal, hproject]
  rfl

theorem unsubmitted_texts :
    let inserted : Notification := ⟨Rpc.version, EditorChanges.method, firstInsertion.toJson⟩
    let asked : Notification :=
      ⟨Rpc.version, ReconcileRequest.method, ReconcileRequest.toJson ⟨"/p/a", none⟩⟩
    (leakyWorld.textsOnDelivery firstInsertion = ["x"] ∧
        (handle leakyWorld inserted).1.text? "/p/l" = some "x" ∧
        submitted "/p/l" (handle leakyWorld inserted).2 = []) ∧
      strandedWorld.text? "/p/a" = some "" ∧
        strandedWorld.store.trackingState? "/p/a" = some .started ∧
        submitted "/p/a" (handle strandedWorld asked).2 = [] := by
  intro inserted asked
  have hinserted : Message.of? inserted = some (.ok (.changes firstInsertion)) := rfl
  have hworld : (handle leakyWorld inserted).1 = insertedWorld := by
    rw [handle_of_message hinserted]
    exact (world_onMessage _ _).trans leakyWorld_apply.2
  have hleaky : Reachable leakyWorld.store.shadows leakyWorld := .new _ _
  have hasked : Message.of? asked = some (.ok (.reconcile ⟨"/p/a", none⟩)) := rfl
  have hstranded : Reachable Store.sampleShadows strandedWorld :=
    .disk (.call (.new _ _) (.start "/p/a")) _
  refine ⟨⟨leakyWorld_apply.1, ?_, ?_⟩, by cbv, by cbv, ?_⟩
  · rw [hworld, insertedWorld_eq]
    rfl
  · rw [(submitted_handle hleaky inserted).1]
    unfold owed
    simp only [hinserted]
    rw [hworld, insertedWorld_realPath]
    exact if_neg fun h => by cases h.2
  · rw [(submitted_handle hstranded asked).1]
    unfold owed
    simp only [hasked]
    rw [strandedWorld_key]
    exact if_neg fun h => by cases h.2.2

end EditorSync.Tracker

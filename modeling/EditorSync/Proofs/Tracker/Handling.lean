import EditorSync.Proofs.Procedure
import EditorSync.Proofs.Store.Calls
import EditorSync.Tracker.Basic

namespace EditorSync.Tracker

open Procedure
open Rpc (Notification)
open Store (World Snapshot Call Reachable)

variable {α β γ ι : Type} {shadows : Shadows} {w : World} {s : State}

section Primitives

theorem run_emit (output : Output) (s : State) :
    (emit output).run s = (.ok (), { s with outputs := s.outputs ++ [output] }) := rfl

theorem run_onStore (action : Store.Action α) (s : State) :
    (onStore action).run s =
      ((action.perform s.world).1, { s with world := (action.perform s.world).2 }) := by
  have hset : (onStore action).run s =
      (MonadExcept.ofExcept (action.perform s.world).1 : Action α).run
        { s with world := (action.perform s.world).2 } := rfl
  rw [hset, run_ofExcept]

def Snapshot.job (snapshot : Snapshot) (real : String) : Output :=
  .dispatch snapshot.key.file
    (.pass ⟨snapshot.key.project, snapshot.key.file, real, snapshot.content⟩ snapshot.owner)

theorem run_submit (snapshot : Snapshot) (s : State) :
    (submit snapshot).run s =
      match s.world.store.workspace.realPath s.world.disk snapshot.key.file with
      | .ok real => (.ok (), { s with outputs := s.outputs ++ [Snapshot.job snapshot real] })
      | .error e => (.error e, s) := by
  unfold submit
  rw [run_bind, run_onStore, Store.Action.perform_query]
  cases s.world.store.workspace.realPath s.world.disk snapshot.key.file <;> rfl

theorem run_release (path : String) (s : State) :
    (release path).run s =
      match Workspace.normalize path with
      | .ok file => (.ok (), { s with outputs := s.outputs ++ [.dispatch file .release] })
      | .error e => (.error e, s) := by
  unfold release
  rw [run_bind, run_onStore, Store.Action.perform_query]
  cases Workspace.normalize path <;> rfl

theorem run_forIn (f : ι → PUnit → Action (ForInStep PUnit)) (out : ι → List Output)
    (items : List ι) (w : World) (outputs : List Output)
    (h : ∀ i ∈ items, ∀ outputs,
      (f i ⟨⟩).run ⟨w, outputs⟩ = (.ok (.yield ⟨⟩), ⟨w, outputs ++ out i⟩)) :
    (forIn items ⟨⟩ f).run ⟨w, outputs⟩ = (.ok ⟨⟩, ⟨w, outputs ++ items.flatMap out⟩) := by
  induction items generalizing outputs with
  | nil =>
    rw [List.flatMap_nil, List.append_nil]
    rfl
  | cons i rest ih =>
    rw [List.forIn_cons, run_bind, h i List.mem_cons_self]
    dsimp only
    rw [ih _ fun j hj => h j (List.mem_cons_of_mem _ hj), List.flatMap_cons, List.append_assoc]

end Primitives

theorem run_start (path : String) (oldPath : Option String) (w : World) :
    (onOperation ⟨.start, path, oldPath⟩).run ⟨w, []⟩ =
      match (Store.start path).perform w with
      | (.error e, w') => (.error e, ⟨w', []⟩)
      | (.ok snapshot, w') =>
        match w'.store.workspace.realPath w'.disk snapshot.key.file with
        | .error e => (.error e, ⟨w', []⟩)
        | .ok real =>
          (.ok (), ⟨w', [Snapshot.job snapshot real, .event (.tracking path "start" oldPath)]⟩) := by
  unfold onOperation
  dsimp only
  rw [run_bind, run_onStore]
  dsimp only
  rcases (Store.start path).perform w with ⟨r, w'⟩
  cases r with
  | error e => rfl
  | ok snapshot =>
    dsimp only
    rw [run_bind, run_submit]
    dsimp only
    cases w'.store.workspace.realPath w'.disk snapshot.key.file <;> rfl

theorem run_release_of_key {path : String} {key : WorkingCopy.Key} {disk : Disk}
    (hkey : w.store.key disk path = .ok key) (s : State) : (release path).run s =
      (.ok (), { s with outputs := s.outputs ++ [.dispatch key.file .release] }) := by
  have hfile := Workspace.normalize_eq_ok_iff.mpr (Store.key_eq_ok hkey).1
  rw [run_release, hfile]

theorem run_forget {kind : FileOperation.Kind} (hkind : kind = .stop ∨ kind = .delete)
    (path : String) (oldPath : Option String) (w : World) :
    (onOperation ⟨kind, path, oldPath⟩).run ⟨w, []⟩ =
      match w.store.key w.disk path with
      | .error e => (.error e, ⟨w, []⟩)
      | .ok key => (.ok (), ⟨(w.track (·.stop key.file)).discard key,
          [.dispatch key.file .release, .event (.tracking path kind.name oldPath)]⟩) := by
  unfold onOperation
  rcases hkind with rfl | rfl
  · dsimp only
    rw [run_bind, run_onStore, Store.perform_stop]
    cases hkey : w.store.key w.disk path with
    | error e => rfl
    | ok key =>
      dsimp only
      rw [run_bind, run_release_of_key hkey]
      rfl
  · dsimp only
    rw [run_bind, run_onStore, Store.perform_discardFile]
    cases hkey : w.store.key w.disk path with
    | error e => rfl
    | ok key =>
      dsimp only
      rw [run_bind, run_release_of_key hkey]
      rfl

theorem run_retrack {kind : FileOperation.Kind} {change : Tracking → String → Tracking}
    (hkind : kind = .suspend ∧ change = Tracking.suspend ∨
      kind = .resume ∧ change = Tracking.resume)
    (path : String) (oldPath : Option String) (w : World) :
    (onOperation ⟨kind, path, oldPath⟩).run ⟨w, []⟩ =
      match Workspace.normalize path with
      | .error e => (.error e, ⟨w, []⟩)
      | .ok file =>
        (.ok (), ⟨w.track (change · file), [.event (.tracking path kind.name oldPath)]⟩) := by
  unfold onOperation
  rcases hkind with ⟨rfl, rfl⟩ | ⟨rfl, rfl⟩
  · dsimp only
    rw [run_bind, run_onStore, Store.perform_suspend]
    cases Workspace.normalize path <;> rfl
  · dsimp only
    rw [run_bind, run_onStore, Store.perform_resume]
    cases Workspace.normalize path <;> rfl

theorem run_move (old path : String) (w : World) :
    (onOperation ⟨.move, path, some old⟩).run ⟨w, []⟩ =
      match w.store.key w.disk old, w.store.key w.disk path with
      | .error e, _ => (.error e, ⟨w, []⟩)
      | _, .error e => (.error e, ⟨w, []⟩)
      | .ok oldKey, .ok newKey =>
        let event : Output := .event (.tracking path FileOperation.Kind.move.name (some old))
        match w.store.copies.get? oldKey with
        | none => (.ok (), ⟨w.track (·.rename oldKey.file newKey.file), [event]⟩)
        | some copy =>
          (.ok (), ⟨(w.track (·.rename oldKey.file newKey.file)).rehome oldKey newKey copy,
            [.dispatch oldKey.file .release, event]⟩) := by
  unfold onOperation
  dsimp only
  rw [run_bind, run_onStore, Store.perform_move]
  cases hold : w.store.key w.disk old with
  | error e => rfl
  | ok oldKey =>
    cases w.store.key w.disk path with
    | error e => rfl
    | ok newKey =>
      dsimp only
      cases w.store.copies.get? oldKey with
      | none => rfl
      | some copy =>
        dsimp only
        rw [Option.isSome_some, if_pos rfl, run_bind, run_release_of_key hold]
        rfl

theorem run_onProjectRemoved (m : ProjectRemoved) (w : World) :
    (onProjectRemoved m).run ⟨w, []⟩ =
      match (Store.discardProject m.project).perform w with
      | (.error e, w') => (.error e, ⟨w', []⟩)
      | (.ok files, w') => (.ok (), ⟨w', files.flatMap fun file =>
          [.dispatch file .release, .event (.tracking file "delete" none)]⟩) := by
  unfold onProjectRemoved
  rw [run_bind, run_onStore]
  dsimp only
  rcases (Store.discardProject m.project).perform w with ⟨r, w'⟩
  cases r with
  | error e => rfl
  | ok files =>
    dsimp only
    rw [run_bind, run_forIn _ _ files w' []]
    · rfl
    · intro file hfile outputs
      rw [run_bind, run_emit]
      dsimp only
      rw [run_bind, run_emit]
      dsimp only
      rw [List.append_assoc]
      rfl

theorem run_onReconcile (m : ReconcileRequest) (s : State) :
    (onReconcile m).run s =
      if s.world.store.trackingState? m.path = some .suspended then (.ok (), s)
      else
        match (Store.snapshot m.path).perform s.world with
        | (.error e, _) => (.error e, s)
        | (.ok snapshot, _) =>
          (submit { snapshot with owner := m.owner.getD snapshot.owner }).run s := by
  have hget : (onReconcile m).run s =
      (if s.world.store.trackingState? m.path = some .suspended then pure () else do
        let snapshot ← onStore (Store.snapshot m.path)
        submit { snapshot with owner := m.owner.getD snapshot.owner } : Action Unit).run s := rfl
  rw [hget]
  split
  · rfl
  · rw [run_bind, run_onStore, Store.perform_snapshot]
    rcases s with ⟨w, outputs⟩
    dsimp only
    cases w.store.key w.disk m.path with
    | error e => rfl
    | ok key =>
      dsimp only
      cases w.store.copies.get? key <;> rfl

abbrev Leaves (view : State → γ) (x : Action α) : Prop := Respects (Same view) x

section Views

variable {view : State → γ}

theorem leaves_emit {output : Output}
    (h : ∀ w outputs, view ⟨w, outputs ++ [output]⟩ = view ⟨w, outputs⟩) :
    Leaves view (emit output) := fun s => h s.world s.outputs

theorem leaves_onStore (h : ∀ w w' outputs, view ⟨w', outputs⟩ = view ⟨w, outputs⟩)
    (action : Store.Action α) : Leaves view (onStore action) := by
  intro s
  rw [run_onStore]
  exact h _ _ _

theorem leaves_release
    (h : ∀ w outputs file, view ⟨w, outputs ++ [.dispatch file .release]⟩ = view ⟨w, outputs⟩)
    (path : String) : Leaves view (release path) := by
  intro s
  rw [run_release]
  cases Workspace.normalize path with
  | error e => rfl
  | ok file => exact h s.world s.outputs file

theorem leaves_submit
    (h : ∀ w outputs snapshot real,
      view ⟨w, outputs ++ [Snapshot.job snapshot real]⟩ = view ⟨w, outputs⟩)
    (snapshot : Snapshot) : Leaves view (submit snapshot) := by
  intro s
  rw [run_submit]
  split
  · exact h _ _ _ _
  · rfl

theorem leaves_report
    (hevent : ∀ path kind seq length, Leaves view (emit (.event (.deltaApplied path kind seq length))))
    (hsubmit : ∀ snapshot, Leaves view (submit snapshot))
    (steps : List (WorkingCopy.Applied × Snapshot)) : Leaves view (report steps) := by
  refine (respects_forIn (fun step => ?_) steps).bind fun _ => respects_pure _
  exact (hevent _ _ _ _).bind fun _ => (hsubmit step.2).bind fun _ => respects_pure _

end Views

theorem world_emit (output : Output) : Leaves State.world (emit output) :=
  leaves_emit fun _ _ => rfl

theorem world_release (path : String) : Leaves State.world (release path) :=
  leaves_release (fun _ _ _ => rfl) path

theorem world_submit (snapshot : Snapshot) : Leaves State.world (submit snapshot) :=
  leaves_submit (fun _ _ _ _ => rfl) snapshot

def Message.call? : Message → Option Call
  | changes m => some (.apply m)
  | operation ⟨.start, path, _⟩ => some (.start path)
  | operation ⟨.stop, path, _⟩ => some (.stop path)
  | operation ⟨.suspend, path, _⟩ => some (.suspend path)
  | operation ⟨.resume, path, _⟩ => some (.resume path)
  | operation ⟨.move, path, oldPath⟩ => oldPath.map (.move · path)
  | operation ⟨.delete, path, _⟩ => some (.discardFile path)
  | reconcile _ => none
  | projectRemoved m => some (.discardProject m.project)

theorem world_onStore_bind {action : Store.Action α} {f : α → Action β}
    (hf : ∀ a, Leaves State.world (f a)) (s : State) :
    ((onStore action >>= f).run s).2.world = (action.perform s.world).2 := by
  rw [view_bind hf, run_onStore]

theorem world_onOperation (m : FileOperation) (s : State) :
    ((onOperation m).run s).2.world =
      ((Message.operation m).call?.map (·.after s.world)).getD s.world := by
  obtain ⟨kind, path, oldPath⟩ := m
  unfold onOperation
  cases kind with
  | start => exact world_onStore_bind (fun a => (world_submit a).bind fun _ => world_emit _) s
  | stop => exact world_onStore_bind (fun _ => (world_release _).bind fun _ => world_emit _) s
  | suspend => exact world_onStore_bind (fun _ => world_emit _) s
  | resume => exact world_onStore_bind (fun _ => world_emit _) s
  | delete => exact world_onStore_bind (fun _ => (world_release _).bind fun _ => world_emit _) s
  | move =>
    cases oldPath with
    | none => rfl
    | some old =>
      refine world_onStore_bind (fun moved => ?_) s
      split
      · exact (world_release old).bind fun _ => world_emit _
      · exact world_emit _

theorem world_onMessage (m : Message) (s : State) :
    ((onMessage m).run s).2.world = (m.call?.map (·.after s.world)).getD s.world := by
  cases m with
  | operation m => exact world_onOperation m s
  | changes m =>
    refine world_onStore_bind (fun outcome => ?_) s
    cases outcome with
    | applied steps => exact leaves_report (fun _ _ _ _ => world_emit _) world_submit steps
    | buffered => exact world_emit _
    | skipped => exact respects_pure _
  | projectRemoved m =>
    refine world_onStore_bind (fun files => ?_) s
    exact (respects_forIn (fun _ => (world_emit _).bind fun _ => (world_emit _).bind fun _ =>
      respects_pure _) files).bind fun _ => respects_pure _
  | reconcile m =>
    change ((onReconcile m).run s).2.world = s.world
    rw [run_onReconcile]
    split
    · rfl
    · split
      · rfl
      · exact world_submit _ s

def rejections (path : String) : Except SyncError Unit → List Output
  | .ok () => []
  | .error e => [rejection (some path) e]

theorem handle_of_message {n : Notification} {m : Message} (h : Message.of? n = some (.ok m)) :
    handle w n =
      let r := (onMessage m).run ⟨w, []⟩
      (r.2.world, r.2.outputs ++ rejections m.path r.1) := by
  simp only [handle, h]
  rcases (onMessage m).run ⟨w, []⟩ with ⟨r, s⟩
  cases r with
  | ok => exact congrArg (Prod.mk s.world) (List.append_nil _).symm
  | error e => rfl

theorem reachable_handle (h : Reachable shadows w) (n : Notification) :
    Reachable shadows (handle w n).1 := by
  cases hn : Message.of? n with
  | none => simpa only [handle, hn] using h
  | some read =>
    cases read with
    | error e => simpa only [handle, hn] using h
    | ok m =>
      rw [handle_of_message hn]
      dsimp only
      rw [world_onMessage]
      cases m.call? with
      | none => exact h
      | some c => exact h.call c

end EditorSync.Tracker

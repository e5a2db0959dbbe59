import EditorSync.Editor.AutoSave

namespace EditorSync.Editor.AutoSave

variable {a : AutoSave}

/-- What may come to an editor: an event or a look at the clock at some time, or the host puts
another document or preference in place. -/
inductive Stimulus where
  | event (event : Event) (now : Nat)
  | tick (now : Nat)
  | host (document : Document)
  | prefer (stored : Option Bool)
  deriving DecidableEq, Repr

def react (a : AutoSave) : Stimulus → Step
  | .event event now => a.handle event now
  | .tick now => (a.tick now).1
  | .host document => ({ a with document := document }, [])
  | .prefer stored => ({ a with preference := stored }, [])

def run (a : AutoSave) : List Stimulus → Step
  | [] => (a, [])
  | s :: rest =>
    let (b, sent) := a.react s
    let (c, more) := run b rest
    (c, sent ++ more)

@[simp] theorem run_nil : a.run [] = (a, []) := rfl

theorem run_cons (s : Stimulus) (rest : List Stimulus) :
    a.run (s :: rest) =
      (((a.react s).1.run rest).1, (a.react s).2 ++ ((a.react s).1.run rest).2) := rfl

def envelope (a : AutoSave) (project : String) (delta : Delta) (seq : Nat) : EditorChanges :=
  .ofDelta delta ⟨a.owner.getD a.document.location, project, a.document.location⟩ a.encoding
    (some seq)

theorem sendAll_eq (project : String) (deltas : List Delta) :
    sendAll project a deltas = ({ a with nextSeq := a.nextSeq + deltas.length },
      (deltas.zipIdx a.nextSeq).map fun x => a.envelope project x.1 x.2) := by
  induction deltas generalizing a with
  | nil => rfl
  | cons delta rest ih =>
    simp only [sendAll, send, ih, List.zipIdx_cons, List.map_cons, List.length_cons]
    have hlen : a.nextSeq + 1 + rest.length = a.nextSeq + (rest.length + 1) := by omega
    rw [hlen]
    rfl

theorem saveDocument_eq : a.saveDocument = { a with document := a.saveDocument.document } := by
  unfold saveDocument
  split <;> rfl

@[simp] theorem save_text (d : Document) : d.save.text = d.text := by
  unfold Document.save
  split <;> rfl

@[simp] theorem save_project (d : Document) : d.save.project = d.project := by
  unfold Document.save
  split <;> rfl

@[simp] theorem save_location (d : Document) : d.save.location = d.location := by
  unfold Document.save
  split <;> rfl

@[simp] theorem saveDocument_text : a.saveDocument.document.text = a.document.text := by
  unfold saveDocument
  split <;> simp

@[simp] theorem saveDocument_project : a.saveDocument.document.project = a.document.project := by
  unfold saveDocument
  split <;> simp

@[simp] theorem saveDocument_location :
    a.saveDocument.document.location = a.document.location := by
  unfold saveDocument
  split <;> simp

def settledMode (a : AutoSave) : Mode := if a.enabled? = some false then .deactivated else .activated

inductive Saves (a : AutoSave) : AutoSave → List EditorChanges → Prop
  | ignored (suspended : a.mode = .suspended) : Saves a a []
  | snapshot {project : String} (resuming : a.mode = .resuming)
    (owned : a.document.project = some project) :
    Saves a { a with mode := a.settledMode, queue := .empty, nextSeq := a.nextSeq + 1 }
      [a.envelope project (.replaceAll a.document.text) a.nextSeq]
  | dropped (awake : a.mode ≠ .suspended) (stray : a.document.project = none) :
    Saves a { a with document := a.saveDocument.document, queue := .empty } []
  | streamed {project : String} (streaming : a.mode = .activated ∨ a.mode = .deactivated)
    (owned : a.document.project = some project) :
    Saves a
      { a with
        document := a.saveDocument.document
        queue := .empty
        nextSeq := a.nextSeq + a.queue.deltas.length }
      ((a.queue.deltas.zipIdx a.nextSeq).map fun x => a.envelope project x.1 x.2)

theorem flush_eq_of_project_none (h : a.document.project = none) :
    a.flush = ({ a with document := a.saveDocument.document, queue := .empty }, []) := by
  unfold flush
  simp only [saveDocument_project, h]
  rw [saveDocument_eq]

theorem flush_eq_of_project_some {project : String} (h : a.document.project = some project) :
    a.flush =
      ({ a with
          document := a.saveDocument.document
          queue := .empty
          nextSeq := a.nextSeq + a.queue.deltas.length },
        (a.queue.deltas.zipIdx a.nextSeq).map fun x => a.envelope project x.1 x.2) := by
  unfold flush
  simp only [saveDocument_project, h, sendAll_eq]
  rw [saveDocument_eq]
  simp only [envelope, saveDocument_location]

theorem saves_save (a : AutoSave) : Saves a a.save.1 a.save.2 := by
  cases hmode : a.mode with
  | suspended =>
    have hsave : a.save = (a, []) := by simp only [save, hmode]
    rw [hsave]
    exact .ignored hmode
  | resuming =>
    cases hproject : a.document.project with
    | none =>
      have hsave : a.save = a.flush := by simp only [save, hmode, hproject]
      rw [hsave, flush_eq_of_project_none hproject]
      exact .dropped (by simp [hmode]) hproject
    | some project =>
      have hsave : a.save = a.resynchronize project := by simp only [save, hmode, hproject]
      rw [hsave]
      exact .snapshot hmode hproject
  | activated | deactivated =>
    have hsave : a.save = a.flush := by simp only [save, hmode]
    rw [hsave]
    cases hproject : a.document.project with
    | none =>
      rw [flush_eq_of_project_none hproject]
      exact .dropped (by simp [hmode]) hproject
    | some project =>
      rw [flush_eq_of_project_some hproject]
      exact .streamed (by simp [hmode]) hproject

theorem tick_eq (now : Nat) :
    (a.tick now).1 =
      if a.timer.isDue now then { a with timer := a.timer.cancel }.save else (a, []) := by
  unfold tick Timer.takeDue
  cases a.timer.isDue now <;> rfl

theorem activate_eq (a : AutoSave) (now : Nat) :
    ∃ mode timer, a.activate now = { a with mode := mode, timer := timer } := by
  unfold activate
  split
  · exact ⟨a.mode, a.timer, rfl⟩
  · exact ⟨.activated, a.timer.schedule now, rfl⟩

theorem deactivate_eq (a : AutoSave) :
    ∃ mode timer, a.deactivate = { a with mode := mode, timer := timer } := by
  unfold deactivate
  split
  · exact ⟨a.mode, a.timer, rfl⟩
  · exact ⟨.deactivated, a.timer.cancel, rfl⟩

theorem settingsChanged_eq (a : AutoSave) (now : Nat) :
    ∃ mode timer, a.settingsChanged now = { a with mode := mode, timer := timer } := by
  unfold settingsChanged
  split
  · split
    · exact ⟨a.mode, a.timer, rfl⟩
    · exact deactivate_eq a
  · split
    · exact ⟨a.mode, a.timer, rfl⟩
    · exact activate_eq a now
  · exact ⟨a.mode, a.timer, rfl⟩

theorem install_eq (document : Document) (preference : Option Bool) (delay : Nat)
    (enc : Text.Encoding) (owner : Option String) (now : Nat) :
    ∃ mode timer, install document preference delay enc owner now =
      ⟨document, preference, enc, owner, mode, .empty, timer, true, 1⟩ :=
  settingsChanged_eq ⟨document, preference, enc, owner, .activated, .empty, .new delay, true, 1⟩ now

def flushes (a : AutoSave) : Stimulus → Bool
  | .event .save _ => a.mode ≠ .suspended
  | .tick now => a.timer.isDue now && a.mode ≠ .suspended
  | _ => false

def accepts (a : AutoSave) : Stimulus → List Delta
  | .event (.changed change) _ =>
    if change.document = a.document.location ∧ a.mode ≠ .suspended ∧ a.activeEditor = true then
      change.toDeltas
    else []
  | _ => []

def learn (a : AutoSave) : Stimulus → AutoSave
  | .event (.changed change) now =>
    { a with queue := a.queue.addAll (a.accepts (.event (.changed change) now)) now }
  | .event (.activePartChanged active) _ => { a with activeEditor := active }
  | .host document => { a with document := document }
  | .prefer stored => { a with preference := stored }
  | _ => a

theorem changed_eq (a : AutoSave) (change : DocumentChange) (now : Nat) :
    ∃ timer, a.changed change now =
      { a.learn (.event (.changed change) now) with timer := timer } := by
  unfold changed learn accepts
  split
  · rename_i hignored
    have hrefused : ¬(change.document = a.document.location ∧ a.mode ≠ .suspended ∧
        a.activeEditor = true) := fun h => hignored.elim h.2.1 fun hother => hother h.1
    exact ⟨a.timer, by simp only [if_neg hrefused]; rfl⟩
  · rename_i hheard
    obtain ⟨hawake, hown⟩ := not_or.mp hheard
    have hown := Decidable.not_not.mp hown
    refine ⟨a.timer.schedule now, ?_⟩
    cases hactive : a.activeEditor with
    | true => simp [hown, hawake]
    | false => simp [DirtyQueue.addAll]

theorem react_learns (s : Stimulus) (h : a.flushes s = false) :
    ∃ mode timer, (a.react s).1 = { a.learn s with mode := mode, timer := timer } := by
  cases s with
  | event e now =>
    cases e with
    | changed change =>
      obtain ⟨timer, heq⟩ := changed_eq a change now
      exact ⟨_, timer, heq⟩
    | activate => exact activate_eq a now
    | deactivate => exact deactivate_eq a
    | settingsChanged => exact settingsChanged_eq a now
    | trackingSuspended | trackingResumed | activePartChanged => exact ⟨_, _, rfl⟩
    | save =>
      have hmode : a.mode = .suspended := by simpa [flushes] using h
      have hsame : a.save.1 = a := by simp only [save, hmode]
      exact ⟨a.mode, a.timer, hsame⟩
  | tick now =>
    change ∃ mode timer, (a.tick now).1.1 = { a with mode := mode, timer := timer }
    rw [tick_eq]
    split
    · rename_i hdue
      have hmode : a.mode = .suspended := by simpa [flushes, hdue] using h
      exact ⟨a.mode, a.timer.cancel, by simp only [save, hmode]⟩
    · exact ⟨a.mode, a.timer, rfl⟩
  | host | prefer => exact ⟨_, _, rfl⟩

theorem learn_queue (a : AutoSave) (s : Stimulus) :
    (a.learn s).queue.deltas = a.queue.deltas ++ a.accepts s := by
  cases s with
  | event e now =>
    cases e with
    | changed change => exact DirtyQueue.deltas_addAll _ _ _
    | _ => exact (List.append_nil _).symm
  | _ => exact (List.append_nil _).symm

theorem react_queues (s : Stimulus) (h : a.flushes s = false) :
    (a.react s).1.queue.deltas = a.queue.deltas ++ a.accepts s ∧
      (a.react s).1.nextSeq = a.nextSeq := by
  obtain ⟨mode, timer, hreact⟩ := react_learns s h
  rw [hreact]
  refine ⟨learn_queue a s, ?_⟩
  cases s with
  | event e now => cases e <;> rfl
  | _ => rfl

end EditorSync.Editor.AutoSave

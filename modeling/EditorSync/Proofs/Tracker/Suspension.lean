import EditorSync.Proofs.Message.Wire
import EditorSync.Proofs.Store.Backing
import EditorSync.Proofs.Tracker.Records

namespace EditorSync.Store

open WorkingCopy (Key)

variable {s : Shadows} {w w' w'' : World} {file : String}

def Call.Elsewhere (file : String) : Call → Prop
  | start path | stop path | suspend path | resume path | discardFile path =>
    Path.normalize? path ≠ some file
  | apply changes => Path.normalize? changes.file ≠ some file
  | move old new => Path.normalize? old ≠ some file ∧ Path.normalize? new ≠ some file
  | discardProject path =>
    ∀ project, Path.normalize? path = some project → Tracking.isUnder project file = false

theorem World.Agree.trans (h : w.Agree file w') (h' : w'.Agree file w'') : w.Agree file w'' :=
  ⟨h'.1.trans h.1, h'.2.trans h.2⟩

theorem World.Proper.forgetProject (h : w.Proper s) {project : String}
    (hproject : Path.normalize? project = some project)
    (hunder : Tracking.isUnder project file = false) :
    w.Keeps file (w.forgetProject project) ∧
      (w.forgetProject project).store.tracking.state? file = w.store.tracking.state? file := by
  constructor
  · intro key hkey
    dsimp only [World.forgetProject, World.track, World.retain]
    rw [Table.get?_filter]
    cases hcopy : w.store.copies.get? key with
    | none => rfl
    | some copy =>
      have hproper := h.copies key copy hcopy
      have hne : key.project ≠ project := by
        intro hsame
        have hancestor := Workspace.isProperAncestor_owner? hproper.normal hproper.owner
        rw [hsame] at hancestor
        have hbelow := Tracking.isUnder_of_isProperAncestor hproject hproper.normal hancestor
        rw [hkey, hunder] at hbelow
        cases hbelow
      rw [Option.filter_some, decide_eq_true hne]
      rfl
  · refine (Tracking.state?_removeUnder _ _ _).trans (if_neg ?_)
    rw [hunder]
    decide

theorem Reachable.agree (h : Reachable s w) {c : Call} (helsewhere : c.Elsewhere file) :
    w.Agree file (c.after w) := by
  have hafter := h.proper.after c
  have hagree (hkeeps : w.Keeps file (c.after w) ∧
      (c.after w).store.tracking.state? file = w.store.tracking.state? file) :
      w.Agree file (c.after w) := ⟨hkeeps.1.copyOf?_eq h.proper hafter, hkeeps.2⟩
  apply hagree
  cases c with
  | start path | stop path | suspend path | resume path | discardFile path =>
    exact h.keyed.keeps rfl helsewhere
  | apply changes => exact h.keyed.keeps rfl helsewhere
  | move old new =>
    obtain ⟨hold, hnew⟩ := helsewhere
    have hne {path : String} {key : Key} (hpath : Path.normalize? path ≠ some file)
        (hkey : w.store.key w.disk path = .ok key) : file ≠ key.file :=
      fun hsame => hpath (hsame ▸ (key_eq_ok hkey).1)
    have hperforms := performs w (.move old new)
    generalize (Call.move old new).after w = w' at hperforms ⊢
    cases hperforms with
    | refused => exact ⟨.refl file w, rfl⟩
    | forgotten hcall => rcases hcall with hcall | hcall <;> cases hcall
    | retracked hcall => rcases hcall with ⟨hcall, -⟩ | ⟨hcall, -⟩ <;> cases hcall
    | passed hkey hkey' =>
      refine ⟨(World.Keeps.refl file w).track _, (Tracking.state?_rename _ _ _ _).trans ?_⟩
      rw [if_neg (hne hnew hkey'), if_neg (hne hold hkey)]
    | moved hkey hkey' hcopy =>
      refine ⟨((World.Keeps.refl file w).track _).rehome (hne hold hkey).symm (hne hnew hkey').symm,
        ?_⟩
      rw [World.rehome_tracking]
      refine (Tracking.state?_rename _ _ _ _).trans ?_
      rw [if_neg (hne hnew hkey'), if_neg (hne hold hkey)]
  | discardProject path =>
    have hperforms := performs w (.discardProject path)
    generalize (Call.discardProject path).after w = w' at hperforms ⊢
    cases hperforms with
    | refused => exact ⟨.refl file w, rfl⟩
    | forgotten hcall => rcases hcall with hcall | hcall <;> cases hcall
    | retracked hcall => rcases hcall with ⟨hcall, -⟩ | ⟨hcall, -⟩ <;> cases hcall
    | ended hproject =>
      have hnormal := (Path.normalize?_normal hproject).1
      exact h.proper.forgetProject hnormal (helsewhere _ hproject)

theorem apply_suspended {changes : EditorChanges} (hfile : Path.normalize? changes.file = some file)
    (hsuspended : w.store.tracking.state? file = some .suspended) :
    (apply changes).perform w = (.ok .skipped, w) ∨
      ∃ e, (apply changes).perform w = (.error e, w) := by
  unfold Store.apply
  rw [Action.perform_bind, Action.perform_ofExcept]
  cases changes.toDelta with
  | error e => exact .inr ⟨e, rfl⟩
  | ok delta =>
    dsimp only
    rw [Action.perform_bind, perform_keyOf]
    cases hkey : w.store.key w.disk changes.file with
    | error e => exact .inr ⟨e, rfl⟩
    | ok key =>
      dsimp only
      rw [Action.perform_bind, Action.perform_query]
      cases Workspace.normalize changes.project with
      | error e => exact .inr ⟨e, rfl⟩
      | ok project =>
        dsimp only
        split
        · exact .inr ⟨_, rfl⟩
        · have hrefuses : w.store.tracking.acceptsDeltas key.file = false := by
            cases (key_eq_ok hkey).1.symm.trans hfile
            rw [Tracking.acceptsDeltas, hsuspended]
            rfl
          rw [Action.perform_bind_of_ok _ (Action.perform_get w), hrefuses,
            if_pos Bool.not_false]
          exact .inl rfl

end EditorSync.Store

namespace EditorSync.Tracker

open Store (World Reachable)

variable {α : Type} {shadows : Shadows} {w : World} {file : String}
variable {occurrence : Occurrence} {occurrences : List Occurrence}

/-- A message asks for something to be done with a file that has been started. -/
def Message.appeals (file : String) : Message → Bool
  | changes m => Path.normalize? m.file = some file
  | reconcile m => Path.normalize? m.path = some file
  | operation _ | projectRemoved _ => false

def Message.Elsewhere (file : String) : Message → Prop
  | reconcile m => Path.normalize? m.path ≠ some file
  | m => ∀ c, m.call? = some c → c.Elsewhere file

namespace Occurrence

def message? : Occurrence → Option Message
  | notified n =>
    match Message.of? n with
    | some (.ok m) => some m
    | _ => none
  | altered _ => none

def appeals (file : String) (occurrence : Occurrence) : Bool :=
  occurrence.message?.any (·.appeals file)

def Elsewhere (file : String) (occurrence : Occurrence) : Prop :=
  ∀ m, occurrence.message? = some m → m.Elsewhere file

def dispatches (w : World) (occurrence : Occurrence) : List Output :=
  (occurrence.outputs w).filter fun
    | .dispatch .. => true
    | .event _ => false

theorem of_message? {m : Message} (h : occurrence.message? = some m) :
    ∃ n, occurrence = notified n ∧ Message.of? n = some (.ok m) := by
  cases occurrence with
  | altered disk => cases h
  | notified n =>
    refine ⟨n, rfl, ?_⟩
    unfold message? at h
    dsimp only at h
    split at h
    · rename_i hn
      rw [hn, Option.some.inj h]
    · cases h

end Occurrence

theorem run_of_appeals {m : Message} (happeals : m.appeals file = true)
    (hsuspended : w.store.tracking.state? file = some .suspended) :
    ((onMessage m).run ⟨w, []⟩).2 = ⟨w, []⟩ := by
  cases m with
  | operation m => cases happeals
  | projectRemoved m => cases happeals
  | reconcile m =>
    have hpath : Path.normalize? m.path = some file := of_decide_eq_true happeals
    have hstate : w.store.trackingState? m.path = some .suspended := by
      rw [Store.trackingState?, hpath]
      exact hsuspended
    rw [onMessage, run_onReconcile, if_pos hstate]
  | changes m =>
    have hfile : Path.normalize? m.file = some file := of_decide_eq_true happeals
    unfold onMessage onChanges
    rw [Procedure.run_bind, run_onStore]
    rcases Store.apply_suspended hfile hsuspended with hskipped | ⟨e, herror⟩
    · rw [hskipped]
      rfl
    · rw [herror]

theorem Occurrence.after_of_appeals (happeals : occurrence.appeals file = true)
    (hsuspended : w.store.tracking.state? file = some .suspended) :
    occurrence.after w = w ∧ occurrence.dispatches w = [] := by
  unfold appeals at happeals
  rw [Option.any_eq_true] at happeals
  obtain ⟨m, hmessage, happeals⟩ := happeals
  obtain ⟨n, rfl, hn⟩ := of_message? hmessage
  have hhandle : handle w n = (w, rejections m.path ((onMessage m).run ⟨w, []⟩).1) := by
    rw [handle_of_message hn]
    dsimp only
    rw [run_of_appeals happeals hsuspended]
    rfl
  refine ⟨congrArg Prod.fst hhandle, ?_⟩
  rw [dispatches, outputs, hhandle]
  cases ((onMessage m).run ⟨w, []⟩).1 <;> rfl

theorem Occurrence.agree (h : Reachable shadows w) (helsewhere : occurrence.Elsewhere file) :
    w.Agree file (occurrence.after w) := by
  cases occurrence with
  | altered disk => exact ⟨rfl, rfl⟩
  | notified n =>
    cases hn : Message.of? n with
    | none => simp only [Occurrence.after, handle, hn, World.Agree, and_self]
    | some read =>
      cases read with
      | error e => simp only [Occurrence.after, handle, hn, World.Agree, and_self]
      | ok m =>
        have hmessage : m.Elsewhere file := helsewhere m (by simp only [message?, hn])
        rw [Occurrence.after, handle_of_message hn]
        dsimp only
        rw [world_onMessage]
        cases hcall : m.call? with
        | none => exact ⟨rfl, rfl⟩
        | some c =>
          apply h.agree
          cases m with
          | reconcile m => cases hcall
          | changes m | operation m | projectRemoved m => exact hmessage c hcall

theorem submitted_of_elsewhere (h : Reachable shadows w) (helsewhere : occurrence.Elsewhere file) :
    submitted file (occurrence.outputs w) = [] := by
  cases occurrence with
  | altered disk => rfl
  | notified n =>
    refine (submitted_handle h n).1.trans ?_
    unfold owed
    dsimp only
    cases hn : Message.of? n with
    | none => rfl
    | some read =>
      cases read with
      | error e => rfl
      | ok m =>
        have hmessage : m.Elsewhere file := helsewhere m (by simp only [Occurrence.message?, hn])
        cases m with
        | projectRemoved m => rfl
        | changes m => exact if_neg fun hcond => hmessage _ rfl hcond.1
        | reconcile m => exact if_neg fun hcond => hmessage hcond.1
        | operation m =>
          obtain ⟨kind, path, oldPath⟩ := m
          cases kind with
          | start => exact if_neg fun hcond => hmessage _ rfl hcond.1
          | _ => rfl

theorem submitted_dispatches (w : World) (occurrence : Occurrence) :
    submitted file (occurrence.dispatches w) = submitted file (occurrence.outputs w) := by
  unfold submitted Occurrence.dispatches
  rw [List.filterMap_filter]
  congr 1
  funext output
  cases output <;> rfl

theorem gather_append (f : World → Occurrence → List α) (w : World)
    (occurrences later : List Occurrence) : gather f w (occurrences ++ later) =
      gather f w occurrences ++ gather f (occurrences.foldl Occurrence.after w) later := by
  induction occurrences generalizing w with
  | nil => rfl
  | cons occurrence rest ih =>
    rw [List.cons_append, gather, gather, ih, List.append_assoc, List.foldl_cons]

structure Waits (shadows : Shadows) (file : String) (w : World) (occurrences : List Occurrence) :
    Prop where
  reachable : Reachable shadows w
  suspended : w.store.tracking.state? file = some .suspended
  allowed : ∀ occurrence ∈ occurrences,
    occurrence.appeals file = true ∨ occurrence.Elsewhere file

namespace Waits

theorem agree (h : Waits shadows file w (occurrence :: occurrences)) :
    w.Agree file (occurrence.after w) := by
  rcases h.allowed occurrence List.mem_cons_self with happeals | helsewhere
  · rw [(Occurrence.after_of_appeals happeals h.suspended).1]
    exact ⟨rfl, rfl⟩
  · exact Occurrence.agree h.reachable helsewhere

theorem tail (h : Waits shadows file w (occurrence :: occurrences)) :
    Waits shadows file (occurrence.after w) occurrences where
  reachable := occurrence.reachable h.reachable
  suspended := h.agree.2.trans h.suspended
  allowed other hother := h.allowed other (List.mem_cons_of_mem _ hother)

theorem agree_run (h : Waits shadows file w occurrences) :
    w.Agree file (occurrences.foldl Occurrence.after w) := by
  induction occurrences generalizing w with
  | nil => exact ⟨rfl, rfl⟩
  | cons occurrence rest ih => exact h.agree.trans (ih h.tail)

theorem submitted_run (h : Waits shadows file w occurrences) :
    submitted file (gather (fun w o => o.outputs w) w occurrences) = [] := by
  induction occurrences generalizing w with
  | nil => rfl
  | cons occurrence rest ih =>
    rw [gather, submitted_append, ih h.tail, List.append_nil]
    rcases h.allowed occurrence List.mem_cons_self with happeals | helsewhere
    · rw [← submitted_dispatches, (Occurrence.after_of_appeals happeals h.suspended).2]
      rfl
    · exact submitted_of_elsewhere h.reachable helsewhere

theorem purge (h : Waits shadows file w occurrences) :
    let heard := occurrences.filter fun occurrence => !occurrence.appeals file
    occurrences.foldl Occurrence.after w = heard.foldl Occurrence.after w ∧
      gather (fun w o => o.dispatches w) w occurrences =
        gather (fun w o => o.dispatches w) w heard := by
  induction occurrences generalizing w with
  | nil => exact ⟨rfl, rfl⟩
  | cons occurrence rest ih =>
    obtain ⟨hworld, hdispatches⟩ := ih h.tail
    by_cases happeals : occurrence.appeals file = true
    · obtain ⟨hafter, hsilent⟩ := Occurrence.after_of_appeals happeals h.suspended
      rw [hafter] at hworld hdispatches
      dsimp only at hworld hdispatches ⊢
      rw [List.foldl_cons, gather, hafter, hsilent, List.nil_append,
        List.filter_cons_of_neg (by rw [happeals]; decide)]
      exact ⟨hworld, hdispatches⟩
    · dsimp only at hworld hdispatches ⊢
      rw [List.foldl_cons, gather, hworld, hdispatches,
        List.filter_cons_of_pos (by rw [Bool.eq_false_iff.mpr happeals]; rfl)]
      exact ⟨rfl, rfl⟩

end Waits

/-- While a file is suspended, its working copy and its session stay as they are and nothing is
submitted for it, whatever changes and reconciliations are sent. Whatever comes later, the world
is the same and the engine gets the same as if these had never been sent. -/
theorem suspension_hides_appeals (hreach : Reachable shadows w)
    (hsuspended : w.store.tracking.state? file = some .suspended)
    (hallowed : ∀ occurrence ∈ occurrences,
      occurrence.appeals file = true ∨ occurrence.Elsewhere file) :
    (∀ begun, begun <+: occurrences →
        w.Agree file (begun.foldl Occurrence.after w)) ∧
      submitted file (gather (fun w o => o.outputs w) w occurrences) = [] ∧
      ∀ later,
        let heard := occurrences.filter fun occurrence => !occurrence.appeals file
        (occurrences ++ later).foldl Occurrence.after w =
            (heard ++ later).foldl Occurrence.after w ∧
          gather (fun w o => o.dispatches w) w (occurrences ++ later) =
            gather (fun w o => o.dispatches w) w (heard ++ later) := by
  have hwaits : Waits shadows file w occurrences := ⟨hreach, hsuspended, hallowed⟩
  refine ⟨fun begun hbegun => ?_, hwaits.submitted_run, fun later => ?_⟩
  · have hbegins : Waits shadows file w begun :=
      ⟨hreach, hsuspended, fun occurrence hmem => hallowed occurrence (hbegun.subset hmem)⟩
    exact hbegins.agree_run
  · obtain ⟨hworld, hdispatches⟩ := hwaits.purge
    intro heard
    rw [List.foldl_append, List.foldl_append, gather_append, gather_append, hworld, hdispatches]
    exact ⟨rfl, rfl⟩

def pausedWorld : World :=
  [operation ⟨.start, "/p/a", none⟩, operation ⟨.suspend, "/p/a", none⟩].foldl Occurrence.after
    bareWorld

def unheardChanges : EditorChanges where
  kind := .replaceAll
  owner := "o"
  project := "/p"
  file := "/p/./a"
  offset := 0
  length := none
  removed := none
  text := some "x"
  seq := some 7

def unheardChange : Occurrence :=
  .notified (.of EditorChanges.method (EditorChanges.toJson unheardChanges))

theorem unheardChange_message : unheardChange.message? = some (.changes unheardChanges) := by
  have hfits : unheardChanges.Fits :=
    ⟨by decide, fun _ h => (by cases h), fun _ h => (by cases h), fun _ h => (by cases h; decide)⟩
  have hread : Message.of? (.of EditorChanges.method (EditorChanges.toJson unheardChanges)) =
      some (.ok (.changes unheardChanges)) := by
    unfold Message.of?
    dsimp only
    rw [EditorChanges.decode?_params hfits]
    rfl
  simp only [unheardChange, Occurrence.message?, hread]

def unheardRequest : Occurrence :=
  .notified (.of ReconcileRequest.method (ReconcileRequest.toJson ⟨"p//a", none⟩))

theorem suspension_hides_appeals_resumed :
    let start := operation ⟨.start, "/p/b", none⟩
    let resume := operation ⟨.resume, "/p/a", none⟩
    pausedWorld.store.tracking.state? "/p/a" = some .suspended ∧
      [unheardChange, start, unheardRequest, resume].foldl Occurrence.after pausedWorld =
        [start, resume].foldl Occurrence.after pausedWorld ∧
      gather (fun w o => o.dispatches w) pausedWorld [unheardChange, start, unheardRequest, resume] =
        gather (fun w o => o.dispatches w) pausedWorld [start, resume] := by
  intro start resume
  have hbare : Reachable bareShadows bareWorld := .new inMemory Store.bareDisk
  have hreach : Reachable bareShadows pausedWorld := by
    unfold pausedWorld
    rw [List.foldl_cons, List.foldl_cons, List.foldl_nil]
    exact Occurrence.reachable (Occurrence.reachable hbare _) _
  have hsuspended : pausedWorld.store.tracking.state? "/p/a" = some .suspended := by cbv
  have hchange : unheardChange.appeals "/p/a" = true := by
    rw [Occurrence.appeals, unheardChange_message]
    decide
  have hrequest : unheardRequest.appeals "/p/a" = true := by cbv
  have hstart : start.message? = some (.operation ⟨.start, "/p/b", none⟩) := by cbv
  have hother : start.Elsewhere "/p/a" := by
    intro m hm
    cases hstart.symm.trans hm
    intro c hc
    cases hc
    exact (by decide : Path.normalize? "/p/b" ≠ some "/p/a")
  have hallowed : ∀ o ∈ [unheardChange, start, unheardRequest],
      o.appeals "/p/a" = true ∨ o.Elsewhere "/p/a" := by
    intro o ho
    simp only [List.mem_cons, List.not_mem_nil, or_false] at ho
    rcases ho with rfl | rfl | rfl
    · exact .inl hchange
    · exact .inr hother
    · exact .inl hrequest
  have hheard : [unheardChange, start, unheardRequest].filter (fun o => !o.appeals "/p/a") =
      [start] := by
    have hstarts : start.appeals "/p/a" = false := by
      rw [Occurrence.appeals, hstart]
      rfl
    rw [List.filter_cons_of_neg (by rw [hchange]; decide),
      List.filter_cons_of_pos (by rw [hstarts]; decide),
      List.filter_cons_of_neg (by rw [hrequest]; decide), List.filter_nil]
  obtain ⟨-, -, hlater⟩ := suspension_hides_appeals hreach hsuspended hallowed
  have hresumed := hlater [resume]
  rw [hheard] at hresumed
  simp only [List.cons_append, List.nil_append] at hresumed
  exact ⟨hsuspended, hresumed⟩

end EditorSync.Tracker

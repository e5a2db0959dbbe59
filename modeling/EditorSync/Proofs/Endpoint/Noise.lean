import EditorSync.Endpoint.Service
import EditorSync.Proofs.Reconcile.Settling
import EditorSync.Proofs.Rpc.Line
import EditorSync.Proofs.Store.Faults
import EditorSync.Proofs.Tracker.Handling

namespace EditorSync

namespace Tracker

open Rpc (Notification)
open Store (World)

def Message.Unsound : Message → Prop
  | changes m => ∃ e, m.toDelta = .error e
  | operation m => m.kind = .move ∧ m.oldPath = none
  | reconcile _ | projectRemoved _ => False

inductive Idle (n : Notification) : Prop
  | unknown (hmethod : Message.of? n = none)
  | unreadable {e : SyncError} (hparams : Message.of? n = some (.error e))
  | unsound {m : Message} (hmessage : Message.of? n = some (.ok m)) (hunsound : m.Unsound)

theorem run_of_unsound {m : Message} (h : m.Unsound) (s : State) :
    ∃ e, (onMessage m).run s = (.error e, s) := by
  cases m with
  | changes m =>
    obtain ⟨e, hdelta⟩ := h
    refine ⟨e, ?_⟩
    have hrefused : (Store.apply m).perform s.world = (.error e, s.world) := by
      unfold Store.apply
      rw [Store.Action.perform_bind, Store.Action.perform_ofExcept, hdelta]
    change (onChanges m).run s = _
    unfold onChanges
    rw [Procedure.run_bind, run_onStore, hrefused]
  | operation m =>
    obtain ⟨kind, path, oldPath⟩ := m
    obtain ⟨rfl, rfl⟩ : kind = .move ∧ oldPath = none := h
    exact ⟨_, rfl⟩
  | reconcile | projectRemoved => cases h

def isRejected : Session.Event → Bool
  | .rejected .. => true
  | _ => false

theorem handle_of_idle {n : Notification} (h : Idle n) (w : World) :
    ∃ events : List Session.Event, (∀ e ∈ events, isRejected e = true) ∧
      handle w n = (w, events.map .event) := by
  cases h with
  | unknown hmethod => exact ⟨[], nofun, by simp [handle, hmethod]⟩
  | @unreadable e hparams =>
    refine ⟨[.rejected none e.kind e.message], ?_, by simp [handle, hparams, rejection]⟩
    simp [isRejected]
  | @unsound m hmessage hunsound =>
    obtain ⟨e, hrun⟩ := run_of_unsound hunsound ⟨w, []⟩
    refine ⟨[.rejected (some m.path) e.kind e.message], by simp [isRejected], ?_⟩
    simp [handle_of_message hmessage, hrun, rejections, rejection]

end Tracker

namespace Endpoint

open Reconcile (Engine Job)
open Session (Event)
open Text (Bytes)
open Tracker (Idle Output isRejected)

variable {σ : Type} {engine : Engine σ} {s s' : Service σ} {text : String} {line : Bytes}
  {lines noisy : List Bytes}

/-- A line from which no message can be read, in whichever way. -/
inductive Noise (line : Bytes) : Prop
  | blank {text : String} (htext : Text.decode? line = some text)
    (hblank : Rpc.Line.ofText text = .blank)
  | malformed {text : String} (htext : Text.decode? line = some text)
    (hmalformed : Rpc.Line.ofText text = .malformed)
  | idle {text : String} {n : Rpc.Notification} (htext : Text.decode? line = some text)
    (hread : Rpc.Line.ofText text = .notification n) (hidle : Idle n)

inductive Noisy : List Bytes → List Bytes → Prop
  | nil : Noisy [] []
  | line (line : Bytes) {lines noisy : List Bytes} (h : Noisy lines noisy) :
    Noisy (line :: lines) (line :: noisy)
  | noise {line : Bytes} {lines noisy : List Bytes} (hnoise : Noise line) (h : Noisy lines noisy) :
    Noisy lines (line :: noisy)

theorem Noisy.subset (h : Noisy lines noisy) : lines ⊆ noisy := by
  induction h with
  | nil => exact List.nil_subset _
  | line line h ih => exact List.cons_subset_cons line ih
  | noise hnoise h ih => exact fun line hline => List.mem_cons_of_mem _ (ih hline)

def Output.job? : Output → Option (String × Job)
  | .dispatch file job => some (file, job)
  | .event _ => none

namespace Service

def jobsOfLine (s : Service σ) (text : String) : List (String × Job) :=
  match Rpc.Line.ofText text with
  | .notification n => (Tracker.handle s.world n).2.filterMap Output.job?
  | .blank | .malformed => []

def jobsOfLines (engine : Engine σ) : Service σ → List Bytes → List (String × Job)
  | _, [] => []
  | s, line :: rest =>
    match Text.decode? line with
    | none => []
    | some text => s.jobsOfLine text ++ jobsOfLines engine (s.handleLine engine text).1 rest

def quiet (s : Service σ) : Service σ := { s with log := s.log.filter fun e => !isRejected e }

def AtRest (s : Service σ) : Prop := s.schedule.next? = none

theorem world_eq_of_quiet (h : s.quiet = s'.quiet) : s.world = s'.world := congrArg (·.world) h

theorem quiet_record (h : s.quiet = s'.quiet) (events : List Event) :
    (s.record events).quiet = (s'.record events).quiet := by
  have hlog (s : Service σ) : (s.record events).quiet =
      s.quiet.record (events.filter fun e => !isRejected e) := by
    simp [quiet, record, List.filter_append]
  rw [hlog, hlog, h]

theorem quiet_record_rejected {events : List Event} (h : ∀ e ∈ events, isRejected e = true) :
    (s.record events).quiet = s.quiet := by
  have hnone : events.filter (fun e => !isRejected e) = [] := by
    rw [List.filter_eq_nil_iff]
    intro e he
    simp [h e he]
  simp [quiet, record, List.filter_append, hnone]

theorem quiet_accept (h : s.quiet = s'.quiet) (outputs : List Output) :
    (s.accept outputs).quiet = (s'.accept outputs).quiet := by
  induction outputs generalizing s s' with
  | nil => exact h
  | cons output outputs ih =>
    apply ih
    cases output with
    | event e => exact quiet_record h [e]
    | dispatch file job =>
      exact congrArg (fun q => { q with schedule := q.schedule.dispatch file job }) h

theorem accept_events (s : Service σ) (events : List Event) :
    s.accept (events.map .event) = s.record events := by
  induction events generalizing s with
  | nil => simp [accept, record]
  | cons e events ih =>
    have hrest : s.accept ((e :: events).map .event) = (s.record [e]).accept (events.map .event) := rfl
    rw [hrest, ih]
    simp [record]

theorem quiet_settle (h : s.quiet = s'.quiet) :
    (s.settle engine).1.quiet = (s'.settle engine).1.quiet ∧
      (s.settle engine).2 = (s'.settle engine).2 := by
  have hschedule : s.schedule = s'.schedule := congrArg (·.schedule) h
  have hengine : s.engine = s'.engine := congrArg (·.engine) h
  unfold settle
  rw [hschedule, hengine]
  refine ⟨quiet_record ?_ _, rfl⟩
  exact congrArg (fun q => { q with
    schedule := (Reconcile.settle engine s'.schedule s'.engine).1
    engine := (Reconcile.settle engine s'.schedule s'.engine).2.1 }) h

theorem settle_of_rest (h : s.AtRest) : s.settle engine = (s, []) := by
  unfold settle
  rw [Reconcile.settle_of_rest engine s.engine h]
  simp [record]

theorem atRest_settle (s : Service σ) : (s.settle engine).1.AtRest :=
  Reconcile.next?_settleWith engine _ _ _ (Nat.le_refl _)

theorem quiet_handleLine (engine : Engine σ) (h : s.quiet = s'.quiet) (text : String) :
    (s.handleLine engine text).1.quiet = (s'.handleLine engine text).1.quiet ∧
      (s.handleLine engine text).2 = (s'.handleLine engine text).2 ∧
      s.jobsOfLine text = s'.jobsOfLine text := by
  have hworld := world_eq_of_quiet h
  unfold handleLine jobsOfLine
  cases Rpc.Line.ofText text with
  | blank => exact ⟨h, rfl, rfl⟩
  | malformed => exact ⟨quiet_record h _, rfl, rfl⟩
  | notification n =>
    dsimp only
    unfold handle
    rw [hworld]
    have haccept : ({ s with world := (Tracker.handle s'.world n).1 }.accept
        (Tracker.handle s'.world n).2).quiet =
        ({ s' with world := (Tracker.handle s'.world n).1 }.accept
          (Tracker.handle s'.world n).2).quiet :=
      quiet_accept (congrArg (fun q => { q with world := (Tracker.handle s'.world n).1 }) h) _
    exact ⟨(quiet_settle haccept).1, (quiet_settle haccept).2, rfl⟩

theorem atRest_handleLine (h : s.AtRest) (text : String) : (s.handleLine engine text).1.AtRest := by
  unfold handleLine
  cases Rpc.Line.ofText text with
  | blank => exact h
  | malformed => exact h
  | notification n => exact atRest_settle _

theorem atRest_handleLines (h : s.AtRest) (lines : List Bytes) :
    (s.handleLines engine lines).1.AtRest := by
  induction lines generalizing s with
  | nil => exact h
  | cons line lines ih =>
    unfold handleLines
    cases Text.decode? line with
    | none => exact h
    | some text => exact ih (atRest_handleLine h text)

theorem handleLine_of_noise (engine : Engine σ) (hrest : s.AtRest) (hnoise : Noise line) :
    ∃ text, Text.decode? line = some text ∧ s.jobsOfLine text = [] ∧
      ∃ events : List Event, (∀ e ∈ events, isRejected e = true) ∧
        s.handleLine engine text = (s.record events, []) := by
  cases hnoise with
  | @blank text htext hblank =>
    refine ⟨text, htext, by simp [jobsOfLine, hblank], [], nofun, ?_⟩
    simp [handleLine, hblank, record]
  | @malformed text htext hmalformed =>
    refine ⟨text, htext, by simp [jobsOfLine, hmalformed], [malformed], ?_, ?_⟩
    · simp [malformed, isRejected]
    · simp [handleLine, hmalformed]
  | @idle text n htext hread hidle =>
    obtain ⟨events, hrejected, hhandle⟩ := Tracker.handle_of_idle hidle s.world
    refine ⟨text, htext, ?_, events, hrejected, ?_⟩
    · have hnone : (events.map Tracker.Output.event).filterMap Output.job? = [] := by
        simp [List.filterMap_map, Output.job?]
      simp [jobsOfLine, hread, hhandle, hnone]
    · have hrecord : (s.record events).AtRest := hrest
      simp only [handleLine, hread, handle, hhandle, accept_events]
      exact settle_of_rest hrecord

theorem quiet_handleLines (engine : Engine σ) (h : Noisy lines noisy) (hrest : s'.AtRest) (hs : s'.quiet = s.quiet) :
    (s'.handleLines engine noisy).1.quiet = (s.handleLines engine lines).1.quiet ∧
      (s'.handleLines engine noisy).2 = (s.handleLines engine lines).2 ∧
      s'.jobsOfLines engine noisy = s.jobsOfLines engine lines := by
  induction h generalizing s s' with
  | nil => exact ⟨hs, rfl, rfl⟩
  | @line line lines noisy h ih =>
    unfold handleLines jobsOfLines
    cases Text.decode? line with
    | none => exact ⟨hs, rfl, rfl⟩
    | some text =>
      obtain ⟨hquiet, hresults, hjobs⟩ := quiet_handleLine engine hs text
      obtain ⟨hquiet', hresults', hjobs'⟩ := ih (atRest_handleLine hrest text) hquiet
      dsimp only
      rw [hresults, hresults', hjobs, hjobs']
      exact ⟨hquiet', rfl, rfl⟩
  | @noise line lines noisy hnoise h ih =>
    obtain ⟨text, htext, hjobs, events, hrejected, hhandle⟩ :=
      handleLine_of_noise engine hrest hnoise
    have hquiet : (s'.record events).quiet = s.quiet := (quiet_record_rejected hrejected).trans hs
    have hrecord : (s'.record events).AtRest := hrest
    obtain ⟨hquiet', hresults', hjobs'⟩ := ih hrecord hquiet
    have hline : s'.handleLines engine (line :: noisy) =
        (s'.record events).handleLines engine noisy := by
      rw [handleLines, htext]
      simp only [hhandle, List.nil_append]
    have hjob : s'.jobsOfLines engine (line :: noisy) =
        (s'.record events).jobsOfLines engine noisy := by
      rw [jobsOfLines, htext]
      simp only [hhandle, hjobs, List.nil_append]
    rw [hline, hjob]
    exact ⟨hquiet', hresults', hjobs'⟩

def opened (s : Service σ) : Service σ :=
  { s with connections := s.connections + 1 }.record
    [.endpointConnected s!"endpoint-{s.connections + 1}"]

def jobs (engine : Engine σ) (s : Service σ) (stream : Bytes) : List (String × Job) :=
  s.opened.jobsOfLines engine (Text.byteLines stream)

theorem connect_eq (engine : Engine σ) (s : Service σ) (stream : Bytes) :
    s.connect engine stream =
      let r := s.opened.handleLines engine (Text.byteLines stream)
      (r.1.record [.endpointDisconnected s!"endpoint-{s.connections + 1}"], r.2) := rfl

theorem atRest_new (world : Store.World) (state : σ) : (new world state).AtRest := rfl

theorem atRest_connect (h : s.AtRest) (stream : Bytes) : (s.connect engine stream).1.AtRest := by
  have hopened : s.opened.AtRest := h
  rw [connect_eq]
  exact atRest_handleLines hopened _

/-- Whatever noise there is between the lines of a connection, the service becomes the same, hands
out the same work and answers the same. Only what it logs as rejected may differ. -/
theorem connect_of_noisy (engine : Engine σ) (hrest : s.AtRest) (h : Noisy lines noisy)
    (hlines : ∀ line ∈ noisy, 10 ∉ line) :
    let disturbed := s.connect engine (Text.terminated noisy)
    let calm := s.connect engine (Text.terminated lines)
    disturbed.1.quiet = calm.1.quiet ∧ disturbed.2 = calm.2 ∧
      s.jobs engine (Text.terminated noisy) = s.jobs engine (Text.terminated lines) := by
  intro disturbed calm
  have hopened : s.opened.AtRest := hrest
  have hnoisy : Text.byteLines (Text.terminated noisy) = noisy := Text.byteLines_terminated hlines
  have hcalm : Text.byteLines (Text.terminated lines) = lines :=
    Text.byteLines_terminated fun line hline => hlines line (h.subset hline)
  obtain ⟨hquiet, hresults, hjobs⟩ := quiet_handleLines engine h hopened rfl
  simp only [disturbed, calm, connect_eq, jobs, hnoisy, hcalm]
  exact ⟨quiet_record hquiet _, hresults, hjobs⟩

theorem world_accept (outputs : List Output) (s : Service σ) :
    (s.accept outputs).world = s.world := by
  induction outputs generalizing s with
  | nil => rfl
  | cons output outputs ih =>
    have hrest := ih (s.accept [output])
    cases output with
    | event e => exact hrest
    | dispatch file job => exact hrest

theorem world_handle (engine : Engine σ) (s : Service σ) (n : Rpc.Notification) :
    (s.handle engine n).1.world = (Tracker.handle s.world n).1 := world_accept _ _

theorem world_connect_singleton (engine : Engine σ) (s : Service σ) {n : Rpc.Notification}
    (hline : 10 ∉ line) (htext : Text.decode? line = some text)
    (hread : Rpc.Line.ofText text = .notification n) :
    (s.connect engine (Text.terminated [line])).1.world = (Tracker.handle s.world n).1 := by
  have hlines : Text.byteLines (Text.terminated [line]) = [line] := by
    apply Text.byteLines_terminated
    intro line' hline'
    rwa [List.mem_singleton.mp hline']
  have hhandle : s.opened.handleLines engine [line] =
      ((s.opened.handle engine n).1, (s.opened.handle engine n).2 ++ []) := by
    simp only [handleLines, htext, handleLine, hread]
  rw [connect_eq, hlines, hhandle]
  exact world_handle engine s.opened n

end Service

def bareWorld : Store.World :=
  ⟨.new ⟨.ofRoot Store.bareDisk "/ws", ".tandem"⟩ { Store.Settings.default with persist := false },
    Store.bareDisk⟩

def startNotice : Rpc.Notification :=
  .of FileOperation.method (FileOperation.toJson ⟨.start, "/p/a", none⟩)

def startLine : Bytes := Text.encode startNotice.toJson.compact

theorem startNotice_params :
    startNotice.params = .obj [("path", .str "/p/a"), ("type", .str "START")] := by cbv

theorem startNotice_exact : Json.Exact startNotice.params := by
  rw [startNotice_params]
  refine Json.Exact.obj ?_
  simp [Json.Exact.str]

theorem startLine_text : Text.decode? startLine = some startNotice.toJson.compact :=
  Text.decode?_encode _

theorem startLine_read : Rpc.Line.ofText startNotice.toJson.compact = .notification startNotice :=
  Rpc.ofText_compact startNotice_exact (by rw [startNotice_params]; cbv)

theorem newline_not_mem_startLine : 10 ∉ startLine :=
  (Rpc.exact_toJson startNotice_exact).newline_not_mem_encode

theorem connect_startLine : ((Service.new bareWorld ()).connect .idle
    (Text.terminated [startLine])).1.world.store.trackingState? "/p/a" = some .started := by
  have hworld := Service.world_connect_singleton .idle (Service.new bareWorld ())
    newline_not_mem_startLine startLine_text startLine_read
  have hmessage : Tracker.Message.of? startNotice =
      some (.ok (.operation ⟨.start, "/p/a", none⟩)) := by cbv
  have hstart : (Tracker.handle bareWorld startNotice).1 =
      (Store.Call.start "/p/a").after bareWorld := by
    rw [Tracker.handle_of_message hmessage]
    exact Tracker.world_onMessage _ _
  rw [hworld]
  change (Tracker.handle bareWorld startNotice).1.store.trackingState? "/p/a" = _
  rw [hstart]
  cbv

def startAmongNoise : List Bytes :=
  [Text.encode "stop", [], startLine, Text.encode "\x7b\x7d"]

theorem startAmongNoise_noisy : Noisy [startLine] startAmongNoise := by
  have hstop : Noise (Text.encode "stop") := .malformed (Text.decode?_encode _) (by cbv)
  have hempty : Noise [] := .blank (Text.decode?_encode "") (by cbv)
  have hobject : Noise (Text.encode "\x7b\x7d") := .malformed (Text.decode?_encode _) (by cbv)
  exact .noise hstop (.noise hempty (.line startLine (.noise hobject .nil)))

theorem newline_not_mem_startAmongNoise : ∀ line ∈ startAmongNoise, 10 ∉ line := by
  simp only [startAmongNoise, List.forall_mem_cons]
  exact ⟨by decide, by decide, newline_not_mem_startLine, by decide, nofun⟩

theorem connect_of_noisy_blank :
    (Service.new bareWorld ()).AtRest ∧ Noisy [startLine] startAmongNoise ∧
      (∀ line ∈ startAmongNoise, 10 ∉ line) ∧
      ((Service.new bareWorld ()).connect .idle
        (Text.terminated startAmongNoise)).1.world.store.trackingState? "/p/a" = some .started := by
  refine ⟨Service.atRest_new _ _, startAmongNoise_noisy, newline_not_mem_startAmongNoise, ?_⟩
  obtain ⟨hquiet, -⟩ := Service.connect_of_noisy .idle (Service.atRest_new bareWorld ())
    startAmongNoise_noisy newline_not_mem_startAmongNoise
  rw [Service.world_eq_of_quiet hquiet]
  exact connect_startLine

theorem line_of_no_text_ends_reading :
    let s : Service Unit := .new bareWorld ()
    Text.decode? [0xff] = none ∧
      (s.connect .idle (Text.terminated [startLine])).1.world.store.trackingState? "/p/a" =
        some .started ∧
      (s.connect .idle (Text.terminated [[0xff], startLine])).1.world.store.trackingState? "/p/a" =
        none := by
  intro s
  refine ⟨by cbv, connect_startLine, by cbv⟩

end Endpoint
end EditorSync

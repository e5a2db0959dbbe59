import EditorSync.Proofs.Editor.Run

namespace EditorSync.Editor.AutoSave

variable {a : AutoSave}

def overrides (a : AutoSave) : Stimulus → Bool
  | .event .activate _ => a.enabled? ≠ some false
  | .event .deactivate _ => a.mode ≠ .suspended
  | .event .settingsChanged _ =>
    match a.enabled? with
    | some false => a.mode ≠ .deactivated && a.mode ≠ .suspended
    | some true => a.mode ≠ .activated
    | none => false
  | _ => false

def undisturbed (a : AutoSave) : List Stimulus → Bool
  | [] => true
  | s :: rest => !a.overrides s && undisturbed (a.react s).1 rest

def snapshot (a : AutoSave) (project : String) : EditorChanges :=
  a.envelope project (.replaceAll a.document.text) a.nextSeq

def Streaming (a : AutoSave) : Prop := a.mode = .activated ∨ a.mode = .deactivated

theorem streaming_of_settledMode : a.settledMode = .activated ∨ a.settledMode = .deactivated := by
  unfold settledMode
  split
  · exact .inr rfl
  · exact .inl rfl

theorem activate_streaming (now : Nat) (h : a.enabled? ≠ some false) : (a.activate now).Streaming := by
  rw [activate, if_neg h]
  exact .inl rfl

theorem deactivate_streaming (h : a.mode ≠ .suspended) : a.deactivate.Streaming := by
  rw [deactivate, if_neg h]
  exact .inr rfl

theorem changed_mode (change : DocumentChange) (now : Nat) :
    (a.changed change now).mode = a.mode := by
  unfold changed
  split <;> rfl

theorem settingsChanged_mode (now : Nat) :
    (a.settingsChanged now).mode = a.mode ∧
        a.overrides (.event .settingsChanged now) = false ∨
      (a.settingsChanged now).Streaming ∧ a.overrides (.event .settingsChanged now) = true := by
  unfold settingsChanged
  cases henabled : a.enabled? with
  | none => exact .inl ⟨rfl, by simp only [overrides, henabled]⟩
  | some stored =>
    cases stored with
    | false =>
      by_cases hoff : a.mode = .deactivated
      · exact .inl ⟨by simp only [if_pos hoff], by simp [overrides, henabled, hoff]⟩
      · by_cases hsuspended : a.mode = .suspended
        · refine .inl ⟨?_, by simp [overrides, henabled, hsuspended]⟩
          simp only [if_neg hoff, deactivate, if_pos hsuspended]
        · refine .inr ⟨?_, by simp [overrides, henabled, hoff, hsuspended]⟩
          simp only [if_neg hoff]
          exact deactivate_streaming hsuspended
    | true =>
      by_cases hon : a.mode = .activated
      · exact .inl ⟨by simp only [if_pos hon], by simp [overrides, henabled, hon]⟩
      · refine .inr ⟨?_, by simp [overrides, henabled, hon]⟩
        simp only [if_neg hon]
        exact activate_streaming now (by simp [henabled])

theorem react_flush (s : Stimulus) (h : a.flushes s = true) :
    a.mode ≠ .suspended ∧ a.overrides s = false ∧
      ∃ timer, a.react s = ({ a with timer := timer } : AutoSave).save := by
  unfold flushes at h
  split at h
  · exact ⟨by simpa using h, rfl, a.timer, rfl⟩
  · rename_i now
    rw [Bool.and_eq_true] at h
    refine ⟨by simpa using h.2, rfl, a.timer.cancel, ?_⟩
    change (a.tick now).1 = _
    rw [tick_eq, if_pos h.1]
  · cases h

inductive Idles (a : AutoSave) : Stimulus → AutoSave → Prop
  | kept {s : Stimulus} {b : AutoSave} (same : b.mode = a.mode) (calm : a.overrides s = false) :
    Idles a s b
  | overridden {s : Stimulus} {b : AutoSave} (streaming : b.Streaming)
    (switched : a.overrides s = true) : Idles a s b
  | suspended {b : AutoSave} (now : Nat) (asleep : b.mode = .suspended) :
    Idles a (.event .trackingSuspended now) b
  | resumed {b : AutoSave} (now : Nat) (resuming : b.mode = .resuming) :
    Idles a (.event .trackingResumed now) b

theorem react_idle (s : Stimulus) (h : a.flushes s = false) :
    Idles a s (a.react s).1 ∧ (a.react s).2 = [] := by
  have hsave (b : AutoSave) (hb : b.mode = .suspended) : b.save = (b, []) := by
    simp only [save, hb]
  cases s with
  | event e now =>
    cases e with
    | changed change => exact ⟨.kept (changed_mode change now) rfl, rfl⟩
    | activate =>
      refine ⟨?_, rfl⟩
      by_cases hoff : a.enabled? = some false
      · exact .kept (by simp [react, handle, activate, hoff]) (by simp [overrides, hoff])
      · exact .overridden (activate_streaming now hoff) (by simp [overrides, hoff])
    | deactivate =>
      refine ⟨?_, rfl⟩
      by_cases hmode : a.mode = .suspended
      · exact .kept (by simp [react, handle, deactivate, hmode]) (by simp [overrides, hmode])
      · exact .overridden (deactivate_streaming hmode) (by simp [overrides, hmode])
    | trackingSuspended => exact ⟨.suspended now rfl, rfl⟩
    | trackingResumed => exact ⟨.resumed now rfl, rfl⟩
    | activePartChanged active => exact ⟨.kept rfl rfl, rfl⟩
    | settingsChanged =>
      refine ⟨?_, rfl⟩
      rcases settingsChanged_mode now with ⟨hmode, hcalm⟩ | ⟨hstreaming, hswitched⟩
      · exact .kept hmode hcalm
      · exact .overridden hstreaming hswitched
    | save =>
      have hmode : a.mode = .suspended := by simpa [flushes] using h
      change Idles a _ a.save.1 ∧ a.save.2 = []
      rw [hsave a hmode]
      exact ⟨.kept rfl rfl, rfl⟩
  | tick now =>
    change Idles a _ (a.tick now).1.1 ∧ (a.tick now).1.2 = []
    rw [tick_eq]
    split
    · rename_i hdue
      have hmode : a.mode = .suspended := by simpa [flushes, hdue] using h
      rw [hsave { a with timer := a.timer.cancel } hmode]
      exact ⟨.kept rfl rfl, rfl⟩
    · exact ⟨.kept rfl rfl, rfl⟩
  | host document => exact ⟨.kept rfl rfl, rfl⟩
  | prefer stored => exact ⟨.kept rfl rfl, rfl⟩

theorem run_suspended (stimuli : List Stimulus) (hmode : a.mode = .suspended)
    (hcalm : a.undisturbed stimuli = true)
    (hresume : ∀ t, Stimulus.event .trackingResumed t ∉ stimuli) : (a.run stimuli).2 = [] := by
  induction stimuli generalizing a with
  | nil => rfl
  | cons s rest ih =>
    simp only [undisturbed, Bool.and_eq_true, Bool.not_eq_true'] at hcalm
    have hflush : a.flushes s = false := by
      cases hf : a.flushes s with
      | false => rfl
      | true => exact absurd hmode (react_flush s hf).1
    obtain ⟨hidle, hsent⟩ := react_idle s hflush
    have hmode' : (a.react s).1.mode = .suspended := by
      cases hidle with
      | kept same _ => rw [same, hmode]
      | overridden _ switched => rw [hcalm.1] at switched; cases switched
      | suspended _ asleep => exact asleep
      | resumed now _ => exact absurd List.mem_cons_self (hresume now)
    rw [run_cons, hsent, ih hmode' hcalm.2 fun t ht => hresume t (List.mem_cons_of_mem _ ht)]
    rfl

theorem react_streaming (s : Stimulus) (h : a.Streaming)
    (hsuspend : ∀ t, s ≠ .event .trackingSuspended t)
    (hresume : ∀ t, s ≠ .event .trackingResumed t) : (a.react s).1.Streaming := by
  cases hf : a.flushes s with
  | true =>
    obtain ⟨-, -, timer, hreact⟩ := react_flush s hf
    have hsaves := saves_save { a with timer := timer }
    rw [← hreact] at hsaves
    generalize (a.react s).1 = b, (a.react s).2 = sent at hsaves
    cases hsaves with
    | ignored | dropped | streamed => exact h
    | snapshot => exact streaming_of_settledMode
  | false =>
    obtain ⟨hidle, -⟩ := react_idle s hf
    generalize (a.react s).1 = b at hidle
    cases hidle with
    | kept same _ => simpa only [Streaming, same] using h
    | overridden streaming _ => exact streaming
    | suspended now _ => exact absurd rfl (hsuspend now)
    | resumed now _ => exact absurd rfl (hresume now)

theorem run_streaming (stimuli : List Stimulus) (h : a.Streaming)
    (hsuspend : ∀ t, Stimulus.event .trackingSuspended t ∉ stimuli)
    (hresume : ∀ t, Stimulus.event .trackingResumed t ∉ stimuli) : (a.run stimuli).1.Streaming := by
  induction stimuli generalizing a with
  | nil => exact h
  | cons s rest ih =>
    have hs : (a.react s).1.Streaming := react_streaming s h
      (fun t ht => hsuspend t (ht ▸ List.mem_cons_self))
      (fun t ht => hresume t (ht ▸ List.mem_cons_self))
    exact ih hs (fun t ht => hsuspend t (List.mem_cons_of_mem _ ht))
      (fun t ht => hresume t (List.mem_cons_of_mem _ ht))

theorem react_snapshot (s : Stimulus) (hmode : a.mode = .resuming) (hflush : a.flushes s = true)
    (project : String) (howned : a.document.project = some project) :
    (a.react s).2 = [a.snapshot project] := by
  obtain ⟨-, -, timer, hreact⟩ := react_flush s hflush
  rw [hreact]
  simp only [save, hmode, howned]
  rfl

theorem react_resuming (s : Stimulus) (hmode : a.mode = .resuming) (hsent : (a.react s).2 ≠ []) :
    ∃ project, (a.react s).2 = [a.snapshot project] := by
  cases hf : a.flushes s with
  | true =>
    cases howned : a.document.project with
    | none =>
      obtain ⟨-, -, timer, hreact⟩ := react_flush s hf
      rw [hreact] at hsent
      simp only [save, hmode, howned, flush_eq_of_project_none] at hsent
      exact absurd rfl hsent
    | some project => exact ⟨project, react_snapshot s hmode hf project howned⟩
  | false => exact absurd (react_idle s hf).2 hsent

theorem run_resuming (stimuli : List Stimulus) (hmode : a.mode = .resuming)
    (hsuspend : ∀ t, Stimulus.event .trackingSuspended t ∉ stimuli)
    (hresume : ∀ t, Stimulus.event .trackingResumed t ∉ stimuli)
    (silent : (a.run stimuli).2 = []) :
    (a.run stimuli).1.mode = .resuming ∧ a.undisturbed stimuli = true ∨
      (a.run stimuli).1.Streaming ∧ a.undisturbed stimuli = false := by
  induction stimuli generalizing a with
  | nil => exact .inl ⟨hmode, rfl⟩
  | cons s rest ih =>
    rw [run_cons, List.append_eq_nil_iff] at silent
    have hsuspend' : ∀ t, Stimulus.event .trackingSuspended t ∉ rest :=
      fun t ht => hsuspend t (List.mem_cons_of_mem _ ht)
    have hresume' : ∀ t, Stimulus.event .trackingResumed t ∉ rest :=
      fun t ht => hresume t (List.mem_cons_of_mem _ ht)
    -- A mode that is kept leaves the question to the rest of the stimuli.
    have hkept (hmode' : (a.react s).1.mode = .resuming) (hcalm : a.overrides s = false) :
        (a.run (s :: rest)).1.mode = .resuming ∧ a.undisturbed (s :: rest) = true ∨
          (a.run (s :: rest)).1.Streaming ∧ a.undisturbed (s :: rest) = false := by
      simp only [undisturbed, hcalm, Bool.not_false, Bool.true_and]
      exact ih hmode' hsuspend' hresume' silent.2
    cases hf : a.flushes s with
    | true =>
      obtain ⟨-, hcalm, timer, hreact⟩ := react_flush s hf
      cases howned : a.document.project with
      | none =>
        refine hkept ?_ hcalm
        rw [hreact]
        simp only [save, hmode, howned, flush_eq_of_project_none]
      | some project =>
        rw [react_snapshot s hmode hf project howned] at silent
        cases silent.1
    | false =>
      obtain ⟨hidle, -⟩ := react_idle s hf
      have hreact : ∀ b, (a.react s).1 = b → Idles a s b := fun b hb => hb ▸ hidle
      cases hreact _ rfl with
      | kept same calm => exact hkept (same.trans hmode) calm
      | overridden streaming switched =>
        refine .inr ⟨run_streaming rest streaming hsuspend' hresume', ?_⟩
        simp only [undisturbed, switched, Bool.not_true, Bool.false_and]
      | suspended now _ => exact absurd List.mem_cons_self (hsuspend now)
      | resumed now _ => exact absurd List.mem_cons_self (hresume now)

def Incremental (a : AutoSave) : Prop := ∀ delta ∈ a.queue.deltas, delta.kind ≠ .replaceAll

theorem toDeltas_kind (change : DocumentChange) :
    ∀ delta ∈ change.toDeltas, delta.kind ≠ .replaceAll := by
  intro delta hdelta
  simp only [DocumentChange.toDeltas, List.mem_append] at hdelta
  rcases hdelta with h | h <;> split at h <;> simp_all [Delta.kind]

theorem accepts_kind (a : AutoSave) (s : Stimulus) :
    ∀ delta ∈ a.accepts s, delta.kind ≠ .replaceAll := by
  unfold accepts
  split
  · split
    · exact toDeltas_kind _
    · exact fun delta hdelta => absurd hdelta List.not_mem_nil
  · exact fun delta hdelta => absurd hdelta List.not_mem_nil

theorem save_incremental (h : a.Incremental) : a.save.1.Incremental := by
  have hempty (b : AutoSave) (hb : b.queue = .empty) : b.Incremental := by
    intro delta hdelta
    rw [hb] at hdelta
    cases hdelta
  have hsaves := saves_save a
  generalize a.save.1 = b, a.save.2 = sent at hsaves
  cases hsaves with
  | ignored => exact h
  | snapshot | dropped | streamed => exact hempty _ rfl

theorem react_incremental (s : Stimulus) (h : a.Incremental) : (a.react s).1.Incremental := by
  cases hflush : a.flushes s with
  | true =>
    obtain ⟨-, -, timer, hreact⟩ := react_flush s hflush
    rw [hreact]
    exact save_incremental h
  | false =>
    intro delta hdelta
    rw [(react_queues s hflush).1, List.mem_append] at hdelta
    exact hdelta.elim (h delta) (accepts_kind a s delta)

theorem run_incremental (stimuli : List Stimulus) (h : a.Incremental) :
    (a.run stimuli).1.Incremental := by
  induction stimuli generalizing a with
  | nil => exact h
  | cons s rest ih => exact ih (react_incremental s h)

theorem install_incremental (document : Document) (preference : Option Bool) (delay : Nat)
    (enc : Text.Encoding) (owner : Option String) (now : Nat) :
    (install document preference delay enc owner now).Incremental := by
  intro delta hdelta
  obtain ⟨mode, timer, heq⟩ := install_eq document preference delay enc owner now
  rw [heq] at hdelta
  cases hdelta

theorem react_streaming_kind (s : Stimulus) (h : a.Streaming) (hqueue : a.Incremental) :
    ∀ message ∈ (a.react s).2, message.kind ≠ .replaceAll := by
  cases hf : a.flushes s with
  | true =>
    obtain ⟨-, -, timer, hreact⟩ := react_flush s hf
    have hsaves := saves_save { a with timer := timer }
    rw [← hreact] at hsaves
    generalize (a.react s).1 = b, (a.react s).2 = sent at hsaves
    intro message hmessage
    cases hsaves with
    | ignored | dropped => cases hmessage
    | snapshot resuming =>
      rcases h with h | h <;> rw [h] at resuming <;> cases resuming
    | streamed _ _ =>
      obtain ⟨x, hx, rfl⟩ := List.mem_map.mp hmessage
      exact hqueue x.1 (List.fst_mem_of_mem_zipIdx hx)
  | false =>
    rw [(react_idle s hf).2]
    exact fun message hmessage => absurd hmessage List.not_mem_nil

/-- After a suspension and a resumption, the first message is the whole text exactly if saving
has not been switched on or off since the resumption, and nothing goes before it if neither
has been done since the suspension. -/
theorem first_message_after_resume (document : Document) (preference : Option Bool)
    (delay : Nat) (enc : Text.Encoding) (owner : Option String) (installed resumed : Nat)
    (past during since : List Stimulus) (s : Stimulus)
    (hsuspend : ∀ t, Stimulus.event .trackingSuspended t ∉ since)
    (hresume : ∀ t, Stimulus.event .trackingResumed t ∉ since) :
    let a := ((install document preference delay enc owner installed).run past).1.suspend
    let b := (a.run during).1.resume resumed
    let c := (b.run since).1
    (b.run since).2 = [] →
      (a.undisturbed during = true → (∀ t, Stimulus.event .trackingResumed t ∉ during) →
        (a.run during).2 = []) ∧
      (b.undisturbed since = true → c.flushes s = true → ∀ project,
        c.document.project = some project → (c.react s).2 = [c.snapshot project]) ∧
      ((c.react s).2 ≠ [] →
        ((∃ project, (c.react s).2 = [c.snapshot project]) ↔ b.undisturbed since = true)) := by
  intro a b c silent
  have hqueue : c.Incremental := by
    have ha : a.Incremental :=
      run_incremental past (install_incremental document preference delay enc owner installed)
    have hb : b.Incremental := run_incremental during ha
    exact run_incremental since hb
  have hmode := run_resuming since (show b.mode = .resuming from rfl) hsuspend hresume silent
  refine ⟨fun hcalm hnone => run_suspended during rfl hcalm hnone, ?_, ?_⟩
  · intro hcalm hflush project howned
    rcases hmode with ⟨hresuming, -⟩ | ⟨-, hdisturbed⟩
    · exact react_snapshot s hresuming hflush project howned
    · rw [hcalm] at hdisturbed
      cases hdisturbed
  · intro hsent
    constructor
    · rintro ⟨project, hsnapshot⟩
      rcases hmode with ⟨-, hcalm⟩ | ⟨hstreaming, -⟩
      · exact hcalm
      · have hkind := react_streaming_kind s hstreaming hqueue (c.snapshot project)
        rw [hsnapshot] at hkind
        exact absurd rfl (hkind List.mem_cons_self)
    · intro hcalm
      rcases hmode with ⟨hresuming, -⟩ | ⟨-, hdisturbed⟩
      · exact react_resuming s hresuming hsent
      · rw [hcalm] at hdisturbed
        cases hdisturbed

theorem first_message_after_resume_edited :
    let a := ((install ⟨"/p/a", "hello", false, some "/p", false, 0⟩ none 100 .utf16 none 0).run
      []).1.suspend
    let b := (a.run [.host ⟨"/p/a", "hello!", true, some "/p", false, 0⟩,
      .event (.changed (.insertion "/p/a" 5 "!")) 10, .event .save 20]).1.resume 30
    let c := (b.run [.event (.changed (.insertion "/p/a" 6 "?")) 40, .tick 50]).1
    (b.run [.event (.changed (.insertion "/p/a" 6 "?")) 40, .tick 50]).2 = [] ∧
      c.flushes (.tick 140) = true ∧ (c.react (.tick 140)).2 = [c.snapshot "/p"] := by
  intro a b c
  refine ⟨by rfl, by rfl, ?_⟩
  exact (first_message_after_resume ⟨"/p/a", "hello", false, some "/p", false, 0⟩ none 100 .utf16
    none 0 30 [] [.host ⟨"/p/a", "hello!", true, some "/p", false, 0⟩,
      .event (.changed (.insertion "/p/a" 5 "!")) 10, .event .save 20]
    [.event (.changed (.insertion "/p/a" 6 "?")) 40, .tick 50] (.tick 140) (by simp) (by simp)
    (by rfl)).2.1 (by rfl) (by rfl) "/p" (by rfl)

theorem activation_forgets_resumption :
    let a := (install ⟨"/proj/a.txt", "hello", false, some "/proj", false, 0⟩ none 100 .utf16
      none 0).suspend
    let since : List Stimulus :=
      [.host ⟨"/proj/a.txt", "hello!", false, some "/proj", false, 0⟩,
        .event (.changed (.insertion "/proj/a.txt" 5 "!")) 10, .event .activate 20]
    let c := ((a.resume 0).run since).1
    ((a.resume 0).run since).2 = [] ∧ (∀ t, Stimulus.event .trackingSuspended t ∉ since) ∧
      c.document.project = some "/proj" ∧
      (c.react (.tick 120)).2 = [c.envelope "/proj" (.insert 5 "!") 1] ∧
      (c.react (.tick 120)).2 ≠ [c.snapshot "/proj"] := by
  intro a since c
  exact ⟨by rfl, by simp [since], by rfl, by rfl, by decide⟩

end EditorSync.Editor.AutoSave

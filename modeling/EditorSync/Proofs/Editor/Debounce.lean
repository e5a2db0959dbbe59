import EditorSync.Proofs.Editor.Accounts
import Mathlib.Data.List.DropRight

namespace EditorSync.Editor

open AutoSave (Stimulus)

variable {a b : AutoSave} {s : Stimulus} {delay time : Nat}

namespace AutoSave

def Stimulus.time? : Stimulus → Option Nat
  | .event _ now | .tick now => some now
  | .host _ | .prefer _ => none

def arms? (a : AutoSave) : Stimulus → Option Nat
  | .event (.changed change) now =>
    if change.document = a.document.location ∧ a.mode ≠ .suspended then some now else none
  | .event .trackingResumed now => some now
  | .event .activate now => if a.enabled? = some false then none else some now
  | .event .settingsChanged now =>
    if a.enabled? = some true ∧ a.mode ≠ .activated then some now else none
  | _ => none

def cancels (a : AutoSave) : Stimulus → Bool
  | .event .trackingSuspended _ => true
  | .event .deactivate _ => a.mode ≠ .suspended
  | .event .settingsChanged _ =>
    a.enabled? = some false && a.mode ≠ .deactivated && a.mode ≠ .suspended
  | _ => false

def goesOff (a : AutoSave) : Stimulus → Bool
  | .tick now => (a.tick now).2
  | _ => false

theorem tick_due (a : AutoSave) (now : Nat) : (a.tick now).2 = a.timer.isDue now := by
  unfold tick Timer.takeDue
  cases a.timer.isDue now <;> rfl

theorem save_timer (a : AutoSave) : a.save.1.timer = a.timer := by
  have hsaves := saves_save a
  generalize a.save.1 = b, a.save.2 = messages at hsaves
  cases hsaves <;> rfl

theorem save_awake (h : a.mode ≠ .suspended) : a.save.1.mode ≠ .suspended := by
  have hsaves := saves_save a
  generalize a.save.1 = b, a.save.2 = messages at hsaves
  cases hsaves with
  | ignored | dropped | streamed => exact h
  | snapshot =>
    intro hmode
    rcases a.streaming_of_settledMode with hsettled | hsettled <;>
      cases hsettled.symm.trans hmode

theorem react_timer (a : AutoSave) (s : Stimulus) :
    (a.react s).1.timer =
      match a.arms? s with
      | some now => a.timer.schedule now
      | none => if a.cancels s || a.goesOff s then a.timer.cancel else a.timer := by
  cases s with
  | event e now =>
    cases e with
    | changed change =>
      by_cases hheard : change.document = a.document.location ∧ a.mode ≠ .suspended
      · have hcond : ¬(a.mode = .suspended ∨ change.document ≠ a.document.location) := by tauto
        simp only [arms?, if_pos hheard, react, handle, changed, if_neg hcond]
      · have hcond : a.mode = .suspended ∨ change.document ≠ a.document.location := by tauto
        simp only [arms?, if_neg hheard, react, handle, changed, if_pos hcond]
        rfl
    | activate =>
      by_cases hoff : a.enabled? = some false
      · simp only [arms?, if_pos hoff, react, handle, activate]
        rfl
      · simp only [arms?, if_neg hoff, react, handle, activate]
    | deactivate =>
      by_cases hmode : a.mode = .suspended <;>
        simp [arms?, cancels, goesOff, react, handle, deactivate, hmode]
    | trackingSuspended | trackingResumed | activePartChanged => rfl
    | settingsChanged =>
      cases henabled : a.enabled? with
      | none => simp [arms?, cancels, goesOff, react, handle, settingsChanged, henabled]
      | some stored =>
        cases stored with
        | false =>
          by_cases hoff : a.mode = .deactivated
          · simp [arms?, cancels, goesOff, react, handle, settingsChanged, henabled, hoff]
          · by_cases hmode : a.mode = .suspended <;>
              simp [arms?, cancels, goesOff, react, handle, settingsChanged, henabled, hoff,
                deactivate, hmode]
        | true =>
          by_cases hon : a.mode = .activated <;>
            simp [arms?, cancels, goesOff, react, handle, settingsChanged, henabled, hon, activate]
    | save => exact save_timer a
  | tick now =>
    change (a.tick now).1.1.timer = if (false || (a.tick now).2) = true then _ else _
    rw [tick_eq, tick_due, Bool.false_or]
    split
    · exact save_timer _
    · rfl
  | host | prefer => rfl

theorem awake_of_arms (h : a.arms? s = some time) : (a.react s).1.mode ≠ .suspended := by
  unfold arms? at h
  split at h
  · split at h
    · rename_i hheard
      exact fun hmode => hheard.2 ((changed_mode _ _).symm.trans hmode)
    · cases h
  · exact AutoSave.Mode.noConfusion
  · split at h
    · cases h
    · rename_i hoff
      simp only [react, handle, activate, if_neg hoff]
      exact AutoSave.Mode.noConfusion
  · split at h
    · rename_i hon
      simp [react, handle, settingsChanged, activate, hon]
    · cases h
  · cases h

theorem not_goesOff_of_arms (h : a.arms? s = some time) : a.goesOff s = false := by
  cases s with
  | tick => cases h
  | _ => rfl

theorem armed_of_goesOff (h : a.goesOff s = true) : a.timer.deadline.isSome = true := by
  cases s with
  | tick now =>
    have hdue : a.timer.isDue now = true := (tick_due a now).symm.trans h
    unfold Timer.isDue at hdue
    cases hdeadline : a.timer.deadline with
    | none =>
      rw [hdeadline] at hdue
      cases hdue
    | some d => rfl
  | _ => cases h

theorem suspended_of_react (h : (a.react s).1.mode = .suspended) :
    a.mode = .suspended ∨ a.cancels s = true := by
  cases hflush : a.flushes s with
  | true =>
    obtain ⟨hawake, -, timer, hreact⟩ := react_flush s hflush
    rw [hreact] at h
    exact absurd h (save_awake hawake)
  | false =>
    have hidle := (react_idle s hflush).1
    generalize (a.react s).1 = b at h hidle
    cases hidle with
    | kept same => exact .inl (same.symm.trans h)
    | overridden streaming =>
      rcases streaming with hmode | hmode <;> cases hmode.symm.trans h
    | suspended => exact .inr rfl
    | resumed _ resuming => cases resuming.symm.trans h

end AutoSave

structure Moment where
  editor : AutoSave
  stimulus : Stimulus
  deriving DecidableEq, Repr

namespace Moment

def armed? (m : Moment) : Option Nat := m.editor.arms? m.stimulus

def cancels (m : Moment) : Bool := m.editor.cancels m.stimulus

def goesOff (m : Moment) : Bool := m.editor.goesOff m.stimulus

def flushes (m : Moment) : Bool := m.editor.flushes m.stimulus

def accepted (m : Moment) : List Delta := m.editor.accepts m.stimulus

/-- The timer was set at a time, and since then it has not been set anew or cancelled, nor has it
gone off. -/
def Pending (history : List Moment) (time : Nat) : Prop :=
  ∃ before m after, history = before ++ m :: after ∧ m.armed? = some time ∧
    ∀ n ∈ after, n.armed? = none ∧ n.cancels = false ∧ n.goesOff = false

def unflushed (history : List Moment) : List Delta :=
  (history.rtakeWhile (!·.flushes)).flatMap accepted

variable {history : List Moment} {m : Moment}

theorem pending_concat_iff : Pending (history ++ [m]) time ↔
    m.armed? = some time ∨
      Pending history time ∧ m.armed? = none ∧ m.cancels = false ∧ m.goesOff = false := by
  constructor
  · rintro ⟨before, n, after, hsplit, harmed, hafter⟩
    rcases List.eq_nil_or_concat after with rfl | ⟨after, last, rfl⟩
    · obtain ⟨-, rfl⟩ := List.append_singleton_inj.mp hsplit
      exact .inl harmed
    · rw [List.concat_eq_append, ← List.cons_append, ← List.append_assoc] at hsplit
      obtain ⟨rfl, rfl⟩ := List.append_singleton_inj.mp hsplit
      rw [List.concat_eq_append] at hafter
      exact .inr ⟨⟨before, n, after, rfl, harmed, fun k hk => hafter k (List.mem_append_left _ hk)⟩,
        hafter m (by simp)⟩
  · rintro (harmed | ⟨⟨before, n, after, rfl, harmed, hafter⟩, hquiet⟩)
    · exact ⟨history, m, [], rfl, harmed, fun _ hk => absurd hk List.not_mem_nil⟩
    · refine ⟨before, n, after ++ [m], by simp, harmed, fun k hk => ?_⟩
      rcases List.mem_append.mp hk with hk | hk
      · exact hafter k hk
      · exact List.mem_singleton.mp hk ▸ hquiet

theorem unflushed_concat : unflushed (history ++ [m]) =
    if m.flushes then [] else unflushed history ++ m.accepted := by
  unfold unflushed
  split
  · rename_i hflush
    rw [List.rtakeWhile_concat_neg _ _ _ (by simp [hflush])]
    rfl
  · rename_i hflush
    rw [List.rtakeWhile_concat_pos _ _ _ (by simp [hflush]), List.flatMap_append]
    simp

end Moment

open Moment (Pending unflushed)

def AutoSave.history (a : AutoSave) : List Stimulus → List Moment
  | [] => []
  | s :: rest => ⟨a, s⟩ :: history (a.react s).1 rest

structure Watched (delay : Nat) (history : List Moment) (b : AutoSave) : Prop where
  delay_eq : b.timer.delay = delay
  deadline : ∀ d, b.timer.deadline = some d ↔ ∃ time, Pending history time ∧ time + delay = d
  asleep : b.mode = .suspended → b.timer.deadline = none
  counted : history.countP Moment.goesOff + b.timer.deadline.isSome.toNat ≤
    history.countP (·.armed?.isSome)
  queued : b.queue.deltas = unflushed history

theorem AutoSave.install_timer (document : Document) (preference : Option Bool) (delay : Nat)
    (enc : Text.Encoding) (owner : Option String) (now : Nat) :
    (install document preference delay enc owner now).timer = .new delay := by
  unfold install settingsChanged
  dsimp only
  split
  · rfl
  · rfl
  · rfl

theorem watched_install (document : Document) (preference : Option Bool) (delay : Nat)
    (enc : Text.Encoding) (owner : Option String) (now : Nat) :
    Watched delay [] (AutoSave.install document preference delay enc owner now) := by
  have htimer := AutoSave.install_timer document preference delay enc owner now
  obtain ⟨mode, timer, hinstall⟩ := AutoSave.install_eq document preference delay enc owner now
  have hnone : (AutoSave.install document preference delay enc owner now).timer.deadline = none :=
    congrArg Timer.deadline htimer
  refine ⟨congrArg Timer.delay htimer, fun d => ⟨fun hd => ?_, ?_⟩, fun _ => hnone, ?_, ?_⟩
  · cases hnone.symm.trans hd
  · rintro ⟨time, ⟨before, m, after, hsplit, -⟩, -⟩
    exact absurd hsplit (by simp)
  · rw [hnone]
    exact Nat.le_refl 0
  · rw [hinstall]
    rfl

theorem Watched.react {history : List Moment} (h : Watched delay history b) (s : Stimulus) :
    Watched delay (history ++ [⟨b, s⟩]) (b.react s).1 := by
  have htimer := b.react_timer s
  have hpending (time : Nat) : Pending (history ++ [⟨b, s⟩]) time ↔ b.arms? s = some time ∨
      Pending history time ∧ b.arms? s = none ∧ b.cancels s = false ∧ b.goesOff s = false :=
    Moment.pending_concat_iff
  have hqueued : (b.react s).1.queue.deltas = unflushed (history ++ [⟨b, s⟩]) := by
    rw [Moment.unflushed_concat]
    change _ = if b.flushes s = true then [] else unflushed history ++ b.accepts s
    cases hflush : b.flushes s with
    | true =>
      rw [(AutoSave.react_empties s hflush).emptied]
      rfl
    | false =>
      rw [(AutoSave.react_queues s hflush).1, h.queued]
      rfl
  have hcount := h.counted
  refine ⟨?_, fun d => ?_, fun hmode => ?_, ?_, hqueued⟩
  · rw [htimer]
    split
    · exact h.delay_eq
    · split <;> exact h.delay_eq
  · simp only [hpending, htimer]
    cases harms : b.arms? s with
    | some now => simp [Timer.schedule, h.delay_eq]
    | none =>
      cases hcancels : b.cancels s <;> cases hoff : b.goesOff s <;>
        simp [Timer.cancel, h.deadline]
  · have harms : b.arms? s = none := by
      cases harms : b.arms? s with
      | some now => exact absurd hmode (AutoSave.awake_of_arms harms)
      | none => rfl
    rw [htimer, harms]
    dsimp only
    rcases AutoSave.suspended_of_react hmode with hmode | hcancels
    · split
      · rfl
      · exact h.asleep hmode
    · rw [hcancels]
      rfl
  · rw [List.countP_append, List.countP_append, List.countP_singleton, List.countP_singleton,
      htimer]
    change _ + (if b.goesOff s = true then 1 else 0) + _ ≤
      _ + if (b.arms? s).isSome = true then 1 else 0
    cases harms : b.arms? s with
    | some now =>
      rw [AutoSave.not_goesOff_of_arms harms]
      simp [Timer.schedule]
      omega
    | none =>
      cases hoff : b.goesOff s with
      | true =>
        rw [AutoSave.armed_of_goesOff hoff] at hcount
        simpa [Timer.cancel] using hcount
      | false =>
        cases hcancels : b.cancels s with
        | true =>
          simp [Timer.cancel]
          omega
        | false => simpa using hcount

theorem Watched.run {history : List Moment} (h : Watched delay history b) (stimuli : List Stimulus) :
    Watched delay (history ++ b.history stimuli) (b.run stimuli).1 := by
  induction stimuli generalizing b history with
  | nil =>
    rw [AutoSave.history, List.append_nil]
    exact h
  | cons s rest ih =>
    rw [AutoSave.history, List.append_cons]
    exact ih (h.react s)

theorem AutoSave.history_stimuli (a : AutoSave) (stimuli : List Stimulus) :
    (a.history stimuli).map Moment.stimulus = stimuli := by
  induction stimuli generalizing a with
  | nil => rfl
  | cons s rest ih => exact congrArg (s :: ·) (ih (a.react s).1)

theorem AutoSave.time?_of_arms (h : a.arms? s = some time) : s.time? = some time := by
  unfold arms? at h
  split at h
  · split at h
    · exact h
    · cases h
  · exact h
  · split at h
    · cases h
    · exact h
  · split at h
    · exact h
    · cases h
  · cases h

theorem le_of_pending {stimuli : List Stimulus}
    (hordered : (stimuli.filterMap Stimulus.time?).Pairwise (· ≤ ·))
    (h : Pending (a.history stimuli) time) {m : Moment} (hm : m ∈ a.history stimuli) {earlier : Nat}
    (harmed : m.armed? = some earlier) : earlier ≤ time := by
  obtain ⟨before, last, after, hsplit, hlast, hafter⟩ := h
  rw [← a.history_stimuli stimuli, List.pairwise_filterMap, List.pairwise_map, hsplit,
    List.pairwise_append] at hordered
  rw [hsplit, List.mem_append, List.mem_cons] at hm
  rcases hm with hm | rfl | hm
  · exact hordered.2.2 m hm last List.mem_cons_self earlier (AutoSave.time?_of_arms harmed) time
      (AutoSave.time?_of_arms hlast)
  · exact Nat.le_of_eq (Option.some.inj (harmed.symm.trans hlast))
  · cases (hafter m hm).1.symm.trans harmed

theorem AutoSave.tick_sends {t : Nat} {project : String} (hdue : b.timer.isDue t = true)
    (hawake : b.mode ≠ .suspended) (hproject : b.document.project = some project) :
    (b.tick t).1.1.queue = .empty ∧
      if b.mode = .resuming then (b.tick t).1.2 = [b.snapshot project]
      else (b.mode = .activated ∨ b.mode = .deactivated) ∧ (b.tick t).1.2 =
        (b.queue.deltas.zipIdx b.nextSeq).map fun x => b.envelope project x.1 x.2 := by
  have hsaves := AutoSave.saves_save { b with timer := b.timer.cancel }
  rw [AutoSave.tick_eq, if_pos hdue]
  generalize AutoSave.save _ = sent at hsaves ⊢
  obtain ⟨c, messages⟩ := sent
  cases hsaves with
  | ignored suspended => exact absurd suspended hawake
  | snapshot resuming owned =>
    cases hproject.symm.trans owned
    exact ⟨rfl, (if_pos resuming).mpr rfl⟩
  | dropped _ stray => cases hproject.symm.trans stray
  | streamed streaming owned =>
    cases hproject.symm.trans owned
    have hmode : b.mode ≠ .resuming := by
      rintro hmode
      rcases streaming with hstreaming | hstreaming <;> cases hmode.symm.trans hstreaming
    rw [if_neg hmode]
    exact ⟨rfl, streaming, rfl⟩

/-- However an editor has been used at times that do not decrease, a tick flushes exactly if the
timer was set a delay ago or longer, and since then nothing has set or cancelled it and it has not
gone off. So every time that it is set it goes off once at most. A suspended editor has no timer set.
What a tick sends are all deltas that have been queued since the last flush, in their order, or one
snapshot after a resume, and nothing is sent between flushes. -/
theorem debounced_of_run (document : Document) (preference : Option Bool) (delay : Nat)
    (enc : Text.Encoding) (owner : Option String) (now : Nat) (stimuli : List Stimulus)
    (hordered : (stimuli.filterMap Stimulus.time?).Pairwise (· ≤ ·)) (t : Nat) :
    let a := AutoSave.install document preference delay enc owner now
    let b := (a.run stimuli).1
    let history := a.history stimuli
    ((b.tick t).2 = true ↔ ∃ time, Pending history time ∧ time + delay ≤ t) ∧
      ((b.tick t).2 = true →
        ∀ m ∈ history, ∀ time, m.armed? = some time → time + delay ≤ t) ∧
      (history ++ [Moment.mk b (.tick t)]).countP Moment.goesOff ≤ history.countP (·.armed?.isSome) ∧
      (b.mode = .suspended → b.timer.deadline = none) ∧
      ((b.tick t).2 = true → ∀ project, b.document.project = some project →
        (b.tick t).1.1.queue = .empty ∧
          if b.mode = .resuming then (b.tick t).1.2 = [b.snapshot project]
          else (b.mode = .activated ∨ b.mode = .deactivated) ∧ (b.tick t).1.2 =
            ((unflushed history).zipIdx b.nextSeq).map fun x => b.envelope project x.1 x.2) ∧
      ∀ s, b.flushes s = false → (b.react s).2 = [] := by
  intro a b history
  have hwatched : Watched delay history b :=
    (watched_install document preference delay enc owner now).run stimuli
  have hdue : (b.tick t).2 = true ↔ ∃ time, Pending history time ∧ time + delay ≤ t := by
    rw [AutoSave.tick_due, Timer.isDue, Option.any_eq_true]
    simp only [hwatched.deadline, decide_eq_true_eq]
    constructor
    · rintro ⟨d, ⟨time, hpending, rfl⟩, hle⟩
      exact ⟨time, hpending, hle⟩
    · rintro ⟨time, hpending, hle⟩
      exact ⟨_, ⟨time, hpending, rfl⟩, hle⟩
  refine ⟨hdue, fun hflush m hm earlier harmed => ?_, ?_, hwatched.asleep,
    fun hflush project hproject => ?_, fun s hs => (AutoSave.react_idle s hs).2⟩
  · obtain ⟨time, hpending, hle⟩ := hdue.mp hflush
    have hbefore := le_of_pending hordered hpending hm harmed
    omega
  · have hcounted := (hwatched.react (.tick t)).counted
    have hsame : (history ++ [Moment.mk b (.tick t)]).countP (·.armed?.isSome) =
        history.countP (·.armed?.isSome) := by
      rw [List.countP_append]
      rfl
    omega
  · rw [AutoSave.tick_due] at hflush
    rw [← hwatched.queued]
    refine AutoSave.tick_sends hflush (fun hmode => ?_) hproject
    rw [Timer.isDue, hwatched.asleep hmode] at hflush
    cases hflush

def threeEdits : List Stimulus :=
  [.event (.changed (.insertion "/p/a" 5 " ")) 0, .event (.changed (.insertion "/p/a" 6 "w")) 40,
    .event (.changed (.replacement "/p/a" 6 1 "W")) 80, .tick 150]

theorem debounced_of_run_three_edits :
    let a := AutoSave.install ⟨"/p/a", "hello", false, some "/p", false, 0⟩ none 100 .utf16 none 0
    let b := (a.run threeEdits).1
    (threeEdits.filterMap Stimulus.time?).Pairwise (· ≤ ·) ∧ (a.run threeEdits).2 = [] ∧
      (b.tick 180).2 = true ∧ (b.tick 180).1.2.map (·.delta?) =
        [some (.insert 5 " "), some (.insert 6 "w"), some (.remove 6 1), some (.insert 6 "W")] := by
  intro a b
  have hordered : (threeEdits.filterMap Stimulus.time?).Pairwise (· ≤ ·) := by decide
  obtain ⟨hdue, -, -, -, hsends, -⟩ :=
    debounced_of_run ⟨"/p/a", "hello", false, some "/p", false, 0⟩ none 100 .utf16 none 0 threeEdits
      hordered 180
  have hflush : (b.tick 180).2 = true := by
    refine hdue.mpr ⟨80, ⟨(a.history threeEdits).take 2, ⟨(a.run (threeEdits.take 2)).1,
      .event (.changed (.replacement "/p/a" 6 1 "W")) 80⟩, (a.history threeEdits).drop 3, ?_⟩, ?_⟩
    · decide
    · decide
  refine ⟨hordered, by decide, hflush, ?_⟩
  have hsent := (hsends hflush "/p" (by decide)).2
  rw [if_neg (by decide)] at hsent
  rw [hsent.2, AutoSave.deltas_envelopes]
  decide

end EditorSync.Editor

import EditorSync.Proofs.LanguageServer.Actions
import EditorSync.Proofs.LanguageServer.Documents

namespace EditorSync.LanguageServer

open Procedure
open Function (update)
open Reconcile (Failure Request)
open Relation (ReflTransGen)
open State (Grows)

variable {β σ : Type} {site : Site} {file : String}

structure Site.Asks (site : Site) (file : String) (r : Request) : Prop where
  same : r.file = file
  mem : file ∈ site.files
  real : r.real = site.real file

/-- Passes are asked for with the place that a file has in its workspace. -/
theorem asks_of_realPath {w : Workspace} {disk : Disk} {project real content : String}
    (hfile : Path.normalize? file = some file) (h : w.realPath disk file = .ok real) :
    (Site.ofRoot w.root).Asks file ⟨project, file, real, content⟩ := by
  refine ⟨rfl, hfile, ?_⟩
  rw [Workspace.realPath, Workspace.normalize_eq_ok_iff.2 hfile] at h
  dsimp only [bind, Except.bind] at h
  split at h
  · split at h
    · cases h
      rfl
    · cases h
  · cases h
    rfl

structure Site.Attends (site : Site) (file : String) (d : Held) : Prop where
  asks : site.Asks file d.request
  language : languageOf? (site.real file) = some d.language
  named : d.fresh = true → ∃ uri, uriOf (site.real file) = .ok uri

namespace Task

def duty : Task → Duty
  | started d | introduced d _ | acquainted d | confirmed d => .start d.language d.process
  | held d => .hold d.language d.process d.fresh
  | addressed d => .hold d.language d.process d.fresh
  | noted d => .inform ⟨d.language, d.uri, d.version⟩ d.process d.isOpen
  | removed d => .close d
  | found d p | forgotten d p => .leave d p
  | _ => .nothing

def Fits (site : Site) (file : String) : Task → Prop
  | entering r => site.Asks file r
  | started d | introduced d _ | acquainted d | confirmed d => site.Attends file d.held
  | held d => site.Attends file d
  | addressed d => site.Attends file d.toHeld ∧ uriOf (site.real file) = .ok d.uri
  | releasing f => f = file
  | _ => True

theorem locks_of_starts {task : Task} (h : task.duty.Starts) : task.Locks := by
  cases task <;> first | exact h.elim | trivial

end Task

namespace Pool

def duty (pool : Pool σ) (file : String) : Duty := (pool.tasks file).elim .nothing Task.duty

/-- The condition that a call takes a step on. From the start of a server to the time when the pass
that has started it notes its document, no other pass may note one for that server, and no call may
remove a document of that language or be about to close one that it has removed before. The pass
has to get there, and a server may not be replaced between the time when a pass gets it and the time
when the pass notes its document. -/
def Timely (u : Setup σ) (pool : Pool σ) (file : String) : Task → Prop
  | .entering r => ∀ l rest, u.server? r = some (l, rest) → pool.state.active? l = none →
    (∃ uri, uriOf r.real = .ok uri) ∧ ∀ other d, pool.duty other = .close d → d.language ≠ l
  | .addressed d =>
    (∀ other, other ≠ file → ¬(pool.duty other).Unsettles d.language d.process) ∧
      ∀ p, pool.state.active? d.language = some p → p = d.process
  | .releasing f => ∀ d, pool.state.documents.get? f = some d →
    ∀ other p, ¬(pool.duty other).Unsettles d.language p
  | _ => True

structure Agrees (site : Site) (pool : Pool (Recorded σ)) : Prop where
  sound : Sound site pool.state pool.duty
  fits : ∀ file task, pool.tasks file = some task → task.Fits site file

theorem duty_update (s : State σ) (tasks : String → Option Task) (file : String)
    (task : Option Task) :
    duty ⟨s, update tasks file task⟩ =
      update (duty ⟨s, tasks⟩) file (task.elim .nothing Task.duty) := by
  funext other
  by_cases hother : other = file
  · subst hother
    simp only [duty, Function.update_self]
  · simp only [duty, Function.update_of_ne hother]

variable {u : Setup σ} {pool : Pool (Recorded σ)} {task : Task}

namespace Agrees

theorem put {s : State (Recorded σ)} {next : Option Task} (h : pool.Agrees site)
    (hs : Sound site s (update pool.duty file (next.elim .nothing Task.duty)))
    (hfits : ∀ task, next = some task → task.Fits site file) :
    Agrees site ⟨s, update pool.tasks file next⟩ := by
  refine ⟨?_, ?_⟩
  · rw [duty_update]
    exact hs
  · intro other task htask
    by_cases hother : other = file
    · subst hother
      dsimp only at htask
      rw [Function.update_self] at htask
      exact hfits task htask
    · dsimp only at htask
      rw [Function.update_of_ne hother] at htask
      exact h.fits other task htask

section Step

variable {x : Action (Recorded σ) β} {next : β → Option Task} {s : State (Recorded σ)}

theorem advance_error (h : pool.Agrees site) (hstep : u.recorded.step task = next <$> x)
    {e : Failure} (hrun : x.run pool.state = (.error e, s))
    (hs : Sound site s (update pool.duty file .nothing)) :
    (pool.carryOn file ((u.recorded.step task).run pool.state)).Agrees site := by
  rw [hstep, run_map, hrun]
  refine h.put (hs.grow (State.grows_bury s)) fun task htask => ?_
  cases htask

theorem advance_ok (h : pool.Agrees site) (hstep : u.recorded.step task = next <$> x)
    {b : β} (hrun : x.run pool.state = (.ok b, s))
    (hs : Sound site s (update pool.duty file ((next b).elim .nothing Task.duty)))
    (hfits : ∀ task, next b = some task → task.Fits site file) :
    (pool.carryOn file ((u.recorded.step task).run pool.state)).Agrees site := by
  rw [hstep, run_map, hrun]
  dsimp only
  cases hnext : next b with
  | none =>
    rw [hnext] at hs
    refine h.put (hs.grow (State.grows_bury s)) fun task htask => ?_
    cases htask
  | some task =>
    rw [hnext] at hs
    refine h.put hs fun task' htask => ?_
    cases htask
    exact hfits task hnext

theorem advance_on (h : pool.Agrees site) (hstep : u.recorded.step task = next <$> x) {b : β}
    (hrun : x.run pool.state = (.ok b, s)) (hs : Sound site s pool.duty)
    (hduty : (next b).elim .nothing Task.duty = pool.duty file)
    (hfits : ∀ task, next b = some task → task.Fits site file) :
    (pool.carryOn file ((u.recorded.step task).run pool.state)).Agrees site := by
  refine h.advance_ok hstep hrun ?_ hfits
  rwa [hduty, Function.update_eq_self]

theorem advance_quietly (h : pool.Agrees site) (hstep : u.recorded.step task = next <$> x)
    (hx : Respects Grows x)
    (herror : ∀ s : State (Recorded σ), Sound site s pool.duty →
      Sound site s (update pool.duty file .nothing))
    (hduty : ∀ b, (next b).elim .nothing Task.duty = pool.duty file)
    (hfits : ∀ b task, next b = some task → task.Fits site file) :
    (pool.carryOn file ((u.recorded.step task).run pool.state)).Agrees site := by
  have hgrows := hx pool.state
  rcases hrun : x.run pool.state with ⟨result, s⟩
  rw [hrun] at hgrows
  have hs : Sound site s pool.duty := h.sound.grow hgrows
  cases result with
  | error e => exact h.advance_error hstep hrun (herror s hs)
  | ok b => exact h.advance_on hstep hrun hs (hduty b) (hfits b)

theorem duty_eq (htask : pool.tasks file = some task) : pool.duty file = task.duty := by
  rw [duty, htask]
  rfl

theorem upheld (h : pool.Agrees site) (htask : pool.tasks file = some task) :
    pool.state.Upholds site file task.duty :=
  duty_eq htask ▸ h.sound.upheld file

theorem advance_idle (h : pool.Agrees site) (hduty : pool.duty file = .nothing)
    (hstep : u.recorded.step task = next <$> x) (hx : Respects Grows x)
    (hnext : ∀ b, (next b).elim .nothing Task.duty = .nothing)
    (hfits : ∀ b task, next b = some task → task.Fits site file) :
    (pool.carryOn file ((u.recorded.step task).run pool.state)).Agrees site := by
  refine h.advance_quietly hstep hx (fun s hs => ?_) (fun b => (hnext b).trans hduty.symm) hfits
  rwa [← hduty, Function.update_eq_self]

theorem advance_starting {l : String} {p : Nat} (h : pool.Agrees site)
    (hduty : pool.duty file = .start l p) (hstep : u.recorded.step task = next <$> x)
    (hx : Respects Grows x) (hnext : ∀ b, (next b).elim .nothing Task.duty = .start l p)
    (hfits : ∀ b task, next b = some task → task.Fits site file) :
    (pool.carryOn file ((u.recorded.step task).run pool.state)).Agrees site := by
  refine h.advance_quietly hstep hx (fun s hs => ?_) (fun b => (hnext b).trans hduty.symm) hfits
  have hup := hs.upheld file
  rw [hduty] at hup
  refine hs.finish ?_ ?_
  · intro l' p' uri _ _
    rw [hduty]
    rfl
  · intro l' p' hactive hfresh
    rw [hduty] at hfresh
    obtain ⟨rfl, rfl⟩ := hfresh
    rw [State.active?_eq_some_iff, hup.2] at hactive
    cases hactive.1

end Step

theorem advance_confirmed {d : Started} (h : pool.Agrees site)
    (htask : pool.tasks file = some (.confirmed d)) :
    (pool.carryOn file ((u.recorded.step (.confirmed d)).run pool.state)).Agrees site := by
  have hfits : site.Attends file d.held := h.fits file _ htask
  obtain ⟨s', hrun, hgrows⟩ := Setup.run_engage pool.state d
  refine h.advance_ok rfl hrun ((h.sound.serve (duty_eq htask)).grow hgrows) ?_
  rintro _ ⟨⟩
  exact hfits

theorem advance_held {d : Held} (h : pool.Agrees site)
    (htask : pool.tasks file = some (.held d)) :
    (pool.carryOn file ((u.recorded.step (.held d)).run pool.state)).Agrees site := by
  have hduty := duty_eq htask
  have hfits : site.Attends file d := h.fits file _ htask
  obtain ⟨e, huri, hrun⟩ | ⟨uri, after, huri, hrun⟩ := u.run_address pool.state d
  · have hfresh : d.fresh = false := by
      rw [Bool.eq_false_iff]
      intro hfresh
      obtain ⟨uri, hnamed⟩ := hfits.named hfresh
      rw [hfits.asks.real, hnamed] at huri
      cases huri
    refine h.advance_error rfl hrun ?_
    refine h.sound.finish ?_ ?_
    · intro l p uri _ _
      rw [hduty]
      rfl
    · intro l p _ hunsettled
      rw [hduty] at hunsettled
      exact Bool.noConfusion (hfresh.symm.trans hunsettled.2.2)
  · refine h.advance_on rfl hrun h.sound hduty.symm ?_
    rintro _ ⟨⟩
    exact ⟨hfits, hfits.asks.real ▸ huri⟩

theorem advance_addressed {d : Addressed} (h : pool.Agrees site)
    (htask : pool.tasks file = some (.addressed d))
    (htimely : pool.Timely u.recorded file (.addressed d)) :
    (pool.carryOn file ((u.recorded.step (.addressed d)).run pool.state)).Agrees site := by
  obtain ⟨hattends, huri⟩ : site.Attends file d.toHeld ∧ uriOf (site.real file) = .ok d.uri :=
    h.fits file _ htask
  obtain rfl : d.request.file = file := hattends.asks.same
  have hnames : site.Names d.request.file d.language d.uri :=
    ⟨hattends.asks.mem, hattends.language, huri⟩
  let known := (pool.state.opened d.language d.fresh).get? d.request.file
  let document : Document :=
    known.elim ⟨d.language, d.uri, 1⟩ fun d => { d with version := d.version + 1 }
  have hdocument : document = ⟨d.language, d.uri, known.elim 1 (·.version + 1)⟩ := by
    change known.elim _ _ = _
    cases hknown : known with
    | none => rfl
    | some d' =>
      obtain ⟨hlanguage, huri⟩ := (h.sound.documents _ d' (Sound.of_opened hknown)).unique hnames
      simp [hlanguage, huri]
  have hnote := h.sound.note (duty_eq htask) hnames htimely.1 htimely.2 hdocument
  have hsame : Duty.inform document d.process known.isSome =
      .inform ⟨d.language, d.uri, document.version⟩ d.process known.isSome := by
    rw [hdocument]
  refine h.advance_ok rfl rfl ?_ fun _ htask' => ?_
  · rw [hsame] at hnote
    exact hnote
  · cases htask'
    trivial

theorem advance_noted {d : Noted} (h : pool.Agrees site)
    (htask : pool.tasks file = some (.noted d)) :
    (pool.carryOn file ((u.recorded.step (.noted d)).run pool.state)).Agrees site := by
  have hduty := duty_eq htask
  obtain ⟨hnames, hborn, huses, hnoted, hone⟩ := h.upheld htask
  obtain ⟨hdead, hrun⟩ | ⟨halive, message, s', hevent, hrun, hgrows⟩ := u.run_inform pool.state d
  · refine h.advance_error rfl hrun ?_
    refine h.sound.finish_dead ?_ ?_ hdead
    · intro l
      rw [hduty]
      rfl
    · intro p hp
      rw [hduty]
      exact if_neg hp
  · have hactive := (State.active?_eq_some_iff _ _ _).2 ⟨huses halive, halive⟩
    have htold : Sound site (pool.state.tell d.process message) (update pool.duty file .nothing) := by
      refine h.sound.tell (d := ⟨d.language, d.uri, d.version⟩) ?_ hnames hborn hactive hevent ?_
      · intro l
        rw [hduty]
        rfl
      · rw [hduty, hnoted halive]
        change DocumentEvent.next? (Duty.standing _ _ (.inform _ _ _)) _ = _
        rw [Duty.standing_inform]
        cases hopen : d.isOpen with
        | false =>
          have hversion : d.version = 1 := hone hopen
          simp [DocumentEvent.next?, hversion]
        | true => simp [DocumentEvent.next?]
    refine h.advance_ok rfl hrun (htold.grow hgrows) ?_
    rintro _ ⟨⟩
    trivial

theorem advance_releasing {f : String} (h : pool.Agrees site)
    (htask : pool.tasks file = some (.releasing f))
    (htimely : pool.Timely u.recorded file (.releasing f)) :
    (pool.carryOn file ((u.recorded.step (.releasing f)).run pool.state)).Agrees site := by
  have hduty := duty_eq htask
  obtain rfl : f = file := h.fits file _ htask
  refine h.advance_ok rfl rfl ?_ ?_
  · cases hd : pool.state.documents.get? f with
    | some d => exact h.sound.remove hduty hd fun other p _ => htimely d hd other p
    | none =>
      have hgrows : pool.state.Grows
          { pool.state with documents := pool.state.documents.erase f } := by
        refine ⟨fun other => ?_, fun _ => rfl, fun _ _ => rfl, Nat.le_refl _, fun _ _ => .refl _⟩
        dsimp only
        rw [Table.get?_erase]
        split
        · rename_i hother
          rw [hother, hd]
        · rfl
      have hsame : update pool.duty f .nothing = pool.duty := by
        change update pool.duty f (Task.releasing f).duty = pool.duty
        rw [← hduty, Function.update_eq_self]
      exact hsame.symm ▸ h.sound.grow hgrows
  · intro task hnext
    obtain ⟨d, -, rfl⟩ := Option.map_eq_some_iff.1 hnext
    trivial

theorem advance_removed {d : Document} (h : pool.Agrees site)
    (htask : pool.tasks file = some (.removed d)) :
    (pool.carryOn file ((u.recorded.step (.removed d)).run pool.state)).Agrees site := by
  have hduty := duty_eq htask
  obtain ⟨hnames, hnone⟩ := h.upheld htask
  refine h.advance_ok rfl rfl ?_ ?_
  · cases hactive : pool.state.active? d.language with
    | none =>
      refine h.sound.finish ?_ ?_
      · intro l p uri hl hfile
        rw [(hfile.unique hnames).1, hactive] at hl
        cases hl
      · intro l p _ hunsettled
        rw [hduty] at hunsettled
        exact hunsettled
    | some p =>
      have hserving := ((State.active?_eq_some_iff _ _ _).1 hactive).1
      have hborn := h.sound.serving _ _ hserving
      have hsuits : Duty.Suits pool.duty file (.leave d p) := by
        refine ⟨False.elim, fun _ _ => False.elim, fun l q hq other hne hfresh => ?_⟩
        cases hq
        have hl : d.language = l :=
          hborn.language.symm.trans ((h.sound.upheld other).born hfresh).language
        refine h.sound.unbound l p other file hne hfresh ?_
        rw [hduty]
        exact hl
      refine h.sound.turn hsuits ⟨hnames, hborn, fun _ => hserving, hnone⟩
        (fun _ _ _ => False.elim) ?_ ?_
      · intro l q uri hl hfile
        rw [(hfile.unique hnames).1, hactive] at hl
        cases hl
        rw [hduty]
        exact if_pos rfl
      · intro l q _ hunsettled
        rw [hduty] at hunsettled
        exact hunsettled
  · intro task hnext
    obtain ⟨p, -, rfl⟩ := Option.map_eq_some_iff.1 hnext
    trivial

theorem advance_found {d : Document} {p : Nat} (h : pool.Agrees site)
    (htask : pool.tasks file = some (.found d p)) :
    (pool.carryOn file ((u.recorded.step (.found d p)).run pool.state)).Agrees site := by
  have hduty := duty_eq htask
  have hgrows := Setup.respects_forget p d.uri pool.state
  refine h.advance_on rfl rfl (h.sound.grow hgrows) hduty.symm ?_
  rintro _ ⟨⟩
  trivial

theorem advance_forgotten {d : Document} {p : Nat} (h : pool.Agrees site)
    (htask : pool.tasks file = some (.forgotten d p)) :
    (pool.carryOn file ((u.recorded.step (.forgotten d p)).run pool.state)).Agrees site := by
  have hduty := duty_eq htask
  obtain ⟨hnames, hborn, huses, hnone⟩ := h.upheld htask
  obtain ⟨hdead, hrun⟩ | ⟨halive, message, s', hevent, hrun, hgrows⟩ :=
    u.run_farewell pool.state p d.uri
  · refine h.advance_error rfl hrun ?_
    refine h.sound.finish_dead ?_ ?_ hdead
    · intro l
      rw [hduty]
      rfl
    · intro q hq
      rw [hduty]
      exact if_neg hq
  · have hactive := (State.active?_eq_some_iff _ _ _).2 ⟨huses halive, halive⟩
    have htold : Sound site (pool.state.tell p message) (update pool.duty file .nothing) := by
      refine h.sound.tell ?_ hnames hborn hactive hevent ?_
      · intro l
        rw [hduty]
        rfl
      · rw [hduty, hnone]
        change DocumentEvent.next? (if p = p then _ else _) _ = _
        rw [if_pos rfl]
        rfl
    exact h.advance_ok rfl hrun (htold.grow hgrows) fun _ hnext => nomatch hnext

theorem advance_entering {r : Request} (h : pool.Agrees site)
    (htask : pool.tasks file = some (.entering r)) (hopen : pool.Open file)
    (htimely : pool.Timely u.recorded file (.entering r)) :
    (pool.carryOn file ((u.recorded.step (.entering r)).run pool.state)).Agrees site := by
  have hduty := duty_eq htask
  have hasks : site.Asks file r := h.fits file _ htask
  have hlanguage : ∀ l rest, u.server? r = some (l, rest) →
      languageOf? (site.real file) = some l := by
    intro l rest hserver
    rw [← hasks.real]
    exact Setup.language_of_server? hserver
  obtain hrun | ⟨l, rest, p, hserver, hactive, hrun⟩ | ⟨l, rest, hserver, hinactive, hstarts⟩ :=
    u.run_enter pool.state r
  · exact h.advance_on rfl hrun h.sound hduty.symm fun _ hnext => nomatch hnext
  · have hserving := ((State.active?_eq_some_iff _ _ _).1 hactive).1
    have hborn := h.sound.serving l p hserving
    refine h.advance_ok rfl hrun ?_ ?_
    · refine h.sound.turn ⟨False.elim, ?_, fun _ _ => False.elim⟩ ⟨hborn, fun _ => hserving⟩ ?_ ?_ ?_
      · exact fun _ _ hfresh => Bool.noConfusion hfresh.2.2
      · exact fun _ _ _ hfresh => Bool.noConfusion hfresh.2.2
      · intro l' p' uri _ _
        rw [hduty]
        rfl
      · intro l' p' _
        rw [hduty]
        exact id
    · rintro _ ⟨⟩
      exact ⟨hasks, hlanguage l rest hserver, fun hfresh => Bool.noConfusion hfresh⟩
  · obtain ⟨hnamed, hclose⟩ := htimely l rest hserver hinactive
    have hunserved := h.sound.unserve hinactive
    obtain ⟨e, s', hrun, hgrows⟩ | ⟨s', hrun, hgrows, hborn⟩ := hstarts
    · refine h.advance_error rfl hrun ?_
      have hsame : update pool.duty file .nothing = pool.duty := by
        change update pool.duty file (Task.entering r).duty = pool.duty
        rw [← hduty, Function.update_eq_self]
      exact hsame.symm ▸ hunserved.grow hgrows
    · refine h.advance_ok rfl hrun (h.sound.start hduty hinactive hgrows hborn ?_ hclose) ?_
      · intro other hne hstarts
        cases htask' : pool.tasks other with
        | none =>
          rw [duty, htask'] at hstarts
          exact hstarts
        | some task' =>
          rw [duty_eq htask'] at hstarts
          exact hopen other task' hne htask' (Task.locks_of_starts hstarts)
      · rintro _ ⟨⟩
        exact ⟨hasks, hlanguage l rest hserver, fun _ => hasks.real ▸ hnamed⟩

theorem idle (hidle : pool.tasks file = none) : pool.duty file = .nothing := by
  rw [duty, hidle]
  rfl

theorem begin (h : pool.Agrees site) (hidle : pool.tasks file = none) (hduty : task.duty = .nothing)
    (hfits : task.Fits site file) : (pool.start file task).Agrees site := by
  refine h.put ?_ ?_
  · change Sound site pool.state.between (update pool.duty file task.duty)
    rw [hduty, ← idle hidle, Function.update_eq_self]
    exact h.sound.grow (State.grows_between pool.state)
  · rintro _ ⟨⟩
    exact hfits

end Agrees

def Orderly (site : Site) (u : Setup σ) (pool : Pool σ) : Move → Prop
  | .reconcile r => site.Asks r.file r
  | .advance file => ∀ task, pool.tasks file = some task → pool.Timely u file task
  | _ => True

namespace Agrees

theorem advance (h : pool.Agrees site) (htask : pool.tasks file = some task)
    (hopen : task.Needs → pool.Open file) (htimely : pool.Timely u.recorded file task) :
    (pool.carryOn file ((u.recorded.step task).run pool.state)).Agrees site := by
  have hduty := duty_eq htask
  have hfits := h.fits file task htask
  cases task with
  | entering r => exact h.advance_entering htask (hopen trivial) htimely
  | started d =>
    refine h.advance_starting hduty rfl (u.respects_introduce d) (fun _ => rfl) ?_
    rintro _ _ ⟨⟩
    exact hfits
  | introduced d id =>
    refine h.advance_starting hduty rfl (Setup.respects_acquaint d id) (fun _ => rfl) ?_
    rintro _ _ ⟨⟩
    exact hfits
  | acquainted d =>
    refine h.advance_starting hduty rfl (u.respects_confirm d) (fun _ => rfl) ?_
    rintro _ _ ⟨⟩
    exact hfits
  | confirmed d => exact h.advance_confirmed htask
  | held d => exact h.advance_held htask
  | addressed d => exact h.advance_addressed htask htimely
  | noted d => exact h.advance_noted htask
  | informed d =>
    refine h.advance_idle hduty rfl (Setup.respects_judge d) (fun _ => rfl) ?_
    rintro _ _ ⟨⟩
    trivial
  | judged d =>
    refine h.advance_idle hduty rfl (u.respects_inquire d) (fun _ => rfl) ?_
    rintro _ _ ⟨⟩
    trivial
  | inquired d id =>
    exact h.advance_idle hduty rfl (u.respects_conclude d id) (fun _ => rfl) fun _ _ => nofun
  | releasing f => exact h.advance_releasing htask htimely
  | removed d => exact h.advance_removed htask
  | found d p => exact h.advance_found htask
  | forgotten d p => exact h.advance_forgotten htask

theorem move {pool' : Pool (Recorded σ)} (h : pool.Agrees site)
    (hmove : MovesIf u.recorded (Orderly site u.recorded) pool pool') : pool'.Agrees site := by
  obtain ⟨move, horderly, hmove⟩ := hmove
  cases hmove with
  | reconcile r hidle => exact h.begin hidle rfl horderly
  | release file hidle => exact h.begin hidle rfl rfl
  | advance file task htask hopen => exact h.advance htask hopen (horderly task htask)
  | react process reaction =>
    exact ⟨h.sound.grow (u.grows_hear process reaction pool.state), h.fits⟩

end Agrees
end Pool

def Reached (u : Setup σ) (site : Site) (pool : Pool (Recorded σ)) : Prop :=
  ∃ host : σ, ReflTransGen (MovesIf u.recorded (Pool.Orderly site u.recorded))
    ⟨.new ⟨host, [], []⟩, fun _ => none⟩ pool

variable {u : Setup σ} {pool : Pool (Recorded σ)}

theorem agrees_of_reached (h : Reached u site pool) : pool.Agrees site := by
  obtain ⟨host, hmoves⟩ := h
  induction hmoves with
  | refl => exact ⟨Sound.initial site host, fun _ _ => nofun⟩
  | tail _ hmove ih => exact ih.move hmove

/-- Every server hears of every document in order, however the calls take turns, whatever the
servers do, and wherever a pass fails. -/
theorem orderly_of_reached (h : Reached u site pool) (process : Nat) (uri : String) :
    (standing? pool.state.host.told process uri).isSome :=
  (agrees_of_reached h).sound.orderly process uri

section Calls

theorem permitsAll_orderly (site : Site) (u : Setup σ) : PermitsAll (Pool.Orderly site u) := by
  have hlone : ∀ (pool : Pool σ) (file other : String), pool.Lone file → other ≠ file →
      pool.duty other = .nothing := by
    intro pool file other hlone hother
    rw [Pool.duty, hlone other hother]
    rfl
  refine ⟨fun d pool file hfile htask hserving task' htask' => ?_,
    fun task hgoes pool file hfile htask _ task' htask' => ?_⟩
  · rw [htask] at htask'
    cases htask'
    refine ⟨fun other hother => ?_, fun p hp => ?_⟩
    · rw [hlone pool file other hfile hother]
      exact id
    · rw [State.active?_eq_some_iff, hserving] at hp
      exact (Option.some.inj hp.1).symm
  · rw [htask] at htask'
    cases htask'
    cases task with
    | entering r => exact hgoes.elim
    | addressed d => exact hgoes.elim
    | releasing f =>
      intro d _ other p
      by_cases hother : other = file
      · rw [hother, Pool.duty, htask]
        exact id
      · rw [hlone pool file other hfile hother]
        exact id
    | _ => trivial

variable {s : State (Recorded σ)}

theorem Reached.reconcile (h : Reached u site ⟨s, fun _ => none⟩) {r : Request}
    (hasks : site.Asks r.file r)
    (hnamed : ∀ l rest, u.server? r = some (l, rest) → s.active? l = none →
      ∃ uri, uriOf r.real = .ok uri) :
    Reached u site ⟨(u.recorded.engine.reconcile s r).2, fun _ => none⟩ := by
  obtain ⟨host, hmoves⟩ := h
  have hpermits : Permits (Pool.Orderly site u.recorded) (fun s => ∀ l rest,
      u.server? r = some (l, rest) → s.active? l = none → ∃ uri, uriOf r.real = .ok uri)
      (.entering r) := by
    intro pool file hlone htask hnamed task htask'
    rw [htask] at htask'
    cases htask'
    refine fun l rest hserver hinactive => ⟨hnamed l rest hserver hinactive, ?_⟩
    intro other d hother
    by_cases hfile : other = file
    · rw [hfile, Pool.duty, htask] at hother
      cases hother
    · rw [Pool.duty, hlone other hfile] at hother
      cases hother
  have hall := permitsAll_orderly site u.recorded
  exact ⟨host, hmoves.trans (moves_of_reconcile hall hpermits hnamed hasks)⟩

theorem Reached.release (h : Reached u site ⟨s, fun _ => none⟩) (file : String) :
    Reached u site ⟨u.recorded.engine.release s file, fun _ => none⟩ := by
  obtain ⟨host, hmoves⟩ := h
  exact ⟨host, hmoves.trans (moves_of_release (permitsAll_orderly site u.recorded) trivial)⟩

end Calls

section Rust

def rustSetup : Setup Stage :=
  ⟨Stage.host, [("rust", "rust-analyzer", none)], "/w", 1, .utf16, fun _ => "UnexpectedChar"⟩

def shortLived : Stage := ⟨[("rust", [[("textDocument/didOpen", [[.exit]])]])], [], []⟩

def rustPass (s : State (Recorded Stage)) (file content : String) : State (Recorded Stage) :=
  (rustSetup.recorded.engine.reconcile s ⟨"/p", file, "/w" ++ file, content⟩).2

def rustStart : State (Recorded Stage) := .new ⟨shortLived, [], []⟩

theorem orderly_of_reached_restarted :
    let s := rustPass (rustPass (rustPass rustStart "/p/a.rs" "x") "/p/b.rs" "y") "/p/a.rs" "z"
    documentEvents s.host.told 1 "file:///w/p/a.rs" = [.opened 1] ∧
      (standing? s.host.told 1 "file:///w/p/a.rs").isSome := by
  have hstart : Reached rustSetup (.ofRoot "/w") ⟨rustStart, fun _ => none⟩ := ⟨shortLived, .refl⟩
  have hpass : ∀ s file content, (file = "/p/a.rs" ∨ file = "/p/b.rs") →
      Reached rustSetup (.ofRoot "/w") ⟨s, fun _ => none⟩ →
      Reached rustSetup (.ofRoot "/w") ⟨rustPass s file content, fun _ => none⟩ := by
    intro s file content hfile h
    have hnormal : Path.normalize? file = some file := by
      obtain rfl | rfl := hfile <;> decide +kernel
    have hreal : "/w" ++ file = Path.append "/w" (Workspace.relative file) := by
      obtain rfl | rfl := hfile <;> decide +kernel
    have huri : uriOf ("/w" ++ file) = .ok ("file:///w" ++ file) := by
      obtain rfl | rfl := hfile <;> rfl
    exact h.reconcile ⟨rfl, hnormal, hreal⟩ fun _ _ _ _ => ⟨_, huri⟩
  have hreached := hpass _ "/p/a.rs" "z" (.inl rfl)
    (hpass _ "/p/b.rs" "y" (.inr rfl) (hpass _ "/p/a.rs" "x" (.inl rfl) hstart))
  have horderly := orderly_of_reached hreached 1 "file:///w/p/a.rs"
  dsimp only at horderly ⊢
  exact ⟨by decide +kernel, horderly⟩

def rustRefused (file real : String) : State (Recorded Stage) :=
  (rustSetup.recorded.engine.reconcile (rustPass rustStart "/p/a.rs" "x") ⟨"/p", file, real, "y"⟩).2

theorem changed_unopened :
    let s := rustPass (rustRefused "/p/b.rs" "p/b.rs") "/p/a.rs" "z"
    let s' := rustPass (rustRefused "/p/[b].rs" "/w/p/[b].rs") "/p/a.rs" "z"
    documentEvents s.host.told 1 "file:///w/p/a.rs" = [.changed 2] ∧
      documentEvents s'.host.told 1 "file:///w/p/a.rs" = [.changed 2] ∧
      standing? s.host.told 1 "file:///w/p/a.rs" = none ∧
      standing? s'.host.told 1 "file:///w/p/a.rs" = none := by
  intro s s'
  have hevents : documentEvents s.host.told 1 "file:///w/p/a.rs" = [.changed 2] := by
    decide +kernel
  have hevents' : documentEvents s'.host.told 1 "file:///w/p/a.rs" = [.changed 2] := by
    decide +kernel
  exact ⟨hevents, hevents', by rw [standing?, hevents]; rfl, by rw [standing?, hevents']; rfl⟩

end Rust
end EditorSync.LanguageServer

import EditorSync.Proofs.LanguageServer.Growth

namespace EditorSync.LanguageServer.Setup

open Procedure
open Reconcile (Failure Request)
open State (Grows)

variable {σ : Type} (u : Setup σ) (s : State (Recorded σ))

theorem language_of_server? {u : Setup σ} {r : Request} {l : String}
    {rest : String × Option Json} (h : u.server? r = some (l, rest)) :
    languageOf? r.real = some l := by
  obtain ⟨l', hlanguage, hserver⟩ := Option.bind_eq_some_iff.1 h
  obtain ⟨rest', -, hrest⟩ := Option.map_eq_some_iff.1 hserver
  cases hrest
  exact hlanguage

theorem run_start (language program : String) :
    (∃ e s', (u.recorded.start language program).run s = (.error e, s') ∧
      (s.unserve language).Grows s') ∨
    (∃ s', (u.recorded.start language program).run s = (.ok s.host.processes.length, s') ∧
      (s.unserve language).Grows s' ∧ s'.Born language s.host.processes.length) := by
  rw [start, run_modify_bind, run_get_bind]
  cases hstart : u.host.start s.host.inner language with
  | none =>
    have hrecorded : u.recorded.host.start s.host language = none := by
      simp [recorded, Host.recorded, hstart]
    refine .inl ⟨[s!"Failed to spawn LSP server: {program}"], s.unserve language, ?_, refl _⟩
    simp only [hrecorded]
    rfl
  | some started =>
    obtain ⟨process, inner⟩ := started
    let host : Recorded σ :=
      { s.host with inner := inner, processes := s.host.processes ++ [process] }
    have hrecorded : u.recorded.host.start s.host language =
        some (s.host.processes.length, host) := by
      simp [recorded, Host.recorded, hstart, host]
    let begun := { s.unserve language with host := host }.announce language [.initializing]
    have hlength : begun.host.processes.length = s.host.processes.length + 1 := by
      simp [begun, host, State.announce]
    have hbegun : (s.unserve language).Grows begun := by
      refine State.grows_of_same rfl rfl rfl rfl ?_
      rw [hlength]
      exact Nat.le_succ _
    have hbury := State.grows_bury begun
    refine .inr ⟨begun.bury.keep s.host.processes.length (.new language s.host.processes.length),
      ?_, (IsTrans.trans _ _ _ hbegun hbury).keep (Nat.le_refl _), ?_, ?_⟩
    · simp only [hrecorded]
      rfl
    · exact Nat.lt_of_lt_of_le (hlength ▸ Nat.lt_succ_self _) hbury.processes
    · rw [State.client_keep, if_pos rfl]
      rfl

theorem run_enter (r : Request) :
    (u.recorded.enter r).run s = (.ok none, s) ∨
    (∃ l rest p, u.server? r = some (l, rest) ∧ s.active? l = some p ∧
      (u.recorded.enter r).run s = (.ok (some (.inl ⟨r, l, p, false⟩)), s)) ∨
    (∃ l rest, u.server? r = some (l, rest) ∧ s.active? l = none ∧
      ((∃ e s', (u.recorded.enter r).run s = (.error e, s') ∧ (s.unserve l).Grows s') ∨
        ∃ s', (u.recorded.enter r).run s =
            (.ok (some (.inr ⟨r, l, s.host.processes.length, rest.2⟩)), s') ∧
          (s.unserve l).Grows s' ∧ s'.Born l s.host.processes.length)) := by
  unfold enter
  cases hserver : u.server? r with
  | none =>
    have hrecorded : u.recorded.server? r = none := hserver
    exact .inl (by simp only [hrecorded]; rfl)
  | some server =>
    obtain ⟨l, program, options⟩ := server
    have hrecorded : u.recorded.server? r = some (l, program, options) := hserver
    simp only [hrecorded]
    rw [run_get_bind]
    cases hactive : s.active? l with
    | some p => exact .inr (.inl ⟨l, _, p, rfl, hactive, rfl⟩)
    | none =>
      refine .inr (.inr ⟨l, _, rfl, hactive, ?_⟩)
      simp only [run_bind]
      obtain ⟨e, s', hrun, hgrows⟩ | ⟨s', hrun, hgrows, hborn⟩ := run_start u s l program
      · exact .inl ⟨e, s', by rw [hrun], hgrows⟩
      · exact .inr ⟨s', by rw [hrun]; rfl, hgrows, hborn⟩

theorem run_engage (d : Started) :
    ∃ s', (engage d).run s = (.ok d.held, s') ∧ (s.serve d.language d.process).Grows s' := by
  let ready := (s.client d.process).moveTo .ready
  have hkept := State.grows_keep (s := s.serve d.language d.process)
    (Client.follows_moveTo (s.client d.process) .ready)
  exact ⟨_, rfl, IsTrans.trans _ _ _ hkept (State.grows_announce _ d.language ready.states)⟩

theorem run_address (d : Held) :
    (∃ e, uriOf d.request.real = .error e ∧
      (u.recorded.address d).run s = (.error [e.message u.refusal], s)) ∨
    (∃ uri after, uriOf d.request.real = .ok uri ∧
      (u.recorded.address d).run s = (.ok ⟨d, uri, after⟩, s)) := by
  unfold address
  rw [run_bind, run_ofExcept, uriOrFail]
  cases huri : uriOf d.request.real with
  | error e => exact .inl ⟨e, rfl, rfl⟩
  | ok uri => exact .inr ⟨uri, _, rfl, rfl⟩

theorem run_inform (d : Noted) :
    ((s.client d.process).isAlive = false ∧ (u.recorded.inform d).run s = (.error brokenPipe, s)) ∨
    (s.client d.process).isAlive = true ∧ ∃ message s',
      documentEvent? message = some (d.uri, if d.isOpen then .changed d.version else .opened d.version) ∧
      (u.recorded.inform d).run s = (.ok (), s') ∧ (s.tell d.process message).Grows s' := by
  unfold inform
  cases halive : (s.client d.process).isAlive with
  | false =>
    refine .inl ⟨rfl, ?_⟩
    split <;> exact u.exchange_dead _ halive
  | true =>
    refine .inr ⟨rfl, ?_⟩
    split
    · obtain ⟨s', hrun, hgrows⟩ := u.exchange_alive _ halive
      exact ⟨_, s', documentEvent?_didChange _ _, hrun, hgrows⟩
    · obtain ⟨s', hrun, hgrows⟩ := u.exchange_alive _ halive
      exact ⟨_, s', documentEvent?_didOpen _ _ _, hrun, hgrows⟩

theorem run_farewell (process : Nat) (uri : String) :
    ((s.client process).isAlive = false ∧
      (u.recorded.farewell process uri).run s = (.error brokenPipe, s)) ∨
    (s.client process).isAlive = true ∧ ∃ message s', documentEvent? message = some (uri, .closed) ∧
      (u.recorded.farewell process uri).run s = (.ok (), s') ∧ (s.tell process message).Grows s' := by
  cases halive : (s.client process).isAlive with
  | false => exact .inl ⟨rfl, u.exchange_dead _ halive⟩
  | true =>
    obtain ⟨s', hrun, hgrows⟩ := u.exchange_alive _ halive
    exact .inr ⟨rfl, _, s', documentEvent?_didClose, hrun, hgrows⟩

end EditorSync.LanguageServer.Setup

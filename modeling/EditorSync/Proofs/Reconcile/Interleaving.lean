import Mathlib.Data.List.Nodup
import EditorSync.Proofs.Table
import EditorSync.Reconcile.Engine

namespace EditorSync.Reconcile

inductive Step where
  | dispatch (file : String) (job : Job)
  | receive (worker : Nat)
  | finish (worker : Nat)
  | retire (worker : Nat)
  deriving DecidableEq, Repr

def Worker.ticket? (w : Worker) : Option Ticket :=
  match w.phase with
  | .busy ticket => some ticket
  | _ => none

namespace Schedule

variable {s s' : Schedule} {file file' : String} {id : Nat} {w w' : Worker} {job : Job}

def worker? (s : Schedule) (file : String) : Option Worker :=
  (s.registered.get? file).bind s.workers.get?

def working (s : Schedule) (file : String) : List Ticket :=
  ((s.worker? file).bind Worker.ticket?).toList

def queued (s : Schedule) (file : String) : List Ticket :=
  (s.worker? file).elim [] Worker.queue

structure Manned (s : Schedule) : Prop where
  registered_iff : ∀ file id, s.registered.get? file = some id ↔
    ∃ w, s.workers.get? id = some w ∧ w.file = file
  bound : ∀ id w, s.workers.get? id = some w → id < s.nextWorker

def update (s : Schedule) (id : Nat) (w : Worker) : Schedule :=
  { s with workers := s.workers.insert id w }

theorem manned_empty : empty.Manned := by
  refine ⟨fun file id => ⟨fun h => ?_, fun ⟨w, h, _⟩ => ?_⟩, fun id w h => ?_⟩ <;> cases h

theorem worker?_congr (hreg : s'.registered.get? file = s.registered.get? file)
    (hworkers : ∀ id, s.registered.get? file = some id →
      s'.workers.get? id = s.workers.get? id) : s'.worker? file = s.worker? file := by
  rw [worker?, worker?, hreg]
  cases hid : s.registered.get? file with
  | none => rfl
  | some id => exact hworkers id hid

theorem Manned.ne_of_registered {other : Nat} (h : s.Manned) (hw : s.workers.get? id = some w)
    (hreg : s.registered.get? file = some other) (hfile : file ≠ w.file) : other ≠ id := by
  rintro rfl
  obtain ⟨v, hv, rfl⟩ := (h.registered_iff file other).mp hreg
  rw [hw, Option.some.injEq] at hv
  exact hfile (congrArg Worker.file hv.symm)

theorem Manned.worker?_eq (h : s.Manned) (hw : s.workers.get? id = some w) :
    s.worker? w.file = some w := by
  rw [worker?, (h.registered_iff w.file id).mpr ⟨w, hw, rfl⟩, Option.bind_some, hw]

theorem Manned.unique {id' : Nat} (h : s.Manned) (hw : s.workers.get? id = some w)
    (hw' : s.workers.get? id' = some w') (hfile : w.file = w'.file) : id = id' := by
  have hid := (h.registered_iff w.file id).mpr ⟨w, hw, rfl⟩
  have hid' := (h.registered_iff w.file id').mpr ⟨w', hw', hfile.symm⟩
  exact Option.some.inj (hid.symm.trans hid')

theorem Manned.update (h : s.Manned) (hw : s.workers.get? id = some w) (hfile : w'.file = w.file) :
    (s.update id w').Manned := by
  refine ⟨fun file k => ?_, fun k v hv => ?_⟩
  · dsimp only [Schedule.update]
    rw [h.registered_iff, Table.get?_insert]
    by_cases hk : k = id
    · subst hk
      simp [hw, hfile]
    · rw [if_neg hk]
  · dsimp only [Schedule.update] at hv ⊢
    rw [Table.get?_insert] at hv
    split at hv
    · rename_i hk
      exact hk ▸ h.bound id w hw
    · exact h.bound k v hv

theorem Manned.worker?_update (h : s.Manned) (hw : s.workers.get? id = some w) (w' : Worker)
    (hfile : w'.file = w.file) (file : String) :
    (s.update id w').worker? file = if file = w.file then some w' else s.worker? file := by
  by_cases hsame : file = w.file
  · have hget : (s.update id w').workers.get? id = some w' := Table.get?_insert_self _ _ _
    rw [if_pos hsame, hsame, ← hfile]
    exact (h.update hw hfile).worker?_eq hget
  · rw [if_neg hsame]
    refine worker?_congr rfl fun k hreg => ?_
    exact (Table.get?_insert _ _ _ _).trans (if_neg (h.ne_of_registered hw hreg hsame))

def hire (s : Schedule) (file : String) (ticket : Ticket) : Schedule :=
  { s with
    workers := s.workers.insert s.nextWorker ⟨file, .idle, [ticket]⟩
    registered := s.registered.insert file s.nextWorker
    nextWorker := s.nextWorker + 1 }

theorem Manned.ne_nextWorker (h : s.Manned) (hreg : s.registered.get? file = some id) :
    id ≠ s.nextWorker := by
  obtain ⟨w, hw, -⟩ := (h.registered_iff file id).mp hreg
  exact Nat.ne_of_lt (h.bound id w hw)

theorem Manned.hire (h : s.Manned) (hreg : s.registered.get? file = none) (ticket : Ticket) :
    (s.hire file ticket).Manned := by
  refine ⟨fun file' id => ?_, fun id w hw => ?_⟩ <;> dsimp only [Schedule.hire] at *
  · rw [Table.get?_insert, Table.get?_insert]
    by_cases hid : id = s.nextWorker
    · subst hid
      have hnone (f : String) : s.registered.get? f ≠ some s.nextWorker :=
        fun hf => h.ne_nextWorker hf rfl
      by_cases hfile : file' = file
      · simp [hfile]
      · simp [hfile, hnone, Ne.symm hfile]
    · rw [if_neg hid, ← h.registered_iff]
      by_cases hfile : file' = file
      · simp [hfile, hreg, Ne.symm hid]
      · rw [if_neg hfile]
  · rw [Table.get?_insert] at hw
    split at hw
    · rename_i hid
      exact hid ▸ Nat.lt_succ_self _
    · exact Nat.lt_succ_of_lt (h.bound id w hw)

theorem Manned.worker?_hire (h : s.Manned) (hreg : s.registered.get? file = none) (ticket : Ticket)
    (file' : String) :
    (s.hire file ticket).worker? file' =
      if file' = file then some ⟨file, .idle, [ticket]⟩ else s.worker? file' := by
  by_cases hfile : file' = file
  · have hget : (s.hire file ticket).workers.get? s.nextWorker = some ⟨file, .idle, [ticket]⟩ :=
      Table.get?_insert_self _ _ _
    rw [if_pos hfile, hfile]
    exact (h.hire hreg ticket).worker?_eq hget
  · rw [if_neg hfile]
    refine worker?_congr ((Table.get?_insert _ _ _ _).trans (if_neg hfile)) fun id hid => ?_
    exact (Table.get?_insert _ _ _ _).trans (if_neg (h.ne_nextWorker hid))

def enlist (s : Schedule) (file : String) (ticket : Ticket) : Worker :=
  match s.worker? file with
  | some w => { w with queue := w.queue ++ [ticket] }
  | none => ⟨file, .idle, [ticket]⟩

theorem Manned.dispatch (h : s.Manned) (file : String) (job : Job) :
    (s.dispatch file job).Manned ∧ (s.dispatch file job).nextTicket = s.nextTicket + 1 ∧
      ∀ file', (s.dispatch file job).worker? file' =
        if file' = file then some (s.enlist file ⟨s.nextTicket, job⟩) else s.worker? file' := by
  cases hreg : s.registered.get? file with
  | some id =>
    obtain ⟨w, hw, rfl⟩ := (h.registered_iff file id).mp hreg
    have hsame : s.dispatch w.file job =
        { s.update id { w with queue := w.queue ++ [⟨s.nextTicket, job⟩] } with
          nextTicket := s.nextTicket + 1 } := by
      simp only [Schedule.dispatch, hreg, hw, Option.bind_some, Option.map_some]
      rfl
    have henlist : s.enlist w.file ⟨s.nextTicket, job⟩ =
        { w with queue := w.queue ++ [⟨s.nextTicket, job⟩] } := by
      rw [enlist, h.worker?_eq hw]
    have hfile : (s.enlist w.file ⟨s.nextTicket, job⟩).file = w.file := by rw [henlist]
    have hmanned := h.update hw hfile
    rw [hsame, ← henlist]
    exact ⟨⟨hmanned.registered_iff, hmanned.bound⟩, rfl, h.worker?_update hw _ hfile⟩
  | none =>
    have hsame : s.dispatch file job =
        { s.hire file ⟨s.nextTicket, job⟩ with nextTicket := s.nextTicket + 1 } := by
      simp only [Schedule.dispatch, hreg, Option.bind_none]
      rfl
    have henlist : s.enlist file ⟨s.nextTicket, job⟩ = ⟨file, .idle, [⟨s.nextTicket, job⟩]⟩ := by
      rw [enlist, worker?, hreg, Option.bind_none]
    have hmanned := h.hire hreg ⟨s.nextTicket, job⟩
    rw [hsame, henlist]
    exact ⟨⟨hmanned.registered_iff, hmanned.bound⟩, rfl, h.worker?_hire hreg _⟩

theorem receive_eq_some {ticket : Ticket} (h : s.receive id = some (s', w, ticket)) :
    ∃ file queue, s.workers.get? id = some ⟨file, .idle, ticket :: queue⟩ ∧
      w = ⟨file, .busy ticket, queue⟩ ∧ s' = s.update id w := by
  unfold receive at h
  split at h
  · rename_i hw
    cases h
    exact ⟨_, _, hw, rfl, rfl⟩
  · cases h

theorem finish_cases (s : Schedule) (id : Nat) :
    (∃ file ticket queue phase, s.workers.get? id = some ⟨file, .busy ticket, queue⟩ ∧
        (phase = .idle ∨ phase = .retiring) ∧ s.finish id = s.update id ⟨file, phase, queue⟩) ∨
      (∀ w, s.workers.get? id = some w → w.ticket? = none) ∧ s.finish id = s := by
  unfold finish
  split
  · rename_i hw
    exact .inl ⟨_, _, _, .retiring, hw, .inr rfl, rfl⟩
  · rename_i hw
    exact .inl ⟨_, _, _, .idle, hw, .inl rfl, rfl⟩
  · rename_i hrelease hpass
    refine .inr ⟨fun w hw => ?_, rfl⟩
    obtain ⟨file, phase, queue⟩ := w
    cases phase with
    | busy ticket =>
      obtain ⟨number, job⟩ := ticket
      cases job with
      | release => exact absurd hw (hrelease file number queue)
      | pass request owner => exact absurd hw (hpass file number request owner queue)
    | idle | retiring => rfl

def dismiss (s : Schedule) (id : Nat) (file : String) : Schedule :=
  { s with workers := s.workers.erase id, registered := s.registered.erase file }

theorem Manned.retire_cases (h : s.Manned) (id : Nat) :
    (∃ file, s.workers.get? id = some ⟨file, .retiring, []⟩ ∧ s.retire id = s.dismiss id file) ∨
      (∃ file queue, s.workers.get? id = some ⟨file, .retiring, queue⟩ ∧
        s.retire id = s.update id ⟨file, .idle, queue⟩) ∨
      s.retire id = s := by
  unfold retire
  split
  · rename_i file hw
    have hreg : s.registered.get? file = some id := (h.registered_iff file id).mpr ⟨_, hw, rfl⟩
    rw [if_pos hreg]
    exact .inl ⟨file, hw, rfl⟩
  · rename_i file queue _ hw
    exact .inr (.inl ⟨file, queue, hw, rfl⟩)
  · exact .inr (.inr rfl)

theorem Manned.dismiss (h : s.Manned) (hw : s.workers.get? id = some w) :
    (s.dismiss id w.file).Manned := by
  refine ⟨fun file k => ?_, fun k v hv => ?_⟩ <;> dsimp only [Schedule.dismiss] at *
  · rw [Table.get?_erase, Table.get?_erase]
    by_cases hfile : file = w.file
    · subst hfile
      simp only [if_pos, reduceCtorEq, false_iff, not_exists, not_and]
      intro v hv hvfile
      split at hv
      · cases hv
      · rename_i hk
        exact hk (h.unique hv hw hvfile)
    · rw [if_neg hfile, h.registered_iff]
      by_cases hk : k = id
      · subst hk
        rw [if_pos rfl, hw]
        simp [Ne.symm hfile]
      · rw [if_neg hk]
  · rw [Table.get?_erase] at hv
    split at hv
    · cases hv
    · exact h.bound k v hv

theorem Manned.worker?_dismiss (h : s.Manned) (hw : s.workers.get? id = some w) (file : String) :
    (s.dismiss id w.file).worker? file = if file = w.file then none else s.worker? file := by
  by_cases hfile : file = w.file
  · have hreg : (s.dismiss id w.file).registered.get? file = none :=
      (Table.get?_erase _ _ _).trans (if_pos hfile)
    rw [if_pos hfile, worker?, hreg, Option.bind_none]
  · rw [if_neg hfile]
    refine worker?_congr ((Table.get?_erase _ _ _).trans (if_neg hfile)) fun k hk => ?_
    exact (Table.get?_erase _ _ _).trans (if_neg (h.ne_of_registered hw hk hfile))

def job? (s : Schedule) (id : Nat) : Option (String × Ticket) :=
  (s.workers.get? id).bind fun w => w.ticket?.map (w.file, ·)

end Schedule

/-- A schedule with the jobs that it was given, those that workers have begun and those that they
have done, each list in the order of time. -/
structure History where
  schedule : Schedule
  dispatched : List (String × Ticket)
  started : List (String × Ticket)
  finished : List (String × Ticket)

namespace History

def start : History := ⟨.empty, [], [], []⟩

def step (h : History) : Step → History
  | .dispatch file job =>
    { h with
      schedule := h.schedule.dispatch file job
      dispatched := h.dispatched ++ [(file, ⟨h.schedule.nextTicket, job⟩)] }
  | .receive id =>
    match h.schedule.receive id with
    | none => h
    | some (s, worker, ticket) =>
      { h with schedule := s, started := h.started ++ [(worker.file, ticket)] }
  | .finish id =>
    { h with
      schedule := h.schedule.finish id
      finished := h.finished ++ (h.schedule.job? id).toList }
  | .retire id => { h with schedule := h.schedule.retire id }

def run (steps : List Step) : History := steps.foldl step start

end History

def ticketsOf (file : String) (jobs : List (String × Ticket)) : List Ticket :=
  jobs.filterMap fun (f, ticket) => if f = file then some ticket else none

theorem ticketsOf_append_self (file : String) (jobs : List (String × Ticket)) (ticket : Ticket) :
    ticketsOf file (jobs ++ [(file, ticket)]) = ticketsOf file jobs ++ [ticket] := by
  simp [ticketsOf]

theorem ticketsOf_append_other {file f : String} (hf : f ≠ file) (jobs : List (String × Ticket))
    (ticket : Ticket) : ticketsOf f (jobs ++ [(file, ticket)]) = ticketsOf f jobs := by
  simp [ticketsOf, Ne.symm hf]

theorem count_ticketsOf (file : String) (ticket : Ticket) (jobs : List (String × Ticket)) :
    (ticketsOf file jobs).count ticket = jobs.count (file, ticket) := by
  induction jobs with
  | nil => rfl
  | cons job rest ih =>
    obtain ⟨f, t⟩ := job
    rw [List.count_cons, ← ih]
    by_cases hf : f = file
    · by_cases ht : t = ticket <;> simp [ticketsOf, hf, ht]
    · simp [ticketsOf, hf]

/-- The accounts of a history: what a file was given has been begun or waits with its worker, and
what has been begun is done or in the hands of its worker. -/
structure History.Balanced (h : History) : Prop where
  manned : h.schedule.Manned
  dispatched : ∀ file,
    ticketsOf file h.dispatched = ticketsOf file h.started ++ h.schedule.queued file
  started : ∀ file,
    ticketsOf file h.started = ticketsOf file h.finished ++ h.schedule.working file
  numbers : h.dispatched.map (·.2.number) = List.range h.schedule.nextTicket

namespace History.Balanced

variable {h h' : History}

theorem of_file (hb : h.Balanced) (file : String) (hmanned : h'.schedule.Manned)
    (hothers : ∀ f, f ≠ file → h'.schedule.worker? f = h.schedule.worker? f ∧
      ticketsOf f h'.dispatched = ticketsOf f h.dispatched ∧
      ticketsOf f h'.started = ticketsOf f h.started ∧
      ticketsOf f h'.finished = ticketsOf f h.finished)
    (hdispatched : ticketsOf file h'.dispatched =
      ticketsOf file h'.started ++ h'.schedule.queued file)
    (hstarted : ticketsOf file h'.started =
      ticketsOf file h'.finished ++ h'.schedule.working file)
    (hnumbers : h'.dispatched.map (·.2.number) = List.range h'.schedule.nextTicket) :
    h'.Balanced := by
  refine ⟨hmanned, fun f => ?_, fun f => ?_, hnumbers⟩ <;> by_cases hf : f = file
  · rw [hf, hdispatched]
  · obtain ⟨hworker, hgiven, hbegun, -⟩ := hothers f hf
    rw [hgiven, hbegun, hb.dispatched f, Schedule.queued, Schedule.queued, hworker]
  · rw [hf, hstarted]
  · obtain ⟨hworker, -, hbegun, hdone⟩ := hothers f hf
    rw [hbegun, hdone, hb.started f, Schedule.working, Schedule.working, hworker]

theorem dispatch (hb : h.Balanced) (file : String) (job : Job) :
    (h.step (.dispatch file job)).Balanced := by
  obtain ⟨hmanned, hnext, hworker⟩ := hb.manned.dispatch file job
  refine hb.of_file file hmanned (fun f hf => ?_) ?_ ?_ ?_ <;> dsimp only [step]
  · exact ⟨by rw [hworker, if_neg hf], ticketsOf_append_other hf _ _, rfl, rfl⟩
  · rw [ticketsOf_append_self, hb.dispatched file, Schedule.queued, Schedule.queued, hworker,
      if_pos rfl, Schedule.enlist, List.append_assoc]
    cases h.schedule.worker? file <;> rfl
  · rw [hb.started file, Schedule.working, Schedule.working, hworker, if_pos rfl, Schedule.enlist]
    cases h.schedule.worker? file <;> rfl
  · rw [hnext, List.map_append, hb.numbers, List.range_succ]
    rfl

theorem receive (hb : h.Balanced) (id : Nat) : (h.step (.receive id)).Balanced := by
  unfold step
  dsimp only
  cases hreceive : h.schedule.receive id with
  | none => exact hb
  | some taken =>
    obtain ⟨s, w, ticket⟩ := taken
    obtain ⟨file, queue, hw, rfl, rfl⟩ := Schedule.receive_eq_some hreceive
    have hidle := hb.manned.worker?_eq hw
    have hworker := hb.manned.worker?_update hw ⟨file, .busy ticket, queue⟩ rfl
    refine hb.of_file file (hb.manned.update hw rfl) (fun f hf => ?_) ?_ ?_ hb.numbers <;> dsimp only
    · exact ⟨by rw [hworker, if_neg hf], rfl, ticketsOf_append_other hf _ _, rfl⟩
    · rw [ticketsOf_append_self, hb.dispatched file, Schedule.queued, Schedule.queued, hworker,
        if_pos rfl, hidle, List.append_assoc]
      rfl
    · rw [ticketsOf_append_self, hb.started file, Schedule.working, Schedule.working, hworker,
        if_pos rfl, hidle, List.append_assoc]
      rfl

theorem finish (hb : h.Balanced) (id : Nat) : (h.step (.finish id)).Balanced := by
  unfold step
  dsimp only
  rcases h.schedule.finish_cases id with
    ⟨file, ticket, queue, phase, hw, hphase, hfinish⟩ | ⟨hnone, hfinish⟩
  · have hjob : h.schedule.job? id = some (file, ticket) := by
      rw [Schedule.job?, hw]
      rfl
    have hbusy := hb.manned.worker?_eq hw
    have hworker := hb.manned.worker?_update hw ⟨file, phase, queue⟩ rfl
    rw [hfinish, hjob]
    refine hb.of_file file (hb.manned.update hw rfl) (fun f hf => ?_) ?_ ?_ hb.numbers <;> dsimp only
    · exact ⟨by rw [hworker, if_neg hf], rfl, rfl, ticketsOf_append_other hf _ _⟩
    · rw [hb.dispatched file, Schedule.queued, Schedule.queued, hworker, if_pos rfl, hbusy]
      rfl
    · rw [Option.toList_some, ticketsOf_append_self, hb.started file, Schedule.working,
        Schedule.working, hworker, if_pos rfl, hbusy, List.append_assoc]
      rcases hphase with rfl | rfl <;> rfl
  · have hjob : h.schedule.job? id = none := by
      rw [Schedule.job?]
      cases hw : h.schedule.workers.get? id with
      | none => rfl
      | some w => rw [Option.bind_some, hnone w hw, Option.map_none]
    rw [hfinish, hjob, Option.toList_none, List.append_nil]
    exact hb

theorem retire (hb : h.Balanced) (id : Nat) : (h.step (.retire id)).Balanced := by
  unfold step
  dsimp only
  rcases hb.manned.retire_cases id with ⟨file, hw, hretire⟩ | ⟨file, queue, hw, hretire⟩ | hretire
  · have hworker := hb.manned.worker?_dismiss hw
    have hdone := hb.manned.worker?_eq hw
    rw [hretire]
    refine hb.of_file file (hb.manned.dismiss hw)
      (fun f hf => ⟨by rw [hworker, if_neg hf], rfl, rfl, rfl⟩) ?_ ?_ hb.numbers <;> dsimp only
    · rw [hb.dispatched file, Schedule.queued, Schedule.queued, hworker, if_pos rfl, hdone]
      rfl
    · rw [hb.started file, Schedule.working, Schedule.working, hworker, if_pos rfl, hdone]
      rfl
  · have hretiring := hb.manned.worker?_eq hw
    have hworker := hb.manned.worker?_update hw ⟨file, .idle, queue⟩ rfl
    rw [hretire]
    refine hb.of_file file (hb.manned.update hw rfl)
      (fun f hf => ⟨by rw [hworker, if_neg hf], rfl, rfl, rfl⟩) ?_ ?_ hb.numbers <;> dsimp only
    · rw [hb.dispatched file, Schedule.queued, Schedule.queued, hworker, if_pos rfl, hretiring]
      rfl
    · rw [hb.started file, Schedule.working, Schedule.working, hworker, if_pos rfl, hretiring]
      rfl
  · rw [hretire]
    exact hb

theorem step (hb : h.Balanced) (t : Step) : (h.step t).Balanced := by
  cases t with
  | dispatch file job => exact hb.dispatch file job
  | receive id => exact hb.receive id
  | finish id => exact hb.finish id
  | retire id => exact hb.retire id

end History.Balanced

theorem History.balanced_run (steps : List Step) : (History.run steps).Balanced := by
  have hrun (h : History) (hb : h.Balanced) : (steps.foldl History.step h).Balanced := by
    induction steps generalizing h with
    | nil => exact hb
    | cons t rest ih => exact ih (h.step t) (hb.step t)
  exact hrun .start ⟨Schedule.manned_empty, fun _ => rfl, fun _ => rfl, rfl⟩

/-- Doing all that waits, one job after another, is one of the ways in which the steps can go. -/
theorem settleWith_interleaves {σ : Type} (engine : Engine σ) (fuel : Nat) (h : History)
    (state : σ) :
    ∃ steps : List Step,
      (steps.foldl History.step h).schedule = (settleWith engine fuel h.schedule state).1 := by
  induction fuel generalizing h state with
  | zero => exact ⟨[], rfl⟩
  | succ fuel ih =>
    unfold settleWith
    cases hnext : h.schedule.next? with
    | none => exact ⟨[], rfl⟩
    | some id =>
      have hjob : ∃ steps : List Step,
          (steps.foldl History.step h).schedule = (runJob engine h.schedule state id).1 := by
        unfold runJob
        cases hreceive : h.schedule.receive id with
        | none => exact ⟨[], rfl⟩
        | some taken =>
          obtain ⟨s, worker, number, job⟩ := taken
          have hstep : (h.step (.receive id)).schedule = s := by
            simp only [History.step, hreceive]
          cases job with
          | release => exact ⟨[.receive id, .finish id, .retire id], by rw [← hstep]; rfl⟩
          | pass request owner => exact ⟨[.receive id, .finish id], by rw [← hstep]; rfl⟩
      obtain ⟨first, hfirst⟩ := hjob
      obtain ⟨rest, hrest⟩ := ih (first.foldl History.step h) (runJob engine h.schedule state id).2.1
      refine ⟨first ++ rest, ?_⟩
      rw [List.foldl_append, hrest, hfirst]

/-- In whatever way jobs come in and workers go on, the jobs of a file are never worked on at the
same time and are begun in the order in which they came, each of them is done once, in work or
waiting with the worker that is registered for the file, and no worker that has gone is
registered. -/
theorem jobs_run_once_in_order (steps : List Step) :
    let h := History.run steps
    (∀ id id' w w' ticket ticket', h.schedule.workers.get? id = some w →
      h.schedule.workers.get? id' = some w' → w.ticket? = some ticket →
      w'.ticket? = some ticket' → w.file = w'.file → id = id') ∧
    (∀ file, ticketsOf file h.dispatched = ticketsOf file h.started ++ h.schedule.queued file) ∧
    (∀ file ticket, (file, ticket) ∈ h.dispatched →
      h.finished.count (file, ticket) + (h.schedule.working file).count ticket +
        (h.schedule.queued file).count ticket = 1) ∧
    (∀ id w, h.schedule.workers.get? id = some w →
      h.schedule.registered.get? w.file = some id) ∧
    ∀ id, h.schedule.workers.get? id = none → ∀ file, h.schedule.registered.get? file ≠ some id := by
  intro h
  have hb : h.Balanced := History.balanced_run steps
  refine ⟨fun id id' w w' _ _ hw hw' _ _ => hb.manned.unique hw hw', hb.dispatched,
    fun file ticket hjob => ?_,
    fun id w hw => (hb.manned.registered_iff w.file id).mpr ⟨w, hw, rfl⟩,
    fun id hgone file hreg => ?_⟩
  · have hnodup : h.dispatched.Nodup := by
      apply List.Nodup.of_map (·.2.number)
      rw [hb.numbers]
      exact List.nodup_range
    rw [← count_ticketsOf, ← List.count_append, ← hb.started, ← List.count_append,
      ← hb.dispatched, count_ticketsOf]
    exact List.count_eq_one_of_mem hnodup hjob
  · obtain ⟨w, hw, -⟩ := (hb.manned.registered_iff file id).mp hreg
    rw [hgone] at hw
    cases hw

example :
    let h := History.run [.dispatch "/p/a" .release, .receive 0, .finish 0,
      .dispatch "/p/a" .release, .retire 0, .receive 0]
    h.finished = [("/p/a", ⟨0, .release⟩)] ∧ h.schedule.working "/p/a" = [⟨1, .release⟩] ∧
      h.schedule.registered.get? "/p/a" = some 0 := by decide

end EditorSync.Reconcile

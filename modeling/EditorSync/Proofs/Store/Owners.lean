import EditorSync.Proofs.Store.Deliveries
import EditorSync.Proofs.Store.Faults
import EditorSync.Proofs.WorkingCopy.Sources

namespace EditorSync.Store

open WorkingCopy (Applied Key Sourced)

variable {shadows : Shadows} {w w' : World} {key : Key} {m : EditorChanges}

structure Backlog where
  world : World
  senders : Table Nat EditorChanges
  deriving DecidableEq, Repr

namespace Backlog

def take (key : Key) (b : Backlog) (m : EditorChanges) : Backlog :=
  let r := (Store.apply m).perform b.world
  match r.1 with
  | .ok (.buffered seq) =>
    if b.world.store.key b.world.disk m.file = .ok key then ⟨r.2, b.senders.insert seq m⟩
    else ⟨r.2, b.senders⟩
  | _ => ⟨r.2, b.senders⟩

def run (key : Key) (b : Backlog) (messages : List EditorChanges) : Backlog :=
  messages.foldl (take key) b

def sender? (b : Backlog) (m : EditorChanges) (a : Applied) : Option EditorChanges :=
  if a.seq = m.seq then some m else a.seq.bind b.senders.get?

def Delivers (b : Backlog) (m : EditorChanges) (a : Applied) (delta : Delta) : Prop :=
  ∃ sender, b.sender? m a = some sender ∧ sender.seq = a.seq ∧ sender.toDelta = .ok delta

def Tells (key : Key) (received : List EditorChanges) (b : Backlog) : Prop :=
  ∀ copy, b.world.store.copies.get? key = some copy →
    ∀ n delta, copy.pending.get? n = some delta → ∃ sender ∈ received,
      b.senders.get? n = some sender ∧ sender.seq = some n ∧ sender.toDelta = .ok delta

def OneOwner (b : Backlog) (key : Key) (copy : WorkingCopy) (owner : String) : Prop :=
  ∀ n sender, (copy.pending.get? n).isSome → b.senders.get? n = some sender →
    ownerOf sender key.file = owner

end Backlog

theorem Creates.waiting {key' : Key} {r : Except SyncError WorkingCopy} (h : Creates w key r w')
    {copy : WorkingCopy} (hcopy : w'.store.copies.get? key' = some copy) {n : Nat} {delta : Delta}
    (hn : copy.pending.get? n = some delta) : w.store.copies.get? key' = some copy := by
  rcases h.copies with hsame | ⟨-, content, hnew⟩
  · rwa [hsame] at hcopy
  · rw [hnew, Table.get?_insert] at hcopy
    split at hcopy
    · cases hcopy
      cases hn
    · exact hcopy

inductive Lingers (w : World) (m : EditorChanges) (r : Except SyncError ApplyOutcome) (key : Key)
    (n : Nat) (delta : Delta) : Prop
  | delivered (held : r = .ok (.buffered n) ∧ w.store.key w.disk m.file = .ok key)
    (numbered : m.seq = some n) (decoded : m.toDelta = .ok delta) : Lingers w m r key n delta
  | before {old : WorkingCopy} (kept : ¬(r = .ok (.buffered n) ∧ w.store.key w.disk m.file = .ok key))
    (copied : w.store.copies.get? key = some old) (waiting : old.pending.get? n = some delta) :
    Lingers w m r key n delta

theorem Applies.lingers {r : Except SyncError ApplyOutcome} (h : Applies w m r w')
    (hproper : w.Proper shadows) {copy : WorkingCopy}
    (hcopy : w'.store.copies.get? key = some copy) {n : Nat} {delta : Delta}
    (hn : copy.pending.get? n = some delta) : Lingers w m r key n delta := by
  have hkept (hr : r ≠ .ok (.buffered n)) (hold : w.store.copies.get? key = some copy) :
      Lingers w m r key n delta := .before (fun h => hr h.1) hold hn
  cases h with
  | undecoded | unaddressed | outside | foreign | suspended => exact hkept (by simp) hcopy
  | failed _ hcreate | discarded _ hcreate | rejected _ _ hcreate =>
    exact hkept (by simp) (hcreate.waiting hcopy hn)
  | @held found old copy' given w₁ hdelta hkey _ _ hcreate _ happly =>
    have hfound : copy'.key = found := (WorkingCopy.apply_key _ _ happly).trans
      ((hcreate.proper_addressed hproper hkey).2 old rfl).key_eq
    rw [World.get?_put, hfound] at hcopy
    split at hcopy
    · rename_i hsame
      subst hsame
      cases hcopy
      generalize hseq : m.seq = seq at happly ⊢
      cases WorkingCopy.takes_of_apply _ _ happly with
      | @held seq =>
        rw [Table.get?_insert] at hn
        split at hn
        · rename_i hnew
          cases hn
          subst hnew
          exact .delivered ⟨rfl, hkey⟩ hseq hdelta
        · rename_i hother
          have hold := hcreate.waiting hcreate.get?_eq hn
          refine .before (fun h => hother ?_) hold hn
          cases h.1
          rfl
    · rename_i hother
      refine .before (fun h => hother ?_) (hcreate.waiting hcopy hn) hn
      cases hkey.symm.trans h.2
      rfl
  | @taken found old copy' given applied w₁ hdelta hkey _ _ hcreate _ happly hne =>
    have hfound : copy'.key = found := (WorkingCopy.apply_key _ _ happly).trans
      ((hcreate.proper_addressed hproper hkey).2 old rfl).key_eq
    rw [World.persisted_copies, World.get?_put, hfound] at hcopy
    split at hcopy
    · rename_i hsame
      subst hsame
      cases hcopy
      have hbefore := WorkingCopy.pending_of_apply happly hne n delta hn
      exact .before (by simp) (hcreate.waiting hcreate.get?_eq hbefore) hbefore
    · exact hkept (by simp) (hcreate.waiting hcopy hn)

namespace Backlog

variable {b : Backlog} {received : List EditorChanges}

theorem take_world (b : Backlog) (m : EditorChanges) :
    (b.take key m).world = ((Store.apply m).perform b.world).2 := by
  unfold take
  dsimp only
  split
  · split <;> rfl
  · rfl

theorem get?_senders_take (b : Backlog) (m : EditorChanges) (n : Nat) :
    (b.take key m).senders.get? n =
      if ((Store.apply m).perform b.world).1 = .ok (.buffered n) ∧
        b.world.store.key b.world.disk m.file = .ok key then some m else b.senders.get? n := by
  unfold take
  dsimp only
  split
  · rename_i seq hr
    rw [hr]
    by_cases hkey : b.world.store.key b.world.disk m.file = .ok key
    · rw [if_pos hkey, Table.get?_insert]
      simp [hkey, eq_comm]
    · simp [hkey]
  · rename_i hr
    rw [if_neg fun h => hr n h.1]

theorem Tells.take (h : b.Tells key received) (hproper : b.world.Proper shadows)
    (hm : m ∈ received) : (b.take key m).Tells key received := by
  intro copy hcopy n delta hn
  rw [take_world] at hcopy
  rw [get?_senders_take]
  cases (applies b.world m).lingers hproper hcopy hn with
  | delivered held numbered decoded =>
    rw [if_pos held]
    exact ⟨m, hm, rfl, numbered, decoded⟩
  | @before old kept copied waiting =>
    rw [if_neg kept]
    exact h old copied n delta waiting

theorem tells_run (h : b.Tells key received) (hproper : b.world.Proper shadows)
    (messages : List EditorChanges) (hmessages : ∀ m ∈ messages, m ∈ received) :
    (b.run key messages).world.Proper shadows ∧ (b.run key messages).Tells key received := by
  induction messages generalizing b with
  | nil => exact ⟨hproper, h⟩
  | cons m rest ih =>
    refine ih (h.take hproper (hmessages m List.mem_cons_self)) ?_ fun m' hm' =>
      hmessages m' (List.mem_cons_of_mem _ hm')
    rw [take_world]
    exact (applies b.world m).proper hproper

theorem Tells.sender_of_waits (h : b.Tells key received) {copy : WorkingCopy}
    (hcopy : ∀ {n delta}, copy.pending.get? n = some delta →
      b.world.store.copies.get? key = some copy)
    {a : Applied} {delta : Delta}
    (hwaits : ∃ n, m.seq = some n ∧ WorkingCopy.Waits copy.pending n a delta) :
    ∃ n, (copy.pending.get? n).isSome ∧ ∃ sender ∈ received, b.senders.get? n = some sender ∧
      b.sender? m a = some sender ∧ sender.seq = a.seq ∧ sender.toDelta = .ok delta := by
  obtain ⟨n, hn, k, hseq, hlt, hk⟩ := hwaits
  obtain ⟨sender, hmem, hknown, hnumber, hdelta⟩ := h copy (hcopy hk) k delta hk
  have hother : a.seq ≠ m.seq := by
    rw [hseq, hn]
    intro h
    cases h
    omega
  refine ⟨k, Option.isSome_of_mem hk, sender, hmem, hknown, ?_, hnumber.trans hseq.symm, hdelta⟩
  rw [sender?, if_neg hother, hseq]
  exact hknown

end Backlog

/-- Each text that a message brings about is reported to the owner that this message names. Behind
the text is the delta of the message or of an earlier one that has waited for it. So each text is
reported to the owner of its own message, as long as what waits comes from messages of the same
owner. -/
theorem owners_of_run (hreachable : Reachable shadows w)
    (hidle : ∀ copy, w.store.copies.get? key = some copy → copy.pending = .empty)
    {earlier : List EditorChanges} {b : Backlog} (hrun : Backlog.run key ⟨w, .empty⟩ earlier = b)
    (hkey : b.world.store.key b.world.disk m.file = .ok key) {steps : List (Applied × Snapshot)}
    (happlied : ((Store.apply m).perform b.world).1 = .ok (.applied steps)) :
    ∃ copy, b.world.copyFor? key = some copy ∧
      Sourced b.world.store.settings.encoding (b.Delivers m) copy.content (steps.map (·.1)) ∧
      (∀ step ∈ steps, step.2 = ⟨key, ownerOf m key.file, step.1.content⟩ ∧
        ∃ sender ∈ m :: earlier, b.sender? m step.1 = some sender ∧
          (sender = m ∨ b.OneOwner key copy (ownerOf m key.file) →
            step.2.owner = ownerOf sender key.file)) ∧
      steps.head?.map (fun step => b.sender? m step.1) = some (some m) := by
  have hstart : (⟨w, .empty⟩ : Backlog).Tells key earlier := by
    intro copy hcopy n delta hn
    rw [hidle copy hcopy] at hn
    cases hn
  obtain ⟨hproper, htells⟩ := Backlog.tells_run hstart hreachable.proper earlier fun _ h => h
  rw [hrun] at hproper htells
  have happlies := applies b.world m
  rw [happlied] at happlies
  generalize ((Store.apply m).perform b.world).2 = w' at happlies
  cases happlies with
  | @taken found copy copy' delta applied w₁ hdelta hfound _ _ hcreate _ happly hne =>
    cases hkey.symm.trans hfound
    rw [hcreate.settings] at happly
    obtain ⟨content, later, rfl, hfits, hlater⟩ := WorkingCopy.sourced_of_apply happly hne
    have hself : b.sender? m ⟨delta.kind, m.seq, content⟩ = some m := if_pos rfl
    have hsender (a : Applied) (delta' : Delta) (hwaits : ∃ n, m.seq = some n ∧
        WorkingCopy.Waits copy.pending n a delta') :=
      htells.sender_of_waits (hcreate.waiting hcreate.get?_eq) hwaits
    refine ⟨copy, hcreate.copyFor?, ?_, fun step hstep => ?_, congrArg some hself⟩
    · have hsteps (l : List Applied) :
          (l.map fun a => (a, Snapshot.mk key (ownerOf m key.file) a.content)).map (·.1) = l := by
        rw [List.map_map]
        exact List.map_id l
      rw [hsteps]
      refine ⟨⟨delta, ⟨m, hself, rfl, hdelta⟩, rfl, hfits⟩, ?_⟩
      refine hlater.mono fun a _ delta' hwaits => ?_
      obtain ⟨-, -, sender, -, -, hsends, hseq, hdelta'⟩ := hsender a delta' hwaits
      exact ⟨sender, hsends, hseq, hdelta'⟩
    · obtain ⟨a, ha, rfl⟩ := List.mem_map.mp hstep
      refine ⟨rfl, ?_⟩
      rcases List.mem_cons.mp ha with rfl | ha
      · exact ⟨m, List.mem_cons_self, hself, fun _ => rfl⟩
      · obtain ⟨delta', hwaits⟩ := hlater.exists_source a ha
        obtain ⟨n, hn, sender, hmem, hknown, hsends, -, -⟩ := hsender a delta' hwaits
        refine ⟨sender, List.mem_cons_of_mem m hmem, hsends, ?_⟩
        rintro (rfl | hone)
        · rfl
        · exact (hone n sender hn hknown).symm

def idleWorld : World := ⟨.new sampleShadows { sampleSettings with persist := false }, sampleDisk⟩

def insertionBy (owner : String) (seq : Nat) : EditorChanges :=
  ⟨.insert, owner, "/p", "/p/a", 0, none, none, some "z", some seq⟩

def sharedBacklog : Backlog :=
  (⟨idleWorld, .empty⟩ : Backlog).run ⟨"/p", "/p/a"⟩ [insertionBy "first" 1, insertionBy "second" 3]

theorem sharedBacklog_key :
    sharedBacklog.world.store.key sharedBacklog.world.disk "/p/a" = .ok ⟨"/p", "/p/a"⟩ := by
  cbv

def drainedSteps (owner : String) : List (Applied × Snapshot) :=
  [(⟨.insert, some 2, "zz"⟩, ⟨⟨"/p", "/p/a"⟩, owner, "zz"⟩),
    (⟨.insert, some 3, "zzz"⟩, ⟨⟨"/p", "/p/a"⟩, owner, "zzz"⟩)]

theorem sharedBacklog_apply_second :
    ((Store.apply (insertionBy "second" 2)).perform sharedBacklog.world).1 =
      .ok (.applied (drainedSteps "second")) := by
  cbv

theorem owners_of_run_second :
    ((Store.apply (insertionBy "second" 2)).perform sharedBacklog.world).1 =
        .ok (.applied (drainedSteps "second")) ∧
      ∀ step ∈ drainedSteps "second",
        ∃ sender ∈ [insertionBy "second" 2, insertionBy "first" 1, insertionBy "second" 3],
          sharedBacklog.sender? (insertionBy "second" 2) step.1 = some sender ∧
            step.2.owner = ownerOf sender "/p/a" := by
  have hsenders : sharedBacklog.senders = .ofList [(3, insertionBy "second" 3)] := by cbv
  have hone (copy : WorkingCopy) : sharedBacklog.OneOwner ⟨"/p", "/p/a"⟩ copy "second" := by
    intro n sender _ hn
    rw [hsenders, Table.get?_eq_some_iff] at hn
    obtain rfl := (Prod.mk.inj (List.mem_singleton.mp hn)).2
    decide
  have hidle (copy : WorkingCopy)
      (hcopy : idleWorld.store.copies.get? ⟨"/p", "/p/a"⟩ = some copy) : copy.pending = .empty := by
    cases hcopy
  obtain ⟨copy, -, -, hsteps, -⟩ := owners_of_run (m := insertionBy "second" 2) (.new _ _)
    hidle (b := sharedBacklog) rfl sharedBacklog_key sharedBacklog_apply_second
  refine ⟨sharedBacklog_apply_second, fun step hstep => ?_⟩
  obtain ⟨-, sender, hmem, hsends, howner⟩ := hsteps step hstep
  exact ⟨sender, hmem, hsends, howner (.inr (hone copy))⟩

theorem sharedBacklog_apply_first :
    ((Store.apply (insertionBy "first" 2)).perform sharedBacklog.world).1 =
      .ok (.applied (drainedSteps "first")) := by
  cbv

theorem waiting_delta_reported_to_another :
    let m := insertionBy "first" 2
    sharedBacklog.world.store.key sharedBacklog.world.disk m.file = .ok ⟨"/p", "/p/a"⟩ ∧
      ∃ steps step, ((Store.apply m).perform sharedBacklog.world).1 = .ok (.applied steps) ∧
        step ∈ steps ∧ sharedBacklog.sender? m step.1 = some (insertionBy "second" 3) ∧
          step.2.owner = "first" := by
  refine ⟨sharedBacklog_key, drainedSteps "first", _, sharedBacklog_apply_first,
    List.mem_cons_of_mem _ List.mem_cons_self, ?_, rfl⟩
  cbv

end EditorSync.Store

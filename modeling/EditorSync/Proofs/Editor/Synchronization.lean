import EditorSync.Proofs.Editor.Carriage

namespace EditorSync.Editor.Link

open Text (Encoding)
open AutoSave (Stimulus)

variable {enc : Encoding} {maxPending first : Nat} {l l' : Link} {text : String}

structure Numbered (l : Link) (first : Nat) : Prop where
  numbers : l.inFlight.map (·.seq) = (List.range' first l.inFlight.length).map some
  next : first + l.inFlight.length = l.editor.nextSeq
  baseline : ∀ last, l.copy.lastApplied = some last → last < first
  waiting : ∀ seq, (l.copy.pending.get? seq).isSome → seq < first
  contiguous : l.synced = true →
    l.copy.pending = .empty ∧ ∀ last, l.copy.lastApplied = some last → last + 1 = first

structure Owes (l : Link) (owed : List EditorChanges) (text : String) : Prop where
  queued : owed <+: l.inFlight
  recovers : Recovers l.editor.encoding text owed
  current : l.synced = true → Carries l.editor.encoding l.copy.content owed text

structure Sound (l : Link) : Prop where
  active : l.editor.activeEditor = true
  owned : l.editor.document.Owned
  numbered : ∃ first, l.Numbered first
  sent : ∃ sent, l.Owes l.inFlight sent ∧ (l.editor.Streaming →
    Delta.replay l.editor.encoding sent l.editor.queue.deltas = .ok l.editor.document.text)

variable {message : EditorChanges} {rest owed : List EditorChanges} {delta : Delta} {next : String}

theorem Numbered.head (h : l.Numbered first) (hflight : l.inFlight = message :: rest) :
    message.seq = some first ∧
      rest.map (·.seq) = (List.range' (first + 1) rest.length).map some ∧
      first + 1 + rest.length = l.editor.nextSeq := by
  have hnumbers := h.numbers
  rw [hflight, List.map_cons, List.length_cons, List.range'_succ, List.map_cons] at hnumbers
  obtain ⟨hhead, htail⟩ := List.cons.inj hnumbers
  have hnext := h.next
  rw [hflight, List.length_cons] at hnext
  exact ⟨hhead, htail, by omega⟩

theorem Numbered.receive (h : l.Numbered first) (hflight : l.inFlight = message :: rest)
    (hdelta : message.toDelta = .ok delta)
    (happly : delta.apply l.copy.content l.editor.encoding = .ok next)
    (hdue : l.synced = true ∨ delta.kind = .replaceAll) :
    receive l.copy l.editor.encoding maxPending message =
      { l.copy with content := next, lastApplied := some first, pending := .empty } := by
  rw [Link.receive, hdelta, (h.head hflight).1]
  apply WorkingCopy.deliver_next h.waiting _ happly
  intro last hlast
  refine ⟨h.baseline last hlast, fun hkind => ?_⟩
  have hsynced := hdue.resolve_right hkind
  exact ((h.contiguous hsynced).2 last hlast).symm

theorem eq_replaceAll_of_isSnapshot (h : isSnapshot message = true) :
    ∃ snapshot, message.toDelta = .ok (.replaceAll snapshot) := by
  unfold isSnapshot at h
  split at h
  · rename_i snapshot hsnapshot
    exact ⟨snapshot, hsnapshot⟩
  · cases h

theorem Owes.receive (h : l.Owes (message :: owed) text) (hnumbered : l.Numbered first)
    (hflight : l.inFlight = message :: rest)
    (hsynced : (l.arrive maxPending message rest).synced = true) :
    ∃ next, Link.receive l.copy l.editor.encoding maxPending message =
        { l.copy with content := next, lastApplied := some first, pending := .empty } ∧
      Carries l.editor.encoding next owed text := by
  by_cases hbefore : l.synced = true
  · obtain ⟨delta, next, hdelta, happly, hcarries⟩ := h.current hbefore
    exact ⟨next, hnumbered.receive hflight hdelta happly (.inl hbefore), hcarries⟩
  · have hsnapshot : isSnapshot message = true := by
      simpa only [arrive, Bool.not_eq_true _ ▸ hbefore, Bool.false_or] using hsynced
    obtain ⟨snapshot, hdelta⟩ := eq_replaceAll_of_isSnapshot hsnapshot
    exact ⟨snapshot, hnumbered.receive hflight hdelta rfl (.inr rfl), h.recovers.1 _ hdelta⟩

theorem Owes.arrive (h : l.Owes (message :: owed) text) (hnumbered : l.Numbered first)
    (hflight : l.inFlight = message :: rest) :
    (l.arrive maxPending message rest).Owes owed text := by
  refine ⟨?_, h.recovers.2, fun hsynced => ?_⟩
  · have hqueued := h.queued
    rw [hflight, List.cons_prefix_cons] at hqueued
    exact hqueued.2
  · obtain ⟨next, hcopy, hcarries⟩ := h.receive hnumbered hflight hsynced
    simpa only [Link.arrive, hcopy] using hcarries

theorem Numbered.arrive (h : l.Numbered first) (howes : l.Owes (message :: owed) text)
    (hflight : l.inFlight = message :: rest) :
    (l.arrive maxPending message rest).Numbered (first + 1) := by
  obtain ⟨hseq, hnumbers, hnext⟩ := h.head hflight
  have hbounds : (∀ last, (Link.receive l.copy l.editor.encoding maxPending message).lastApplied =
        some last → last ≤ first) ∧
      ∀ seq, ((Link.receive l.copy l.editor.encoding maxPending message).pending.get? seq).isSome →
        seq ≤ first := by
    unfold Link.receive
    split
    · rw [hseq]
      exact WorkingCopy.deliver_le h.baseline h.waiting
    · exact ⟨fun last hl => Nat.le_of_lt (h.baseline last hl),
        fun seq hs => Nat.le_of_lt (h.waiting seq hs)⟩
  refine ⟨hnumbers, hnext, fun last hl => ?_, fun seq hs => ?_, fun hsynced => ?_⟩
  · exact Nat.lt_succ_of_le (hbounds.1 last hl)
  · exact Nat.lt_succ_of_le (hbounds.2 seq hs)
  · obtain ⟨next, hcopy, -⟩ := howes.receive h hflight hsynced
    simp only [Link.arrive, hcopy, Option.some.injEq, true_and]
    exact fun last hl => by omega

theorem Numbered.lose (h : l.Numbered first) (hflight : l.inFlight = message :: rest) :
    (l.lose rest).Numbered (first + 1) := by
  obtain ⟨-, hnumbers, hnext⟩ := h.head hflight
  exact ⟨hnumbers, hnext, fun last hl => Nat.lt_succ_of_lt (h.baseline last hl),
    fun seq hs => Nat.lt_succ_of_lt (h.waiting seq hs), fun hsynced => by cases hsynced⟩

theorem Owes.lose (h : l.Owes (message :: owed) text) (hflight : l.inFlight = message :: rest) :
    (l.lose rest).Owes owed text := by
  refine ⟨?_, h.recovers.2, fun hsynced => by cases hsynced⟩
  have hqueued := h.queued
  rw [hflight, List.cons_prefix_cons] at hqueued
  exact hqueued.2

theorem Numbered.extend {messages : List EditorChanges} (h : l.Numbered first)
    (hcopy : l'.copy = l.copy) (hsynced : l'.synced = true → l.synced = true)
    (hflight : l'.inFlight = l.inFlight ++ messages)
    (hnumbers : messages.map (·.seq) =
      (List.range' l.editor.nextSeq messages.length).map some)
    (hnext : l'.editor.nextSeq = l.editor.nextSeq + messages.length) : l'.Numbered first := by
  refine ⟨?_, ?_, hcopy ▸ h.baseline, hcopy ▸ h.waiting, fun hs => hcopy ▸ h.contiguous (hsynced hs)⟩
  · rw [hflight, List.map_append, h.numbers, hnumbers, List.length_append, ← h.next,
      ← List.map_append, List.range'_append_1]
  · rw [hflight, List.length_append, hnext, ← h.next]
    omega

theorem Owes.extend {messages : List EditorChanges} (h : l.Owes owed text)
    (hcopy : l'.copy = l.copy) (hencoding : l'.editor.encoding = l.editor.encoding)
    (hsynced : l'.synced = true → l.synced = true)
    (hflight : l'.inFlight = l.inFlight ++ messages) : l'.Owes owed text := by
  refine ⟨?_, hencoding ▸ h.recovers, fun hs => ?_⟩
  · rw [hflight]
    exact h.queued.trans (List.prefix_append _ _)
  · rw [hencoding, hcopy]
    exact h.current (hsynced hs)

theorem Owes.append {messages : List EditorChanges} {sent : String} (h : l.Owes l.inFlight sent)
    (hcarries : Carries l.editor.encoding sent messages text) (hcopy : l'.copy = l.copy)
    (hencoding : l'.editor.encoding = l.editor.encoding)
    (hsynced : l'.synced = true → l.synced = true)
    (hflight : l'.inFlight = l.inFlight ++ messages) : l'.Owes l'.inFlight text := by
  refine ⟨List.prefix_rfl, ?_, fun hs => ?_⟩
  · rw [hencoding, hflight]
    exact recovers_append h.recovers hcarries
  · rw [hencoding, hcopy, hflight]
    exact carries_append (h.current (hsynced hs)) hcarries

theorem follow_synced (s : Stimulus) (h : (l.follow s).synced = true) : l.synced = true := by
  rw [follow, Bool.and_eq_true] at h
  exact h.1

theorem Sound.follow_quiet (h : l.Sound) (s : Stimulus) (hallows : Allows l.editor s)
    (hflush : l.editor.flushes s = false) : (l.follow s).Sound := by
  obtain ⟨hkept, hqueue, hnext⟩ := react_quiet s hallows hflush h.owned h.active
  obtain ⟨-, hsilent⟩ := AutoSave.react_idle s hflush
  have hflight : (l.follow s).inFlight = l.inFlight ++ [] := congrArg (l.inFlight ++ ·) hsilent
  obtain ⟨first, hnumbered⟩ := h.numbered
  obtain ⟨sent, howes, hreplay⟩ := h.sent
  refine ⟨hkept.active, hkept.owned, ⟨first, ?_⟩, sent, ?_, fun hstreaming => ?_⟩
  · exact hnumbered.extend rfl (follow_synced s) hflight rfl hnext
  · have hnone : Carries l.editor.encoding sent [] sent := rfl
    exact howes.append hnone rfl hkept.encoding (follow_synced s) hflight
  · have hbefore := hreplay (streaming_of_react_quiet s hallows hflush hstreaming)
    change Delta.replay (l.editor.react s).1.encoding sent (l.editor.react s).1.queue.deltas =
      .ok (l.editor.react s).1.document.text
    rw [hkept.encoding, hkept.text, hqueue]
    exact hbefore

theorem Sound.follow_flushed (h : l.Sound) (s : Stimulus) (hflush : l.editor.flushes s = true) :
    (l.follow s).Sound ∧ (l.follow s).Owes (l.follow s).inFlight (l.follow s).editor.document.text := by
  obtain ⟨hkept, hflushed⟩ := react_flushed s hflush h.owned h.active
  obtain ⟨first, hnumbered⟩ := h.numbered
  obtain ⟨sent, howes, hreplay⟩ := h.sent
  have hcarries := hflushed.carries sent hreplay
  have htext : (l.follow s).editor.document.text = l.editor.document.text := hkept.text
  have howes' : (l.follow s).Owes (l.follow s).inFlight (l.follow s).editor.document.text := by
    rw [htext]
    exact howes.append hcarries rfl hkept.encoding (follow_synced s) rfl
  refine ⟨⟨hkept.active, hkept.owned, ⟨first, ?_⟩, _, howes', fun _ => ?_⟩, howes'⟩
  · exact hnumbered.extend rfl (follow_synced s) rfl hflushed.numbers hflushed.next
  · change Delta.replay (l.editor.react s).1.encoding _ (l.editor.react s).1.queue.deltas = _
    rw [hflushed.queue]
    rfl

theorem revise_eq (change : DocumentChange) (now : Nat) (edited : String) :
    ∃ queue timer, (l.revise change now edited).editor =
      { l.editor with
        document := { l.editor.document with text := edited }, queue := queue, timer := timer } := by
  unfold revise AutoSave.changed
  dsimp only
  split
  · exact ⟨l.editor.queue, l.editor.timer, rfl⟩
  · exact ⟨_, _, rfl⟩

theorem revise_queue (change : DocumentChange) (now : Nat) (edited : String)
    (hactive : l.editor.activeEditor = true) (hstreaming : l.editor.Streaming)
    (hdocument : change.document = l.editor.document.location) :
    (l.revise change now edited).editor.queue = l.editor.queue.addAll change.toDeltas now := by
  have hmode : l.editor.mode ≠ .suspended := by
    rcases hstreaming with h | h <;> rw [h] <;> intro hsuspended <;> cases hsuspended
  unfold revise AutoSave.changed
  dsimp only
  rw [if_neg (by simp [hmode, hdocument]), if_pos hactive]

theorem Sound.revise (h : l.Sound) (change : DocumentChange) (now : Nat) {edited : String}
    (hdocument : change.document = l.editor.document.location)
    (hedit : change.on? l.editor.document.text l.editor.encoding = some edited) :
    (l.revise change now edited).Sound := by
  obtain ⟨queue, timer, heditor⟩ := revise_eq (l := l) change now edited
  obtain ⟨first, hnumbered⟩ := h.numbered
  obtain ⟨sent, howes, hreplay⟩ := h.sent
  refine ⟨?_, ?_, ⟨first, ?_⟩, sent, ?_, fun hstreaming => ?_⟩
  · rw [heditor]
    exact h.active
  · rw [heditor]
    exact h.owned
  · exact hnumbered.extend rfl id (List.append_nil _).symm rfl (by rw [heditor]; rfl)
  · exact howes.extend rfl (by rw [heditor]) id (List.append_nil _).symm
  · have hbefore : l.editor.Streaming := by
      rw [heditor] at hstreaming
      exact hstreaming
    rw [revise_queue change now edited h.active hbefore hdocument, heditor, DirtyQueue.deltas_addAll]
    have hqueued := hreplay hbefore
    exact (Delta.replay_append_eq_ok_iff _ _).mpr ⟨_, hqueued, DocumentChange.replay_toDeltas hedit⟩

theorem Sound.arrive (h : l.Sound) (hflight : l.inFlight = message :: rest) :
    (l.arrive maxPending message rest).Sound := by
  obtain ⟨first, hnumbered⟩ := h.numbered
  obtain ⟨sent, howes, hreplay⟩ := h.sent
  rw [hflight] at howes
  exact ⟨h.active, h.owned, ⟨first + 1, hnumbered.arrive howes hflight⟩, sent,
    howes.arrive hnumbered hflight, hreplay⟩

theorem Sound.lose (h : l.Sound) (hflight : l.inFlight = message :: rest) :
    (l.lose rest).Sound := by
  obtain ⟨first, hnumbered⟩ := h.numbered
  obtain ⟨sent, howes, hreplay⟩ := h.sent
  rw [hflight] at howes
  exact ⟨h.active, h.owned, ⟨first + 1, hnumbered.lose hflight⟩, sent, howes.lose hflight, hreplay⟩

theorem Sound.step {m : Move} (h : l.Sound) (hstep : l.step maxPending m = some l') : l'.Sound := by
  unfold Link.step at hstep
  split at hstep
  · rw [Option.ite_none_right_eq_some, Option.map_eq_some_iff] at hstep
    obtain ⟨hdocument, edited, hedit, rfl⟩ := hstep
    exact h.revise _ _ hdocument hedit
  · rename_i s
    rw [Option.ite_none_right_eq_some, Option.some.injEq] at hstep
    obtain ⟨hallows, rfl⟩ := hstep
    cases hflush : l.editor.flushes s with
    | true => exact (h.follow_flushed s hflush).1
    | false => exact h.follow_quiet s hallows hflush
  · split at hstep
    · cases hstep
    · rename_i message rest hflight
      cases hstep
      exact h.arrive hflight
  · split at hstep
    · cases hstep
    · rename_i message rest hflight
      cases hstep
      exact h.lose hflight

theorem Sound.run {ms : List Move} (h : l.Sound) (hrun : l.run maxPending ms = some l') :
    l'.Sound := by
  induction ms generalizing l with
  | nil =>
    cases hrun
    exact h
  | cons m rest ih =>
    obtain ⟨next, hstep, hrest⟩ := Option.bind_eq_some_iff.mp hrun
    exact ih (h.step hstep) hrest

theorem Owes.step {m : Move} (h : l.Owes owed text) (hsound : l.Sound)
    (hstep : l.step maxPending m = some l') :
    m.arrives = false ∧ l'.Owes owed text ∨
      m.arrives = true ∧ ∀ head tail, owed = head :: tail → l'.Owes tail text := by
  have hhead {message head : EditorChanges} {rest tail : List EditorChanges}
      (hflight : l.inFlight = message :: rest) (howed : owed = head :: tail) : head = message := by
    have hqueued := h.queued
    rw [hflight, howed, List.cons_prefix_cons] at hqueued
    exact hqueued.1
  obtain ⟨first, hnumbered⟩ := hsound.numbered
  unfold Link.step at hstep
  split at hstep
  · rename_i change now
    rw [Option.ite_none_right_eq_some, Option.map_eq_some_iff] at hstep
    obtain ⟨-, edited, -, rfl⟩ := hstep
    obtain ⟨queue, timer, heditor⟩ := revise_eq (l := l) change now edited
    exact .inl ⟨rfl, h.extend rfl (by rw [heditor]) id (List.append_nil _).symm⟩
  · rename_i s
    rw [Option.ite_none_right_eq_some, Option.some.injEq] at hstep
    obtain ⟨hallows, rfl⟩ := hstep
    have hencoding : (l.editor.react s).1.encoding = l.editor.encoding := by
      cases hflush : l.editor.flushes s with
      | true => exact (react_flushed s hflush hsound.owned hsound.active).1.encoding
      | false => exact (react_quiet s hallows hflush hsound.owned hsound.active).1.encoding
    exact .inl ⟨rfl, h.extend rfl hencoding (follow_synced s) rfl⟩
  · split at hstep
    · cases hstep
    · rename_i message rest hflight
      cases hstep
      refine .inr ⟨rfl, fun head tail howed => ?_⟩
      obtain rfl := hhead hflight howed
      subst howed
      exact h.arrive hnumbered hflight
  · split at hstep
    · cases hstep
    · rename_i message rest hflight
      cases hstep
      refine .inr ⟨rfl, fun head tail howed => ?_⟩
      obtain rfl := hhead hflight howed
      subst howed
      exact h.lose hflight

theorem Owes.run {ms : List Move} (h : l.Owes owed text) (hsound : l.Sound)
    (hrun : l.run maxPending ms = some l') (harrives : ms.countP Move.arrives = owed.length)
    (hsynced : l'.synced = true) : l'.copy.content = text := by
  induction ms generalizing l owed with
  | nil =>
    cases hrun
    obtain rfl : owed = [] := List.eq_nil_of_length_eq_zero harrives.symm
    exact h.current hsynced
  | cons m rest ih =>
    obtain ⟨next, hstep, hrest⟩ := Option.bind_eq_some_iff.mp hrun
    rw [List.countP_cons] at harrives
    rcases h.step hsound hstep with ⟨hstays, howes⟩ | ⟨hcomes, howes⟩
    · rw [hstays] at harrives
      exact ih howes (hsound.step hstep) hrest harrives
    · rw [hcomes, if_pos rfl] at harrives
      obtain ⟨head, tail, rfl⟩ := List.exists_cons_of_length_eq_add_one harrives.symm
      rw [List.length_cons] at harrives
      exact ih (howes head tail rfl) (hsound.step hstep) hrest (by omega)

theorem connect_sound (document : Document) (preference : Option Bool) (delay : Nat)
    (enc : Encoding) (owner : Option String) (now : Nat) (copy : WorkingCopy)
    (howned : document.Owned) (hbaseline : copy.lastApplied = none)
    (hpending : copy.pending = .empty) :
    (connect document preference delay enc owner now copy).Sound := by
  obtain ⟨mode, timer, heditor⟩ :=
    AutoSave.install_eq document preference delay enc owner now
  unfold connect
  rw [heditor]
  refine ⟨rfl, howned, ⟨1, rfl, rfl, ?_, ?_, ?_⟩, document.text, ⟨?_, trivial, ?_⟩, ?_⟩
  · intro last hlast
    rw [hbaseline] at hlast
    cases hlast
  · intro seq hseq
    rw [hpending] at hseq
    cases hseq
  · refine fun _ => ⟨hpending, fun last hlast => ?_⟩
    rw [hbaseline] at hlast
    cases hlast
  · exact List.prefix_rfl
  · intro hsynced
    have htext : copy.content = document.text := of_decide_eq_true hsynced
    exact htext
  · exact fun _ => rfl

/-- Once the messages of a flush have come in at a synchronized copy, it has the text that the
document had at the flush. -/
theorem content_after_flush (document : Document) (preference : Option Bool) (delay : Nat)
    (enc : Encoding) (owner : Option String) (now : Nat) (copy : WorkingCopy) (maxPending : Nat)
    (before after : List Move) (s : Stimulus) (p q r : Link) (howned : document.Owned)
    (hbaseline : copy.lastApplied = none) (hpending : copy.pending = .empty)
    (hbefore : (connect document preference delay enc owner now copy).run maxPending before = some p)
    (hflush : p.editor.flushes s = true) (hstep : p.step maxPending (.stimulus s) = some q)
    (hafter : q.run maxPending after = some r)
    (harrives : after.countP Move.arrives = q.inFlight.length) (hsynced : r.synced = true) :
    r.copy.content = q.editor.document.text := by
  have hp : p.Sound :=
    (connect_sound document preference delay enc owner now copy howned hbaseline hpending).run hbefore
  have hq : q.Owes q.inFlight q.editor.document.text := by
    rw [Link.step, Option.ite_none_right_eq_some, Option.some.injEq] at hstep
    obtain ⟨-, rfl⟩ := hstep
    exact (hp.follow_flushed s hflush).2
  exact hq.run (hp.step hstep) hafter harrives hsynced

theorem content_after_flush_recovered :
    let document : Document := ⟨"/p/a", "hello", false, some "/p", false, 0⟩
    let before : List Move := [.edit (.insertion "/p/a" 5 "!") 0, .stimulus (.tick 100), .lose,
      .stimulus (.event .trackingSuspended 110), .edit (.removal "/p/a" 0 1) 110,
      .stimulus (.event .trackingResumed 120), .edit (.insertion "/p/a" 0 "J") 130]
    let start := connect document none 100 .utf16 none 0 (.new ⟨"/p", "/p/a"⟩ "other")
    let after : List Move := [.edit (.insertion "/p/a" 6 "?") 240, .deliver]
    let p := (start.run 4 before).getD start
    let q := p.follow (.tick 230)
    let r := (q.run 4 after).getD q
    start.run 4 before = some p ∧ p.step 4 (.stimulus (.tick 230)) = some q ∧
      q.run 4 after = some r ∧ r.synced = true ∧ r.copy.content = q.editor.document.text ∧
      q.editor.document.text = "Jello!" := by
  intro document before start after p q r
  refine ⟨by decide, by decide, by decide, by decide, ?_, by decide⟩
  exact content_after_flush document none 100 .utf16 none 0 (.new ⟨"/p", "/p/a"⟩ "other") 4 before
    after (.tick 230) p q r (by decide) (by rfl) (by rfl) (by decide) (by decide) (by decide)
    (by decide) (by decide) (by decide)

end EditorSync.Editor.Link

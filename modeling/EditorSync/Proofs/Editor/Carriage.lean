import EditorSync.Proofs.Editor.Link

namespace EditorSync.Editor.Link

open Text (Encoding)
open AutoSave (Stimulus)

variable {enc : Encoding} {a : AutoSave} {text result sent : String}

def Carries (enc : Encoding) : String → List EditorChanges → String → Prop
  | text, [], result => text = result
  | text, message :: rest, result => ∃ delta next,
    message.toDelta = .ok delta ∧ delta.apply text enc = .ok next ∧ Carries enc next rest result

def Recovers (enc : Encoding) (text : String) : List EditorChanges → Prop
  | [] => True
  | message :: rest =>
    (∀ snapshot, message.toDelta = .ok (.replaceAll snapshot) → Carries enc snapshot rest text) ∧
      Recovers enc text rest

theorem carries_append {xs ys : List EditorChanges} (hxs : Carries enc text xs sent)
    (hys : Carries enc sent ys result) : Carries enc text (xs ++ ys) result := by
  induction xs generalizing text with
  | nil =>
    rw [Carries] at hxs
    exact hxs ▸ hys
  | cons message rest ih =>
    obtain ⟨delta, next, hdelta, happly, hrest⟩ := hxs
    exact ⟨delta, next, hdelta, happly, ih hrest⟩

theorem recovers_of_carries {messages : List EditorChanges} (h : Carries enc text messages result) :
    Recovers enc result messages := by
  induction messages generalizing text with
  | nil => trivial
  | cons message rest ih =>
    obtain ⟨delta, next, hdelta, happly, hrest⟩ := h
    refine ⟨fun snapshot hsnapshot => ?_, ih hrest⟩
    rw [hdelta, Except.ok.injEq] at hsnapshot
    subst hsnapshot
    rw [Delta.apply_replaceAll, Except.ok.injEq] at happly
    exact happly ▸ hrest

theorem recovers_append {xs ys : List EditorChanges} (hxs : Recovers enc sent xs)
    (hys : Carries enc sent ys result) : Recovers enc result (xs ++ ys) := by
  induction xs with
  | nil => exact recovers_of_carries hys
  | cons message rest ih =>
    exact ⟨fun snapshot hsnapshot => carries_append (hxs.1 snapshot hsnapshot) hys, ih hxs.2⟩

theorem carries_envelopes (a : AutoSave) (project : String)
    (howns : Path.isProperAncestor project a.document.location = true) (deltas : List Delta)
    (n : Nat) (h : Delta.replay enc text deltas = .ok result) :
    Carries enc text ((deltas.zipIdx n).map fun x => a.envelope project x.1 x.2) result := by
  induction deltas generalizing text n with
  | nil =>
    rw [Delta.replay_nil, Except.ok.injEq] at h
    exact h
  | cons delta rest ih =>
    obtain ⟨next, happly, hrest⟩ := (Delta.replay_cons_eq_ok_iff delta rest).mp h
    have hdelta : (a.envelope project delta n).toDelta = .ok delta :=
      EditorChanges.toDelta_ofDelta delta _ a.encoding _ howns (Delta.check_of_apply delta happly)
    exact ⟨delta, next, hdelta, happly, ih (n + 1) hrest⟩

theorem carries_snapshot (a : AutoSave) (project : String)
    (howns : Path.isProperAncestor project a.document.location = true) :
    Carries enc text [a.snapshot project] a.document.text :=
  ⟨.replaceAll a.document.text, a.document.text,
    EditorChanges.toDelta_ofDelta _ _ a.encoding _ howns rfl, rfl, rfl⟩

structure Kept (a b : AutoSave) : Prop where
  encoding : b.encoding = a.encoding
  text : b.document.text = a.document.text
  owned : b.document.Owned
  active : b.activeEditor = true

theorem allows_of_overrides {s : Stimulus} (hallows : Allows a s) (h : a.overrides s = true) :
    a.Streaming := by
  cases s with
  | event e now =>
    cases e with
    | activate | deactivate | settingsChanged => exact hallows
    | changed | trackingSuspended | trackingResumed | activePartChanged | save => cases h
  | tick | host | prefer => cases h

theorem react_quiet (s : Stimulus) (hallows : Allows a s) (hflush : a.flushes s = false)
    (howned : a.document.Owned) (hactive : a.activeEditor = true) :
    Kept a (a.react s).1 ∧ (a.react s).1.queue = a.queue ∧ (a.react s).1.nextSeq = a.nextSeq := by
  obtain ⟨mode, timer, hreact⟩ := AutoSave.react_learns s hflush
  rw [hreact]
  cases s with
  | event e now =>
    cases e with
    | changed change =>
      have hrefused : a.accepts (.event (.changed change) now) = [] := if_neg fun h => hallows h.1
      refine ⟨⟨rfl, rfl, howned, hactive⟩, ?_, rfl⟩
      rw [AutoSave.learn, hrefused]
      rfl
    | activePartChanged active => exact ⟨⟨rfl, rfl, howned, hallows⟩, rfl, rfl⟩
    | _ => exact ⟨⟨rfl, rfl, howned, hactive⟩, rfl, rfl⟩
  | host document => exact ⟨⟨rfl, hallows.1, hallows.2, hactive⟩, rfl, rfl⟩
  | tick | prefer => exact ⟨⟨rfl, rfl, howned, hactive⟩, rfl, rfl⟩

theorem streaming_of_react_quiet (s : Stimulus) (hallows : Allows a s) (hflush : a.flushes s = false)
    (h : (a.react s).1.Streaming) : a.Streaming := by
  obtain ⟨hidle, -⟩ := AutoSave.react_idle s hflush
  generalize (a.react s).1 = b at hidle h
  cases hidle with
  | kept same _ => simpa only [AutoSave.Streaming, same] using h
  | overridden _ switched => exact allows_of_overrides hallows switched
  | suspended now asleep => rcases h with h | h <;> rw [asleep] at h <;> cases h
  | resumed now resuming => rcases h with h | h <;> rw [resuming] at h <;> cases h

structure Flushed (a b : AutoSave) (messages : List EditorChanges) : Prop where
  queue : b.queue = .empty
  carries : ∀ sent, (a.Streaming →
      Delta.replay a.encoding sent a.queue.deltas = .ok a.document.text) →
    Carries a.encoding sent messages a.document.text
  numbers : messages.map (·.seq) = (List.range' a.nextSeq messages.length).map some
  next : b.nextSeq = a.nextSeq + messages.length

theorem numbers_envelopes (a : AutoSave) (project : String) (deltas : List Delta) (n : Nat) :
    ((deltas.zipIdx n).map fun x => a.envelope project x.1 x.2).map (·.seq) =
      (List.range' n deltas.length).map some := by
  induction deltas generalizing n with
  | nil => rfl
  | cons delta rest ih =>
    rw [List.zipIdx_cons, List.map_cons, List.map_cons, ih, List.length_cons, List.range'_succ,
      List.map_cons]
    rfl

theorem react_flushed (s : Stimulus) (hflush : a.flushes s = true) (howned : a.document.Owned)
    (hactive : a.activeEditor = true) :
    Kept a (a.react s).1 ∧ Flushed a (a.react s).1 (a.react s).2 := by
  obtain ⟨hmode, -, timer, hreact⟩ := AutoSave.react_flush s hflush
  obtain ⟨project, hproject, howns⟩ := howned
  have hsaves := AutoSave.saves_save { a with timer := timer }
  rw [← hreact] at hsaves
  generalize (a.react s).1 = b, (a.react s).2 = messages at hsaves
  cases hsaves with
  | ignored suspended => exact absurd suspended hmode
  | dropped _ stray =>
    rw [hproject] at stray
    cases stray
  | @snapshot project' _ owned =>
    obtain rfl : project' = project := by simpa [hproject] using owned.symm
    exact ⟨⟨rfl, rfl, ⟨project', hproject, howns⟩, hactive⟩, rfl,
      fun _ _ => carries_snapshot a project' howns, rfl, rfl⟩
  | @streamed project' streaming owned =>
    obtain rfl : project' = project := by simpa [hproject] using owned.symm
    refine ⟨⟨rfl, AutoSave.saveDocument_text, ⟨project', ?_, ?_⟩, hactive⟩, rfl, ?_, ?_, ?_⟩
    · exact AutoSave.saveDocument_project.trans hproject
    · exact (congrArg _ AutoSave.saveDocument_location).trans howns
    · exact fun sent hqueue => carries_envelopes a project' howns _ _ (hqueue streaming)
    · rw [List.length_map, List.length_zipIdx]
      exact numbers_envelopes _ project' _ _
    · simp only [List.length_map, List.length_zipIdx]

end EditorSync.Editor.Link

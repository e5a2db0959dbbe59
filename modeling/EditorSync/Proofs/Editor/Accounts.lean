import EditorSync.Proofs.Editor.Carriage

namespace EditorSync.Editor

open AutoSave (Stimulus)

variable {a : AutoSave} {s : Stimulus}

namespace AutoSave

def purges (a : AutoSave) (s : Stimulus) : Bool :=
  a.flushes s && (a.mode = .resuming || a.document.project.isNone)

theorem accepts_of_flushes (h : a.flushes s = true) : a.accepts s = [] := by
  unfold flushes at h
  split at h
  · rfl
  · rfl
  · cases h

structure Empties (a b : AutoSave) (purging : Bool) (messages : List EditorChanges) : Prop where
  emptied : b.queue = .empty
  sent : ∃ project deltas, b.nextSeq = a.nextSeq + deltas.length ∧
    messages = ((deltas.zipIdx a.nextSeq).map fun x => a.envelope project x.1 x.2) ∧
    (purging = false → deltas = a.queue.deltas)
  purged : purging = true → messages = (a.document.project.map a.snapshot).toList

theorem react_empties (s : Stimulus) (h : a.flushes s = true) :
    Empties a (a.react s).1 (a.purges s) (a.react s).2 := by
  obtain ⟨hmode, -, timer, hreact⟩ := react_flush s h
  have hpurges : a.purges s = (decide (a.mode = .resuming) || a.document.project.isNone) := by
    rw [purges, h, Bool.true_and]
  have hsaves := saves_save { a with timer := timer }
  rw [← hreact] at hsaves
  generalize (a.react s).1 = b, (a.react s).2 = messages, a.purges s = purging at hsaves hpurges ⊢
  cases hsaves with
  | ignored suspended => exact absurd suspended hmode
  | @snapshot project resuming owned =>
    have howned : a.document.project = some project := owned
    have hresuming : a.mode = .resuming := resuming
    refine ⟨rfl, ⟨project, [.replaceAll a.document.text], rfl, rfl, fun hkept => ?_⟩, fun _ => ?_⟩
    · simp [hpurges, hresuming] at hkept
    · rw [howned]
      rfl
  | dropped _ stray =>
    have hstray : a.document.project = none := stray
    refine ⟨rfl, ⟨"", [], rfl, rfl, fun hkept => ?_⟩, fun _ => ?_⟩
    · simp [hpurges, hstray] at hkept
    · rw [hstray]
      rfl
  | @streamed project streaming owned =>
    refine ⟨rfl, ⟨project, a.queue.deltas, rfl, rfl, fun _ => rfl⟩, fun hpurged => ?_⟩
    have howned : a.document.project = some project := owned
    have hstreaming : a.mode = .activated ∨ a.mode = .deactivated := streaming
    rcases hstreaming with hmode | hmode <;> simp [hpurges, howned, hmode] at hpurged

theorem react_numbers (a : AutoSave) (s : Stimulus) :
    (a.react s).2.map (·.seq) = (List.range' a.nextSeq (a.react s).2.length).map some ∧
      (a.react s).1.nextSeq = a.nextSeq + (a.react s).2.length := by
  cases hflush : a.flushes s with
  | false =>
    rw [(react_idle s hflush).2]
    exact ⟨rfl, (react_queues s hflush).2⟩
  | true =>
    obtain ⟨project, deltas, hnext, hmessages, -⟩ := (react_empties s hflush).sent
    rw [hnext, hmessages, List.length_map, List.length_zipIdx]
    exact ⟨Link.numbers_envelopes a project deltas a.nextSeq, rfl⟩

theorem run_numbers (a : AutoSave) (stimuli : List Stimulus) :
    (a.run stimuli).2.map (·.seq) =
      (List.range' a.nextSeq (a.run stimuli).2.length).map some := by
  induction stimuli generalizing a with
  | nil => rfl
  | cons s rest ih =>
    obtain ⟨hnumbers, hnext⟩ := react_numbers a s
    rw [run_cons, List.map_append, List.length_append, hnumbers, ih, hnext, ← List.map_append,
      List.range'_append_1]

theorem deltas_envelopes (a : AutoSave) (project : String) (deltas : List Delta) (n : Nat) :
    ((deltas.zipIdx n).map fun x => a.envelope project x.1 x.2).map (·.delta?) =
      deltas.map some := by
  induction deltas generalizing n with
  | nil => rfl
  | cons delta rest ih =>
    have hdelta : (a.envelope project delta n).delta? = some delta :=
      EditorChanges.delta?_ofDelta delta _ _ _
    rw [List.zipIdx_cons, List.map_cons, List.map_cons, ih, hdelta, List.map_cons]

end AutoSave

structure Account where
  editor : AutoSave
  sent : List EditorChanges
  accepted : List Delta
  deriving DecidableEq, Repr

namespace Account

def follow (c : Account) (s : Stimulus) : Account :=
  let (editor, messages) := c.editor.react s
  if c.editor.purges s then ⟨editor, [], []⟩
  else ⟨editor, c.sent ++ messages, c.accepted ++ c.editor.accepts s⟩

def run (c : Account) (stimuli : List Stimulus) : Account := stimuli.foldl follow c

/-- What has been sent and what is queued are the accepted deltas, in their order. -/
def Balanced (c : Account) : Prop :=
  c.sent.map (·.delta?) ++ c.editor.queue.deltas.map some = c.accepted.map some

theorem follow_of_purges {c : Account} (h : c.editor.purges s = true) :
    c.follow s = ⟨(c.editor.react s).1, [], []⟩ := if_pos h

theorem follow_of_keeps {c : Account} (h : c.editor.purges s = false) :
    c.follow s = ⟨(c.editor.react s).1, c.sent ++ (c.editor.react s).2,
      c.accepted ++ c.editor.accepts s⟩ := if_neg (Bool.eq_false_iff.mp h)

theorem Balanced.follow {c : Account} (h : c.Balanced) (s : Stimulus) : (c.follow s).Balanced := by
  cases hflush : c.editor.flushes s with
  | false =>
    have hkept : c.editor.purges s = false := by rw [AutoSave.purges, hflush, Bool.false_and]
    rw [follow_of_keeps hkept, Balanced, (AutoSave.react_idle s hflush).2,
      (AutoSave.react_queues s hflush).1, List.append_nil, List.map_append, List.map_append,
      ← List.append_assoc, h]
  | true =>
    obtain ⟨hqueue, ⟨project, deltas, -, hmessages, hdeltas⟩, -⟩ :=
      AutoSave.react_empties s hflush
    cases hpurge : c.editor.purges s with
    | true =>
      rw [follow_of_purges hpurge, Balanced, hqueue]
      rfl
    | false =>
      rw [follow_of_keeps hpurge, Balanced, hqueue, hmessages, hdeltas hpurge, List.map_append,
        AutoSave.deltas_envelopes, h, AutoSave.accepts_of_flushes hflush]
      simp [DirtyQueue.deltas, DirtyQueue.empty]

theorem balanced_run {c : Account} (h : c.Balanced) (stimuli : List Stimulus) :
    (c.run stimuli).Balanced := by
  induction stimuli generalizing c with
  | nil => exact h
  | cons s rest ih => exact ih (h.follow s)

theorem run_eq (c : Account) (stimuli : List Stimulus) :
    (c.run stimuli).editor = (c.editor.run stimuli).1 ∧
      (c.run stimuli).sent <:+ c.sent ++ (c.editor.run stimuli).2 := by
  induction stimuli generalizing c with
  | nil => exact ⟨rfl, (List.append_nil c.sent).symm ▸ List.suffix_rfl⟩
  | cons s rest ih =>
    have hrun : c.run (s :: rest) = (c.follow s).run rest := rfl
    obtain ⟨heditor, hsent⟩ := ih (c.follow s)
    rw [hrun, AutoSave.run_cons]
    cases hpurge : c.editor.purges s with
    | true =>
      rw [follow_of_purges hpurge] at heditor hsent ⊢
      refine ⟨heditor, hsent.trans ⟨c.sent ++ (c.editor.react s).2, ?_⟩⟩
      rw [List.nil_append, List.append_assoc]
    | false =>
      rw [follow_of_keeps hpurge] at heditor hsent ⊢
      rw [← List.append_assoc]
      exact ⟨heditor, hsent⟩

def opened (a : AutoSave) : Account := ⟨a, [], []⟩

end Account

/-- The messages of an editor are numbered from 1. At any moment, the deltas that it has sent since
it gave up its queue the last time, and those in the queue, are the deltas of the edits that it has
accepted since then. When it gives up its queue, it sends a snapshot, or nothing if it has no
project. -/
theorem accounts_of_run (document : Document) (preference : Option Bool) (delay : Nat)
    (enc : Text.Encoding) (owner : Option String) (now : Nat) (stimuli : List Stimulus) :
    let a := AutoSave.install document preference delay enc owner now
    let b := (a.run stimuli).1
    let c := (Account.opened a).run stimuli
    (a.run stimuli).2.map (·.seq) = (List.range' 1 (a.run stimuli).2.length).map some ∧
      c.editor = b ∧ c.sent <:+ (a.run stimuli).2 ∧
      c.sent.map (·.delta?) ++ b.queue.deltas.map some = c.accepted.map some ∧
      (∀ s, b.purges s = true → (b.react s).1.queue = .empty ∧
        (b.react s).2 = (b.document.project.map b.snapshot).toList) ∧
      ∀ change now, change.document = b.document.location → b.mode ≠ .suspended →
        b.activeEditor = true → change.removed ≠ 0 → change.text ≠ "" →
          b.accepts (.event (.changed change) now) =
            [.remove change.offset change.removed, .insert change.offset change.text] := by
  intro a b c
  obtain ⟨mode, timer, hinstall⟩ := AutoSave.install_eq document preference delay enc owner now
  have hfirst : a.nextSeq = 1 := congrArg (·.nextSeq) hinstall
  have hqueue : a.queue = .empty := congrArg (·.queue) hinstall
  obtain ⟨heditor, hsent⟩ := Account.run_eq (.opened a) stimuli
  have hopened : (Account.opened a).Balanced := by
    change [] ++ a.queue.deltas.map some = []
    rw [hqueue]
    rfl
  refine ⟨hfirst ▸ a.run_numbers stimuli, heditor, hsent, ?_, fun s hs => ?_, ?_⟩
  · have hbalanced := Account.balanced_run hopened stimuli
    rw [Account.Balanced, heditor] at hbalanced
    exact hbalanced
  · have hempties := AutoSave.react_empties (a := b) s (Bool.and_eq_true_iff.mp hs).1
    exact ⟨hempties.emptied, hempties.purged hs⟩
  · intro change now hown hawake hactive hremoves hinserts
    rw [AutoSave.accepts, if_pos ⟨hown, hawake, hactive⟩, DocumentChange.toDeltas,
      if_neg hremoves, if_neg hinserts]
    rfl

example :
    let a := AutoSave.install ⟨"/p/a", "x", false, some "/p", false, 0⟩ none 100 .utf16 none 0
    let c := (Account.opened a).run
      [.event (.changed (.replacement "/p/a" 0 1 "y")) 1, .event .save 2,
        .event (.changed (.insertion "/p/a" 1 "z")) 3]
    c.sent.map (·.delta?) = [some (.remove 0 1), some (.insert 0 "y")] ∧
      c.editor.queue.deltas = [.insert 1 "z"] := by
  decide

end EditorSync.Editor

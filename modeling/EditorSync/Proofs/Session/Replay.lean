import Mathlib.Data.List.Nodup
import Mathlib.Data.List.Sort
import Mathlib.Data.String.Basic
import EditorSync.Proofs.Session.Entry
import EditorSync.Proofs.Tracking
import EditorSync.Session.Directory

namespace EditorSync.Session

def Event.isTracking : Event → Bool
  | tracking .. => true
  | _ => false

def Event.retrack (tracked : List String) : Event → List String
  | .tracking path operation oldPath => Stats.trackedAfter tracked path operation oldPath
  | _ => tracked

variable {tracked files : List String} {t : Tracking} {path dir : String}
variable {oldPath : Option String}

namespace Stats

theorem tracked_add (s : Stats) (e : Event) : (s.add e).tracked = Event.retrack s.tracked e := by
  cases e <;> rfl

theorem tracked_foldl_add (s : Stats) (events : List Event) :
    (events.foldl add s).tracked = events.foldl Event.retrack s.tracked := by
  induction events generalizing s with
  | nil => rfl
  | cons e events ih => rw [List.foldl_cons, ih, tracked_add, List.foldl_cons]

theorem foldl_retrack_filter (events : List Event) (tracked : List String) :
    (events.filter Event.isTracking).foldl Event.retrack tracked =
      events.foldl Event.retrack tracked := by
  induction events generalizing tracked with
  | nil => rfl
  | cons e events ih => cases e <;> exact ih _

theorem tracked_ofEvents (events : List Event) : (ofEvents events).tracked =
    sort ((events.filter Event.isTracking).foldl Event.retrack []) := by
  rw [foldl_retrack_filter]
  exact congrArg sort (tracked_foldl_add empty events)

theorem sort_eq_of_perm {names names' : List String} (h : names.Perm names') :
    sort names = sort names' := by
  have hsort (names : List String) : (sort names).Perm names := List.mergeSort_perm names _
  have hsame := ((hsort names).trans h).trans (hsort names').symm
  exact hsame.eq_of_sortedLE List.sortedLE_mergeSort List.sortedLE_mergeSort

theorem foldl_delete (files tracked : List String) :
    (files.map fun file => .tracking file "delete" none).foldl Event.retrack tracked =
      tracked.filter (· ∉ files) := by
  induction files generalizing tracked with
  | nil => simp
  | cons file files ih =>
    have hdelete : Event.retrack tracked (.tracking file "delete" none) =
        tracked.filter (· ≠ file) := rfl
    rw [List.map_cons, List.foldl_cons, hdelete, ih, List.filter_filter]
    simp [Bool.and_comm]

theorem mem_trackedAfter_start {file : String} :
    file ∈ trackedAfter tracked path "start" oldPath ↔ file = path ∨ file ∈ tracked := by
  simp [trackedAfter]

end Stats

structure Mirrors (tracked : List String) (t : Tracking) : Prop where
  nodup : tracked.Nodup
  mem_iff : ∀ file, file ∈ tracked ↔ (t.state? file).isSome

namespace Mirrors

theorem empty : Mirrors [] .empty :=
  ⟨List.nodup_nil, fun _ => by simp [Tracking.state?, Tracking.session?, Tracking.empty]⟩

theorem start (h : Mirrors tracked t) (path : String) (oldPath : Option String) :
    Mirrors (Stats.trackedAfter tracked path "start" oldPath) (t.start path) := by
  constructor
  · exact List.Nodup.insert h.nodup
  · intro file
    rw [Stats.mem_trackedAfter_start, Tracking.state?_start, h.mem_iff]
    split <;> simp_all

theorem restart (h : Mirrors tracked t) (hsome : (t.state? path).isSome) :
    Mirrors tracked (t.start path) := by
  refine ⟨h.nodup, fun file => ?_⟩
  rw [h.mem_iff, Tracking.state?_start]
  split
  · rename_i hfile
    simp [hfile, hsome]
  · rfl

theorem stop (h : Mirrors tracked t) (path : String) :
    Mirrors (tracked.filter (· ≠ path)) (t.stop path) := by
  constructor
  · exact h.nodup.filter _
  · intro file
    rw [List.mem_filter, Tracking.state?_stop, h.mem_iff]
    split <;> simp_all

theorem setState (h : Mirrors tracked t) (path : String) (state : Tracking.State) :
    Mirrors tracked (t.setState path state) := by
  refine ⟨h.nodup, fun file => ?_⟩
  rw [h.mem_iff, Tracking.isSome_state?_setState]

theorem rename (h : Mirrors tracked t) (old new : String) :
    Mirrors (Stats.trackedAfter tracked new "move" (some old)) (t.rename old new) := by
  by_cases hold : old ∈ tracked
  · have hmoved : Stats.trackedAfter tracked new "move" (some old) =
        (tracked.filter (· ≠ old)).insert new := if_pos hold
    rw [hmoved]
    constructor
    · exact List.Nodup.insert (h.nodup.filter _)
    · intro file
      rw [h.mem_iff] at hold
      rw [List.mem_insert_iff, List.mem_filter, h.mem_iff, Tracking.state?_rename]
      by_cases hnew : file = new
      · simp [hnew, hold]
      · rw [if_neg hnew]
        by_cases hfile : file = old
        · subst hfile
          simp [hnew]
        · simp [hnew, hfile]
  · have hsame : Stats.trackedAfter tracked new "move" (some old) = tracked := if_neg hold
    rw [h.mem_iff, Option.not_isSome_iff_eq_none] at hold
    rwa [hsame, Tracking.rename_of_state?_eq_none _ _ hold]

theorem removeUnder (h : Mirrors tracked t)
    (hfiles : ∀ file, (t.state? file).isSome → (Tracking.isUnder dir file ↔ file ∈ files)) :
    Mirrors (tracked.filter (· ∉ files)) (t.removeUnder dir) := by
  constructor
  · exact h.nodup.filter _
  · intro file
    rw [List.mem_filter, h.mem_iff, Tracking.state?_removeUnder, decide_eq_true_eq]
    by_cases hsome : (t.state? file).isSome
    · rw [← hfiles file hsome]
      split <;> simp_all
    · rw [Option.not_isSome_iff_eq_none] at hsome
      simp [hsome]

theorem sort_eq (h : Mirrors tracked t) : Stats.sort tracked = t.paths := by
  apply Stats.sort_eq_of_perm
  apply (List.perm_ext_iff_of_nodup h.nodup t.sessions.nodup).mpr
  intro file
  rw [h.mem_iff]
  rw [Tracking.state?, Option.isSome_map]
  exact (t.sessions.mem_keys_iff file).symm

end Mirrors

theorem Directory.stats_of_log {d : Directory} {disk : Disk} {id : String} {written : List Entry}
    (hsound : ∀ entry ∈ written, entry.Sound)
    (hlog : d.log disk id = .ok (written.flatMap Entry.toLine)) :
    d.stats disk id = .ofEvents (written.map (·.event)) := by
  have hentries : d.entries disk id = .ok written := by
    rw [Directory.entries, hlog, Except.map, entries_flatMap_toLine hsound]
  unfold Directory.stats
  rw [hentries]

end EditorSync.Session

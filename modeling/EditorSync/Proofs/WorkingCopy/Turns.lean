import EditorSync.Proofs.WorkingCopy.Transitions

namespace EditorSync.WorkingCopy

open Text (Encoding)

variable {enc : Encoding} {maxPending : Nat} {w w' : WorkingCopy} {delta : Delta}
variable {pending : Table Nat Delta} {last : Nat}

def turns (pending : Table Nat Delta) (last count : Nat) : List Delta :=
  (((List.range' (last + 1) count).map pending.get?).takeWhile Option.isSome).filterMap id

def textsAfter (enc : Encoding) (text : String) : List Delta → List String
  | [] => []
  | delta :: rest =>
    match delta.apply text enc with
    | .ok next => next :: textsAfter enc next rest
    | .error _ => textsAfter enc text rest

def IsDue (w : WorkingCopy) (delta : Delta) (seq : Nat) : Prop :=
  ∀ last, w.lastApplied = some last →
    last < seq ∧ (delta.kind ≠ .replaceAll → seq = last + 1)

instance (w : WorkingCopy) (delta : Delta) (seq : Nat) : Decidable (w.IsDue delta seq) :=
  match h : w.lastApplied with
  | none => isTrue fun last hlast => by cases h.symm.trans hlast
  | some last =>
    decidable_of_iff (last < seq ∧ (delta.kind ≠ .replaceAll → seq = last + 1)) <| by
      simp only [IsDue, h, Option.some.injEq, forall_eq']

/-- The text right after each delta that reaches a working copy when one is delivered: after the
delivered one, and after those that waited for it. -/
def textsOnDelivery (w : WorkingCopy) (enc : Encoding) (delta : Delta) :
    Option Nat → List String
  | none => textsAfter enc w.content [delta]
  | some seq =>
    let waiting := w.pending.filter fun n _ => seq < n
    match delta.apply w.content enc with
    | .ok text =>
      if w.IsDue delta seq then text :: textsAfter enc text (turns waiting seq waiting.size) else []
    | .error _ => []

theorem turns_of_missing (count : Nat) (h : pending.get? (last + 1) = none) :
    turns pending last count = [] := by
  cases count with
  | zero => rfl
  | succ count =>
    rw [turns, List.range'_succ, List.map_cons, h]
    rfl

theorem turns_succ (count : Nat) (h : pending.get? (last + 1) = some delta) :
    turns pending last (count + 1) =
      delta :: turns (pending.erase (last + 1)) (last + 1) count := by
  have hlater : ∀ n ∈ List.range' (last + 2) count,
      pending.get? n = (pending.erase (last + 1)).get? n := by
    intro n hn
    have hne : n ≠ last + 1 := by
      have := (List.mem_range'_1.mp hn).1
      omega
    rw [Table.get?_erase, if_neg hne]
  rw [turns, List.range'_succ, List.map_cons, h, List.map_congr_left hlater]
  rfl

theorem contents_drainWith (fuel : Nat) (w : WorkingCopy) (hlast : w.lastApplied = some last) :
    (drainWith enc fuel w).2.map (·.content) =
      textsAfter enc w.content (turns w.pending last fuel) := by
  induction fuel generalizing w last with
  | zero => rfl
  | succ fuel ih =>
    rw [drainWith]
    cases hnext : w.pending.get? (last + 1) with
    | none =>
      simp only [hlast, hnext]
      rw [turns_of_missing _ hnext]
      rfl
    | some delta =>
      simp only [hlast, hnext, patch]
      rw [turns_succ fuel hnext, textsAfter]
      cases delta.apply w.content enc with
      | ok content => exact congrArg (content :: ·) (ih _ rfl)
      | error e => exact ih _ rfl

theorem contents_of_apply (seq : Option Nat) (applied : List Applied)
    (h : w.apply delta seq enc maxPending = .ok (w', applied)) :
    applied.map (·.content) = w.textsOnDelivery enc delta seq := by
  cases takes_of_apply seq applied h with
  | unnumbered fits => simp only [textsOnDelivery, textsAfter, fits, List.map_cons, List.map_nil]
  | @held seq last baseline early incremental =>
    have hnot : ¬ w.IsDue delta seq := by
      intro hdue
      have := (hdue last baseline).2 incremental
      omega
    simp only [textsOnDelivery, if_neg hnot, List.map_nil]
    split <;> rfl
  | @advanced seq content due fits =>
    simp only [textsOnDelivery, fits, List.map_cons]
    rw [if_pos (show w.IsDue delta seq from due)]
    exact congrArg (content :: ·) (contents_drainWith _ _ rfl)

theorem textsOnDelivery_of_error {e : SyncError} (seq : Option Nat)
    (h : w.apply delta seq enc maxPending = .error e) :
    w.textsOnDelivery enc delta seq = [] := by
  have hnone (w' : WorkingCopy) (applied : List Applied) :
      ¬ Takes w delta enc maxPending seq w' applied := by
    intro htakes
    rw [apply_of_takes seq applied htakes] at h
    cases h
  cases hfits : delta.apply w.content enc with
  | error e => cases seq <;> simp only [textsOnDelivery, textsAfter, hfits]
  | ok content =>
    cases seq with
    | none => exact absurd (.unnumbered hfits) (hnone _ _)
    | some seq =>
      have hnot : ¬ w.IsDue delta seq := fun hdue => hnone _ _ (.advanced hdue hfits)
      simp only [textsOnDelivery, hfits, if_neg hnot]

end EditorSync.WorkingCopy

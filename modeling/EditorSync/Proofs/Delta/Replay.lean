import EditorSync.Delta

namespace EditorSync.Delta

open Text (Encoding)

variable {enc : Encoding} {content result : String}

def replay (enc : Encoding) : String → List Delta → Except Rejection String
  | content, [] => .ok content
  | content, delta :: deltas =>
    match delta.apply content enc with
    | .ok content => replay enc content deltas
    | .error e => .error e

@[simp] theorem replay_nil : replay enc content [] = .ok content := rfl

theorem replay_cons_eq_ok_iff (delta : Delta) (deltas : List Delta) :
    replay enc content (delta :: deltas) = .ok result ↔
      ∃ next, delta.apply content enc = .ok next ∧ replay enc next deltas = .ok result := by
  rw [replay]
  cases delta.apply content enc with
  | ok next => simp
  | error e => simp

theorem replay_append_eq_ok_iff (xs ys : List Delta) :
    replay enc content (xs ++ ys) = .ok result ↔
      ∃ mid, replay enc content xs = .ok mid ∧ replay enc mid ys = .ok result := by
  induction xs generalizing content with
  | nil => simp
  | cons x xs ih =>
    simp only [List.cons_append, replay_cons_eq_ok_iff, ih]
    constructor
    · rintro ⟨next, hx, mid, hxs, hys⟩
      exact ⟨mid, ⟨next, hx, hxs⟩, hys⟩
    · rintro ⟨mid, ⟨next, hx, hxs⟩, hys⟩
      exact ⟨next, hx, mid, hxs, hys⟩

@[simp] theorem apply_replaceAll (text : String) :
    (replaceAll text).apply content enc = .ok text := rfl

theorem replay_step (deltas : List Delta) (i : Nat) (delta : Delta)
    (h : replay enc content deltas = .ok result) (hi : deltas[i]? = some delta) :
    ∃ before after, replay enc content (deltas.take i) = .ok before ∧
      delta.apply before enc = .ok after ∧
      replay enc content (deltas.take (i + 1)) = .ok after := by
  obtain ⟨hlt, hget⟩ := List.getElem?_eq_some_iff.mp hi
  have htake : deltas.take (i + 1) = deltas.take i ++ [delta] := by
    rw [List.take_add_one, hi, Option.toList_some]
  rw [← List.take_append_drop (i + 1) deltas] at h
  obtain ⟨after, hafter, -⟩ := (replay_append_eq_ok_iff _ _).mp h
  have hafter' := hafter
  rw [htake] at hafter'
  obtain ⟨before, hbefore, hone⟩ := (replay_append_eq_ok_iff _ _).mp hafter'
  obtain ⟨next, hnext, hnil⟩ := (replay_cons_eq_ok_iff _ _).mp hone
  rw [replay_nil, Except.ok.injEq] at hnil
  exact ⟨before, after, hbefore, hnil ▸ hnext, hafter⟩

end EditorSync.Delta

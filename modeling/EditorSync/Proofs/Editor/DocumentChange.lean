import EditorSync.Editor.DocumentChange
import EditorSync.Proofs.Delta.Apply
import EditorSync.Proofs.Delta.Replay

namespace EditorSync.Editor.DocumentChange

open Text (Encoding)

variable {enc : Encoding} {text edited : String} {change : DocumentChange}

def on? (change : DocumentChange) (text : String) (enc : Encoding) : Option String := do
  let (before, rest) ← enc.cut? text.toList change.offset
  let (_, after) ← enc.cut? rest change.removed
  if change.offset + change.removed < Delta.offsetLimit then
    some (String.ofList (before ++ change.text.toList ++ after))
  else none

theorem on?_eq_some_iff :
    change.on? text enc = some edited ↔
      ∃ before middle after, enc.cut? text.toList change.offset = some (before, middle ++ after) ∧
        enc.span middle = change.removed ∧
        change.offset + change.removed < Delta.offsetLimit ∧
        edited = String.ofList (before ++ change.text.toList ++ after) := by
  simp only [on?, Option.bind_eq_bind, Option.bind_eq_some_iff, Prod.exists,
    Encoding.cut?_eq_some_iff, Option.ite_none_right_eq_some, Option.some.injEq]
  constructor
  · rintro ⟨before, rest, hcut, middle, after, ⟨rfl, hspan⟩, hlimit, rfl⟩
    exact ⟨before, middle, after, hcut, hspan, hlimit, rfl⟩
  · rintro ⟨before, middle, after, hcut, hspan, hlimit, rfl⟩
    exact ⟨before, middle ++ after, hcut, middle, after, ⟨rfl, hspan⟩, hlimit, rfl⟩

theorem replay_toDeltas (h : change.on? text enc = some edited) :
    Delta.replay enc text change.toDeltas = .ok edited := by
  obtain ⟨before, middle, after, hcut, hspan, hlimit, rfl⟩ := on?_eq_some_iff.mp h
  have hremoval : Delta.replay enc text
      (if change.removed = 0 then [] else [.remove change.offset change.removed]) =
        .ok (String.ofList (before ++ after)) := by
    split
    · rename_i hzero
      have hmiddle : middle = [] := by
        cases middle with
        | nil => rfl
        | cons c cs =>
          have := enc.width_pos c
          simp only [Encoding.span_cons] at hspan
          omega
      have hlist := ((enc.cut?_eq_some_iff _ _ _ _).mp hcut).1
      rw [hmiddle, List.nil_append] at hlist
      rw [Delta.replay_nil, ← hlist, String.ofList_toList]
    · rename_i hremoves
      have happly := Delta.apply_remove hcut hspan hremoves hlimit
      exact (Delta.replay_cons_eq_ok_iff _ _).mpr ⟨_, happly, rfl⟩
  have hinsertion : Delta.replay enc (String.ofList (before ++ after))
      (if change.text = "" then [] else [.insert change.offset change.text]) =
        .ok (String.ofList (before ++ change.text.toList ++ after)) := by
    split
    · rename_i hempty
      rw [Delta.replay_nil, hempty, String.toList_empty, List.append_nil]
    · rename_i htext
      have hbefore := ((enc.cut?_eq_some_iff _ _ _ _).mp hcut).2
      have hcut' : enc.cut? (String.ofList (before ++ after)).toList change.offset =
          some (before, after) := by
        rw [String.toList_ofList]
        exact (enc.cut?_eq_some_iff _ _ _ _).mpr ⟨rfl, hbefore⟩
      exact (Delta.replay_cons_eq_ok_iff _ _).mpr ⟨_, Delta.apply_insert hcut' htext, rfl⟩
  exact (Delta.replay_append_eq_ok_iff _ _).mpr ⟨_, hremoval, hinsertion⟩

end EditorSync.Editor.DocumentChange

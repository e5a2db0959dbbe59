import EditorSync.Proofs.Delta.Splice
import EditorSync.Proofs.Editor.DocumentChange

namespace EditorSync.Editor.DocumentChange

open Text (Encoding encode)

variable {enc : Encoding} {content : String} {change : DocumentChange}

def Within (change : DocumentChange) (enc : Encoding) (content : String) : Prop :=
  change.offset + change.removed ≤ (enc.units content).length ∧
    ¬ enc.Splits content change.offset ∧ ¬ enc.Splits content (change.offset + change.removed)

theorem within_iff : change.Within enc content ↔ ∃ before middle after,
    enc.cut? content.toList change.offset = some (before, middle ++ after) ∧
      enc.span middle = change.removed := by
  constructor
  · rintro ⟨hend, hfirst, hlast⟩
    obtain ⟨before, rest, hcut⟩ := (enc.exists_cut?_iff content change.offset).mpr ⟨by omega, hfirst⟩
    obtain ⟨upTo, after, hcut'⟩ := (enc.exists_cut?_iff content _).mpr ⟨hend, hlast⟩
    obtain ⟨middle, rfl, hspan⟩ := Delta.exists_middle hcut hcut'
    exact ⟨before, middle, after, hcut, hspan⟩
  · rintro ⟨before, middle, after, hcut, hspan⟩
    have hfirst := (enc.exists_cut?_iff content _).mp ⟨_, _, hcut⟩
    have hlast := (enc.exists_cut?_iff content _).mp ⟨_, _, Delta.cut?_add hcut hspan⟩
    exact ⟨hlast.1, hfirst.2, hlast.2⟩

theorem replay_of_within (hsize : (encode content).length < Delta.offsetLimit)
    (h : change.Within enc content) : ∃ edited,
      Delta.replay enc content change.toDeltas = .ok edited ∧
      enc.units edited = (enc.units content).take change.offset ++ enc.units change.text ++
        (enc.units content).drop (change.offset + change.removed) := by
  have hunits := enc.length_units_le content
  have hlimit : change.offset + change.removed < Delta.offsetLimit := by
    have hend := h.1
    omega
  obtain ⟨before, middle, after, hcut, hspan⟩ := within_iff.mp h
  refine ⟨_, replay_toDeltas (on?_eq_some_iff.mpr ⟨before, middle, after, hcut, hspan, hlimit, rfl⟩),
    ?_⟩
  obtain ⟨hfirst, hoffset⟩ := (enc.cut?_eq_some_iff _ _ _ _).mp hcut
  obtain ⟨hlast, hstop⟩ := (enc.cut?_eq_some_iff _ _ _ _).mp (Delta.cut?_add hcut hspan)
  rw [← hstop, Encoding.drop_units hlast, ← hoffset, Encoding.take_units hfirst,
    String.ofList_append, String.ofList_append, String.ofList_toList, Encoding.units_append,
    Encoding.units_append]

theorem toDeltas_eq_nil_iff : change.toDeltas = [] ↔ change.removed = 0 ∧ change.text = "" := by
  rw [toDeltas, List.append_eq_nil_iff]
  split <;> split <;> simp [*]

theorem within_of_first_fits {first : Delta} {rest : List Delta}
    (hfirst : change.toDeltas = first :: rest) (h : first.Fits enc content) :
    change.Within enc content := by
  unfold toDeltas at hfirst
  by_cases hremoved : change.removed = 0
  · rw [if_pos hremoved, List.nil_append] at hfirst
    split at hfirst
    · cases hfirst
    · obtain ⟨rfl, -⟩ := List.cons.inj hfirst
      obtain ⟨-, hle, hsplits⟩ := h
      refine ⟨?_, hsplits, ?_⟩ <;> rwa [hremoved, Nat.add_zero]
  · rw [if_neg hremoved, List.cons_append] at hfirst
    obtain ⟨rfl, -⟩ := List.cons.inj hfirst
    obtain ⟨-, -, hend, hstart, hstop⟩ := h
    exact ⟨hend, hstart, hstop⟩

theorem insert_after_remove {mid : String} (htext : change.text ≠ "")
    (h : (Delta.remove change.offset change.removed).apply content enc = .ok mid) :
    ∃ edited, (Delta.insert change.offset change.text).apply mid enc = .ok edited := by
  cases Delta.changes_of_apply h with
  | @remove offset length before middle after hlength hlimit hcut hspan =>
    have hoffset := ((enc.cut?_eq_some_iff _ _ _ _).mp hcut).2
    have hcut' : enc.cut? (String.ofList (before ++ after)).toList change.offset =
        some (before, after) := by
      rw [String.toList_ofList]
      exact (enc.cut?_eq_some_iff _ _ _ _).mpr ⟨rfl, hoffset⟩
    exact ⟨_, Delta.apply_insert hcut' htext⟩

/-- The deltas of an edit put its text in place of its range when the range lies in the content, which
holds no more than memory has room for. For any other range the first delta is rejected and changes
nothing, so no insertion fails behind its removal. -/
theorem toDeltas_reproduces (change : DocumentChange) (enc : Encoding)
    (hsize : (encode content).length < Delta.offsetLimit) :
    (change.Within enc content → ∃ edited,
        Delta.replay enc content change.toDeltas = .ok edited ∧
        enc.units edited = (enc.units content).take change.offset ++ enc.units change.text ++
          (enc.units content).drop (change.offset + change.removed)) ∧
      (change.toDeltas = [] ↔ change.removed = 0 ∧ change.text = "") ∧
      (¬ change.Within enc content → ∀ first rest, change.toDeltas = first :: rest →
        (∃ reason, first.apply content enc = .error reason) ∧
        ∀ w : WorkingCopy, w.content = content →
          ∀ seq maxPending, (w.deliver enc maxPending first seq).content = content) ∧
      ∀ mid, (Delta.remove change.offset change.removed).apply content enc = .ok mid →
        change.text ≠ "" →
        ∃ edited, (Delta.insert change.offset change.text).apply mid enc = .ok edited := by
  refine ⟨replay_of_within hsize, toDeltas_eq_nil_iff, fun houtside first rest hfirst => ?_,
    fun mid h htext => insert_after_remove htext h⟩
  have hfits : ¬ first.Fits enc content := fun h => houtside (within_of_first_fits hfirst h)
  constructor
  · cases happly : first.apply content enc with
    | error reason => exact ⟨reason, rfl⟩
    | ok edited => exact absurd (Delta.fits_of_changes (Delta.changes_of_apply happly)) hfits
  · rintro w rfl seq maxPending
    exact Delta.content_deliver_of_not_fits hfits seq maxPending

theorem toDeltas_reproduces_surrogates :
    let change := DocumentChange.replacement "/p/a" 1 2 "é"
    (encode "a😀b").length < Delta.offsetLimit ∧ change.Within .utf16 "a😀b" ∧
      Delta.replay .utf16 "a😀b" change.toDeltas = .ok "aéb" ∧
      Encoding.utf16.units "aéb" =
        (Encoding.utf16.units "a😀b").take 1 ++ Encoding.utf16.units "é" ++
          (Encoding.utf16.units "a😀b").drop 3 := by
  intro change
  have hsize : (encode "a😀b").length < Delta.offsetLimit := by decide
  have hwithin : change.Within .utf16 "a😀b" :=
    within_iff.mpr ⟨['a'], ['😀'], ['b'], by decide, by decide⟩
  have hcomputed : Delta.replay .utf16 "a😀b" change.toDeltas = .ok "aéb" :=
    replay_toDeltas (on?_eq_some_iff.mpr
      ⟨['a'], ['😀'], ['b'], by decide, by decide, by decide, by decide⟩)
  obtain ⟨edited, hreplay, hunits⟩ := (toDeltas_reproduces change .utf16 hsize).1 hwithin
  obtain rfl : edited = "aéb" := Except.ok.inj (hreplay.symm.trans hcomputed)
  exact ⟨hsize, hwithin, hreplay, hunits⟩

end EditorSync.Editor.DocumentChange

import EditorSync.Proofs.Text.Positions

namespace EditorSync.Text

variable {enc : Encoding} {text before after : String} {offset byte : Nat}

theorem byteIndex?_eq_some_iff : enc.byteIndex? text offset = some byte ↔
    ∃ before after, text = before ++ after ∧ (encode before).length = byte ∧
      (enc.units before).length = offset := by
  rw [Encoding.byteIndex?_eq, Option.map_eq_some_iff]
  constructor
  · rintro ⟨⟨before, after⟩, hcut, rfl⟩
    obtain ⟨htext, rfl⟩ := (enc.cut?_eq_some_iff _ _ _ _).mp hcut
    refine ⟨String.ofList before, String.ofList after, ?_, ?_, ?_⟩
    · rw [← String.ofList_append, ← htext, String.ofList_toList]
    · rw [length_encode, String.toList_ofList]
    · rw [Encoding.length_units, String.toList_ofList]
  · rintro ⟨before, after, rfl, rfl, rfl⟩
    refine ⟨(before.toList, after.toList), ?_, (length_encode before).symm⟩
    rw [Encoding.cut?_eq_some_iff, Encoding.length_units]
    exact ⟨String.toList_append, rfl⟩

theorem length_units_lt {before' : String} (h : before.toList <+: text.toList)
    (h' : before'.toList <+: text.toList) (enc enc' : Encoding) :
    (enc.units before).length < (enc.units before').length →
      (enc'.units before).length < (enc'.units before').length := by
  simp only [Encoding.length_units]
  intro hlt
  refine Nat.lt_of_not_le fun hle => ?_
  have hback := prefix_of_span_le h' h hle
  exact absurd hlt (Nat.not_lt_of_le ( span_le_of_prefix hback))

/-- Offsets and byte positions of a text belong to its beginnings: an offset has the byte position of
the one beginning that takes so many units, and none if there is no such beginning. Both ways of
counting put the beginnings in the same order, and the byte position gives the offset back. -/
theorem byteIndex?_inverts (enc : Encoding) (text : String) :
    (∀ offset byte, enc.byteIndex? text offset = some byte ↔
        ∃ before after, text = before ++ after ∧ (encode before).length = byte ∧
          (enc.units before).length = offset) ∧
      (∀ offset byte offset' byte', enc.byteIndex? text offset = some byte →
        enc.byteIndex? text offset' = some byte' → (offset < offset' ↔ byte < byte')) ∧
      ∀ offset byte, enc.byteIndex? text offset = some byte →
        (LineIndex.of text).offsetOfByte? byte enc = some offset := by
  refine ⟨fun _ _ => byteIndex?_eq_some_iff, ?_, ?_⟩
  · intro offset byte offset' byte' h h'
    obtain ⟨before, after, htext, rfl, rfl⟩ := byteIndex?_eq_some_iff.mp h
    obtain ⟨before', after', htext', rfl, rfl⟩ := byteIndex?_eq_some_iff.mp h'
    have hbefore : before.toList <+: text.toList := htext ▸ prefix_append
    have hbefore' : before'.toList <+: text.toList := htext' ▸ prefix_append
    exact ⟨length_units_lt hbefore hbefore' enc .utf8,
      length_units_lt hbefore hbefore' .utf8 enc⟩
  · intro offset byte h
    obtain ⟨before, after, rfl, rfl, rfl⟩ := byteIndex?_eq_some_iff.mp h
    exact offsetOfByte?_eq prefix_append enc

example : Encoding.utf16.byteIndex? "a😀b" 2 = none ∧ Encoding.utf16.byteIndex? "a😀b" 3 = some 5 := by
  decide

end EditorSync.Text

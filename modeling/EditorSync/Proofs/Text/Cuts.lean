import EditorSync.Proofs.Text.Units

namespace EditorSync.Text.Encoding

variable {enc : Encoding} {text : String} {cs before after : List Char} {n offset : Nat}

theorem cut?_zero (enc : Encoding) (cs : List Char) : enc.cut? cs 0 = some ([], cs) :=
  (enc.cut?_eq_some_iff _ _ _ _).mpr ⟨rfl, rfl⟩

section Bytes

theorem utf8ByteSize_eq_span (s : String) : s.utf8ByteSize = utf8.span s.toList := by
  have hbytes : (encode s).length = s.utf8ByteSize := rfl
  rw [← hbytes]
  exact length_units .utf8 s

theorem isValid_iff : String.Pos.Raw.isValid text ⟨offset⟩ = true ↔
    ∃ before after, utf8.cut? text.toList offset = some (before, after) := by
  rw [String.Pos.Raw.isValid_eq_true_iff, String.Pos.Raw.isValid_iff_exists_append]
  constructor
  · rintro ⟨s, t, rfl, hend⟩
    have hoffset : offset = s.utf8ByteSize := congrArg String.Pos.Raw.byteIdx hend
    refine ⟨s.toList, t.toList, (utf8.cut?_eq_some_iff _ _ _ _).mpr ⟨String.toList_append, ?_⟩⟩
    rw [hoffset, utf8ByteSize_eq_span]
  · rintro ⟨before, after, hcut⟩
    obtain ⟨htext, rfl⟩ := (utf8.cut?_eq_some_iff _ _ _ _).mp hcut
    refine ⟨String.ofList before, String.ofList after, ?_, ?_⟩
    · rw [← String.ofList_append, ← htext, String.ofList_toList]
    · rw [String.Pos.Raw.ext_iff, String.byteIdx_rawEndPos, utf8ByteSize_eq_span,
        String.toList_ofList]

end Bytes

section CodeUnits

theorem byteAt?_of_lt {units : Nat} (h : offset < units) (stop : Nat) (ps : List (Nat × Char)) :
    byteAt? offset stop ps units = none := by
  cases ps with
  | nil => exact if_neg (Nat.ne_of_gt h)
  | cons p ps => rw [byteAt?, if_neg (Nat.ne_of_gt h), if_pos h]

theorem byteAt?_eq (cs : List Char) (byte units n : Nat) :
    byteAt? (units + n) (byte + utf8.span cs) (charIndices cs byte) units =
      (utf16.cut? cs n).map fun (before, _) => byte + utf8.span before := by
  induction cs generalizing byte units n with
  | nil =>
    cases n with
    | zero => exact if_pos rfl
    | succ n => exact if_neg (by omega)
  | cons c cs ih =>
    cases n with
    | zero =>
      rw [cut?_zero, charIndices, byteAt?, if_pos (Nat.add_zero units).symm]
      rfl
    | succ n =>
      rw [charIndices, byteAt?, if_neg (by omega), if_neg (by omega), cut?]
      by_cases hwidth : utf16.width c ≤ n + 1
      · have hcount : units + (n + 1) = units + utf16.width c + (n + 1 - utf16.width c) := by omega
        have hstop : byte + utf8.span (c :: cs) = byte + c.utf8Size + utf8.span cs :=
          (Nat.add_assoc _ _ _).symm
        rw [if_pos hwidth, hcount, hstop, ih, Option.map_map]
        refine Option.map_congr fun (before, _) _ => ?_
        exact Nat.add_assoc _ _ _
      · rw [if_neg hwidth, byteAt?_of_lt (by omega)]
        rfl

end CodeUnits

section Characters

theorem span_utf32 (cs : List Char) : utf32.span cs = cs.length := by
  induction cs with
  | nil => rfl
  | cons c cs ih =>
    rw [span_cons, ih, List.length_cons, Nat.add_comm]
    rfl

theorem cut?_utf32 (h : n ≤ cs.length) : utf32.cut? cs n = some (cs.take n, cs.drop n) := by
  refine (utf32.cut?_eq_some_iff _ _ _ _).mpr ⟨(List.take_append_drop n cs).symm, ?_⟩
  rw [span_utf32, List.length_take, Nat.min_eq_left h]

theorem cut?_utf32_of_lt (h : cs.length < n) : utf32.cut? cs n = none := by
  rw [Option.eq_none_iff_forall_ne_some]
  rintro ⟨before, after⟩ hcut
  obtain ⟨rfl, rfl⟩ := (utf32.cut?_eq_some_iff _ _ _ _).mp hcut
  rw [span_utf32, List.length_append] at h
  omega

theorem getElem?_charIndices (cs : List Char) (start n : Nat) : (charIndices cs start)[n]? =
    cs[n]?.map fun c => (start + utf8.span (cs.take n), c) := by
  induction cs generalizing start n with
  | nil => rfl
  | cons c cs ih =>
    cases n with
    | zero => rfl
    | succ n =>
      rw [charIndices, List.getElem?_cons_succ, List.getElem?_cons_succ, ih, List.take_succ_cons,
        span_cons, Nat.add_assoc]
      rfl

end Characters

theorem byteIndex?_eq (enc : Encoding) (text : String) (offset : Nat) : enc.byteIndex? text offset =
    (enc.cut? text.toList offset).map fun (before, _) => utf8.span before := by
  cases enc with
  | utf8 =>
    rw [byteIndex?]
    cases hcut : utf8.cut? text.toList offset with
    | some parts =>
      obtain ⟨-, hspan⟩ := (utf8.cut?_eq_some_iff _ _ _ _).mp hcut
      rw [if_pos (isValid_iff.mpr ⟨_, _, hcut⟩)]
      exact congrArg some hspan.symm
    | none =>
      refine if_neg fun hvalid => ?_
      obtain ⟨before, after, hsome⟩ := isValid_iff.mp hvalid
      cases hcut.symm.trans hsome
  | utf16 =>
    have hcount := byteAt?_eq text.toList 0 0 offset
    simp only [Nat.zero_add] at hcount
    exact hcount
  | utf32 =>
    rw [byteIndex?]
    split
    · rename_i hzero
      rw [hzero, cut?_zero]
      rfl
    · rw [getElem?_charIndices, len, span_utf32]
      rcases Nat.lt_trichotomy offset text.toList.length with hlt | heq | hgt
      · rw [cut?_utf32 (Nat.le_of_lt hlt), List.getElem?_eq_getElem hlt]
        exact congrArg some (Nat.zero_add _)
      · rw [cut?_utf32 (Nat.le_of_eq heq), List.getElem?_eq_none (Nat.le_of_eq heq.symm), heq,
          List.take_length]
        exact if_pos rfl
      · rw [cut?_utf32_of_lt hgt, List.getElem?_eq_none (Nat.le_of_lt hgt)]
        exact if_neg (Nat.ne_of_lt hgt)

end EditorSync.Text.Encoding

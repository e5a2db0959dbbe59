import EditorSync.Proofs.Text.Cuts
import EditorSync.Proofs.Text.Lines

/-! The places in a text that a line and a column mean. Every such place is the end of a beginning of
the text (`Upto`), which is what its lookup comes back with. -/

namespace EditorSync.Text

variable {enc : Encoding} {text before line after head tail : String} {n column : Nat}

structure Reaches (enc : Encoding) (line : String) (column : Nat) (head : String) : Prop where
  begins : head.toList <+: line.toList
  fits : (enc.units head).length ≤ column
  longest : ∀ other : String, other.toList <+: line.toList → (enc.units other).length ≤ column →
    other.toList <+: head.toList

/-- What stands before the place that a line and a column mean. A line past the end means the end of
the text. -/
inductive Upto (enc : Encoding) (text : String) (n column : Nat) : String → Prop
  | past (h : newlines text < n) : Upto enc text n column text
  | within {before line after head : String} (hline : IsLine text n before line after)
    (hhead : Reaches enc line column head) : Upto enc text n column (before ++ head)

section Columns

theorem Reaches.of_cut {cs more : List Char} (h : enc.cut? line.toList column = some (cs, more)) :
    Reaches enc line column (String.ofList cs) := by
  obtain ⟨hline, hspan⟩ := (enc.cut?_eq_some_iff _ _ _ _).mp h
  have hbegins : cs <+: line.toList := ⟨more, hline.symm⟩
  refine ⟨?_, ?_, fun other hother hfits => ?_⟩
  · rwa [String.toList_ofList]
  · exact Nat.le_of_eq (by rw [Encoding.length_units, String.toList_ofList, hspan])
  · rw [Encoding.length_units, ← hspan] at hfits
    rw [String.toList_ofList]
    exact prefix_of_span_le hother hbegins hfits

theorem Reaches.whole (h : (enc.units line).length ≤ column) : Reaches enc line column line :=
  ⟨List.prefix_rfl, h, fun _ hother _ => hother⟩

theorem Reaches.eq_line (h : Reaches enc line column head) (hsize : (enc.units line).length ≤ column) :
    head = line := by
  have hle := h.longest line List.prefix_rfl hsize
  exact prefix_antisymm h.begins hle

theorem Reaches.succ (hcut : enc.cut? line.toList (column + 1) = none)
    (h : Reaches enc line column head) : Reaches enc line (column + 1) head := by
  refine ⟨h.begins, Nat.le_succ_of_le h.fits, fun other hother hfits => ?_⟩
  refine h.longest other hother (Nat.le_of_lt_succ (Nat.lt_of_le_of_ne hfits fun heq => ?_))
  obtain ⟨more, hmore⟩ := hother
  rw [Encoding.length_units] at heq
  have hsome := (enc.cut?_eq_some_iff _ _ _ more).mpr ⟨hmore.symm, heq⟩
  rw [hcut] at hsome
  cases hsome

theorem columnByte?_eq (enc : Encoding) (line : String) (column : Nat) : ∃ head,
    Reaches enc line column head ∧
      LineIndex.columnByte? enc line column = some (encode head).length := by
  have hsome {column : Nat} {cs more : List Char}
      (hcut : enc.cut? line.toList column = some (cs, more)) : ∃ head,
      Reaches enc line column head ∧
        LineIndex.columnByte? enc line column = some (encode head).length := by
    refine ⟨_, .of_cut hcut, ?_⟩
    rw [LineIndex.columnByte?.eq_def, Encoding.byteIndex?_eq, hcut, length_encode,
      String.toList_ofList]
    rfl
  -- The search goes to the left one column at a time.
  induction column with
  | zero => exact hsome (Encoding.cut?_zero enc line.toList)
  | succ column ih =>
    cases hcut : enc.cut? line.toList (column + 1) with
    | some parts => exact hsome hcut
    | none =>
      rw [LineIndex.columnByte?.eq_def, Encoding.byteIndex?_eq, hcut]
      by_cases hend : enc.len line ≤ column + 1
      · refine ⟨line, .whole ?_, ?_⟩
        · rw [Encoding.length_units]
          exact hend
        · rw [length_encode]
          simp only [Option.map_none, if_pos hend]
          rfl
      · obtain ⟨head, hhead, hbyte⟩ := ih
        refine ⟨head, hhead.succ hcut, ?_⟩
        simp only [Option.map_none, if_neg hend, hbyte]

end Columns

section Places

theorem byteOfPosition?_of_line (h : IsLine text n before line after) (enc : Encoding)
    (column : Nat) : ∃ head, Reaches enc line column head ∧
      (LineIndex.of text).byteOfPosition? n column enc = some (encode (before ++ head)).length := by
  obtain ⟨head, hhead, hbyte⟩ := columnByte?_eq enc line column
  refine ⟨head, hhead, ?_⟩
  have hslice : slice? text (encode before).length (encode (before ++ line)).length = some line := by
    rw [h.text_eq]
    exact slice?_append before line after
  rw [LineIndex.byteOfPosition?, h.starts_getElem?, length_encode_append before head]
  simp only [LineIndex.text_of, h.stop_eq, hslice, hbyte, Option.bind_eq_bind, Option.bind_some,
    Option.pure_def]

theorem byteOfPosition?_of_past (h : newlines text < n) (enc : Encoding) (column : Nat) :
    (LineIndex.of text).byteOfPosition? n column enc = some (encode text).length := by
  rw [LineIndex.byteOfPosition?, LineIndex.starts_eq_none h, length_encode]
  rfl

theorem Reaches.mono {column' : Nat} {head' : String} (h : Reaches enc line column head)
    (h' : Reaches enc line column' head') (hle : column ≤ column') : head.toList <+: head'.toList :=
  h'.longest head h.begins (Nat.le_trans h.fits hle)

theorem Upto.begins (h : Upto enc text n column head) : head.toList <+: text.toList := by
  cases h with
  | past => exact List.prefix_rfl
  | within hline hhead =>
    exact (prefix_append_mono _ hhead.begins).trans hline.begins

theorem Upto.mono {n' column' : Nat} {head' : String} (h : Upto enc text n column head)
    (h' : Upto enc text n' column' head') (hle : n < n' ∨ n = n' ∧ column ≤ column') :
    head.toList <+: head'.toList := by
  cases h' with
  | past => exact h.begins
  | @within before' line' after' head' hline' hhead' =>
    have hlast : n' ≤ newlines text := by
      rw [← hline'.number, hline'.text_eq, newlines_append, newlines_append]
      omega
    cases h with
    | past hpast => omega
    | @within before line after head hline hhead =>
      have hhere := prefix_append_mono before hhead.begins
      rcases hle with hlt | ⟨rfl, hle⟩
      · have hbefore : before'.toList <+: text.toList := prefix_append.trans hline'.begins
        refine hhere.trans (List.IsPrefix.trans ?_ prefix_append)
        refine (List.prefix_or_prefix_of_prefix hline.begins hbefore).resolve_right fun hge => ?_
        -- The earlier line would hold all the newlines before the later one.
        have hcount : newlines before' ≤ newlines (before ++ line) := hge.sublist.count_le _
        rw [hline'.number, hline.newlines_eq] at hcount
        omega
      · obtain ⟨rfl, rfl⟩ := hline.unique hline'
        exact prefix_append_mono before (hhead.mono hhead' hle)

theorem exists_upto (enc : Encoding) (text : String) (n column : Nat) :
    ∃ head, Upto enc text n column head ∧
      (LineIndex.of text).byteOfPosition? n column enc = some (encode head).length := by
  by_cases h : newlines text < n
  · exact ⟨text, .past h, byteOfPosition?_of_past h enc column⟩
  · obtain ⟨before, line, after, hline⟩ := exists_isLine (Nat.le_of_not_lt h)
    obtain ⟨head, hhead, hbyte⟩ := byteOfPosition?_of_line hline enc column
    exact ⟨before ++ head, .within hline hhead, hbyte⟩

theorem Upto.unique {head' : String} (h : Upto enc text n column head)
    (h' : Upto enc text n column head') : head = head' := by
  have hle := h.mono h' (.inr ⟨rfl, Nat.le_refl column⟩)
  have hge := h'.mono h (.inr ⟨rfl, Nat.le_refl column⟩)
  exact prefix_antisymm hle hge

theorem Upto.byteOfPosition?_eq (h : Upto enc text n column head) :
    (LineIndex.of text).byteOfPosition? n column enc = some (encode head).length := by
  obtain ⟨head', hhead', hbyte⟩ := exists_upto enc text n column
  rw [hbyte, h.unique hhead']

theorem Upto.unbroken (h : Upto enc text n column head) {column' : Nat}
    (h' : Upto enc text n column' (head ++ tail)) : '\n' ∉ tail.toList := by
  generalize hwhole : head ++ tail = whole at h'
  cases h with
  | past =>
    have hlength := h'.begins.length_le
    rw [← hwhole, String.toList_append, List.length_append] at hlength
    have hnil : tail.toList = [] := List.length_eq_zero_iff.mp (by omega)
    rw [hnil]
    exact List.not_mem_nil
  | @within before line after head hline hhead =>
    cases h' with
    | past hpast =>
      rw [hline.text_eq, newlines_append, newlines_append, hline.number] at hpast
      omega
    | @within before' line' after' head' hline' hhead' =>
      obtain ⟨rfl, rfl⟩ := hline.unique hline'
      rw [String.append_assoc, String.append_right_inj] at hwhole
      intro hmem
      refine hline.unbroken (hhead'.begins.subset ?_)
      rw [← hwhole, String.toList_append]
      exact List.mem_append_right _ hmem

theorem Upto.eq_of_size_le_line (h : Upto enc text n column head)
    (hsize : (encode text).length ≤ n) : head = text := by
  have hbegins := h.begins
  cases h with
  | past => rfl
  | @within before line after head hline hhead =>
    have hle := length_encode_le hbegins
    have hlines := newlines_le_length before
    have hnumber := hline.number
    refine eq_of_prefix_of_length hbegins List.prefix_rfl (Nat.le_antisymm hle ?_)
    rw [length_encode_append]
    omega

theorem Upto.of_size_le_column (h : Upto enc text n column head)
    (hsize : (encode text).length ≤ column) {column' : Nat} (hsize' : (encode text).length ≤ column') :
    Upto enc text n column' head := by
  cases h with
  | past hpast => exact .past hpast
  | @within before line after head hline hhead =>
    have hline' := length_encode_le hline.begins
    rw [length_encode_append] at hline'
    have hunits := enc.length_units_le line
    obtain rfl : head = line := hhead.eq_line (by omega)
    exact .within hline (.whole (by omega))

theorem offsetOfByte?_eq (h : head.toList <+: text.toList) (enc : Encoding) :
    (LineIndex.of text).offsetOfByte? (encode head).length enc = some (enc.units head).length := by
  obtain ⟨rest, rfl⟩ := exists_rest h
  have hslice := slice?_append "" head rest
  rw [String.empty_append] at hslice
  have hmin : min (encode head).length (Encoding.utf8.len (head ++ rest)) =
      (encode head).length := by
    rw [Encoding.len, ← length_encode, length_encode_append]
    omega
  rw [LineIndex.offsetOfByte?, LineIndex.text_of, hmin]
  change (slice? _ (encode "").length _).map enc.len = _
  rw [hslice, Encoding.length_units]
  rfl

theorem upto_of_last_line (enc : Encoding) (hhead : Opens head) (htail : '\n' ∉ tail.toList)
    (rest : String) :
    Upto enc (head ++ tail ++ rest) (newlines head) (enc.units tail).length (head ++ tail) := by
  obtain ⟨more, after, rfl, hmore, hafter⟩ := exists_first_line rest
  have hline : IsLine (head ++ tail ++ (more ++ after)) (newlines head) head (tail ++ more) after := by
    refine ⟨by simp only [String.append_assoc], rfl, hhead, ?_, hafter⟩
    rw [String.toList_append, List.mem_append]
    exact not_or.mpr ⟨htail, hmore⟩
  have hcut : enc.cut? (tail ++ more).toList (enc.units tail).length =
      some (tail.toList, more.toList) := by
    rw [Encoding.cut?_eq_some_iff, Encoding.length_units]
    exact ⟨String.toList_append, rfl⟩
  have hreach := Reaches.of_cut hcut
  rw [String.ofList_toList] at hreach
  exact .within hline hreach

/-- A position of a line and a column is always found. It is the end of the text for a line past the
end, and else the start of the line and the longest beginning of the line that the column reaches.
Later positions are found no earlier, and a place in the text is found again by its line and the
units before it on the line, neither of which is larger than the text. -/
theorem byteOfPosition_finds (text : String) (enc : Encoding) :
    (∀ n column, newlines text < n →
        (LineIndex.of text).byteOfPosition? n column enc = some (encode text).length) ∧
      (∀ n, n ≤ newlines text → ∃ before line after, IsLine text n before line after ∧
        ∀ column, ∃ head, Reaches enc line column head ∧
          (LineIndex.of text).byteOfPosition? n column enc =
            some ((encode before).length + (encode head).length)) ∧
      (∀ n column n' column' byte byte', n < n' ∨ n = n' ∧ column ≤ column' →
        (LineIndex.of text).byteOfPosition? n column enc = some byte →
        (LineIndex.of text).byteOfPosition? n' column' enc = some byte' → byte ≤ byte') ∧
      ∀ before after, text = before ++ after → ∃ head tail, before = head ++ tail ∧ Opens head ∧
        '\n' ∉ tail.toList ∧
        (LineIndex.of text).lineOfByte (encode before).length = newlines head ∧
        (LineIndex.of text).byteOfPosition? (newlines head) (enc.units tail).length enc =
          some (encode before).length ∧
        newlines head ≤ (encode text).length ∧ (enc.units tail).length ≤ (encode text).length := by
  refine ⟨fun n column h => byteOfPosition?_of_past h enc column, fun n h => ?_, ?_, ?_⟩
  · obtain ⟨before, line, after, hline⟩ := exists_isLine h
    refine ⟨before, line, after, hline, fun column => ?_⟩
    simp only [← length_encode_append]
    exact byteOfPosition?_of_line hline enc column
  · intro n column n' column' byte byte' hle hbyte hbyte'
    obtain ⟨head, hhead, hfound⟩ := exists_upto enc text n column
    obtain ⟨head', hhead', hfound'⟩ := exists_upto enc text n' column'
    obtain rfl := Option.some.inj (hbyte.symm.trans hfound)
    obtain rfl := Option.some.inj (hbyte'.symm.trans hfound')
    exact length_encode_le (hhead.mono hhead' hle)
  · rintro before after rfl
    obtain ⟨head, tail, rfl, hhead, htail⟩ := exists_last_line before
    have hlines := newlines_le_length head
    have hunits := enc.length_units_le tail
    refine ⟨head, tail, rfl, hhead, htail, lineOfByte_append hhead htail after,
      (upto_of_last_line enc hhead htail after).byteOfPosition?_eq, ?_, ?_⟩
    · rw [length_encode_append, length_encode_append]
      omega
    · rw [length_encode_append, length_encode_append]
      omega

end Places

end EditorSync.Text

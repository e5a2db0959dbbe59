import EditorSync.Proofs.Text.Units
import EditorSync.Text.Lines

namespace EditorSync.Text

variable {enc : Encoding} {text before line after head tail rest : String} {n : Nat}

def newlines (text : String) : Nat := text.toList.count '\n'

def Opens (before : String) : Prop := before = "" ∨ ∃ earlier, before = earlier ++ "\n"

/-- A line of a text, by its number from zero, with what stands before it and after it. -/
structure IsLine (text : String) (n : Nat) (before line after : String) : Prop where
  text_eq : text = before ++ line ++ after
  number : newlines before = n
  opens : Opens before
  unbroken : '\n' ∉ line.toList
  closes : after = "" ∨ ∃ later, after = "\n" ++ later

section Prefixes

theorem prefix_of_span_le {xs ys zs : List Char} (hx : xs <+: zs) (hy : ys <+: zs)
    (h : enc.span xs ≤ enc.span ys) : xs <+: ys := by
  rcases List.prefix_or_prefix_of_prefix hx hy with hle | ⟨more, rfl⟩
  · exact hle
  · cases more with
    | nil => simp
    | cons c more =>
      have := enc.width_pos c
      rw [Encoding.span_append, Encoding.span_cons] at h
      omega

theorem span_le_of_prefix {xs ys : List Char} (h : xs <+: ys) : enc.span xs ≤ enc.span ys := by
  obtain ⟨more, rfl⟩ := h
  rw [Encoding.span_append]
  omega

theorem length_encode (s : String) : (encode s).length = Encoding.utf8.span s.toList :=
  Encoding.length_units .utf8 s

theorem prefix_append : before.toList <+: (before ++ rest).toList := by
  rw [String.toList_append]
  exact List.prefix_append _ _

theorem prefix_append_mono (before : String) (h : head.toList <+: line.toList) :
    (before ++ head).toList <+: (before ++ line).toList := by
  rwa [String.toList_append, String.toList_append, List.prefix_append_right_inj]

theorem prefix_antisymm (h : before.toList <+: after.toList)
    (h' : after.toList <+: before.toList) : before = after :=
  String.toList_injective (h.eq_of_length_le h'.length_le)

theorem exists_rest (h : head.toList <+: text.toList) : ∃ rest, text = head ++ rest := by
  obtain ⟨rest, hrest⟩ := h
  refine ⟨String.ofList rest, ?_⟩
  rw [← String.toList_inj, String.toList_append, String.toList_ofList, hrest]

theorem length_encode_append (s t : String) :
    (encode (s ++ t)).length = (encode s).length + (encode t).length := by
  rw [encode_append, List.length_append]

theorem length_encode_le (h : head.toList <+: text.toList) :
    (encode head).length ≤ (encode text).length := by
  rw [length_encode, length_encode]
  exact span_le_of_prefix h

theorem eq_of_prefix_of_length (hb : before.toList <+: text.toList) (hh : head.toList <+: text.toList)
    (h : (encode before).length = (encode head).length) : before = head := by
  rw [length_encode, length_encode] at h
  have hle := prefix_of_span_le hb hh (Nat.le_of_eq h)
  have hge := prefix_of_span_le hh hb (Nat.le_of_eq h.symm)
  exact prefix_antisymm hle hge

theorem slice?_append (before part after : String) :
    slice? (before ++ part ++ after) (encode before).length (encode (before ++ part)).length =
      some part := by
  have hstop : Encoding.utf8.cut? (before ++ part ++ after).toList (encode (before ++ part)).length =
      some ((before ++ part).toList, after.toList) := by
    rw [Encoding.cut?_eq_some_iff, length_encode]
    exact ⟨String.toList_append, rfl⟩
  have hstart : Encoding.utf8.cut? (before ++ part).toList (encode before).length =
      some (before.toList, part.toList) := by
    rw [Encoding.cut?_eq_some_iff, length_encode]
    exact ⟨String.toList_append, rfl⟩
  simp only [slice?, hstop, hstart, Option.bind_eq_bind, Option.bind_some, Option.pure_def,
    String.ofList_toList]

end Prefixes

section Newlines

theorem newlines_append (s t : String) : newlines (s ++ t) = newlines s + newlines t := by
  rw [newlines, String.toList_append, List.count_append]
  rfl

@[simp] theorem newlines_empty : newlines "" = 0 := rfl

@[simp] theorem newlines_newline : newlines "\n" = 1 := rfl

theorem newlines_eq_zero_iff : newlines text = 0 ↔ '\n' ∉ text.toList := List.count_eq_zero

theorem count_utf8EncodeChar (c : Char) :
    (String.utf8EncodeChar c).count 10 = if c = '\n' then 1 else 0 := by
  split
  · rename_i h
    rw [h]
    decide
  · rename_i h
    rw [List.count_eq_zero]
    have hone : String.utf8EncodeChar c = encode (String.ofList [c]) := by
      rw [encode_eq_flatMap, String.toList_ofList, List.flatMap_singleton]
    rw [hone]
    apply newline_not_mem_encode
    rw [String.toList_ofList, List.mem_singleton]
    exact Ne.symm h

theorem count_encode (text : String) : (encode text).count 10 = newlines text := by
  rw [encode_eq_flatMap, newlines]
  induction text.toList with
  | nil => rfl
  | cons c cs ih =>
    rw [List.flatMap_cons, List.count_append, ih, count_utf8EncodeChar, List.count_cons]
    simp only [beq_iff_eq]
    omega

theorem newlines_le_length (text : String) : newlines text ≤ (encode text).length := by
  rw [← count_encode]
  exact List.count_le_length

end Newlines

section Starts

namespace LineIndex

variable {bytes : Bytes} {start m : Nat} {lows highs : List Nat}

theorem newlineEnds_append (xs ys : Bytes) (start : Nat) :
    newlineEnds (xs ++ ys) start = newlineEnds xs start ++ newlineEnds ys (start + xs.length) := by
  simp only [newlineEnds, List.zipIdx_append, List.filter_append, List.map_append]

theorem newlineEnds_cons (b : UInt8) (bytes : Bytes) (start : Nat) :
    newlineEnds (b :: bytes) start =
      (if b = 10 then [start + 1] else []) ++ newlineEnds bytes (start + 1) := by
  simp only [newlineEnds, List.zipIdx_cons, List.filter_cons, decide_eq_true_eq]
  split <;> simp

theorem length_newlineEnds (bytes : Bytes) (start : Nat) :
    (newlineEnds bytes start).length = bytes.count 10 := by
  induction bytes generalizing start with
  | nil => rfl
  | cons b bytes ih =>
    rw [newlineEnds_cons, List.length_append, ih, List.count_cons, Nat.add_comm]
    simp only [beq_iff_eq]
    split <;> rfl

theorem bounds_of_mem_newlineEnds (h : m ∈ newlineEnds bytes start) :
    start < m ∧ m ≤ start + bytes.length := by
  induction bytes generalizing start with
  | nil => cases h
  | cons b bytes ih =>
    rw [newlineEnds_cons, List.mem_append] at h
    rw [List.length_cons]
    rcases h with h | h
    · split at h
      · rw [List.mem_singleton.mp h]
        omega
      · cases h
    · have := ih h
      omega

@[simp] theorem text_of (text : String) : (of text).text = text := rfl

theorem starts_of_append (before rest : String) : (of (before ++ rest)).starts =
    0 :: newlineEnds (encode before) 0 ++ newlineEnds (encode rest) (encode before).length := by
  rw [of, encode_append, newlineEnds_append, Nat.zero_add]
  rfl

theorem starts_of_opens (h : Opens before) : ∃ lows,
    0 :: newlineEnds (encode before) 0 = lows ++ [(encode before).length] ∧
      lows.length = newlines before ∧ ∀ m ∈ lows, m < (encode before).length := by
  rcases h with rfl | ⟨earlier, rfl⟩
  · exact ⟨[], rfl, rfl, fun _ h => absurd h List.not_mem_nil⟩
  · have hnewline : encode "\n" = [10] := by decide
    rw [encode_append, hnewline, newlineEnds_append, List.length_append]
    refine ⟨0 :: newlineEnds (encode earlier) 0, ?_, ?_, ?_⟩
    · rw [newlineEnds_cons]
      simp [newlineEnds]
    · rw [List.length_cons, length_newlineEnds, count_encode, newlines_append, newlines_newline]
    · rw [List.forall_mem_cons]
      refine ⟨by simp, fun m hm => ?_⟩
      have := bounds_of_mem_newlineEnds hm
      simp only [List.length_singleton]
      omega

theorem starts_getElem? (h : Opens before) (rest : String) :
    (of (before ++ rest)).starts[newlines before]? = some (encode before).length := by
  obtain ⟨lows, hlows, hlength, -⟩ := starts_of_opens h
  rw [starts_of_append, hlows, List.append_assoc, List.getElem?_append_right (Nat.le_of_eq hlength),
    hlength, Nat.sub_self]
  rfl

theorem lineCount_of (text : String) : (of text).lineCount = newlines text + 1 := by
  rw [lineCount, of, List.length_cons, length_newlineEnds, count_encode]

theorem starts_eq_none (h : newlines text < n) : (of text).starts[n]? = none := by
  rw [List.getElem?_eq_none_iff]
  have := lineCount_of text
  rw [lineCount] at this
  omega

end LineIndex

end Starts

section Lines

theorem IsLine.begins (h : IsLine text n before line after) :
    (before ++ line).toList <+: text.toList := by
  rw [h.text_eq]
  exact prefix_append

theorem IsLine.starts_getElem? (h : IsLine text n before line after) :
    (LineIndex.of text).starts[n]? = some (encode before).length := by
  rw [h.text_eq, String.append_assoc, ← h.number]
  exact LineIndex.starts_getElem? h.opens _

theorem IsLine.newlines_eq (h : IsLine text n before line after) : newlines (before ++ line) = n := by
  rw [newlines_append, h.number, newlines_eq_zero_iff.mpr h.unbroken, Nat.add_zero]

theorem IsLine.stop_eq (h : IsLine text n before line after) :
    ((LineIndex.of text).starts[n + 1]?).elim (Encoding.utf8.len text) (· - 1) =
      (encode (before ++ line)).length := by
  rcases h.closes with rfl | ⟨later, rfl⟩
  · have hlast : newlines text < n + 1 := by
      rw [h.text_eq, String.append_empty, h.newlines_eq]
      exact Nat.lt_succ_self n
    rw [LineIndex.starts_eq_none hlast, h.text_eq, String.append_empty, length_encode]
    rfl
  · have hopens : Opens (before ++ line ++ "\n") := .inr ⟨_, rfl⟩
    have hnext := LineIndex.starts_getElem? hopens later
    rw [newlines_append, h.newlines_eq, newlines_newline, length_encode_append] at hnext
    rw [h.text_eq, ← String.append_assoc, hnext]
    rfl

theorem exists_first_line (rest : String) : ∃ line after, rest = line ++ after ∧
    '\n' ∉ line.toList ∧ (after = "" ∨ ∃ later, after = "\n" ++ later) := by
  by_cases h : '\n' ∈ rest.toList
  · obtain ⟨line, later, hrest, hline⟩ := List.eq_append_cons_of_mem h
    refine ⟨String.ofList line, "\n" ++ String.ofList later, ?_, ?_, .inr ⟨_, rfl⟩⟩
    · rw [← String.toList_inj, hrest]
      simp
    · rwa [String.toList_ofList]
  · exact ⟨rest, "", String.append_empty.symm, h, .inl rfl⟩

theorem exists_isLine (h : n ≤ newlines text) : ∃ before line after, IsLine text n before line after := by
  induction n with
  | zero =>
    obtain ⟨line, after, htext, hline, hafter⟩ := exists_first_line text
    exact ⟨"", line, after, by rw [String.empty_append, htext], rfl, .inl rfl, hline, hafter⟩
  | succ n ih =>
    obtain ⟨before, line, after, hline⟩ := ih (Nat.le_of_succ_le h)
    rcases hline.closes with rfl | ⟨later, rfl⟩
    · rw [hline.text_eq, String.append_empty, hline.newlines_eq] at h
      exact absurd h (Nat.not_succ_le_self n)
    · obtain ⟨next, after, hlater, hnext, hafter⟩ := exists_first_line later
      refine ⟨before ++ line ++ "\n", next, after, ?_, ?_, .inr ⟨_, rfl⟩, hnext, hafter⟩
      · rw [hline.text_eq, hlater]
        simp only [String.append_assoc]
      · rw [newlines_append, hline.newlines_eq, newlines_newline]

theorem IsLine.unique {before' line' after' : String} (h : IsLine text n before line after)
    (h' : IsLine text n before' line' after') : before = before' ∧ line = line' := by
  have hstart := h.starts_getElem?.symm.trans h'.starts_getElem?
  have hstop := h.stop_eq.symm.trans h'.stop_eq
  have hwhole := eq_of_prefix_of_length h.begins h'.begins hstop
  obtain rfl : before = before' :=
    eq_of_prefix_of_length (prefix_append.trans h.begins) (prefix_append.trans h'.begins)
      (Option.some.inj hstart)
  exact ⟨rfl, (String.append_right_inj before).mp hwhole⟩

end Lines

section Lookup

variable {lows highs : List Nat}

theorem countP_lows (hlow : ∀ m ∈ lows, m < n) (hhigh : ∀ m ∈ highs, n ≤ m) :
    (lows ++ highs).countP (· < n) = lows.length := by
  rw [List.countP_append, List.countP_eq_length.mpr, List.countP_eq_zero.mpr, Nat.add_zero]
  · intro m hm
    simpa using hhigh m hm
  · intro m hm
    simpa using hlow m hm

theorem search_found (hlow : ∀ m ∈ lows, m < n) (hhigh : ∀ m ∈ highs, n < m) :
    search (lows ++ n :: highs) n = .ok lows.length := by
  have hge : ∀ m ∈ n :: highs, n ≤ m := by
    rw [List.forall_mem_cons]
    exact ⟨Nat.le_refl n, fun m hm => Nat.le_of_lt (hhigh m hm)⟩
  have hplace := countP_lows hlow hge
  simp only [search, hplace]
  rw [List.getElem?_append_right (Nat.le_refl _), Nat.sub_self]
  exact if_pos rfl

theorem search_between (hlow : ∀ m ∈ lows, m < n) (hhigh : ∀ m ∈ highs, n < m) :
    search (lows ++ highs) n = .error lows.length := by
  have hplace := countP_lows hlow fun m hm => Nat.le_of_lt (hhigh m hm)
  simp only [search, hplace]
  refine if_neg fun hfound => ?_
  rw [List.getElem?_append_right (Nat.le_refl _)] at hfound
  exact absurd (hhigh n (List.mem_of_getElem? hfound)) (Nat.lt_irrefl n)

theorem lineOfByte_append (hhead : Opens head) (htail : '\n' ∉ tail.toList) (rest : String) :
    (LineIndex.of (head ++ tail ++ rest)).lineOfByte (encode (head ++ tail)).length =
      newlines head := by
  obtain ⟨lows, hlows, hlength, hlow⟩ := LineIndex.starts_of_opens hhead
  have hends : LineIndex.newlineEnds (encode tail) (encode head).length = [] := by
    rw [← List.length_eq_zero_iff, LineIndex.length_newlineEnds, count_encode]
    exact newlines_eq_zero_iff.mpr htail
  have hstarts : (LineIndex.of (head ++ tail ++ rest)).starts = lows ++ (encode head).length ::
      LineIndex.newlineEnds (encode rest) (encode (head ++ tail)).length := by
    rw [LineIndex.starts_of_append, encode_append, LineIndex.newlineEnds_append, Nat.zero_add, hends,
      List.append_nil, hlows, List.append_assoc]
    rfl
  have hhigh : ∀ m ∈ LineIndex.newlineEnds (encode rest) (encode (head ++ tail)).length,
      (encode (head ++ tail)).length < m := fun m hm => (LineIndex.bounds_of_mem_newlineEnds hm).1
  rw [LineIndex.lineOfByte, hstarts]
  by_cases hempty : tail = ""
  · rw [hempty, String.append_empty] at hhigh ⊢
    rw [search_found hlow hhigh]
    exact hlength
  · have hpos : 0 < (encode tail).length := by
      refine List.length_pos_iff.mpr fun hnil => hempty (encode_injective ?_)
      rw [hnil]
      rfl
    have hbelow : ∀ m ∈ lows ++ [(encode head).length], m < (encode (head ++ tail)).length := by
      rw [length_encode_append, List.forall_mem_append, List.forall_mem_singleton]
      exact ⟨fun m hm => Nat.lt_add_right _ (hlow m hm), Nat.lt_add_of_pos_right hpos⟩
    rw [← List.singleton_append, ← List.append_assoc, search_between hbelow hhigh]
    simpa using hlength

theorem exists_last_line (before : String) : ∃ head tail, before = head ++ tail ∧ Opens head ∧
    '\n' ∉ tail.toList := by
  obtain ⟨head, tail, after, hline⟩ := exists_isLine (Nat.le_refl (newlines before))
  rcases hline.closes with rfl | ⟨later, rfl⟩
  · exact ⟨head, tail, by rw [← String.append_empty (s := head ++ tail), ← hline.text_eq],
      hline.opens, hline.unbroken⟩
  · have hmore := congrArg newlines hline.text_eq
    rw [newlines_append, hline.newlines_eq, newlines_append, newlines_newline] at hmore
    omega

end Lookup

end EditorSync.Text

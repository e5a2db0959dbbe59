import EditorSync.Text.Blank
import EditorSync.Text.Bytes

namespace EditorSync.Text

theorem encode_append (s t : String) : encode (s ++ t) = encode s ++ encode t := by
  simp [encode, String.toByteArray_append]

theorem encode_eq_flatMap (s : String) : encode s = s.toList.flatMap String.utf8EncodeChar := by
  have hbytes : s.toByteArray = (s.toList.flatMap String.utf8EncodeChar).toByteArray :=
    String.utf8Encode_toList.symm
  rw [encode, String.toUTF8_eq_toByteArray, hbytes, List.data_toByteArray, List.toList_toArray]

theorem toList_toString (n : Nat) : (toString n).toList = Nat.toDigits 10 n := by
  rw [Nat.toString_eq_ofList_toDigits, String.toList_ofList]

theorem toList_pushn (s : String) (c : Char) (n : Nat) :
    (s.pushn c n).toList = s.toList ++ List.replicate n c := by
  rw [String.pushn_eq_repeat_push]
  induction n with
  | zero => exact (List.append_nil _).symm
  | succ n ih => rw [Nat.repeat, String.toList_push, ih, List.append_assoc, ← List.replicate_succ']

theorem takeWhile_ne_append {c : Char} {cs rest : List Char} (h : c ∉ cs)
    (hrest : rest.head?.all (· = c) = true) : (cs ++ rest).takeWhile (· ≠ c) = cs := by
  have hcs : ∀ d ∈ cs, decide (d ≠ c) = true := fun d hd =>
    decide_eq_true fun heq => h (heq ▸ hd)
  rw [List.takeWhile_append_of_pos hcs]
  cases rest with
  | nil => exact List.append_nil cs
  | cons d rest => rw [List.takeWhile_cons_of_neg (by simpa using hrest), List.append_nil]

theorem mem_toList_of_mem_encode {s : String} {b : UInt8} (hb : b ∈ encode s)
    (hlt : b.toNat < 128) : ∃ c ∈ s.toList, c.val.toNat = b.toNat := by
  rw [encode_eq_flatMap, List.mem_flatMap] at hb
  obtain ⟨c, hc, hb⟩ := hb
  refine ⟨c, hc, ?_⟩
  rw [String.utf8EncodeChar.eq_1] at hb
  split at hb
  · rw [List.mem_singleton.mp hb, UInt8.toNat_ofNat']
    omega
  · exfalso
    split at hb
    · simp only [List.mem_cons, List.not_mem_nil, or_false] at hb
      rcases hb with rfl | rfl <;> rw [UInt8.toNat_ofNat'] at hlt <;> omega
    · split at hb
      · simp only [List.mem_cons, List.not_mem_nil, or_false] at hb
        rcases hb with rfl | rfl | rfl <;> rw [UInt8.toNat_ofNat'] at hlt <;> omega
      · simp only [List.mem_cons, List.not_mem_nil, or_false] at hb
        rcases hb with rfl | rfl | rfl | rfl <;> rw [UInt8.toNat_ofNat'] at hlt <;> omega

theorem newline_not_mem_encode {s : String} (h : '\n' ∉ s.toList) : 10 ∉ encode s := by
  intro hmem
  obtain ⟨c, hc, hvalue⟩ := mem_toList_of_mem_encode hmem (by decide)
  have hnewline : c = '\n' := Char.ext (UInt32.toNat_inj.mp hvalue)
  exact h (hnewline ▸ hc)

def terminated (lines : List Bytes) : Bytes := lines.flatMap (· ++ [10])

theorem byteLines_append {line : Bytes} (h : 10 ∉ line) (rest : Bytes) :
    byteLines (line ++ 10 :: rest) = line :: byteLines rest := by
  induction line with
  | nil => simp [byteLines]
  | cons b line ih =>
    rw [List.mem_cons, not_or] at h
    rw [List.cons_append, byteLines, if_neg (Ne.symm h.1), ih h.2]

theorem byteLines_terminated {lines : List Bytes} (h : ∀ line ∈ lines, 10 ∉ line) :
    byteLines (terminated lines) = lines := by
  induction lines with
  | nil => rfl
  | cons line lines ih =>
    rw [List.forall_mem_cons] at h
    have hcons : terminated (line :: lines) = line ++ 10 :: terminated lines := by
      simp [terminated]
    rw [hcons, byteLines_append h.1, ih h.2]

theorem not_blank_of_isDigit {c : Char} (h : c.isDigit = true) : isBlank c = false := by
  rw [Char.isDigit, Bool.and_eq_true, decide_eq_true_eq, decide_eq_true_eq] at h
  have hlow : 48 ≤ c.toNat := h.1
  have hhigh : c.toNat ≤ 57 := h.2
  rw [isBlank]
  simp only [Bool.or_eq_false_iff, Bool.and_eq_false_iff, decide_eq_false_iff_not, beq_eq_false_iff_ne]
  omega

theorem dropWhile_isBlank {blanks cs : List Char} (hblanks : ∀ c ∈ blanks, isBlank c = true)
    (hhead : ∀ c, cs.head? = some c → isBlank c = false) :
    (blanks ++ cs).dropWhile isBlank = cs := by
  rw [List.dropWhile_append_of_pos hblanks]
  cases cs with
  | nil => rfl
  | cons c cs =>
    have hc := hhead c rfl
    rw [List.dropWhile_cons_of_neg (by simp [hc])]

theorem trim_eq {before cs after : List Char} (hbefore : ∀ c ∈ before, isBlank c = true)
    (hafter : ∀ c ∈ after, isBlank c = true) (hhead : ∀ c, cs.head? = some c → isBlank c = false)
    (hlast : ∀ c, cs.getLast? = some c → isBlank c = false) :
    trim (String.ofList (before ++ cs ++ after)) = String.ofList cs := by
  have hdrop : ((before ++ cs ++ after).dropWhile isBlank).reverse.dropWhile isBlank =
      cs.reverse := by
    cases cs with
    | nil =>
      have hblank : ∀ c ∈ before ++ after, isBlank c = true := fun c hc =>
        (List.mem_append.mp hc).elim (hbefore c) (hafter c)
      have hnone : (before ++ after ++ []).dropWhile isBlank = [] :=
        dropWhile_isBlank hblank fun _ hc => nomatch hc
      rw [List.append_nil] at hnone
      rw [List.append_nil, hnone]
      rfl
    | cons c cs =>
      have hfirst : (before ++ (c :: cs ++ after)).dropWhile isBlank = c :: cs ++ after :=
        dropWhile_isBlank hbefore fun d hd => hhead d hd
      rw [List.append_assoc, hfirst, List.reverse_append]
      refine dropWhile_isBlank (fun d hd => hafter d (List.mem_reverse.mp hd)) fun d hd => ?_
      rw [List.head?_reverse] at hd
      exact hlast d hd
  rw [trim, String.toList_ofList, hdrop, List.reverse_reverse]

theorem trim_append_newline (s : String) : trim (s ++ "\n") = trim s := by
  have hnewline : isBlank '\n' = true := by decide
  have hchars : (s ++ "\n").toList = s.toList ++ ['\n'] := by rw [String.toList_append]; rfl
  rw [trim, trim, hchars, List.dropWhile_append]
  split
  · rename_i hempty
    rw [List.isEmpty_iff.mp hempty]
    simp [hnewline]
  · simp [hnewline]

end EditorSync.Text

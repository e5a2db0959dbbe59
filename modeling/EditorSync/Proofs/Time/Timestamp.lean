import Mathlib.Data.Nat.Digits.Defs
import EditorSync.Proofs.Text
import EditorSync.Proofs.Time.Calendar
import EditorSync.Time.Parser

namespace EditorSync.Time

open Text (isBlank)

variable {n m width : Nat} {cs rest ds : List Char} {c : Char}

theorem toList_digits (width n : Nat) : (digits width n).toList =
    List.replicate (width - (Nat.toDigits 10 n).length) '0' ++ Nat.toDigits 10 n := by
  simp [digits, Nat.repr, Text.toList_pushn]

theorem isDigit_of_mem_digits (h : c ∈ (digits width n).toList) : c.isDigit = true := by
  rw [toList_digits, List.mem_append] at h
  rcases h with h | h
  · rw [List.eq_of_mem_replicate h]
    decide
  · exact Nat.isDigit_of_mem_toDigits (by decide) (by decide) h

theorem length_digits (h : 0 < width) (hn : n < 10 ^ width) :
    (digits width n).toList.length = width := by
  have hlength := Nat.toDigits_length 10 n width h hn
  rw [toList_digits, List.length_append, List.length_replicate]
  omega

theorem digits_ne_nil (width n : Nat) : (digits width n).toList ≠ [] := by
  rw [toList_digits]
  simp

theorem ofDigitChars_digits (width n : Nat) : Nat.ofDigitChars 10 (digits width n).toList 0 = n := by
  rw [toList_digits, Nat.ofDigitChars_append, Nat.ofDigitChars_replicate_zero, Nat.mul_zero,
    Nat.ofDigitChars_ten_toDigits]

theorem valueOf_eq (h : ∀ c ∈ ds, c.isDigit = true) : valueOf ds = Nat.ofDigitChars 10 ds 0 := by
  have hdigit (c : Char) (hc : c.isDigit = true) : Text.digit? 10 c = some (c.toNat - '0'.toNat) := by
    have hbound : c.toNat - '0'.toNat < 10 := by
      rw [Char.isDigit, Bool.and_eq_true, decide_eq_true_eq, decide_eq_true_eq] at hc
      have hhigh : c.toNat ≤ 57 := hc.2
      change c.toNat - 48 < 10
      omega
    rw [Text.digit?, if_pos hc, Option.filter_some, if_pos (decide_eq_true hbound)]
  have hmap : ds.mapM (Text.digit? 10) = some (ds.map fun c => c.toNat - '0'.toNat) := by
    induction ds with
    | nil => rfl
    | cons c ds ih =>
      rw [List.forall_mem_cons] at h
      rw [List.mapM_cons, hdigit c h.1, ih h.2]
      rfl
  have hfold : Text.ofDigits 10 (ds.map fun c => c.toNat - '0'.toNat) = Nat.ofDigitChars 10 ds 0 := by
    rw [Text.ofDigits, List.foldl_map, Nat.ofDigitChars_eq_foldl]
    simp only [Nat.mul_comm]
  by_cases hnil : ds = []
  · subst hnil
    rfl
  · rw [valueOf, Text.number?, if_neg hnil, hmap, Option.map_some, Option.getD_some, hfold]

theorem valueOf_digits (width n : Nat) : valueOf (digits width n).toList = n := by
  rw [valueOf_eq fun c hc => isDigit_of_mem_digits hc, ofDigitChars_digits]

theorem takeWhile_digits (width n : Nat) (hrest : ∀ c, rest.head? = some c → c.isDigit = false) :
    ((digits width n).toList ++ rest).takeWhile Char.isDigit = (digits width n).toList := by
  rw [List.takeWhile_append_of_pos fun c hc => isDigit_of_mem_digits hc]
  cases rest with
  | nil => simp
  | cons c rest => rw [List.takeWhile_cons_of_neg (by simp [hrest c rfl]), List.append_nil]

theorem number_digits (hlength : (digits width n).toList.length ≤ m)
    (hrest : ∀ c, rest.head? = some c → c.isDigit = false) :
    number m ((digits width n).toList ++ rest) = some (n, rest) := by
  unfold number
  rw [takeWhile_digits width n hrest, List.take_of_length_le hlength]
  simp only [digits_ne_nil, if_false, valueOf_digits, List.drop_left]

theorem skipBlanks_cons (h : isBlank c = false) (cs : List Char) :
    skipBlanks (c :: cs) = c :: cs := by
  simp [skipBlanks, h]

theorem digits_eq_cons (width n : Nat) :
    ∃ c cs, (digits width n).toList = c :: cs ∧ c.isDigit = true := by
  obtain ⟨c, cs, hdigits⟩ := List.exists_cons_of_ne_nil (digits_ne_nil width n)
  exact ⟨c, cs, hdigits, isDigit_of_mem_digits (hdigits ▸ List.mem_cons_self)⟩

theorem skipBlanks_digits (width n : Nat) (rest : List Char) :
    skipBlanks ((digits width n).toList ++ rest) = (digits width n).toList ++ rest := by
  obtain ⟨c, cs, hdigits, hc⟩ := digits_eq_cons width n
  rw [hdigits]
  exact skipBlanks_cons (Text.not_blank_of_isDigit hc) _

theorem field_digits (h : n < 100) (hrest : ∀ c, rest.head? = some c → c.isDigit = false) :
    field 2 ((digits 2 n).toList ++ rest) = some (n, rest) := by
  rw [field, skipBlanks_digits]
  exact number_digits (Nat.le_of_eq (length_digits (by decide) h)) hrest

theorem mark_cons (h : isBlank c = false) (cs : List Char) : mark c (c :: cs) = some ((), cs) := by
  rw [mark, skipBlanks_cons h]
  exact if_pos rfl

theorem not_digit_of_head {c : Char} (h : c.isDigit = false) (cs : List Char) :
    ∀ d, (c :: cs).head? = some d → d.isDigit = false := by
  intro d hd
  rwa [← Option.some.inj hd]

theorem year_minus (cs : List Char) :
    year ('-' :: cs) = (number cs.length cs).map fun read => (-(read.1 : Int), read.2) := by
  rw [year, skipBlanks_cons (by decide)]
  rfl

theorem year_plus (cs : List Char) :
    year ('+' :: cs) = (number cs.length cs).map fun read => ((read.1 : Int), read.2) := by
  rw [year, skipBlanks_cons (by decide)]
  rfl

theorem year_digits (width n : Nat) (rest : List Char) :
    year ((digits width n).toList ++ rest) =
      (number 4 ((digits width n).toList ++ rest)).map fun read => ((read.1 : Int), read.2) := by
  obtain ⟨c, cs, hdigits, hc⟩ := digits_eq_cons width n
  rw [year, skipBlanks_digits, hdigits]
  split
  · rename_i heq
    cases heq
    exact absurd hc (by decide)
  · rename_i heq
    cases heq
    exact absurd hc (by decide)
  · rfl

theorem year_yearText (y : Int) (hrest : ∀ c, rest.head? = some c → c.isDigit = false) :
    year ((Timestamp.yearText y).toList ++ rest) = some (y, rest) := by
  have hnumber (n : Nat) : number ((digits 4 n).toList ++ rest).length ((digits 4 n).toList ++ rest) =
      some (n, rest) := by
    apply number_digits _ hrest
    rw [List.length_append]
    exact Nat.le_add_right _ _
  unfold Timestamp.yearText
  by_cases hfour : 0 ≤ y ∧ y ≤ 9999
  · have hlength : (digits 4 y.toNat).toList.length ≤ 4 :=
      Nat.le_of_eq (length_digits (by decide) (by omega))
    have hvalue : (y.toNat : Int) = y := by omega
    rw [if_pos hfour, year_digits, number_digits hlength hrest, Option.map_some, hvalue]
  · rw [if_neg hfour, String.toList_append]
    by_cases hneg : y < 0
    · have hvalue : -(y.natAbs : Int) = y := by omega
      rw [if_pos hneg]
      change year ('-' :: ((digits 4 y.natAbs).toList ++ rest)) = some (y, rest)
      rw [year_minus, hnumber, Option.map_some, hvalue]
    · have hvalue : (y.natAbs : Int) = y := by omega
      rw [if_neg hneg]
      change year ('+' :: ((digits 4 y.natAbs).toList ++ rest)) = some (y, rest)
      rw [year_plus, hnumber, Option.map_some, hvalue]

theorem fraction_digits (hpos : 0 < width) (hwidth : width ≤ 9) (hn : n < 10 ^ width)
    (hrest : ∀ c, rest.head? = some c → c.isDigit = false) :
    fraction ('.' :: ((digits width n).toList ++ rest)) = some (10 ^ (9 - width) * n, rest) := by
  have hlength := length_digits hpos hn
  have htake : ((digits width n).toList ++ List.replicate 9 '0').take 9 =
      (digits width n).toList ++ List.replicate (9 - width) '0' := by
    rw [List.take_append, hlength, List.take_of_length_le (by omega), List.take_replicate]
    have hmin : min (9 - width) 9 = 9 - width := by omega
    rw [hmin]
  have hvalue : valueOf ((digits width n).toList ++ List.replicate (9 - width) '0') =
      10 ^ (9 - width) * n := by
    rw [valueOf_eq, Nat.ofDigitChars_append, ofDigitChars_digits, Nat.ofDigitChars_replicate_zero]
    intro c hc
    rcases List.mem_append.mp hc with hc | hc
    · exact isDigit_of_mem_digits hc
    · rw [List.eq_of_mem_replicate hc]
      decide
  rw [fraction, takeWhile_digits width n hrest]
  simp only [digits_ne_nil, if_false, htake, hvalue, List.drop_left]

theorem fraction_fractionText (h : n < 1000000000) (rest : List Char) :
    fraction ((Timestamp.fractionText n).toList ++ 'Z' :: rest) = some (n, 'Z' :: rest) := by
  have hrest := not_digit_of_head (by decide : 'Z'.isDigit = false) rest
  unfold Timestamp.fractionText
  split
  · rename_i hzero
    rw [hzero]
    rfl
  · split
    · rename_i hmillis
      have hvalue : 10 ^ (9 - 3) * (n / 1000000) = n := by omega
      rw [String.toList_append]
      refine (fraction_digits (by decide) (by decide) (by omega) hrest).trans ?_
      rw [hvalue]
    · split
      · rename_i hmicros
        have hvalue : 10 ^ (9 - 6) * (n / 1000) = n := by omega
        rw [String.toList_append]
        refine (fraction_digits (by decide) (by decide) (by omega) hrest).trans ?_
        rw [hvalue]
      · have hvalue : 10 ^ (9 - 9) * n = n := by omega
        rw [String.toList_append]
        refine (fraction_digits (by decide) (by decide) (by omega) hrest).trans ?_
        rw [hvalue]

namespace Timestamp

variable {t : Timestamp}

structure Sound (t : Timestamp) : Prop where
  year : inRange t.date.year = true
  nanos : t.nanos < 1000000000 ∨ t.nanos < 2000000000 ∧ t.secondOfDay % 60 = 59

theorem daysInMonth_le (y : Int) (m : Nat) : daysInMonth y m ≤ 31 := by
  unfold daysInMonth
  split
  · split <;> decide
  · decide
  · decide
  · decide
  · decide
  · decide

theorem calendarDate_of_isReal {d : Date} (h : d.isReal = true) (rest : List Char) :
    calendarDate ((yearText d.year).toList ++ '-' :: ((digits 2 d.month).toList ++
      '-' :: ((digits 2 d.day).toList ++ 'T' :: rest))) = some (d, 'T' :: rest) := by
  obtain ⟨y, month, day⟩ := d
  obtain ⟨-, hmonth, -, hday⟩ := Date.isReal_eq_true_iff.mp h
  have hlength := daysInMonth_le y month
  have hmonth' : month < 100 := by omega
  have hday' : day < 100 := by omega
  unfold calendarDate
  rw [year_yearText _ (not_digit_of_head (by decide) _)]
  dsimp only [Option.bind_eq_bind, Option.bind_some]
  rw [mark_cons (by decide)]
  dsimp only [Option.bind_some]
  rw [field_digits hmonth' (not_digit_of_head (by decide) _)]
  dsimp only [Option.bind_some]
  rw [mark_cons (by decide)]
  dsimp only [Option.bind_some]
  rw [field_digits hday' (not_digit_of_head (by decide) _)]
  rfl

theorem calendarDate_dateText (t : Timestamp) (rest : List Char) :
    calendarDate (t.dateText.toList ++ 'T' :: rest) = some (t.date, 'T' :: rest) := by
  have hreal : t.date.isReal = true := Date.isReal_ofDayNumber (t.seconds / 86400)
  rw [← calendarDate_of_isReal hreal rest]
  simp [dateText, String.toList_append]

theorem head_fractionText (n : Nat) (rest : List Char) :
    ∀ c, ((fractionText n).toList ++ 'Z' :: rest).head? = some c → c.isDigit = false := by
  have hpoint (width n : Nat) (rest : List Char) :
      ∀ c, (("." ++ digits width n).toList ++ rest).head? = some c → c.isDigit = false := by
    intro c hc
    rw [String.toList_append] at hc
    obtain rfl : '.' = c := Option.some.inj hc
    decide
  unfold fractionText
  split
  · exact not_digit_of_head (by decide) rest
  · split
    · exact hpoint _ _ _
    · split <;> exact hpoint _ _ _

theorem timeOfDay_clock (h : t.Sound) (rest : List Char) :
    timeOfDay (t.clock.toList ++ (fractionText (t.nanos % 1000000000)).toList ++ 'Z' :: rest) =
      some ((t.secondOfDay, t.nanos), 'Z' :: rest) := by
  have hday : t.secondOfDay < 86400 := by
    unfold secondOfDay
    omega
  obtain ⟨s, hs⟩ : ∃ s, s = t.secondOfDay := ⟨_, rfl⟩
  obtain ⟨second, hsecond⟩ : ∃ second, second = t.second := ⟨_, rfl⟩
  have hsum : second = s % 60 + t.nanos / 1000000000 := by rw [hsecond, hs, Timestamp.second]
  have hnanos := h.nanos
  rw [← hs] at hday hnanos
  have htext : t.clock.toList ++ (fractionText (t.nanos % 1000000000)).toList ++ 'Z' :: rest =
      (digits 2 (s / 3600)).toList ++ ':' :: ((digits 2 (s / 60 % 60)).toList ++ ':' ::
        ((digits 2 second).toList ++
          ((fractionText (t.nanos % 1000000000)).toList ++ 'Z' :: rest))) := by
    simp [clock, String.toList_append, hs, hsecond]
  unfold timeOfDay
  rw [htext, field_digits (by omega) (not_digit_of_head (by decide) _)]
  dsimp only [Option.bind_eq_bind, Option.bind_some]
  rw [mark_cons (by decide)]
  dsimp only [Option.bind_some]
  rw [field_digits (by omega) (not_digit_of_head (by decide) _)]
  dsimp only [Option.bind_some]
  rw [mark_cons (by decide)]
  dsimp only [Option.bind_some]
  rw [field_digits (by omega) (head_fractionText _ _)]
  dsimp only [Option.bind_some]
  rw [fraction_fractionText (by omega)]
  have hguard : s / 3600 < 24 ∧ s / 60 % 60 < 60 ∧ second ≤ 60 := by omega
  simp only [Option.bind_some, guard, if_pos hguard, Option.pure_def, ← hs]
  by_cases hleap : second = 60
  · rw [if_pos hleap]
    have hstart : s / 3600 * 3600 + s / 60 % 60 * 60 + 59 = s := by omega
    have hrest : 1000000000 + t.nanos % 1000000000 = t.nanos := by omega
    rw [hstart, hrest]
  · rw [if_neg hleap]
    have hstart : s / 3600 * 3600 + s / 60 % 60 * 60 + second = s := by omega
    have hrest : t.nanos % 1000000000 = t.nanos := by omega
    rw [hstart, hrest]

theorem parse?_text (h : t.Sound) : Timestamp.parse? t.text = some t := by
  have htext : t.text.toList = t.dateText.toList ++ 'T' ::
      (t.clock.toList ++ (fractionText (t.nanos % 1000000000)).toList ++ 'Z' :: []) := by
    simp [text, String.toList_append]
  have hreal : t.date.isReal = true := Date.isReal_ofDayNumber (t.seconds / 86400)
  have hseconds : t.date.dayNumber * 86400 + (t.secondOfDay : Int) - 0 = t.seconds := by
    rw [date, Date.dayNumber_ofDayNumber, secondOfDay]
    omega
  have hblank : skipBlanks ['Z'] = ['Z'] := skipBlanks_cons (by decide) []
  have hend : skipBlanks [] = [] := rfl
  unfold Timestamp.parse?
  rw [htext, calendarDate_dateText]
  simp only [Option.bind_eq_bind, Option.bind_some, List.head?_cons, Option.map_some,
    List.drop_succ_cons, List.drop_zero, timeOfDay_clock h, hblank, clockOffset, hend, hreal,
    h.year, hseconds]
  simp [guard]

end Timestamp
end EditorSync.Time

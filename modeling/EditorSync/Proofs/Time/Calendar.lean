import EditorSync.Time.Calendar

namespace EditorSync.Time.Date

variable {c q t u d : Nat} {year days : Int}

def ofDay (year : Int) (u : Nat) : Date :=
  let month := (5 * u + 2) / 153
  let day := u - daysBefore month + 1
  if month < 10 then ⟨year, month + 3, day⟩ else ⟨year + 1, month - 9, day⟩

structure Lies (d c q t u : Nat) : Prop where
  day : d = 36524 * c + 1461 * q + 365 * t + u
  centuries : c ≤ 3
  spans : q ≤ 24
  years : t ≤ 3
  days : u ≤ 365
  leap : u = 365 → t = 3 ∧ (q < 24 ∨ c = 3)

theorem exists_lies (h : d < 146097) : ∃ c q t u, Lies d c q t u := by
  by_cases hlast : d = 146096
  · exact ⟨3, 24, 3, 365, by omega, by decide, by decide, by decide, by decide, by decide⟩
  · obtain ⟨c, hc⟩ : ∃ c, c = d / 36524 := ⟨_, rfl⟩
    obtain ⟨q, hq⟩ : ∃ q, q = d % 36524 / 1461 := ⟨_, rfl⟩
    obtain ⟨s, hs⟩ : ∃ s, s = d % 36524 % 1461 := ⟨_, rfl⟩
    have hbound : s ≤ 1460 := by omega
    by_cases hleap : s = 1460
    · exact ⟨c, q, 3, 365, by omega, by omega, by omega, by omega, by omega, by omega⟩
    · exact ⟨c, q, s / 365, s % 365, by omega, by omega, by omega, by omega, by omega, by omega⟩

theorem Lies.yearOfEra (h : Lies d c q t u) :
    (d - d / 1460 + d / 36524 - d / 146096) / 365 = 100 * c + 4 * q + t := by
  obtain ⟨hday, hc, hq, ht, hu, hleap⟩ := h
  by_cases hlast : d = 146096
  · subst hlast
    have hyear : 100 * c + 4 * q + t = 399 := by omega
    rw [hyear]
  · have hcentury : d / 36524 = c := by omega
    have hera : d / 146096 = 0 := by omega
    rw [hcentury, hera]
    by_cases hearly : 24 * c + q + 365 * t + u < 1460
    · have hspans : d / 1460 = 25 * c + q := by omega
      have hsum : d - (25 * c + q) + c - 0 = u + 365 * (100 * c + 4 * q + t) := by omega
      rw [hspans, hsum, Nat.add_mul_div_left _ _ (by decide)]
      omega
    · have hspans : d / 1460 = 25 * c + q + 1 := by omega
      have hsum : d - (25 * c + q + 1) + c - 0 = u - 1 + 365 * (100 * c + 4 * q + t) := by omega
      rw [hspans, hsum, Nat.add_mul_div_left _ _ (by decide)]
      omega

theorem Lies.dayOfYear (h : Lies d c q t u) :
    let y := 100 * c + 4 * q + t
    365 * y + y / 4 - y / 100 + u = d := by
  obtain ⟨hday, hc, hq, ht, hu, hleap⟩ := h
  intro y
  have hfours : y / 4 = 25 * c + q := by omega
  have hcenturies : y / 100 = c := by omega
  omega

theorem exists_ofDay (days : Int) : ∃ c q t u, Lies ((days + 719468) % 146097).toNat c q t u ∧
    ofDayNumber days =
      ofDay ((days + 719468) / 146097 * 400 + (100 * c + 4 * q + t : Nat)) u := by
  obtain ⟨d, hd⟩ : ∃ d, d = ((days + 719468) % 146097).toNat := ⟨_, rfl⟩
  have hbound : d < 146097 := by omega
  obtain ⟨c, q, t, u, hlies⟩ := exists_lies hbound
  refine ⟨c, q, t, u, hd ▸ hlies, ?_⟩
  have hday := hlies.dayOfYear
  have hrest : d - (365 * (100 * c + 4 * q + t) + (100 * c + 4 * q + t) / 4 -
      (100 * c + 4 * q + t) / 100) = u := by omega
  simp only [ofDayNumber, ← hd, hlies.yearOfEra, hrest, ofDay]

theorem dayNumber_ofDay (year : Int) (h : u ≤ 365) :
    (ofDay year u).dayNumber =
      year / 400 * 146097 + (year % 400 * 365 + year % 400 / 4 - year % 400 / 100) + u - 719468 := by
  unfold ofDay
  obtain ⟨m, hm⟩ : ∃ m, m = (5 * u + 2) / 153 := ⟨_, rfl⟩
  have hmonth : m ≤ 11 := by omega
  simp only [← hm]
  by_cases hearly : m < 10
  · have hstart : ¬m + 3 ≤ 2 := by omega
    have hmod : (m + 3 + 9) % 12 = m := by omega
    simp only [if_pos hearly, dayNumber, if_neg hstart, hmod, daysBefore]
    omega
  · have hstart : m - 9 ≤ 2 := by omega
    have hmod : (m - 9 + 9) % 12 = m := by omega
    have hyear : year + 1 - 1 = year := by omega
    simp only [if_neg hearly, dayNumber, if_pos hstart, hmod, hyear, daysBefore]
    omega

theorem isReal_eq_true_iff {month day : Nat} : (⟨year, month, day⟩ : Date).isReal = true ↔
    1 ≤ month ∧ month ≤ 12 ∧ 1 ≤ day ∧ day ≤ daysInMonth year month := by
  simp [isReal, and_assoc]

theorem daysBefore_add_daysInMonth (year : Int) {m : Nat} (h : m < 10) :
    daysBefore m + daysInMonth year (m + 3) = daysBefore (m + 1) := by
  have hcases : m = 0 ∨ m = 1 ∨ m = 2 ∨ m = 3 ∨ m = 4 ∨ m = 5 ∨ m = 6 ∨ m = 7 ∨ m = 8 ∨ m = 9 := by
    omega
  rcases hcases with rfl | rfl | rfl | rfl | rfl | rfl | rfl | rfl | rfl | rfl <;> rfl

theorem isReal_ofDay (h : u ≤ 365) (hleap : u = 365 → isLeapYear (year + 1) = true) :
    (ofDay year u).isReal = true := by
  obtain ⟨m, hm⟩ : ∃ m, m = (5 * u + 2) / 153 := ⟨_, rfl⟩
  have hstart : daysBefore m ≤ u ∧ u < daysBefore (m + 1) := by
    unfold daysBefore
    omega
  unfold ofDay
  simp only [← hm]
  by_cases hearly : m < 10
  · have hlength := daysBefore_add_daysInMonth year hearly
    rw [if_pos hearly, isReal_eq_true_iff]
    exact ⟨by omega, by omega, by omega, by omega⟩
  · rw [if_neg hearly, isReal_eq_true_iff]
    refine ⟨by omega, by omega, by omega, ?_⟩
    by_cases hjanuary : m = 10
    · subst hjanuary
      have hfirst : daysBefore 10 = 306 ∧ daysBefore 11 = 337 := by decide
      change u - daysBefore 10 + 1 ≤ 31
      omega
    · obtain rfl : m = 11 := by omega
      have hfirst : daysBefore 11 = 337 := rfl
      change u - daysBefore 11 + 1 ≤ if isLeapYear (year + 1) then 29 else 28
      by_cases hlast : u = 365
      · rw [hleap hlast, hlast, hfirst]
        decide
      · split <;> omega

theorem Lies.year_ediv (h : Lies d c q t u) (era : Int) :
    (era * 400 + (100 * c + 4 * q + t : Nat)) / 400 = era ∧
      (era * 400 + (100 * c + 4 * q + t : Nat)) % 400 = (100 * c + 4 * q + t : Nat) := by
  obtain ⟨-, hc, hq, ht, -, -⟩ := h
  omega

theorem dayNumber_ofDayNumber (days : Int) : (ofDayNumber days).dayNumber = days := by
  obtain ⟨c, q, t, u, hlies, hdate⟩ := exists_ofDay days
  obtain ⟨hera, hyear⟩ := hlies.year_ediv ((days + 719468) / 146097)
  have hday := hlies.dayOfYear
  rw [hdate, dayNumber_ofDay _ hlies.days, hera, hyear]
  have hpast : (100 * c + 4 * q + t) / 100 ≤ 100 * c + 4 * q + t := Nat.div_le_self _ _
  omega

theorem isReal_ofDayNumber (days : Int) : (ofDayNumber days).isReal = true := by
  obtain ⟨c, q, t, u, hlies, hdate⟩ := exists_ofDay days
  rw [hdate]
  refine isReal_ofDay hlies.days fun hlast => ?_
  obtain ⟨-, hc, hq, ht, -, hleap⟩ := hlies
  obtain ⟨rfl, hspan⟩ := hleap hlast
  obtain ⟨era, hera⟩ : ∃ era, era = (days + 719468) / 146097 := ⟨_, rfl⟩
  rw [← hera]
  have hfour : (era * 400 + (100 * c + 4 * q + 3 : Nat) + 1) % 4 = 0 := by omega
  have hcentury : (era * 400 + (100 * c + 4 * q + 3 : Nat) + 1) % 100 ≠ 0 ∨
      (era * 400 + (100 * c + 4 * q + 3 : Nat) + 1) % 400 = 0 := by
    rcases hspan with hspan | rfl
    · left
      omega
    · by_cases hq : q < 24
      · left
        omega
      · right
        omega
  simp only [isLeapYear, Bool.and_eq_true, Bool.or_eq_true, beq_iff_eq, bne_iff_ne]
  exact ⟨hfour, hcentury⟩

end EditorSync.Time.Date

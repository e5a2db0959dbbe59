import EditorSync.Console.EventLine
import EditorSync.Proofs.Console.Terminal
import EditorSync.Proofs.Time.Timestamp

namespace EditorSync.Console

open Session (Entry Event)

variable {entry : Entry} {event : Event} {text : String} {width : Nat}

def textsOf : Event → List String
  | .started | .shutdown => []
  | .endpointConnected endpoint | .endpointDisconnected endpoint => [endpoint]
  | .tracking path operation old => path :: operation :: old.toList
  | .deltaApplied path kind _ _ => [path, kind]
  | .deltaBuffered path _ => [path]
  | .rejected path error reason => path.toList ++ [error, reason]
  | .reconciled path owner _ _ _ => [path, owner]
  | .reconcileFailed path reason => [path, reason]
  | .serverState language state => [language, state]

section Unescaped

theorem unescaped_of_isDigit (h : ∀ c ∈ text.toList, c.isDigit = true) : Unescaped text :=
  fun hmem => absurd (h escape hmem) (by decide)

theorem unescaped_toString : Unescaped (toString text) ↔ Unescaped text := Iff.rfl

theorem unescaped_repr (n : Nat) : Unescaped n.repr := by
  refine unescaped_of_isDigit fun c hc => ?_
  change c ∈ (toString n).toList at hc
  rw [Text.toList_toString] at hc
  exact Nat.isDigit_of_mem_toDigits (by decide) (by decide) hc

theorem unescaped_pushn (h : Unescaped text) {c : Char} (hc : escape ≠ c) (n : Nat) :
    Unescaped (text.pushn c n) := by
  rw [Unescaped, Text.toList_pushn, List.mem_append, not_or]
  exact ⟨h, fun hmem => hc (List.eq_of_mem_replicate hmem)⟩

theorem unescaped_alignLeft (h : Unescaped text) (width : Nat) :
    Unescaped (alignLeft width text) :=
  unescaped_pushn h (by decide) _

theorem unescaped_clock (t : Time.Timestamp) : Unescaped t.clock := by
  have hdigits (n : Nat) : Unescaped (Time.digits 2 n) :=
    unescaped_of_isDigit fun _ => Time.isDigit_of_mem_digits
  have hcolon : Unescaped ":" := by decide
  simp only [Time.Timestamp.clock, unescaped_append, hdigits, hcolon, and_self]

end Unescaped

theorem description_rejected (colours : Bool) (path : Option String) (error reason : String) :
    description colours (.rejected path error reason) =
      paint colours .red ("REJECTED " ++ error) ++ (" " ++ path.getD "-" ++ " ") ++
        paint colours .dim reason := by
  simp only [description, String.intercalate_cons_cons, String.intercalate_singleton,
    String.append_assoc]

theorem decorates_description (h : ∀ text ∈ textsOf event, Unescaped text) :
    Decorates (description false event) (description true event) := by
  cases event with
  | started => exact .plain (by decide)
  | shutdown => exact .plain (by decide)
  | endpointConnected endpoint =>
    have hendpoint := h endpoint (List.mem_singleton_self _)
    exact .plain (unescaped_append.mpr ⟨hendpoint, by decide⟩)
  | endpointDisconnected endpoint =>
    have hendpoint := h endpoint (List.mem_singleton_self _)
    exact .plain (unescaped_append.mpr ⟨hendpoint, by decide⟩)
  | tracking path operation old =>
    have hpath := h path (by simp [textsOf])
    have hoperation := unescaped_alignLeft (h operation (by simp [textsOf])) 8
    cases old with
    | none =>
      refine .plain ?_
      simp +decide [description, unescaped_append, unescaped_toString, hpath, hoperation]
    | some old =>
      have hold := h old (by simp [textsOf])
      refine .plain ?_
      simp +decide [description, unescaped_append, unescaped_toString, hpath, hoperation, hold]
  | deltaApplied path kind seq length =>
    have hpath := h path (by simp [textsOf])
    have hkind := unescaped_alignLeft (h kind (by simp [textsOf])) 11
    refine .append (.painted hkind .green) (.plain ?_)
    cases seq <;> simp +decide [unescaped_append, unescaped_toString, unescaped_repr, hpath]
  | deltaBuffered path seq =>
    have hpath := h path (by simp [textsOf])
    refine .append (.painted (by decide) .yellow) (.plain ?_)
    simp +decide [unescaped_append, unescaped_toString, unescaped_repr, hpath]
  | rejected path error reason =>
    have herror := h error (by simp [textsOf])
    have hreason := h reason (by simp [textsOf])
    have hpath : Unescaped (path.getD "-") := by
      cases path with
      | none => decide
      | some path => exact h path (by simp [textsOf])
    rw [description_rejected, description_rejected]
    refine .append (.append (.painted ?_ .red) (.plain ?_)) (.painted hreason .dim)
    · exact unescaped_append.mpr ⟨by decide, herror⟩
    · simp +decide [unescaped_append, hpath]
  | reconciled path owner problems highlights durationMs =>
    have hpath := h path (by simp [textsOf])
    have howner := h owner (by simp [textsOf])
    refine .append (.painted (by decide) .blue) (.plain ?_)
    simp +decide [unescaped_append, unescaped_toString, unescaped_repr, hpath, howner]
  | reconcileFailed path reason =>
    have hpath := h path (by simp [textsOf])
    have hreason := h reason (by simp [textsOf])
    refine .append (.append (.painted (by decide) .red) (.plain ?_)) (.painted hreason .dim)
    simp +decide [unescaped_append, unescaped_toString, hpath]
  | serverState language state =>
    have hlanguage := h language (by simp [textsOf])
    have hstate := h state (by simp [textsOf])
    refine .append (.painted hlanguage .cyan) (.plain ?_)
    simp +decide [unescaped_append, unescaped_toString, hstate]

theorem description_cases (event : Event) : description true event = description false event ∨
    ∃ colour text rest, description true event = paint true colour text ++ rest := by
  cases event with
  | started => exact .inl rfl
  | shutdown => exact .inl rfl
  | endpointConnected => exact .inl rfl
  | endpointDisconnected => exact .inl rfl
  | tracking path operation old => cases old <;> exact .inl rfl
  | deltaApplied => exact .inr ⟨_, _, _, rfl⟩
  | deltaBuffered => exact .inr ⟨_, _, _, rfl⟩
  | rejected =>
    rw [description_rejected, String.append_assoc]
    exact .inr ⟨_, _, _, rfl⟩
  | reconciled => exact .inr ⟨_, _, _, rfl⟩
  | reconcileFailed =>
    rw [description, String.append_assoc]
    exact .inr ⟨_, _, _, rfl⟩
  | serverState => exact .inr ⟨_, _, _, rfl⟩

section Lines

def room (width : Nat) : Nat := max (width - 11) 20

def frontOf (zone : Time.Zone) (entry : Entry) : String :=
  s!"[{(entry.timestamp.inZone zone).clock}]" ++ " "

variable (zone : Time.Zone)

theorem decorates_front (entry : Entry) (colours : Bool) : Decorates (frontOf zone entry)
    (paint colours .dim s!"[{(entry.timestamp.inZone zone).clock}]" ++ " ") := by
  have hclock : Unescaped s!"[{(entry.timestamp.inZone zone).clock}]" := by
    simp +decide [unescaped_append, unescaped_toString, unescaped_clock]
  refine .append ?_ (.plain (by decide))
  cases colours with
  | true => exact .painted hclock .dim
  | false => exact .plain hclock

theorem length_frontOf (h : entry.timestamp.Sound) : (frontOf zone entry).length = 11 := by
  have hdigits {n : Nat} (hn : n < 100) : (Time.digits 2 n).length = 2 := by
    rw [← String.length_toList]
    exact Time.length_digits (by decide) hn
  have hday : (entry.timestamp.inZone zone).secondOfDay < 86400 := by
    unfold Time.Timestamp.secondOfDay
    omega
  have hsecond : (entry.timestamp.inZone zone).second < 100 := by
    have hnanos : (entry.timestamp.inZone zone).nanos < 2000000000 := by
      have hsound := h.nanos
      dsimp only [Time.Timestamp.inZone]
      omega
    unfold Time.Timestamp.second
    omega
  have hclock : (entry.timestamp.inZone zone).clock.length = 8 := by
    simp only [Time.Timestamp.clock, String.length_append]
    rw [hdigits (by omega), hdigits (by omega), hdigits hsecond]
    rfl
  have hfront : (frontOf zone entry).length =
      "[".length + (entry.timestamp.inZone zone).clock.length + "]".length + " ".length := by
    simp only [frontOf, String.length_append]
    rfl
  rw [hfront, hclock]
  rfl

theorem eventLine_eq (entry : Entry) (colours : Bool) (width : Nat) :
    (eventLine zone entry colours width).toList =
      (paint colours .dim s!"[{(entry.timestamp.inZone zone).clock}]" ++ " ").toList ++
        (truncate (description colours entry.event) (room width)).toList := by
  rw [eventLine, String.toList_append]
  rfl

theorem eventLine_bare (entry : Entry) (width : Nat) : eventLine zone entry false width =
    frontOf zone entry ++ truncate (description false entry.event) (room width) := rfl

theorem shownIn_eventLine (entry : Entry) (colours : Bool) (width : Nat) :
    shownIn (eventLine zone entry colours width).toList = (frontOf zone entry).toList ++
      shownIn (truncate (description colours entry.event) (room width)).toList := by
  rw [eventLine_eq, (decorates_front zone entry colours).shownIn_append]

theorem length_shownIn_eventLine_le (h : entry.timestamp.Sound) (colours : Bool) (width : Nat) :
    (shownIn (eventLine zone entry colours width).toList).length ≤ max width 31 := by
  have hfront := length_frontOf zone h
  have hshown := length_shownIn_le (truncate (description colours entry.event) (room width)).toList
  have hroom := length_truncate_le (description colours entry.event) (room width)
  rw [String.length_toList] at hshown
  rw [shownIn_eventLine, List.length_append, String.length_toList, hfront]
  unfold room at *
  omega

theorem truncate_of_fits {n : Nat} (h : text.length ≤ n) : truncate text n = text := if_pos h

theorem truncate_of_cut {n : Nat} (h : n < text.length) (hn : 3 < n) :
    (truncate text n).toList = text.toList.take (n - 3) ++ "...".toList := by
  rw [truncate, if_neg (Nat.not_le_of_lt h), if_neg (Nat.not_le_of_lt hn), String.toList_append,
    String.toList_ofList]

theorem unescaped_truncate (h : Unescaped text) (n : Nat) : Unescaped (truncate text n) := by
  unfold truncate
  split
  · exact h
  · split
    · exact unescaped_pushn (by decide) (by decide) n
    · rw [unescaped_append, Unescaped, String.toList_ofList]
      exact ⟨fun hmem => h (List.mem_of_mem_take hmem), by decide⟩

/-- A description that has no colours, or for which there is room with the codes of its colours. -/
def Fits (event : Event) (width : Nat) : Prop :=
  description true event = description false event ∨ (description true event).length ≤ room width

theorem Fits.decorates (h : Fits event width) (htexts : ∀ text ∈ textsOf event, Unescaped text) :
    Decorates (truncate (description false event) (room width))
      (truncate (description true event) (room width)) := by
  have hdescription := decorates_description htexts
  rcases h with hplain | hfits
  · rw [hplain]
    exact .plain (unescaped_truncate hdescription.unescaped _)
  · rw [truncate_of_fits hfits, truncate_of_fits (hdescription.length_le.trans hfits)]
    exact hdescription

theorem Fits.decorates_eventLine (h : Fits entry.event width)
    (htexts : ∀ text ∈ textsOf entry.event, Unescaped text) :
    Decorates (eventLine zone entry false width) (eventLine zone entry true width) :=
  .append (decorates_front zone entry true) (h.decorates htexts)

theorem shownIn_cut {n : Nat} (h : n < text.length) (hn : 3 < n) :
    shownIn (truncate text n).toList = shownIn (text.toList.take (n - 3)) ++ "...".toList := by
  have hdots : Unescaped "..." := by decide
  rw [truncate_of_cut h hn, shownIn_append (by decide), (Decorates.plain hdots).shownIn_eq]

theorem length_shownIn_cut_lt {colour : Colour} {rest : String} {n : Nat} (hn : 20 ≤ n)
    (hlong : n < (paint true colour text ++ rest).length) :
    (shownIn (truncate (paint true colour text ++ rest) n).toList).length < n := by
  have hdigits : (Decorates.digitsOf colour).length ≤ 2 := by
    cases colour <;> decide
  obtain ⟨m, hm⟩ : ∃ m, n - 3 = (Decorates.digitsOf colour).length + (m + 1) + 2 :=
    ⟨n - 6 - (Decorates.digitsOf colour).length, by omega⟩
  have hkept : (paint true colour text ++ rest).toList.take (n - 3) =
      escape :: '[' :: (Decorates.digitsOf colour ++ 'm' ::
        (text.toList ++ escape :: '[' :: (reset ++ 'm' :: rest.toList)).take m) := by
    rw [String.toList_append, Decorates.toList_paint, hm, List.take_succ_cons, List.take_succ_cons,
      List.take_length_add_append, List.take_succ_cons]
  have hdots : "...".toList.length = 3 := rfl
  have hshown := length_shownIn_le
    ((text.toList ++ escape :: '[' :: (reset ++ 'm' :: rest.toList)).take m)
  rw [List.length_take] at hshown
  rw [shownIn_cut hlong (by omega), hkept, shownIn_of_code (Decorates.code?_digitsOf colour _),
    List.length_append, hdots]
  omega

theorem not_shown_of_not_fits (h : ¬ Fits entry.event width)
    (hdots : ∀ stem, description false entry.event ≠ stem ++ "...") :
    shownIn (eventLine zone entry true width).toList ≠ (eventLine zone entry false width).toList := by
  obtain ⟨hcoloured, hlong⟩ := not_or.mp h
  rw [Nat.not_le] at hlong
  have hroom : 20 ≤ room width := Nat.le_max_right _ _
  rw [shownIn_eventLine, eventLine_bare, String.toList_append, Ne, List.append_cancel_left_eq]
  intro hsame
  by_cases hbare : (description false entry.event).length ≤ room width
  · rw [truncate_of_fits hbare, shownIn_cut hlong (by omega)] at hsame
    refine hdots (String.ofList (shownIn ((description true entry.event).toList.take
      (room width - 3)))) ?_
    rw [← String.toList_inj, ← hsame]
    simp only [String.toList_append, String.toList_ofList]
  · obtain ⟨colour, text, rest, hpainted⟩ := (description_cases entry.event).resolve_left hcoloured
    rw [hpainted] at hlong hsame
    have hlt := length_shownIn_cut_lt hroom hlong
    have hdots : "...".toList.length = 3 := rfl
    rw [hsame, truncate_of_cut (Nat.lt_of_not_le hbare) (by omega), List.length_append,
      List.length_take, String.length_toList, hdots] at hlt
    omega

/-- No line shows more than there is room for, and a line without colours shows just what it is. A
line with colours shows the same, and ends its colours, if there is room for the codes as well. If
there is not, it shows something else, unless the description ends in dots of its own. -/
theorem colours_decorate (htime : entry.timestamp.Sound)
    (htexts : ∀ text ∈ textsOf entry.event, Unescaped text) (width : Nat) :
    (∀ colours, (shownIn (eventLine zone entry colours width).toList).length ≤ max width 31) ∧
      shownIn (eventLine zone entry false width).toList = (eventLine zone entry false width).toList ∧
      (Fits entry.event width →
        shownIn (eventLine zone entry true width).toList = (eventLine zone entry false width).toList ∧
          Closed (codesIn (eventLine zone entry true width).toList)) ∧
      ((∀ stem, description false entry.event ≠ stem ++ "...") →
        shownIn (eventLine zone entry true width).toList = (eventLine zone entry false width).toList →
        Fits entry.event width) := by
  refine ⟨fun colours => length_shownIn_eventLine_le zone htime colours width, ?_, ?_, ?_⟩
  · have hbare : Unescaped (eventLine zone entry false width) := by
      have hdescription := (decorates_description htexts).unescaped
      rw [eventLine_bare, unescaped_append]
      exact ⟨(decorates_front zone entry false).unescaped, unescaped_truncate hdescription _⟩
    exact (Decorates.plain hbare).shownIn_eq
  · intro hfits
    have hline := hfits.decorates_eventLine zone htexts
    exact ⟨hline.shownIn_eq, hline.closed⟩
  · intro hdots hsame
    by_contra hfits
    exact not_shown_of_not_fits zone hfits hdots hsame

def timedOut : Entry where
  timestamp := ⟨1767323045, 0⟩
  event := .reconcileFailed "/a" "timeout"

theorem colours_decorate_timedOut : timedOut.timestamp.Sound ∧
    (∀ text ∈ textsOf timedOut.event, Unescaped text) ∧ Fits timedOut.event 60 ∧
    shownIn (eventLine (fun _ => 3600) timedOut true 60).toList =
      (eventLine (fun _ => 3600) timedOut false 60).toList ∧
    Closed (codesIn (eventLine (fun _ => 3600) timedOut true 60).toList) := by
  have htime : timedOut.timestamp.Sound := ⟨by decide, .inl (by decide)⟩
  have htexts : ∀ text ∈ textsOf timedOut.event, Unescaped text := by decide
  have hfits : Fits timedOut.event 60 := .inr (by decide)
  exact ⟨htime, htexts, hfits, (colours_decorate _ htime htexts 60).2.2.1 hfits⟩

theorem eventLine_timedOut : timedOut.timestamp.Sound ∧
    (∀ text ∈ textsOf timedOut.event, Unescaped text) ∧
    eventLine .utc timedOut false 50 = "[03:04:05] RECONCILE FAILED /a: timeout" ∧
    eventLine .utc timedOut true 50 =
      "\x1b[2m[03:04:05]\x1b[0m \x1b[31mRECONCILE FAILED\x1b[0m /a: \x1b[2mti..." ∧
    shownIn (eventLine .utc timedOut true 50).toList = "[03:04:05] RECONCILE FAILED /a: ti...".toList ∧
    ¬ Closed (codesIn (eventLine .utc timedOut true 50).toList) := by
  have hfront : Decorates ("[03:04:05]" ++ " " ++ "RECONCILE FAILED" ++ " /a: ")
      (paint true .dim "[03:04:05]" ++ " " ++ paint true .red "RECONCILE FAILED" ++ " /a: ") :=
    .append (.append (.append (.painted (by decide) .dim) (.plain (by decide)))
      (.painted (by decide) .red)) (.plain (by decide))
  have hcut : Unescaped "ti..." := by decide
  have hline : (eventLine .utc timedOut true 50).toList =
      (paint true .dim "[03:04:05]" ++ " " ++ paint true .red "RECONCILE FAILED" ++ " /a: ").toList ++
        escape :: '[' :: (Decorates.digitsOf .dim ++ 'm' :: "ti...".toList) := by
    decide
  refine ⟨⟨by decide, .inl (by decide)⟩, by decide, by decide, by decide, ?_, ?_⟩
  · rw [hline, hfront.shownIn_append, shownIn_of_code (Decorates.code?_digitsOf .dim _),
      (Decorates.plain hcut).shownIn_eq]
    rfl
  · rw [hline]
    exact hfront.not_closed_of_cut hcut .dim

end Lines

end EditorSync.Console

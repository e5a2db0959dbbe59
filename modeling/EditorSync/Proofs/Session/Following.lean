import Mathlib
import EditorSync.Proofs.Session.Turns
import EditorSync.Proofs.Text

/-! A log that grows while it is read, until it is removed. A call of `Tail.next` is the turns of
`Reader.quietly_next`, with the log as it may be at each of them. -/

namespace EditorSync.Session

open Text (Bytes)

structure Following where
  log : LogFile
  reader : Reader
  returned : List Tail.Step
  deriving DecidableEq, Repr

namespace Following

def start (content : Bytes) : Following := ⟨⟨content, true⟩, .start, []⟩

def append (s : Following) (piece : Bytes) : Following :=
  { s with log := { s.log with content := s.log.content ++ piece } }

def remove (s : Following) : Following := { s with log := { s.log with isThere := false } }

def turn (s : Following) : Following :=
  { s with
    reader := (s.reader.turn s.log).2
    returned := s.returned ++ (s.reader.turn s.log).1.toList }

theorem turn_cases (s : Following) : ∃ result, Reader.Turns s.log s.reader result ∧
    s.turn = ⟨s.log, result.2, s.returned ++ result.1.toList⟩ :=
  ⟨_, Reader.turns s.log s.reader, rfl⟩

def turns (s : Following) : Nat → Following
  | 0 => s
  | n + 1 => s.turn.turns n

theorem log_turns (s : Following) (n : Nat) : (s.turns n).log = s.log := by
  induction n generalizing s with
  | zero => rfl
  | succ n ih => exact ih s.turn

def unread (s : Following) : Bytes := s.log.content.drop s.reader.tail.offset

def left (s : Following) : Nat :=
  2 * (s.log.content.length - s.reader.tail.position) + s.reader.tail.buffer.length

def AtEnd (s : Following) : Prop :=
  ∃ line, s.reader.phase = .reading line ∧ 10 ∉ s.reader.tail.buffer ∧
    s.log.content.length ≤ s.reader.tail.position

/-- The log grows by pieces of any kind until it is removed, and the reader takes its turns at any
time. But no turn meets the end inside a character, and no line is completed in between the turn
that meets the end and the one that finds the log removed. -/
inductive Reached : Following → Prop
  | start (content : Bytes) : Reached (.start content)
  | append {s : Following} (h : Reached s) (hthere : s.log.isThere = true) (piece : Bytes) :
    Reached (s.append piece)
  | remove {s : Following} (h : Reached s) (hseen : s.reader.phase = .looking → 10 ∉ s.unread) :
    Reached s.remove
  | turn {s : Following} (h : Reached s) (htext : s.AtEnd → (Text.decode? s.unread).isSome) :
    Reached s.turn

end Following

def written (texts : List String) : Bytes := Text.terminated (texts.map Text.encode)

def parsed (texts : List String) : List Entry :=
  texts.filterMap fun text => Entry.ofLine? (Text.trim text)

variable {texts : List String} {line rest : Bytes} {k m : Nat}

section Lines

theorem written_cons (text : String) (texts : List String) :
    written (text :: texts) = Text.encode text ++ 10 :: written texts := by
  simp [written, Text.terminated]

theorem written_append (texts more : List String) :
    written (texts ++ more) = written texts ++ written more := by
  simp [written, Text.terminated]

theorem written_concat (texts : List String) (text : String) :
    written (texts ++ [text]) = written texts ++ Text.encode (text ++ "\n") := by
  have hend : Text.encode "\n" = [10] := by decide
  simp [written, Text.terminated, Text.encode_append, hend]

theorem parsed_concat (texts : List String) (text : String) :
    parsed (texts ++ [text]) = parsed texts ++ (Entry.ofLine? (Text.trim text)).toList := by
  cases hentry : Entry.ofLine? (Text.trim text) <;> simp [parsed, hentry]

variable (hlines : ∀ text ∈ texts, '\n' ∉ text.toList)

include hlines

theorem count_written : (written texts).count 10 = texts.length := by
  induction texts with
  | nil => rfl
  | cons text texts ih =>
    rw [List.forall_mem_cons] at hlines
    have hfirst := List.count_eq_zero.mpr (Text.newline_not_mem_encode hlines.1)
    rw [written_cons, List.count_append, hfirst, List.count_cons_self, ih hlines.2,
      List.length_cons]
    omega

theorem eq_cons_of_prefix (hline : 10 ∉ line) (h : line ++ 10 :: rest <+: written texts) :
    ∃ text more, texts = text :: more ∧ line = Text.encode text := by
  obtain ⟨after, hafter⟩ := h
  cases texts with
  | nil =>
    have hlength := congrArg List.length hafter
    simp [written, Text.terminated] at hlength
  | cons text more =>
    rw [List.forall_mem_cons] at hlines
    rw [written_cons, List.append_assoc, List.cons_append] at hafter
    have hsame := congrArg Text.byteLines hafter
    rw [Text.byteLines_append hline,
      Text.byteLines_append (Text.newline_not_mem_encode hlines.1)] at hsame
    exact ⟨text, more, rfl, (List.cons.inj hsame).1⟩

end Lines

variable {s : Following} {t : Tail}

structure Keeps (texts : List String) (s : Following) (k m : Nat) : Prop where
  bound : k ≤ texts.length
  offset : s.reader.tail.offset = (written (texts.take k)).length
  content : s.log.content = written (texts.take k) ++ s.unread
  position : s.reader.tail.position ≤ s.log.content.length
  reading : ∀ line, s.reader.phase = .reading line → 10 ∉ line ∧
    s.log.content.take s.reader.tail.position =
      written (texts.take k) ++ line ++ s.reader.tail.buffer
  rewound : s.reader.phase = .looking → s.reader.tail.rewind = s.reader.tail
  looking : s.reader.phase = .looking → s.log.isThere = false → 10 ∉ s.unread
  returned : s.returned = (parsed (texts.take k)).map .entry ++ List.replicate m .ended
  ended : m ≠ 0 → s.log.isThere = false ∧ 10 ∉ s.unread

namespace Keeps

theorem start (texts : List String) (content : Bytes) : Keeps texts (.start content) 0 0 where
  bound := Nat.zero_le _
  offset := rfl
  content := rfl
  position := Nat.zero_le _
  reading line hline := by
    cases hline
    exact ⟨List.not_mem_nil, rfl⟩
  rewound := nofun
  looking := nofun
  returned := rfl
  ended hm := absurd rfl hm

theorem offset_le (h : Keeps texts s k m) :
    s.reader.tail.offset ≤ s.log.content.length := by
  rw [h.content, List.length_append, h.offset]
  exact Nat.le_add_right _ _

theorem unread_append (h : Keeps texts s k m) (piece : Bytes) :
    (s.append piece).unread = s.unread ++ piece :=
  List.drop_append_of_le_length h.offset_le

theorem append (h : Keeps texts s k m) (hthere : s.log.isThere = true) (piece : Bytes) :
    Keeps texts (s.append piece) k m where
  bound := h.bound
  offset := h.offset
  content := by
    rw [h.unread_append, ← List.append_assoc, ← h.content]
    rfl
  position := by
    have hposition := h.position
    simp only [Following.append, List.length_append]
    omega
  reading line hline := by
    obtain ⟨hnew, htake⟩ := h.reading line hline
    exact ⟨hnew, (List.take_append_of_le_length h.position).trans htake⟩
  rewound := h.rewound
  looking _ hgone := by cases hthere.symm.trans hgone
  returned := h.returned
  ended hm := by cases hthere.symm.trans (h.ended hm).1

theorem remove (h : Keeps texts s k m) (hseen : s.reader.phase = .looking → 10 ∉ s.unread) :
    Keeps texts s.remove k m where
  bound := h.bound
  offset := h.offset
  content := h.content
  position := h.position
  reading := h.reading
  rewound := h.rewound
  looking hlooking _ := hseen hlooking
  returned := h.returned
  ended hm := ⟨rfl, (h.ended hm).2⟩

theorem unread_eq {front back : Bytes} (hcontent : s.log.content = front ++ back)
    (hoffset : s.reader.tail.offset = front.length) : s.unread = back := by
  rw [Following.unread, hcontent, hoffset, List.drop_left]

theorem unread_of_reading (h : Keeps texts s k m) (hline : s.reader.phase = .reading line) :
    s.unread = line ++ s.reader.tail.buffer ++ s.log.content.drop s.reader.tail.position := by
  have hsplit := List.take_append_drop s.reader.tail.position s.log.content
  rw [(h.reading line hline).2, List.append_assoc, List.append_assoc] at hsplit
  rw [unread_eq hsplit.symm h.offset, List.append_assoc]

theorem count_eq (hlines : ∀ text ∈ texts, '\n' ∉ text.toList) (h : Keeps texts s k m) :
    s.log.content.count 10 = k + s.unread.count 10 := by
  have htaken : (written (texts.take k)).count 10 = k := by
    rw [count_written fun text htext => hlines text (List.mem_of_mem_take htext), List.length_take]
    exact Nat.min_eq_left h.bound
  rw [h.content, List.count_append, htaken]

theorem next_text (hlines : ∀ text ∈ texts, '\n' ∉ text.toList)
    (hfits : s.log.content <+: written texts) (h : Keeps texts s k m) (hline : 10 ∉ line)
    (hunread : s.unread = line ++ 10 :: rest) :
    ∃ text, texts.take (k + 1) = texts.take k ++ [text] ∧ line = Text.encode text ∧
      k + 1 ≤ texts.length := by
  have hsplit : written texts = written (texts.take k) ++ written (texts.drop k) := by
    rw [← written_append, List.take_append_drop]
  have hprefix : line ++ 10 :: rest <+: written (texts.drop k) := by
    rw [hsplit, h.content, List.prefix_append_right_inj] at hfits
    rwa [hunread] at hfits
  obtain ⟨text, more, hdrop, hsame⟩ :=
    eq_cons_of_prefix (fun text htext => hlines text (List.mem_of_mem_drop htext)) hline hprefix
  refine ⟨text, ?_, hsame, ?_⟩
  · rw [List.take_add, hdrop]
    rfl
  · have hlength := congrArg List.length hdrop
    rw [List.length_drop, List.length_cons] at hlength
    omega

theorem takeLine {pre : Bytes} (hlines : ∀ text ∈ texts, '\n' ∉ text.toList)
    (hfits : s.log.content <+: written texts) (h : Keeps texts s k m)
    (hreader : s.reader = ⟨t, .reading line⟩) (hbuffer : t.buffer = pre ++ 10 :: rest)
    (hpre : 10 ∉ pre) :
    let (step?, reader) := Reader.takeLine { t with buffer := rest } (line ++ pre ++ [10])
    Keeps texts ⟨s.log, reader, s.returned ++ step?.toList⟩ (k + 1) 0 := by
  have hphase : s.reader.phase = .reading line := by rw [hreader]
  obtain ⟨hline, htake⟩ := h.reading line hphase
  have hunread := h.unread_of_reading hphase
  simp only [hreader, hbuffer] at htake hunread
  have hnew : 10 ∉ line ++ pre := by
    rw [List.mem_append, not_or]
    exact ⟨hline, hpre⟩
  have hwhole : s.unread = (line ++ pre) ++ 10 :: (rest ++ s.log.content.drop t.position) := by
    rw [hunread]
    simp
  obtain ⟨text, htexts, hsame, hbound⟩ := next_text hlines hfits h hnew hwhole
  have hfull : line ++ pre ++ [10] = Text.encode (text ++ "\n") := by
    have hend : Text.encode "\n" = [10] := by decide
    rw [hsame, Text.encode_append, hend]
  have hread : Text.decode? (line ++ pre ++ [10]) = some (text ++ "\n") := by
    rw [hfull, Text.decode?_encode]
  have htaken : written (texts.take (k + 1)) = written (texts.take k) ++ (line ++ pre ++ [10]) := by
    rw [htexts, written_concat, hfull]
  -- the end has not been answered yet, as a whole line is left
  have hm : m = 0 := by
    refine Decidable.byContradiction fun hm => (h.ended hm).2 ?_
    rw [hwhole]
    simp
  have hoffset := h.offset
  have hposition := h.position
  simp only [hreader] at hoffset hposition
  have hcontent : s.log.content = written (texts.take (k + 1)) ++
      (rest ++ s.log.content.drop t.position) := by
    rw [htaken, List.append_assoc]
    refine h.content.trans ?_
    rw [hwhole]
    simp
  rw [Reader.takeLine_of_some hread, Text.trim_append_newline]
  have hend : t.offset + (line ++ pre ++ [10]).length = (written (texts.take (k + 1))).length := by
    have hlength := congrArg List.length htaken
    rw [List.length_append] at hlength
    omega
  refine ⟨hbound, hend, ?_, hposition, ?_, nofun, nofun, ?_, fun hne => absurd rfl hne⟩
  · dsimp only [Following.unread]
    rw [hend, hcontent, List.drop_left]
  · intro line' hline'
    cases hline'
    refine ⟨List.not_mem_nil, ?_⟩
    rw [htaken]
    simp [htake]
  · have hreturned := h.returned
    rw [hm] at hreturned
    rw [hreturned, htexts, parsed_concat]
    cases Entry.ofLine? (Text.trim text) <;> simp

theorem readOn (h : Keeps texts s k m) (hreader : s.reader = ⟨t, .reading line⟩)
    (hbuffer : 10 ∉ t.buffer) :
    Keeps texts ⟨s.log, ⟨{ t with
      position := t.position + ((s.log.content.drop t.position).take Tail.chunk).length
      buffer := (s.log.content.drop t.position).take Tail.chunk }, .reading (line ++ t.buffer)⟩,
      s.returned⟩ k m := by
  have hphase : s.reader.phase = .reading line := by rw [hreader]
  obtain ⟨hline, htake⟩ := h.reading line hphase
  have hoffset := h.offset
  have hposition := h.position
  have hended := h.ended
  have hcontent := h.content
  simp only [Following.unread, hreader] at htake hoffset hposition hended hcontent
  refine ⟨h.bound, hoffset, hcontent, ?_, ?_, nofun, nofun, h.returned, hended⟩
  · simp only [List.length_take, List.length_drop]
    omega
  · intro line' hline'
    cases hline'
    refine ⟨?_, ?_⟩
    · rw [List.mem_append, not_or]
      exact ⟨hline, hbuffer⟩
    · dsimp only
      rw [List.take_add, htake]
      simp

theorem meetEnd (h : Keeps texts s k m) (hreader : s.reader = ⟨t, .reading line⟩)
    (hbuffer : 10 ∉ t.buffer) (hend : s.log.content.length ≤ t.position)
    (htext : s.AtEnd → (Text.decode? s.unread).isSome) :
    let (step?, reader) := Reader.meetEnd { t with buffer := [] } (line ++ t.buffer)
    Keeps texts ⟨s.log, reader, s.returned ++ step?.toList⟩ k m := by
  have hphase : s.reader.phase = .reading line := by rw [hreader]
  have hunread := h.unread_of_reading hphase
  have hline := (h.reading line hphase).1
  have hatEnd : s.AtEnd := ⟨line, hphase, by rwa [hreader], by rwa [hreader]⟩
  have hoffset := h.offset
  have hended := h.ended
  have hcontent := h.content
  have hsome := htext hatEnd
  simp only [hreader, List.drop_of_length_le hend, List.append_nil] at hunread hoffset
  rw [hunread] at hsome hended
  obtain ⟨text, hread⟩ := Option.isSome_iff_exists.mp hsome
  have hnone : 10 ∉ line ++ t.buffer := by
    rw [List.mem_append, not_or]
    exact ⟨hline, hbuffer⟩
  have hrest : s.log.content.drop t.offset = line ++ t.buffer := by
    rw [← hunread, Following.unread, hreader]
  rw [Reader.meetEnd_of_some hread]
  refine ⟨h.bound, hoffset, ?_, ?_, nofun, fun _ => rfl, ?_, ?_, ?_⟩
  · dsimp only [Following.unread, Tail.rewind]
    rw [hrest, ← hunread]
    exact hcontent
  · dsimp only [Tail.rewind]
    rw [hcontent, List.length_append, hoffset]
    exact Nat.le_add_right _ _
  · intro _ _
    dsimp only [Following.unread, Tail.rewind]
    rwa [hrest]
  · rw [h.returned]
    simp
  · dsimp only [Following.unread, Tail.rewind]
    rwa [hrest]

theorem resume {answers : List Tail.Step} {m' : Nat} (h : Keeps texts s k m)
    (hreader : s.reader = ⟨t, .looking⟩)
    (hreturned : answers = (parsed (texts.take k)).map .entry ++ List.replicate m' .ended)
    (hended : m' ≠ 0 → s.log.isThere = false ∧ 10 ∉ s.unread) :
    Keeps texts ⟨s.log, ⟨t, .reading []⟩, answers⟩ k m' := by
  have hphase : s.reader.phase = .looking := by rw [hreader]
  have hrewound := h.rewound hphase
  have hoffset := h.offset
  have hcontent := h.content
  have hposition := h.position
  simp only [Following.unread, hreader] at hrewound hoffset hcontent hended hposition
  refine ⟨h.bound, hoffset, hcontent, hposition, ?_, nofun, nofun, hreturned, hended⟩
  intro line hline
  cases hline
  refine ⟨List.not_mem_nil, ?_⟩
  -- going back to the end of the last line has emptied the buffer
  obtain ⟨offset, position, buffer⟩ := t
  simp only [Tail.rewind, Tail.mk.injEq] at hrewound
  obtain ⟨-, rfl, rfl⟩ := hrewound
  dsimp only at hoffset hcontent ⊢
  rw [hcontent, hoffset, List.take_left]
  simp

theorem turn (hlines : ∀ text ∈ texts, '\n' ∉ text.toList) (hfits : s.log.content <+: written texts)
    (h : Keeps texts s k m) (htext : s.AtEnd → (Text.decode? s.unread).isSome) :
    ∃ k' m', Keeps texts s.turn k' m' := by
  obtain ⟨result, hturns, hturn⟩ := s.turn_cases
  rw [hturn]
  generalize hreader : s.reader = reader at hturns
  cases hturns with
  | line hbuffer hpre => exact ⟨_, _, h.takeLine hlines hfits hreader hbuffer hpre⟩
  | more hbuffer hmore =>
    have hread := h.readOn hreader hbuffer
    rw [← List.append_nil s.returned] at hread
    exact ⟨_, _, hread⟩
  | metEnd hbuffer hend => exact ⟨_, _, h.meetEnd hreader hbuffer hend htext⟩
  | gone hgone =>
    have hphase : s.reader.phase = .looking := by rw [hreader]
    refine ⟨k, m + 1, h.resume hreader ?_ fun _ => ⟨hgone, h.looking hphase hgone⟩⟩
    rw [h.returned, List.replicate_succ', ← List.append_assoc]
    rfl
  | again hthere hlength =>
    refine ⟨k, m, h.resume hreader ?_ h.ended⟩
    rw [h.returned]
    simp
  | restarted hthere hlength =>
    -- the log never becomes shorter
    have hoffset := h.offset_le
    rw [hreader] at hoffset
    exact absurd hlength (Nat.not_lt.mpr hoffset)

theorem advances (hlines : ∀ text ∈ texts, '\n' ∉ text.toList)
    (hfits : s.log.content <+: written texts) (h : Keeps texts s k m)
    (hphase : s.reader.phase = .reading line) (hwhole : 10 ∈ s.unread) :
    ∃ k' m' line', Keeps texts s.turn k' m' ∧ s.turn.reader.phase = .reading line' ∧
      s.turn.left < s.left := by
  obtain ⟨result, hturns, hturn⟩ := s.turn_cases
  rw [hturn]
  generalize hreader : s.reader = reader at hturns
  cases hturns with
  | @line t line pre rest hbuffer hpre =>
    obtain ⟨hreading, hposition, hrest⟩ :=
      Reader.takeLine_keeps { t with buffer := rest } (line ++ pre ++ [10])
    refine ⟨_, _, [], h.takeLine hlines hfits hreader hbuffer hpre, hreading, ?_⟩
    simp only [Following.left, hreader, hposition, hrest, hbuffer, List.length_append, List.length_cons]
    omega
  | @more t line hbuffer hmore =>
    have hread := h.readOn hreader hbuffer
    rw [← List.append_nil s.returned] at hread
    refine ⟨_, _, _, hread, rfl, ?_⟩
    simp only [Following.left, hreader, List.length_take, List.length_drop, Tail.chunk]
    omega
  | @metEnd t line hbuffer hend =>
    have hphase' : s.reader.phase = .reading line := by rw [hreader]
    rw [h.unread_of_reading hphase', hreader, List.drop_of_length_le hend, List.append_nil,
      List.mem_append] at hwhole
    exact absurd hwhole (not_or.mpr ⟨(h.reading line hphase').1, hbuffer⟩)
  | gone | again | restarted =>
    rw [hreader] at hphase
    cases hphase

theorem catchesUp_of_reading (hlines : ∀ text ∈ texts, '\n' ∉ text.toList)
    (hfits : s.log.content <+: written texts) (h : Keeps texts s k m)
    (hphase : s.reader.phase = .reading line) :
    ∃ n k' m', Keeps texts (s.turns n) k' m' ∧ 10 ∉ (s.turns n).unread := by
  induction hleft : s.left using Nat.strongRecOn generalizing s k m line with
  | _ left ih =>
    by_cases hwhole : 10 ∈ s.unread
    · obtain ⟨k', m', line', hkeeps, hphase', hless⟩ := h.advances hlines hfits hphase hwhole
      obtain ⟨n, hn⟩ := ih _ (hleft ▸ hless) (s := s.turn) hfits hkeeps hphase' rfl
      exact ⟨n + 1, hn⟩
    · exact ⟨0, k, m, h, hwhole⟩

theorem catchesUp (hlines : ∀ text ∈ texts, '\n' ∉ text.toList)
    (hfits : s.log.content <+: written texts) (h : Keeps texts s k m) :
    ∃ n k' m', Keeps texts (s.turns n) k' m' ∧ 10 ∉ (s.turns n).unread := by
  cases hphase : s.reader.phase with
  | reading line => exact h.catchesUp_of_reading hlines hfits hphase
  | looking =>
    cases hthere : s.log.isThere with
    | false => exact ⟨0, k, m, h, h.looking hphase hthere⟩
    | true =>
      have hturn : s.reader.turn s.log = (none, ⟨s.reader.tail, .reading []⟩) := by
        simp [Reader.turn, hphase, hthere, h.offset_le]
      have hagain : Keeps texts s.turn k m := by
        rw [Following.turn, hturn]
        refine h.resume (t := s.reader.tail) ?_ ?_ h.ended
        · rw [← hphase]
        · simp [h.returned]
      have hreading : s.turn.reader.phase = .reading [] := by rw [Following.turn, hturn]
      obtain ⟨n, hn⟩ := hagain.catchesUp_of_reading (s := s.turn) hlines hfits hreading
      exact ⟨n + 1, hn⟩

end Keeps

theorem keeps_of_reached (hlines : ∀ text ∈ texts, '\n' ∉ text.toList) (h : Following.Reached s)
    (hfits : s.log.content <+: written texts) : ∃ k m, Keeps texts s k m := by
  induction h with
  | start content => exact ⟨0, 0, .start texts content⟩
  | @append s h hthere piece ih =>
    obtain ⟨k, m, hkeeps⟩ := ih ((List.prefix_append _ _).trans hfits)
    exact ⟨k, m, hkeeps.append hthere piece⟩
  | @remove s h hseen ih =>
    obtain ⟨k, m, hkeeps⟩ := ih hfits
    exact ⟨k, m, hkeeps.remove hseen⟩
  | @turn s h htext ih =>
    obtain ⟨k, m, hkeeps⟩ := ih hfits
    exact hkeeps.turn hlines hfits htext

/-- A reader that follows a log never fails. It returns the entries of the whole lines in order,
each once, and has returned all of them before it answers that the log has ended. If it goes on it
returns all of them. -/
theorem returned_of_reached (hlines : ∀ text ∈ texts, '\n' ∉ text.toList)
    (h : Following.Reached s) (hfits : s.log.content <+: written texts) :
    ∃ k m, k ≤ s.log.content.count 10 ∧
      s.returned = (parsed (texts.take k)).map .entry ++ List.replicate m .ended ∧
      (m ≠ 0 → s.log.isThere = false ∧ k = s.log.content.count 10) ∧
      ∃ n m', (s.turns n).returned =
        (parsed (texts.take (s.log.content.count 10))).map .entry ++ List.replicate m' .ended := by
  obtain ⟨k, m, hkeeps⟩ := keeps_of_reached hlines h hfits
  have hcount := hkeeps.count_eq hlines
  refine ⟨k, m, by omega, hkeeps.returned, ?_, ?_⟩
  · intro hm
    obtain ⟨hgone, hnone⟩ := hkeeps.ended hm
    rw [List.count_eq_zero.mpr hnone] at hcount
    exact ⟨hgone, hcount.symm⟩
  · obtain ⟨n, k', m', hlast, hnone⟩ := hkeeps.catchesUp hlines hfits
    have hall := hlast.count_eq hlines
    rw [Following.log_turns, List.count_eq_zero.mpr hnone] at hall
    refine ⟨n, m', ?_⟩
    rw [hlast.returned, hall]
    rfl

def startText : String :=
  "\x7b\"timestamp\":\"2026-01-01T00:00:00Z\",\"type\":\"tracking\",\"path\":\"/é\",\"operation\":\"start\"\x7d"

def startEntry : Entry := ⟨⟨1767225600, 0⟩, .tracking "/é" "start" none⟩

theorem parsed_startText : parsed [startText] = [startEntry] := by cbv

def waiting : Following :=
  (Following.start ((Text.encode startText).take 60)).turn.turn.turn

def inPieces : Following :=
  let line := Text.encode startText
  ((waiting.append ((line.drop 60).take 4)).append (line.drop 64 ++ [10])).remove

theorem reached_waiting : Following.Reached waiting := by
  apply Following.Reached.turn _ fun _ => by decide +kernel
  apply Following.Reached.turn _ fun _ => by decide +kernel
  apply Following.Reached.turn _ fun _ => by decide +kernel
  exact .start _

theorem reached_inPieces : Following.Reached inPieces := by
  refine .remove (.append (.append reached_waiting rfl _) rfl _) ?_
  intro hlooking
  exact absurd hlooking (by decide +kernel)

theorem content_inPieces : inPieces.log.content = written [startText] := by cbv

theorem newline_not_mem_startText : ∀ text ∈ [startText], '\n' ∉ text.toList := by decide

theorem returned_inPieces : Following.Reached inPieces ∧ inPieces.log.content = written [startText] ∧
    ∃ n m, (inPieces.turns n).returned = .entry startEntry :: List.replicate m .ended := by
  have hfits : inPieces.log.content <+: written [startText] := content_inPieces ▸ List.prefix_rfl
  obtain ⟨-, -, -, -, -, n, m, h⟩ :=
    returned_of_reached newline_not_mem_startText reached_inPieces hfits
  have hcount : inPieces.log.content.count 10 = 1 := by
    rw [content_inPieces, count_written newline_not_mem_startText, List.length_singleton]
  rw [hcount, List.take_one, List.head?_cons, Option.toList_some, parsed_startText] at h
  exact ⟨reached_inPieces, content_inPieces, n, m, h⟩

def openText : String := "\x7b\"timestamp\":\"2026-01-01T00:00:00Z\",\"type\":\"started\"\x7d"

def openEntry : Entry := ⟨⟨1767225600, 0⟩, .started⟩

def cutLog : LogFile := ⟨written [openText] ++ (Text.encode startText).take 64, true⟩

theorem takeLine_openText (t : Tail) : Reader.takeLine t (Text.encode (openText ++ "\n")) =
    (some (.entry openEntry), ⟨{ t with offset := t.offset + 54 }, .reading []⟩) := by
  have hentry : Entry.ofLine? (Text.trim (openText ++ "\n")) = some openEntry := by
    rw [Text.trim_append_newline]
    cbv
  have hlength : (Text.encode (openText ++ "\n")).length = 54 := by decide +kernel
  rw [Reader.takeLine_of_some (Text.decode?_encode _), hentry, hlength]
  rfl

theorem failed_of_half_a_character :
    let s := (Following.start cutLog.content).turn.turn.turn
    s.log.content <+: written [openText, startText] ∧ s.returned = [.entry openEntry, .failed] := by
  let half := (Text.encode startText).take 64
  have hread : (Following.start cutLog.content).turn =
      ⟨cutLog, ⟨⟨0, 118, cutLog.content⟩, .reading []⟩, []⟩ := by cbv
  have hline : Following.turn ⟨cutLog, ⟨⟨0, 118, cutLog.content⟩, .reading []⟩, []⟩ =
      ⟨cutLog, ⟨⟨54, 118, half⟩, .reading []⟩, [.entry openEntry]⟩ := by
    have hnewline : cutLog.content.idxOf? 10 = some 53 := by decide +kernel
    have htake : cutLog.content.take 54 = Text.encode (openText ++ "\n") := by decide +kernel
    have hdrop : cutLog.content.drop 54 = half := by decide +kernel
    simp only [Following.turn, Reader.turn, hnewline, htake, hdrop, List.nil_append,
      takeLine_openText, Nat.zero_add, Option.toList_some]
  have hend : Following.turn ⟨cutLog, ⟨⟨54, 118, half⟩, .reading []⟩, [.entry openEntry]⟩ =
      ⟨cutLog, ⟨⟨54, 118, []⟩, .reading []⟩, [.entry openEntry, .failed]⟩ := by
    have hnewline : half.idxOf? 10 = none := by decide +kernel
    have hmore : (cutLog.content.drop 118).take Tail.chunk = [] := by decide +kernel
    have hhalf : Text.decode? half = none := by decide +kernel
    simp only [Following.turn, Reader.turn, hnewline, hmore, ↓reduceIte, List.nil_append,
      Reader.meetEnd_of_none hhalf, Option.toList_some, List.cons_append]
  have hwhole : cutLog.content ++ ((Text.encode startText).drop 64 ++ [10]) =
      written [openText, startText] := by decide +kernel
  dsimp only
  rw [hread, hline, hend]
  exact ⟨⟨_, hwhole⟩, rfl⟩

/-- A line that comes after the end has been met is not returned if the log is removed before the
reader looks for it. -/
theorem ended_before_last_line :
    let s := ((Following.start []).turn.append (written [startText])).remove.turn
    parsed [startText] = [startEntry] ∧ s.returned = [.ended] := by
  intro s
  exact ⟨parsed_startText, by cbv⟩

end EditorSync.Session
